import DeskCalculator.Proofs.Alike
import DeskCalculator.Proofs.Configuration
/-!
Starting over. Main statements: `Calculator.view_run_of_startsOver` says that after a key which
gives up the expression in progress all goes on as on a new calculator, and
`Calculator.run_beginsOperand` that a new operand after a result does what it does after all has
been cleared.
-/
namespace DeskCalculator

namespace Context

variable {c c' : Context} {op : Operator}

@[simp] theorem makeRoom_clear (c : Context) : c.clear.makeRoom = c.clear := by
  simp [makeRoom, clear, awaitsOperand]

/-- Does an operator key ask nothing of the operands: is it a constant or an opening parenthesis? -/
def BeginsOperand (c : Context) (op : Operator) : Prop :=
  op = .openParen ∨ op.availableIn c.mode ∧ ∃ x, op.rule = .constant x

theorem BeginsOperand.apply (h : c.BeginsOperand op) (hs : c.style = .algebraic)
    (hroom : c'.makeRoom = c.makeRoom) :
    ∃ context, c.apply op = .ok context ∧ c'.apply op = .ok context := by
  have hs' : c'.style = .algebraic := by rwa [← makeRoom_style, hroom, makeRoom_style]
  have hmode : c'.mode = c.mode := by rw [← makeRoom_mode, hroom, makeRoom_mode]
  rcases h with rfl | ⟨hop, x, hx⟩
  · refine ⟨{ c.makeRoom with pending := .openParen :: c.makeRoom.pending }, ?_, ?_⟩
    · simp only [apply_openParen, applyOpenParen, hs]
    · simp only [apply_openParen, applyOpenParen, hs', hroom]
  · have happly {c : Context} (hop : op.availableIn c.mode) :
        c.apply op = .ok (c.pushOperand (Tree.constantLiteral c.mode op x)) := by
      have harity : op.arity = 0 := congrArg BuildRule.arity hx
      have hbuild : Tree.build op [] c.mode c.angle = .ok (Tree.constantLiteral c.mode op x) := by
        simp only [Tree.build, hx]
      rw [apply_of_rule_ne_group (by simp [hx]) hop, if_neg (by simp [harity]), applyNow,
        if_pos harity, hbuild]
      rfl
    refine ⟨_, happly hop, ?_⟩
    rw [happly (hmode ▸ hop), pushOperand, pushOperand, hroom, hmode]

end Context

/-- Does a key give up the expression in progress, for other settings or to clear all? -/
def Key.startsOver : Key → Bool
  | mode _ | angle _ | style _ | allClear => true
  | _ => false

namespace Calculator

variable {c : Calculator} {k : Key} {inputs : List Input}

theorem Sound.clear_context (h : c.Sound) : c.context.clear = .ofSettings c.settings := by
  obtain ⟨hmode, hangle, hstyle⟩ := h.settings
  simp only [Context.ofSettings] at hmode hangle hstyle
  simp only [Context.clear, Context.ofSettings, hmode, hangle, hstyle]

theorem Reachable.alike_startsOver (h : c.Reachable) (hk : k.startsOver) (random : Random) :
    Alike False { ofSettings (c.press k).1.settings random with memory := c.memory }
      (c.press k).1 := by
  cases k with
  | mode m | angle u | style s => exact ⟨⟨rfl, rfl, rfl, rfl, rfl⟩, .inl rfl, .inr rfl⟩
  | allClear =>
    have hcontext := h.coherent.toSound.clear_context
    exact ⟨⟨rfl, h.coherent.fits, rfl, rfl, rfl⟩, .inl hcontext, .inr rfl⟩
  | _ => cases hk

/-- Wherever keys and written expressions have led, a change of the keypad, the angle unit or the
entry style, or the key to clear all, leaves no trace of the expression: after any inputs that draw
no random number, all that can be asked of the calculator, and each result on the way, is as on a
new calculator with the same settings and the same memory. -/
theorem view_run_of_startsOver (h : c.Reachable) (hk : k.startsOver) (random : Random)
    (hinputs : ∀ i ∈ inputs, i ≠ .key .random) :
    let reset := (c.press k).1
    let new : Calculator := { ofSettings reset.settings random with memory := c.memory }
    (reset.run inputs).view = (new.run inputs).view ∧
      reset.answers inputs = new.answers inputs := by
  intro reset new
  obtain ⟨halike, hanswers⟩ := (h.alike_startsOver hk random).run hinputs
  exact ⟨halike.view, hanswers⟩

theorem view_run_of_startsOver_style :
    let c := (ofSettings { mode := .programmer } ⟨0⟩).run
      [.key (.digit 7), .key (.operator .add), .key (.digit 5), .key (.memory .add)]
    let inputs : List Input :=
      [.key (.digit 2), .key .enter, .key (.digit 3), .key (.operator .mul), .text "6 * 7"]
    let reset := (c.press (.style .rpn)).1
    let new : Calculator := { ofSettings reset.settings ⟨1⟩ with memory := c.memory }
    c.Reachable ∧ Key.startsOver (.style .rpn) ∧ (∀ i ∈ inputs, i ≠ .key .random) ∧
      (reset.run inputs).view = (new.run inputs).view ∧
      reset.answers inputs = new.answers inputs := by
  intro c inputs reset new
  have hc : c.Reachable := reachable_run _ _ _
  have hinputs : ∀ i ∈ inputs, i ≠ .key .random := by simp [inputs]
  exact ⟨hc, rfl, hinputs, view_run_of_startsOver hc rfl ⟨1⟩ hinputs⟩

/-! A new operand after a result. -/

/-- Is a result shown that the next operand takes the place of? -/
structure ShowsResult (c : Calculator) : Prop where
  style : c.settings.style = .algebraic
  idle : ¬ c.isTyping
  kept : c.replacesTop = false
  context : c.context.makeRoom = c.context.clear

/-- The keys that begin an operand: digits that are taken, the point and the exponent where numbers
may have them, the constants of the keypad and the opening parenthesis. -/
inductive BeginsOperand (c : Calculator) : Key → Prop where
  | digit {d : Nat} (hd : (c.digit d).2) : BeginsOperand c (.digit d)
  | point (hmode : c.settings.mode ≠ .programmer) : BeginsOperand c .point
  | startExponent (hmode : c.settings.mode ≠ .programmer) : BeginsOperand c .startExponent
  | constant {op : Operator} {x : Float} (hop : op.availableIn c.settings.mode)
      (hx : op.rule = .constant x) : BeginsOperand c (.operator op)
  | openParen : BeginsOperand c (.operator .openParen)

theorem operator_of_not_isTyping (ht : ¬ c.isTyping) {op : Operator} {context : Context}
    (h : c.context.apply op = .ok context) :
    c.operator op = (({ c with context, phase := .idle, replacesTop := false }
      : Calculator).refreshDisplay, true) := by
  have hcommit : c.commitTyped = c := if_neg ht
  have htyped : c.commitTyped.context.apply op = .ok context := by rwa [hcommit]
  rw [operator_of_apply htyped, hcommit]

theorem Sound.showsResult_equals (h : c.Sound) (hstyle : c.settings.style = .algebraic)
    {e : Evaluation} (he : c.equals.2 = some e) : c.equals.1.ShowsResult := by
  obtain ⟨-, hequals⟩ := h.equals_of_finish (h.of_equals he).1
  rw [hequals]
  have hsettings : c.commitTyped.settings.style = .algebraic := by rwa [settings_commitTyped]
  refine ⟨hsettings, Bool.false_ne_true, rfl, ?_⟩
  have hresult (v : Value) : c.resultContext v = c.commitTyped.context.resetTo (.number v) := by
    simp only [resultContext, hstyle]
  have hrest : c.commitTyped.context.style = .algebraic :=
    h.sameSettings_commitTyped.style.trans hstyle
  simp [publish, hresult, Context.makeRoom, Context.resetTo, Context.clear, Context.awaitsOperand,
    hrest]

namespace ShowsResult

theorem alike_typed (h : c.ShowsResult) (e : Entry) :
    Alike True { c.allClear with entry := e, phase := .typing }
      { c with entry := e, phase := .typing } where
  settings := rfl
  entry := rfl
  phase := rfl
  memory := rfl
  replacesTop := h.kept
  context := .inr ⟨trivial, h.style, rfl, rfl, h.context.trans (Context.makeRoom_clear _).symm⟩
  display := .inl rfl

theorem alike_digit (h : c.ShowsResult) (hc : c.Coherent) {d : Nat} (hd : (c.digit d).2) :
    Alike True (c.allClear.digit d).1 (c.digit d).1 := by
  have hradix : d < c.base.radix := by
    by_contra hn
    simp [digit, hc.fits.entry_base, hn] at hd
  rw [hc.fits.digit_of_not_isTyping h.idle hradix,
    hc.allClear.fits.digit_of_not_isTyping Bool.false_ne_true hradix]
  exact h.alike_typed _

theorem alike_typeDouble (h : c.ShowsResult) (hc : c.Coherent)
    (hmode : c.settings.mode ≠ .programmer) (f : Entry → Entry) :
    Alike True (c.allClear.typeDouble f) (c.typeDouble f) := by
  have hdomain : c.domain ≠ .integer := by
    rw [domain, Settings.domain]
    cases hm : c.settings.mode <;> simp_all [Mode.domain]
  have hcleared : c.allClear.domain ≠ .integer := hdomain
  simp only [typeDouble, if_neg hdomain, if_neg hcleared,
    hc.fits.beginTyping_of_not_isTyping h.idle,
    hc.allClear.fits.beginTyping_of_not_isTyping Bool.false_ne_true]
  exact h.alike_typed _

theorem alike_operator (h : c.ShowsResult) (hc : c.Coherent) (ht : c.Tidy) {op : Operator}
    (hop : c.context.BeginsOperand op) :
    Alike True (c.allClear.operator op).1 (c.operator op).1 := by
  have hstyle : c.context.style = .algebraic := hc.toSound.style.trans h.style
  obtain ⟨context, happly, hcleared⟩ := hop.apply hstyle
    ((Context.makeRoom_clear c.context).trans h.context.symm)
  rw [operator_of_not_isTyping h.idle happly,
    operator_of_not_isTyping (c := c.allClear) Bool.false_ne_true hcleared]
  exact Agree.refreshDisplay ⟨⟨rfl, ht.entry h.idle, rfl, rfl, rfl⟩, rfl⟩

theorem alike_press (h : c.ShowsResult) (hc : c.Coherent) (ht : c.Tidy) (hk : c.BeginsOperand k) :
    Alike True (c.allClear.press k).1 (c.press k).1 ∧
      (c.press k).2 = none ∧ (c.allClear.press k).2 = none := by
  cases hk with
  | digit hd => exact ⟨h.alike_digit hc hd, rfl, rfl⟩
  | point hmode => exact ⟨h.alike_typeDouble hc hmode Entry.point, rfl, rfl⟩
  | startExponent hmode => exact ⟨h.alike_typeDouble hc hmode Entry.startExponent, rfl, rfl⟩
  | constant hop hx =>
    have hop' := hc.toSound.mode.symm ▸ hop
    exact ⟨h.alike_operator hc ht (.inr ⟨hop', _, hx⟩), rfl, rfl⟩
  | openParen => exact ⟨h.alike_operator hc ht (.inl rfl), rfl, rfl⟩

end ShowsResult

/-- A key that begins an operand after a result in algebraic entry starts over: whatever follows,
but for random numbers, the display, the phase and the results are as if all had been cleared before
that key, and so is the expression in progress whenever no number is being typed. -/
theorem run_beginsOperand (h : c.Reachable) (hstyle : c.settings.style = .algebraic)
    {e : Evaluation} (he : c.equals.2 = some e) (hk : c.equals.1.BeginsOperand k)
    (hinputs : ∀ i ∈ inputs, i ≠ .key .random) :
    let shown := c.equals.1
    let after := shown.run (.key k :: inputs)
    let cleared := shown.allClear.run (.key k :: inputs)
    after.displayText = cleared.displayText ∧ after.displayValue = cleared.displayValue ∧
      after.phase = cleared.phase ∧ (¬ after.isTyping → after.context = cleared.context) ∧
      shown.answers (.key k :: inputs) = shown.allClear.answers (.key k :: inputs) := by
  intro shown after cleared
  have hshown : shown.Reachable := h.feed (.key .equals)
  have hresult : shown.ShowsResult := h.coherent.toSound.showsResult_equals hstyle he
  obtain ⟨hfirst, hnone, hcleared⟩ := hresult.alike_press hshown.coherent hshown.tidy hk
  obtain ⟨halike, hanswers⟩ := hfirst.run hinputs
  refine ⟨halike.displayText, halike.displayValue, halike.phase, fun ht => ?_, ?_⟩
  · exact (halike.agree_of_not_isTyping (halike.isTyping ▸ ht)).context
  · simp only [answers, answer, hnone, hcleared]
    exact congrArg _ hanswers

theorem run_beginsOperand_digit :
    let c := (ofSettings { mode := .programmer } ⟨0⟩).run
      [.key (.digit 7), .key (.operator .add), .key (.digit 5)]
    let inputs : List Input := [.key (.operator .mul), .key (.digit 4), .key .equals]
    let after := c.equals.1.run (.key (.digit 3) :: inputs)
    let cleared := c.equals.1.allClear.run (.key (.digit 3) :: inputs)
    c.Reachable ∧ c.equals.1.displayValue = .integer 12 ∧ c.equals.1.BeginsOperand (.digit 3) ∧
      (∀ i ∈ inputs, i ≠ .key .random) ∧ after.displayValue = cleared.displayValue ∧
      cleared.displayValue = .integer 12 ∧ after.context = cleared.context := by
  have hc : ((ofSettings { mode := .programmer } ⟨0⟩).run
      [.key (.digit 7), .key (.operator .add), .key (.digit 5)]).Reachable := reachable_run _ _ _
  have hinputs : ∀ i ∈ [Input.key (.operator .mul), .key (.digit 4), .key .equals],
      i ≠ .key .random := by simp
  obtain ⟨-, hvalue, -, hcontext, -⟩ :=
    run_beginsOperand hc rfl rfl (.digit (d := 3) rfl) hinputs
  exact ⟨hc, rfl, .digit rfl, hinputs, hvalue, rfl, hcontext Bool.false_ne_true⟩

end Calculator
end DeskCalculator
