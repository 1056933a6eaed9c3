import DeskCalculator.Proofs.Growth
/-!
The settings against what the other parts of the calculator say of them. Main statement:
`Calculator.configured_reachable` says that the expression in progress, the number being typed, the
operands and the copy that Enter makes agree with the settings.
-/
namespace DeskCalculator
namespace Calculator

/-- Is nothing left of a number that is not being typed any more, and does a copy that the next
operand replaces lie above what it is a copy of? -/
structure Tidy (c : Calculator) : Prop where
  entry : ¬ c.isTyping → c.entry = c.entry.clear
  copy : c.replacesTop → ∃ t rest, c.context.nodes = t :: t :: rest

/-- Do all parts of the calculator agree with the settings? -/
structure Configured (c : Calculator) : Prop where
  mode : c.context.mode = c.settings.mode
  angle : c.context.angle = c.settings.angle
  style : c.context.style = c.settings.style
  base : c.entry.base = c.settings.effectiveBase
  integral : c.entry.integral ↔ c.settings.domain = .integer
  entry : ¬ c.isTyping → c.entry = c.settings.freshEntry
  literals : ∀ t ∈ c.context.nodes, t.LiteralsIn c.settings.domain
  copy : c.replacesTop → c.settings.style = .rpn ∧ ∃ t rest, c.context.nodes = t :: t :: rest

variable {c : Calculator}

theorem tidy_of_clear (he : c.entry = c.entry.clear) (hr : c.replacesTop = false) : c.Tidy where
  entry _ := he
  copy h := absurd (hr.symm.trans h) Bool.false_ne_true

theorem tidy_ofSettings (s : Settings) (random : Random) : (ofSettings s random).Tidy :=
  tidy_of_clear rfl rfl

/-! Typing. -/

theorem Tidy.typed (h : c.Tidy) (e : Entry) : Tidy { c.beginTyping with entry := e } where
  entry ht := absurd (isTyping_beginTyping c) ht
  copy hr := by
    have hreplaces : c.beginTyping.replacesTop = c.replacesTop := by
      simp only [beginTyping]
      split <;> rfl
    obtain ⟨t, rest, hn⟩ := h.copy (hreplaces ▸ hr)
    exact ⟨t, rest, (congrArg Context.nodes (context_beginTyping c)).trans hn⟩

theorem Tidy.setEntry (h : c.Tidy) (ht : c.isTyping) (e : Entry) : Tidy { c with entry := e } where
  entry hn := absurd ht hn
  copy := h.copy

theorem Tidy.digit (h : c.Tidy) (d : Nat) : (c.digit d).1.Tidy := by
  unfold Calculator.digit
  split
  · dsimp only
    split
    · exact h.typed _
    · exact h.typed _
  · exact h

theorem Tidy.typeDouble (h : c.Tidy) (f : Entry → Entry) : (c.typeDouble f).Tidy := by
  simp only [Calculator.typeDouble]
  split
  · exact h
  · exact h.typed _

theorem Tidy.backspace (h : c.Tidy) : c.backspace.Tidy := by
  simp only [Calculator.backspace]
  split
  · rename_i ht
    exact h.setEntry ht _
  · exact h

theorem Tidy.clearEntry (h : c.Tidy) : c.clearEntry.Tidy := ⟨fun _ => rfl, h.copy⟩

/-! Operators and results. -/

theorem Tidy.entry_commitTyped (h : c.Tidy) : c.commitTyped.entry = c.commitTyped.entry.clear := by
  simp only [commitTyped]
  split
  · rfl
  · rename_i ht
    exact h.entry ht

theorem Tidy.operator (h : c.Tidy) (op : Operator) : (c.operator op).1.Tidy := by
  simp only [Calculator.operator, restore_commitTyped]
  split
  · exact tidy_of_clear h.entry_commitTyped rfl
  · exact h

theorem Tidy.changeSign (h : c.Tidy) : c.changeSign.Tidy := by
  simp only [Calculator.changeSign]
  split
  · rename_i ht
    exact h.setEntry ht _
  · split
    · exact h.typed _
    · exact h.operator .negate

theorem Tidy.equals (h : c.Tidy) : c.equals.1.Tidy := by
  simp only [Calculator.equals, restore_commitTyped]
  split
  · exact h
  · split
    · exact h
    · exact tidy_of_clear h.entry_commitTyped rfl

theorem Tidy.evaluateText (h : c.Tidy) (source : String) : (c.evaluateText source).1.Tidy := by
  simp only [Calculator.evaluateText]
  split
  · exact h
  · split
    · exact h
    · exact tidy_of_clear rfl rfl

/-! Settings. -/

theorem tidy_resetExpression (c : Calculator) : c.resetExpression.Tidy := tidy_of_clear rfl rfl

theorem Tidy.setBase (h : c.Tidy) (b : Base) : (c.setBase b).Tidy := by
  unfold Calculator.setBase
  dsimp only
  split
  · exact tidy_of_clear rfl rfl
  · exact ⟨h.entry, h.copy⟩

/-! The stack, the memory and random numbers. -/

theorem Tidy.rearrange (h : c.Tidy) (f : Context → Option Context) : (c.rearrange f).1.Tidy := by
  simp only [Calculator.rearrange]
  split
  · split
    · exact tidy_of_clear h.entry_commitTyped rfl
    · exact tidy_of_clear h.entry_commitTyped rfl
  · exact h

theorem Tidy.drop (h : c.Tidy) : c.drop.1.Tidy := by
  simp only [Calculator.drop]
  split
  · exact ⟨fun _ => rfl, h.copy⟩
  · exact h.rearrange _

theorem Tidy.enter (h : c.Tidy) : c.enter.1.Tidy := by
  simp only [Calculator.enter]
  split
  · exact h.equals
  · split
    · exact tidy_of_clear rfl rfl
    · rename_i ht
      split
      · rename_i context hc
        refine ⟨fun _ => h.entry ht, fun _ => ?_⟩
        simp only [Context.duplicate?] at hc
        split at hc
        · rename_i t rest hn
          obtain rfl := Option.some.inj hc
          exact ⟨t, rest, rfl⟩
        · cases hc
      · exact ⟨h.entry, h.copy⟩

theorem Tidy.accumulate (h : c.Tidy) (f : Float → Float → Float) : (c.accumulate f).Tidy := by
  simp only [Calculator.accumulate]
  split
  · exact h
  · split
    · exact tidy_of_clear rfl rfl
    · exact ⟨h.entry, h.copy⟩

theorem Tidy.pushValue (h : c.Tidy) (v : Value) : (c.pushValue v).Tidy := by
  refine tidy_of_clear ?_ rfl
  show (if c.isTyping then c.entry.clear else c.entry) = Entry.clear (if c.isTyping then _ else _)
  split
  · rfl
  · rename_i ht
    exact h.entry ht

theorem Tidy.memoryKey (h : c.Tidy) (k : MemoryKey) : (c.memoryKey k).Tidy := by
  cases k with
  | add | subtract => exact h.accumulate _
  | read => exact h.pushValue _
  | clear => exact ⟨h.entry, h.copy⟩

theorem Tidy.randomKey (h : c.Tidy) : c.randomKey.Tidy := by
  unfold Calculator.randomKey
  rcases c.random.next with ⟨word, random⟩
  exact Tidy.pushValue (c := { c with random }) ⟨h.entry, h.copy⟩ _

theorem Tidy.press (h : c.Tidy) (k : Key) : (c.press k).1.Tidy := by
  cases k with
  | digit d => exact h.digit d
  | point => exact h.typeDouble Entry.point
  | startExponent => exact h.typeDouble Entry.startExponent
  | operator op => exact h.operator op
  | equals => exact h.equals
  | allClear => exact tidy_of_clear rfl rfl
  | clearEntry => exact h.clearEntry
  | changeSign => exact h.changeSign
  | backspace => exact h.backspace
  | mode m => exact tidy_resetExpression _
  | base b => exact h.setBase b
  | angle u => exact tidy_resetExpression _
  | style s => exact tidy_resetExpression _
  | memory k => exact h.memoryKey k
  | enter => exact h.enter
  | swap => exact h.rearrange Context.swap?
  | drop => exact h.drop
  | rollDown => exact h.rearrange Context.rollDown?
  | rollUp => exact h.rearrange Context.rollUp?
  | random => exact h.randomKey

theorem Tidy.feed (h : c.Tidy) (i : Input) : (c.feed i).Tidy := by
  cases i with
  | key k => exact h.press k
  | text source => exact h.evaluateText source

theorem Reachable.tidy (h : c.Reachable) : c.Tidy := by
  induction h with
  | fresh s random => exact tidy_ofSettings s random
  | feed _ i ih => exact ih.feed i
  | separators _ on ih => exact ⟨ih.entry, ih.copy⟩
  | draw _ random ih => exact ⟨ih.entry, ih.copy⟩

theorem Reachable.literalsIn (h : c.Reachable) {t : Tree} (ht : t ∈ c.context.nodes) :
    t.LiteralsIn c.domain := by
  have hall := Tree.inherited_literalsIn.of_reachable Tree.literalsIn_number.2 h t ht
  rwa [h.coherent.toSound.mode] at hall

/-- Wherever keys and written expressions lead, the expression in progress has the mode, the angle
unit and the style of the settings, the number being typed has the base and the kind that they ask
for and leaves nothing behind, all literals on the stack are errors or numbers of the domain, and
Enter has its copy to replace on the stack of reverse Polish entry only, above the same operand. -/
theorem configured_reachable (h : c.Reachable) : c.Configured := by
  obtain ⟨hsound, hfits, -⟩ := h.coherent
  obtain ⟨hmode, hangle, hstyle⟩ := hsound.settings
  have hintegral : c.entry.integral = decide (c.settings.domain = .integer) :=
    congrArg Entry.integral hfits
  exact
    { mode := hmode
      angle := hangle
      style := hstyle
      base := hfits.entry_base
      integral := by rw [hintegral, decide_eq_true_iff]
      entry := fun ht => (h.tidy.entry ht).trans hfits
      literals := fun _ ht => h.literalsIn ht
      copy := fun hr => ⟨hsound.copy hr, h.tidy.copy hr⟩ }

theorem configured_reachable_copy :
    let c := (ofSettings { mode := .programmer, base := .hex, style := .rpn } ⟨0⟩).run
      [.key (.digit 12), .key .enter, .key .enter, .key (.digit 15)]
    c.Reachable ∧ c.Configured ∧ c.replacesTop ∧ c.entry.base = .hex ∧
      ∃ t rest, c.context.nodes = t :: t :: rest := by
  intro c
  have hc : c.Reachable := reachable_run _ _ _
  have hconfigured : c.Configured := configured_reachable hc
  exact ⟨hc, hconfigured, rfl, hconfigured.base, (hconfigured.copy rfl).2⟩

end Calculator
end DeskCalculator
