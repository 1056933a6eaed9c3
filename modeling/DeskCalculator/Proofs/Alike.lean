import DeskCalculator.Proofs.ValueStack
/-!
Calculators that no key tells apart. Main statement: `Calculator.Alike.run` says that calculators
which agree in all that later keys depend on still do so after any keys and written expressions, and
have given the same results.
-/
namespace DeskCalculator

namespace Context

theorem clear_makeRoom (c : Context) : c.makeRoom.clear = c.clear := by
  simp only [makeRoom]
  split <;> rfl

theorem resetTo_makeRoom (c : Context) (t : Tree) : c.makeRoom.resetTo t = c.resetTo t := by
  simp only [makeRoom]
  split <;> rfl

end Context

namespace Calculator

/-- The result that an input gives back, if any, or why a written expression has none. -/
def answer (c : Calculator) : Input → Except EvaluationError (Option Evaluation)
  | .key k => .ok (c.press k).2
  | .text source => (c.evaluateText source).2.map some

def answers (c : Calculator) : List Input → List (Except EvaluationError (Option Evaluation))
  | [] => []
  | i :: inputs => c.answer i :: (c.feed i).answers inputs

/-- What can be asked of a calculator, but for its last result. -/
structure View where
  displayText : String
  displayValue : Value
  phase : Phase
  stackValues : List Value
  operands : List Tree
  memory : Float
  settings : Settings

def view (c : Calculator) : View where
  displayText := c.displayText
  displayValue := c.displayValue
  phase := c.phase
  stackValues := c.stackValues
  operands := c.context.nodes
  memory := c.memory
  settings := c.settings

structure Shares (c c' : Calculator) : Prop where
  settings : c'.settings = c.settings
  entry : c'.entry = c.entry
  phase : c'.phase = c.phase
  memory : c'.memory = c.memory
  replacesTop : c'.replacesTop = c.replacesTop

/-- Do two calculators agree in all but what they show while nothing is typed, their last results
and the random numbers to come? -/
structure Agree (c c' : Calculator) : Prop extends Shares c c' where
  context : c'.context = c.context

/-- Is a number being typed that takes the place of all that two expressions differ in? -/
structure Overtypes (c c' : Calculator) : Prop where
  style : c.settings.style = .algebraic
  typing : c.isTyping
  kept : c.replacesTop = false
  context : c'.context.makeRoom = c.context.makeRoom

/-- Can no key but the one for random numbers tell two calculators apart? What is shown may differ
behind a number being typed, since all that ends the typing shows something else; and so may, where
that is allowed, the operand that the number replaces. -/
structure Alike (overtyping : Prop) (c c' : Calculator) : Prop extends Shares c c' where
  context : c'.context = c.context ∨ overtyping ∧ Overtypes c c'
  display : c.isTyping ∨ c'.display = c.display

variable {p : Prop} {c c' : Calculator}

theorem Shares.isTyping (h : Shares c c') : c'.isTyping = c.isTyping := by
  simp only [Calculator.isTyping, h.phase]

theorem Shares.domain (h : Shares c c') : c'.domain = c.domain :=
  congrArg Settings.domain h.settings

theorem Shares.evaluate (h : Shares c c') : c'.evaluate = c.evaluate := by
  funext t
  simp only [Calculator.evaluate, compile, h.domain]

/-! What agrees is shown alike. -/

theorem Agree.refreshDisplay (h : Agree c c') : Alike p c.refreshDisplay c'.refreshDisplay where
  settings := h.settings
  entry := h.entry
  phase := h.phase
  memory := h.memory
  replacesTop := h.replacesTop
  context := .inl h.context
  display := by
    simp only [Calculator.refreshDisplay, h.context, h.settings, valueOf_congr h.domain, or_true]

theorem Agree.publish (h : Agree c c') (v : Value) (t : Tree) :
    Alike p (c.publish v t).1 (c'.publish v t).1 where
  settings := h.settings
  entry := h.entry
  phase := rfl
  memory := h.memory
  replacesTop := rfl
  context := .inl h.context
  display := .inr rfl

theorem Agree.setContext (h : Agree c c') {context context' : Context} (hc : context' = context) :
    Agree { c with context } { c' with context := context' } :=
  ⟨⟨h.settings, h.entry, h.phase, h.memory, h.replacesTop⟩, hc⟩

theorem Alike.agree_of_not_isTyping (h : Alike p c c') (ht : ¬ c.isTyping) : Agree c c' :=
  ⟨h.toShares, h.context.resolve_right fun ho => ht ho.2.typing⟩

theorem Alike.agree_of_rpn (h : Alike p c c') (hrpn : c.settings.style = .rpn) : Agree c c' :=
  ⟨h.toShares, h.context.resolve_right fun ho => absurd (hrpn.symm.trans ho.2.style) (by decide)⟩

theorem Alike.makeRoom (h : Alike p c c') : c'.context.makeRoom = c.context.makeRoom := by
  rcases h.context with hc | ⟨-, ho⟩
  · rw [hc]
  · exact ho.context

theorem Alike.resetTo (h : Alike p c c') (t : Tree) :
    c'.context.resetTo t = c.context.resetTo t := by
  rw [← Context.resetTo_makeRoom, h.makeRoom, Context.resetTo_makeRoom]

theorem Alike.clear (h : Alike p c c') : c'.context.clear = c.context.clear := by
  rw [← Context.clear_makeRoom, h.makeRoom, Context.clear_makeRoom]

theorem Alike.displayValue (h : Alike p c c') : c'.displayValue = c.displayValue := by
  simp only [Calculator.displayValue, h.isTyping, h.entry]
  split
  · rfl
  · rename_i ht
    exact h.display.resolve_left ht

theorem Alike.displayText (h : Alike p c c') : c'.displayText = c.displayText := by
  simp only [Calculator.displayText, displayChars, h.isTyping, h.entry, base, h.settings]
  split
  · rfl
  · rename_i ht
    rw [h.display.resolve_left ht]

/-- Where no number is being typed over another operand, nothing differs that can be seen. -/
theorem Alike.view (h : Alike False c c') : c'.view = c.view := by
  have hcontext : c'.context = c.context := h.context.resolve_right And.left
  simp only [Calculator.view, stackValues, keptNodes, h.displayText, h.displayValue, h.phase,
    h.memory, h.settings, h.isTyping, h.entry, h.replacesTop, hcontext, valueOf_congr h.domain]

theorem Alike.update (h : Alike p c c') {settings : Settings}
    (hs : settings.style = c.settings.style) (entry : Entry) (memory : Float) :
    Alike p { c with settings, entry, memory } { c' with settings, entry, memory } where
  settings := rfl
  entry := rfl
  phase := h.phase
  memory := rfl
  replacesTop := h.replacesTop
  context := h.context.imp_right fun ⟨hp, ho⟩ =>
    ⟨hp, hs.trans ho.style, ho.typing, ho.kept, ho.context⟩
  display := h.display

theorem Alike.setEntry (h : Alike p c c') (e : Entry) :
    Alike p { c with entry := e } { c' with entry := e } := by
  simpa only [h.settings, h.memory] using h.update rfl e c.memory

theorem Alike.setMemory (h : Alike p c c') (m : Float) :
    Alike p { c with memory := m } { c' with memory := m } := by
  simpa only [h.settings, h.entry] using h.update rfl c.entry m

/-! The number being typed. -/

theorem Alike.beginTyping (h : Alike p c c') : Alike p c.beginTyping c'.beginTyping := by
  simp only [Calculator.beginTyping, h.isTyping]
  split
  · exact h
  · rename_i ht
    have ha := h.agree_of_not_isTyping ht
    exact ⟨⟨h.settings, by rw [h.entry], rfl, h.memory, h.replacesTop⟩, .inl ha.context, .inl rfl⟩

theorem Alike.digit (h : Alike p c c') (d : Nat) : Alike p (c.digit d).1 (c'.digit d).1 := by
  have hb := h.beginTyping
  simp only [Calculator.digit, h.entry, hb.entry]
  split
  · split
    · exact hb.setEntry _
    · exact hb
  · exact h

theorem Alike.typeDouble (h : Alike p c c') (f : Entry → Entry) :
    Alike p (c.typeDouble f) (c'.typeDouble f) := by
  have hb := h.beginTyping
  simp only [Calculator.typeDouble, h.domain, hb.entry]
  split
  · exact h
  · exact hb.setEntry _

theorem Alike.backspace (h : Alike p c c') : Alike p c.backspace c'.backspace := by
  simp only [Calculator.backspace, h.isTyping, h.entry]
  split
  · exact h.setEntry _
  · exact h

theorem Alike.clearEntry (h : Alike p c c') : Alike p c.clearEntry c'.clearEntry := by
  simp only [Calculator.clearEntry, h.entry]
  exact h.setEntry _

theorem Alike.pushOperand (h : Alike p c c') (t : Tree) :
    c'.dropCopy.context.pushOperand t = c.dropCopy.context.pushOperand t := by
  rcases h.context with hc | ⟨-, ho⟩
  · simp only [dropCopy, keptNodes, h.replacesTop, hc]
  · have hkept {c : Calculator} (hr : c.replacesTop = false) : c.dropCopy.context = c.context := by
      simp [dropCopy, keptNodes, hr]
    rw [hkept ho.kept, hkept (h.replacesTop.trans ho.kept), Context.pushOperand,
      Context.pushOperand, ho.context]

theorem Alike.commit (h : Alike p c c') : Agree c.commit c'.commit where
  settings := h.settings
  entry := congrArg Entry.clear h.entry
  phase := rfl
  memory := h.memory
  replacesTop := rfl
  context := by
    simp only [Calculator.commit, h.entry]
    exact h.pushOperand _

theorem Alike.commitTyped (h : Alike p c c') : Agree c.commitTyped c'.commitTyped := by
  simp only [Calculator.commitTyped, h.isTyping]
  split
  · exact h.commit
  · rename_i ht
    exact h.agree_of_not_isTyping ht

/-! Operators and results. -/

theorem Alike.operator (h : Alike p c c') (op : Operator) :
    Alike p (c.operator op).1 (c'.operator op).1 := by
  have ht := h.commitTyped
  cases happly : c.commitTyped.context.apply op with
  | error e =>
    -- the typed number is taken back, and what it replaces may differ again
    have happly' := ht.context ▸ happly
    rw [operator_of_error happly, operator_of_error happly']
    exact h
  | ok context =>
    have happly' := ht.context ▸ happly
    rw [operator_of_apply happly, operator_of_apply happly']
    exact Agree.refreshDisplay ⟨⟨ht.settings, ht.entry, rfl, ht.memory, rfl⟩, rfl⟩

theorem Alike.changeSign (h : Alike p c c') : Alike p c.changeSign c'.changeSign := by
  have hb := h.beginTyping
  simp only [Calculator.changeSign, h.isTyping, h.entry, hb.entry]
  split
  · exact h.setEntry _
  · rename_i ht
    rw [(h.agree_of_not_isTyping ht).context]
    split
    · exact hb.setEntry _
    · exact h.operator .negate

theorem Alike.equals (h : Alike p c c') :
    Alike p c.equals.1 c'.equals.1 ∧ c'.equals.2 = c.equals.2 := by
  have ht := h.commitTyped
  simp only [Calculator.equals, restore_commitTyped, ht.context, ht.evaluate, h.settings]
  split
  · exact ⟨h, rfl⟩
  · split
    · exact ⟨h, rfl⟩
    · exact ⟨(ht.setContext rfl).publish _ _, rfl⟩

theorem Alike.evaluateText (h : Alike p c c') (source : String) :
    Alike p (c.evaluateText source).1 (c'.evaluateText source).1 ∧
      (c'.evaluateText source).2 = (c.evaluateText source).2 := by
  simp only [Calculator.evaluateText, h.evaluate, h.settings]
  split
  · exact ⟨h, rfl⟩
  · split
    · exact ⟨h, rfl⟩
    · rename_i v _
      rw [h.resetTo (.number v)]
      refine ⟨Agree.publish ?_ _ _, rfl⟩
      exact ⟨⟨rfl, congrArg Entry.clear h.entry, h.phase, h.memory, h.replacesTop⟩, rfl⟩

theorem Alike.allClear (h : Alike p c c') : Alike p c.allClear c'.allClear where
  settings := h.settings
  entry := congrArg Entry.clear h.entry
  phase := rfl
  memory := h.memory
  replacesTop := rfl
  context := .inl h.clear
  display := .inr (congrArg Settings.zero h.settings)

/-! Settings. -/

theorem alike_resetExpression (hs : c'.settings = c.settings) (hm : c'.memory = c.memory) :
    Alike p c.resetExpression c'.resetExpression where
  settings := hs
  entry := congrArg Settings.freshEntry hs
  phase := rfl
  memory := hm
  replacesTop := rfl
  context := .inl (congrArg Context.ofSettings hs)
  display := .inr (congrArg Settings.zero hs)

theorem Alike.setMode (h : Alike p c c') (m : Mode) : Alike p (c.setMode m) (c'.setMode m) :=
  alike_resetExpression (by simp only [h.settings]) h.memory

theorem Alike.setAngle (h : Alike p c c') (u : AngleUnit) :
    Alike p (c.setAngle u) (c'.setAngle u) :=
  alike_resetExpression (by simp only [h.settings]) h.memory

theorem Alike.setStyle (h : Alike p c c') (s : EntryStyle) :
    Alike p (c.setStyle s) (c'.setStyle s) :=
  alike_resetExpression (by simp only [h.settings]) h.memory

theorem Alike.setBase (h : Alike p c c') (b : Base) : Alike p (c.setBase b) (c'.setBase b) := by
  simp only [Calculator.setBase, h.settings, h.displayValue]
  split
  · have hr : Alike p
        ({ c with settings := { c.settings with base := b } } : Calculator).resetExpression
        ({ c' with settings := { c.settings with base := b } } : Calculator).resetExpression :=
      alike_resetExpression rfl h.memory
    exact ⟨⟨hr.settings, hr.entry, rfl, hr.memory, hr.replacesTop⟩, .inl rfl, .inr rfl⟩
  · have hbase : { c.settings with base := b }.style = c.settings.style := rfl
    simpa only [h.entry, h.memory] using h.update hbase c.entry c.memory

/-! The stack and the memory. -/

theorem Alike.rearrange (h : Alike p c c') (f : Context → Option Context) :
    Alike p (c.rearrange f).1 (c'.rearrange f).1 := by
  have ht := h.commitTyped
  simp only [Calculator.rearrange, h.settings, ht.context]
  split
  · split
    · exact Agree.refreshDisplay ⟨⟨ht.settings, ht.entry, ht.phase, ht.memory, rfl⟩, rfl⟩
    · exact Agree.refreshDisplay ⟨⟨ht.settings, ht.entry, ht.phase, ht.memory, rfl⟩, rfl⟩
  · exact h

theorem Alike.drop (h : Alike p c c') : Alike p c.drop.1 c'.drop.1 := by
  simp only [Calculator.drop, h.settings, h.isTyping]
  split
  · rename_i hrpn
    -- a number given up replaces nothing, but in this style there is nothing to replace
    have ha := h.agree_of_rpn hrpn.1
    refine Agree.refreshDisplay ⟨⟨rfl, ?_, rfl, h.memory, h.replacesTop⟩, ha.context⟩
    exact congrArg Entry.clear h.entry
  · exact h.rearrange Context.drop?

theorem Alike.enter (h : Alike p c c') :
    Alike p c.enter.1 c'.enter.1 ∧ c'.enter.2 = c.enter.2 := by
  simp only [Calculator.enter, h.settings, h.isTyping]
  split
  · exact h.equals
  · split
    · exact ⟨h.commit.refreshDisplay, rfl⟩
    · rename_i ht
      have ha := h.agree_of_not_isTyping ht
      rw [ha.context]
      split
      · exact ⟨Agree.refreshDisplay ⟨⟨rfl, h.entry, h.phase, h.memory, rfl⟩, rfl⟩, rfl⟩
      · exact ⟨ha.refreshDisplay, rfl⟩

theorem Alike.accumulate (h : Alike p c c') (f : Float → Float → Float) :
    Alike p (c.accumulate f) (c'.accumulate f) := by
  simp only [Calculator.accumulate, h.displayValue, h.isTyping]
  split
  · exact h
  · split
    · have hc := h.commit.refreshDisplay (p := p)
      rw [hc.memory]
      exact hc.setMemory _
    · rw [h.memory]
      exact h.setMemory _

theorem Alike.pushValue (h : Alike p c c') (v : Value) :
    Alike p (c.pushValue v) (c'.pushValue v) where
  settings := h.settings
  entry := by simp only [Calculator.pushValue, h.isTyping, h.entry]
  phase := rfl
  memory := h.memory
  replacesTop := rfl
  context := .inl (h.pushOperand _)
  display := .inr rfl

theorem Alike.memoryKey (h : Alike p c c') (k : MemoryKey) :
    Alike p (c.memoryKey k) (c'.memoryKey k) := by
  cases k with
  | add | subtract => exact h.accumulate _
  | read =>
    simp only [Calculator.memoryKey, h.memory, h.domain]
    exact h.pushValue _
  | clear => exact h.setMemory 0

/-! Any input. -/

theorem Alike.press (h : Alike p c c') {k : Key} (hk : k ≠ .random) :
    Alike p (c.press k).1 (c'.press k).1 ∧ (c'.press k).2 = (c.press k).2 := by
  cases k with
  | digit d => exact ⟨h.digit d, rfl⟩
  | point => exact ⟨h.typeDouble Entry.point, rfl⟩
  | startExponent => exact ⟨h.typeDouble Entry.startExponent, rfl⟩
  | operator op => exact ⟨h.operator op, rfl⟩
  | equals => exact h.equals
  | allClear => exact ⟨h.allClear, rfl⟩
  | clearEntry => exact ⟨h.clearEntry, rfl⟩
  | changeSign => exact ⟨h.changeSign, rfl⟩
  | backspace => exact ⟨h.backspace, rfl⟩
  | mode m => exact ⟨h.setMode m, rfl⟩
  | base b => exact ⟨h.setBase b, rfl⟩
  | angle u => exact ⟨h.setAngle u, rfl⟩
  | style s => exact ⟨h.setStyle s, rfl⟩
  | memory k => exact ⟨h.memoryKey k, rfl⟩
  | enter => exact h.enter
  | swap => exact ⟨h.rearrange Context.swap?, rfl⟩
  | drop => exact ⟨h.drop, rfl⟩
  | rollDown => exact ⟨h.rearrange Context.rollDown?, rfl⟩
  | rollUp => exact ⟨h.rearrange Context.rollUp?, rfl⟩
  | random => exact absurd rfl hk

theorem Alike.feed (h : Alike p c c') {i : Input} (hi : i ≠ .key .random) :
    Alike p (c.feed i) (c'.feed i) ∧ c'.answer i = c.answer i := by
  cases i with
  | key k =>
    obtain ⟨halike, hresult⟩ := h.press fun hk => hi (congrArg Input.key hk)
    exact ⟨halike, congrArg Except.ok hresult⟩
  | text source =>
    obtain ⟨halike, hresult⟩ := h.evaluateText source
    exact ⟨halike, congrArg (Except.map some) hresult⟩

/-- What no key tells apart, no sequence of inputs does, as long as no random number is drawn. -/
theorem Alike.run {inputs : List Input} (h : Alike p c c')
    (hinputs : ∀ i ∈ inputs, i ≠ .key .random) :
    Alike p (c.run inputs) (c'.run inputs) ∧ c'.answers inputs = c.answers inputs := by
  induction inputs generalizing c c' with
  | nil => exact ⟨h, rfl⟩
  | cons i inputs ih =>
    obtain ⟨hfeed, hanswer⟩ := h.feed (hinputs i List.mem_cons_self)
    obtain ⟨hrun, hanswers⟩ := ih hfeed fun j hj => hinputs j (List.mem_cons_of_mem _ hj)
    refine ⟨hrun, ?_⟩
    simp only [answers, hanswer, hanswers]

end Calculator
end DeskCalculator
