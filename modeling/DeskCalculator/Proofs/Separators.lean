import DeskCalculator.Proofs.Alike
/-!
Separators are for the eye. Main statement: `Calculator.ungroup_displayText_run` says that a
calculator computes and keeps the same with separators as without, and that the texts it shows
differ in the separators alone.
-/
namespace DeskCalculator

/-! Texts with and without separators. -/

theorem Entry.ungroup_chars (e : Entry) (on off : Bool) :
    e.base.ungroup (e.chars on) = e.base.ungroup (e.chars off) := by
  simp only [chars, Base.ungroup_append, Base.ungroup_groupIf]

theorem Positional.ungroup_text_groupIf (p : Positional) (separators : Bool) :
    Base.dec.ungroup (p.groupIf separators).text = Base.dec.ungroup p.text := by
  simp only [text, groupIf, Base.ungroup_append, Base.ungroup_groupIf]
  rfl

namespace Display

theorem ungroup_integer (i : Int64) (base : Base) (on off : Bool) :
    base.ungroup (integer i base on) = base.ungroup (integer i base off) := by
  simp only [integer, unsigned]
  split
  · rw [Base.ungroup_cons, Base.ungroup_groupIf, Base.ungroup_cons _ '-' (base.groupIf off _),
      Base.ungroup_groupIf]
  · rw [Base.ungroup_groupIf, Base.ungroup_groupIf]

theorem ungroup_finite (log10 : Float → Float) (x : Float) (places : Option Nat) (on off : Bool) :
    Base.dec.ungroup (finite log10 x on places) = Base.dec.ungroup (finite log10 x off places) := by
  simp only [finite]
  split
  · rw [Positional.ungroup_text_groupIf, Positional.ungroup_text_groupIf]
  · rfl

theorem ungroup_doubleWith (log10 : Float → Float) (x : Float) (places : Option Nat)
    (on off : Bool) : Base.dec.ungroup (doubleWith log10 x on places) =
      Base.dec.ungroup (doubleWith log10 x off places) := by
  simp only [doubleWith]
  split
  · rfl
  · split
    · rfl
    · split
      · rfl
      · exact ungroup_finite log10 x places on off

theorem ungroup_value (v : Value) (base : Base) (places : Option Nat) (on off : Bool) :
    base.ungroup (value v base on places) = base.ungroup (value v base off places) := by
  cases v with
  | double x =>
    simp only [value]
    split
    · rename_i hdec
      rw [hdec]
      exact ungroup_doubleWith Float.log10 x places on off
    · exact ungroup_integer _ base on off
  | integer i => exact ungroup_integer i base on off
  | error k => rfl

end Display

namespace Calculator

/-- The same calculator with separators switched on or off, and other random numbers to come. -/
def vary (c : Calculator) (on : Bool) (random : Random) : Calculator :=
  { c.setSeparators on with random }

variable (c : Calculator) (on : Bool) (random : Random)

/-! What is varied is read by the display and the key for random numbers alone. -/

@[simp] theorem settings_vary :
    (c.vary on random).settings = { c.settings with separators := on } := rfl

@[simp] theorem context_vary : (c.vary on random).context = c.context := rfl

@[simp] theorem entry_vary : (c.vary on random).entry = c.entry := rfl

@[simp] theorem isTyping_vary : (c.vary on random).isTyping = c.isTyping := rfl

@[simp] theorem domain_vary : (c.vary on random).domain = c.domain := rfl

@[simp] theorem displayValue_vary : (c.vary on random).displayValue = c.displayValue := rfl

@[simp] theorem evaluate_vary : (c.vary on random).evaluate = c.evaluate := rfl

@[simp] theorem commitTyped_vary :
    (c.vary on random).commitTyped = c.commitTyped.vary on random := by
  rw [commitTyped, commitTyped, isTyping_vary]
  split <;> rfl

@[simp] theorem beginTyping_vary :
    (c.vary on random).beginTyping = c.beginTyping.vary on random := by
  rw [beginTyping, beginTyping, isTyping_vary]
  split <;> rfl

theorem digit_vary (d : Nat) :
    (c.vary on random).digit d = ((c.digit d).1.vary on random, (c.digit d).2) := by
  simp only [digit, entry_vary, beginTyping_vary]
  split
  · split <;> rfl
  · rfl

theorem typeDouble_vary (f : Entry → Entry) :
    (c.vary on random).typeDouble f = (c.typeDouble f).vary on random := by
  simp only [typeDouble, domain_vary, beginTyping_vary]
  split <;> rfl

theorem backspace_vary : (c.vary on random).backspace = c.backspace.vary on random := by
  rw [backspace, backspace, isTyping_vary]
  split <;> rfl

theorem operator_vary (op : Operator) :
    (c.vary on random).operator op = ((c.operator op).1.vary on random, (c.operator op).2) := by
  simp only [operator, commitTyped_vary, context_vary]
  split <;> rfl

theorem changeSign_vary : (c.vary on random).changeSign = c.changeSign.vary on random := by
  simp only [changeSign, isTyping_vary, context_vary, beginTyping_vary, operator_vary]
  split
  · rfl
  · split <;> rfl

theorem equals_vary :
    (c.vary on random).equals = (c.equals.1.vary on random, c.equals.2) := by
  simp only [equals, commitTyped_vary, context_vary, evaluate_vary, settings_vary]
  split
  · rfl
  · split <;> rfl

theorem evaluateText_vary (source : String) :
    (c.vary on random).evaluateText source =
      ((c.evaluateText source).1.vary on random, (c.evaluateText source).2) := by
  simp only [evaluateText, settings_vary, evaluate_vary]
  split
  · rfl
  · split <;> rfl

theorem setBase_vary (b : Base) :
    (c.vary on random).setBase b = (c.setBase b).vary on random := by
  have hmode : (c.vary on random).settings.mode = c.settings.mode := rfl
  rw [setBase, setBase, hmode]
  dsimp only
  split <;> rfl

theorem rearrange_vary (f : Context → Option Context) :
    (c.vary on random).rearrange f =
      ((c.rearrange f).1.vary on random, (c.rearrange f).2) := by
  simp only [rearrange, settings_vary, commitTyped_vary, context_vary]
  split
  · split <;> rfl
  · rfl

theorem drop_vary :
    (c.vary on random).drop = (c.drop.1.vary on random, c.drop.2) := by
  simp only [drop, settings_vary, isTyping_vary, rearrange_vary]
  split <;> rfl

theorem enter_vary : (c.vary on random).enter = (c.enter.1.vary on random, c.enter.2) := by
  simp only [enter, settings_vary, equals_vary, context_vary]
  rw [isTyping_vary]
  split
  · rfl
  · split
    · rfl
    · split <;> rfl

theorem accumulate_vary (f : Float → Float → Float) :
    (c.vary on random).accumulate f = (c.accumulate f).vary on random := by
  rw [accumulate, accumulate, displayValue_vary, isTyping_vary]
  dsimp only
  split
  · rfl
  · split <;> rfl

theorem memoryKey_vary (k : MemoryKey) :
    (c.vary on random).memoryKey k = (c.memoryKey k).vary on random := by
  cases k with
  | add | subtract => exact accumulate_vary c on random _
  | read | clear => rfl

/-! Any input. -/

theorem press_vary {k : Key} (hk : k ≠ .random) :
    (c.vary on random).press k = ((c.press k).1.vary on random, (c.press k).2) := by
  cases k with
  | digit d => simp only [press, digit_vary]
  | point => simp only [press, point, typeDouble_vary]
  | startExponent => simp only [press, startExponent, typeDouble_vary]
  | operator op => simp only [press, operator_vary]
  | equals => exact equals_vary c on random
  | changeSign => simp only [press, changeSign_vary]
  | backspace => simp only [press, backspace_vary]
  | base b => simp only [press, setBase_vary]
  | memory k => simp only [press, memoryKey_vary]
  | enter => exact enter_vary c on random
  | swap => simp only [press, swap, rearrange_vary]
  | drop => simp only [press, drop_vary]
  | rollDown => simp only [press, rollDown, rearrange_vary]
  | rollUp => simp only [press, rollUp, rearrange_vary]
  | allClear | clearEntry | mode | angle | style => rfl
  | random => exact absurd rfl hk

theorem feed_vary {i : Input} (hi : i ≠ .key .random) :
    (c.vary on random).feed i = (c.feed i).vary on random ∧
      (c.vary on random).answer i = c.answer i := by
  cases i with
  | key k =>
    have hpress := press_vary c on random (k := k) fun hk => hi (congrArg Input.key hk)
    exact ⟨congrArg Prod.fst hpress, by simp only [answer, hpress]⟩
  | text source =>
    have htext := evaluateText_vary c on random source
    exact ⟨congrArg Prod.fst htext, by simp only [answer, htext]⟩

theorem run_vary {inputs : List Input} (hinputs : ∀ i ∈ inputs, i ≠ .key .random) :
    (c.vary on random).run inputs = (c.run inputs).vary on random ∧
      (c.vary on random).answers inputs = c.answers inputs := by
  induction inputs generalizing c with
  | nil => exact ⟨rfl, rfl⟩
  | cons i inputs ih =>
    obtain ⟨hfeed, hanswer⟩ := feed_vary c on random (hinputs i List.mem_cons_self)
    obtain ⟨hrun, hanswers⟩ := ih (c.feed i) fun j hj => hinputs j (List.mem_cons_of_mem _ hj)
    refine ⟨?_, by simp only [answers, hfeed, hanswer, hanswers]⟩
    exact (congrArg (·.run inputs) hfeed).trans hrun

/-! What is shown. -/

variable {c on random}

theorem Fits.ungroup_displayChars_vary (h : c.Fits) :
    c.base.ungroup (c.vary on random).displayChars = c.base.ungroup c.displayChars := by
  rw [displayChars, displayChars, isTyping_vary]
  split
  · rw [← h.entry_base]
    exact c.entry.ungroup_chars on c.settings.separators
  · exact Display.ungroup_value c.display c.base none on c.settings.separators

/-- Two calculators that differ in nothing but the separators, and in the random numbers to come, go
on alike through all inputs that draw no random number: phases, values, memories, operands and
results stay the same, and the texts on the display are the same once the separators of the base in
use are left out. -/
theorem ungroup_displayText_run (h : c.Reachable) (on : Bool) (random : Random)
    {inputs : List Input} (hinputs : ∀ i ∈ inputs, i ≠ .key .random) :
    let other : Calculator := { c.setSeparators on with random }
    let after := c.run inputs
    let after' := other.run inputs
    after'.phase = after.phase ∧ after'.displayValue = after.displayValue ∧
      after'.stackValues = after.stackValues ∧ after'.memory = after.memory ∧
      after'.context = after.context ∧ after'.last = after.last ∧
      other.answers inputs = c.answers inputs ∧ after'.base = after.base ∧
      after.base.ungroup after'.displayText.toList =
        after.base.ungroup after.displayText.toList := by
  intro other after after'
  obtain ⟨hrun, hanswers⟩ := run_vary c on random hinputs
  have hafter : after' = after.vary on random := hrun
  have hfits : after.Fits := (h.run inputs).coherent.fits
  have hshown : after.base.ungroup (after.vary on random).displayChars =
      after.base.ungroup after.displayChars := hfits.ungroup_displayChars_vary
  rw [hafter]
  refine ⟨rfl, rfl, rfl, rfl, rfl, rfl, hanswers, rfl, ?_⟩
  simpa only [displayText, String.toList_ofList] using hshown

theorem ungroup_displayText_run_product :
    let c := ofSettings { mode := .programmer } ⟨0⟩
    let other := ofSettings { mode := .programmer, separators := true } ⟨1⟩
    let inputs : List Input :=
      [.key (.digit 9), .key (.digit 9), .key (.digit 9), .key (.operator .mul), .key (.digit 4),
        .key .equals]
    c.Reachable ∧ (∀ i ∈ inputs, i ≠ .key .random) ∧
      (c.run inputs).displayText = "3996" ∧ (other.run inputs).displayText = "3,996" ∧
      (other.run inputs).displayValue = (c.run inputs).displayValue ∧
      (c.run inputs).base.ungroup (other.run inputs).displayText.toList =
        (c.run inputs).base.ungroup (c.run inputs).displayText.toList := by
  intro c other inputs
  have hc : c.Reachable := .fresh _ _
  have hinputs : ∀ i ∈ inputs, i ≠ .key .random := by simp [inputs]
  obtain ⟨-, hvalue, -, -, -, -, -, -, htext⟩ := ungroup_displayText_run hc true ⟨1⟩ hinputs
  exact ⟨hc, hinputs, by decide +kernel, by decide +kernel, hvalue, htext⟩

end Calculator
end DeskCalculator
