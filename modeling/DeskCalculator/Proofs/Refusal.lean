import DeskCalculator.Proofs.SettingKeys
import DeskCalculator.Proofs.ValueStack
import DeskCalculator.Tape
/-!
Keys and texts that are refused. Main statement: `Observed.unchanged_of_refused` says that a refusal
leaves the calculator and its listeners as they were, and that a key of the stack that is refused
leaves the values as they were.
-/
namespace DeskCalculator
namespace Calculator

variable {c : Calculator}

/-- A digit is refused only outside the base or for want of room, and there is room for the first
digit: a refused digit starts no number. -/
theorem Fits.digit_of_refused (h : c.Fits) {d : Nat} (hd : (c.digit d).2 = false) :
    c.digit d = (c, false) := by
  by_cases hradix : d < c.base.radix
  · by_cases ht : c.isTyping
    · have hbegin : c.beginTyping = c := if_pos ht
      simp only [digit, h.entry_base, if_pos hradix, hbegin] at hd ⊢
      split at hd
      · cases hd
      · rfl
    · rw [h.digit_of_not_isTyping ht hradix] at hd
      cases hd
  · simp only [digit, h.entry_base, if_neg hradix]

theorem operator_of_refused {op : Operator} (h : (c.operator op).2 = false) :
    c.operator op = (c, false) := by
  cases happly : c.commitTyped.context.apply op with
  | ok context =>
    rw [operator_of_apply happly] at h
    cases h
  | error e => exact operator_of_error happly

theorem equals_of_refused (h : c.equals.2 = none) : c.equals = (c, none) := by
  simp only [equals, restore_commitTyped] at h ⊢
  split at h
  · rfl
  · split at h
    · rfl
    · cases h

theorem evaluateText_of_refused {source : String} {e : EvaluationError}
    (h : (c.evaluateText source).2 = .error e) : c.evaluateText source = (c, .error e) := by
  simp only [evaluateText] at h ⊢
  split at h
  · exact congrArg (Prod.mk c) h
  · split at h
    · exact congrArg (Prod.mk c) h
    · cases h

/-! The keys of the stack. -/

/-- A refused rearrangement may make the typed number an operand, which keeps the values. -/
theorem Coherent.stackValues_rearrange_of_refused (h : c.Coherent) {f : Context → Option Context}
    (hf : (c.rearrange f).2 = false) : (c.rearrange f).1.stackValues = c.stackValues := by
  by_cases hrpn : c.settings.style = .rpn
  · simp only [Calculator.rearrange, if_pos hrpn] at hf ⊢
    split at hf
    · cases hf
    · rw [← h.map_valueOf_commitTyped hrpn]
      exact stackValues_eq (isTyping_commitTyped c) (domain_commitTyped c)
  · simp only [Calculator.rearrange, if_neg hrpn]

/-- What a key of the stack that is refused leaves. -/
structure KeepsValues (c c' : Calculator) : Prop where
  stackValues : c'.stackValues = c.stackValues
  displayValue : c'.displayValue = c.displayValue
  algebraic : c.settings.style = .algebraic → c' = c

theorem Coherent.keepsValues_rearrange (h : c.Coherent) {f : Context → Option Context}
    (hkeeps : KeepsNodes f) (hf : (c.rearrange f).2 = false) :
    c.KeepsValues (c.rearrange f).1 := by
  have hvalues := h.stackValues_rearrange_of_refused hf
  refine ⟨hvalues, ?_, fun hstyle => ?_⟩
  · rw [(h.rearrange hkeeps).displayValue_eq, hvalues, settings_rearrange, ← h.displayValue_eq]
  · simp only [Calculator.rearrange, hstyle, reduceCtorEq, if_false]

theorem Coherent.keepsValues_drop (h : c.Coherent) (hf : c.drop.2 = false) :
    c.KeepsValues c.drop.1 := by
  by_cases ht : c.settings.style = .rpn ∧ c.isTyping
  · simp only [Calculator.drop, if_pos ht, reduceCtorEq] at hf
  · simp only [Calculator.drop, if_neg ht] at hf ⊢
    exact h.keepsValues_rearrange keepsNodes_drop hf

end Calculator

namespace Observed

open Calculator

variable {σ : Type} {o : Observed σ}

/-- A digit or an operator that is not taken, an equals sign without a result and a text without a
value leave the whole calculator as it was, and no listener is told of anything; a key of the stack
that is refused leaves the values on the stack and the display, and in algebraic entry everything. -/
theorem unchanged_of_refused (h : o.calculator.Reachable) :
    let c := o.calculator
    (∀ d, (c.digit d).2 = false → (c.digit d).1 = c ∧ o.press (.digit d) = (o, none)) ∧
    (∀ op, (c.operator op).2 = false →
      (c.operator op).1 = c ∧ o.press (.operator op) = (o, none)) ∧
    (c.equals.2 = none → c.equals.1 = c ∧ o.press .equals = (o, none)) ∧
    (∀ source e, (c.evaluateText source).2 = .error e →
      (c.evaluateText source).1 = c ∧ o.evaluateText source = (o, .error e)) ∧
    ∀ key ∈ [swap, Calculator.drop, rollDown, rollUp], (key c).2 = false →
      (key c).1.stackValues = c.stackValues ∧ (key c).1.displayValue = c.displayValue ∧
        (c.settings.style = .algebraic → (key c).1 = c) := by
  have hc := h.coherent
  refine ⟨fun d hd => ?_, fun op hop => ?_, fun hequals => ?_, fun source e he => ?_,
    fun key hkey hrefused => ?_⟩
  · have hdigit := hc.fits.digit_of_refused hd
    simp only [press, Calculator.press, hdigit, advance, and_self]
  · have hoperator := operator_of_refused hop
    simp only [press, Calculator.press, hoperator, advance, and_self]
  · have hnone := equals_of_refused hequals
    simp only [press, Calculator.press, hnone, advance, and_self]
  · have herror := evaluateText_of_refused he
    simp only [evaluateText, herror, advance, Except.toOption, and_self]
  · have hkept : o.calculator.KeepsValues (key o.calculator).1 := by
      simp only [List.mem_cons, List.not_mem_nil, or_false] at hkey
      rcases hkey with rfl | rfl | rfl | rfl
      · exact hc.keepsValues_rearrange keepsNodes_swap hrefused
      · exact hc.keepsValues_drop hrefused
      · exact hc.keepsValues_rearrange keepsNodes_rollDown hrefused
      · exact hc.keepsValues_rearrange keepsNodes_rollUp hrefused
    exact ⟨hkept.stackValues, hkept.displayValue, hkept.algebraic⟩

theorem unchanged_of_refused_closeParen :
    let o : Observed Tape :=
      ⟨(ofSettings {} ⟨0⟩).run [.key (.digit 7)], [Listener.recorder], {}⟩
    o.calculator.Reachable ∧ (o.calculator.operator .closeParen).2 = false ∧
      o.press (.operator .closeParen) = (o, none) := by
  intro o
  have hreachable : o.calculator.Reachable := reachable_run _ _ _
  have hrefused : (o.calculator.operator .closeParen).2 = false := rfl
  obtain ⟨-, hoperator, -⟩ := unchanged_of_refused hreachable
  exact ⟨hreachable, hrefused, (hoperator .closeParen hrefused).2⟩

end Observed
end DeskCalculator
