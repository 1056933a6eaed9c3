import DeskCalculator.Proofs.Configuration
import DeskCalculator.Proofs.ValueStack
/-!
The key that removes the last value of the stack. Main statement: `Calculator.stackValues_drop` says
what it leaves, also of the copy that Enter makes.
-/
namespace DeskCalculator

theorem Context.drop?_eq (c : Context) :
    c.drop? = if c.nodes = [] then none else some { c with nodes := c.nodes.tail } := by
  cases hn : c.nodes <;> simp [drop?, hn]

namespace Calculator

variable {c : Calculator}

theorem drop_of_isTyping (hrpn : c.settings.style = .rpn) (ht : c.isTyping) :
    c.drop = (({ c with entry := c.entry.clear, phase := .idle } : Calculator).refreshDisplay,
      true) :=
  if_pos ⟨hrpn, ht⟩

theorem stackValues_drop_of_isTyping (hrpn : c.settings.style = .rpn) (ht : c.isTyping) :
    c.drop.1.stackValues = c.context.nodes.map c.valueOf := by
  rw [drop_of_isTyping hrpn ht]
  exact stackValues_eq rfl rfl

theorem drop_of_not_isTyping (hrpn : c.settings.style = .rpn) (ht : ¬ c.isTyping) :
    c.drop = (({ c with
      context := { c.context with nodes := c.context.nodes.tail }, replacesTop := false }
      : Calculator).refreshDisplay, decide (c.context.nodes ≠ [])) := by
  have hkept : c.commitTyped = c := if_neg ht
  rw [drop, if_neg fun h => ht h.2]
  simp only [rearrange, if_pos hrpn, hkept, Context.drop?_eq]
  by_cases hn : c.context.nodes = []
  · have hnone : c.context.nodes.tail = c.context.nodes := by rw [hn, List.tail_nil]
    simp only [if_pos hn, hnone, decide_eq_false (not_not.2 hn)]
  · simp only [if_neg hn, decide_eq_true hn]

theorem stackValues_drop_of_not_isTyping (hrpn : c.settings.style = .rpn) (ht : ¬ c.isTyping) :
    (c.drop.2 = true ↔ c.stackValues ≠ []) ∧ c.drop.1.stackValues = c.stackValues.tail := by
  have hidle : c.isTyping = false := by simpa using ht
  have hvalues : c.stackValues = c.context.nodes.map c.valueOf := stackValues_eq hidle rfl
  rw [drop_of_not_isTyping hrpn ht, hvalues, ← List.map_tail]
  exact ⟨by simp, stackValues_eq hidle rfl⟩

/-- The key removes the last value, if there is one. Where that one is typed over the copy that
Enter has made, the copy comes back in its place, and waits again for a number to replace it. -/
theorem stackValues_drop (h : c.Reachable) (hrpn : c.settings.style = .rpn) :
    let vs := c.stackValues
    (c.drop.2 = true ↔ vs ≠ []) ∧
      if c.isTyping ∧ c.replacesTop then
        c.drop.1.replacesTop = true ∧
          ∃ x y ys, vs = x :: y :: ys ∧ c.drop.1.stackValues = y :: y :: ys
      else c.drop.1.stackValues = vs.tail := by
  intro vs
  by_cases ht : c.isTyping
  · have hvalues : vs = c.entry.value :: c.keptNodes.map c.valueOf := by
      simp only [vs, stackValues, if_pos ht]
    refine ⟨?_, ?_⟩
    · simp [drop_of_isTyping hrpn ht, hvalues]
    · rw [stackValues_drop_of_isTyping hrpn ht]
      by_cases hr : c.replacesTop
      · obtain ⟨t, rest, hn⟩ := h.tidy.copy hr
        rw [if_pos ⟨ht, hr⟩, drop_of_isTyping hrpn ht]
        refine ⟨hr, c.entry.value, c.valueOf t, rest.map c.valueOf, ?_, ?_⟩
        · simp only [hvalues, keptNodes, if_pos hr, hn, List.tail_cons, List.map_cons]
        · rw [hn, List.map_cons, List.map_cons]
      · rw [if_neg fun hc => hr hc.2, hvalues, List.tail_cons, keptNodes, if_neg hr]
  · rw [if_neg fun hc => ht hc.1]
    exact stackValues_drop_of_not_isTyping hrpn ht

theorem stackValues_drop_pair :
    let c := (ofSettings { mode := .programmer, style := .rpn } ⟨0⟩).run
      [.key (.digit 7), .key .enter, .key (.digit 2)]
    c.Reachable ∧ c.settings.style = .rpn ∧ c.stackValues = [.integer 2, .integer 7] ∧
      c.drop.2 = true ∧ c.drop.1.stackValues = [.integer 7] := by
  intro c
  have hc : c.Reachable := reachable_run _ _ _
  have hvalues : c.stackValues = [.integer 2, .integer 7] := rfl
  obtain ⟨htaken, hleft⟩ := stackValues_drop hc rfl
  rw [if_neg (by decide), hvalues] at hleft
  exact ⟨hc, rfl, hvalues, htaken.2 (by rw [hvalues]; exact List.cons_ne_nil _ _), hleft⟩

/-- After `5`, Enter and Enter again, a `7` takes the place of the second `5`. Giving it up leaves
both. -/
theorem not_stackValues_drop_tail :
    ¬ ∀ c : Calculator, c.Reachable → c.settings.style = .rpn →
      (c.drop.2 = true ↔ c.stackValues ≠ []) ∧ c.drop.1.stackValues = c.stackValues.tail := by
  intro hall
  let c := (ofSettings { mode := .programmer, style := .rpn } ⟨0⟩).run
    [.key (.digit 5), .key .enter, .key .enter, .key (.digit 7)]
  obtain ⟨-, hleft⟩ := hall c (reachable_run _ _ _) rfl
  have hlength := congrArg List.length hleft
  have hvalues : c.stackValues.length = 2 := rfl
  have hdrop : c.drop.1.stackValues.length = 2 := rfl
  rw [List.length_tail, hvalues, hdrop] at hlength
  exact absurd hlength (by decide)

end Calculator
end DeskCalculator
