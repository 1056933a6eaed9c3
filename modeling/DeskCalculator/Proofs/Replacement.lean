import DeskCalculator.Proofs.Shape
/-!
Two operators between operands, pressed in a row. Main statement: `Context.apply_second_eq_iff` says
exactly when the second one acts as if the first had not been pressed.
-/
namespace DeskCalculator

/-- An operator that takes its left operand no more tightly lets apply what the other one does. -/
theorem Operator.bindsBefore_of_leftLevel_le {o a b : Operator} (hle : b.leftLevel ≤ a.leftLevel)
    (h : o.bindsBefore a) : o.bindsBefore b :=
  bindsBefore_iff.2 (hle.trans (bindsBefore_iff.1 h))

namespace Context

variable {c : Context} {p q : Operator → Bool} {pending : List Pending} {nodes : List Tree}
  {mode : Mode} {angle : AngleUnit} {left left' direct : List Pending × List Tree} {a b : Operator}

/-- The operators that apply as long as they fulfil a condition, the innermost one first. -/
def applied (p : Operator → Bool) : List Pending → List Operator
  | .operator o :: pending => if p o then o :: applied p pending else []
  | _ => []

theorem of_mem_applied {o : Operator} (h : o ∈ applied p pending) : p o := by
  fun_induction applied p pending with
  | case1 first pending hp ih =>
    rcases List.mem_cons.1 h with rfl | h
    · exact hp
    · exact ih h
  | case2 => exact absurd h List.not_mem_nil
  | case3 => exact absurd h List.not_mem_nil

theorem reduceWhile_of_stopped (hpq : ∀ o, q o → p o)
    (h : reduceWhile mode angle p pending nodes = .ok left) :
    reduceWhile mode angle q left.1 left.2 = .ok left := by
  induction pending generalizing nodes with
  | nil =>
    cases h
    rfl
  | cons first pending ih =>
    cases first with
    | openParen =>
      cases h
      rfl
    | operator o =>
      simp only [reduceWhile] at h
      split at h
      · obtain ⟨nodes₁, -, hrest⟩ := bind_eq_ok.1 h
        exact ih hrest
      · rename_i hp
        cases h
        simp only [reduceWhile, if_neg fun hq => hp (hpq o hq)]

/-- Operators applied under one condition and then under another leave what they leave under the
second alone exactly if the second lets all of the first ones apply. -/
theorem reduceWhile_eq_iff (hp : reduceWhile mode angle p pending nodes = .ok left)
    (hq : reduceWhile mode angle q left.1 left.2 = .ok left')
    (hdirect : reduceWhile mode angle q pending nodes = .ok direct) :
    left' = direct ↔ ∀ o ∈ applied p pending, q o := by
  induction pending generalizing nodes with
  | nil =>
    cases hp
    simp [applied, Except.ok.inj (hq.symm.trans hdirect)]
  | cons first pending ih =>
    cases first with
    | openParen =>
      cases hp
      simp [applied, Except.ok.inj (hq.symm.trans hdirect)]
    | operator o =>
      simp only [reduceWhile] at hp
      split at hp
      · rename_i hpo
        obtain ⟨nodes₁, hcombine, hrest⟩ := bind_eq_ok.1 hp
        simp only [applied, if_pos hpo, List.forall_mem_cons]
        by_cases hqo : q o
        · simp only [reduceWhile, if_pos hqo, hcombine, ok_bind] at hdirect
          simp only [hqo, true_and]
          exact ih hrest hdirect
        · -- the second condition alone keeps the operator that the first one has applied
          have hkept : direct = (.operator o :: pending, nodes) := by
            simp only [reduceWhile, if_neg hqo] at hdirect
            exact (Except.ok.inj hdirect).symm
          have hsuffix : left'.1 <:+ pending :=
            (suffix_of_reduceWhile hq).trans (suffix_of_reduceWhile hrest)
          have hne : left' ≠ direct := by
            intro heq
            have hlength := hsuffix.length_le
            rw [heq, hkept, List.length_cons] at hlength
            omega
          simp [hne, hqo]
      · rename_i hpo
        cases hp
        simp [applied, hpo, Except.ok.inj (hq.symm.trans hdirect)]

theorem apply_eq_applyBetween (hs : c.style = .algebraic) (ha : a.arity = 2)
    (hm : a.availableIn c.mode) : c.apply a = c.applyBetween a := by
  rw [apply_of_rule_ne_group (rule_ne_group (by omega)) hm, if_pos ⟨ha, hs⟩]

theorem Balanced.apply_of_complete (h : c.Balanced) (hn : ¬ c.awaitsOperand) (ha : a.arity = 2)
    (hm : a.availableIn c.mode) :
    ∃ left, Context.reduceWhile c.mode c.angle (·.bindsBefore a) c.pending c.nodes = .ok left ∧
      Complete left.1 left.2 ∧
      c.apply a = .ok { c with nodes := left.2, pending := .operator a :: left.1 } := by
  obtain ⟨pending', nodes', hleft, -, -, hreduce, -⟩ :=
    (h.complete hn).reduceWhile c.mode c.angle (·.bindsBefore a)
  refine ⟨(pending', nodes'), hreduce, hleft, ?_⟩
  rw [apply_eq_applyBetween h.style ha hm, applyBetween_of_reduceWhile hn hreduce]

/-- An operator key that finds another operator waiting for its right operand acts on the complete
expression before that one. -/
theorem Balanced.apply_again (h : c.Balanced) (hw : c.awaitsOperand)
    (hp : c.pending = .operator a :: pending) (hb : b.arity = 2) (hm : b.availableIn c.mode) :
    ∃ left, Context.reduceWhile c.mode c.angle (·.bindsBefore b) pending c.nodes = .ok left ∧
      c.apply b = .ok { c with nodes := left.2, pending := .operator b :: left.1 } := by
  obtain ⟨hbefore, hn⟩ := h.withoutOperator hw hp
  obtain ⟨left, hreduce, -, happly⟩ := hbefore.apply_of_complete hn hb hm
  refine ⟨left, hreduce, ?_⟩
  calc
    c.apply b = c.applyBetween b := apply_eq_applyBetween h.style hb hm
    _ = ({ c with pending } : Context).applyBetween b := applyBetween_again hw hp hn
    _ = ({ c with pending } : Context).apply b :=
      (apply_eq_applyBetween hbefore.style hb hm).symm
    _ = .ok { c with nodes := left.2, pending := .operator b :: left.1 } := happly

/-- Of two operators in a row, the second one is all that remains exactly if it lets apply whatever
the first one has let apply. Otherwise it takes the place of the first one in an expression that
stays as the first one has left it. -/
theorem apply_second_eq_iff (h : c.Reachable) (hs : c.style = .algebraic) (hn : ¬ c.awaitsOperand)
    (ha : a.arity = 2) (hb : b.arity = 2) (hma : a.availableIn c.mode)
    (hmb : b.availableIn c.mode) :
    ∃ first second direct,
      c.apply a = .ok first ∧ first.apply b = .ok second ∧ c.apply b = .ok direct ∧
      (second = direct ↔ ∀ o ∈ applied (·.bindsBefore a) c.pending, o.bindsBefore b) ∧
      (second ≠ direct → second = { first with pending := .operator b :: first.pending.tail }) := by
  have hbalanced := h.shaped.balanced hs
  obtain ⟨left, hp, hleft, hfirst⟩ := hbalanced.apply_of_complete hn ha hma
  obtain ⟨left', hq, hsecond⟩ := (hleft.wait (c := c) hs ha).apply_again
    ((awaitsOperand_iff _).2 (by simp [hleft.length])) rfl hb hmb
  obtain ⟨direct, hdirect, -, hb'⟩ := hbalanced.apply_of_complete hn hb hmb
  have heq : ({ c with nodes := left'.2, pending := .operator b :: left'.1 } : Context) =
      { c with nodes := direct.2, pending := .operator b :: direct.1 } ↔
        ∀ o ∈ applied (·.bindsBefore a) c.pending, o.bindsBefore b := by
    rw [← reduceWhile_eq_iff hp hq hdirect, Prod.ext_iff]
    simp [and_comm]
  refine ⟨_, _, _, hfirst, hsecond, hb', heq, fun hne => ?_⟩
  -- the second operator binds more tightly than the first one, and so lets nothing more apply
  have hstronger : ∀ o : Operator, o.bindsBefore b → o.bindsBefore a := by
    rcases Nat.le_total a.leftLevel b.leftLevel with hle | hle
    · exact fun o => Operator.bindsBefore_of_leftLevel_le hle
    · have hall : ∀ o ∈ applied (·.bindsBefore a) c.pending, o.bindsBefore b :=
        fun o ho => Operator.bindsBefore_of_leftLevel_le hle (of_mem_applied (p := (·.bindsBefore a)) ho)
      exact absurd (heq.2 hall) hne
  have hstays : left' = left :=
    Except.ok.inj (hq.symm.trans (reduceWhile_of_stopped hstronger hp))
  rw [hstays]
  rfl

theorem apply_second_eq_iff_product :
    let c := (ofSettings {}).run
      [.operand (.number (.integer 2)), .operator .mul, .operand (.number (.integer 3))]
    ∃ first second direct,
      c.apply .add = .ok first ∧ first.apply .sub = .ok second ∧ c.apply .sub = .ok direct ∧
      second = direct := by
  intro c
  have hc : c.Reachable := (Reachable.fresh _).run _
  obtain ⟨first, second, direct, hfirst, hsecond, hdirect, heq, -⟩ :=
    apply_second_eq_iff (a := .add) (b := .sub) hc rfl (by decide) rfl rfl rfl rfl
  exact ⟨first, second, direct, hfirst, hsecond, hdirect, heq.2 (by decide)⟩

/-- After `2 + 3` a first `+` applies the sum, and `×` in its place finds the sum applied; `×` alone
takes only the `3`. -/
theorem not_apply_second_sum :
    ¬ ∀ c : Context, c.Reachable → c.style = .algebraic → ¬ c.awaitsOperand → ∀ a b : Operator,
      a.arity = 2 → b.arity = 2 → a.availableIn c.mode → b.availableIn c.mode →
        (do (← c.apply a).apply b) = c.apply b := by
  intro hall
  let c := (ofSettings {}).run
    [.operand (.number (.integer 2)), .operator .add, .operand (.number (.integer 3))]
  have h := hall c ((Reachable.fresh _).run _) rfl (by decide) .add .mul rfl rfl rfl rfl
  have hlength := congrArg (Except.map fun c : Context => c.nodes.length) h
  revert hlength
  decide

end Context
end DeskCalculator
