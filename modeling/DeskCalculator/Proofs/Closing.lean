import DeskCalculator.Proofs.Shape
/-!
Parentheses closed one by one against an expression that is finished as it stands. Main statement:
`Context.finish_run_closeParens` says that the keys close all that is open, and that the whole
expression is the same tree before and after.
-/
namespace DeskCalculator
namespace Context

variable {c c' : Context} {p : Operator → Bool} {pending : List Pending} {nodes : List Tree}
  {mode : Mode} {angle : AngleUnit} {left : List Pending × List Tree}

/-- Operators that apply close no parenthesis. -/
theorem countP_reduceWhile (h : reduceWhile mode angle p pending nodes = .ok left) :
    left.1.countP (! ·.isOperator) = pending.countP (! ·.isOperator) := by
  induction pending generalizing nodes with
  | nil =>
    cases h
    rfl
  | cons first pending ih =>
    cases first with
    | openParen =>
      cases h
      rfl
    | operator op =>
      simp only [reduceWhile] at h
      split at h
      · obtain ⟨nodes', -, hrest⟩ := bind_eq_ok.1 h
        rw [ih hrest]
        exact (List.countP_cons_of_neg (by simp [Pending.isOperator])).symm
      · cases h
        rfl

theorem finish_congr (hs : c.style = .algebraic) (hsettings : SameSettings c c')
    (ha : ¬ c.awaitsOperand) (ha' : ¬ c'.awaitsOperand)
    (hclose : closeAll c.mode c.angle c'.pending c'.nodes =
      closeAll c.mode c.angle c.pending c.nodes) : c'.finish = c.finish := by
  obtain ⟨t, nodes, hnodes⟩ := List.exists_cons_of_ne_nil (nodes_ne_nil ha)
  obtain ⟨t', nodes', hnodes'⟩ := List.exists_cons_of_ne_nil (nodes_ne_nil ha')
  rw [hnodes, hnodes'] at hclose
  simp only [finish, hnodes, hnodes', hsettings.mode, hsettings.angle, hsettings.style, hs,
    if_neg ha, if_neg ha', hclose]

/-- A closing parenthesis after an operand is taken while one is open, and leaves the whole
expression as it is. -/
theorem Balanced.closeParen (h : c.Balanced) (hopen : 0 < c.openParens) (ha : ¬ c.awaitsOperand) :
    ∃ c', c.apply .closeParen = .ok c' ∧ c'.Balanced ∧ ¬ c'.awaitsOperand ∧
      c'.openParens + 1 = c.openParens ∧ c'.finish = c.finish := by
  obtain ⟨t, nodes', pending', hb, ha', hclose, hreduce, -⟩ :=
    h.exists_closed (Nat.ne_of_gt hopen) ha
  have hcount := countP_reduceWhile hreduce
  rw [List.countP_cons_of_pos (by rfl)] at hcount
  exact ⟨_, (apply_closeParen c).trans hclose, hb, ha', hcount,
    finish_congr h.style ⟨rfl, rfl, rfl⟩ ha ha' (closeAll_reduceWhile hreduce).symm⟩

theorem Balanced.run_closeParens (h : c.Balanced) (ha : ¬ c.awaitsOperand) {count : Nat}
    (hcount : count ≤ c.openParens) :
    let keys := List.replicate count (Step.operator .closeParen)
    c.refusals keys = List.replicate count none ∧ (c.run keys).finish = c.finish ∧
      (c.run keys).openParens + count = c.openParens := by
  induction count generalizing c with
  | zero => exact ⟨rfl, rfl, rfl⟩
  | succ count ih =>
    obtain ⟨c', hc, hb, ha', hopen, hfinish⟩ := h.closeParen (by omega) ha
    have htaken : c.step (.operator .closeParen) = .ok c' := hc
    have hfeed : c.feed (.operator .closeParen) = c' := by simp only [feed, htaken]
    have hrefusal : c.refusal? (.operator .closeParen) = none := by simp only [refusal?, htaken]
    obtain ⟨hrefusals, hroot, hleft⟩ := ih hb ha' (by omega)
    simp only [List.replicate_succ, refusals, run, List.foldl_cons, hfeed, hrefusal, hrefusals]
    exact ⟨trivial, hroot.trans hfinish, by rw [← hopen, ← hleft]; rfl⟩

/-- The whole of a complete expression closes what is open. Wherever operands, operators and resets
lead in algebraic entry, an expression that awaits no operand has a root; as many closing parentheses
as are open are taken, each in its turn, and leave none open and the same root. -/
theorem finish_run_closeParens (h : c.Reachable) (hs : c.style = .algebraic)
    (ha : ¬ c.awaitsOperand) :
    let keys := List.replicate c.openParens (Step.operator .closeParen)
    ∃ root, c.finish = .ok root ∧ c.refusals keys = List.replicate c.openParens none ∧
      (c.run keys).finish = .ok root ∧ (c.run keys).openParens = 0 := by
  intro keys
  have hshaped := h.shaped
  obtain ⟨hrefusals, hfinish, hopen⟩ := (hshaped.balanced hs).run_closeParens ha (Nat.le_refl _)
  obtain ⟨root, hroot⟩ : ∃ root, c.finish = .ok root := by
    cases hf : c.finish with
    | ok root => exact ⟨root, rfl⟩
    | error e =>
      rcases hshaped.finish_eq_error_iff.1 hf with ⟨hnil, -⟩ | ⟨-, -, hawait, -⟩
      · exact absurd hnil (nodes_ne_nil ha)
      · exact absurd hawait ha
  exact ⟨root, hroot, hrefusals, hfinish.trans hroot, Nat.add_eq_right.1 hopen⟩

theorem finish_run_closeParens_nested :
    let c := (ofSettings { mode := .programmer }).run
      [.operand (.number (.integer 2)), .operator .mul, .operator .openParen,
        .operand (.number (.integer 3)), .operator .sub, .operator .openParen,
        .operand (.number (.integer 4)), .operator .add, .operand (.number (.integer 5))]
    let root : Tree := .binary .mul (.number (.integer 2)) (.paren (.binary .sub
      (.number (.integer 3)) (.paren (.binary .add (.number (.integer 4)) (.number (.integer 5))))))
    c.openParens = 2 ∧ c.finish = .ok root ∧
      c.refusals [.operator .closeParen, .operator .closeParen] = [none, none] ∧
      (c.run [.operator .closeParen, .operator .closeParen]).finish = .ok root := by
  intro c root
  have hc : c.Reachable := (Reachable.fresh _).run _
  have hroot : c.finish = .ok root := rfl
  obtain ⟨root', hroot', hrefusals, hclosed, -⟩ := finish_run_closeParens hc rfl (by decide)
  obtain rfl : root = root' := Except.ok.inj (hroot.symm.trans hroot')
  exact ⟨rfl, hroot, hrefusals, hclosed⟩

end Context
end DeskCalculator
