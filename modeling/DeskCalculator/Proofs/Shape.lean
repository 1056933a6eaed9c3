import DeskCalculator.Proofs.Binding
import DeskCalculator.Proofs.Parentheses
import DeskCalculator.Proofs.ValueStack
/-!
The shape of the expression in progress under either entry style. Main statement:
`Context.shaped_reachable` says in what order operators wait, exactly which operator keys are taken,
and what keeps an expression from being complete.
-/
namespace DeskCalculator
namespace Context

inductive Reachable : Context → Prop where
  | fresh (s : Settings) : Reachable (ofSettings s)
  | feed {c : Context} (h : Reachable c) (s : Step) : Reachable (c.feed s)
  | clear {c : Context} (h : Reachable c) : Reachable c.clear
  | resetTo {c : Context} (h : Reachable c) (t : Tree) : Reachable (c.resetTo t)

/-- Does an operator that waits directly above another one bind more tightly, or as tightly where
both take their operands from the right? Parentheses part operators that need no order. -/
def Nested : Pending → Pending → Prop
  | .operator upper, .operator lower =>
    lower.precedence < upper.precedence ∨ lower.precedence = upper.precedence ∧
      lower.associativity = .right ∧ upper.associativity = .right
  | _, _ => True

/-- Operators wait in order, in algebraic entry only, and there is one operand for each of them, or
one more. -/
structure Shaped (c : Context) : Prop where
  operators : ∀ op, .operator op ∈ c.pending → op.arity = 2
  nested : c.pending.IsChain Nested
  rpn : c.style = .rpn → c.pending = []
  algebraic : c.style = .algebraic →
    c.nodes.length = waiting c.pending ∨ c.nodes.length = waiting c.pending + 1

def Takes (c : Context) (op : Operator) : Prop :=
  match c.style with
  | .rpn => op.takes c.mode c.nodes.length
  | .algebraic => op.availableIn c.mode ∧
    match op with
    | .openParen => True
    | .closeParen => 0 < c.openParens ∧ ¬ c.awaitsOperand
    | op =>
      match op.arity with
      | 0 => True
      | 1 => ¬ c.awaitsOperand
      | _ => ¬ c.awaitsOperand ∨ ∃ o rest, c.pending = .operator o :: rest

/-- Does a key succeed exactly under a condition, and leave an expression in shape? -/
structure SucceedsIf (p : Prop) (result : Except BuildError Context) : Prop where
  taken : p → ∃ c', result = .ok c' ∧ c'.Shaped
  refused : ¬ p → ∃ e, result = .error e

variable {c c' : Context} {p : Prop} {result : Except BuildError Context} {op o : Operator}
  {pending pending' : List Pending} {nodes nodes' : List Tree} {mode : Mode} {angle : AngleUnit}

theorem SucceedsIf.exists_ok_iff (h : SucceedsIf p result) : (∃ c', result = .ok c') ↔ p := by
  constructor
  · rintro ⟨c', hc⟩
    by_contra hn
    obtain ⟨e, he⟩ := h.refused hn
    cases hc.symm.trans he
  · intro hp
    obtain ⟨c', hc, -⟩ := h.taken hp
    exact ⟨c', hc⟩

/-! Operators in order. -/

/-- An operator that leaves its right operand to the next one lets that one wait above it. -/
theorem nested_of_not_bindsBefore (ho : o.arity = 2) (hop : op.arity = 2)
    (h : o.bindsBefore op = false) : Nested (.operator op) (.operator o) := by
  have hlevel := (Operator.bindsBefore_eq_false_iff ho hop).1 h
  by_cases hright : o.associativity = .right
  · rw [Operator.rightLevel, if_pos hright] at hlevel
    rcases Nat.lt_or_eq_of_le hlevel with hlt | heq
    · exact .inl hlt
    · refine .inr ⟨Precedence.level_injective heq, hright, ?_⟩
      calc
        op.associativity = if op.level = Precedence.power.level then .right else .left :=
          Operator.associativity_of_arity hop
        _ = o.associativity := by rw [Operator.associativity_of_arity ho, heq]
        _ = .right := hright
  · rw [Operator.rightLevel, if_neg hright] at hlevel
    exact .inl hlevel

theorem suffix_of_reduceWhile {f : Operator → Bool}
    (h : reduceWhile mode angle f pending nodes = .ok (pending', nodes')) :
    pending' <:+ pending := by
  induction pending generalizing nodes with
  | nil =>
    cases h
    exact List.suffix_rfl
  | cons first pending ih =>
    cases first with
    | openParen =>
      cases h
      exact List.suffix_rfl
    | operator op =>
      simp only [reduceWhile] at h
      split at h
      · obtain ⟨nodes₁, -, hrest⟩ := bind_eq_ok.1 h
        exact (ih hrest).trans (List.suffix_cons _ _)
      · cases h
        exact List.suffix_rfl

/-! One key. -/

theorem Shaped.balanced (h : c.Shaped) (hs : c.style = .algebraic) : c.Balanced :=
  ⟨hs, h.operators, h.algebraic hs⟩

theorem Balanced.shaped (h : c.Balanced) (hn : c.pending.IsChain Nested) : c.Shaped where
  operators := h.operators
  nested := hn
  rpn := fun hr => absurd (h.style.symm.trans hr) (by decide)
  algebraic := fun _ => h.length

theorem Shaped.withNodes (h : c.Shaped) (hs : c.style = .rpn) (nodes : List Tree) :
    Shaped { c with nodes } where
  operators := h.operators
  nested := h.nested
  rpn := h.rpn
  algebraic := fun ha => absurd (hs.symm.trans ha) (by decide)

theorem shaped_ofSettings (s : Settings) : (ofSettings s).Shaped where
  operators := fun _ h => absurd h (by simp [ofSettings])
  nested := .nil
  rpn := fun _ => rfl
  algebraic := fun _ => .inl rfl

theorem shaped_clear (c : Context) : c.clear.Shaped where
  operators := fun _ h => absurd h (by simp [clear])
  nested := .nil
  rpn := fun _ => rfl
  algebraic := fun _ => .inl rfl

theorem shaped_resetTo (c : Context) (t : Tree) : (c.resetTo t).Shaped where
  operators := fun _ h => absurd h (by simp [resetTo])
  nested := .nil
  rpn := fun _ => rfl
  algebraic := fun _ => .inr rfl

theorem Shaped.pushOperand (h : c.Shaped) (t : Tree) : (c.pushOperand t).Shaped := by
  cases hs : c.style with
  | rpn =>
    have hroom : c.makeRoom = c := by simp [makeRoom, hs]
    rw [Context.pushOperand, hroom]
    exact h.withNodes hs _
  | algebraic =>
    refine ((h.balanced hs).pushOperand t).shaped ?_
    rw [Context.pushOperand, makeRoom_pending]
    exact h.nested

/-- The operator of a complete expression waits above those that bind less tightly. -/
theorem Shaped.applyBetween_of_complete (h : c.Shaped) (hs : c.style = .algebraic)
    (hop : op.arity = 2) (ha : ¬ c.awaitsOperand) :
    ∃ c', c.applyBetween op = .ok c' ∧ c'.Shaped := by
  obtain ⟨pending', nodes', hleft, -, hstop, hreduce, -⟩ :=
    ((h.balanced hs).complete ha).reduceWhile c.mode c.angle (·.bindsBefore op)
  refine ⟨_, applyBetween_of_reduceWhile ha hreduce, (hleft.wait hs hop).shaped ?_⟩
  refine (h.nested.suffix (suffix_of_reduceWhile hreduce)).cons fun below hbelow => ?_
  obtain ⟨rest, rfl⟩ : ∃ rest, pending' = below :: rest := List.head?_eq_some_iff.1 hbelow
  cases below with
  | openParen => trivial
  | operator o =>
    exact nested_of_not_bindsBefore (hleft.operators o (by simp)) hop (hstop o rest rfl)

theorem Shaped.applyBetween (h : c.Shaped) (hs : c.style = .algebraic) (hop : op.arity = 2) :
    SucceedsIf (¬ c.awaitsOperand ∨ ∃ o rest, c.pending = .operator o :: rest)
      (c.applyBetween op) where
  taken := by
    by_cases ha : c.awaitsOperand
    -- a second operator in a row finds complete what the first one found
    · rintro (hn | ⟨o, pending, hp⟩)
      · exact absurd ha hn
      · obtain ⟨hbalanced, hn⟩ := (h.balanced hs).withoutOperator ha hp
        rw [applyBetween_again ha hp hn]
        have hnested := h.nested.tail
        rw [hp] at hnested
        exact (hbalanced.shaped hnested).applyBetween_of_complete hs hop hn
    · intro _
      exact h.applyBetween_of_complete hs hop ha
  refused := by
    intro hn
    rw [not_or, not_not] at hn
    exact ⟨_, applyBetween_of_awaitsOperand hn.1 fun o pending hp => hn.2 ⟨o, pending, hp⟩⟩

theorem Shaped.combine (h : c.Shaped) (hg : op.rule ≠ .group) (hl : op.arity ≤ c.nodes.length)
    (ha : c.style = .algebraic → op.arity = 1 ∧ ¬ c.awaitsOperand) :
    ∃ c', (Context.combine c.mode c.angle op c.nodes).map (fun nodes => { c with nodes }) = .ok c' ∧
      c'.Shaped := by
  obtain ⟨t, hcombine, -⟩ := exists_combine c.mode c.angle hg hl
  refine ⟨{ c with nodes := t :: c.nodes.drop op.arity }, by rw [hcombine]; rfl,
    h.operators, h.nested, h.rpn, fun hs => .inr ?_⟩
  obtain ⟨hone, hready⟩ := ha hs
  have hlen := ((h.balanced hs).complete hready).length
  simp only [List.length_cons, List.length_drop]
  omega

theorem Shaped.applyNow (h : c.Shaped) (hs : c.style = .algebraic) (hg : op.rule ≠ .group)
    (hop : op.arity ≠ 2) : SucceedsIf (op.arity = 0 ∨ ¬ c.awaitsOperand) (c.applyNow op) := by
  by_cases hconstant : op.arity = 0
  · have hlen : ([] : List Tree).length = op.arity := hconstant.symm
    obtain ⟨t, ht⟩ := Tree.exists_build c.mode c.angle hg hlen
    refine ⟨fun _ => ⟨c.pushOperand t, ?_, h.pushOperand t⟩, fun hn => absurd (.inl hconstant) hn⟩
    simp only [Context.applyNow, if_pos hconstant, ht, Except.map]
  · have hone : op.arity = 1 := by
      have := arity_le_two op
      omega
    by_cases ha : c.awaitsOperand
    · refine ⟨fun hp => ?_, fun _ => ⟨.insufficientOperands op.symbol op.arity 0, ?_⟩⟩
      · exact absurd ha (hp.resolve_left hconstant)
      · simp only [Context.applyNow, if_neg hconstant, if_pos (And.intro hs ha)]
    · have hlen := ((h.balanced hs).complete ha).length
      refine ⟨fun _ => ?_, fun hn => absurd (.inr ha) hn⟩
      simp only [Context.applyNow, if_neg hconstant, if_neg fun hr => ha (And.right hr)]
      exact h.combine hg (by omega) fun _ => ⟨hone, ha⟩

theorem Shaped.applyOpenParen (h : c.Shaped) (hs : c.style = .algebraic) :
    SucceedsIf True c.applyOpenParen where
  taken _ := by
    have hroom := (h.balanced hs).length_makeRoom
    refine ⟨{ c.makeRoom with pending := .openParen :: c.makeRoom.pending }, ?_, ?_⟩
    · simp only [Context.applyOpenParen, hs]
    · refine Balanced.shaped ⟨(makeRoom_style c).trans hs, ?_, .inl ?_⟩ ?_
      · intro o ho
        rcases List.mem_cons.1 ho with ho | ho
        · cases ho
        · exact h.operators o (makeRoom_pending c ▸ ho)
      · simpa using hroom
      · exact (makeRoom_pending c ▸ h.nested).cons fun _ _ => trivial
  refused hn := absurd trivial hn

theorem Shaped.applyCloseParen (h : c.Shaped) (hs : c.style = .algebraic) :
    SucceedsIf (0 < c.openParens ∧ ¬ c.awaitsOperand) c.applyCloseParen := by
  by_cases hopen : c.openParens = 0
  · refine ⟨fun hp => absurd hopen (Nat.ne_of_gt hp.1), fun _ => ⟨.unbalancedParenthesis, ?_⟩⟩
    simp only [Context.applyCloseParen, hs, if_pos hopen]
  · by_cases ha : c.awaitsOperand
    · refine ⟨fun hp => absurd ha hp.2, fun _ => ⟨.incompleteExpression, ?_⟩⟩
      simp only [Context.applyCloseParen, hs, if_neg hopen, if_pos ha]
    · obtain ⟨t, nodes', pending', hb, -, hclose, hreduce, -⟩ :=
        (h.balanced hs).exists_closed hopen ha
      have hnested := (h.nested.suffix (suffix_of_reduceWhile hreduce)).tail
      exact ⟨fun _ => ⟨_, hclose, hb.shaped hnested⟩,
        fun hn => absurd ⟨Nat.pos_of_ne_zero hopen, ha⟩ hn⟩

theorem Shaped.apply_rpn (h : c.Shaped) (hs : c.style = .rpn) (op : Operator) :
    SucceedsIf (op.takes c.mode c.nodes.length) (c.apply op) where
  taken htakes := by
    by_cases hg : op.rule = .group
    · rcases (Operator.rule_eq_group_iff op).1 hg with rfl | rfl
      · exact absurd htakes Bool.false_ne_true
      · rw [apply_closeParen_rpn hs]
        cases hnodes : c.nodes with
        | nil => simp [Operator.takes, hnodes] at htakes
        | cons t nodes => exact ⟨_, rfl, h.withNodes hs _⟩
    · obtain ⟨hop, hl⟩ := (Operator.takes_iff hg).1 htakes
      rw [Context.apply_rpn hs hg hop]
      exact h.combine hg hl fun ha => absurd (hs.symm.trans ha) (by decide)
  refused := apply_rpn_of_not_takes hs

theorem Shaped.apply_algebraic (h : c.Shaped) (hs : c.style = .algebraic) (hg : op.rule ≠ .group)
    (hop : op.availableIn c.mode) :
    SucceedsIf (match op.arity with
      | 0 => True
      | 1 => ¬ c.awaitsOperand
      | _ => ¬ c.awaitsOperand ∨ ∃ o rest, c.pending = .operator o :: rest) (c.apply op) := by
  rw [apply_of_rule_ne_group hg hop]
  have htwo := arity_le_two op
  match harity : op.arity, htwo with
  | 0, _ => simpa [harity] using h.applyNow hs hg (by omega)
  | 1, _ => simpa [harity] using h.applyNow hs hg (by omega)
  | 2, _ => simpa [harity, hs] using h.applyBetween hs harity

theorem Shaped.apply (h : c.Shaped) (op : Operator) : SucceedsIf (c.Takes op) (c.apply op) := by
  simp only [Takes]
  split
  · rename_i hs
    exact h.apply_rpn hs op
  · rename_i hs
    by_cases hop : op.availableIn c.mode
    · simp only [hop, true_and]
      by_cases hg : op.rule = .group
      · rcases (Operator.rule_eq_group_iff op).1 hg with rfl | rfl
        · exact apply_openParen c ▸ h.applyOpenParen hs
        · exact apply_closeParen c ▸ h.applyCloseParen hs
      · split
        · exact absurd rfl hg
        · exact absurd rfl hg
        · exact h.apply_algebraic hs hg hop
    · exact ⟨fun hp => absurd hp.1 hop, fun _ => ⟨_, if_neg hop⟩⟩

/-! Many keys. -/

theorem Shaped.feed (h : c.Shaped) (s : Step) : (c.feed s).Shaped := by
  cases s with
  | operand t => exact h.pushOperand t
  | operator op =>
    simp only [Context.feed, Context.step]
    by_cases htakes : c.Takes op
    · obtain ⟨c', hc, hshaped⟩ := (h.apply op).taken htakes
      rw [hc]
      exact hshaped
    · obtain ⟨e, he⟩ := (h.apply op).refused htakes
      rw [he]
      exact h

theorem Reachable.run (h : c.Reachable) (steps : List Step) : (c.run steps).Reachable := by
  induction steps generalizing c with
  | nil => exact h
  | cons s steps ih => exact ih (h.feed s)

theorem Reachable.shaped (h : c.Reachable) : c.Shaped := by
  induction h with
  | fresh s => exact shaped_ofSettings s
  | feed _ s ih => exact ih.feed s
  | clear _ _ => exact shaped_clear _
  | resetTo _ t _ => exact shaped_resetTo _ t

/-! The whole expression. -/

theorem Complete.closeAll (mode : Mode) (angle : AngleUnit) (h : Complete pending nodes) :
    ∃ t, Context.closeAll mode angle pending nodes = .ok [t] := by
  induction pending generalizing nodes with
  | nil =>
    obtain ⟨t, rfl⟩ := List.length_eq_one_iff.1 h.length
    exact ⟨t, rfl⟩
  | cons first pending ih =>
    cases first with
    | operator op =>
      obtain ⟨nodes', hcomplete, hcombine, -⟩ := h.combine mode angle
      obtain ⟨t, ht⟩ := ih hcomplete
      exact ⟨t, by simp [Context.closeAll, hcombine, ht]⟩
    | openParen =>
      obtain ⟨a, nodes, rfl⟩ := List.exists_cons_of_length_eq_add_one h.length
      have hwrapped : Complete pending (.paren a :: nodes) :=
        ⟨fun o ho => h.operators o (List.mem_cons_of_mem _ ho), by simpa using h.length⟩
      obtain ⟨t, ht⟩ := ih hwrapped
      exact ⟨t, ht⟩

/-- An expression is not complete exactly if nothing has been entered, or if an operand is awaited
in algebraic entry. -/
theorem Shaped.finish_eq_error_iff (h : c.Shaped) {e : BuildError} :
    c.finish = .error e ↔ c.nodes = [] ∧ e = .emptyExpression ∨
      c.nodes ≠ [] ∧ c.style = .algebraic ∧ c.awaitsOperand ∧ e = .incompleteExpression := by
  simp only [finish]
  cases hnodes : c.nodes with
  | nil => simpa using eq_comm
  | cons t nodes =>
    cases hs : c.style with
    | rpn => simp
    | algebraic =>
      by_cases ha : c.awaitsOperand
      · simpa [ha] using eq_comm
      · obtain ⟨root, hclose⟩ := ((h.balanced hs).complete ha).closeAll c.mode c.angle
        rw [hnodes] at hclose
        simp [ha, hclose, pure, Except.pure]

/-- Wherever operands, operators and resets lead, the expression in progress is in shape; a key is
taken exactly if it finds what it needs, and only a missing operand keeps the expression from being
complete. -/
theorem shaped_reachable (h : c.Reachable) :
    c.Shaped ∧ (∀ op, (∃ c', c.apply op = .ok c') ↔ c.Takes op) ∧
      ∀ e, c.finish = .error e ↔ c.nodes = [] ∧ e = .emptyExpression ∨
        c.nodes ≠ [] ∧ c.style = .algebraic ∧ c.awaitsOperand ∧ e = .incompleteExpression :=
  ⟨h.shaped, fun op => (h.shaped.apply op).exists_ok_iff, fun _ => h.shaped.finish_eq_error_iff⟩

theorem shaped_reachable_product_in_sum :
    let c := (ofSettings { mode := .programmer }).run
      [.operand (.number (.integer 2)), .operator .add, .operator .openParen,
        .operand (.number (.integer 3)), .operator .sub, .operand (.number (.integer 4)),
        .operator .mul]
    c.Shaped ∧ c.pending = [.operator .mul, .operator .sub, .openParen, .operator .add] ∧
      (∃ c', c.apply .div = .ok c') ∧ (¬ ∃ c', c.apply .closeParen = .ok c') ∧
      c.finish = .error .incompleteExpression := by
  intro c
  have hc : c.Reachable := (Reachable.fresh _).run _
  obtain ⟨hshaped, htakes, hfinish⟩ := shaped_reachable hc
  refine ⟨hshaped, rfl, (htakes .div).2 ?_, fun h => ?_, (hfinish _).2 (.inr ?_)⟩
  · exact ⟨rfl, .inr ⟨_, _, rfl⟩⟩
  · exact ((htakes .closeParen).1 h).2.2 rfl
  · exact ⟨List.cons_ne_nil _ _, rfl, rfl, rfl⟩

end Context
end DeskCalculator
