import DeskCalculator.Expression.Context
import DeskCalculator.Proofs.Supported
/-!
The shape of the expression in progress. Main statements: `Sound.apply` says that operator keys
keep the shape, and `Sound.finish` that a complete expression has a root.
-/
namespace DeskCalculator

theorem Operator.rule_eq_group_iff (op : Operator) :
    op.rule = .group ↔ op = .openParen ∨ op = .closeParen := by
  cases op <;> decide

namespace Context

def waiting (pending : List Pending) : Nat := pending.countP Pending.isOperator

@[simp] theorem waiting_nil : waiting [] = 0 := rfl

@[simp] theorem waiting_operator (op : Operator) (pending : List Pending) :
    waiting (.operator op :: pending) = waiting pending + 1 :=
  List.countP_cons_of_pos rfl

@[simp] theorem waiting_openParen (pending : List Pending) :
    waiting (.openParen :: pending) = waiting pending :=
  List.countP_cons_of_neg (by simp [Pending.isOperator])

theorem awaitsOperand_iff (c : Context) :
    c.awaitsOperand ↔ c.nodes.length ≤ waiting c.pending := by
  simp [awaitsOperand, waiting]

theorem nodes_ne_nil {c : Context} (h : ¬ c.awaitsOperand) : c.nodes ≠ [] := by
  intro hnil
  rw [awaitsOperand_iff, hnil] at h
  exact h (Nat.zero_le _)

/-- Do only operators of the keypad wait that stand between two operands? -/
def WaitingIn (mode : Mode) (pending : List Pending) : Prop :=
  ∀ op, .operator op ∈ pending → op.arity = 2 ∧ op.availableIn mode

/-- Operators that wait with their left operands, and the operand after the last of them. -/
structure Ready (mode : Mode) (pending : List Pending) (nodes : List Tree) : Prop where
  operators : WaitingIn mode pending
  supported : ∀ t ∈ nodes, t.Supported mode.domain
  length : nodes.length = waiting pending + 1

variable {mode : Mode} {pending : List Pending} {nodes : List Tree}

theorem combine_of_build {angle : AngleUnit} {op : Operator} {t : Tree}
    (hl : op.arity ≤ nodes.length)
    (ht : Tree.build op (nodes.take op.arity).reverse mode angle = .ok t) :
    combine mode angle op nodes = .ok (t :: nodes.drop op.arity) := by
  simp [combine, Nat.not_lt.2 hl, ht, Except.map]

theorem rule_ne_group {op : Operator} (h : 0 < op.arity) : op.rule ≠ .group := by
  intro hg
  simp [Operator.arity, hg, BuildRule.arity] at h

/-- An operator with enough operands leaves one tree in their place. -/
theorem combine_supported (angle : AngleUnit) {op : Operator} (hop : op.availableIn mode)
    (ha : 0 < op.arity) (hl : op.arity ≤ nodes.length)
    (hn : ∀ t ∈ nodes, t.Supported mode.domain) :
    ∃ t, combine mode angle op nodes = .ok (t :: nodes.drop op.arity) ∧
      t.Supported mode.domain := by
  have hlen : (nodes.take op.arity).reverse.length = op.arity := by simp [hl]
  have hall : ∀ t ∈ (nodes.take op.arity).reverse, t.Supported mode.domain := by
    intro t ht
    exact hn t (List.mem_of_mem_take (List.mem_reverse.1 ht))
  obtain ⟨t, ht, hs⟩ := Tree.supported_build angle hop (rule_ne_group ha) hlen hall
  exact ⟨t, combine_of_build hl ht, hs⟩

theorem Ready.combine (angle : AngleUnit) {op : Operator}
    (h : Ready mode (.operator op :: pending) nodes) :
    ∃ nodes', Context.combine mode angle op nodes = .ok nodes' ∧ Ready mode pending nodes' := by
  obtain ⟨harity, hop⟩ := h.operators op (by simp)
  have hlen := h.length
  rw [waiting_operator] at hlen
  obtain ⟨t, ht, hs⟩ := combine_supported angle hop (by omega) (by omega) h.supported
  refine ⟨_, ht, fun o ho => h.operators o (List.mem_cons_of_mem _ ho), ?_, ?_⟩
  · intro u hu
    rcases List.mem_cons.1 hu with rfl | hu
    · exact hs
    · exact h.supported u (List.mem_of_mem_drop hu)
  · simp only [List.length_cons, List.length_drop]
    omega

theorem Ready.wrapTop (h : Ready mode pending nodes) :
    ∃ nodes', Context.wrapTop nodes = .ok nodes' ∧ Ready mode pending nodes' := by
  cases nodes with
  | nil => exact absurd h.length (by simp)
  | cons t nodes =>
    refine ⟨.paren t :: nodes, rfl, h.operators, ?_, h.length⟩
    intro u hu
    rcases List.mem_cons.1 hu with rfl | hu
    · exact .paren (h.supported t (by simp))
    · exact h.supported u (List.mem_cons_of_mem _ hu)

/-- What is left waiting is the rest of what waited, and its first operator fails the
condition. -/
theorem Ready.reduceWhile (angle : AngleUnit) (p : Operator → Bool) (h : Ready mode pending nodes) :
    ∃ pending' nodes', Context.reduceWhile mode angle p pending nodes = .ok (pending', nodes') ∧
      Ready mode pending' nodes' ∧ pending' <:+ pending ∧
      ∀ op rest, pending' = .operator op :: rest → p op = false := by
  induction pending generalizing nodes with
  | nil => exact ⟨[], nodes, rfl, h, List.suffix_rfl, by simp⟩
  | cons first pending ih =>
    cases first with
    | openParen => exact ⟨_, nodes, rfl, h, List.suffix_rfl, by simp⟩
    | operator op =>
      by_cases hp : p op
      · obtain ⟨nodes', hc, hr⟩ := h.combine angle
        obtain ⟨pending'', nodes'', hw, hr', hs, hq⟩ := ih hr
        refine ⟨pending'', nodes'', ?_, hr', hs.trans (List.suffix_cons _ _), hq⟩
        simp [Context.reduceWhile, hp, hc, hw]
      · refine ⟨_, nodes, by simp [Context.reduceWhile, hp], h, List.suffix_rfl, ?_⟩
        rintro o rest ⟨⟩
        simpa using hp

theorem Ready.closeAll (angle : AngleUnit) (h : Ready mode pending nodes) :
    ∃ t, Context.closeAll mode angle pending nodes = .ok [t] ∧ t.Supported mode.domain := by
  induction pending generalizing nodes with
  | nil =>
    obtain ⟨t, rfl⟩ := List.length_eq_one_iff.1 h.length
    exact ⟨t, rfl, h.supported t (by simp)⟩
  | cons first pending ih =>
    cases first with
    | operator op =>
      obtain ⟨nodes', hc, hr⟩ := h.combine angle
      obtain ⟨t, ht, hs⟩ := ih hr
      exact ⟨t, by simp [Context.closeAll, hc, ht], hs⟩
    | openParen =>
      obtain ⟨nodes', hw, hr⟩ := h.wrapTop
      obtain ⟨t, ht, hs⟩ := ih ⟨fun o ho => hr.operators o (List.mem_cons_of_mem _ ho),
        hr.supported, by simpa using hr.length⟩
      exact ⟨t, by simp [Context.closeAll, hw, ht], hs⟩

/-- To close an expression it does not matter which of its operators have applied already. -/
theorem closeAll_reduceWhile {angle : AngleUnit} {p : Operator → Bool}
    {left : List Pending × List Tree} (h : reduceWhile mode angle p pending nodes = .ok left) :
    closeAll mode angle pending nodes = closeAll mode angle left.1 left.2 := by
  induction pending generalizing nodes with
  | nil =>
    cases h
    rfl
  | cons first pending ih =>
    cases first with
    | openParen =>
      cases h
      rfl
    | operator op =>
      simp only [reduceWhile] at h
      split at h
      · obtain ⟨nodes', hcombine, hrest⟩ := bind_eq_ok.1 h
        rw [closeAll, hcombine, ← ih hrest]
        rfl
      · cases h
        rfl

/-- The expression in progress: all trees have code, and in algebraic entry there is one operand
for each operator that waits, or one more. -/
structure Sound (c : Context) : Prop where
  operators : WaitingIn c.mode c.pending
  supported : ∀ t ∈ c.nodes, t.Supported c.mode.domain
  rpn : c.style = .rpn → c.pending = []
  algebraic : c.style = .algebraic →
    c.nodes.length = waiting c.pending ∨ c.nodes.length = waiting c.pending + 1

variable {c : Context}

theorem Ready.sound (h : Ready c.mode c.pending c.nodes) (hs : c.style = .algebraic) :
    c.Sound where
  operators := h.operators
  supported := h.supported
  rpn := fun hr => absurd (hs.symm.trans hr) (by decide)
  algebraic := fun _ => .inr h.length

theorem Sound.ready (h : c.Sound) (hs : c.style = .algebraic) (ha : ¬ c.awaitsOperand) :
    Ready c.mode c.pending c.nodes where
  operators := h.operators
  supported := h.supported
  length := by
    rw [awaitsOperand_iff] at ha
    have := h.algebraic hs
    omega

theorem sound_ofSettings (s : Settings) : (ofSettings s).Sound where
  operators := fun _ h => absurd h (by simp [ofSettings])
  supported := fun _ h => absurd h (by simp [ofSettings])
  rpn := fun _ => rfl
  algebraic := fun _ => .inl rfl

theorem sound_clear (c : Context) : c.clear.Sound where
  operators := fun _ h => absurd h (by simp [clear])
  supported := fun _ h => absurd h (by simp [clear])
  rpn := fun _ => rfl
  algebraic := fun _ => .inl rfl

theorem sound_resetTo (c : Context) {t : Tree} (ht : t.Supported c.mode.domain) :
    (c.resetTo t).Sound where
  operators := fun _ h => absurd h (by simp [resetTo])
  supported := by
    intro u hu
    rw [List.mem_singleton.1 hu]
    exact ht
  rpn := fun _ => rfl
  algebraic := fun _ => .inr rfl

theorem Sound.withNodes (h : c.Sound) (hs : c.style = .rpn) {nodes : List Tree}
    (hn : ∀ t ∈ nodes, t.Supported c.mode.domain) : Sound { c with nodes } where
  operators := h.operators
  supported := hn
  rpn := h.rpn
  algebraic := fun ha => absurd (hs.symm.trans ha) (by decide)

theorem Sound.makeRoom (h : c.Sound) :
    c.makeRoom.Sound ∧ (c.style = .algebraic → c.makeRoom.nodes.length = waiting c.pending) := by
  simp only [Context.makeRoom]
  split
  · rename_i hc
    obtain ⟨hs, ha⟩ := hc
    have hlen : c.nodes.tail.length = waiting c.pending := by
      rw [List.length_tail, (h.ready hs ha).length, Nat.add_sub_cancel]
    exact ⟨⟨h.operators, fun t ht => h.supported t (List.mem_of_mem_tail ht), h.rpn,
      fun _ => .inl hlen⟩, fun _ => hlen⟩
  · rename_i hc
    refine ⟨h, fun hs => ?_⟩
    have ha : c.awaitsOperand := by simpa [hs] using hc
    rw [awaitsOperand_iff] at ha
    have := h.algebraic hs
    omega

@[simp] theorem makeRoom_pending (c : Context) : c.makeRoom.pending = c.pending := by
  simp only [makeRoom]
  split <;> rfl

@[simp] theorem makeRoom_mode (c : Context) : c.makeRoom.mode = c.mode := by
  simp only [makeRoom]
  split <;> rfl

@[simp] theorem makeRoom_angle (c : Context) : c.makeRoom.angle = c.angle := by
  simp only [makeRoom]
  split <;> rfl

@[simp] theorem makeRoom_style (c : Context) : c.makeRoom.style = c.style := by
  simp only [makeRoom]
  split <;> rfl

theorem Sound.pushOperand (h : c.Sound) {t : Tree} (ht : t.Supported c.mode.domain) :
    (c.pushOperand t).Sound where
  operators := h.makeRoom.1.operators
  supported := by
    intro u hu
    rcases List.mem_cons.1 hu with rfl | hu
    · simpa [Context.pushOperand] using ht
    · exact h.makeRoom.1.supported u hu
  rpn := h.makeRoom.1.rpn
  algebraic := by
    intro hs
    have hlen := h.makeRoom.2 (by simpa [Context.pushOperand] using hs)
    exact .inr (by simp [Context.pushOperand, hlen])

structure SameSettings (c c' : Context) : Prop where
  mode : c'.mode = c.mode
  angle : c'.angle = c.angle
  style : c'.style = c.style

theorem SameSettings.refl (c : Context) : SameSettings c c := ⟨rfl, rfl, rfl⟩

theorem SameSettings.trans {c₁ c₂ c₃ : Context} (h : SameSettings c₁ c₂) (h' : SameSettings c₂ c₃) :
    SameSettings c₁ c₃ :=
  ⟨h'.mode.trans h.mode, h'.angle.trans h.angle, h'.style.trans h.style⟩

theorem sameSettings_pushOperand (c : Context) (t : Tree) : SameSettings c (c.pushOperand t) :=
  ⟨makeRoom_mode c, makeRoom_angle c, makeRoom_style c⟩

theorem arity_le_two (op : Operator) : op.arity ≤ 2 := by
  simp only [Operator.arity, BuildRule.arity]
  split <;> omega

variable {c' : Context} {op : Operator}

theorem apply_of_rule_ne_group (hg : op.rule ≠ .group) (hop : op.availableIn c.mode) :
    c.apply op =
      if op.arity = 2 ∧ c.style = .algebraic then c.applyBetween op else c.applyNow op := by
  simp only [Context.apply]
  rw [if_pos hop]
  split
  · exact absurd rfl hg
  · exact absurd rfl hg
  · rfl

theorem apply_openParen (c : Context) : c.apply .openParen = c.applyOpenParen :=
  if_pos (by cases c.mode <;> rfl)

theorem apply_closeParen (c : Context) : c.apply .closeParen = c.applyCloseParen :=
  if_pos (by cases c.mode <;> rfl)

theorem Ready.applyBetween (hs : c.style = .algebraic) (ha : op.arity = 2)
    (hop : op.availableIn c.mode) (h : Ready c.mode pending nodes) :
    ∃ pending' nodes', Context.reduceWhile c.mode c.angle (·.bindsBefore op) pending nodes
        = .ok (pending', nodes') ∧
      Sound { c with nodes := nodes', pending := .operator op :: pending' } := by
  obtain ⟨pending', nodes', hw, hr, -, -⟩ := h.reduceWhile c.angle (·.bindsBefore op)
  refine ⟨pending', nodes', hw, ?_, hr.supported, ?_, fun _ => .inl ?_⟩
  · intro o ho
    rcases List.mem_cons.1 ho with ho | ho
    · cases ho
      exact ⟨ha, hop⟩
    · exact hr.operators o ho
  · exact fun hrpn => absurd (hs.symm.trans hrpn) (by decide)
  · rw [waiting_operator]
    exact hr.length

/-- The operator before it is given up if its right operand has not come, and its left operand
stays. -/
theorem Sound.applyBetween (h : c.Sound) (hs : c.style = .algebraic) (ha : op.arity = 2)
    (hop : op.availableIn c.mode) (hc : c.applyBetween op = .ok c') :
    c'.Sound ∧ SameSettings c c' := by
  simp only [Context.applyBetween] at hc
  split at hc
  · rename_i hawait
    rw [awaitsOperand_iff] at hawait
    have hlen := h.algebraic hs
    split at hc
    · rename_i o rest hrest
      rw [hrest, waiting_operator] at hawait hlen
      have hready : Ready c.mode rest c.nodes :=
        ⟨fun o ho => h.operators o (hrest ▸ List.mem_cons_of_mem _ ho), h.supported, by omega⟩
      obtain ⟨pending', nodes', hw, hsound⟩ := hready.applyBetween hs ha hop
      simp only [ok_bind, hw, pure_eq_ok] at hc
      subst hc
      exact ⟨hsound, rfl, rfl, rfl⟩
    · cases hc
  · rename_i hawait
    obtain ⟨pending', nodes', hw, hsound⟩ := (h.ready hs hawait).applyBetween hs ha hop
    simp only [ok_bind, hw, pure_eq_ok] at hc
    subst hc
    exact ⟨hsound, rfl, rfl, rfl⟩

theorem Sound.applyNow (h : c.Sound) (hs : c.style = .algebraic → op.arity ≠ 2)
    (hop : op.availableIn c.mode) (hc : c.applyNow op = .ok c') :
    c'.Sound ∧ SameSettings c c' := by
  simp only [Context.applyNow] at hc
  split at hc
  · rename_i harity
    obtain ⟨t, ht, rfl⟩ := map_eq_ok.1 hc
    have hg : op.rule ≠ .group := by
      intro hg
      simp [Tree.build, hg] at ht
    have hlen : ([] : List Tree).length = op.arity := harity.symm
    obtain ⟨u, hu, hsup⟩ := Tree.supported_build c.angle hop hg hlen (List.forall_mem_nil _)
    obtain rfl := Except.ok.inj (hu.symm.trans ht)
    exact ⟨h.pushOperand hsup, sameSettings_pushOperand c _⟩
  · rename_i harity
    split at hc
    · cases hc
    · rename_i hready
      obtain ⟨nodes, hn, rfl⟩ := map_eq_ok.1 hc
      have hlen : op.arity ≤ c.nodes.length := by
        refine Nat.le_of_not_lt fun hlt => ?_
        simp [combine, hlt] at hn
      obtain ⟨t, ht, hsup⟩ := combine_supported c.angle hop (by omega) hlen h.supported
      obtain rfl := Except.ok.inj (ht.symm.trans hn)
      have hall : ∀ u ∈ t :: c.nodes.drop op.arity, u.Supported c.mode.domain := by
        intro u hu
        rcases List.mem_cons.1 hu with rfl | hu
        · exact hsup
        · exact h.supported u (List.mem_of_mem_drop hu)
      refine ⟨⟨h.operators, hall, h.rpn, fun ha => .inr ?_⟩, ⟨rfl, rfl, rfl⟩⟩
      -- in algebraic entry one operand takes the place of another
      have hone : op.arity = 1 := by
        have := hs ha
        have := arity_le_two op
        omega
      have hlast := (h.ready ha (fun hw => hready ⟨ha, hw⟩)).length
      simp only [List.length_cons, List.length_drop]
      omega

theorem Sound.applyOpenParen (h : c.Sound) (hc : c.applyOpenParen = .ok c') :
    c'.Sound ∧ SameSettings c c' := by
  simp only [Context.applyOpenParen] at hc
  split at hc
  · cases hc
  · rename_i hs
    obtain rfl := Except.ok.inj hc
    obtain ⟨hroom, hlen⟩ := h.makeRoom
    refine ⟨⟨?_, hroom.supported, ?_, fun _ => .inl ?_⟩,
      ⟨makeRoom_mode c, makeRoom_angle c, makeRoom_style c⟩⟩
    · intro o ho
      rcases List.mem_cons.1 ho with ho | ho
      · cases ho
      · exact hroom.operators o ho
    · intro hr
      rw [makeRoom_style, hs] at hr
      cases hr
    · rw [waiting_openParen, makeRoom_pending]
      exact hlen hs

theorem Sound.applyCloseParen (h : c.Sound) (hc : c.applyCloseParen = .ok c') :
    c'.Sound ∧ SameSettings c c' := by
  simp only [Context.applyCloseParen] at hc
  split at hc
  · rename_i hs
    obtain ⟨nodes, hn, rfl⟩ := map_eq_ok.1 hc
    refine ⟨h.withNodes hs ?_, ⟨rfl, rfl, rfl⟩⟩
    intro u hu
    match hnodes : c.nodes, hn with
    | t :: rest, hn =>
      obtain rfl := Except.ok.inj hn
      rcases List.mem_cons.1 hu with rfl | hu
      · exact .paren (h.supported t (by simp [hnodes]))
      · exact h.supported u (by simp [hnodes, hu])
  · rename_i hs
    split at hc
    · cases hc
    · split at hc
      · cases hc
      · rename_i hopen hawait
        simp only [bind_eq_ok, pure_eq_ok] at hc
        obtain ⟨⟨pending, nodes⟩, hr, nodes', hw, rfl⟩ := hc
        obtain ⟨pending', nodes'', hr', hready, -, hstop⟩ :=
          (h.ready hs hawait).reduceWhile c.angle (fun _ => true)
        obtain ⟨rfl, rfl⟩ := Prod.mk.inj (Except.ok.inj (hr'.symm.trans hr))
        obtain ⟨nodes'', hw', hwrapped⟩ := hready.wrapTop
        obtain rfl := Except.ok.inj (hw'.symm.trans hw)
        refine ⟨Ready.sound ⟨?_, hwrapped.supported, ?_⟩ hs, ⟨rfl, rfl, rfl⟩⟩
        · exact fun o ho => hwrapped.operators o (List.mem_of_mem_tail ho)
        · cases pending' with
          | nil => exact hwrapped.length
          | cons p rest =>
            cases p with
            | openParen => simpa using hwrapped.length
            | operator o => cases hstop o rest rfl

theorem Sound.apply (h : c.Sound) (hc : c.apply op = .ok c') : c'.Sound ∧ SameSettings c c' := by
  simp only [Context.apply] at hc
  split at hc
  · rename_i hop
    split at hc
    · exact h.applyOpenParen hc
    · exact h.applyCloseParen hc
    · split at hc
      · rename_i harity
        exact h.applyBetween harity.2 harity.1 hop hc
      · rename_i harity
        exact h.applyNow (fun hs ha => harity ⟨ha, hs⟩) hop hc
  · cases hc

/-- There is a root unless nothing has been entered or an operand is still awaited. -/
theorem Sound.finish (h : c.Sound) :
    if c.nodes = [] ∨ c.style = .algebraic ∧ c.awaitsOperand then ∃ e, c.finish = .error e
    else ∃ t, c.finish = .ok t ∧ t.Supported c.mode.domain := by
  simp only [Context.finish]
  cases hnodes : c.nodes with
  | nil => simp
  | cons t rest =>
    cases hs : c.style with
    | rpn => simpa using h.supported t (by simp [hnodes])
    | algebraic =>
      by_cases ha : c.awaitsOperand
      · simp [ha]
      · obtain ⟨root, hr, hsup⟩ := (h.ready hs ha).closeAll c.angle
        rw [hnodes] at hr
        simpa [ha, hr] using hsup

end Context
end DeskCalculator
