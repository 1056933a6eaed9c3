import DeskCalculator.Proofs.Building
import DeskCalculator.Proofs.Context
/-!
What is entered between parentheses against the same entered alone. Main statement:
`Context.apply_parentheses` says that what stands before the parentheses makes no difference to what
is entered between them, and stays as it is.
-/
namespace DeskCalculator
namespace Context

/-! Operands and operators, one after the other. -/

inductive Step where
  | operand (t : Tree)
  | operator (op : Operator)

def Step.isClosing : Step → Bool
  | operator .closeParen => true
  | _ => false

def step (c : Context) : Step → Except BuildError Context
  | .operand t => .ok (c.pushOperand t)
  | .operator op => c.apply op

/-- A step that is refused changes nothing. -/
def feed (c : Context) (s : Step) : Context :=
  match c.step s with
  | .ok c' => c'
  | .error _ => c

def refusal? (c : Context) (s : Step) : Option BuildError :=
  match c.step s with
  | .ok _ => none
  | .error e => some e

def run (c : Context) (steps : List Step) : Context := steps.foldl feed c

def refusals (c : Context) : List Step → List (Option BuildError)
  | [] => []
  | s :: steps => c.refusal? s :: (c.feed s).refusals steps

/-- Is no parenthesis closed unless one is open? -/
def encloses (c : Context) : List Step → Bool
  | [] => true
  | s :: steps => (!s.isClosing || 0 < c.openParens) && (c.feed s).encloses steps

inductive Built : Context → Prop where
  | fresh (mode : Mode) (angle : AngleUnit) :
      Built (ofSettings { mode, angle, style := .algebraic })
  | feed {c : Context} (h : Built c) (s : Step) : Built (c.feed s)
  | clear {c : Context} (h : Built c) : Built c.clear
  | resetTo {c : Context} (h : Built c) (t : Tree) : Built (c.resetTo t)

/-! Operators that wait and their operands. -/

/-- What stands before an operand: operators, each with its left operand, and open parentheses. -/
structure Frame where
  nodes : List Tree
  pending : List Pending
  length : nodes.length = waiting pending

/-- An expression that is entered after an opening parenthesis. -/
def atop (c : Context) (f : Frame) : Context :=
  { c with nodes := c.nodes ++ f.nodes, pending := c.pending ++ .openParen :: f.pending }

/-- Operators with their left operands, and the operand after the last of them. -/
structure Complete (pending : List Pending) (nodes : List Tree) : Prop where
  operators : ∀ op, .operator op ∈ pending → op.arity = 2
  length : nodes.length = waiting pending + 1

/-- The shape of an expression in algebraic entry, whatever its operands are: there is one operand
for each operator that waits, or one more. -/
structure Balanced (c : Context) : Prop where
  style : c.style = .algebraic
  operators : ∀ op, .operator op ∈ c.pending → op.arity = 2
  length : c.nodes.length = waiting c.pending ∨ c.nodes.length = waiting c.pending + 1

variable {c c' : Context} {f : Frame} {pending : List Pending} {nodes : List Tree} {op : Operator}

@[simp] theorem waiting_append (pending pending' : List Pending) :
    waiting (pending ++ pending') = waiting pending + waiting pending' :=
  List.countP_append

@[simp] theorem atop_nodes (c : Context) (f : Frame) : (c.atop f).nodes = c.nodes ++ f.nodes := rfl

@[simp] theorem atop_pending (c : Context) (f : Frame) :
    (c.atop f).pending = c.pending ++ .openParen :: f.pending := rfl

@[simp] theorem atop_mode (c : Context) (f : Frame) : (c.atop f).mode = c.mode := rfl

@[simp] theorem atop_angle (c : Context) (f : Frame) : (c.atop f).angle = c.angle := rfl

@[simp] theorem atop_style (c : Context) (f : Frame) : (c.atop f).style = c.style := rfl

@[simp] theorem awaitsOperand_atop (c : Context) (f : Frame) :
    (c.atop f).awaitsOperand = c.awaitsOperand := by
  rw [Bool.eq_iff_iff, awaitsOperand_iff, awaitsOperand_iff]
  simp [f.length]

theorem openParens_atop_pos (c : Context) (f : Frame) : 0 < (c.atop f).openParens := by
  simp [openParens, Pending.isOperator]

theorem makeRoom_atop (c : Context) (f : Frame) : (c.atop f).makeRoom = c.makeRoom.atop f := by
  simp only [makeRoom, atop_style, awaitsOperand_atop]
  split
  · rename_i hc
    rw [atop_nodes, List.tail_append_of_ne_nil (nodes_ne_nil hc.2)]
    rfl
  · rfl

theorem pushOperand_atop (c : Context) (f : Frame) (t : Tree) :
    (c.atop f).pushOperand t = (c.pushOperand t).atop f := by
  simp only [pushOperand, makeRoom_atop]
  rfl

theorem Balanced.complete (h : c.Balanced) (ha : ¬ c.awaitsOperand) :
    Complete c.pending c.nodes where
  operators := h.operators
  length := by
    rw [awaitsOperand_iff] at ha
    have := h.length
    omega

theorem Balanced.length_makeRoom (h : c.Balanced) :
    c.makeRoom.nodes.length = waiting c.pending := by
  simp only [makeRoom]
  split
  · rename_i hc
    rw [List.length_tail, (h.complete hc.2).length, Nat.add_sub_cancel]
  · rename_i hc
    have ha : c.awaitsOperand := by simpa [h.style] using hc
    rw [awaitsOperand_iff] at ha
    have := h.length
    omega

def Balanced.frame (h : c.Balanced) : Frame := ⟨c.makeRoom.nodes, c.pending, h.length_makeRoom⟩

theorem Balanced.pushOperand (h : c.Balanced) (t : Tree) : (c.pushOperand t).Balanced where
  style := (makeRoom_style c).trans h.style
  operators := (makeRoom_pending c).symm ▸ h.operators
  length := .inr (by simp [Context.pushOperand, h.length_makeRoom])

/-! What is waiting below the operands of an operator does not matter. -/

theorem exists_combine (mode : Mode) (angle : AngleUnit) (hg : op.rule ≠ .group)
    (hl : op.arity ≤ nodes.length) :
    ∃ t, combine mode angle op nodes = .ok (t :: nodes.drop op.arity) ∧
      ∀ rest, combine mode angle op (nodes ++ rest) = .ok (t :: nodes.drop op.arity ++ rest) := by
  have hlen : (nodes.take op.arity).reverse.length = op.arity := by simp [hl]
  obtain ⟨t, ht⟩ := Tree.exists_build mode angle hg hlen
  refine ⟨t, combine_of_build hl ht, fun rest => ?_⟩
  have hrest : op.arity ≤ (nodes ++ rest).length := by
    rw [List.length_append]
    omega
  have htake : (nodes ++ rest).take op.arity = nodes.take op.arity :=
    List.take_append_of_le_length hl
  rw [← htake] at ht
  rw [combine_of_build hrest ht, List.drop_append_of_le_length hl]
  rfl

theorem Complete.combine (mode : Mode) (angle : AngleUnit)
    (h : Complete (.operator op :: pending) nodes) :
    ∃ nodes', Complete pending nodes' ∧ Context.combine mode angle op nodes = .ok nodes' ∧
      ∀ rest, Context.combine mode angle op (nodes ++ rest) = .ok (nodes' ++ rest) := by
  have harity := h.operators op (by simp)
  have hlen := h.length
  rw [waiting_operator] at hlen
  have hl : op.arity ≤ nodes.length := by omega
  obtain ⟨t, halone, hrest⟩ := exists_combine mode angle (rule_ne_group (by omega)) hl
  refine ⟨_, ⟨fun o ho => h.operators o (List.mem_cons_of_mem _ ho), ?_⟩, halone, hrest⟩
  simp only [List.length_cons, List.length_drop]
  omega

/-- Operators apply alike above a frame and alone, and none of the parentheses is closed. -/
theorem Complete.reduceWhile (mode : Mode) (angle : AngleUnit) (p : Operator → Bool)
    (h : Complete pending nodes) :
    ∃ pending' nodes', Complete pending' nodes' ∧
      pending'.countP (! ·.isOperator) = pending.countP (! ·.isOperator) ∧
      (∀ op rest, pending' = .operator op :: rest → p op = false) ∧
      Context.reduceWhile mode angle p pending nodes = .ok (pending', nodes') ∧
      ∀ f : Frame, Context.reduceWhile mode angle p (pending ++ .openParen :: f.pending)
        (nodes ++ f.nodes) = .ok (pending' ++ .openParen :: f.pending, nodes' ++ f.nodes) := by
  induction pending generalizing nodes with
  | nil => exact ⟨[], nodes, h, rfl, by simp, rfl, fun _ => rfl⟩
  | cons first pending ih =>
    cases first with
    | openParen => exact ⟨_, nodes, h, rfl, by simp, rfl, fun _ => rfl⟩
    | operator op =>
      by_cases hp : p op
      · obtain ⟨nodes₁, hcomplete, hcombine, hrest⟩ := h.combine mode angle
        obtain ⟨pending', nodes', hleft, hcount, hstop, halone, hatop⟩ := ih hcomplete
        refine ⟨pending', nodes', hleft, ?_, hstop, ?_, fun f => ?_⟩
        · simpa [Pending.isOperator] using hcount
        · simp [Context.reduceWhile, hp, hcombine, halone]
        · simp [Context.reduceWhile, hp, hrest, hatop]
      · refine ⟨_, nodes, h, rfl, ?_, ?_, fun f => ?_⟩
        · rintro o rest ⟨⟩
          simpa using hp
        · simp [Context.reduceWhile, hp]
        · simp [Context.reduceWhile, hp]

/-- All operators apply up to the innermost parenthesis. -/
theorem Complete.reduceAll (mode : Mode) (angle : AngleUnit) (h : Complete pending nodes) :
    ∃ pending' t nodes', Complete pending' (t :: nodes') ∧
      (pending.countP (! ·.isOperator) = 0 → pending' = []) ∧
      (pending.countP (! ·.isOperator) ≠ 0 → ∃ rest, pending' = .openParen :: rest) ∧
      Context.reduceWhile mode angle (fun _ => true) pending nodes = .ok (pending', t :: nodes') ∧
      ∀ f : Frame, Context.reduceWhile mode angle (fun _ => true)
        (pending ++ .openParen :: f.pending) (nodes ++ f.nodes) =
          .ok (pending' ++ .openParen :: f.pending, t :: nodes' ++ f.nodes) := by
  obtain ⟨pending', nodes', hleft, hcount, hstop, halone, hatop⟩ :=
    h.reduceWhile mode angle fun _ => true
  obtain ⟨t, nodes', rfl⟩ := List.exists_cons_of_length_eq_add_one hleft.length
  refine ⟨pending', t, nodes', hleft, ?_, ?_, halone, hatop⟩ <;> rw [← hcount]
  all_goals
    rcases pending' with _ | ⟨o | _, rest⟩
    · simp
    · exact absurd (hstop o rest rfl) (by simp)
    · simp [Pending.isOperator]

/-! One key above an open parenthesis. -/

/-- Does a key do the same after an opening parenthesis as alone? It is refused for the same reason,
or is taken and keeps the shape of the expression. -/
inductive Hermetic (key : Context → Except BuildError Context) (c : Context) : Prop where
  | refused (e : BuildError) (h : key c = .error e) (ha : ∀ f, key (c.atop f) = .error e)
  | taken (c' : Context) (hc : c'.Balanced) (hs : SameSettings c c') (h : key c = .ok c')
      (ha : ∀ f, key (c.atop f) = .ok (c'.atop f))

theorem Hermetic.congr {key key' : Context → Except BuildError Context} (h : Hermetic key c')
    (hs : SameSettings c c') (hc : key' c = key c')
    (ha : ∀ f, key' (c.atop f) = key (c'.atop f)) : Hermetic key' c := by
  cases h with
  | refused e h he => exact .refused e (hc.trans h) fun f => (ha f).trans (he f)
  | taken c₁ hb hs₁ h ht =>
    exact .taken c₁ hb (hs.trans hs₁) (hc.trans h) fun f => (ha f).trans (ht f)

theorem Complete.wait (h : Complete pending nodes) (hs : c.style = .algebraic)
    (hop : op.arity = 2) : Balanced { c with nodes, pending := .operator op :: pending } where
  style := hs
  operators := by
    intro o ho
    rcases List.mem_cons.1 ho with ho | ho
    · cases ho
      exact hop
    · exact h.operators o ho
  length := .inl (by simpa using h.length)

theorem applyBetween_of_reduceWhile (ha : ¬ c.awaitsOperand) {left : List Pending × List Tree}
    (h : Context.reduceWhile c.mode c.angle (·.bindsBefore op) c.pending c.nodes = .ok left) :
    c.applyBetween op = .ok { c with nodes := left.2, pending := .operator op :: left.1 } := by
  simp only [Context.applyBetween, if_neg ha, ok_bind, h]
  rfl

/-- The operator of a complete expression takes its place above a frame as it does alone. -/
theorem Balanced.applyBetween_of_complete (h : c.Balanced) (hop : op.arity = 2)
    (ha : ¬ c.awaitsOperand) : Hermetic (·.applyBetween op) c := by
  obtain ⟨pending', nodes', hleft, -, -, halone, hatop⟩ :=
    (h.complete ha).reduceWhile c.mode c.angle (·.bindsBefore op)
  refine .taken _ (hleft.wait h.style hop) ⟨rfl, rfl, rfl⟩ ?_ fun f => ?_
  · exact applyBetween_of_reduceWhile ha halone
  · simp only [Context.applyBetween, awaitsOperand_atop, if_neg ha, ok_bind, atop_mode, atop_angle,
      atop_pending, atop_nodes, hatop f]
    rfl

/-- The second operator in a row finds the expression as it was before the first. -/
theorem applyBetween_again {o : Operator} (ha : c.awaitsOperand)
    (hp : c.pending = .operator o :: pending)
    (hn : ¬ ({ c with pending } : Context).awaitsOperand) :
    c.applyBetween op = ({ c with pending } : Context).applyBetween op := by
  simp only [applyBetween, if_pos ha, hp, if_neg hn]

theorem Balanced.withoutOperator (h : c.Balanced) {o : Operator} (ha : c.awaitsOperand)
    (hp : c.pending = .operator o :: pending) :
    Balanced { c with pending } ∧ ¬ ({ c with pending } : Context).awaitsOperand := by
  have hlen : c.nodes.length = waiting pending + 1 := by
    have := h.length
    have hle := (awaitsOperand_iff c).1 ha
    rw [hp, waiting_operator] at this hle
    omega
  refine ⟨⟨h.style, fun o ho => h.operators o (hp ▸ List.mem_cons_of_mem _ ho), .inr hlen⟩, ?_⟩
  rw [awaitsOperand_iff]
  exact Nat.not_le.2 (by rw [hlen]; exact Nat.lt_succ_self _)

theorem applyBetween_of_awaitsOperand (ha : c.awaitsOperand)
    (hp : ∀ o pending, c.pending ≠ .operator o :: pending) :
    c.applyBetween op = .error (.insufficientOperands op.symbol 2 0) := by
  simp only [applyBetween, if_pos ha]
  rfl

theorem Balanced.applyBetween (h : c.Balanced) (hop : op.arity = 2) :
    Hermetic (·.applyBetween op) c := by
  by_cases ha : c.awaitsOperand
  · rcases hp : c.pending with _ | ⟨o | _, pending⟩
    case cons.operator =>
      obtain ⟨hbalanced, hn⟩ := h.withoutOperator ha hp
      refine (hbalanced.applyBetween_of_complete hop hn).congr ⟨rfl, rfl, rfl⟩
        (applyBetween_again ha hp hn) fun f => ?_
      rw [← awaitsOperand_atop _ f] at hn
      exact applyBetween_again (by simpa using ha) (by rw [atop_pending, hp]; rfl) hn
    all_goals
      exact .refused _ (applyBetween_of_awaitsOperand ha (by simp [hp]))
        fun f => applyBetween_of_awaitsOperand (by simpa using ha) (by simp [hp])
  · exact h.applyBetween_of_complete hop ha

theorem Balanced.applyNow (h : c.Balanced) (hg : op.rule ≠ .group) (hop : op.arity ≠ 2) :
    Hermetic (·.applyNow op) c := by
  by_cases hconstant : op.arity = 0
  · have hlen : ([] : List Tree).length = op.arity := hconstant.symm
    obtain ⟨t, ht⟩ := Tree.exists_build c.mode c.angle hg hlen
    refine .taken (c.pushOperand t) (h.pushOperand t) (sameSettings_pushOperand c t) ?_ fun f => ?_
    · simp only [Context.applyNow, if_pos hconstant, ht, Except.map]
    · simp only [Context.applyNow, if_pos hconstant, atop_mode, atop_angle, ht, Except.map,
        pushOperand_atop]
  · have hone : op.arity = 1 := by
      have := arity_le_two op
      omega
    by_cases ha : c.awaitsOperand
    · refine .refused (.insufficientOperands op.symbol op.arity 0) ?_ fun f => ?_
      · simp only [Context.applyNow, if_neg hconstant, if_pos (And.intro h.style ha)]
      · simp only [Context.applyNow, if_neg hconstant, atop_style, awaitsOperand_atop,
          if_pos (And.intro h.style ha)]
    · have hcomplete := h.complete ha
      have hlen := hcomplete.length
      have hl : op.arity ≤ c.nodes.length := by omega
      have hready : ¬ (c.style = .algebraic ∧ c.awaitsOperand) := fun hr => ha hr.2
      obtain ⟨t, halone, hrest⟩ := exists_combine c.mode c.angle hg hl
      refine .taken { c with nodes := t :: c.nodes.drop op.arity }
        ⟨h.style, h.operators, .inr ?_⟩ ⟨rfl, rfl, rfl⟩ ?_ fun f => ?_
      · simp only [List.length_cons, List.length_drop]
        omega
      · simp only [Context.applyNow, if_neg hconstant, if_neg hready, halone, Except.map]
      · simp only [Context.applyNow, if_neg hconstant, atop_style, awaitsOperand_atop,
          if_neg hready, atop_mode, atop_angle, atop_nodes, hrest, Except.map]
        rfl

theorem Balanced.applyOpenParen (h : c.Balanced) : Hermetic Context.applyOpenParen c := by
  refine .taken { c.makeRoom with pending := .openParen :: c.makeRoom.pending }
    ⟨(makeRoom_style c).trans h.style, ?_, .inl ?_⟩
    ⟨makeRoom_mode c, makeRoom_angle c, makeRoom_style c⟩ ?_ fun f => ?_
  · intro o ho
    rcases List.mem_cons.1 ho with ho | ho
    · cases ho
    · exact h.operators o (makeRoom_pending c ▸ ho)
  · simpa using h.length_makeRoom
  · simp only [Context.applyOpenParen, h.style]
  · simp only [Context.applyOpenParen, atop_style, h.style, makeRoom_atop]
    rfl

/-- A closing parenthesis after an operand is taken while one is open: what it closes is one operand
again, which nothing below has a part in. -/
theorem Balanced.exists_closed (h : c.Balanced) (hopen : c.openParens ≠ 0)
    (ha : ¬ c.awaitsOperand) :
    ∃ t nodes' pending',
      let c' : Context := { c with nodes := .paren t :: nodes', pending := pending' }
      c'.Balanced ∧ ¬ c'.awaitsOperand ∧ c.applyCloseParen = .ok c' ∧
        reduceWhile c.mode c.angle (fun _ => true) c.pending c.nodes =
          .ok (.openParen :: pending', t :: nodes') ∧
        ∀ f : Frame, reduceWhile c.mode c.angle (fun _ => true)
          (c.pending ++ .openParen :: f.pending) (c.nodes ++ f.nodes) =
            .ok (.openParen :: pending' ++ .openParen :: f.pending, t :: nodes' ++ f.nodes) := by
  obtain ⟨_, t, nodes', hleft, -, hparen, halone, hatop⟩ := (h.complete ha).reduceAll c.mode c.angle
  obtain ⟨pending', rfl⟩ := hparen hopen
  have hlength : nodes'.length = waiting pending' := by simpa using hleft.length
  refine ⟨t, nodes', pending',
    ⟨h.style, fun o ho => hleft.operators o (List.mem_cons_of_mem _ ho), .inr ?_⟩, ?_, ?_,
    halone, hatop⟩
  · rw [List.length_cons, hlength]
  · rw [awaitsOperand_iff, List.length_cons, hlength]
    exact Nat.not_succ_le_self _
  · simp only [Context.applyCloseParen, h.style, if_neg hopen, if_neg ha, halone, ok_bind]
    rfl

theorem Balanced.applyCloseParen (h : c.Balanced) (hopen : 0 < c.openParens) :
    Hermetic Context.applyCloseParen c := by
  have hne : c.openParens ≠ 0 := Nat.ne_of_gt hopen
  have hneAtop : ∀ f, (c.atop f).openParens ≠ 0 := fun f => Nat.ne_of_gt (openParens_atop_pos c f)
  by_cases ha : c.awaitsOperand
  · refine .refused .incompleteExpression ?_ fun f => ?_
    · simp only [Context.applyCloseParen, h.style, if_neg hne, if_pos ha]
    · simp only [Context.applyCloseParen, atop_style, h.style, if_neg (hneAtop f),
        awaitsOperand_atop, if_pos ha]
  · obtain ⟨t, nodes', pending', hb, -, hclose, -, hatop⟩ := h.exists_closed hne ha
    refine .taken _ hb ⟨rfl, rfl, rfl⟩ hclose fun f => ?_
    simp only [Context.applyCloseParen, atop_style, h.style, if_neg (hneAtop f),
      awaitsOperand_atop, if_neg ha, atop_mode, atop_angle, atop_pending, atop_nodes,
      hatop f, ok_bind]
    rfl

theorem Balanced.apply (h : c.Balanced) (hopen : op = .closeParen → 0 < c.openParens) :
    Hermetic (·.apply op) c := by
  by_cases hop : op.availableIn c.mode
  · by_cases hg : op.rule = .group
    · rcases (Operator.rule_eq_group_iff op).1 hg with rfl | rfl
      · exact h.applyOpenParen.congr (.refl c) (apply_openParen c) fun f => apply_openParen _
      · exact (h.applyCloseParen (hopen rfl)).congr (.refl c) (apply_closeParen c)
          fun f => apply_closeParen _
    · have happly : ∀ c' : Context, c'.mode = c.mode → c'.style = c.style →
          c'.apply op = if op.arity = 2 then c'.applyBetween op else c'.applyNow op := by
        intro c' hmode hstyle
        rw [apply_of_rule_ne_group hg (hmode ▸ hop)]
        simp only [hstyle, h.style, and_true]
      by_cases harity : op.arity = 2
      · simp only [if_pos harity] at happly
        exact (h.applyBetween harity).congr (.refl c) (happly c rfl rfl)
          fun f => happly (c.atop f) rfl rfl
      · simp only [if_neg harity] at happly
        exact (h.applyNow hg harity).congr (.refl c) (happly c rfl rfl)
          fun f => happly (c.atop f) rfl rfl
  · exact .refused _ (if_neg hop) fun f => if_neg hop

theorem Balanced.step (h : c.Balanced) {s : Step} (hopen : s.isClosing → 0 < c.openParens) :
    Hermetic (·.step s) c := by
  cases s with
  | operand t =>
    exact .taken _ (h.pushOperand t) (sameSettings_pushOperand c t) rfl
      fun f => congrArg Except.ok (pushOperand_atop c f t)
  | operator op =>
    refine h.apply fun hclose => hopen ?_
    rw [hclose]
    rfl

/-! Many steps above an open parenthesis. -/

theorem Balanced.feed_atop (h : c.Balanced) {s : Step} (hopen : s.isClosing → 0 < c.openParens) :
    (c.feed s).Balanced ∧ SameSettings c (c.feed s) ∧
      ∀ f, (c.atop f).feed s = (c.feed s).atop f ∧ (c.atop f).refusal? s = c.refusal? s := by
  simp only [feed, refusal?]
  rcases h.step hopen with ⟨e, halone, hatop⟩ | ⟨c', hb, hs, halone, hatop⟩
  · simp only [halone, hatop]
    exact ⟨h, .refl c, by simp⟩
  · simp only [halone, hatop]
    exact ⟨hb, hs, by simp⟩

theorem Balanced.run_atop (h : c.Balanced) (f : Frame) {steps : List Step}
    (hin : c.encloses steps) :
    (c.run steps).Balanced ∧ SameSettings c (c.run steps) ∧
      (c.atop f).run steps = (c.run steps).atop f ∧
      (c.atop f).refusals steps = c.refusals steps := by
  induction steps generalizing c with
  | nil => exact ⟨h, .refl c, rfl, rfl⟩
  | cons s steps ih =>
    simp only [encloses, Bool.and_eq_true] at hin
    obtain ⟨hopen, hin⟩ := hin
    obtain ⟨hfeed, hsettings, hatop⟩ := h.feed_atop (s := s) fun hs => by simpa [hs] using hopen
    obtain ⟨hrun, hsettings', hrunAtop, hrefusals⟩ := ih hfeed hin
    refine ⟨hrun, hsettings.trans hsettings', ?_, ?_⟩
    · rw [run, List.foldl_cons, (hatop f).1]
      exact hrunAtop
    · rw [refusals, refusals, (hatop f).1, (hatop f).2, hrefusals]

theorem feed_of_openParens_eq_zero (hs : c.style = .algebraic) (hopen : c.openParens = 0) {s : Step}
    (hclosing : s.isClosing) : c.feed s = c := by
  obtain rfl : s = .operator .closeParen := by
    cases s with
    | operand t => cases hclosing
    | operator op => cases op <;> first | rfl | cases hclosing
  have hrefused : c.apply .closeParen = .error .unbalancedParenthesis := by
    simp only [apply_closeParen, applyCloseParen, hs, if_pos hopen]
  simp only [feed, Context.step, hrefused]

theorem Built.balanced (h : c.Built) : c.Balanced := by
  induction h with
  | fresh mode angle => exact ⟨rfl, by simp [ofSettings], .inl rfl⟩
  | @feed c h s ih =>
    by_cases hopen : s.isClosing ∧ c.openParens = 0
    · rw [feed_of_openParens_eq_zero ih.style hopen.2 hopen.1]
      exact ih
    · exact (ih.feed_atop fun hs => Nat.pos_of_ne_zero fun hz => hopen ⟨hs, hz⟩).1
  | clear h ih => exact ⟨ih.style, by simp [Context.clear], .inl rfl⟩
  | resetTo h t ih => exact ⟨ih.style, by simp [Context.resetTo], .inr rfl⟩

theorem Built.run (h : c.Built) (steps : List Step) : (c.run steps).Built := by
  induction steps generalizing c with
  | nil => exact h
  | cons s steps ih => exact ih (h.feed s)

/-- An opening parenthesis starts an expression of its own. -/
theorem Balanced.apply_openParen (h : c.Balanced) :
    c.apply .openParen = .ok (c.clear.atop h.frame) := by
  simp only [Context.apply_openParen, Context.applyOpenParen, h.style, makeRoom_pending]
  simp [atop, Context.clear, Balanced.frame, h.style]

/-- The parenthesis closes around the whole of what has been entered since. -/
theorem Balanced.apply_closeParen_atop (h : c.Balanced) (hopen : c.openParens = 0)
    (ha : ¬ c.awaitsOperand) :
    ∃ root, c.finish = .ok root ∧ ∀ f : Frame, (c.atop f).apply .closeParen =
      .ok { c with nodes := .paren root :: f.nodes, pending := f.pending } := by
  obtain ⟨_, root, nodes', hleft, hnone, -, halone, hatop⟩ :=
    (h.complete ha).reduceAll c.mode c.angle
  obtain rfl := hnone hopen
  obtain rfl : nodes' = [] := List.length_eq_zero_iff.1 (Nat.succ.inj hleft.length)
  have hclose : closeAll c.mode c.angle c.pending c.nodes = .ok [root] :=
    closeAll_reduceWhile halone
  refine ⟨root, ?_, fun f => ?_⟩
  · obtain ⟨t, nodes, hnodes⟩ := List.exists_cons_of_length_eq_add_one (h.complete ha).length
    rw [hnodes] at hclose
    simp only [Context.finish, hnodes, h.style, if_neg ha, hclose, ok_bind]
    rfl
  · have hne := Nat.ne_of_gt (openParens_atop_pos c f)
    simp only [apply_closeParen, Context.applyCloseParen, atop_style, h.style, if_neg hne,
      awaitsOperand_atop, if_neg ha, atop_mode, atop_angle, atop_pending, atop_nodes, hatop f,
      ok_bind]
    rfl

/-- Whatever is entered between parentheses is taken and refused as it would be alone, and becomes
one operand in parentheses; what stood before is left, but for an operand that nobody waited for. -/
theorem apply_parentheses (h : c.Built) (steps : List Step) (hin : c.clear.encloses steps)
    (hopen : (c.clear.run steps).openParens = 0) (ha : ¬ (c.clear.run steps).awaitsOperand) :
    ∃ opened closed root, c.apply .openParen = .ok opened ∧
      opened.refusals steps = c.clear.refusals steps ∧
      (opened.run steps).apply .closeParen = .ok closed ∧
      (c.clear.run steps).finish = .ok root ∧
      closed = { c with
        nodes := .paren root :: if c.awaitsOperand then c.nodes else c.nodes.tail } := by
  have hb := h.balanced
  obtain ⟨hrun, hsettings, hatop, hrefusals⟩ := h.clear.balanced.run_atop hb.frame hin
  obtain ⟨root, hfinish, hclose⟩ := hrun.apply_closeParen_atop hopen ha
  refine ⟨_, _, root, hb.apply_openParen, hrefusals, hatop ▸ hclose hb.frame, hfinish, ?_⟩
  have hroom : c.makeRoom.nodes = if c.awaitsOperand then c.nodes else c.nodes.tail := by
    simp only [makeRoom, hb.style]
    cases c.awaitsOperand <;> rfl
  rw [hsettings.mode, hsettings.angle, hsettings.style, ← hroom]
  rfl

theorem apply_parentheses_sum :
    ∃ opened closed : Context,
      (⟨[.number (.integer 3), .number (.integer 2)], [.operator .mul], .programmer, .radians,
        .algebraic⟩ : Context).apply .openParen = .ok opened ∧
      (opened.run [.operand (.number (.integer 4)), .operator .add, .operator .sin,
        .operand (.number (.integer 5))]).apply .closeParen = .ok closed ∧
      closed.nodes = [.paren (.binary .add (.number (.integer 4)) (.number (.integer 5))),
        .number (.integer 2)] := by
  have hc := (Built.fresh .programmer .radians).run
    [.operand (.number (.integer 2)), .operator .mul, .operand (.number (.integer 3))]
  obtain ⟨opened, closed, root, hopened, -, hclosed, hroot, hresult⟩ :=
    apply_parentheses hc [.operand (.number (.integer 4)), .operator .add, .operator .sin,
      .operand (.number (.integer 5))] rfl rfl Bool.false_ne_true
  obtain rfl : _ = root := Except.ok.inj hroot
  refine ⟨opened, closed, hopened, hclosed, ?_⟩
  rw [hresult]
  rfl

end Context
end DeskCalculator
