import DeskCalculator.Compiler
import DeskCalculator.Proofs.Domain
import DeskCalculator.Proofs.Except
import DeskCalculator.Proofs.Tree
/-!
The value of a tree by recursion, and the compiler against it. Main statement: `execute_compile`
says that the code of a tree, run on any machine, leaves the value of the tree.
-/
namespace DeskCalculator

namespace Opcode

/-- What an operation makes of operands that are all numbers. -/
def compute? : Opcode → List Value → Option Value
  | .doubleUnary f, [a] => some (f.apply a.asDouble)
  | .doubleBinary f, [a, b] => some (f.apply a.asDouble b.asDouble)
  | .integerUnary f, [a] => some (f.apply a.asInteger)
  | .integerBinary f, [a, b] => some (f.apply a.asInteger b.asInteger)
  | _, _ => none

/-- The result of an operation on as many operands as it takes: the first error among them, or
else what it computes. -/
def value? (op : Opcode) (operands : List Value) : Option Value :=
  if operands.length = op.arity then
    match operands.find? Value.isError with
    | some e => some e
    | none => op.compute? operands
  else none

theorem belongsTo_of_value? {op : Opcode} {vs : List Value} {v : Value}
    (h : op.value? vs = some v) : v.BelongsTo op.domain := by
  simp only [value?] at h
  split at h
  · split at h
    · -- the first error among the operands
      rename_i e he
      obtain rfl : e = v := Option.some.inj h
      exact Or.inl (List.find?_some he)
    · simp only [compute?] at h
      split at h
      · obtain rfl := Option.some.inj h
        exact DoubleUnary.apply_belongsTo _ _
      · obtain rfl := Option.some.inj h
        exact DoubleBinary.apply_belongsTo _ _ _
      · obtain rfl := Option.some.inj h
        exact IntegerUnary.apply_belongsTo _ _
      · obtain rfl := Option.some.inj h
        exact IntegerBinary.apply_belongsTo _ _ _
      · cases h
  · cases h

theorem exists_value? {op : Opcode} (hp : op.isPush = false) (vs : List Value)
    (hl : vs.length = op.arity) : ∃ v, op.value? vs = some v := by
  simp only [value?, if_pos hl]
  split
  · exact ⟨_, rfl⟩
  · cases op with
    | push d => cases hp
    | doubleUnary f | integerUnary f =>
      match vs, hl with
      | [a], _ => exact ⟨_, rfl⟩
    | doubleBinary f | integerBinary f =>
      match vs, hl with
      | [a, b], _ => exact ⟨_, rfl⟩

theorem length_of_value? {op : Opcode} {vs : List Value} {v : Value} (h : op.value? vs = some v) :
    vs.length = op.arity := by
  by_cases hl : vs.length = op.arity
  · exact hl
  · rw [value?, if_neg hl] at h
    cases h

theorem value?_unary {op : Opcode} {a : Value} (f : Value → Value) (ha : op.arity = 1)
    (hf : op.compute? [a] = some (f a)) : op.value? [a] = some (Value.lift f a) := by
  have hl : [a].length = op.arity := ha.symm
  rw [value?, if_pos hl, Value.lift, hf]
  cases he : a.isError <;> simp [he]

theorem value?_binary {op : Opcode} {a b : Value} (f : Value → Value → Value) (ha : op.arity = 2)
    (hf : op.compute? [a, b] = some (f a b)) :
    op.value? [a, b] = some (Value.lift₂ f a b) := by
  have hl : [a, b].length = op.arity := ha.symm
  rw [value?, if_pos hl, Value.lift₂, hf]
  cases he : a.isError <;> cases he' : b.isError <;> simp [he, he']

end Opcode

/-! The tables of opcodes name operations of the domain they are asked for. -/

theorem Operator.unaryOpcode?_spec {op : Operator} {d : Domain} {opcode : Opcode}
    (h : op.unaryOpcode? d = some opcode) :
    opcode.isPush = false ∧ opcode.domain = d ∧ opcode.arity = 1 := by
  cases d <;> simp only [unaryOpcode?] at h <;> split at h <;> cases h <;> exact ⟨rfl, rfl, rfl⟩

theorem Operator.binaryOpcode?_spec {op : Operator} {d : Domain} {opcode : Opcode}
    (h : op.binaryOpcode? d = some opcode) :
    opcode.isPush = false ∧ opcode.domain = d ∧ opcode.arity = 2 := by
  cases d <;> simp only [binaryOpcode?] at h <;> split at h <;> cases h <;> exact ⟨rfl, rfl, rfl⟩

theorem functionOpcode?_spec {name : String} {d : Domain} {opcode : Opcode}
    (h : functionOpcode? name d = some opcode) : opcode.isPush = false ∧ opcode.domain = d := by
  have table : ∀ row ∈ functionTable d, row.2.isPush = false ∧ row.2.domain = d := by
    cases d <;> decide
  obtain ⟨before, after, hrow, -⟩ := List.lookup_eq_some_iff.1 h
  exact table (name, opcode) (by simp [hrow])

theorem Compiler.opcodeOr_eq_ok {d : Domain} {op : Operator} {opcode? : Option Opcode}
    {opcode : Opcode} : opcodeOr d op opcode? = .ok opcode ↔ opcode? = some opcode := by
  cases opcode? <;> simp [opcodeOr]

theorem Compiler.callOpcode_eq_ok {d : Domain} {name : String} {count : Nat} {opcode : Opcode} :
    callOpcode d name count = .ok opcode ↔
      functionOpcode? name d = some opcode ∧ count = opcode.arity := by
  simp only [callOpcode]
  cases h : functionOpcode? name d with
  | none => by_cases ho : (functionOpcode? name d.other).isSome <;> simp [ho]
  | some found =>
    by_cases hc : count = found.arity
    · simp only [if_pos hc, Except.ok.injEq, Option.some.injEq]
      constructor
      · rintro rfl
        exact ⟨rfl, hc⟩
      · exact And.left
    · simp only [if_neg hc, reduceCtorEq, Option.some.injEq, false_iff]
      rintro ⟨rfl, hc'⟩
      exact hc hc'

namespace Tree

mutual

/-- The value of a tree in a domain, if the domain has all its operations. -/
def value? (d : Domain) : Tree → Option Value
  | .number v | .constant _ v => some (v.coerce d)
  | .before op a | .after op a => do
    let opcode ← op.unaryOpcode? d
    let v ← value? d a
    opcode.value? [v]
  | .binary op l r => do
    let opcode ← op.binaryOpcode? d
    let v ← value? d l
    let w ← value? d r
    opcode.value? [v, w]
  | .call name args => do
    let opcode ← functionOpcode? name d
    let vs ← valuesOf? d args
    opcode.value? vs
  | .paren a => value? d a

def valuesOf? (d : Domain) : List Tree → Option (List Value)
  | [] => some []
  | a :: rest => do
    let v ← value? d a
    let vs ← valuesOf? d rest
    return v :: vs

end

theorem belongsTo_of_value? {d : Domain} {t : Tree} {v : Value} (h : t.value? d = some v) :
    v.BelongsTo d := by
  induction t generalizing v with
  | number u | constant name u =>
    obtain rfl := Option.some.inj h
    exact Value.belongsTo_coerce u d
  | before op a _ | after op a _ =>
    simp only [value?, Option.bind_eq_bind, Option.bind_eq_some_iff] at h
    obtain ⟨opcode, ho, u, -, hv⟩ := h
    obtain ⟨-, rfl, -⟩ := Operator.unaryOpcode?_spec ho
    exact Opcode.belongsTo_of_value? hv
  | binary op l r _ _ =>
    simp only [value?, Option.bind_eq_bind, Option.bind_eq_some_iff] at h
    obtain ⟨opcode, ho, u, -, w, -, hv⟩ := h
    obtain ⟨-, rfl, -⟩ := Operator.binaryOpcode?_spec ho
    exact Opcode.belongsTo_of_value? hv
  | call name args _ =>
    simp only [value?, Option.bind_eq_bind, Option.bind_eq_some_iff] at h
    obtain ⟨opcode, ho, vs, -, hv⟩ := h
    obtain ⟨-, rfl⟩ := functionOpcode?_spec ho
    exact Opcode.belongsTo_of_value? hv
  | paren a ih => exact ih h

end Tree

namespace Machine

/-- Does the code put exactly these values onto the stack, the last one on top, whatever lies
below and whatever code follows? -/
def Pushes (code : List Instruction) (vs : List Value) : Prop :=
  ∀ rest stack, run (code ++ rest) stack = run rest (vs.reverse ++ stack)

theorem Pushes.nil : Pushes [] [] := fun _ _ => rfl

theorem Pushes.append {code code' : List Instruction} {vs ws : List Value}
    (h : Pushes code vs) (h' : Pushes code' ws) : Pushes (code ++ code') (vs ++ ws) := by
  intro rest stack
  rw [List.append_assoc, h, h', List.reverse_append, List.append_assoc]

theorem pushes_pushIn (d : Domain) (v : Value) : Pushes [.pushIn d v] [v] := fun _ _ => rfl

/-- An operation takes the values that its operands' code has put onto the stack. -/
theorem step_operation {op : Opcode} {vs : List Value} {v : Value} (hp : op.isPush = false)
    (h : op.value? vs = some v) (stack : List Value) :
    step ⟨op, none⟩ (vs.reverse ++ stack) = .ok (v :: stack) := by
  have hl := Opcode.length_of_value? h
  cases op with
  | push d => cases hp
  | doubleUnary f =>
    match vs, hl with
    | [a], _ =>
      rw [Opcode.value?_unary (fun a => f.apply a.asDouble) rfl rfl] at h
      obtain rfl := Option.some.inj h
      rfl
  | integerUnary f =>
    match vs, hl with
    | [a], _ =>
      rw [Opcode.value?_unary (fun a => f.apply a.asInteger) rfl rfl] at h
      obtain rfl := Option.some.inj h
      rfl
  | doubleBinary f =>
    match vs, hl with
    | [a, b], _ =>
      rw [Opcode.value?_binary (fun a b => f.apply a.asDouble b.asDouble) rfl rfl] at h
      obtain rfl := Option.some.inj h
      rfl
  | integerBinary f =>
    match vs, hl with
    | [a, b], _ =>
      rw [Opcode.value?_binary (fun a b => f.apply a.asInteger b.asInteger) rfl rfl] at h
      obtain rfl := Option.some.inj h
      rfl

theorem Pushes.operation {code : List Instruction} {op : Opcode} {vs : List Value} {v : Value}
    (h : Pushes code vs) (hp : op.isPush = false) (hv : op.value? vs = some v) :
    Pushes (code ++ [⟨op, none⟩]) [v] := by
  intro rest stack
  rw [List.append_assoc, h, List.singleton_append, run, step_operation hp hv]
  rfl

end Machine

namespace Compiler

open Machine

variable {d : Domain}

/-- What is proved of the code of a tree: it computes the value, and has one instruction of the
domain for each node that is not a parenthesis. -/
structure Correct (d : Domain) (t : Tree) (code : List Instruction) : Prop where
  pushes : ∃ v, t.value? d = some v ∧ Pushes code [v]
  domain : ∀ i ∈ code, i.opcode.domain = d
  length : code.length + t.parenCount = t.nodeCount

structure CorrectForAll (d : Domain) (args : List Tree) (code : List Instruction) : Prop where
  pushes : ∃ vs, Tree.valuesOf? d args = some vs ∧ vs.length = args.length ∧ Pushes code vs
  domain : ∀ i ∈ code, i.opcode.domain = d
  length : code.length + Tree.parenCountOfAll args = Tree.nodeCountOfAll args

theorem correctForAll_of_forall {args : List Tree} {code : List Instruction}
    (ih : ∀ a ∈ args, ∀ code, Compiler.code d a = .ok code → Correct d a code)
    (h : codeOfAll d args = .ok code) : CorrectForAll d args code := by
  induction args generalizing code with
  | nil =>
    simp only [codeOfAll, Except.ok.injEq] at h
    subst h
    exact ⟨⟨[], rfl, rfl, Pushes.nil⟩, by simp, rfl⟩
  | cons a args iht =>
    simp only [codeOfAll, bind_eq_ok, pure_eq_ok] at h
    obtain ⟨first, hf, others, ho, rfl⟩ := h
    obtain ⟨⟨v, hv, hp⟩, hd, hl⟩ := ih a (by simp) first hf
    obtain ⟨⟨vs, hvs, hlen, hps⟩, hds, hls⟩ :=
      iht (fun a ha => ih a (List.mem_cons_of_mem _ ha)) ho
    refine ⟨⟨v :: vs, by simp [Tree.valuesOf?, hv, hvs], by simp [hlen], hp.append hps⟩, ?_, ?_⟩
    · intro i hi
      exact (List.mem_append.1 hi).elim (hd i) (hds i)
    · simp only [List.length_append, Tree.parenCountOfAll, Tree.nodeCountOfAll]
      omega

theorem domain_operation {code : List Instruction} {op : Opcode} (hop : op.domain = d)
    (h : ∀ i ∈ code, i.opcode.domain = d) : ∀ i ∈ code ++ [⟨op, none⟩], i.opcode.domain = d := by
  intro i hi
  rcases List.mem_append.1 hi with hi | hi
  · exact h i hi
  · rw [List.mem_singleton.1 hi, hop]

theorem correct_unary {t a : Tree} {op : Opcode} {code : List Instruction}
    (hop : op.isPush = false ∧ op.domain = d ∧ op.arity = 1)
    (hvalue : ∀ v, a.value? d = some v → t.value? d = op.value? [v])
    (hparens : t.parenCount = a.parenCount) (hnodes : t.nodeCount = 1 + a.nodeCount)
    (h : Correct d a code) : Correct d t (code ++ [⟨op, none⟩]) := by
  obtain ⟨hpush, hdom, harity⟩ := hop
  obtain ⟨⟨v, hv, hp⟩, hd, hl⟩ := h
  obtain ⟨w, hw⟩ := Opcode.exists_value? hpush [v] harity.symm
  refine ⟨⟨w, (hvalue v hv).trans hw, hp.operation hpush hw⟩, domain_operation hdom hd, ?_⟩
  simp only [List.length_append, List.length_singleton]
  omega

theorem code_correct {t : Tree} {code : List Instruction} (h : Compiler.code d t = .ok code) :
    Correct d t code := by
  induction t generalizing code with
  | number v | constant name v =>
    simp only [Compiler.code, Except.ok.injEq] at h
    subst h
    refine ⟨⟨v.coerce d, rfl, pushes_pushIn d _⟩, ?_, rfl⟩
    intro i hi
    rw [List.mem_singleton.1 hi]
    rfl
  | before op a ih | after op a ih =>
    simp only [Compiler.code, bind_eq_ok, pure_eq_ok, opcodeOr_eq_ok] at h
    obtain ⟨opcode, ho, operand, ha, rfl⟩ := h
    refine correct_unary (a := a) (Operator.unaryOpcode?_spec ho) ?_ rfl rfl (ih ha)
    intro v hv
    simp [Tree.value?, ho, hv]
  | binary op l r ihl ihr =>
    simp only [Compiler.code, bind_eq_ok, pure_eq_ok, opcodeOr_eq_ok] at h
    obtain ⟨opcode, ho, left, hl, right, hr, rfl⟩ := h
    obtain ⟨hpush, hdom, harity⟩ := Operator.binaryOpcode?_spec ho
    obtain ⟨⟨v, hv, hpv⟩, hdv, hlv⟩ := ihl hl
    obtain ⟨⟨w, hw, hpw⟩, hdw, hlw⟩ := ihr hr
    obtain ⟨u, hu⟩ := Opcode.exists_value? hpush [v, w] harity.symm
    refine ⟨⟨u, by simp [Tree.value?, ho, hv, hw, hu], (hpv.append hpw).operation hpush hu⟩,
      domain_operation hdom ?_, ?_⟩
    · intro i hi
      exact (List.mem_append.1 hi).elim (hdv i) (hdw i)
    · simp only [List.length_append, List.length_singleton, Tree.parenCount, Tree.nodeCount]
      omega
  | call name args ih =>
    simp only [Compiler.code, bind_eq_ok, pure_eq_ok, callOpcode_eq_ok] at h
    obtain ⟨opcode, ⟨ho, hcount⟩, operands, ha, rfl⟩ := h
    obtain ⟨hpush, hdom⟩ := functionOpcode?_spec ho
    obtain ⟨⟨vs, hvs, hlen, hp⟩, hd, hl⟩ := correctForAll_of_forall (fun a ha _ => ih a ha) ha
    obtain ⟨u, hu⟩ := Opcode.exists_value? hpush vs (hlen.trans hcount)
    refine ⟨⟨u, by simp [Tree.value?, ho, hvs, hu], hp.operation hpush hu⟩,
      domain_operation hdom hd, ?_⟩
    simp only [List.length_append, List.length_singleton, Tree.parenCount, Tree.nodeCount]
    omega
  | paren a ih =>
    obtain ⟨hp, hd, hl⟩ := ih h
    refine ⟨hp, hd, ?_⟩
    simp only [Tree.parenCount, Tree.nodeCount]
    omega

/-- The code of a tree, run on a machine in any state, leaves the value of the tree. -/
theorem execute_code {t : Tree} {code : List Instruction} (h : Compiler.code d t = .ok code) :
    ∃ v, t.value? d = some v ∧ ∀ (m : Machine) (name : String),
      (m.execute ⟨name, d, code⟩).2 = .ok v := by
  obtain ⟨⟨v, hv, hp⟩, -, -⟩ := code_correct h
  have hrun : run code [] = ([v], none) := by
    have hrest := hp [] []
    rwa [List.append_nil] at hrest
  refine ⟨v, hv, ?_⟩
  intro m name
  simp only [Machine.execute, hrun]

/-- The program of a tree ends with the value of the tree, whatever the machine has run before. -/
theorem execute_compile {name : String} {t : Tree} {p : Program}
    (h : compile name d t = .ok p) (m : Machine) :
    ∃ v, (m.execute p).2 = .ok v ∧ t.value? d = some v ∧ v.BelongsTo d ∧
      (∀ i ∈ p.code, i.opcode.domain = d) ∧ p.code.length + t.parenCount = t.nodeCount := by
  obtain ⟨code, hc, rfl⟩ := map_eq_ok.1 h
  obtain ⟨v, hv, hm⟩ := execute_code hc
  obtain ⟨-, hd, hl⟩ := code_correct hc
  exact ⟨v, hm m name, hv, Tree.belongsTo_of_value? hv, hd, hl⟩

theorem execute_compile_quotient :
    ∃ p v, compile "<calc>" .integer
        (.binary .div (.number (.integer 7)) (.paren (.number (.integer 0)))) = .ok p ∧
      (Machine.execute ⟨[.integer 1]⟩ p).2 = .ok v ∧ v = .error .divideByZero ∧
      p.code.length = 3 := by
  have h : compile "<calc>" .integer
      (.binary .div (.number (.integer 7)) (.paren (.number (.integer 0)))) =
      .ok ⟨"<calc>", .integer, [.pushIn .integer (.integer 7), .pushIn .integer (.integer 0),
        ⟨.integerBinary .div, none⟩]⟩ := rfl
  obtain ⟨v, hv, ht, -⟩ := execute_compile h ⟨[.integer 1]⟩
  have hdiv : some (Value.error .divideByZero) = some v := ht
  exact ⟨_, v, h, hv, (Option.some.inj hdiv).symm, rfl⟩

end Compiler
end DeskCalculator
