import DeskCalculator.Expression.Build
import DeskCalculator.Proofs.Compilation
/-!
Trees that have code in a domain. Main statement: `Tree.supported_build` says that an operator of a
keypad builds trees with code in the domain of the keypad.
-/
namespace DeskCalculator

namespace Tree

def Supported (d : Domain) (t : Tree) : Prop := ∃ code, Compiler.code d t = .ok code

variable {d : Domain}

@[simp] theorem supported_number (v : Value) : (number v).Supported d := ⟨_, rfl⟩

@[simp] theorem supported_constant (name : String) (v : Value) : (constant name v).Supported d :=
  ⟨_, rfl⟩

theorem Supported.before {op : Operator} {a : Tree} (hop : (op.unaryOpcode? d).isSome)
    (ha : a.Supported d) : (before op a).Supported d := by
  obtain ⟨opcode, ho⟩ := Option.isSome_iff_exists.1 hop
  obtain ⟨code, hc⟩ := ha
  exact ⟨code ++ [⟨opcode, none⟩], by simp [Compiler.code, Compiler.opcodeOr, ho, hc]⟩

theorem Supported.after {op : Operator} {a : Tree} (hop : (op.unaryOpcode? d).isSome)
    (ha : a.Supported d) : (after op a).Supported d := by
  obtain ⟨opcode, ho⟩ := Option.isSome_iff_exists.1 hop
  obtain ⟨code, hc⟩ := ha
  exact ⟨code ++ [⟨opcode, none⟩], by simp [Compiler.code, Compiler.opcodeOr, ho, hc]⟩

theorem Supported.binary {op : Operator} {l r : Tree} (hop : (op.binaryOpcode? d).isSome)
    (hl : l.Supported d) (hr : r.Supported d) : (binary op l r).Supported d := by
  obtain ⟨opcode, ho⟩ := Option.isSome_iff_exists.1 hop
  obtain ⟨left, hcl⟩ := hl
  obtain ⟨right, hcr⟩ := hr
  exact ⟨left ++ right ++ [⟨opcode, none⟩],
    by simp [Compiler.code, Compiler.opcodeOr, ho, hcl, hcr]⟩

theorem exists_codeOfAll {args : List Tree} (h : ∀ a ∈ args, a.Supported d) :
    ∃ code, Compiler.codeOfAll d args = .ok code := by
  induction args with
  | nil => exact ⟨[], rfl⟩
  | cons a args ih =>
    obtain ⟨first, hf⟩ := h a (by simp)
    obtain ⟨others, ho⟩ := ih fun b hb => h b (List.mem_cons_of_mem _ hb)
    exact ⟨first ++ others, by simp [Compiler.codeOfAll, hf, ho]⟩

theorem Supported.call {name : String} {args : List Tree} {opcode : Opcode}
    (ho : functionOpcode? name d = some opcode) (hl : args.length = opcode.arity)
    (h : ∀ a ∈ args, a.Supported d) : (call name args).Supported d := by
  obtain ⟨operands, hc⟩ := exists_codeOfAll h
  have hop : Compiler.callOpcode d name args.length = .ok opcode :=
    Compiler.callOpcode_eq_ok.2 ⟨ho, hl⟩
  exact ⟨operands ++ [⟨opcode, none⟩], by simp [Compiler.code, hop, hc]⟩

theorem Supported.paren {a : Tree} (ha : a.Supported d) : (paren a).Supported d := ha

end Tree

/-- Has the domain an operation for what the operator builds, with as many operands? -/
def Operator.hasCode (op : Operator) (d : Domain) : Bool :=
  let calls (count : Nat) (name : String) : Bool :=
    (functionOpcode? name d).any (·.arity == count)
  match op.rule with
  | .binary => (op.binaryOpcode? d).isSome
  | .swapped target => (target.binaryOpcode? d).isSome
  | .before | .after => (op.unaryOpcode? d).isSome
  | .function name => calls 1 name
  | .angleFunction radians degrees => calls 1 radians && calls 1 degrees
  | .binaryFunction name => calls 2 name
  | .raiseTo _ | .powerOf _ => (Operator.pow.binaryOpcode? d).isSome
  | .reciprocal => (Operator.div.binaryOpcode? d).isSome
  | .constant _ | .group => true

theorem Operator.hasCode_of_availableIn (op : Operator) (mode : Mode)
    (h : op.availableIn mode) : op.hasCode mode.domain := by
  revert h
  cases mode <;> cases op <;> decide

theorem functionOpcode?_of_any {name : String} {d : Domain} {count : Nat}
    (h : (functionOpcode? name d).any (·.arity == count)) :
    ∃ opcode, functionOpcode? name d = some opcode ∧ count = opcode.arity := by
  cases ho : functionOpcode? name d with
  | none => simp [ho] at h
  | some opcode =>
    simp only [ho, Option.any_some, beq_iff_eq] at h
    exact ⟨opcode, rfl, h.symm⟩

theorem Tree.supported_build {op : Operator} {operands : List Tree} {mode : Mode}
    (angle : AngleUnit) (hop : op.availableIn mode) (hg : op.rule ≠ .group)
    (hl : operands.length = op.arity) (ha : ∀ a ∈ operands, a.Supported mode.domain) :
    ∃ t, build op operands mode angle = .ok t ∧ t.Supported mode.domain := by
  have hcode := op.hasCode_of_availableIn mode hop
  rw [Operator.arity] at hl
  rw [Operator.hasCode] at hcode
  simp only [build]
  cases hrule : op.rule <;> rw [hrule] at hl hcode
  case binary =>
    match operands, hl with
    | [a, b], _ => exact ⟨_, rfl, .binary hcode (ha a (by simp)) (ha b (by simp))⟩
  case swapped target =>
    match operands, hl with
    | [a, b], _ => exact ⟨_, rfl, .binary hcode (ha b (by simp)) (ha a (by simp))⟩
  case before =>
    match operands, hl with
    | [a], _ => exact ⟨_, rfl, .before hcode (ha a (by simp))⟩
  case after =>
    match operands, hl with
    | [a], _ => exact ⟨_, rfl, .after hcode (ha a (by simp))⟩
  case function name =>
    obtain ⟨opcode, ho, harity⟩ := functionOpcode?_of_any hcode
    match operands, hl with
    | [a], _ => exact ⟨_, rfl, .call ho harity ha⟩
  case angleFunction radians degrees =>
    rw [Bool.and_eq_true] at hcode
    match operands, hl with
    | [a], _ =>
      cases angle with
      | radians =>
        obtain ⟨opcode, ho, harity⟩ := functionOpcode?_of_any hcode.1
        exact ⟨_, rfl, .call ho harity ha⟩
      | degrees =>
        obtain ⟨opcode, ho, harity⟩ := functionOpcode?_of_any hcode.2
        exact ⟨_, rfl, .call ho harity ha⟩
  case binaryFunction name =>
    obtain ⟨opcode, ho, harity⟩ := functionOpcode?_of_any hcode
    match operands, hl with
    | [a, b], _ => exact ⟨_, rfl, .call ho harity ha⟩
  case raiseTo n =>
    match operands, hl with
    | [a], _ => exact ⟨_, rfl, .binary hcode (ha a (by simp)) (supported_number _)⟩
  case powerOf b =>
    match operands, hl with
    | [a], _ => exact ⟨_, rfl, .binary hcode (supported_number _) (ha a (by simp))⟩
  case reciprocal =>
    match operands, hl with
    | [a], _ => exact ⟨_, rfl, .binary hcode (supported_number _) (ha a (by simp))⟩
  case constant x =>
    match operands, hl with
    | [], _ => exact ⟨_, rfl, supported_constant _ _⟩
  case group => exact absurd hrule hg

end DeskCalculator
