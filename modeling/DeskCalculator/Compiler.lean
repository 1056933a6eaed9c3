import DeskCalculator.Program
import DeskCalculator.Tree
/-!
Code for expression trees: operands first, from left to right, then the operation, all in one
domain.
-/
namespace DeskCalculator

inductive CompileError where
  | unknownFunction (name : String)
  | arityMismatch (name : String) (expected found : Nat)
  | unsupportedOperator (op : String) (domain : Domain)
deriving DecidableEq, Repr

def CompileError.message : CompileError → String
  | unknownFunction name => s!"Unknown function: {name}"
  | arityMismatch name expected found => s!"{name} expects {expected} argument(s), got {found}"
  | unsupportedOperator op domain => s!"'{op}' is not supported in the {domain.name} domain"

def Operator.unaryOpcode? (op : Operator) : Domain → Option Opcode
  | .double =>
    match op with
    | .negate => some (.doubleUnary .neg)
    | .percent => some (.doubleUnary .percent)
    | .factorial => some (.doubleUnary .fact)
    | _ => none
  | .integer =>
    match op with
    | .negate => some (.integerUnary .neg)
    | .bitNot => some (.integerUnary .not)
    | _ => none

def Operator.binaryOpcode? (op : Operator) : Domain → Option Opcode
  | .double =>
    match op with
    | .add => some (.doubleBinary .add)
    | .sub => some (.doubleBinary .sub)
    | .mul => some (.doubleBinary .mul)
    | .div => some (.doubleBinary .div)
    | .pow => some (.doubleBinary .pow)
    | _ => none
  | .integer =>
    match op with
    | .add => some (.integerBinary .add)
    | .sub => some (.integerBinary .sub)
    | .mul => some (.integerBinary .mul)
    | .div => some (.integerBinary .div)
    | .pow => some (.integerBinary .pow)
    | .bitAnd => some (.integerBinary .and)
    | .bitOr => some (.integerBinary .or)
    | .bitXor => some (.integerBinary .xor)
    | .shiftLeft => some (.integerBinary .shiftLeft)
    | .shiftRight => some (.integerBinary .shiftRight)
    | _ => none

def functionTable : Domain → List (String × Opcode)
  | .double =>
    [("sqrt", .doubleUnary .sqrt), ("cbrt", .doubleUnary .cbrt), ("exp", .doubleUnary .exp),
      ("ln", .doubleUnary .ln), ("log10", .doubleUnary .log10), ("log2", .doubleUnary .log2),
      ("sin", .doubleUnary .sin), ("cos", .doubleUnary .cos), ("tan", .doubleUnary .tan),
      ("asin", .doubleUnary .asin), ("acos", .doubleUnary .acos), ("atan", .doubleUnary .atan),
      ("sind", .doubleUnary .sind), ("cosd", .doubleUnary .cosd), ("tand", .doubleUnary .tand),
      ("asind", .doubleUnary .asind), ("acosd", .doubleUnary .acosd),
      ("atand", .doubleUnary .atand), ("sinh", .doubleUnary .sinh), ("cosh", .doubleUnary .cosh),
      ("tanh", .doubleUnary .tanh), ("asinh", .doubleUnary .asinh),
      ("acosh", .doubleUnary .acosh), ("atanh", .doubleUnary .atanh),
      ("yroot", .doubleBinary .yroot), ("logy", .doubleBinary .logy)]
  | .integer =>
    [("rol", .integerUnary .rotateLeft), ("ror", .integerUnary .rotateRight),
      ("flipb", .integerUnary .flipBytes), ("flipw", .integerUnary .flipWords)]

def functionOpcode? (name : String) (domain : Domain) : Option Opcode :=
  (functionTable domain).lookup name

namespace Compiler

/-- The opcode of a call, if the function exists in the domain and takes that many arguments. -/
def callOpcode (domain : Domain) (name : String) (count : Nat) : Except CompileError Opcode :=
  match functionOpcode? name domain with
  | some opcode =>
    if count = opcode.arity then .ok opcode
    else .error (.arityMismatch name opcode.arity count)
  | none =>
    if (functionOpcode? name domain.other).isSome then .error (.unsupportedOperator name domain)
    else .error (.unknownFunction name)

def opcodeOr (domain : Domain) (op : Operator) : Option Opcode → Except CompileError Opcode
  | some opcode => .ok opcode
  | none => .error (.unsupportedOperator op.symbol domain)

mutual

def code (domain : Domain) : Tree → Except CompileError (List Instruction)
  | .number v | .constant _ v => .ok [.pushIn domain (v.coerce domain)]
  | .before op a | .after op a => do
    let opcode ← opcodeOr domain op (op.unaryOpcode? domain)
    let operand ← code domain a
    return operand ++ [⟨opcode, none⟩]
  | .binary op l r => do
    let opcode ← opcodeOr domain op (op.binaryOpcode? domain)
    let left ← code domain l
    let right ← code domain r
    return left ++ right ++ [⟨opcode, none⟩]
  | .call name args => do
    let opcode ← callOpcode domain name args.length
    let operands ← codeOfAll domain args
    return operands ++ [⟨opcode, none⟩]
  | .paren a => code domain a

def codeOfAll (domain : Domain) : List Tree → Except CompileError (List Instruction)
  | [] => .ok []
  | a :: rest => do
    let first ← code domain a
    let others ← codeOfAll domain rest
    return first ++ others

end

def compile (name : String) (domain : Domain) (t : Tree) : Except CompileError Program :=
  (code domain t).map fun instructions => ⟨name, domain, instructions⟩

end Compiler
end DeskCalculator
