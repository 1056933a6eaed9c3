import DeskCalculator.Tree
/-!
Trees built from operators and their operands.
-/
namespace DeskCalculator

inductive BuildError where
  | insufficientOperands (op : String) (needed found : Nat)
  | unknownOperator (name : String)
  | operatorUnavailable (op : String) (context : String)
  | unbalancedParenthesis
  | incompleteExpression
  | emptyExpression
deriving DecidableEq, Repr

def BuildError.message : BuildError → String
  | insufficientOperands op needed found => s!"'{op}' needs {needed} operand(s), found {found}"
  | unknownOperator name => s!"unknown operator: {name}"
  | operatorUnavailable op context => s!"'{op}' is not available in {context}"
  | unbalancedParenthesis => "unbalanced parenthesis"
  | incompleteExpression => "incomplete expression"
  | emptyExpression => "empty expression"

def Operator.ofName (text : String) : Except BuildError Operator :=
  match Operator.ofName? text with
  | some op => .ok op
  | none => .error (.unknownOperator text)

namespace Tree

/-- An integer that a rule brings in, in the domain of the mode. -/
def integerLiteral (mode : Mode) (n : Int64) : Tree :=
  number ((Value.integer n).coerce mode.domain)

def constantLiteral (mode : Mode) (op : Operator) (x : Float) : Tree :=
  constant op.symbol ((Value.double x).coerce mode.domain)

def build (op : Operator) (operands : List Tree) (mode : Mode) (angle : AngleUnit) :
    Except BuildError Tree :=
  match op.rule, operands with
  | .binary, [a, b] => .ok (binary op a b)
  | .swapped target, [a, b] => .ok (binary target b a)
  | .binaryFunction name, [a, b] => .ok (call name [a, b])
  | .before, [a] => .ok (before op a)
  | .after, [a] => .ok (after op a)
  | .function name, [a] => .ok (call name [a])
  | .angleFunction radians degrees, [a] =>
    .ok (call (if angle = .radians then radians else degrees) [a])
  | .raiseTo n, [a] => .ok (binary .pow a (integerLiteral mode n))
  | .powerOf b, [a] => .ok (binary .pow (integerLiteral mode b) a)
  | .reciprocal, [a] => .ok (binary .div (integerLiteral mode 1) a)
  | .constant x, [] => .ok (constantLiteral mode op x)
  | .group, [] => .error (.unknownOperator op.name)
  | _, _ => .error (.insufficientOperands op.symbol op.arity operands.length)

end Tree
end DeskCalculator
