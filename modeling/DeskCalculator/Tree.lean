import DeskCalculator.Operator
import DeskCalculator.Display
/-!
Expression trees, their measures and their printed form with the fewest parentheses.
-/
namespace DeskCalculator

inductive Tree where
  | number (value : Value)
  | constant (name : String) (value : Value)
  | before (op : Operator) (operand : Tree)
  | after (op : Operator) (operand : Tree)
  | binary (op : Operator) (left right : Tree)
  | call (name : String) (args : List Tree)
  | paren (inner : Tree)

namespace Tree

instance : Inhabited Tree := ⟨number default⟩

/-- The precedence that decides about parentheses; a negative literal counts as a function. -/
def precedence : Tree → Precedence
  | number v => if v.isNegative then .function else .value
  | constant .. | paren _ => .value
  | before .. | after .. | call .. => .function
  | binary op .. => op.precedence

def literal? : Tree → Option Value
  | number v | constant _ v => some v
  | _ => none

mutual

/-- The number of nodes on the longest way down. -/
def depth : Tree → Nat
  | number _ | constant .. => 1
  | before _ a | after _ a | paren a => 1 + a.depth
  | binary _ l r => 1 + max l.depth r.depth
  | call _ args => 1 + depthOfAll args

def depthOfAll : List Tree → Nat
  | [] => 0
  | a :: rest => max a.depth (depthOfAll rest)

end

mutual

def nodeCount : Tree → Nat
  | number _ | constant .. => 1
  | before _ a | after _ a | paren a => 1 + a.nodeCount
  | binary _ l r => 1 + l.nodeCount + r.nodeCount
  | call _ args => 1 + nodeCountOfAll args

def nodeCountOfAll : List Tree → Nat
  | [] => 0
  | a :: rest => a.nodeCount + nodeCountOfAll rest

end

def wrapsLeft (op : Operator) (left : Tree) : Bool :=
  left.precedence < op.precedence ||
    (left.precedence == op.precedence && op.associativity != .left)

def wrapsRight (op : Operator) (right : Tree) : Bool :=
  right.precedence < op.precedence ||
    (right.precedence == op.precedence && op.associativity != .right)

def parenthesizeIf (wrap : Bool) (cs : List Char) : List Char :=
  if wrap then '(' :: cs ++ [')'] else cs

mutual

def chars : Tree → List Char
  | number v => Literal.chars v
  | constant name _ => name.toList
  | before op a => op.symbol.toList ++ parenthesizeIf (a.precedence < .function) a.chars
  | after op a => parenthesizeIf (a.precedence < .value) a.chars ++ op.symbol.toList
  | binary op l r =>
    parenthesizeIf (wrapsLeft op l) l.chars ++ ' ' :: op.symbol.toList ++ ' ' ::
      parenthesizeIf (wrapsRight op r) r.chars
  | call name args => name.toList ++ '(' :: charsOfAll args ++ [')']
  | paren a => '(' :: a.chars ++ [')']

/-- Arguments are separated by a comma and a blank. -/
def charsOfAll : List Tree → List Char
  | [] => []
  | [a] => a.chars
  | a :: rest => a.chars ++ ',' :: ' ' :: charsOfAll rest

end

def text (t : Tree) : String := String.ofList t.chars

end Tree
end DeskCalculator
