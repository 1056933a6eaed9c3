import DeskCalculator.Expression.Build
/-!
The expression that key presses build up. Operands lie on a stack of trees; in algebraic entry
operators and open parentheses wait beside it until what follows lets them apply. A key that is
refused changes nothing.
-/
namespace DeskCalculator

inductive Pending where
  | operator (op : Operator)
  | openParen
deriving DecidableEq, Repr

def Pending.isOperator : Pending → Bool
  | operator _ => true
  | openParen => false

structure Context where
  /-- The last one first. -/
  nodes : List Tree := []
  /-- The innermost one first. -/
  pending : List Pending := []
  mode : Mode
  angle : AngleUnit
  style : EntryStyle

namespace Context

def ofSettings (s : Settings) : Context := { mode := s.mode, angle := s.angle, style := s.style }

def top? (c : Context) : Option Tree := c.nodes.head?

def isEmpty (c : Context) : Bool := c.nodes.isEmpty && c.pending.isEmpty

def clear (c : Context) : Context := { c with nodes := [], pending := [] }

def resetTo (c : Context) (t : Tree) : Context := { c with nodes := [t], pending := [] }

def openParens (c : Context) : Nat := c.pending.countP (! ·.isOperator)

/-- Does an operand have to come next: at the start, after an operator between operands, or after
an opening parenthesis? -/
def awaitsOperand (c : Context) : Bool := c.nodes.length ≤ c.pending.countP Pending.isOperator

/-- An operand that nobody waits for is given up in algebraic entry. -/
def makeRoom (c : Context) : Context :=
  if c.style = .algebraic ∧ ¬ c.awaitsOperand then { c with nodes := c.nodes.tail } else c

def pushOperand (c : Context) (t : Tree) : Context :=
  let c := c.makeRoom
  { c with nodes := t :: c.nodes }

/-- Takes the operands of an operator from the nodes and puts its tree there. -/
def combine (mode : Mode) (angle : AngleUnit) (op : Operator) (nodes : List Tree) :
    Except BuildError (List Tree) :=
  if nodes.length < op.arity then
    .error (.insufficientOperands op.symbol op.arity nodes.length)
  else
    (Tree.build op (nodes.take op.arity).reverse mode angle).map (· :: nodes.drop op.arity)

/-- Applies the waiting operators as long as they fulfil a condition. -/
def reduceWhile (mode : Mode) (angle : AngleUnit) (p : Operator → Bool) :
    List Pending → List Tree → Except BuildError (List Pending × List Tree)
  | .operator op :: pending, nodes =>
    if p op then do
      let nodes ← combine mode angle op nodes
      reduceWhile mode angle p pending nodes
    else .ok (.operator op :: pending, nodes)
  | pending, nodes => .ok (pending, nodes)

def wrapTop : List Tree → Except BuildError (List Tree)
  | t :: nodes => .ok (.paren t :: nodes)
  | [] => .error (.insufficientOperands ")" 1 0)

/-- An operator between operands: a second one in a row takes the place of the first. -/
def applyBetween (c : Context) (op : Operator) : Except BuildError Context := do
  let pending ← if c.awaitsOperand then
      match c.pending with
      | .operator _ :: rest => .ok rest
      | _ => .error (.insufficientOperands op.symbol 2 0)
    else .ok c.pending
  let (pending, nodes) ← reduceWhile c.mode c.angle (·.bindsBefore op) pending c.nodes
  return { c with nodes, pending := .operator op :: pending }

/-- An operator that applies at once to the operands before it. -/
def applyNow (c : Context) (op : Operator) : Except BuildError Context :=
  if op.arity = 0 then (Tree.build op [] c.mode c.angle).map c.pushOperand
  else if c.style = .algebraic ∧ c.awaitsOperand then
    .error (.insufficientOperands op.symbol op.arity 0)
  else (combine c.mode c.angle op c.nodes).map fun nodes => { c with nodes }

def applyOpenParen (c : Context) : Except BuildError Context :=
  match c.style with
  | .rpn => .error (.operatorUnavailable "(" "RPN entry")
  | .algebraic =>
    let c := c.makeRoom
    .ok { c with pending := .openParen :: c.pending }

def applyCloseParen (c : Context) : Except BuildError Context :=
  match c.style with
  | .rpn => (wrapTop c.nodes).map fun nodes => { c with nodes }
  | .algebraic =>
    if c.openParens = 0 then .error .unbalancedParenthesis
    else if c.awaitsOperand then .error .incompleteExpression
    else do
      let (pending, nodes) ← reduceWhile c.mode c.angle (fun _ => true) c.pending c.nodes
      let nodes ← wrapTop nodes
      return { c with nodes, pending := pending.tail }

def apply (c : Context) (op : Operator) : Except BuildError Context :=
  if op.availableIn c.mode then
    match op with
    | .openParen => c.applyOpenParen
    | .closeParen => c.applyCloseParen
    | op => if op.arity = 2 ∧ c.style = .algebraic then c.applyBetween op else c.applyNow op
  else .error (.operatorUnavailable op.symbol s!"{c.mode.name} mode")

def closeAll (mode : Mode) (angle : AngleUnit) :
    List Pending → List Tree → Except BuildError (List Tree)
  | .operator op :: pending, nodes => do
    let nodes ← combine mode angle op nodes
    closeAll mode angle pending nodes
  | .openParen :: pending, nodes => do
    let nodes ← wrapTop nodes
    closeAll mode angle pending nodes
  | [], nodes => .ok nodes

/-- The whole expression; in reverse Polish entry the last operand. -/
def finish (c : Context) : Except BuildError Tree :=
  match c.nodes with
  | [] => .error .emptyExpression
  | t :: _ =>
    match c.style with
    | .rpn => .ok t
    | .algebraic =>
      if c.awaitsOperand then .error .incompleteExpression
      else do
        match ← closeAll c.mode c.angle c.pending c.nodes with
        | [root] => return root
        | [] => .error .emptyExpression
        | _ => .error .incompleteExpression

def duplicate? (c : Context) : Option Context :=
  match c.nodes with
  | t :: nodes => some { c with nodes := t :: t :: nodes }
  | [] => none

def swap? (c : Context) : Option Context :=
  match c.nodes with
  | x :: y :: nodes => some { c with nodes := y :: x :: nodes }
  | _ => none

def drop? (c : Context) : Option Context :=
  match c.nodes with
  | _ :: nodes => some { c with nodes }
  | [] => none

/-- Moves the last operand below all others. -/
def rollDown? (c : Context) : Option Context :=
  match c.nodes with
  | x :: y :: nodes => some { c with nodes := y :: nodes ++ [x] }
  | _ => none

/-- Moves the first operand above all others. -/
def rollUp? (c : Context) : Option Context :=
  match c.nodes with
  | x :: y :: nodes =>
    some { c with nodes := (y :: nodes).getLast (by simp) :: x :: (y :: nodes).dropLast }
  | _ => none

end Context
end DeskCalculator
