import DeskCalculator.Program
import DeskCalculator.Arithmetic.Double
import DeskCalculator.Arithmetic.Integer
/-!
The stack machine. Every operation takes its operands from the stack, turns the first error among
them into its result, and pushes exactly one value.
-/
namespace DeskCalculator

inductive MachineError where
  | stackUnderflow
  | unbalancedStack (depth : Nat)
  | missingOperand (name : String)
deriving DecidableEq, Repr

def MachineError.message : MachineError → String
  | stackUnderflow => "Stack underflow"
  | unbalancedStack depth => s!"Unbalanced stack: {depth} value(s) left after execution"
  | missingOperand name => s!"{name} instruction has no operand"

namespace Value

/-- An operation on one value that hands an error on. -/
def lift (f : Value → Value) (a : Value) : Value := if a.isError then a else f a

/-- An operation on two values that hands on the first error. -/
def lift₂ (f : Value → Value → Value) (a b : Value) : Value :=
  if a.isError then a else if b.isError then b else f a b

end Value

def DoubleUnary.onValue (f : DoubleUnary) : Value → Value :=
  Value.lift fun a => f.apply a.asDouble

def DoubleBinary.onValues (f : DoubleBinary) : Value → Value → Value :=
  Value.lift₂ fun a b => f.apply a.asDouble b.asDouble

def IntegerUnary.onValue (f : IntegerUnary) : Value → Value :=
  Value.lift fun a => f.apply a.asInteger

def IntegerBinary.onValues (f : IntegerBinary) : Value → Value → Value :=
  Value.lift₂ fun a b => f.apply a.asInteger b.asInteger

namespace Machine

def applyUnary (f : Value → Value) : List Value → Except MachineError (List Value)
  | a :: stack => .ok (f a :: stack)
  | [] => .error .stackUnderflow

/-- Replaces the top two values; the lower one is the first operand. -/
def applyBinary (f : Value → Value → Value) : List Value → Except MachineError (List Value)
  | b :: a :: stack => .ok (f a b :: stack)
  | _ => .error .stackUnderflow

/-- One instruction on the stack, top first. -/
def step (i : Instruction) (stack : List Value) : Except MachineError (List Value) :=
  match i.opcode with
  | .push _ =>
    match i.operand with
    | some v => .ok (v :: stack)
    | none => .error (.missingOperand i.opcode.name)
  | .doubleUnary f => applyUnary f.onValue stack
  | .doubleBinary f => applyBinary f.onValues stack
  | .integerUnary f => applyUnary f.onValue stack
  | .integerBinary f => applyBinary f.onValues stack

/-- Runs the code to its end or to the first instruction that fails; the stack is left as it was
before that one. -/
def run : List Instruction → List Value → List Value × Option MachineError
  | [], stack => (stack, none)
  | i :: code, stack =>
    match step i stack with
    | .ok next => run code next
    | .error e => (stack, some e)

end Machine

/-- What a machine keeps between two programs. -/
structure Machine where
  stack : List Value := []
deriving DecidableEq

/-- Clears the stack and runs a program, which must leave a single value. -/
def Machine.execute (_ : Machine) (p : Program) : Machine × Except MachineError Value :=
  match Machine.run p.code [] with
  | (stack, some e) => (⟨stack⟩, .error e)
  | ([v], none) => (⟨[]⟩, .ok v)
  | (stack, none) => (⟨[]⟩, .error (.unbalancedStack stack.length))

def Program.result (p : Program) : Except MachineError Value := (({} : Machine).execute p).2

end DeskCalculator
