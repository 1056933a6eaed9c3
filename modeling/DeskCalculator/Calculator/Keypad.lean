import DeskCalculator.Calculator.State
import DeskCalculator.Key
/-!
What each key does.
-/
namespace DeskCalculator

namespace Calculator

/-! Typing a number. -/

def beginTyping (c : Calculator) : Calculator :=
  if c.isTyping then c else { c with entry := c.entry.clear, phase := .typing }

/-- Types a digit, and says whether it was taken. A digit of the base starts a number even if
there is no room for it. -/
def digit (c : Calculator) (d : Nat) : Calculator × Bool :=
  if d < c.entry.base.radix then
    let c := c.beginTyping
    match c.entry.digit? d with
    | some entry => ({ c with entry }, true)
    | none => (c, false)
  else (c, false)

/-- A step of typing that only doubles know. -/
def typeDouble (c : Calculator) (f : Entry → Entry) : Calculator :=
  if c.domain = .integer then c
  else
    let c := c.beginTyping
    { c with entry := f c.entry }

def point (c : Calculator) : Calculator := c.typeDouble Entry.point

def startExponent (c : Calculator) : Calculator := c.typeDouble Entry.startExponent

def backspace (c : Calculator) : Calculator :=
  if c.isTyping then { c with entry := c.entry.backspace } else c

def clearEntry (c : Calculator) : Calculator := { c with entry := c.entry.clear }

/-! Operators and results. -/

/-- Presses an operator, and says whether it was taken; if not, the step is taken back. -/
def operator (c : Calculator) (op : Operator) : Calculator × Bool :=
  let typed := c.commitTyped
  match typed.context.apply op with
  | .ok context =>
    ({ typed with context, phase := .idle, replacesTop := false }.refreshDisplay, true)
  | .error _ => (typed.restore c, false)

/-- Changes the sign of the typed number or of a complete operand, or starts a negative number. -/
def changeSign (c : Calculator) : Calculator :=
  if c.isTyping then { c with entry := c.entry.changeSign }
  else if c.context.awaitsOperand then
    let c := c.beginTyping
    { c with entry := c.entry.changeSign }
  else (c.operator .negate).1

/-- The whole expression as a result, which takes its place in algebraic entry; reverse Polish
entry keeps the stack. The step is taken back if the expression is not complete. -/
def equals (c : Calculator) : Calculator × Option Evaluation :=
  let typed := c.commitTyped
  match typed.context.finish with
  | .error _ => (typed.restore c, none)
  | .ok root =>
    match typed.evaluate root with
    | .error _ => (typed.restore c, none)
    | .ok v =>
      let context := match c.settings.style with
        | .algebraic => typed.context.resetTo (.number v)
        | .rpn => typed.context
      let (c, e) := { typed with context }.publish v root
      (c, some e)

/-- Reads a written expression and shows its value in place of the expression in progress. -/
def evaluateText (c : Calculator) (source : String) :
    Calculator × Except EvaluationError Evaluation :=
  match Tree.read c.settings.mode c.settings.angle source with
  | .error e => (c, .error (.read e))
  | .ok t =>
    match c.evaluate t with
    | .error e => (c, .error e)
    | .ok v =>
      let c := { c with entry := c.entry.clear, context := c.context.resetTo (.number v) }
      let (c, e) := c.publish v t
      (c, .ok e)

def allClear (c : Calculator) : Calculator :=
  { c with
    context := c.context.clear, entry := c.entry.clear, phase := .idle, replacesTop := false,
    last := none, display := c.settings.zero }

/-! Settings. -/

/-- Gives up the expression in progress: under other settings it would mean something else. -/
def resetExpression (c : Calculator) : Calculator :=
  { c with
    context := .ofSettings c.settings, entry := c.settings.freshEntry, phase := .idle,
    replacesTop := false, display := c.settings.zero }

def setMode (c : Calculator) (m : Mode) : Calculator :=
  { c with settings := { c.settings with mode := m } }.resetExpression

def setAngle (c : Calculator) (u : AngleUnit) : Calculator :=
  { c with settings := { c.settings with angle := u } }.resetExpression

def setStyle (c : Calculator) (s : EntryStyle) : Calculator :=
  { c with settings := { c.settings with style := s } }.resetExpression

/-- Changes the base. The programmer keypad keeps the number shown; the others only remember the
base. -/
def setBase (c : Calculator) (b : Base) : Calculator :=
  let changed := { c with settings := { c.settings with base := b } }
  if c.settings.mode = .programmer then
    let v := c.displayValue.coerce .integer
    let reset := changed.resetExpression
    { reset with context := reset.context.resetTo (.number v), display := v, phase := .resultShown }
  else changed

/-- Separators concern the display alone. -/
def setSeparators (c : Calculator) (on : Bool) : Calculator :=
  { c with settings := { c.settings with separators := on } }

/-! The stack of reverse Polish entry. -/

/-- Rearranges the stack, and says whether that was possible; a typed number goes onto the stack
first in any case. -/
def rearrange (c : Calculator) (f : Context → Option Context) : Calculator × Bool :=
  if c.settings.style = .rpn then
    let typed := { c.commitTyped with replacesTop := false }
    match f typed.context with
    | some context => ({ typed with context }.refreshDisplay, true)
    | none => (typed.refreshDisplay, false)
  else (c, false)

def swap (c : Calculator) : Calculator × Bool := c.rearrange Context.swap?
def rollDown (c : Calculator) : Calculator × Bool := c.rearrange Context.rollDown?
def rollUp (c : Calculator) : Calculator × Bool := c.rearrange Context.rollUp?

/-- Removes the last operand; a number being typed is given up instead. -/
def drop (c : Calculator) : Calculator × Bool :=
  if c.settings.style = .rpn ∧ c.isTyping then
    ({ c with entry := c.entry.clear, phase := .idle }.refreshDisplay, true)
  else c.rearrange Context.drop?

/-- Makes the typed number an operand or repeats the last one; in algebraic entry it is the same
as the equals sign. -/
def enter (c : Calculator) : Calculator × Option Evaluation :=
  match c.settings.style with
  | .algebraic => c.equals
  | .rpn =>
    if c.isTyping then (c.commit.refreshDisplay, none)
    else
      match c.context.duplicate? with
      | some context => ({ c with context, replacesTop := true }.refreshDisplay, none)
      | none => (c.refreshDisplay, none)

/-! Memory and random numbers. -/

/-- Combines the number shown with the memory; an error is not taken. -/
def accumulate (c : Calculator) (f : Float → Float → Float) : Calculator :=
  let v := c.displayValue
  if v.isError then c
  else
    let c := if c.isTyping then c.commit.refreshDisplay else c
    { c with memory := f c.memory v.asDouble }

def memoryKey (c : Calculator) : MemoryKey → Calculator
  | .add => c.accumulate (· + ·)
  | .subtract => c.accumulate (· - ·)
  | .read => c.pushValue ((Value.double c.memory).coerce c.domain)
  | .clear => { c with memory := 0 }

/-- A number from zero up to one, or any integer on the programmer keypad. -/
def randomKey (c : Calculator) : Calculator :=
  let (word, random) := c.random.next
  let v : Value := match c.domain with
    | .double => .double (Random.unitDouble word)
    | .integer => .integer word.toInt64
  { c with random }.pushValue v

def press (c : Calculator) : Key → Calculator × Option Evaluation
  | .digit d => ((c.digit d).1, none)
  | .point => (c.point, none)
  | .startExponent => (c.startExponent, none)
  | .operator op => ((c.operator op).1, none)
  | .equals => c.equals
  | .allClear => (c.allClear, none)
  | .clearEntry => (c.clearEntry, none)
  | .changeSign => (c.changeSign, none)
  | .backspace => (c.backspace, none)
  | .mode m => (c.setMode m, none)
  | .base b => (c.setBase b, none)
  | .angle u => (c.setAngle u, none)
  | .style s => (c.setStyle s, none)
  | .memory k => (c.memoryKey k, none)
  | .enter => c.enter
  | .swap => (c.swap.1, none)
  | .drop => (c.drop.1, none)
  | .rollDown => (c.rollDown.1, none)
  | .rollUp => (c.rollUp.1, none)
  | .random => (c.randomKey, none)

end Calculator
end DeskCalculator
