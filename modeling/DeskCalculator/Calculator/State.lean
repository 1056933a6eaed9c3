import DeskCalculator.Compiler
import DeskCalculator.Entry
import DeskCalculator.Expression.Context
import DeskCalculator.Expression.Reading
import DeskCalculator.Machine
import DeskCalculator.Random
/-!
The state of the calculator and what can be seen of it: the display, the stack, and the value of
a tree.
-/
namespace DeskCalculator

/-- Why a tree has no value, or a text no tree. -/
inductive EvaluationError where
  | read (e : ReadError)
  | compile (e : CompileError)
  | machine (e : MachineError)
deriving DecidableEq, Repr

namespace EvaluationError

def message : EvaluationError → String
  | read e => e.message
  | compile e => s!"compile error: {e.message}"
  | machine e => s!"runtime error: {e.message}"

/-- The message followed by its causes; a message that names its cause is followed by it again. -/
def chain (e : EvaluationError) : String :=
  match e with
  | read _ => e.message
  | compile cause => s!"{e.message}: {cause.message}"
  | machine cause => s!"{e.message}: {cause.message}"

end EvaluationError

structure Evaluation where
  value : Value
  tree : Tree

inductive Phase where
  | idle
  | typing
  | resultShown
deriving DecidableEq, Repr

structure Calculator where
  settings : Settings
  context : Context
  entry : Entry
  phase : Phase := .idle
  /-- What is shown while nothing is typed. -/
  display : Value
  memory : Float := 0
  last : Option Evaluation := none
  /-- Does the next operand take the place of the copy that Enter made? -/
  replacesTop : Bool := false
  random : Random := ⟨0⟩

namespace Settings

def freshEntry (s : Settings) : Entry :=
  { base := s.effectiveBase, integral := s.domain = .integer }

def zero (s : Settings) : Value := Value.zero s.domain

end Settings

namespace Calculator

def ofSettings (s : Settings) (random : Random) : Calculator :=
  { settings := s, context := .ofSettings s, entry := s.freshEntry, display := s.zero, random }

def domain (c : Calculator) : Domain := c.settings.domain

def base (c : Calculator) : Base := c.settings.effectiveBase

def isTyping (c : Calculator) : Bool := c.phase = .typing

def programName : String := "<calc>"

def compile (c : Calculator) (t : Tree) : Except EvaluationError Program :=
  match Compiler.compile programName c.domain t with
  | .ok p => .ok p
  | .error e => .error (.compile e)

def evaluate (c : Calculator) (t : Tree) : Except EvaluationError Value := do
  let p ← c.compile t
  match p.result with
  | .ok v => .ok v
  | .error e => .error (.machine e)

def valueOf (c : Calculator) (t : Tree) : Value :=
  match c.evaluate t with
  | .ok v => v
  | .error _ => .error .unknown

/-- The value shown, also of a number still being typed. -/
def displayValue (c : Calculator) : Value := if c.isTyping then c.entry.value else c.display

def displayChars (c : Calculator) : List Char :=
  if c.isTyping then c.entry.chars c.settings.separators
  else Display.value c.display c.base c.settings.separators none

def displayText (c : Calculator) : String := String.ofList c.displayChars

/-- The operands that stay when the typed number becomes one. -/
def keptNodes (c : Calculator) : List Tree :=
  if c.replacesTop then c.context.nodes.tail else c.context.nodes

/-- The values on the stack, the last one first; a number being typed counts as the last. -/
def stackValues (c : Calculator) : List Value :=
  if c.isTyping then c.entry.value :: c.keptNodes.map c.valueOf
  else c.context.nodes.map c.valueOf

/-- Shows the last operand, or zero if there is none. -/
def refreshDisplay (c : Calculator) : Calculator :=
  { c with display := c.context.top?.elim c.settings.zero c.valueOf }

/-- Gives up the copy that Enter made, if the next operand replaces it. -/
def dropCopy (c : Calculator) : Calculator :=
  { c with context := { c.context with nodes := c.keptNodes }, replacesTop := false }

def commit (c : Calculator) : Calculator :=
  let v := c.entry.value
  let c := c.dropCopy
  { c with
    context := c.context.pushOperand (.number v), entry := c.entry.clear, phase := .idle }

def commitTyped (c : Calculator) : Calculator := if c.isTyping then c.commit else c

/-- Takes back what a step that was refused in the end has done to the expression and to the number
being typed. -/
def restore (c saved : Calculator) : Calculator :=
  { c with
    context := saved.context, entry := saved.entry, phase := saved.phase,
    replacesTop := saved.replacesTop }

/-- Makes a value an operand; a number being typed is given up. -/
def pushValue (c : Calculator) (v : Value) : Calculator :=
  let entry := if c.isTyping then c.entry.clear else c.entry
  let c := c.dropCopy
  { c with context := c.context.pushOperand (.number v), entry, phase := .idle, display := v }

def publish (c : Calculator) (v : Value) (t : Tree) : Calculator × Evaluation :=
  let e : Evaluation := ⟨v, t⟩
  ({ c with display := v, phase := .resultShown, replacesTop := false, last := some e }, e)

end Calculator
end DeskCalculator
