import DeskCalculator.Keystroke
import DeskCalculator.Tape
import DeskCalculator.Text.Blank
/-!
A calculator with a paper tape, driven by scripts of keystrokes or by written expressions.
-/
namespace DeskCalculator

abbrev Session := Observed Tape

inductive SessionError where
  | unknownKey (e : UnknownKey)
  | evaluation (source : String) (e : EvaluationError)
  | listing (e : EvaluationError)
deriving DecidableEq, Repr

def SessionError.message : SessionError → String
  | unknownKey e => e.message
  | evaluation source e => s!"cannot evaluate '{source}': {e.chain}"
  | listing e => e.chain

/-- What the calculator shows; the stack only in reverse Polish entry, the last value first. -/
structure Report where
  display : String
  value : Value
  stack : List String
  lines : List TapeLine

namespace Session

def ofSettings (s : Settings) (random : Random) : Session :=
  { calculator := .ofSettings s random, listeners := [Listener.recorder],
    state := { base := s.effectiveBase, separators := s.separators } }

/-- Lets the tape write in the base in use. -/
def followBase (s : Session) : Session := s.mapState (·.setBase s.calculator.base)

def pressAll (s : Session) : List Key → Session × List Evaluation
  | [] => (s, [])
  | k :: ks =>
    let (s, e?) := s.followBase.press k
    let (s, es) := pressAll s ks
    (s, e?.toList ++ es)

/-- Runs tokens one after the other, each in the base then in use. Those before an unknown one
stay in effect. -/
def runTokens (s : Session) : List String → Session × Except UnknownKey (List Evaluation)
  | [] => (s, .ok [])
  | token :: tokens =>
    match Keystroke.read s.calculator.base token with
    | .error e => (s, .error e)
    | .ok ks =>
      let (s, es) := pressAll s ks
      let (s, result) := runTokens s tokens
      (s, result.map (es ++ ·))

def runKeys (s : Session) (script : String) : Session × Except UnknownKey (List Evaluation) :=
  runTokens s (Text.words script)

def evaluate (s : Session) (source : String) : Session × Except SessionError Evaluation :=
  let (s, result) := s.followBase.evaluateText source
  (s, result.mapError (.evaluation source))

def bytecode (s : Session) (e : Evaluation) : Except SessionError String :=
  match s.calculator.compile e.tree with
  | .ok p => .ok p.disassembly
  | .error e => .error (.listing e)

def clearTape (s : Session) : Session := s.mapState Tape.clear

def stackTexts (s : Session) : List String :=
  s.calculator.stackValues.map fun v =>
    String.ofList (Display.value v s.calculator.base s.calculator.settings.separators none)

def report (s : Session) : Report :=
  { display := s.calculator.displayText
    value := s.calculator.displayValue
    stack := if s.calculator.settings.style = .rpn then s.stackTexts else []
    lines := s.state.lines }

end Session
end DeskCalculator
