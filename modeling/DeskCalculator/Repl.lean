import DeskCalculator.Report
/-!
Lines of an interactive session: a command, or a script of keystrokes.
-/
namespace DeskCalculator

namespace Repl

def help : String := "Type keys separated by spaces, e.g. `2 + 3 * 4 =` or `5 enter 3 +`.

  digits . ee +/- bs      number entry (hex digits in hex base)
  + - * / ^ % ! ( )       operators; also names like sqrt, sin, and, shl
  = enter                 evaluate / RPN enter
  c ac                    clear entry / clear all
  swap drop rdn rup       RPN stack
  m+ m- mr mc rand        memory and random number
  basic scientific programmer   modes
  bin oct dec hex deg rad rpn algebraic   settings

  :eval <expr>   evaluate a typed-out expression
  :stack :tape :clear-tape :help :quit"

inductive Command where
  | quit
  | help
  | tape
  | clearTape
  | stack
  | evaluate (source : String)
  | keys (script : String)
deriving DecidableEq, Repr

/-- The command of a line. What follows the name of a command matters only to an evaluation. -/
def Command.ofLine (line : String) : Command :=
  let (name, rest) := Text.splitAtBlank line
  match name with
  | ":quit" | ":q" => quit
  | ":help" => help
  | ":tape" => tape
  | ":clear-tape" => clearTape
  | ":stack" => stack
  | ":eval" => evaluate (rest.elim "" Text.trim)
  | _ => keys line

inductive Action where
  | print (text : String)
  | quit
deriving DecidableEq, Repr

def listings (s : Session) : List Evaluation → Except SessionError String
  | [] => .ok ""
  | e :: rest => do
    let first ← s.bytecode e
    let others ← listings s rest
    return first ++ others

/-- The report of a line holds the results of that line alone. -/
def lineReport (s : Session) (es : List Evaluation) : Report :=
  let c := s.calculator
  { s.report with lines := es.map (·.line c.base c.settings.separators) }

def printEvaluations (s : Session) (style : OutputStyle) (bytecode : Bool) (es : List Evaluation) :
    Except SessionError Action := do
  let listing ← if bytecode then listings s es else .ok ""
  return .print (listing ++ (lineReport s es).render style)

def handleLine (s : Session) (style : OutputStyle) (bytecode : Bool) (line : String) :
    Session × Except SessionError Action :=
  match Command.ofLine line with
  | .quit => (s, .ok .quit)
  | .help => (s, .ok (.print help))
  | .tape => (s, .ok (.print ("\n".intercalate (s.state.lines.map (·.text)))))
  | .clearTape => (s.clearTape, .ok (.print ""))
  | .stack => (s, .ok (.print ("\n".intercalate s.stackTexts)))
  | .evaluate source =>
    let (s, result) := s.evaluate source
    (s, result.bind fun e => printEvaluations s style bytecode [e])
  | .keys script =>
    match s.runKeys script with
    | (s, .error e) => (s, .error (.unknownKey e))
    | (s, .ok es) => (s, printEvaluations s style bytecode es)

end Repl
end DeskCalculator
