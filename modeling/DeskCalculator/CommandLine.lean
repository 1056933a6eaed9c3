import DeskCalculator.Repl
import DeskCalculator.Text.Backspace
/-!
The command line: options in any order, a command with its arguments or a bare expression, and
what is printed. Options may stand before and after the command; those after it win.
-/
namespace DeskCalculator

namespace CommandLine

def programName : String := "udcalc"

def version : String := "0.1.0"

structure Options where
  mode : Option Mode := none
  base : Option Base := none
  degrees : Bool := false
  rpn : Bool := false
  separators : Bool := false
  bytecode : Bool := false
  json : Bool := false
deriving DecidableEq, Repr

namespace Options

def merge (outer inner : Options) : Options :=
  { mode := inner.mode <|> outer.mode
    base := inner.base <|> outer.base
    degrees := outer.degrees || inner.degrees
    rpn := outer.rpn || inner.rpn
    separators := outer.separators || inner.separators
    bytecode := outer.bytecode || inner.bytecode
    json := outer.json || inner.json }

def settings (o : Options) : Settings :=
  { mode := o.mode.getD .scientific
    base := o.base.getD .dec
    angle := if o.degrees then .degrees else .radians
    style := if o.rpn then .rpn else .algebraic
    separators := o.separators }

/-- Sets an option that takes a value; nothing if it is no value of it or the option is set. -/
def setValue? (o : Options) (name value : String) : Option Options :=
  match name with
  | "mode" => if o.mode.isSome then none
      else (Mode.ofName value).toOption.map fun m => { o with mode := some m }
  | "base" => if o.base.isSome then none
      else (Base.ofName value).toOption.map fun b => { o with base := some b }
  | _ => none

def setFlag? (o : Options) : String → Option Options
  | "degrees" => if o.degrees then none else some { o with degrees := true }
  | "rpn" => if o.rpn then none else some { o with rpn := true }
  | "separators" => if o.separators then none else some { o with separators := true }
  | "debug-bytecode" => if o.bytecode then none else some { o with bytecode := true }
  | "json" => if o.json then none else some { o with json := true }
  | _ => none

end Options

def valueOptions : List String := ["mode", "base"]

def flagOptions : List String := ["degrees", "rpn", "separators", "debug-bytecode", "json"]

inductive Stop where
  | help
  | version
  | usage
deriving DecidableEq, Repr

inductive Slot where
  | none
  | one
  | many
deriving DecidableEq, Repr

/-- A level: the program itself with its commands, or a command. -/
structure Level where
  isProgram : Bool
  slot : Slot
deriving DecidableEq, Repr

def commandNames : List String := ["keys", "eval", "repl", "help"]

namespace Level

def program : Level := ⟨true, .one⟩

def ofCommand (name : String) : Level :=
  ⟨false, if name = "keys" then .many else if name = "eval" then .one else .none⟩

def hasRoom (l : Level) (values : List String) : Bool :=
  match l.slot with
  | .none => false
  | .one => values.isEmpty
  | .many => true

def stopOfLetter? (l : Level) : Char → Option Stop
  | 'h' => some .help
  | 'V' => if l.isProgram then some .version else none
  | _ => none

def stopOfName? (l : Level) : String → Option Stop
  | "help" => some .help
  | "version" => if l.isProgram then some .version else none
  | _ => none

end Level

/-- What a level has taken: options, values, and the command that ended it with its arguments. -/
structure Taken where
  options : Options := {}
  values : List String := []
  command : Option (String × List String) := none

inductive Shape where
  | separator
  | long (name : String) (value : Option String)
  | short (letters : List Char)
  | plain
deriving DecidableEq, Repr

def Shape.of (arg : String) : Shape :=
  match arg.toList with
  | ['-', '-'] => separator
  | '-' :: '-' :: rest =>
    let name := rest.takeWhile (· != '=')
    let value := match rest.drop name.length with
      | [] => none
      | _ :: value => some (String.ofList value)
    long (String.ofList name) value
  | ['-'] => plain
  | '-' :: letters => short letters
  | _ => plain

/-- Takes the arguments of a level. After the separator, and after the first of many values, all
that follows is a value. -/
def take (l : Level) (onlyValues : Bool) (t : Taken) : List String → Except Stop Taken
  | [] => .ok t
  | arg :: rest =>
    let asValue : Except Stop Taken :=
      if l.hasRoom t.values then
        take l (onlyValues || l.slot = .many) { t with values := t.values ++ [arg] } rest
      else .error .usage
    if onlyValues then asValue
    else if l.isProgram ∧ arg ∈ commandNames then .ok { t with command := some (arg, rest) }
    else
      match Shape.of arg with
      | .separator => take l true t rest
      | .plain => asValue
      | .short letters =>
        if l.hasRoom t.values ∧ letters.any (l.stopOfLetter? · |>.isNone) then asValue
        else .error ((letters.head?.bind l.stopOfLetter?).getD .usage)
      | .long name value =>
        if name ∈ valueOptions then
          match value with
          | some v =>
            match t.options.setValue? name v with
            | some options => take l false { t with options } rest
            | none => .error .usage
          | none =>
            match rest with
            | [] => .error .usage
            | v :: rest =>
              match t.options.setValue? name v with
              | some options => take l false { t with options } rest
              | none => .error .usage
        else if name ∈ flagOptions then
          match value, t.options.setFlag? name with
          | none, some options => take l false { t with options } rest
          | _, _ => .error .usage
        else
          match l.stopOfName? name with
          | some stop => .error (if value.isSome then .usage else stop)
          | none => asValue

inductive Command where
  | keys (script : String)
  | evaluate (expression : String)
  | repl
  | nothing
deriving DecidableEq, Repr

/-- Help on the commands named one after the other; only the program has commands. -/
def helpStop : List String → Stop
  | [] => .help
  | [name] => if name ∈ commandNames then .help else .usage
  | _ => .usage

def parse (args : List String) : Except Stop (Options × Command) := do
  let outer ← take .program false {} args
  match outer.command with
  | none =>
    return (outer.options, match outer.values with
      | expression :: _ => .evaluate expression
      | [] => .nothing)
  | some ("help", rest) => throw (helpStop rest)
  | some (name, rest) =>
    let inner ← take (.ofCommand name) false {} rest
    let options := outer.options.merge inner.options
    match name, inner.values with
    | "repl", _ => return (options, .repl)
    | "keys", v :: vs => return (options, .keys (" ".intercalate (v :: vs)))
    | "eval", v :: _ => return (options, .evaluate v)
    | _, _ => throw .usage

def noInput : String :=
  "no input provided\n\nUsage: udcalc <COMMAND> or udcalc <EXPR>\n\n" ++
    "Try 'udcalc --help' for more information."

/-- What has been printed so far and why it ended, if it failed. -/
structure Output where
  text : String
  error : Option String := none
deriving DecidableEq, Repr

/-- The listings of evaluations up to the first that fails. -/
def printListings (s : Session) (text : String) : List Evaluation → Output
  | [] => ⟨text, none⟩
  | e :: rest =>
    match s.bytecode e with
    | .ok listing => printListings s (text ++ listing) rest
    | .error err => ⟨text, some err.message⟩

def printResults (s : Session) (o : Options) (es : List Evaluation) : Output :=
  match printListings s "" (if o.bytecode then es else []) with
  | ⟨text, none⟩ => ⟨text ++ s.report.render (.ofFlags o.json false) ++ "\n", none⟩
  | failed => failed

def runKeys (s : Session) (o : Options) (script : String) : Output :=
  match s.runKeys script with
  | (_, .error e) => ⟨"", some e.message⟩
  | (s, .ok es) => printResults s o es

def evaluate (s : Session) (o : Options) (expression : String) : Output :=
  match s.evaluate expression with
  | (_, .error e) => ⟨"", some e.message⟩
  | (s, .ok e) => printResults s o [e]

def banner (s : Session) : String :=
  let settings := s.calculator.settings
  s!"{programName} {version} ({settings.mode.name} mode, {settings.style.name} entry). " ++
    "Type :help for help."

/-- What a line of an interactive session leads to: the next session unless it ends, a text for the
output, and one for the errors. A line that backspaces leave no text of breaks the session off. -/
structure Response where
  next : Option Session
  output : Option String := none
  error : Option String := none
  brokenOff : Bool := false

def respond (o : Options) (s : Session) (line : String) : Response :=
  match (Text.applyBackspaces line).map Text.trim with
  | none => { next := none, brokenOff := true }
  | some line =>
    let style := OutputStyle.ofFlags o.json true
    if line.isEmpty then { next := some s }
    else
      match Repl.handleLine s style o.bytecode line with
      | (_, .ok .quit) => { next := none }
      | (s, .ok (.print text)) => { next := some s, output := some text }
      | (s, .error e) => { next := some s, error := some (style.errorText e.message) }

def exitCode (brokenOff : Bool) : Nat := if brokenOff then 101 else 0

def converse (o : Options) (s : Session) : List String → Nat × String
  | [] => (exitCode false, "")
  | line :: rest =>
    let r := respond o s line
    let printed := r.output.elim "" (· ++ "\n")
    match r.next with
    | some s =>
      let (code, text) := converse o s rest
      (code, printed ++ text)
    | none => (exitCode r.brokenOff, printed)

def usageText : String :=
  "Calculator with algebraic and RPN entry\n\nUsage: udcalc [OPTIONS] [EXPR] [COMMAND]\n\n" ++
    "Commands: keys, eval, repl, help\nOptions: --mode <MODE>, --base <BASE>, --degrees, --rpn, " ++
    "--separators, --debug-bytecode, --json, -h, -V\n"

/-- The exit code, the output, and the text after the word that announces an error. -/
structure Result where
  exitCode : Nat
  output : String
  error : Option String := none
deriving DecidableEq, Repr

def Result.ofOutput (out : Output) : Result :=
  ⟨if out.error.isSome then 1 else 0, out.text, out.error⟩

def Result.ofStop : Stop → Result
  | .help => ⟨0, usageText, none⟩
  | .version => ⟨0, s!"{programName} {version}\n", none⟩
  | .usage => ⟨2, "", none⟩

def runCommand (s : Session) (o : Options) : Command → Output
  | .keys script => runKeys s o script
  | .evaluate expression => evaluate s o expression
  | .repl => ⟨banner s ++ "\n", none⟩
  | .nothing => ⟨"", some noInput⟩

def run (random : Random) (args : List String) (lines : List String) : Result :=
  match parse args with
  | .error stop => .ofStop stop
  | .ok (o, command) =>
    let s := Session.ofSettings o.settings random
    let out := runCommand s o command
    if command = .repl then
      let (code, text) := converse o s lines
      ⟨code, out.text ++ text, none⟩
    else .ofOutput out

end CommandLine
end DeskCalculator
