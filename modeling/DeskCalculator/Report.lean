import DeskCalculator.Json.Values
import DeskCalculator.Session
/-!
Reports as text: plain, coloured, or as JSON.
-/
namespace DeskCalculator

inductive OutputStyle where
  | plain
  | color
  | json
deriving DecidableEq, Repr

def OutputStyle.ofFlags (json color : Bool) : OutputStyle :=
  if json then .json else if color then .color else .plain

namespace Paint

def wrap (code : String) (text : String) : String := "\x1b[" ++ code ++ "m" ++ text ++ "\x1b[0m"

def gray : String → String := wrap "90"
def red : String → String := wrap "31"
def boldRed : String → String := wrap "1;31"
def boldGreen : String → String := wrap "1;32"

end Paint

def OutputStyle.errorText (style : OutputStyle) (message : String) : String :=
  if style = .color then Paint.red message else message

def TapeLine.toJson (l : TapeLine) : Json :=
  .ofFields [("expression", .ofString l.expression), ("result", .ofString l.result)]

namespace Report

/-- The registers of the stack have letters, the levels above them numbers. -/
def stackLabel : Nat → String
  | 0 => "X"
  | 1 => "Y"
  | 2 => "Z"
  | 3 => "T"
  | n => toString (n + 1)

def toJson (r : Report) : Json :=
  .ofFields [("display", .ofString r.display), ("value", r.value.toJson),
    ("stack", .array (r.stack.map .ofString)), ("transcript", .array (r.lines.map TapeLine.toJson))]

/-- The stack below its last value, the deepest first. -/
def stackLines (r : Report) : List String :=
  ((r.stack.mapIdx fun n text => s!"{stackLabel n}: {text}").drop 1).reverse

def render (style : OutputStyle) (r : Report) : String :=
  let lines (gray result : String → String) : String :=
    "\n".intercalate (r.lines.map (gray ·.text) ++ r.stackLines ++ [result r.display])
  match style with
  | .json => r.toJson.pretty
  | .color => lines Paint.gray (if r.value.isError then Paint.boldRed else Paint.boldGreen)
  | .plain => lines id id

end Report
end DeskCalculator
