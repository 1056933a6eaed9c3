import DeskCalculator.Base
/-!
What a user sets: the keypad, the angle unit, the entry style, the base and the separators, with
the names by which each is asked for.
-/
namespace DeskCalculator

inductive Domain where
  | double
  | integer
deriving DecidableEq, Repr, Inhabited

def Domain.name : Domain → String
  | .double => "double"
  | .integer => "integer"

def Domain.other : Domain → Domain
  | .double => .integer
  | .integer => .double

inductive Mode where
  | basic
  | scientific
  | programmer
deriving DecidableEq, Repr, Inhabited

namespace Mode

def all : List Mode := [basic, scientific, programmer]

def domain : Mode → Domain
  | programmer => .integer
  | basic | scientific => .double

def name : Mode → String
  | basic => "basic"
  | scientific => "scientific"
  | programmer => "programmer"

end Mode

inductive AngleUnit where
  | radians
  | degrees
deriving DecidableEq, Repr, Inhabited

def AngleUnit.name : AngleUnit → String
  | .radians => "rad"
  | .degrees => "deg"

/-- How operators combine with operands: between them with precedence, or after them. -/
inductive EntryStyle where
  | algebraic
  | rpn
deriving DecidableEq, Repr, Inhabited

def EntryStyle.name : EntryStyle → String
  | .algebraic => "algebraic"
  | .rpn => "rpn"

structure UnknownName where
  kind : String
  text : String
deriving DecidableEq, Repr

def UnknownName.message (e : UnknownName) : String := s!"unknown {e.kind} '{e.text}'"

/-- Finds a text in a table of names, in either case of the ASCII letters. -/
def findName {α : Type} (kind : String) (table : List (String × α)) (text : String) :
    Except UnknownName α :=
  match table.lookup text.toLower with
  | some a => .ok a
  | none => .error ⟨kind, text⟩

def Base.ofName : String → Except UnknownName Base :=
  findName "base"
    [("bin", .bin), ("2", .bin), ("binary", .bin), ("oct", .oct), ("8", .oct), ("octal", .oct),
      ("dec", .dec), ("10", .dec), ("decimal", .dec), ("hex", .hex), ("16", .hex),
      ("hexadecimal", .hex)]

def Mode.ofName : String → Except UnknownName Mode :=
  findName "mode"
    [("basic", .basic), ("scientific", .scientific), ("sci", .scientific),
      ("programmer", .programmer), ("prog", .programmer)]

def AngleUnit.ofName : String → Except UnknownName AngleUnit :=
  findName "angle unit"
    [("deg", .degrees), ("degrees", .degrees), ("rad", .radians), ("radians", .radians)]

def EntryStyle.ofName : String → Except UnknownName EntryStyle :=
  findName "entry style" [("algebraic", .algebraic), ("infix", .algebraic), ("rpn", .rpn)]

structure Settings where
  mode : Mode := .scientific
  base : Base := .dec
  angle : AngleUnit := .radians
  style : EntryStyle := .algebraic
  separators : Bool := false
deriving DecidableEq, Repr, Inhabited

/-- The base in force: only the programmer keypad leaves decimal. -/
def Settings.effectiveBase (s : Settings) : Base :=
  if s.mode = .programmer then s.base else .dec

def Settings.domain (s : Settings) : Domain := s.mode.domain

end DeskCalculator
