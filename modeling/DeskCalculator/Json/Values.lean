import DeskCalculator.Json.Reader
import DeskCalculator.Display
/-!
Values and settings as JSON.
-/
namespace DeskCalculator

namespace Json

/-! Doubles are written with the fewest digits. -/

def isPositional (magnitude : Float) : Bool :=
  magnitude == 0 || 1e-5 ≤ magnitude && magnitude < 1e16

/-- At least one digit follows the point. -/
def positionalNumeral (p : Positional) : Numeral :=
  ⟨p.whole, some (if p.fraction.isEmpty then ['0'] else p.fraction), none⟩

/-- The power of ten always has a sign. -/
def scientificNumeral (s : Scientific) : Numeral :=
  ⟨s.mantissa.whole, if s.mantissa.fraction.isEmpty then none else some s.mantissa.fraction,
    some ⟨'e', some (if s.exponent < 0 then '-' else '+'), Base.dec.numeral s.exponent.natAbs⟩⟩

/-- Infinities and what is no number have no JSON number. -/
def ofDouble (x : Float) : Json :=
  let negative := Double.isNegative x
  let shortest := Decimal.shortest .toEven x
  if x.isFinite then
    if x == 0 then number negative ⟨['0'], some ['0'], none⟩
    else if isPositional x.abs then
      number negative (positionalNumeral (.ofDecimal negative shortest))
    else number negative (scientificNumeral (.ofDecimal negative shortest))
  else null

def ofInt64 (i : Int64) : Json :=
  number (i < 0) ⟨Base.dec.numeral i.toInt.natAbs, none, none⟩

/-! Numbers are read by gathering digits in 64 bits and scaling by powers of ten. -/

def gatherLimit : Nat := UInt64.size

/-- Takes digits into `n`; once there is no room for one, it and all after it are left out. Answers
the number, the count of digits taken, and the count of those left out. -/
def gather (n : Nat) : List Char → Nat × Nat × Nat
  | [] => (n, 0, 0)
  | c :: rest =>
    let next := n * 10 + (c.toNat - '0'.toNat)
    if next < gatherLimit then
      let (n, taken, left) := gather next rest
      (n, taken + 1, left)
    else (n, 0, rest.length + 1)

def scaleStep : Nat := 308

def scaleDown (x : Float) (places : Nat) : Float :=
  if places ≤ scaleStep then x / Decimal.toDouble false ⟨1, places⟩
  else if x == 0 then x
  else scaleDown (x / Decimal.toDouble false ⟨1, scaleStep⟩) (places - scaleStep)
termination_by places
decreasing_by simp_all only [scaleStep]; omega

def scale? (significand : Nat) (exponent : Int) : Option Float :=
  let x := Double.ofInt significand
  if exponent < 0 then some (scaleDown x exponent.natAbs)
  else if scaleStep < exponent then (if significand = 0 then some 0 else none)
  else
    let scaled := x * Decimal.toDouble false ⟨1, exponent⟩
    if scaled.isInf then none else some scaled

def toDouble? (negative : Bool) (n : Numeral) : Option Float :=
  let (whole, _, left) := gather 0 n.whole
  let (significand, taken, _) := gather whole (n.fraction.getD [])
  let exponent : Int := left - taken + n.power.elim 0 Numeral.Power.value
  (scale? significand exponent).map fun x => if negative then -x else x

/-! Enumerations are written as their names; an object with the name and null means the same. -/

def nameOf? : Json → Option String
  | string s => s
  | object [(k, null)] => k
  | _ => none

def enumeration? {α : Type} (table : List (String × α)) (j : Json) : Option α :=
  (nameOf? j).bind fun name => table.lookup name

def nameIn {α : Type} [BEq α] (table : List (String × α)) (a : α) : Json :=
  ofString (((table.find? (·.2 == a)).map (·.1)).getD "")

def errorNames : List (String × ErrorKind) :=
  [("Unknown", .unknown), ("DivideByZero", .divideByZero), ("Overflow", .overflow),
    ("Underflow", .underflow)]

def modeNames : List (String × Mode) :=
  [("Basic", .basic), ("Scientific", .scientific), ("Programmer", .programmer)]

def baseNames : List (String × Base) :=
  [("Bin", .bin), ("Oct", .oct), ("Dec", .dec), ("Hex", .hex)]

def angleNames : List (String × AngleUnit) := [("Degrees", .degrees), ("Radians", .radians)]

def styleNames : List (String × EntryStyle) := [("Algebraic", .algebraic), ("Rpn", .rpn)]

end Json

namespace Value

def toJson : Value → Json
  | double x => .ofFields [("Double", .ofDouble x)]
  | integer i => .ofFields [("Integer", .ofInt64 i)]
  | error k => .ofFields [("Error", Json.nameIn Json.errorNames k)]

def ofJson? : Json → Option Value
  | .object [(some "Double", .number negative n)] => (Json.toDouble? negative n).map double
  | .object [(some "Integer", .number negative n)] =>
    if negative ∧ n.whole = ['0'] then none else (n.toInt64? negative).map integer
  | .object [(some "Error", j)] => (Json.enumeration? Json.errorNames j).map error
  | _ => none

end Value

namespace Settings

def toJson (s : Settings) : Json :=
  .ofFields [("mode", Json.nameIn Json.modeNames s.mode),
    ("base", Json.nameIn Json.baseNames s.base),
    ("angle_unit", Json.nameIn Json.angleNames s.angle),
    ("entry_style", Json.nameIn Json.styleNames s.style),
    ("thousands_separators", .bool s.separators)]

/-- The fields, in the order in which they are written; each sets its part of the settings. -/
def jsonFields : List (String × (Settings → Json → Option Settings)) :=
  [("mode", fun s j => (Json.enumeration? Json.modeNames j).map fun m => { s with mode := m }),
    ("base", fun s j => (Json.enumeration? Json.baseNames j).map fun b => { s with base := b }),
    ("angle_unit", fun s j =>
      (Json.enumeration? Json.angleNames j).map fun u => { s with angle := u }),
    ("entry_style", fun s j =>
      (Json.enumeration? Json.styleNames j).map fun e => { s with style := e }),
    ("thousands_separators", fun s j =>
      match j with
      | .bool b => some { s with separators := b }
      | _ => none)]

/-- Takes over the fields of an object; unknown ones are passed over, repeated ones refused. -/
def readFields (seen : List String) (s : Settings) :
    List (Option String × Json) → Option Settings
  | [] => some s
  | (none, _) :: _ => none
  | (some key, j) :: rest =>
    match jsonFields.lookup key with
    | none => readFields seen s rest
    | some set =>
      if key ∈ seen then none
      else (set s j).bind fun s => readFields (key :: seen) s rest

def readItems : Settings → List (Settings → Json → Option Settings) → List Json → Option Settings
  | s, _, [] => some s
  | _, [], _ :: _ => none
  | s, set :: sets, j :: rest => (set s j).bind fun s => readItems s sets rest

def ofJson? : Json → Option Settings
  | .object fields => readFields [] {} fields
  | .array items => readItems {} (jsonFields.map (·.2)) items
  | _ => none

end Settings
end DeskCalculator
