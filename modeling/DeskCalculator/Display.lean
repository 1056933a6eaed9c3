import DeskCalculator.Value
import DeskCalculator.Decimal.Layout
import DeskCalculator.Decimal.Shortest
/-!
How values are shown. Integers appear in any base, outside decimal as their 64-bit pattern;
doubles in decimal with fifteen significant digits, unless a number of places is asked for. A
literal is written with as many digits as it takes to read it back.
-/
namespace DeskCalculator

namespace Display

def significantDigits : Nat := 15

/-- Most decimal places shown when none are asked for. -/
def maxPlaces : Int := 20

def isPositional (magnitude : Float) : Bool := 1e-9 ≤ magnitude && magnitude < 1e16

def unsigned (bits : Nat) (base : Base) (separators : Bool) : List Char :=
  base.groupIf separators (base.numeral bits)

/-- Decimal integers have a sign, those of the other bases show the pattern. -/
def integer (i : Int64) (base : Base) (separators : Bool) : List Char :=
  if base = .dec ∧ i < 0 then '-' :: unsigned i.toInt.natAbs base separators
  else unsigned i.toUInt64.toNat base separators

/-- The places that leave fifteen significant digits, for a given decimal logarithm. -/
def significantPlaces (log10 : Float → Float) (magnitude : Float) : Nat :=
  let exponent := Double.floorInt (log10 magnitude)
  (max 0 (min maxPlaces (significantDigits - 1 - exponent))).toNat

/-- The text of a double that is neither infinite nor zero, with the places given or chosen. -/
def finite (log10 : Float → Float) (x : Float) (separators : Bool) (places : Option Nat) :
    List Char :=
  let (num, den) := (Double.dyadic x).ratio
  let negative := Double.isNegative x
  if isPositional x.abs then
    let places := places.getD (significantPlaces log10 x.abs)
    let rounded := (Decimal.roundPlaces places num den).digits
    ((Positional.ofPlaces negative places rounded).trimZeros.unsignZero.groupIf separators).text
  else
    let digits := places.getD (significantDigits - 1) + 1
    (Scientific.ofDecimal negative (Decimal.roundSignificant digits num den)).trimZeros.text

def doubleWith (log10 : Float → Float) (x : Float) (separators : Bool) (places : Option Nat) :
    List Char :=
  if x.isNaN then "NaN".toList
  else if x.isInf then (if Double.isNegative x then "-Infinity" else "Infinity").toList
  else if x == 0 then ['0']
  else finite log10 x separators places

def double : Float → Bool → Option Nat → List Char := doubleWith Float.log10

/-- Outside decimal a double shows as the integer next to it on the side of zero. -/
def value (v : Value) (base : Base) (separators : Bool) (places : Option Nat) : List Char :=
  match v with
  | .double x =>
    if base = .dec then double x separators places
    else integer (Double.toInt64 x) base separators
  | .integer i => integer i base separators
  | .error k => k.message.toList

end Display

def Value.text (v : Value) : String := String.ofList (Display.value v .dec false none)

namespace Literal

def positional (x : Float) : Positional :=
  Positional.ofDecimal (Double.isNegative x) (Decimal.shortest .upward x)

def scientific (x : Float) : Scientific :=
  Scientific.ofDecimal (Double.isNegative x) (Decimal.shortest .upward x)

/-- The text of a literal: read again, it gives the same value. Zero loses its sign. -/
def chars : Value → List Char
  | .double x =>
    if x == 0 then ['0']
    else if x.isFinite then
      if Display.isPositional x.abs then (positional x).text else (scientific x).text
    else Display.double x false none
  | .integer i => integerText i.toInt
  | .error k => k.message.toList

end Literal
end DeskCalculator
