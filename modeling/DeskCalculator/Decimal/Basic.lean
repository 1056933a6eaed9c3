import DeskCalculator.Base
import DeskCalculator.Double.Basic
/-!
Decimal numbers `digits * 10 ^ exponent`: rounding a fraction to a decimal, and the double nearest
to a decimal.
-/
namespace DeskCalculator

structure Decimal where
  digits : Nat
  exponent : Int
deriving DecidableEq, Repr

namespace Decimal

def ratio (d : Decimal) : Nat × Nat := scaleFraction 10 d.exponent d.digits 1

theorem ratio_den_pos (d : Decimal) : 0 < d.ratio.2 :=
  scaleFraction_den_pos (by decide) (by decide) _ _

/-- The same value without trailing zeros among the digits. -/
def normalize (d : Decimal) : Decimal :=
  if d.digits ≠ 0 ∧ d.digits % 10 = 0 then normalize ⟨d.digits / 10, d.exponent + 1⟩ else d
termination_by d.digits
decreasing_by exact Nat.div_lt_self (by omega) (by omega)

def digitCount (n : Nat) : Nat := (Base.dec.digits n).length

/-- The greatest `e` with `10 ^ e ≤ num / den`. -/
def decimalExponent (num den : Nat) : Int :=
  exponentFrom 10 ((digitCount num : Int) - digitCount den) num den

/-- `num / den` as a multiple of `10 ^ unit`, still a fraction. -/
def inUnits (unit : Int) (num den : Nat) : Nat × Nat := scaleFraction 10 (-unit) num den

/-- A positive fraction rounded half to even to `n` significant digits; all of them are kept. -/
def roundSignificant (n : Nat) (num den : Nat) : Decimal :=
  let unit := decimalExponent num den - (n - 1)
  let scaled := inUnits unit num den
  let digits := roundHalfEven scaled.1 scaled.2
  if digits = Nat.pow 10 n then ⟨Nat.pow 10 (n - 1), unit + 1⟩ else ⟨digits, unit⟩

def roundPlaces (places : Nat) (num den : Nat) : Decimal :=
  let scaled := inUnits (-places) num den
  ⟨roundHalfEven scaled.1 scaled.2, -places⟩

/-- Exponents beyond this bound give infinity or zero, whatever the digits. -/
def exponentBound : Int := 400

/-- The double nearest to `± digits * 10 ^ exponent`. -/
def toDouble (negative : Bool) (d : Decimal) : Float :=
  if d.digits = 0 then Double.ofBits negative 0
  else if d.exponent > exponentBound then Double.infinity negative
  else if d.exponent < -(exponentBound + d.digits.log2) then Double.ofBits negative 0
  else Double.ofRatio negative d.ratio.1 d.ratio.2

end Decimal
end DeskCalculator
