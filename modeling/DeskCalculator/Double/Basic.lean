/-!
Doubles as exact numbers: a finite double is a sign, a natural significand and a power of two,
and every fraction has a nearest double. Integral parts and remainders are taken on the exact
values.
-/
namespace DeskCalculator

def scaleFraction (base : Nat) (exponent : Int) (num den : Nat) : Nat × Nat :=
  (num * base.pow exponent.toNat, den * base.pow (-exponent).toNat)

theorem scaleFraction_den_pos {base den : Nat} (hb : 0 < base) (hd : 0 < den) (exponent : Int)
    (num : Nat) : 0 < (scaleFraction base exponent num den).2 :=
  Nat.mul_pos hd (Nat.pow_pos hb)

/-- A number `± significand * 2 ^ exponent`. -/
structure Dyadic where
  negative : Bool
  significand : Nat
  exponent : Int
deriving DecidableEq, Repr

namespace Dyadic

def ratio (d : Dyadic) : Nat × Nat := scaleFraction 2 d.exponent d.significand 1

theorem ratio_den_pos (d : Dyadic) : 0 < d.ratio.2 :=
  scaleFraction_den_pos (by decide) (by decide) _ _

def whole (d : Dyadic) : Nat := d.ratio.1 / d.ratio.2

def signed (negative : Bool) (n : Nat) : Int := if negative then -(n : Int) else n

def truncate (d : Dyadic) : Int := signed d.negative d.whole

def floor (d : Dyadic) : Int :=
  if d.negative then -((d.ratio.1 + d.ratio.2 - 1) / d.ratio.2 : Nat) else d.whole

end Dyadic

/-- `num / den` rounded to a natural number, a half to the even neighbour. -/
def roundHalfEven (num den : Nat) : Nat :=
  let q := num / den
  let r := num % den
  if 2 * r < den ∨ 2 * r = den ∧ q % 2 = 0 then q else q + 1

/-- The greatest `e` with `base ^ e ≤ num / den`, from a guess that is at most one too high. -/
def exponentFrom (base : Nat) (guess : Int) (num den : Nat) : Int :=
  let scaled := scaleFraction base (-guess) num den
  if scaled.2 ≤ scaled.1 then guess else guess - 1

def binaryExponent (num den : Nat) : Int :=
  exponentFrom 2 ((num.log2 : Int) - den.log2) num den

namespace Double

def fractionBits : Nat := 52

/-- The leading bit of a normal significand, which the pattern leaves out. -/
def leadingBit : Nat := 0x10000000000000

/-- The exponent of the last bit of the smallest doubles. -/
def leastExponent : Int := -1074

/-- The bit pattern of positive infinity, above those of all finite magnitudes. -/
def infinityBits : Nat := 0x7FF0000000000000

def signBit : Nat := 0x8000000000000000

def isNegative (x : Float) : Bool := x.toBits.toNat ≥ signBit

/-- The pattern without the sign; it orders magnitudes. -/
def magnitudeBits (x : Float) : Nat := x.toBits.toNat % signBit

def dyadic (x : Float) : Dyadic :=
  let field := magnitudeBits x / leadingBit
  let fraction := magnitudeBits x % leadingBit
  if field = 0 then ⟨isNegative x, fraction, leastExponent⟩
  else ⟨isNegative x, leadingBit + fraction, leastExponent + field - 1⟩

def ofBits (negative : Bool) (magnitude : Nat) : Float :=
  Float.ofBits (UInt64.ofNat (magnitude + if negative then signBit else 0))

def infinity (negative : Bool) : Float := ofBits negative infinityBits

def nan : Float := Float.ofBits 0x7FF8000000000000

/-- The pattern of the double nearest to `num / den`: its last bit stands for `2 ^ e`, and the
significand counts on from the pattern of the exponent, so that a carry moves to the next one. -/
def nearestBits (num den : Nat) : Nat :=
  if num = 0 then 0
  else
    let e := max (binaryExponent num den - fractionBits) leastExponent
    let scaled := scaleFraction 2 (-e) num den
    let significand := roundHalfEven scaled.1 scaled.2
    min infinityBits ((e - leastExponent).toNat * leadingBit + significand)

/-- The double nearest to `± num / den`, a half to the even significand. -/
def ofRatio (negative : Bool) (num den : Nat) : Float :=
  ofBits negative (nearestBits num den)

def ofDyadic (d : Dyadic) : Float := ofRatio d.negative d.ratio.1 d.ratio.2

def ofInt (i : Int) : Float := ofRatio (i < 0) i.natAbs 1

def leastNormal : Float := ofBits false 0x0010000000000000

/-- The whole part, with the sign kept also for zero. -/
def truncate (x : Float) : Float :=
  if x.isFinite then ofRatio (isNegative x) (dyadic x).whole 1 else x

def fraction (x : Float) : Float := x - truncate x

/-- The greatest integer that is not above a finite double; zero for the others. -/
def floorInt (x : Float) : Int := if x.isFinite then (dyadic x).floor else 0

/-- The whole part as a 64-bit integer, clamped to its range; zero for what is no number. -/
def toInt64 (x : Float) : Int64 :=
  if x.isNaN then 0
  else if x.isInf then (if isNegative x then Int64.minValue else Int64.maxValue)
  else Int64.ofIntClamp (dyadic x).truncate

/-- The exact remainder of the truncating division, with the sign of `x`. -/
def remainder (x y : Float) : Float :=
  if x.isFinite ∧ ¬ y.isNaN ∧ y != 0 then
    if y.isInf then x
    else
      let a := dyadic x
      let b := dyadic y
      let e := min a.exponent b.exponent
      let r := (a.significand <<< (a.exponent - e).toNat) %
        (b.significand <<< (b.exponent - e).toNat)
      ofDyadic ⟨a.negative, r, e⟩
  else nan

/-- The remainder moved into the range from zero to the magnitude of `y`. -/
def modulo (x y : Float) : Float :=
  let r := remainder x y
  if r < 0 then r + y.abs else r

end Double
end DeskCalculator
