import DeskCalculator.Decimal.Basic
/-!
The shortest decimal that reads back as a given double, and of those the nearest to it.
-/
namespace DeskCalculator

inductive Tie where
  | toEven
  | upward
deriving DecidableEq, Repr

namespace Decimal

/-- Is `d` nearer to the double with this pattern than to any other? -/
def readsAs (magnitude : Nat) (d : Decimal) : Bool :=
  Double.nearestBits d.ratio.1 d.ratio.2 == magnitude

def ofDyadic (x : Dyadic) : Decimal :=
  if 0 ≤ x.exponent then ⟨x.ratio.1, 0⟩
  else ⟨x.significand * Nat.pow 5 (-x.exponent).toNat, x.exponent⟩

/-- The decimal in units of `10 ^ unit` that reads as the given pattern: one of the two neighbours
of the value, the nearer one if both do. -/
def neighbour? (tie : Tie) (magnitude : Nat) (unit : Int) (num den : Nat) : Option Decimal :=
  let scaled := inUnits unit num den
  let low := scaled.1 / scaled.2
  let rest := scaled.1 % scaled.2
  let preferLow := 2 * rest < scaled.2 ∨ 2 * rest = scaled.2 ∧ tie = .toEven ∧ low % 2 = 0
  let below : Decimal := ⟨low, unit⟩
  let above : Decimal := ⟨low + 1, unit⟩
  let (first, second) := if preferLow then (below, above) else (above, below)
  if readsAs magnitude first then some first
  else if readsAs magnitude second then some second
  else none

/-- Seventeen digits tell any two doubles apart. -/
def maxShortestDigits : Nat := 17

/-- The shortest decimal that reads as the finite double `x`, without trailing zeros. -/
def shortest (tie : Tie) (x : Float) : Decimal :=
  let value := Double.dyadic x
  let (num, den) := value.ratio
  let exponent := decimalExponent num den
  let found := (List.range maxShortestDigits).findSome? fun (n : Nat) =>
    neighbour? tie (Double.magnitudeBits x) (exponent - n) num den
  (found.getD (ofDyadic value)).normalize

end Decimal
end DeskCalculator
