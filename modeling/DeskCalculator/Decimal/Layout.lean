import DeskCalculator.Decimal.Basic
/-!
Written forms of decimals: positional, and scientific with one digit before the point.
-/
namespace DeskCalculator

def dropTrailing (c : Char) (cs : List Char) : List Char :=
  (cs.reverse.dropWhile (· == c)).reverse

def padZeros (length : Nat) (cs : List Char) : List Char :=
  List.replicate (length - cs.length) '0' ++ cs

def integerText (i : Int) : List Char :=
  (if i < 0 then ['-'] else []) ++ Base.dec.numeral i.natAbs

/-- A number written with its whole digits before the point and its fraction after it. -/
structure Positional where
  negative : Bool
  whole : List Char
  fraction : List Char
deriving DecidableEq, Repr

namespace Positional

/-- The point is written only before a fraction. -/
def text (p : Positional) : List Char :=
  (if p.negative then ['-'] else []) ++ p.whole ++
    (if p.fraction.isEmpty then [] else '.' :: p.fraction)

/-- Splits the last `places` digits off as the fraction. -/
def ofPlaces (negative : Bool) (places : Nat) (n : Nat) : Positional :=
  let digits := padZeros (places + 1) (Base.dec.numeral n)
  ⟨negative, digits.take (digits.length - places), digits.drop (digits.length - places)⟩

/-- The digits of a decimal, followed by zeros if its exponent is positive. -/
def ofDecimal (negative : Bool) (d : Decimal) : Positional :=
  if d.exponent < 0 then ofPlaces negative d.exponent.natAbs d.digits
  else ⟨negative, Base.dec.numeral d.ratio.1, []⟩

def trimZeros (p : Positional) : Positional :=
  { p with fraction := dropTrailing '0' p.fraction }

def unsignZero (p : Positional) : Positional :=
  if p.whole = ['0'] ∧ p.fraction = [] then { p with negative := false } else p

def groupIf (separators : Bool) (p : Positional) : Positional :=
  { p with whole := Base.dec.groupIf separators p.whole }

end Positional

/-- A number written as a mantissa with one digit before the point, and a power of ten. -/
structure Scientific where
  mantissa : Positional
  exponent : Int
deriving DecidableEq, Repr

namespace Scientific

def text (s : Scientific) : List Char := s.mantissa.text ++ 'e' :: integerText s.exponent

def ofDecimal (negative : Bool) (d : Decimal) : Scientific :=
  let digits := Base.dec.numeral d.digits
  ⟨⟨negative, digits.take 1, digits.drop 1⟩, d.exponent + (digits.length - 1 : Nat)⟩

def trimZeros (s : Scientific) : Scientific := { s with mantissa := s.mantissa.trimZeros }

end Scientific
end DeskCalculator
