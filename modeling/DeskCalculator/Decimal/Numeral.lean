import DeskCalculator.Decimal.Basic
/-!
Numerals as they are written: digits, a fraction and a power of ten.
-/
namespace DeskCalculator

/-- A written power of ten: the letter, a sign, and at least one digit. -/
structure Numeral.Power where
  letter : Char
  sign : Option Char
  digits : List Char
deriving DecidableEq, Repr

structure Numeral where
  whole : List Char
  fraction : Option (List Char)
  power : Option Numeral.Power
deriving DecidableEq, Repr

namespace Numeral

def Power.chars (p : Power) : List Char := p.letter :: p.sign.toList ++ p.digits

def chars (n : Numeral) : List Char :=
  n.whole ++ n.fraction.elim [] ('.' :: ·) ++ n.power.elim [] Power.chars

def ofDigitChars (cs : List Char) : Nat := Base.dec.ofDigits (cs.map (·.toNat - '0'.toNat))

def Power.value (p : Power) : Int :=
  if p.sign = some '-' then -(ofDigitChars p.digits : Int) else ofDigitChars p.digits

def isInteger (n : Numeral) : Bool := n.fraction.isNone && n.power.isNone

def decimal (n : Numeral) : Decimal :=
  let fraction := n.fraction.getD []
  ⟨ofDigitChars (n.whole ++ fraction), n.power.elim 0 Power.value - fraction.length⟩

def toDouble (negative : Bool) (n : Numeral) : Float := n.decimal.toDouble negative

/-- The integer, if the numeral is nothing but digits and fits into 64 bits. -/
def toInt64? (negative : Bool) (n : Numeral) : Option Int64 :=
  let i := Dyadic.signed negative (ofDigitChars n.whole)
  if n.isInteger ∧ Int64.minValue.toInt ≤ i ∧ i ≤ Int64.maxValue.toInt then some (Int64.ofInt i)
  else none

def scanDigits (cs : List Char) : List Char × List Char :=
  (cs.takeWhile Char.isDigit, cs.dropWhile Char.isDigit)

def scanPower? : List Char → Option (Power × List Char)
  | c :: rest =>
    if c = 'e' ∨ c = 'E' then
      let (sign, rest) := match rest with
        | '+' :: r => (some '+', r)
        | '-' :: r => (some '-', r)
        | r => (none, r)
      match scanDigits rest with
      | ([], _) => none
      | (digits, rest) => some (⟨c, sign, digits⟩, rest)
    else none
  | [] => none

def scanPower (cs : List Char) : Option Power × List Char :=
  match scanPower? cs with
  | some (p, rest) => (some p, rest)
  | none => (none, cs)

/-- Whole digits and a fraction; a fraction without whole digits has at least one digit. -/
def scanPositional? (cs : List Char) : Option (List Char × Option (List Char) × List Char) :=
  match scanDigits cs with
  | ([], '.' :: rest) =>
    match scanDigits rest with
    | ([], _) => none
    | (fraction, rest) => some ([], some fraction, rest)
  | ([], _) => none
  | (whole, '.' :: rest) =>
    let (fraction, rest) := scanDigits rest
    some (whole, some fraction, rest)
  | (whole, rest) => some (whole, none, rest)

def scan? (cs : List Char) : Option (Numeral × List Char) :=
  match scanPositional? cs with
  | none => none
  | some (whole, fraction, rest) =>
    let (power, rest) := scanPower rest
    some (⟨whole, fraction, power⟩, rest)

end Numeral
end DeskCalculator
