import DeskCalculator.Value
import DeskCalculator.Decimal.Layout
/-!
The number being typed. Digits gather in an unsigned significand and an unsigned exponent; they
become a value only when the number is complete.
-/
namespace DeskCalculator

/-- A significand or an exponent has to stay below this bound. -/
def Entry.limit : Nat := UInt64.size

structure Entry where
  base : Base := .dec
  /-- Integers have neither a point nor an exponent. -/
  integral : Bool := false
  significand : Nat := 0
  exponent : Nat := 0
  /-- The number of digits after the point. The calculator counts them in 32 bits, which is the same
  below 2 ^ 32 of them. -/
  places : Nat := 0
  pointed : Bool := false
  negative : Bool := false
  /-- Do further digits belong to the exponent? -/
  inExponent : Bool := false
  exponentNegative : Bool := false
deriving DecidableEq, Repr

namespace Entry

def appendDigit? (base : Base) (n d : Nat) : Option Nat :=
  let next := n * base.radix + d
  if next < limit then some next else none

/-- Types a digit; refused if it does not belong to the base or there is no room for it. -/
def digit? (e : Entry) (d : Nat) : Option Entry :=
  if d < e.base.radix then
    if e.inExponent then
      (appendDigit? e.base e.exponent d).map fun n => { e with exponent := n }
    else
      (appendDigit? e.base e.significand d).map fun n =>
        { e with significand := n, places := if e.pointed then e.places + 1 else e.places }
  else none

def point (e : Entry) : Entry :=
  if e.integral ∨ e.pointed ∨ e.inExponent then e else { e with pointed := true }

def startExponent (e : Entry) : Entry :=
  if e.integral then e else { e with inExponent := true }

/-- Takes back the last digit, or else the point or the exponent that it would follow. -/
def backspace (e : Entry) : Entry :=
  if e.inExponent then
    if e.exponent = 0 then { e with inExponent := false, exponentNegative := false }
    else { e with exponent := e.exponent / e.base.radix }
  else if e.pointed ∧ e.places = 0 then { e with pointed := false }
  else { e with significand := e.significand / e.base.radix, places := e.places - 1 }

/-- Changes the sign of the part that is being typed. -/
def changeSign (e : Entry) : Entry :=
  if e.inExponent then { e with exponentNegative := !e.exponentNegative }
  else { e with negative := !e.negative }

def clear (e : Entry) : Entry := { base := e.base, integral := e.integral }

def isEmpty (e : Entry) : Bool :=
  e.significand == 0 && e.places == 0 && !e.pointed && !e.inExponent

def maxExponent : Nat := 0x7FFFFFFF

def unitExponent (e : Entry) : Int :=
  Dyadic.signed e.exponentNegative (min e.exponent maxExponent) - e.places

/-- The largest number of places that one step of scaling moves the point. -/
def scaleStep : Nat := 64

/-- Multiplies by a power of a base whose powers are exact doubles, a step at a time, until the
result is zero or infinite. -/
def scale (radix : Nat) (x : Float) (exponent : Int) : Float :=
  if exponent = 0 ∨ x == 0 ∨ x.isInf then x
  else
    let places := min exponent.natAbs scaleStep
    if 0 < exponent then
      scale radix (x * Double.ofRatio false (radix.pow places) 1) (exponent - places)
    else scale radix (x * Double.ofRatio false 1 (radix.pow places)) (exponent + places)
termination_by exponent.natAbs
decreasing_by
  all_goals
    have : 0 < min exponent.natAbs scaleStep := by simp only [scaleStep]; omega
    omega

def magnitude (e : Entry) : Float :=
  if e.base = .dec then Decimal.toDouble false ⟨e.significand, e.unitExponent⟩
  else scale e.base.radix (Double.ofInt e.significand) e.unitExponent

/-- The value typed so far. Integers are taken modulo `2 ^ 64`; zero has no sign. -/
def value (e : Entry) : Value :=
  if e.integral then .integer (Int64.ofInt (Dyadic.signed e.negative e.significand))
  else
    let x := e.magnitude
    if x.isInf then .error .overflow
    else if e.significand ≠ 0 ∧ x == 0 then .error .underflow
    else .double (if e.negative ∧ x != 0 then -x else x)

/-- The digits of the significand, enough of them to put one before the point. -/
def digits (e : Entry) : List Char :=
  let numeral := e.base.numeral e.significand
  if e.pointed then padZeros (e.places + 1) numeral else numeral

def chars (e : Entry) (separators : Bool) : List Char :=
  let digits := e.digits
  let sign (negative : Bool) : List Char := if negative then ['-'] else []
  let whole := digits.take (digits.length - e.places)
  let fraction := digits.drop (digits.length - e.places)
  sign e.negative ++ e.base.groupIf separators whole ++
    (if e.pointed then '.' :: fraction else []) ++
    (if e.inExponent then 'e' :: sign e.exponentNegative ++ e.base.numeral e.exponent else [])

end Entry
end DeskCalculator
