import DeskCalculator.Value
import DeskCalculator.Opcode
/-!
The operations on 64-bit integers. Arithmetic is modulo `2 ^ 64`, bit operations act on the
pattern.
-/
namespace DeskCalculator

namespace Integer

def wordBits : Nat := 64

/-- Powers by repeated squaring, modulo `2 ^ 64`. -/
def natPower (base : Int64) (n : Nat) : Int64 :=
  if n = 0 then 1
  else
    let half := natPower (base * base) (n / 2)
    if n % 2 = 1 then base * half else half
termination_by n
decreasing_by omega

/-- A negative exponent gives the reciprocal without its fraction. -/
def power (base exponent : Int64) : Value :=
  if exponent < 0 then
    if base = 0 then .error .divideByZero
    else if base = 1 then .integer 1
    else if base = -1 then .integer (if exponent % 2 = 0 then 1 else -1)
    else .integer 0
  else .integer (natPower base exponent.toInt.toNat)

def divide (a b : Int64) : Value :=
  if b = 0 then .error .divideByZero else .integer (a / b)

def shift (op : UInt64 → UInt64 → UInt64) (a amount : Int64) : Value :=
  if 0 ≤ amount.toInt ∧ amount.toInt < wordBits then
    .integer (op a.toUInt64 amount.toUInt64).toInt64
  else .error .overflow

def rotateLeft (u : UInt64) : UInt64 := u <<< 1 ||| u >>> 63
def rotateRight (u : UInt64) : UInt64 := u >>> 1 ||| u <<< 63

def flipBytes (u : UInt64) : UInt64 :=
  u <<< 56 ||| (u &&& 0xFF00) <<< 40 ||| (u &&& 0xFF0000) <<< 24 ||| (u &&& 0xFF000000) <<< 8 |||
    (u &&& 0xFF00000000) >>> 8 ||| (u &&& 0xFF0000000000) >>> 24 |||
    (u &&& 0xFF000000000000) >>> 40 ||| u >>> 56

def flipWords (u : UInt64) : UInt64 :=
  u <<< 48 ||| (u &&& 0xFFFF0000) <<< 16 ||| (u &&& 0xFFFF00000000) >>> 16 ||| u >>> 48

def onPattern (f : UInt64 → UInt64) (a : Int64) : Value := .integer (f a.toUInt64).toInt64

end Integer

open Integer

def IntegerUnary.apply : IntegerUnary → Int64 → Value
  | neg, a => .integer (-a)
  | not, a => .integer (~~~a)
  | rotateLeft, a => onPattern Integer.rotateLeft a
  | rotateRight, a => onPattern Integer.rotateRight a
  | flipBytes, a => onPattern Integer.flipBytes a
  | flipWords, a => onPattern Integer.flipWords a

def IntegerBinary.apply : IntegerBinary → Int64 → Int64 → Value
  | add, a, b => .integer (a + b)
  | sub, a, b => .integer (a - b)
  | mul, a, b => .integer (a * b)
  | div, a, b => divide a b
  | pow, a, b => power a b
  | and, a, b => .integer (a &&& b)
  | or, a, b => .integer (a ||| b)
  | xor, a, b => .integer (a ^^^ b)
  | shiftLeft, a, b => shift (· <<< ·) a b
  | shiftRight, a, b => shift (· >>> ·) a b

end DeskCalculator
