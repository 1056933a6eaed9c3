import DeskCalculator.Settings
import DeskCalculator.Double.Basic
/-!
Calculator values: a double, a 64-bit integer, or the reason why a computation failed.
-/
namespace DeskCalculator

inductive ErrorKind where
  | unknown
  | divideByZero
  | overflow
  | underflow
deriving DecidableEq, Repr

namespace ErrorKind

def all : List ErrorKind := [unknown, divideByZero, overflow, underflow]

def message : ErrorKind → String
  | unknown => "Error"
  | divideByZero => "Cannot divide by zero"
  | overflow => "Overflow"
  | underflow => "Underflow"

def ofMessage? (text : String) : Option ErrorKind := all.find? (·.message == text)

theorem ofMessage?_message (k : ErrorKind) : ofMessage? k.message = some k := by
  cases k <;> decide

end ErrorKind

inductive Value where
  | double (x : Float)
  | integer (i : Int64)
  | error (kind : ErrorKind)
deriving DecidableEq, Inhabited

namespace Value

def zero : Domain → Value
  | .double => double 0
  | .integer => integer 0

/-- An error counts as no number. -/
def asDouble : Value → Float
  | double x => x
  | integer i => Double.ofInt i.toInt
  | error _ => Double.nan

/-- Doubles lose their fraction and are clamped; an error counts as zero. -/
def asInteger : Value → Int64
  | double x => Double.toInt64 x
  | integer i => i
  | error _ => 0

def isZero : Value → Bool
  | double x => x == 0
  | integer i => i == 0
  | error _ => false

def errorKind? : Value → Option ErrorKind
  | error k => some k
  | _ => none

def isError (v : Value) : Bool := v.errorKind?.isSome

def isNegative : Value → Bool
  | double x => x < 0
  | integer i => i < 0
  | error _ => false

def domain? : Value → Option Domain
  | double _ => some .double
  | integer _ => some .integer
  | error _ => none

/-- The value in another domain. Errors stay as they are, and infinities are out of range for
integers. -/
def coerce : Value → Domain → Value
  | error k, _ => error k
  | double x, .double => double x
  | integer i, .integer => integer i
  | integer i, .double => double (Double.ofInt i.toInt)
  | double x, .integer => if x.isFinite then integer (Double.toInt64 x) else error .overflow

theorem coerce_error (k : ErrorKind) (d : Domain) : (error k).coerce d = error k := by
  cases d <;> rfl

theorem coerce_coerce (v : Value) (d : Domain) : (v.coerce d).coerce d = v.coerce d := by
  cases v with
  | double x =>
    cases d with
    | double => rfl
    | integer => by_cases h : x.isFinite <;> simp [coerce, h]
  | integer i => cases d <;> rfl
  | error k => rw [coerce_error, coerce_error]

end Value
end DeskCalculator
