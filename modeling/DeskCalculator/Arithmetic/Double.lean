import DeskCalculator.Arithmetic.Gamma
import DeskCalculator.Double.CubeRoot
import DeskCalculator.Opcode
import DeskCalculator.Value
/-!
The operations on doubles. What is not a number, out of range or too small becomes an error, and
angles that are whole quarters of a turn are answered exactly.
-/
namespace DeskCalculator

namespace Value

/-- A computed double; only zero and normal numbers pass. -/
def ofResult (x : Float) : Value :=
  if x.isNaN then error .unknown
  else if x.isInf then error .overflow
  else if x != 0 && x.abs < Double.leastNormal then error .underflow
  else double x

/-- A product or quotient: a zero that came from numbers other than zero is too small. -/
def ofScaledResult (x : Float) (inputsNonzero : Bool) : Value :=
  if x == 0 && inputsNonzero then error .underflow else ofResult x

end Value

namespace Double

def toRadians (x : Float) : Float := x * (Gamma.pi / 180)
def toDegrees (x : Float) : Float := x * (180 / Gamma.pi)

def isOddInteger (x : Float) : Bool := fraction x == 0 && modulo x 2 == 1

def maxFactorial : Float := 170

def factorialProduct (n : Nat) : Float :=
  (List.range' 2 (n - 1)).foldl (fun product (k : Nat) => product * ofInt k) 1

/-- Between the integers the gamma function takes over. -/
def factorial (x : Float) : Value :=
  if x.isNaN then .error .unknown
  else if fraction x == 0 then
    if x < 0 then .error .unknown
    else if x > maxFactorial then .error .overflow
    else .double (factorialProduct (dyadic x).whole)
  else .ofResult (gamma (x + 1))

def sind (x : Float) : Value :=
  let turn := modulo x 360
  .ofResult <|
    if turn == 0 || turn == 180 then 0
    else if turn == 90 then 1
    else if turn == 270 then -1
    else (toRadians x).sin

def cosd (x : Float) : Value :=
  let turn := modulo x 360
  .ofResult <|
    if turn == 0 then 1
    else if turn == 180 then -1
    else if turn == 90 || turn == 270 then 0
    else (toRadians x).cos

def tand (x : Float) : Value :=
  let turn := modulo x 180
  if turn == 90 then .error .divideByZero
  else if turn == 0 then .double 0
  else .ofResult (toRadians x).tan

def asind (x : Float) : Value :=
  .ofResult <|
    if x == 1 then 90
    else if x == -1 then -90
    else if x == 0.5 then 30
    else if x == -0.5 then -30
    else if x == 0 then 0
    else toDegrees x.asin

def acosd (x : Float) : Value :=
  .ofResult <|
    if x == 1 then 0
    else if x == -1 then 180
    else if x == 0.5 then 60
    else if x == -0.5 then 120
    else if x == 0 then 90
    else toDegrees x.acos

def atand (x : Float) : Value :=
  .ofResult <|
    if x == 1 then 45
    else if x == -1 then -45
    else if x == 0 then 0
    else toDegrees x.atan

def power (base exponent : Float) : Value :=
  if base == 0 && exponent < 0 then .error .divideByZero
  else .ofScaledResult (base.pow exponent) (base != 0)

/-- The root of `x` of a degree; roots of odd degree exist for negative numbers too. -/
def root (x degree : Float) : Value :=
  if degree == 0 then .error .divideByZero
  else .ofResult <|
    if degree == 2 then x.sqrt
    else if degree == 3 then cubeRoot x
    else if x < 0 && isOddInteger degree then -((-x).pow (1 / degree))
    else x.pow (1 / degree)

def logarithm (x base : Float) : Value :=
  if base == 1 then .error .divideByZero
  else .ofResult <|
    if base == 2 then x.log2
    else if base == 10 then x.log10
    else x.log / base.log

end Double

open Double

def DoubleUnary.apply : DoubleUnary → Float → Value
  | neg, x => .ofResult (-x)
  | percent, x => .ofResult (x / 100)
  | fact, x => factorial x
  | sqrt, x => .ofResult x.sqrt
  | cbrt, x => .ofResult (cubeRoot x)
  | exp, x => .ofScaledResult x.exp true
  | ln, x => .ofResult x.log
  | log10, x => .ofResult x.log10
  | log2, x => .ofResult x.log2
  | sin, x => .ofResult x.sin
  | cos, x => .ofResult x.cos
  | tan, x => .ofResult x.tan
  | asin, x => .ofResult x.asin
  | acos, x => .ofResult x.acos
  | atan, x => .ofResult x.atan
  | sind, x => Double.sind x
  | cosd, x => Double.cosd x
  | tand, x => Double.tand x
  | asind, x => Double.asind x
  | acosd, x => Double.acosd x
  | atand, x => Double.atand x
  | sinh, x => .ofResult x.sinh
  | cosh, x => .ofResult x.cosh
  | tanh, x => .ofResult x.tanh
  | asinh, x => .ofResult x.asinh
  | acosh, x => .ofResult x.acosh
  | atanh, x => .ofResult x.atanh

def DoubleBinary.apply : DoubleBinary → Float → Float → Value
  | add, a, b => .ofResult (a + b)
  | sub, a, b => .ofResult (a - b)
  | mul, a, b => .ofScaledResult (a * b) (a != 0 && b != 0)
  | div, a, b =>
    if b == 0 then .error .divideByZero else .ofScaledResult (a / b) (a != 0)
  | pow, a, b => power a b
  | yroot, a, b => root a b
  | logy, a, b => logarithm a b

end DeskCalculator
