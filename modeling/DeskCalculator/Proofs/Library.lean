import DeskCalculator.Arithmetic.Double
/-!
The operations on doubles over any mathematical library: each function of the library may answer
with whatever double it likes. Main statements: `Double.Library.unary_standard` and
`Double.Library.binary_standard` say that the operations of the machine are those over the functions
that it uses.
-/
namespace DeskCalculator
namespace Double

/-- The functions on doubles that are taken from a library. -/
structure Library where
  fraction : Float → Float
  modulo : Float → Float → Float
  toRadians : Float → Float
  toDegrees : Float → Float
  pow : Float → Float → Float
  sqrt : Float → Float
  cbrt : Float → Float
  exp : Float → Float
  ln : Float → Float
  log10 : Float → Float
  log2 : Float → Float
  sin : Float → Float
  cos : Float → Float
  tan : Float → Float
  asin : Float → Float
  acos : Float → Float
  atan : Float → Float
  sinh : Float → Float
  cosh : Float → Float
  tanh : Float → Float
  asinh : Float → Float
  acosh : Float → Float
  atanh : Float → Float

namespace Library

def standard : Library where
  fraction := Double.fraction
  modulo := Double.modulo
  toRadians := Double.toRadians
  toDegrees := Double.toDegrees
  pow := Float.pow
  sqrt := Float.sqrt
  cbrt := cubeRoot
  exp := Float.exp
  ln := Float.log
  log10 := Float.log10
  log2 := Float.log2
  sin := Float.sin
  cos := Float.cos
  tan := Float.tan
  asin := Float.asin
  acos := Float.acos
  atan := Float.atan
  sinh := Float.sinh
  cosh := Float.cosh
  tanh := Float.tanh
  asinh := Float.asinh
  acosh := Float.acosh
  atanh := Float.atanh

variable (l : Library)

open Gamma in
def gamma (x : Float) : Float :=
  if x < 0.5 then
    let s := lanczosSum (1 - x)
    pi / (l.sin (pi * x) * s * scale * l.pow ((0.5 - x + shift) / e) (0.5 - x))
  else
    let s := lanczosSum x
    s * scale * l.pow ((x - 0.5 + shift) / e) (x - 0.5)

def factorial (x : Float) : Value :=
  if x.isNaN then .error .unknown
  else if l.fraction x == 0 then
    if x < 0 then .error .unknown
    else if x > maxFactorial then .error .overflow
    else .double (factorialProduct (dyadic x).whole)
  else .ofResult (l.gamma (x + 1))

def sind (x : Float) : Value :=
  let turn := l.modulo x 360
  .ofResult <|
    if turn == 0 || turn == 180 then 0
    else if turn == 90 then 1
    else if turn == 270 then -1
    else l.sin (l.toRadians x)

def cosd (x : Float) : Value :=
  let turn := l.modulo x 360
  .ofResult <|
    if turn == 0 then 1
    else if turn == 180 then -1
    else if turn == 90 || turn == 270 then 0
    else l.cos (l.toRadians x)

def tand (x : Float) : Value :=
  let turn := l.modulo x 180
  if turn == 90 then .error .divideByZero
  else if turn == 0 then .double 0
  else .ofResult (l.tan (l.toRadians x))

def asind (x : Float) : Value :=
  .ofResult <|
    if x == 1 then 90
    else if x == -1 then -90
    else if x == 0.5 then 30
    else if x == -0.5 then -30
    else if x == 0 then 0
    else l.toDegrees (l.asin x)

def acosd (x : Float) : Value :=
  .ofResult <|
    if x == 1 then 0
    else if x == -1 then 180
    else if x == 0.5 then 60
    else if x == -0.5 then 120
    else if x == 0 then 90
    else l.toDegrees (l.acos x)

def atand (x : Float) : Value :=
  .ofResult <|
    if x == 1 then 45
    else if x == -1 then -45
    else if x == 0 then 0
    else l.toDegrees (l.atan x)

def power (base exponent : Float) : Value :=
  if base == 0 && exponent < 0 then .error .divideByZero
  else .ofScaledResult (l.pow base exponent) (base != 0)

def isOddInteger (x : Float) : Bool := l.fraction x == 0 && l.modulo x 2 == 1

def root (x degree : Float) : Value :=
  if degree == 0 then .error .divideByZero
  else .ofResult <|
    if degree == 2 then l.sqrt x
    else if degree == 3 then l.cbrt x
    else if x < 0 && l.isOddInteger degree then -l.pow (-x) (1 / degree)
    else l.pow x (1 / degree)

def logarithm (x base : Float) : Value :=
  if base == 1 then .error .divideByZero
  else .ofResult <|
    if base == 2 then l.log2 x
    else if base == 10 then l.log10 x
    else l.ln x / l.ln base

def unary : DoubleUnary → Float → Value
  | .neg, x => .ofResult (-x)
  | .percent, x => .ofResult (x / 100)
  | .fact, x => l.factorial x
  | .sqrt, x => .ofResult (l.sqrt x)
  | .cbrt, x => .ofResult (l.cbrt x)
  | .exp, x => .ofScaledResult (l.exp x) true
  | .ln, x => .ofResult (l.ln x)
  | .log10, x => .ofResult (l.log10 x)
  | .log2, x => .ofResult (l.log2 x)
  | .sin, x => .ofResult (l.sin x)
  | .cos, x => .ofResult (l.cos x)
  | .tan, x => .ofResult (l.tan x)
  | .asin, x => .ofResult (l.asin x)
  | .acos, x => .ofResult (l.acos x)
  | .atan, x => .ofResult (l.atan x)
  | .sind, x => l.sind x
  | .cosd, x => l.cosd x
  | .tand, x => l.tand x
  | .asind, x => l.asind x
  | .acosd, x => l.acosd x
  | .atand, x => l.atand x
  | .sinh, x => .ofResult (l.sinh x)
  | .cosh, x => .ofResult (l.cosh x)
  | .tanh, x => .ofResult (l.tanh x)
  | .asinh, x => .ofResult (l.asinh x)
  | .acosh, x => .ofResult (l.acosh x)
  | .atanh, x => .ofResult (l.atanh x)

def binary : DoubleBinary → Float → Float → Value
  | .add, a, b => .ofResult (a + b)
  | .sub, a, b => .ofResult (a - b)
  | .mul, a, b => .ofScaledResult (a * b) (a != 0 && b != 0)
  | .div, a, b =>
    if b == 0 then .error .divideByZero else .ofScaledResult (a / b) (a != 0)
  | .pow, a, b => l.power a b
  | .yroot, a, b => l.root a b
  | .logy, a, b => l.logarithm a b

theorem unary_standard (f : DoubleUnary) (x : Float) : standard.unary f x = f.apply x := by
  cases f <;> rfl

theorem binary_standard (f : DoubleBinary) (a b : Float) :
    standard.binary f a b = f.apply a b := by
  cases f <;> rfl

end Library
end Double
end DeskCalculator
