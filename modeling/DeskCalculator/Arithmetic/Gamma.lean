import DeskCalculator.Double.Basic
/-!
The gamma function by a Lanczos sum, reflected below one half.
-/
namespace DeskCalculator

namespace Gamma

def pi : Float := 3.141592653589793
def e : Float := 2.718281828459045

/-- Twice the square root of `e / pi`. -/
def scale : Float := 1.8603827342052657

def shift : Float := 10.900511

def firstCoefficient : Float := 2.4857408913875355e-5

def coefficients : List Float :=
  [1.0514237858172197,
    -3.4568709722201625,
    4.512277094668948,
    -2.9828522532357664,
    1.056397115771267,
    -1.9542877319164587e-1,
    1.709705434044412e-2,
    -5.719261174043057e-4,
    4.633994733599057e-6,
    -2.7199490848860772e-9]

/-- Adds the terms `c / (x + k - 1)`, with `k` counted on from the given one. -/
def sumFrom (x : Float) : Float → Float → List Float → Float
  | s, _, [] => s
  | s, k, c :: rest => sumFrom x (s + c / (x + k - 1)) (k + 1) rest

def lanczosSum (x : Float) : Float := sumFrom x firstCoefficient 1 coefficients

end Gamma

open Gamma in
def gamma (x : Float) : Float :=
  if x < 0.5 then
    let s := lanczosSum (1 - x)
    pi / ((pi * x).sin * s * scale * ((0.5 - x + shift) / e).pow (0.5 - x))
  else
    let s := lanczosSum x
    s * scale * ((x - 0.5 + shift) / e).pow (x - 0.5)

end DeskCalculator
