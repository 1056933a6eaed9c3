import DeskCalculator.Double.Basic
/-!
Pseudo-random 64-bit words, each mixed from a counter that runs through all states.
-/
namespace DeskCalculator

structure Random where
  state : UInt64
deriving DecidableEq, Repr, Inhabited

namespace Random

def increment : UInt64 := 0x9E3779B97F4A7C15

def mix (z : UInt64) : UInt64 :=
  let z := (z ^^^ (z >>> 30)) * 0xBF58476D1CE4E5B9
  let z := (z ^^^ (z >>> 27)) * 0x94D049BB133111EB
  z ^^^ (z >>> 31)

def next (r : Random) : UInt64 × Random :=
  let state := r.state + increment
  (mix state, ⟨state⟩)

/-- A double from zero up to, but not including, one: the upper 53 bits as a fraction. -/
def unitDouble (word : UInt64) : Float := Double.ofRatio false (word >>> 11).toNat 0x20000000000000

end Random
end DeskCalculator
