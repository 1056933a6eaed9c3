import DeskCalculator.Double.Basic
/-!
The double nearest to a cube root, taken on the exact value.
-/
namespace DeskCalculator

def cube (n : Nat) : Nat := n * n * n

/-- Adds to `root` the powers of two below `2 ^ bits` that keep its cube within `n`. -/
def extendCubeRoot (n : Nat) : Nat → Nat → Nat
  | 0, root => root
  | bits + 1, root =>
    let next := root + 1 <<< bits
    extendCubeRoot n bits (if cube next ≤ n then next else root)

def wholeCubeRoot (n : Nat) : Nat := extendCubeRoot n (n.log2 / 3 + 1) 0

theorem cube_extendCubeRoot_le {n root : Nat} (bits : Nat) (h : cube root ≤ n) :
    cube (extendCubeRoot n bits root) ≤ n := by
  induction bits generalizing root with
  | zero => exact h
  | succ bits ih =>
    simp only [extendCubeRoot]
    split
    · exact ih ‹_›
    · exact ih h

theorem lt_cube_extendCubeRoot_succ {n root : Nat} (bits : Nat) (h : n < cube (root + 1 <<< bits)) :
    n < cube (extendCubeRoot n bits root + 1) := by
  induction bits generalizing root with
  | zero => exact h
  | succ bits ih =>
    simp only [extendCubeRoot]
    split
    · refine ih ?_
      rw [Nat.shiftLeft_succ] at h
      rwa [Nat.add_assoc, ← Nat.two_mul]
    · exact ih (Nat.lt_of_not_le ‹_›)

theorem cube_wholeCubeRoot_le (n : Nat) : cube (wholeCubeRoot n) ≤ n :=
  cube_extendCubeRoot_le _ (Nat.zero_le n)

theorem lt_cube_wholeCubeRoot_succ (n : Nat) : n < cube (wholeCubeRoot n + 1) := by
  refine lt_cube_extendCubeRoot_succ _ ?_
  rw [Nat.zero_add, cube, Nat.one_shiftLeft, ← Nat.pow_add, ← Nat.pow_add]
  exact Nat.lt_of_lt_of_le n.lt_log2_self (Nat.pow_le_pow_right (by decide) (by omega))

namespace Double

/-- The bits by which the root is longer than that of the significand, more than a double holds. -/
def cubeRootBits : Nat := 55

/-- The double nearest to the cube root. The bits that the whole root leaves out are not all zero
unless it is exact, and a last bit of one stands for them; no root lies halfway between doubles. -/
def cubeRoot (x : Float) : Float :=
  if x.isFinite then
    let d := dyadic x
    let n := d.significand <<< (3 * cubeRootBits + (d.exponent % 3).toNat)
    let root := wholeCubeRoot n
    let rest := if cube root < n then 1 else 0
    ofDyadic ⟨d.negative, 2 * root + rest, d.exponent / 3 - cubeRootBits - 1⟩
  else x

end Double
end DeskCalculator
