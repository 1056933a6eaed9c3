/-!
How alike two words are, from zero to one: the share of characters that occur in both at about the
same place, with a bonus for a common beginning.
-/
namespace DeskCalculator

namespace Similarity

/-- Looks for a character among those not used up, between two positions, and uses it up. -/
def useFirst? (c : Char) (low high : Nat) :
    Nat → List (Char × Bool) → Option (Nat × List (Char × Bool))
  | _, [] => none
  | j, (d, used) :: rest =>
    if low ≤ j ∧ j ≤ high ∧ c = d ∧ !used then some (j, (d, true) :: rest)
    else (useFirst? c low high (j + 1) rest).map fun (k, rest) => (k, (d, used) :: rest)

structure Count where
  matched : Nat := 0
  transposed : Nat := 0
  /-- The position of the last match in the second word. -/
  last : Nat := 0

/-- Matches the characters of the first word from position `i` on, each at most `range` places
away. A match before the last one is a transposition. -/
def matchFrom (range : Nat) (i : Nat) (count : Count) (b : List (Char × Bool)) :
    List Char → Count
  | [] => count
  | c :: rest =>
    match useFirst? c (i - range) (i + range) 0 b with
    | some (j, b) =>
      let transposed := if j < count.last then count.transposed + 1 else count.transposed
      matchFrom range (i + 1) ⟨count.matched + 1, transposed, j⟩ b rest
    | none => matchFrom range (i + 1) count b rest

/-- The mean of the shares of matched characters in both words and of matches in order. -/
def jaro (a b : List Char) : Float :=
  if a.isEmpty ∧ b.isEmpty then 1
  else if a.isEmpty ∨ b.isEmpty then 0
  else if a.length = 1 ∧ b.length = 1 then (if a = b then 1 else 0)
  else
    let range := max a.length b.length / 2 - 1
    let count := matchFrom range 0 {} (b.map fun c => (c, false)) a
    if count.matched = 0 then 0
    else
      let m := Float.ofNat count.matched
      (1 / 3) * (m / Float.ofNat a.length + m / Float.ofNat b.length +
        (m - Float.ofNat count.transposed) / m)

def commonPrefixLength : List Char → List Char → Nat
  | c :: a, d :: b => if c = d then commonPrefixLength a b + 1 else 0
  | _, _ => 0

/-- The mean with a tenth of what is missing added for each common character at the beginning. -/
def jaroWinkler (a b : List Char) : Float :=
  let mean := jaro a b
  let score := mean + 0.1 * Float.ofNat (commonPrefixLength a b) * (1 - mean)
  if score ≤ 1 then score else 1

end Similarity
end DeskCalculator
