/-!
White space as Unicode defines it, and cutting texts at it.
-/
namespace DeskCalculator

namespace Text

/-- Does a code point lie in one of the ranges? They ascend, so that the first that begins above it
ends the search. -/
def inRanges (n : Nat) : List (Nat × Nat) → Bool
  | [] => false
  | (low, high) :: rest => low ≤ n && (n ≤ high || inRanges n rest)

def blankRanges : List (Nat × Nat) :=
  [(0x9, 0xD), (0x20, 0x20), (0x85, 0x85), (0xA0, 0xA0), (0x1680, 0x1680), (0x2000, 0x200A),
    (0x2028, 0x2029), (0x202F, 0x202F), (0x205F, 0x205F), (0x3000, 0x3000)]

def isBlank (c : Char) : Bool := inRanges c.toNat blankRanges

/-- The words between the blanks; `begun` holds the one that has begun, its last character first. -/
def wordsFrom (begun : List Char) : List Char → List (List Char)
  | [] => if begun.isEmpty then [] else [begun.reverse]
  | c :: rest =>
    if isBlank c then
      if begun.isEmpty then wordsFrom [] rest else begun.reverse :: wordsFrom [] rest
    else wordsFrom (c :: begun) rest

def words (s : String) : List String := (wordsFrom [] s.toList).map String.ofList

def dropBlanks (cs : List Char) : List Char := cs.dropWhile isBlank

def trim (s : String) : String :=
  String.ofList (dropBlanks (dropBlanks s.toList).reverse).reverse

def splitAtBlank (s : String) : String × Option String :=
  let cs := s.toList
  let word := cs.takeWhile (! isBlank ·)
  (String.ofList word, match cs.drop word.length with
    | [] => none
    | _ :: rest => some (String.ofList rest))

end Text
end DeskCalculator
