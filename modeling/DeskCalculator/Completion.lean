import DeskCalculator.Keystroke
import DeskCalculator.Text.Blank
import DeskCalculator.Text.Position
/-!
Completing the word at the cursor to the name of a key or a command. Positions count bytes.
-/
namespace DeskCalculator

namespace Completion

open Text

def commands : List String := [":help", ":quit", ":stack", ":tape", ":clear-tape", ":eval"]

/-- Keeps the first of equal neighbours. -/
def dropRepeats : List String → List String
  | a :: b :: rest => if a = b then dropRepeats (b :: rest) else a :: dropRepeats (b :: rest)
  | names => names

def names : List String :=
  dropRepeats ((Keystroke.names ++ commands).mergeSort fun a b => a ≤ b)

/-- The byte position after the first byte of the last blank, from which the word is taken. -/
def wordStart (before : List Char) : Nat :=
  match (before.reverse.dropWhile (! Text.isBlank ·)).reverse with
  | [] => 0
  | upToBlank => byteLength upToBlank.dropLast + 1

/-- The word before the cursor, if it starts at a character. -/
def word? (before : List Char) : Option (List Char) := after? (wordStart before) before

/-- Small letters, as far as names of ASCII characters can tell: two letters outside ASCII have
small forms in it. -/
def lowerChar (c : Char) : List Char :=
  if c.toNat = 0x212A then ['k']
  else if c.toNat = 0x130 then ['i', Char.ofNat 0x307]
  else [c.toLower]

/-- A misspelling has to be more alike than this, and counts for this much of its likeness. -/
def misspelling : Float := 0.8

/-- How well a name completes a word: fully if it begins with it. -/
def score? (word : List Char) (name : String) : Option Float :=
  if word.isPrefixOf name.toList then some 1
  else
    let likeness := Similarity.jaroWinkler name.toList word
    if likeness > misspelling then some (likeness * misspelling) else none

/-- The names for a word, the best first; equally good ones in their order. -/
def candidates (word : List Char) : List String :=
  if word.isEmpty then []
  else
    let lower := word.flatMap lowerChar
    let scored := names.filterMap fun name => (score? lower name).map fun score => (score, name)
    (scored.mergeSort fun a b => b.1 ≤ a.1).map (·.2)

/-- The position where the word before the cursor starts, with the candidates for it. There is no
answer if the line had to be cut within a character. -/
def complete? (line : String) (pos : Nat) : Option (Nat × List String) :=
  (before? pos line.toList).bind fun before =>
    (word? before).map fun word => (wordStart before, candidates word)

/-- The shortest word that gets a hint, in bytes. -/
def minHinted : Nat := 2

/-- What is missing from a word to the first longer name that begins with it. -/
def hintFor (word : List Char) : Option String :=
  if minHinted ≤ byteLength word then
    let longer := fun (name : String) => word.isPrefixOf name.toList ∧ word.length < name.length
    (names.find? longer).map fun name => String.ofList (name.toList.drop word.length)
  else none

/-- The hint for the word before the cursor, if there is one, given only at the end of the line.
There is no answer if the line had to be cut within a character. -/
def hint? (line : String) (pos : Nat) : Option (Option String) :=
  if pos < line.utf8ByteSize then some none
  else ((before? pos line.toList).bind word?).map hintFor

end Completion
end DeskCalculator
