import DeskCalculator.Text.Grapheme
import DeskCalculator.Text.Position
/-!
Backspaces in a line that has been typed: each takes back the grapheme before it, and a short
grapheme is taken back whole.
-/
namespace DeskCalculator

namespace Text

/-- A line while it is typed: its characters with the last one first, and the sizes of its
graphemes, the last one first too. -/
structure TypedLine where
  typed : List Char := []
  sizes : List Nat := []
deriving DecidableEq, Repr

namespace TypedLine

def backspace : List Char := ['\x08']

def sizeModulus : Nat := 256

/-- Types a grapheme. A backspace takes back as many bytes as the size of the last grapheme says,
which fails inside a character; with nothing typed it does nothing. -/
def type (line : TypedLine) (grapheme : List Char) : Option TypedLine :=
  if grapheme = backspace then
    match line.sizes with
    | [] => some line
    | size :: sizes => (after? size line.typed).map fun typed => { typed, sizes }
  else some
    { typed := grapheme.reverse ++ line.typed
      sizes := byteLength grapheme % sizeModulus :: line.sizes }

end TypedLine

/-- The line that is left of a typed one; nothing if a backspace ends inside a character. -/
def applyBackspaces (line : String) : Option String :=
  ((graphemes line.toList).foldlM TypedLine.type {}).map fun l => String.ofList l.typed.reverse

end Text
end DeskCalculator
