import DeskCalculator.Text.GraphemeClass
/-!
Graphemes: the stretches of a text that a reader takes for one character. No character is lost
between them.
-/
namespace DeskCalculator

namespace Text

namespace Grapheme

/-- Is there an odd number of flag letters at the end? The characters of a grapheme that has begun
stand here and below with the last one first. -/
def awaitsFlag (begun : List Char) : Bool :=
  (begun.takeWhile (GraphemeClass.of · = .flag)).length % 2 = 1

/-- Is there a pictograph at the end, with marks perhaps, and a joiner? -/
def awaitsPictograph : List Char → Bool
  | [] => false
  | last :: before =>
    let base := (before.dropWhile fun c => (GraphemeClass.of c).isMark).head?
    GraphemeClass.of last = .joiner && base.any (GraphemeClass.of · = .pictograph)

/-- Is there a consonant at the end, with marks of which one binds it to the next? -/
def awaitsConsonant (begun : List Char) : Bool :=
  let marks := begun.takeWhile fun c => (GraphemeClass.of c).isInConjunct
  marks.any (GraphemeClass.of · = .linker) &&
    (begun.drop marks.length).head?.any (GraphemeClass.of · = .consonant)

def continues (begun : List Char) (next : Char) : Bool :=
  match begun with
  | [] => false
  | last :: _ =>
    let before := GraphemeClass.of last
    let after := GraphemeClass.of next
    if before = .control || after = .control then last = '\r' && next = '\n'
    else after.attaches || before = .prepended || before.formsSyllable after ||
      match after with
      | .flag => awaitsFlag begun
      | .pictograph => awaitsPictograph begun
      | .consonant => awaitsConsonant begun
      | _ => false

def add : List (List Char) → Char → List (List Char)
  | [], c => [[c]]
  | begun :: done, c => if continues begun c then (c :: begun) :: done else [c] :: begun :: done

theorem flatten_foldl_add (cs : List Char) (graphemes : List (List Char)) :
    (cs.foldl add graphemes).flatten = cs.reverse ++ graphemes.flatten := by
  induction cs generalizing graphemes with
  | nil => rfl
  | cons c rest ih =>
    have step : (add graphemes c).flatten = c :: graphemes.flatten := by
      cases graphemes with
      | nil => rfl
      | cons begun done => by_cases h : continues begun c <;> simp [add, h]
    simp [ih, step]

end Grapheme

def graphemes (cs : List Char) : List (List Char) :=
  ((cs.foldl Grapheme.add []).map List.reverse).reverse

theorem flatten_graphemes (cs : List Char) : (graphemes cs).flatten = cs := by
  have h := congrArg List.reverse (Grapheme.flatten_foldl_add cs [])
  simpa [graphemes, List.reverse_flatten] using h

end Text
end DeskCalculator
