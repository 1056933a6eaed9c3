/-!
Positions in a text that count the bytes of its characters.
-/
namespace DeskCalculator

namespace Text

def byteLength : List Char → Nat
  | [] => 0
  | c :: rest => c.utf8Size + byteLength rest

theorem byteLength_append (cs ds : List Char) :
    byteLength (cs ++ ds) = byteLength cs + byteLength ds := by
  induction cs with
  | nil => simp [byteLength]
  | cons c cs ih => simp [byteLength, ih, Nat.add_assoc]

theorem byteLength_ofList (cs : List Char) : (String.ofList cs).utf8ByteSize = byteLength cs := by
  induction cs with
  | nil => simp [byteLength]
  | cons c cs ih =>
    rw [← List.singleton_append, String.ofList_append, String.utf8ByteSize_append, ih]
    simp [byteLength]

/-- The characters before a byte position; nothing if it lies inside a character. -/
def before? : Nat → List Char → Option (List Char)
  | 0, _ => some []
  | _ + 1, [] => none
  | pos, c :: rest =>
    if c.utf8Size ≤ pos then (before? (pos - c.utf8Size) rest).map (c :: ·) else none

def after? : Nat → List Char → Option (List Char)
  | 0, cs => some cs
  | _ + 1, [] => none
  | pos, c :: rest => if c.utf8Size ≤ pos then after? (pos - c.utf8Size) rest else none

theorem after?_byteLength (cs rest : List Char) :
    after? (byteLength cs) (cs ++ rest) = some rest := by
  induction cs with
  | nil => cases rest <;> rfl
  | cons c cs ih =>
    have size_pos := c.utf8Size_pos
    cases h : byteLength (c :: cs) with
    | zero => simp [byteLength] at h; omega
    | succ n =>
      have fits : c.utf8Size ≤ n + 1 := by simp [byteLength] at h; omega
      have left : n + 1 - c.utf8Size = byteLength cs := by simp [byteLength] at h; omega
      simp [after?, fits, left, ih]

end Text
end DeskCalculator
