import DeskCalculator.Completion
import Mathlib
/-!
The word before the cursor, which is completed. Main statement: `Completion.wordStart_lastWord` says
that the word is found exactly if the blank before it, if there is one, takes a single byte, and what
a hint is made of.
-/
namespace DeskCalculator

namespace Text

variable {pos : Nat} {cs ds : List Char} {c : Char}

/-! Positions between characters. -/

/-- Is a byte position at the start of a character or at the end of the text? -/
def IsBoundary (cs : List Char) (pos : Nat) : Prop :=
  ∃ front back, cs = front ++ back ∧ byteLength front = pos

theorem before?_cons_add (c : Char) (rest : List Char) (pos : Nat) :
    before? (c.utf8Size + pos) (c :: rest) = (before? pos rest).map (c :: ·) := by
  obtain ⟨n, hn⟩ := Nat.exists_eq_add_of_lt c.utf8Size_pos
  rw [before?, if_pos (Nat.le_add_right _ _), Nat.add_sub_cancel_left]
  omega

theorem after?_cons_add (c : Char) (rest : List Char) (pos : Nat) :
    after? (c.utf8Size + pos) (c :: rest) = after? pos rest := by
  obtain ⟨n, hn⟩ := Nat.exists_eq_add_of_lt c.utf8Size_pos
  rw [after?, if_pos (Nat.le_add_right _ _), Nat.add_sub_cancel_left]
  omega

theorem before?_byteLength (cs rest : List Char) :
    before? (byteLength cs) (cs ++ rest) = some cs := by
  induction cs with
  | nil => cases rest <;> rfl
  | cons c cs ih => rw [byteLength, List.cons_append, before?_cons_add, ih, Option.map_some]

theorem after?_byteLength_add (cs ds : List Char) (pos : Nat) :
    after? (byteLength cs + pos) (cs ++ ds) = after? pos ds := by
  induction cs with
  | nil => rw [byteLength, Nat.zero_add, List.nil_append]
  | cons c cs ih => rw [byteLength, List.cons_append, Nat.add_assoc, after?_cons_add, ih]

/-- One byte into a character a text can be cut only if the character takes a single byte. -/
theorem after?_one (c : Char) (ds : List Char) :
    after? 1 (c :: ds) = if c.utf8Size = 1 then some ds else none := by
  have hpos := c.utf8Size_pos
  split
  · rename_i hsize
    rw [← hsize, ← Nat.add_zero c.utf8Size, after?_cons_add, after?]
  · rw [after?, if_neg (by omega)]
    omega

/-- A text can be cut exactly between characters. -/
theorem exists_after?_eq_some_iff : (∃ rest, after? pos cs = some rest) ↔ IsBoundary cs pos := by
  constructor
  · rintro ⟨rest, h⟩
    fun_induction after? pos cs with
    | case1 cs => exact ⟨[], cs, rfl, rfl⟩
    | case2 => cases h
    | case3 pos c cs hpos hfits ih =>
      obtain ⟨front, back, rfl, hfront⟩ := ih h
      exact ⟨c :: front, back, rfl, by rw [byteLength, hfront, Nat.add_sub_cancel' hfits]⟩
    | case4 => cases h
  · rintro ⟨front, back, rfl, rfl⟩
    exact ⟨back, after?_byteLength front back⟩

end Text

namespace Completion

open Text

variable {before front u : List Char} {c : Char}

/-! The word. -/

def lastWord (before : List Char) : List Char :=
  (before.reverse.takeWhile (! isBlank ·)).reverse

def upToBlank (before : List Char) : List Char :=
  (before.reverse.dropWhile (! isBlank ·)).reverse

theorem upToBlank_append_lastWord (before : List Char) :
    upToBlank before ++ lastWord before = before := by
  rw [upToBlank, lastWord, ← List.reverse_append, List.takeWhile_append_dropWhile,
    List.reverse_reverse]

theorem isBlank_of_mem_lastWord : ∀ c ∈ lastWord before, isBlank c = false := by
  intro c hc
  have hword := List.mem_takeWhile_imp (List.mem_reverse.1 hc)
  simpa using hword

theorem isSuffix_lastWord (hu : u <:+ before) (hplain : ∀ c ∈ u, isBlank c = false) :
    u <:+ lastWord before := by
  obtain ⟨front, rfl⟩ := hu
  have hall : ∀ c ∈ u.reverse, (! isBlank c) = true := fun c hc => by
    simp [hplain c (List.mem_reverse.1 hc)]
  refine ⟨lastWord front, ?_⟩
  rw [lastWord, lastWord, List.reverse_append, List.takeWhile_append_of_pos hall,
    List.reverse_append, List.reverse_reverse]

/-- Before the word stands nothing or a blank. -/
theorem upToBlank_eq (before : List Char) :
    upToBlank before = [] ∨ ∃ front c, isBlank c ∧ upToBlank before = front ++ [c] := by
  rw [upToBlank]
  cases h : before.reverse.dropWhile (! isBlank ·) with
  | nil => exact .inl rfl
  | cons c rest =>
    have hblank := List.head?_dropWhile_not (! isBlank ·) before.reverse
    rw [h] at hblank
    refine .inr ⟨rest.reverse, c, by simpa using hblank, List.reverse_cons⟩

/-- Is there nothing before the word, or a blank of a single byte? -/
def FollowsByte (before : List Char) : Prop := ∀ c ∈ (upToBlank before).getLast?, c.utf8Size = 1

theorem wordStart_of_eq_nil (h : upToBlank before = []) : wordStart before = 0 := by
  unfold wordStart
  rw [← upToBlank, h]

theorem wordStart_of_eq_append (h : upToBlank before = front ++ [c]) :
    wordStart before = byteLength front + 1 := by
  unfold wordStart
  rw [← upToBlank, h]
  split
  · rename_i hnil
    exact absurd hnil (by simp)
  · rw [List.dropLast_concat]

/-- The word starts one byte into the blank, which is where the blank ends or within it. -/
theorem after?_wordStart (before after : List Char) :
    FollowsByte before ∧ wordStart before + byteLength (lastWord before) = byteLength before ∧
        after? (wordStart before) (before ++ after) = some (lastWord before ++ after) ∨
      ¬ FollowsByte before ∧ wordStart before ≤ byteLength before ∧
        after? (wordStart before) (before ++ after) = none := by
  have happend := upToBlank_append_lastWord before
  rcases upToBlank_eq before with hfront | ⟨front, c, -, hfront⟩
  · rw [hfront, List.nil_append] at happend
    rw [wordStart_of_eq_nil hfront, happend]
    exact .inl ⟨by simp [FollowsByte, hfront], Nat.zero_add _, by rw [after?]⟩
  · have hsplit (after : List Char) :
        before ++ after = front ++ c :: (lastWord before ++ after) := by
      conv_lhs => rw [← happend, hfront]
      simp
    have hlength := congrArg byteLength (hsplit [])
    rw [List.append_nil, List.append_nil, byteLength_append, byteLength] at hlength
    have hbyte : FollowsByte before ↔ c.utf8Size = 1 := by simp [FollowsByte, hfront]
    have hpos := c.utf8Size_pos
    rw [wordStart_of_eq_append hfront, hsplit, after?_byteLength_add, after?_one, hbyte, hlength]
    by_cases hsize : c.utf8Size = 1
    · exact .inl ⟨hsize, by omega, if_pos hsize⟩
    · exact .inr ⟨hsize, by omega, if_neg hsize⟩

theorem isBoundary_wordStart_iff (before after : List Char) :
    IsBoundary (before ++ after) (wordStart before) ↔ FollowsByte before := by
  rw [← exists_after?_eq_some_iff]
  rcases after?_wordStart before after with ⟨hbyte, -, htake⟩ | ⟨hbyte, -, htake⟩ <;>
    simp [hbyte, htake]

theorem wordStart_le (before : List Char) : wordStart before ≤ byteLength before := by
  rcases after?_wordStart before [] with ⟨-, hlength, -⟩ | ⟨-, hle, -⟩
  · exact Nat.le.intro hlength
  · exact hle

theorem word?_eq_some (h : FollowsByte before) :
    word? before = some (lastWord before) ∧
      wordStart before + byteLength (lastWord before) = byteLength before := by
  rcases after?_wordStart before [] with ⟨-, hlength, htake⟩ | ⟨hbyte, -, -⟩
  · rw [List.append_nil, List.append_nil] at htake
    exact ⟨htake, hlength⟩
  · exact absurd h hbyte

theorem word?_eq_none (h : ¬ FollowsByte before) : word? before = none := by
  rcases after?_wordStart before [] with ⟨hbyte, -, -⟩ | ⟨-, -, htake⟩
  · exact absurd hbyte h
  · rwa [List.append_nil] at htake

theorem complete?_eq (before after : List Char) :
    complete? (String.ofList (before ++ after)) (byteLength before) =
      (word? before).map fun word => (wordStart before, candidates word) := by
  rw [complete?, String.toList_ofList, before?_byteLength, Option.bind_some]

theorem hint?_eq (before after : List Char) :
    hint? (String.ofList (before ++ after)) (byteLength before) =
      if after = [] then (word? before).map hintFor else some none := by
  have hend : byteLength before < (String.ofList (before ++ after)).utf8ByteSize ↔ after ≠ [] := by
    rw [byteLength_ofList, byteLength_append, Nat.lt_add_right_iff_pos]
    cases after with
    | nil => simp [byteLength]
    | cons c after => simp [byteLength, c.utf8Size_pos]
  rw [hint?, String.toList_ofList, before?_byteLength, Option.bind_some]
  simp only [hend, ite_not]

/-! Hints. -/

theorem mem_dropRepeats {name : String} {names : List String} :
    name ∈ dropRepeats names ↔ name ∈ names := by
  fun_induction dropRepeats names with
  | case1 a rest ih => simp [ih]
  | case2 a b rest hne ih => simp [ih]
  | case3 => rfl

theorem mem_names {name : String} : name ∈ names ↔ name ∈ Keystroke.names ∨ name ∈ commands := by
  rw [names, mem_dropRepeats, List.mem_mergeSort, List.mem_append]

/-- Is this what is missing from a word to the name of a key or a command? -/
def Completes (word rest : List Char) : Prop :=
  rest ≠ [] ∧ ∃ name, (name ∈ Keystroke.names ∨ name ∈ commands) ∧ name.toList = word ++ rest

theorem isLonger_iff {word : List Char} {name : String} :
    word.isPrefixOf name.toList ∧ word.length < name.length ↔
      ∃ rest, rest ≠ [] ∧ name.toList = word ++ rest := by
  rw [List.isPrefixOf_iff_prefix, ← String.length_toList]
  constructor
  · rintro ⟨⟨rest, hrest⟩, hlength⟩
    refine ⟨rest, ?_, hrest.symm⟩
    rintro rfl
    rw [← hrest, List.append_nil] at hlength
    exact Nat.lt_irrefl _ hlength
  · rintro ⟨rest, hne, hrest⟩
    rw [hrest, List.length_append]
    exact ⟨List.prefix_append _ _, Nat.lt_add_of_pos_right (List.length_pos_iff.2 hne)⟩

theorem completes_of_hintFor {word : List Char} {text : String} (h : hintFor word = some text) :
    Completes word text.toList := by
  rw [hintFor] at h
  split at h
  · obtain ⟨name, hfound, rfl⟩ := Option.map_eq_some_iff.1 h
    have hlonger : word.isPrefixOf name.toList ∧ word.length < name.length :=
      of_decide_eq_true (by simpa only using List.find?_some hfound)
    obtain ⟨rest, hne, hrest⟩ := isLonger_iff.1 hlonger
    rw [hrest, List.drop_left, String.toList_ofList]
    exact ⟨hne, name, mem_names.1 (List.mem_of_find?_eq_some hfound), hrest⟩
  · cases h

/-- There is a hint for each word of two bytes or more from which something is missing. -/
theorem exists_hintFor_eq_some_iff {word : List Char} : (∃ text, hintFor word = some text) ↔
    minHinted ≤ byteLength word ∧ ∃ rest, Completes word rest := by
  constructor
  · rintro ⟨text, h⟩
    refine ⟨?_, text.toList, completes_of_hintFor h⟩
    by_contra hshort
    rw [hintFor, if_neg hshort] at h
    cases h
  · rintro ⟨hmin, rest, hne, name, hname, hrest⟩
    have hsome := List.find?_isSome (p := fun (name : String) =>
      decide (word.isPrefixOf name.toList ∧ word.length < name.length)).2
      ⟨name, mem_names.2 hname, decide_eq_true (isLonger_iff.2 ⟨rest, hne, hrest⟩)⟩
    obtain ⟨found, hfound⟩ := Option.isSome_iff_exists.1 hsome
    rw [hintFor, if_pos hmin]
    exact ⟨_, Option.map_eq_some_iff.2 ⟨found, hfound, rfl⟩⟩

/-! Any line. -/

/-- Of any line, with the cursor between two characters. The word is the longest text before the
cursor without a blank. The position given for its start is not behind the cursor, and it is between
two characters exactly if before the word there is nothing or a blank of a single byte; then the text
from there to the cursor is the word, which is completed and, at the end of the line, hinted at. Else
the line would have to be cut within a blank, and there is no answer, except that within the line no
hint is looked for. A hint is what is missing from the word to the name of a key or a command, and
words of two bytes or more get one if they can. -/
theorem wordStart_lastWord (before after : List Char) :
    let line := String.ofList (before ++ after)
    let pos := byteLength before
    let start := wordStart before
    let word := lastWord before
    (word <:+ before ∧ (∀ c ∈ word, isBlank c = false) ∧
      ∀ u, u <:+ before → (∀ c ∈ u, isBlank c = false) → u <:+ word) ∧
    start ≤ pos ∧ (IsBoundary line.toList start ↔ FollowsByte before) ∧
    (FollowsByte before → start + byteLength word = pos ∧ word? before = some word ∧
      complete? line pos = some (start, candidates word) ∧
      hint? line pos = some (if after = [] then hintFor word else none)) ∧
    (¬ FollowsByte before → word? before = none ∧ complete? line pos = none ∧
      hint? line pos = if after = [] then none else some none) ∧
    (∀ text, hint? line pos = some (some text) → Completes word text.toList) ∧
    ((∃ text, hint? line pos = some (some text)) ↔ FollowsByte before ∧ after = [] ∧
      minHinted ≤ byteLength word ∧ ∃ rest, Completes word rest) := by
  intro line pos start word
  have hcomplete : complete? line pos = _ := complete?_eq before after
  have hhint : hint? line pos = _ := hint?_eq before after
  refine ⟨⟨?_, isBlank_of_mem_lastWord, fun u => isSuffix_lastWord⟩, wordStart_le before, ?_, ?_⟩
  · exact ⟨upToBlank before, upToBlank_append_lastWord before⟩
  · rw [String.toList_ofList]
    exact isBoundary_wordStart_iff before after
  rw [hcomplete, ← exists_hintFor_eq_some_iff]
  by_cases hbyte : FollowsByte before
  · obtain ⟨hword, hlength⟩ := word?_eq_some hbyte
    have hsome : hint? line pos = some (if after = [] then hintFor word else none) := by
      rw [hhint, hword, Option.map_some]
      split <;> rfl
    rw [hsome, hword, Option.map_some]
    refine ⟨fun _ => ⟨hlength, rfl, rfl, rfl⟩, absurd hbyte, ?_, ?_⟩
    · intro text htext
      exact completes_of_hintFor (Option.ite_none_right_eq_some.1 (Option.some.inj htext)).2
    · simp [hbyte]
  · rw [hhint, word?_eq_none hbyte, Option.map_none, Option.map_none]
    refine ⟨fun h => absurd h hbyte, fun _ => ⟨rfl, rfl, rfl⟩, ?_, ?_⟩
    · intro text htext
      split at htext <;> cases htext
    · simp [hbyte]

/-- A blank of two bytes before the word: its second byte is no place to cut the line at. -/
theorem not_isBoundary_wordStart : ¬ ∀ before after : List Char,
    let line := String.ofList (before ++ after)
    let start := wordStart before
    IsBoundary line.toList start ∧ (complete? line (byteLength before)).isSome := by
  intro h
  obtain ⟨-, hsome⟩ := h ['\u00a0', 's', 'q'] []
  have hnone : word? ['\u00a0', 's', 'q'] = none := by decide
  rw [complete?_eq, hnone] at hsome
  cases hsome

end Completion
end DeskCalculator
