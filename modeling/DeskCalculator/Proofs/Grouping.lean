import DeskCalculator.Proofs.Denotation
import DeskCalculator.Proofs.Rendering
/-!
Groups of digits. Main statement: `Base.group_texts` says that groups are of the size of the base
but for the first one, and that a number shown with separators has them in its whole part alone.
-/
namespace DeskCalculator

namespace Base

variable {b : Base} {cs first : List Char} {others : List (List Char)}

/-! Grouping a text. -/

/-- Groups of the base's size, the first of which may be smaller. -/
structure Regular (b : Base) (first : List Char) (others : List (List Char)) : Prop where
  length_pos : 0 < first.length
  length_le : first.length ≤ b.groupSize
  length_eq : ∀ g ∈ others, g.length = b.groupSize

/-- The groups after the first one do not count for the remainder. -/
theorem Regular.length_flatten_mod (h : b.Regular first others) :
    (first :: others).flatten.length % b.groupSize = first.length % b.groupSize := by
  have hothers := h.length_eq
  clear h
  induction others with
  | nil => simp
  | cons g others ih =>
    have hrest := ih fun g' hg' => hothers g' (List.mem_cons_of_mem _ hg')
    simp only [List.flatten_cons, List.length_append] at hrest ⊢
    rw [hothers g List.mem_cons_self, Nat.add_left_comm, Nat.add_mod_left, hrest]

theorem Regular.length_eq_iff (h : b.Regular first others) :
    first.length = b.groupSize ↔ (first :: others).flatten.length % b.groupSize = 0 := by
  rw [h.length_flatten_mod]
  constructor
  · intro heq
    rw [heq, Nat.mod_self]
  · intro hmod
    refine h.length_le.lt_or_eq.resolve_left fun hlt => ?_
    rw [Nat.mod_eq_of_lt hlt] at hmod
    exact Nat.ne_of_gt h.length_pos hmod

theorem intercalate_cons_cons (c s : Char) (first : List Char) (others : List (List Char)) :
    [s].intercalate ((c :: first) :: others) = c :: [s].intercalate (first :: others) := by
  cases others <;> simp [List.intercalate]

theorem exists_groups (hne : cs ≠ []) : ∃ first others, b.Regular first others ∧
    b.group cs = [b.separator].intercalate (first :: others) ∧ (first :: others).flatten = cs := by
  have hsize := b.groupSize_pos
  fun_induction group b cs with
  | case1 => exact absurd rfl hne
  | case2 c => exact ⟨[c], [], ⟨Nat.one_pos, hsize, by simp⟩, rfl, rfl⟩
  | case3 c d rest hwhole ih =>
    -- The digits so far are in whole groups, and the next one begins another group.
    obtain ⟨first, others, hregular, hgroup, hflatten⟩ := ih (List.cons_ne_nil _ _)
    have hfirst := hregular.length_eq_iff.2 (hflatten ▸ hwhole)
    refine ⟨[c], first :: others, ⟨Nat.one_pos, hsize, ?_⟩, ?_, ?_⟩
    · exact List.forall_mem_cons.2 ⟨hfirst, hregular.length_eq⟩
    · rw [hgroup]
      simp [List.intercalate]
    · rw [List.flatten_cons, hflatten]
      rfl
  | case4 c d rest hbroken ih =>
    -- There is room in the first group.
    obtain ⟨first, others, hregular, hgroup, hflatten⟩ := ih (List.cons_ne_nil _ _)
    have hfirst := mt hregular.length_eq_iff.1 (hflatten ▸ hbroken)
    refine ⟨c :: first, others, ⟨Nat.succ_pos _, ?_, hregular.length_eq⟩, ?_, ?_⟩
    · exact Nat.lt_of_le_of_ne hregular.length_le hfirst
    · rw [hgroup, intercalate_cons_cons]
    · rw [List.flatten_cons, List.cons_append, ← List.flatten_cons, hflatten]

theorem ungroup_of_notMem (h : b.separator ∉ cs) : b.ungroup cs = cs :=
  List.filter_eq_self.2 fun _ hc => decide_eq_true fun heq => h (heq ▸ hc)

/-! Grouping a number. -/

/-- A text with and without separators: a sign, the whole part in digits of the base, and from the
point or the exponent on the rest. Only the whole part is grouped. -/
def GroupsWhole (b : Base) (text : Bool → List Char) : Prop :=
  ∃ (negative : Bool) (whole rest : List Char), whole ≠ [] ∧
    (∀ c ∈ whole, ∃ d, d < b.radix ∧ c = b.digitChar d) ∧ (∀ c ∈ rest.head?, c = '.' ∨ c = 'e') ∧
    ∀ separators, text separators =
      Entry.signChars negative ++ b.groupIf separators whole ++ rest

end Base

open Base (GroupsWhole)

theorem Display.groupsWhole_unsigned (b : Base) (n : Nat) : b.GroupsWhole (unsigned n b) :=
  ⟨false, b.numeral n, [], b.numeral_ne_nil n, fun _ => Base.mem_numeral, by simp,
    fun separators => (List.append_nil _).symm⟩

theorem Display.groupsWhole_integer (b : Base) (i : Int64) : b.GroupsWhole (integer i b) := by
  refine ⟨hasSign i b, b.numeral (magnitude i b), [], b.numeral_ne_nil _,
    fun _ => Base.mem_numeral, by simp, fun separators => ?_⟩
  rw [integer_eq, List.append_nil]
  rfl

theorem Entry.Consistent.groupsWhole_chars {e : Entry} (h : e.Consistent) :
    e.base.GroupsWhole e.chars := by
  refine ⟨e.negative, e.whole.map e.base.digitChar, e.fractionChars ++ e.exponentChars, ?_, ?_, ?_,
    fun separators => ?_⟩
  · exact fun hnil => h.whole_ne_nil (List.map_eq_nil_iff.1 hnil)
  · intro c hc
    obtain ⟨d, hd, rfl⟩ := List.mem_map.1 hc
    exact ⟨d, e.whole_lt d hd, rfl⟩
  · rw [fractionChars, exponentChars]
    split_ifs <;> simp
  · simp only [chars, digits_eq, List.length_map, ← List.map_take, ← List.map_drop,
      List.append_assoc]
    rfl

/-! Grouping a double. -/

theorem Positional.HasDigits.groupsWhole_text {p : Positional} (h : p.HasDigits) :
    Base.dec.GroupsWhole fun separators => (p.groupIf separators).text := by
  refine ⟨p.negative, p.whole, if p.fraction.isEmpty then [] else '.' :: p.fraction, h.nonempty,
    fun c hc => ?_, ?_, fun separators => rfl⟩
  · obtain ⟨hdigit, hchar⟩ := digitChar_of_isDigit (h.whole c hc)
    exact ⟨_, hdigit, hchar.symm⟩
  · split <;> simp

/-- The whole part of a mantissa is a single digit, which is a group as it is. -/
theorem Scientific.groupsWhole_text (negative : Bool) (d : Decimal) :
    Base.dec.GroupsWhole fun _ => (ofDecimal negative d).trimZeros.text := by
  obtain ⟨c, cs, hnumeral⟩ := List.exists_cons_of_ne_nil (Base.dec.numeral_ne_nil d.digits)
  have hc : c ∈ Base.dec.numeral d.digits := hnumeral ▸ List.mem_cons_self
  have hmantissa : (ofDecimal negative d).trimZeros.mantissa.whole = [c] := by
    show (Base.dec.numeral d.digits).take 1 = [c]
    rw [hnumeral]
    rfl
  generalize (ofDecimal negative d).trimZeros = s at hmantissa
  refine ⟨s.mantissa.negative, [c],
    (if s.mantissa.fraction.isEmpty then [] else '.' :: s.mantissa.fraction) ++
      'e' :: integerText s.exponent, List.cons_ne_nil _ _, ?_, ?_, fun separators => ?_⟩
  · intro c' hc'
    rw [List.mem_singleton.1 hc']
    exact Base.mem_numeral hc
  · split <;> simp
  · have hgroup : Base.dec.groupIf separators [c] = [c] := by cases separators <;> rfl
    rw [hgroup, text, Positional.text, hmantissa]
    simp only [Entry.signChars, List.append_assoc]

theorem Display.groupsWhole_finite (log10 : Float → Float) (x : Float) (places : Option Nat) :
    Base.dec.GroupsWhole fun separators => finite log10 x separators places := by
  simp only [finite]
  split
  · exact (Positional.hasDigits_ofPlaces _ _ _).trimZeros.unsignZero.groupsWhole_text
  · exact Scientific.groupsWhole_text _ _

theorem Display.groupsWhole_doubleWith (log10 : Float → Float) {x : Float} (hx : x.isFinite)
    (places : Option Nat) :
    Base.dec.GroupsWhole fun separators => doubleWith log10 x separators places := by
  obtain ⟨hnumber, hbounded⟩ := Double.isFinite_iff_not.1 hx
  simp only [doubleWith, hnumber, hbounded, Bool.false_eq_true, if_false]
  split
  · refine ⟨false, ['0'], [], List.cons_ne_nil _ _, ?_, by simp, fun separators => ?_⟩
    · intro c hc
      exact ⟨0, by decide, List.mem_singleton.1 hc⟩
    · cases separators <;> rfl
  · exact groupsWhole_finite log10 x places

theorem Display.doubleWith_of_not_isFinite (log10 : Float → Float) {x : Float}
    (hx : ¬ x.isFinite) (places : Option Nat) (on off : Bool) :
    doubleWith log10 x on places = doubleWith log10 x off places := by
  rw [Double.isFinite_iff_not] at hx
  simp only [doubleWith]
  cases hnumber : x.isNaN with
  | true => rfl
  | false =>
    cases hbounded : x.isInf with
    | true => rfl
    | false => exact absurd ⟨hnumber, hbounded⟩ hx

/-- Groups are joined by the separator, all of the size of the base except the first, which has at
least one character and no more than the others; without the separators they are the text. Words,
integers, entries that keys have led to, and doubles with any number of places are shown with
separators as without, but that the digits of the whole part are grouped: sign, fraction and exponent
stay. What is no finite number is shown the same. -/
theorem Base.group_texts (b : Base) :
    (∀ cs : List Char, cs ≠ [] → b.separator ∉ cs → b.ungroup (b.group cs) = cs ∧
      ∃ first others, b.Regular first others ∧ (first :: others).flatten = cs ∧
        b.group cs = [b.separator].intercalate (first :: others)) ∧
    (∀ word : UInt64, b.GroupsWhole (Display.unsigned word.toNat b)) ∧
    (∀ i : Int64, b.GroupsWhole (Display.integer i b)) ∧
    (∀ integral strokes, b.GroupsWhole (({ base := b, integral } : Entry).run strokes).chars) ∧
    ∀ (log10 : Float → Float) (x : Float) (places : Option Nat),
      (x.isFinite → dec.GroupsWhole fun separators =>
        Display.doubleWith log10 x separators places) ∧
      (¬ x.isFinite → ∀ on off,
        Display.doubleWith log10 x on places = Display.doubleWith log10 x off places) := by
  refine ⟨fun cs hne hplain => ?_, fun word => Display.groupsWhole_unsigned b _,
    Display.groupsWhole_integer b, fun integral strokes => ?_, fun log10 x places =>
      ⟨(Display.groupsWhole_doubleWith log10 · places),
        (Display.doubleWith_of_not_isFinite log10 · places)⟩⟩
  · obtain ⟨first, others, hregular, hgroup, hflatten⟩ := exists_groups (b := b) hne
    rw [ungroup_group, ungroup_of_notMem hplain]
    exact ⟨rfl, first, others, hregular, hflatten, hgroup⟩
  · let fresh : Entry := { base := b, integral }
    have hbase : (fresh.run strokes).base = b := congrArg Entry.base (fresh.clear_run strokes)
    have hconsistent : (fresh.run strokes).Consistent :=
      (Entry.consistent_clear fresh).run strokes
    have hgroups := hconsistent.groupsWhole_chars
    rwa [hbase] at hgroups

theorem Base.group_texts_millions :
    "1234567".toList ≠ [] ∧ dec.separator ∉ "1234567".toList ∧
      dec.group "1234567".toList = "1,234,567".toList ∧
      dec.ungroup (dec.group "1234567".toList) = "1234567".toList := by
  have hne : "1234567".toList ≠ [] := by decide
  have hplain : dec.separator ∉ "1234567".toList := by decide
  exact ⟨hne, hplain, by decide, ((group_texts dec).1 _ hne hplain).1⟩

end DeskCalculator
