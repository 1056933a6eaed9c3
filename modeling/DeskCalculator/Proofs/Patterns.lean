import DeskCalculator.Arithmetic.Integer
import Mathlib
/-!
Words as patterns of bits. Main statement: `IntegerUnary.permuted_and_scaled` says that flips and
rotations move the bytes, 16-bit words and bits of a pattern to other places, and that shifts
multiply and divide the pattern by powers of two.
-/
namespace DeskCalculator

namespace Integer

def pattern (a : Int64) : Nat := a.toUInt64.toNat

/-- The number in one field of a pattern; fields of a width are counted from the low end. -/
def field (width : Nat) (a : Int64) (k : Nat) : Nat := pattern a / 2 ^ (width * k) % 2 ^ width

theorem pattern_injective : Function.Injective pattern := by
  intro a b h
  rw [← a.toInt64_toUInt64, ← b.toInt64_toUInt64, UInt64.toNat_inj.1 h]

theorem testBit_toNat_of_le (u : UInt64) {i : Nat} (hi : 64 ≤ i) : u.toNat.testBit i = false :=
  Nat.testBit_lt_two_pow (u.toNat_lt.trans_le (Nat.pow_le_pow_right Nat.two_pos hi))

theorem eq_of_testBit {a b : Int64}
    (h : ∀ i < 64, (pattern a).testBit i = (pattern b).testBit i) : a = b := by
  refine pattern_injective (Nat.eq_of_testBit_eq fun i => ?_)
  rcases Nat.lt_or_ge i 64 with hi | hi
  · exact h i hi
  · exact (testBit_toNat_of_le _ hi).trans (testBit_toNat_of_le _ hi).symm

theorem testBit_field (width : Nat) (a : Int64) (k j : Nat) :
    (field width a k).testBit j =
      (decide (j < width) && (pattern a).testBit (width * k + j)) := by
  rw [field, Nat.testBit_mod_two_pow, Nat.testBit_div_two_pow, Nat.add_comm]

theorem field_congr {width k l : Nat} {a b : Int64}
    (h : ∀ j < width,
      (pattern a).testBit (width * k + j) = (pattern b).testBit (width * l + j)) :
    field width a k = field width b l := by
  refine Nat.eq_of_testBit_eq fun j => ?_
  rw [testBit_field, testBit_field]
  by_cases hj : j < width
  · rw [h j hj]
  · rw [decide_eq_false hj, Bool.false_and, Bool.false_and]

/-! Bits of shifted and masked patterns. -/

section Bits

variable (u : UInt64) {mask n : UInt64} {i : Nat}

theorem testBit_shiftLeft (hn : n.toNat < 64) :
    (u <<< n).toNat.testBit i =
      (decide (i < 64) && (decide (n.toNat ≤ i) && u.toNat.testBit (i - n.toNat))) := by
  rw [UInt64.toNat_shiftLeft, Nat.mod_eq_of_lt hn, Nat.testBit_mod_two_pow, Nat.testBit_shiftLeft]

theorem testBit_shiftRight (hn : n.toNat < 64) :
    (u >>> n).toNat.testBit i = u.toNat.testBit (n.toNat + i) := by
  rw [UInt64.toNat_shiftRight, Nat.mod_eq_of_lt hn, Nat.testBit_shiftRight]

theorem testBit_mask {start width : Nat} (hmask : mask.toNat = 2 ^ start * (2 ^ width - 1)) :
    (u &&& mask).toNat.testBit i =
      (u.toNat.testBit i && decide (start ≤ i ∧ i < start + width)) := by
  rw [UInt64.toNat_and, Nat.testBit_and, hmask, Nat.testBit_two_pow_mul,
    Nat.testBit_two_pow_sub_one, ← Bool.decide_and]
  congr 2
  exact propext (and_congr_right fun h => Nat.sub_lt_iff_lt_add' h)

end Bits

/-- The second pattern holds one field of the first one, at a place of its own, and zeros else. -/
def Carries (width source target : Nat) (u v : UInt64) : Prop :=
  ∀ k j, j < width → v.toNat.testBit (width * k + j) =
    (decide (k = target) && u.toNat.testBit (width * source + j))

section Carries

variable {width source target : Nat} {u v mask n : UInt64}

/-- A bit lies in the field at a place exactly if that is the place of its own field. -/
theorem place_iff {k l j : Nat} (hj : j < width) :
    width * l ≤ width * k + j ∧ width * k + j < width * l + width ↔ k = l := by
  constructor
  · rintro ⟨hlower, hupper⟩
    have hle : k < l + 1 := by
      refine Nat.lt_of_mul_lt_mul_left (a := width) ?_
      rw [Nat.mul_succ]
      omega
    have hge : l < k + 1 := by
      refine Nat.lt_of_mul_lt_mul_left (a := width) ?_
      rw [Nat.mul_succ]
      omega
    omega
  · rintro rfl
    omega

theorem carries_mask (u : UInt64)
    (hmask : mask.toNat = 2 ^ (width * source) * (2 ^ width - 1)) :
    Carries width source source u (u &&& mask) := by
  intro k j hj
  rw [testBit_mask u hmask, Bool.and_comm]
  simp only [place_iff hj]
  by_cases hk : k = source
  · rw [hk]
  · rw [decide_eq_false hk, Bool.false_and, Bool.false_and]

/-- Fields that leave the word may hold anything. -/
theorem carries_shiftLeft (distance : Nat) (hn : n.toNat = width * distance)
    (hfits : width * (target + distance + 1) ≤ 64)
    (h : ∀ k j, j < width → width * (k + distance) + j < 64 → v.toNat.testBit (width * k + j) =
      (decide (k = target) && u.toNat.testBit (width * source + j))) :
    Carries width source (target + distance) u (v <<< n) := by
  intro k j hj
  rw [Nat.mul_succ, Nat.mul_add] at hfits
  rw [testBit_shiftLeft v (by omega), hn]
  rcases Nat.lt_or_ge k distance with hk | hk
  · -- The shift has filled the field with zeros.
    have hbelow : ¬width * distance ≤ width * k + j := by
      have hsucc := Nat.mul_le_mul_left width hk
      rw [Nat.mul_succ] at hsucc
      omega
    have hne : k ≠ target + distance := by omega
    rw [decide_eq_false hbelow, decide_eq_false hne, Bool.false_and, Bool.and_false, Bool.false_and]
  · obtain ⟨l, rfl⟩ := Nat.exists_eq_add_of_le' hk
    have hmoved : width * (l + distance) + j = width * distance + (width * l + j) := by
      rw [Nat.mul_add]
      omega
    have hsame : decide (l + distance = target + distance) = decide (l = target) :=
      decide_eq_decide.2 Nat.add_right_cancel_iff
    rw [hsame]
    by_cases hi : width * (l + distance) + j < 64
    · rw [decide_eq_true hi, hmoved, decide_eq_true (Nat.le_add_right _ _), Nat.add_sub_cancel_left,
        Bool.true_and, Bool.true_and, h l j hj hi]
    · have hne : l ≠ target := by
        rintro rfl
        omega
      rw [decide_eq_false hi, decide_eq_false hne, Bool.false_and, Bool.false_and]

theorem Carries.shiftLeft (h : Carries width source target u v) (distance : Nat)
    (hn : n.toNat = width * distance) (hfits : width * (target + distance + 1) ≤ 64) :
    Carries width source (target + distance) u (v <<< n) :=
  carries_shiftLeft distance hn hfits fun k j hj _ => h k j hj

theorem Carries.shiftRight (distance : Nat) (h : Carries width source (target + distance) u v)
    (hn : n.toNat = width * distance) (hlt : n.toNat < 64) :
    Carries width source target u (v >>> n) := by
  intro k j hj
  rw [testBit_shiftRight v hlt, hn, ← Nat.add_assoc, ← Nat.mul_add, Nat.add_comm distance, h _ j hj,
    decide_eq_decide.2 Nat.add_right_cancel_iff]

/-- The lowest field, moved to the highest place. -/
theorem carries_lowest {distance : Nat} (u : UInt64) (hn : n.toNat = width * distance)
    (hword : width * (distance + 1) = 64) : Carries width 0 distance u (u <<< n) := by
  have hcarries : Carries width 0 (0 + distance) u (u <<< n) := by
    refine carries_shiftLeft distance hn (by rw [Nat.zero_add]; exact hword.le) fun k j _ hi => ?_
    have hk : width * (k + distance) < width * (distance + 1) := by omega
    obtain rfl : k = 0 := by
      have := Nat.lt_of_mul_lt_mul_left hk
      omega
    rfl
  rwa [Nat.zero_add] at hcarries

/-- The highest field, moved to the lowest place. -/
theorem carries_highest {distance : Nat} (u : UInt64) (hn : n.toNat = width * distance)
    (hword : width * (distance + 1) = 64) : Carries width distance 0 u (u >>> n) := by
  intro k j hj
  rw [testBit_shiftRight u (by rw [Nat.mul_succ] at hword; omega), hn]
  cases k with
  | zero => rw [decide_eq_true rfl, Bool.true_and, Nat.mul_zero, Nat.zero_add]
  | succ k =>
    rw [decide_eq_false k.succ_ne_zero, Bool.false_and]
    refine testBit_toNat_of_le u ?_
    rw [Nat.mul_succ] at hword ⊢
    omega

end Carries

/-! Flips and rotations, bit by bit. -/

theorem testBit_flipBytes (u : UInt64) {k j : Nat} (hk : k < 8) (hj : j < 8) :
    (flipBytes u).toNat.testBit (8 * k + j) = u.toNat.testBit (8 * (7 - k) + j) := by
  have h7 : Carries 8 0 7 u (u <<< 56) := carries_lowest u rfl rfl
  have h6 : Carries 8 1 6 u ((u &&& 0xFF00) <<< 40) :=
    (carries_mask u rfl).shiftLeft 5 rfl (by decide)
  have h5 : Carries 8 2 5 u ((u &&& 0xFF0000) <<< 24) :=
    (carries_mask u rfl).shiftLeft 3 rfl (by decide)
  have h4 : Carries 8 3 4 u ((u &&& 0xFF000000) <<< 8) :=
    (carries_mask u rfl).shiftLeft 1 rfl (by decide)
  have h3 : Carries 8 4 3 u ((u &&& 0xFF00000000) >>> 8) :=
    (carries_mask u rfl).shiftRight 1 rfl (by decide)
  have h2 : Carries 8 5 2 u ((u &&& 0xFF0000000000) >>> 24) :=
    (carries_mask u rfl).shiftRight 3 rfl (by decide)
  have h1 : Carries 8 6 1 u ((u &&& 0xFF000000000000) >>> 40) :=
    (carries_mask u rfl).shiftRight 5 rfl (by decide)
  have h0 : Carries 8 7 0 u (u >>> 56) := carries_highest u rfl rfl
  simp only [flipBytes, UInt64.toNat_or, Nat.testBit_or, h7 k j hj, h6 k j hj, h5 k j hj, h4 k j hj,
    h3 k j hj, h2 k j hj, h1 k j hj, h0 k j hj]
  -- One of the eight has something at `k`.
  interval_cases k <;> simp

theorem testBit_flipWords (u : UInt64) {k j : Nat} (hk : k < 4) (hj : j < 16) :
    (flipWords u).toNat.testBit (16 * k + j) = u.toNat.testBit (16 * (3 - k) + j) := by
  have h3 : Carries 16 0 3 u (u <<< 48) := carries_lowest u rfl rfl
  have h2 : Carries 16 1 2 u ((u &&& 0xFFFF0000) <<< 16) :=
    (carries_mask u rfl).shiftLeft 1 rfl (by decide)
  have h1 : Carries 16 2 1 u ((u &&& 0xFFFF00000000) >>> 16) :=
    (carries_mask u rfl).shiftRight 1 rfl (by decide)
  have h0 : Carries 16 3 0 u (u >>> 48) := carries_highest u rfl rfl
  simp only [flipWords, UInt64.toNat_or, Nat.testBit_or, h3 k j hj, h2 k j hj, h1 k j hj, h0 k j hj]
  interval_cases k <;> simp

theorem testBit_rotateLeft (u : UInt64) {i : Nat} (hi : i < 64) :
    (rotateLeft u).toNat.testBit i = u.toNat.testBit ((i + 63) % 64) := by
  rw [rotateLeft, UInt64.toNat_or, Nat.testBit_or, testBit_shiftLeft u (by decide),
    testBit_shiftRight u (by decide), decide_eq_true hi, Bool.true_and]
  change (decide (1 ≤ i) && u.toNat.testBit (i - 1) || u.toNat.testBit (63 + i)) = _
  cases i with
  | zero => rfl
  | succ i =>
    rw [testBit_toNat_of_le u (by omega : 64 ≤ 63 + (i + 1)), Bool.or_false,
      decide_eq_true (by omega), Bool.true_and]
    congr 1
    omega

theorem testBit_rotateRight (u : UInt64) {i : Nat} (hi : i < 64) :
    (rotateRight u).toNat.testBit i = u.toNat.testBit ((i + 1) % 64) := by
  rw [rotateRight, UInt64.toNat_or, Nat.testBit_or, testBit_shiftLeft u (by decide),
    testBit_shiftRight u (by decide), decide_eq_true hi, Bool.true_and]
  change (u.toNat.testBit (1 + i) || (decide (63 ≤ i) && u.toNat.testBit (i - 63))) = _
  rcases Nat.lt_or_ge i 63 with h | h
  · rw [decide_eq_false h.not_ge, Bool.false_and, Bool.or_false, Nat.add_comm,
      Nat.mod_eq_of_lt (by omega)]
  · obtain rfl : i = 63 := by omega
    rw [testBit_toNat_of_le u (by decide : 64 ≤ 1 + 63)]
    rfl

end Integer

open Integer

namespace IntegerUnary

def word (f : IntegerUnary) (a : Int64) : Int64 := (f.apply a).asInteger

theorem apply_eq (f : IntegerUnary) (a : Int64) : f.apply a = .integer (f.word a) := by
  cases f <;> rfl

/-- The field at each place goes to another place. -/
def Moves (f : IntegerUnary) (width : Nat) (place : Nat → Nat) : Prop :=
  ∀ (a : Int64) (k : Nat), k < 64 / width → field width (f.word a) (place k) = field width a k

/-- The bit at each place comes from another place. -/
def Gathers (f : IntegerUnary) (source : Nat → Nat) : Prop :=
  ∀ (a : Int64) (i : Nat), i < 64 →
    (pattern (f.word a)).testBit i = (pattern a).testBit (source i)

/-- The place of a bit after the fields of a width have been put in reverse order. -/
def mirrored (width i : Nat) : Nat := width * (64 / width - 1 - i / width) + i % width

theorem gathers_flipBytes : flipBytes.Gathers (mirrored 8) := by
  intro a i hi
  have hbit := testBit_flipBytes a.toUInt64 (k := i / 8) (j := i % 8) (by omega) (by omega)
  rwa [Nat.div_add_mod] at hbit

theorem gathers_flipWords : flipWords.Gathers (mirrored 16) := by
  intro a i hi
  have hbit := testBit_flipWords a.toUInt64 (k := i / 16) (j := i % 16) (by omega) (by omega)
  rwa [Nat.div_add_mod] at hbit

theorem gathers_rotateLeft : rotateLeft.Gathers fun i => (i + 63) % 64 :=
  fun a _ hi => testBit_rotateLeft a.toUInt64 hi

theorem gathers_rotateRight : rotateRight.Gathers fun i => (i + 1) % 64 :=
  fun a _ hi => testBit_rotateRight a.toUInt64 hi

variable {f g : IntegerUnary} {source source' : Nat → Nat}

theorem Gathers.moves (h : f.Gathers source) {width : Nat} {place : Nat → Nat}
    (hplace : ∀ k j, k < 64 / width → j < width →
      width * place k + j < 64 ∧ source (width * place k + j) = width * k + j) :
    f.Moves width place := by
  intro a k hk
  refine field_congr fun j hj => ?_
  obtain ⟨hi, hsource⟩ := hplace k j hk hj
  rw [h a _ hi, hsource]

theorem Gathers.leftInverse (hf : f.Gathers source) (hg : g.Gathers source')
    (h : ∀ i < 64, source i < 64 ∧ source' (source i) = i) :
    Function.LeftInverse f.word g.word := by
  intro a
  refine eq_of_testBit fun i hi => ?_
  rw [hf _ i hi, hg a _ (h i hi).1, (h i hi).2]

theorem Gathers.commute (hf : f.Gathers source) (hg : g.Gathers source')
    (h : ∀ i < 64, source i < 64 ∧ source' i < 64 ∧ source' (source i) = source (source' i)) :
    Function.Commute f.word g.word := by
  intro a
  refine eq_of_testBit fun i hi => ?_
  obtain ⟨hi', hi'', hsame⟩ := h i hi
  rw [hf _ i hi, hg a _ hi', hg _ i hi, hf a _ hi'', hsame]

end IntegerUnary

namespace IntegerBinary

variable {n : Int64}

/-- An amount within the word is the same number with and without a sign, and no multiple of the
width is lost from it. -/
theorem toNat_amount (hn : 0 ≤ n.toInt ∧ n.toInt < 64) :
    n.toUInt64.toNat % 64 = n.toInt.toNat := by
  have hcases : n.toInt = if 2 * n.toUInt64.toNat < 2 ^ 64 then (n.toUInt64.toNat : ℤ)
      else n.toUInt64.toNat - (2 ^ 64 : Nat) := BitVec.toInt_eq_toNat_cond n.toBitVec
  have hlimit : n.toUInt64.toNat < 2 ^ 64 := n.toUInt64.toNat_lt
  split at hcases <;> omega

theorem apply_shiftLeft (a : Int64) (hn : 0 ≤ n.toInt ∧ n.toInt < 64) :
    ∃ r : Int64, shiftLeft.apply a n = .integer r ∧
      pattern r = pattern a * 2 ^ n.toInt.toNat % 2 ^ 64 := by
  refine ⟨_, if_pos hn, ?_⟩
  change (a.toUInt64 <<< n.toUInt64).toNat = _
  rw [UInt64.toNat_shiftLeft, toNat_amount hn, Nat.shiftLeft_eq]
  rfl

theorem apply_shiftRight (a : Int64) (hn : 0 ≤ n.toInt ∧ n.toInt < 64) :
    ∃ r : Int64, shiftRight.apply a n = .integer r ∧
      pattern r = pattern a / 2 ^ n.toInt.toNat := by
  refine ⟨_, if_pos hn, ?_⟩
  change (a.toUInt64 >>> n.toUInt64).toNat = _
  rw [UInt64.toNat_shiftRight, toNat_amount hn, Nat.shiftRight_eq_div_pow]
  rfl

theorem apply_shiftLeft_add (a : Int64) {m : Int64} (hm : 0 ≤ m.toInt) (hn : 0 ≤ n.toInt)
    (hsum : m.toInt + n.toInt < 64) :
    ∃ r : Int64, shiftLeft.apply a m = .integer r ∧
      shiftLeft.apply r n = shiftLeft.apply a (m + n) := by
  have hadd : (m + n).toInt = m.toInt + n.toInt := by
    rw [Int64.toInt_add]
    exact Int.bmod_eq_of_le (by omega) (by omega)
  obtain ⟨r, hr, hfirst⟩ := apply_shiftLeft a (n := m) (by omega)
  obtain ⟨s, hs, hsecond⟩ := apply_shiftLeft r (n := n) (by omega)
  obtain ⟨t, ht, hboth⟩ := apply_shiftLeft a (n := m + n) (by omega)
  have hsame : pattern s = pattern t := by
    rw [hsecond, hboth, hfirst, hadd, Int.toNat_add hm hn, pow_add, ← Nat.mul_assoc,
      Nat.mod_mul_mod]
  exact ⟨r, hr, by rw [hs, ht, pattern_injective hsame]⟩

end IntegerBinary

namespace IntegerUnary

open IntegerBinary (shiftLeft shiftRight)

/-- Flips reverse the bytes and the 16-bit words of a pattern, rotations move its bits, and they
undo themselves or each other. Shifts by an amount within the word multiply and divide the pattern;
all others overflow. -/
theorem permuted_and_scaled :
    (∀ (f : IntegerUnary) (a : Int64), f.apply a = .integer (f.word a)) ∧
    (flipBytes.Moves 8 (7 - ·) ∧ flipWords.Moves 16 (3 - ·) ∧
      rotateLeft.Moves 1 fun i => (i + 1) % 64) ∧
    (Function.Involutive flipBytes.word ∧ Function.Involutive flipWords.word ∧
      Function.Commute flipBytes.word flipWords.word ∧
      Function.LeftInverse rotateRight.word rotateLeft.word ∧
      Function.RightInverse rotateRight.word rotateLeft.word) ∧
    (∀ a n : Int64, 0 ≤ n.toInt ∧ n.toInt < 64 →
      (∃ r : Int64, shiftLeft.apply a n = .integer r ∧
        pattern r = pattern a * 2 ^ n.toInt.toNat % 2 ^ 64) ∧
      ∃ r : Int64, shiftRight.apply a n = .integer r ∧
        pattern r = pattern a / 2 ^ n.toInt.toNat) ∧
    (∀ a n : Int64, ¬(0 ≤ n.toInt ∧ n.toInt < 64) →
      shiftLeft.apply a n = .error .overflow ∧ shiftRight.apply a n = .error .overflow) ∧
    ∀ a m n : Int64, 0 ≤ m.toInt → 0 ≤ n.toInt → m.toInt + n.toInt < 64 →
      ∃ r : Int64, shiftLeft.apply a m = .integer r ∧
        shiftLeft.apply r n = shiftLeft.apply a (m + n) := by
  refine ⟨apply_eq, ⟨?_, ?_, ?_⟩, ⟨?_, ?_, ?_, ?_, ?_⟩, fun a n hn => ?_, fun a n hn => ?_,
    fun a m n hm hn hsum => ?_⟩
  · exact gathers_flipBytes.moves fun k j hk hj => by rw [mirrored]; omega
  · exact gathers_flipWords.moves fun k j hk hj => by rw [mirrored]; omega
  · exact gathers_rotateLeft.moves fun k j hk hj => by omega
  · exact gathers_flipBytes.leftInverse gathers_flipBytes fun i hi => by simp only [mirrored]; omega
  · exact gathers_flipWords.leftInverse gathers_flipWords fun i hi => by simp only [mirrored]; omega
  · exact gathers_flipBytes.commute gathers_flipWords fun i hi => by simp only [mirrored]; omega
  · exact gathers_rotateRight.leftInverse gathers_rotateLeft fun i hi => by omega
  · exact gathers_rotateLeft.leftInverse gathers_rotateRight fun i hi => by omega
  · exact ⟨IntegerBinary.apply_shiftLeft a hn, IntegerBinary.apply_shiftRight a hn⟩
  · exact ⟨if_neg hn, if_neg hn⟩
  · exact IntegerBinary.apply_shiftLeft_add a hm hn hsum

/-- The lowest byte becomes the highest one; the shifts at the ends of their range. -/
theorem permuted_and_scaled_ends :
    field 8 (flipBytes.word 0x1122334455667788) 7 = 0x88 ∧
    (0 ≤ (63 : Int64).toInt ∧ (63 : Int64).toInt < 64) ∧
    shiftLeft.apply 3 63 = .integer Int64.minValue ∧ shiftRight.apply (-3) 63 = .integer 1 ∧
    shiftLeft.apply 3 64 = .error .overflow ∧ shiftRight.apply 3 (-1) = .error .overflow ∧
    ∃ r : Int64, shiftLeft.apply 3 40 = .integer r ∧
      shiftLeft.apply r 23 = .integer Int64.minValue := by
  obtain ⟨-, ⟨hbytes, -⟩, -, hwithin, hbeyond, hadd⟩ := permuted_and_scaled
  obtain ⟨⟨r, hr, hleft⟩, -⟩ := hwithin 3 63 (by decide)
  obtain ⟨-, s, hs, hright⟩ := hwithin (-3) 63 (by decide)
  obtain rfl : r = Int64.minValue := pattern_injective (hleft.trans (by decide))
  obtain rfl : s = 1 := pattern_injective (hright.trans (by decide))
  obtain ⟨t, ht, hsum⟩ := hadd 3 40 23 (by decide) (by decide) (by decide)
  exact ⟨hbytes 0x1122334455667788 0 (by decide), by decide, hr, hs, (hbeyond 3 64 (by decide)).1,
    (hbeyond 3 (-1) (by decide)).2, t, ht, hsum.trans hr⟩

end IntegerUnary
end DeskCalculator
