import DeskCalculator.Proofs.Finite
/-!
Rounding to doubles, said of exact values. Main statements: `Double.isNearest_ofBits` says that what
rounding finds is nearest to the value, `Double.IsNearest.value_unique` that nothing else is, and
`Double.IsNearest.isInf_iff` which values are too great for a double.
-/
namespace DeskCalculator

namespace Dyadic

theorem signed_true (n : Nat) : signed true n = -(n : ℤ) := rfl

theorem signed_false (n : Nat) : signed false n = n := rfl

theorem signed_left_injective {n : Nat} (hn : n ≠ 0) {a b : Bool} (h : signed a n = signed b n) :
    a = b := by
  cases a <;> cases b <;> simp only [signed_true, signed_false] at h <;> first | rfl | omega

end Dyadic

namespace Double

open Float.Model (Format UnpackedFloat)
open Float.Model.UnpackedFloat

/-- The exact value of a double. An infinity counts as the power of two that comes next after the
finite doubles. -/
def value (x : Float) : ℚ :=
  (Dyadic.signed (dyadic x).negative (dyadic x).significand : ℚ) * 2 ^ (dyadic x).exponent

/-- Is a double nearest to a value, and of two equally near ones the one with the even
significand? -/
structure IsNearest (q : ℚ) (x : Float) : Prop where
  isNaN : x.isNaN = false
  le : ∀ y : Float, y.isNaN = false → |q - value x| ≤ |q - value y|
  even : ∀ y : Float, y.isNaN = false → |q - value x| = |q - value y| → value x ≠ value y →
    (dyadic x).significand % 2 = 0

variable {q : ℚ} {x y : Float} {n : Nat}

/-! Classes of floats by the patterns of their magnitudes. -/

theorem isNaN_eq_false_iff : x.isNaN = false ↔ magnitudeBits x ≤ infinityBits := by
  obtain ⟨e, m, h, hn⟩ := exists_pattern x
  have hunpack : x.isNaN = (unpack Format.binary64 x.toBits.toBitVec).isNaN := rfl
  have hlt := e.isLt
  have hlt' := m.isLt
  have htop : e = -1#_ ↔ e.toNat = 2047 :=
    ⟨fun h => by rw [h]; rfl, fun h => BitVec.eq_of_toNat_eq h⟩
  have hzero : m = 0#_ ↔ m.toNat = 0 := ⟨fun h => by rw [h]; rfl, fun h => BitVec.eq_of_toNat_eq h⟩
  have hle : magnitudeBits x ≤ infinityBits ↔ (e = -1#_ → m = 0#_) := by
    rw [hn, htop, hzero]
    simp only [infinityBits]
    omega
  rw [hunpack, h, hle]
  refine ⟨fun hnumber htop => ?_, fun hnan => ?_⟩
  · by_contra hm
    have he : unpackExponent (pattern (signOf (isNegative x)) e m) = e :=
      unpackExponent_packComponents
    have hm' : unpackMantissa (pattern (signOf (isNegative x)) e m) = m :=
      unpackMantissa_packComponents
    simp only [unpack, he, hm'] at hnumber
    rw [if_pos htop, if_neg hm] at hnumber
    cases hnumber
  · rcases unpack_pattern (signOf (isNegative x)) e m hnan with
      ⟨-, -, hu⟩ | ⟨-, -, hu⟩ | ⟨-, -, n, k, hpos, hu, -⟩ <;> rw [hu] <;> rfl

theorem isInf_iff (hx : x.isNaN = false) : x.isInf ↔ magnitudeBits x = infinityBits := by
  have hfinite : x.isFinite ↔ magnitudeBits x < infinityBits := isFinite_iff
  have hle := isNaN_eq_false_iff.1 hx
  rw [isFinite_iff_not] at hfinite
  rw [← Bool.not_eq_false, ← and_iff_right hx (b := x.isInf = false), hfinite]
  omega

theorem isNaN_ofBits (negative : Bool) (hn : n ≤ infinityBits) :
    (ofBits negative n).isNaN = false := by
  rwa [isNaN_eq_false_iff, magnitudeBits_ofBits negative hn]

theorem isInf_ofBits (negative : Bool) (hn : n ≤ infinityBits) :
    (ofBits negative n).isInf ↔ n = infinityBits := by
  rw [isInf_iff (isNaN_ofBits negative hn), magnitudeBits_ofBits negative hn]

theorem isFinite_ofBits_iff (negative : Bool) (hn : n ≤ infinityBits) :
    (ofBits negative n).isFinite ↔ n < infinityBits := by
  rw [isFinite_iff, magnitudeBits_ofBits negative hn]

theorem ofBits_beq_zero_iff (negative : Bool) (hn : n < infinityBits) :
    ofBits negative n == 0 ↔ n = 0 := by
  rw [beq_zero_iff ((isFinite_ofBits_iff negative hn.le).2 hn), magnitudeBits_ofBits negative hn.le]

theorem neg_ofBits (negative : Bool) (hn : n < infinityBits) :
    -ofBits negative n = ofBits (!negative) n := by
  rw [neg_eq_ofBits ((isFinite_ofBits_iff negative hn.le).2 hn), isNegative_ofBits negative hn.le,
    magnitudeBits_ofBits negative hn.le]

/-! Magnitudes in the order of their patterns. -/

def magnitudeValue (n : Nat) : ℚ :=
  if n / leadingBit = 0 then (n % leadingBit : Nat) * 2 ^ leastExponent
  else (leadingBit + n % leadingBit : Nat) * 2 ^ (leastExponent + (n / leadingBit : Nat) - 1)

/-- The pattern of a significand counts on from that of the exponent, also where it carries. -/
theorem magnitudeValue_pattern {m : Nat} {e : Int} (he : leastExponent ≤ e)
    (hm : m ≤ 2 * leadingBit) (hnormal : leadingBit ≤ m ∨ e = leastExponent) :
    magnitudeValue ((e - leastExponent).toNat * leadingBit + m) = m * 2 ^ e := by
  obtain ⟨k, rfl⟩ : ∃ k : Nat, e = leastExponent + k := ⟨(e - leastExponent).toNat, by omega⟩
  have hk : (leastExponent + k - leastExponent).toNat = k := by omega
  rw [hk, magnitudeValue]
  -- without a leading bit, with one, and with one that a carry has made
  rcases Nat.lt_or_ge m leadingBit with hlt | hge
  · obtain rfl : k = 0 := by omega
    rw [Nat.zero_mul, Nat.zero_add, if_pos (Nat.div_eq_of_lt hlt), Nat.mod_eq_of_lt hlt,
      Nat.cast_zero, add_zero]
  · rcases Nat.lt_or_ge m (2 * leadingBit) with hlt | hcarry
    · have hfield : (k * leadingBit + m) / leadingBit = k + 1 := by
        simp only [leadingBit] at hge hlt ⊢
        omega
      have hfraction : leadingBit + (k * leadingBit + m) % leadingBit = m := by
        simp only [leadingBit] at hge hlt ⊢
        omega
      rw [hfield, hfraction, if_neg k.succ_ne_zero, Nat.cast_succ]
      congr 2
      omega
    · have hfield : (k * leadingBit + m) / leadingBit = k + 2 := by
        simp only [leadingBit] at hm hcarry ⊢
        omega
      have hfraction : (k * leadingBit + m) % leadingBit = 0 := by
        simp only [leadingBit] at hm hcarry ⊢
        omega
      obtain rfl : m = 2 * leadingBit := Nat.le_antisymm hm hcarry
      have hexponent : leastExponent + ((k + 2 : Nat) : Int) - 1 = 1 + (leastExponent + k) := by
        push_cast
        ring
      rw [hfield, hfraction, if_neg (Nat.succ_ne_zero _), hexponent, zpow_add₀ two_ne_zero,
        zpow_one]
      push_cast
      ring

theorem exists_eq_significand (n : Nat) : ∃ (m : Nat) (e : Int), leastExponent ≤ e ∧
    m < 2 * leadingBit ∧ (leadingBit ≤ m ∨ e = leastExponent) ∧
      n = (e - leastExponent).toNat * leadingBit + m := by
  rcases Nat.eq_zero_or_pos (n / leadingBit) with hzero | hpos
  · have hlt : n < leadingBit := (Nat.div_eq_zero_iff.1 hzero).resolve_left (by decide)
    exact ⟨n, leastExponent, le_rfl, by omega, .inr rfl, by simp⟩
  · have hfraction := Nat.mod_lt n (show 0 < leadingBit by decide)
    refine ⟨leadingBit + n % leadingBit, leastExponent + (n / leadingBit - 1 : Nat), by omega,
      by omega, .inl (by omega), ?_⟩
    have hexponent : (leastExponent + ((n / leadingBit - 1 : Nat) : Int) - leastExponent).toNat =
        n / leadingBit - 1 := by omega
    have hsplit := Nat.div_add_mod' n leadingBit
    rw [hexponent, Nat.sub_mul, ← Nat.add_assoc, Nat.one_mul, Nat.sub_add_cancel, hsplit]
    exact Nat.le_mul_of_pos_left leadingBit hpos

theorem magnitudeValue_strictMono : StrictMono magnitudeValue := by
  refine strictMono_nat_of_lt_succ fun n => ?_
  obtain ⟨m, e, he, hm, hnormal, rfl⟩ := exists_eq_significand n
  rw [Nat.add_assoc, magnitudeValue_pattern he hm.le hnormal,
    magnitudeValue_pattern he hm (hnormal.imp_left fun h => h.trans m.le_succ)]
  exact mul_lt_mul_of_pos_right (Nat.cast_lt.2 m.lt_succ_self) (zpow_pos two_pos e)

theorem magnitudeValue_zero : magnitudeValue 0 = 0 := by
  simp [magnitudeValue]

/-! Rounding magnitudes. -/

/-- Rounding in units of a power of two takes the nearer one of the two multiples around a value. -/
theorem roundValue_eq {q : ℚ} (e : Int) {m : Nat} (hm : ⌊q * 2 ^ (-e)⌋₊ = m) :
    roundValue (q * 2 ^ (-e)) =
      if 2 * q < m * 2 ^ e + (m + 1 : Nat) * 2 ^ e ∨
        2 * q = m * 2 ^ e + (m + 1 : Nat) * 2 ^ e ∧ m % 2 = 0 then m else m + 1 := by
  have hpow : (0 : ℚ) < 2 ^ e := zpow_pos two_pos e
  have hscaled : 2 * q = 2 * (q * 2 ^ (-e)) * 2 ^ e := by
    rw [mul_assoc, mul_assoc, ← zpow_add₀ two_ne_zero, neg_add_cancel, zpow_zero, mul_one]
  have hsum : (m : ℚ) * 2 ^ e + (m + 1 : Nat) * 2 ^ e = (2 * m + 1) * 2 ^ e := by
    push_cast
    ring
  have hlt : 2 * q < m * 2 ^ e + (m + 1 : Nat) * 2 ^ e ↔ 2 * (q * 2 ^ (-e) - m) < 1 := by
    rw [hscaled, hsum, mul_lt_mul_iff_left₀ hpow, mul_sub, sub_lt_iff_lt_add']
  have heq : 2 * q = m * 2 ^ e + (m + 1 : Nat) * 2 ^ e ↔ 2 * (q * 2 ^ (-e) - m) = 1 := by
    rw [hscaled, hsum, mul_left_inj' hpow.ne', mul_sub, sub_eq_iff_eq_add']
  simp only [roundValue, hm, hlt, heq]

/-- A value lies between two neighbours, and its pattern is that of the nearer one. -/
theorem exists_nearest_eq {q : ℚ} (hq : 0 ≤ q) : ∃ n, magnitudeValue n ≤ q ∧
    q < magnitudeValue (n + 1) ∧ nearest q = min infinityBits
      (if 2 * q < magnitudeValue n + magnitudeValue (n + 1) ∨
          2 * q = magnitudeValue n + magnitudeValue (n + 1) ∧ n % 2 = 0 then n else n + 1) := by
  rcases hq.eq_or_lt with rfl | hpos
  · have hone : 0 < magnitudeValue (0 + 1) :=
      magnitudeValue_zero ▸ magnitudeValue_strictMono Nat.one_pos
    refine ⟨0, magnitudeValue_zero.le, hone, ?_⟩
    rw [if_pos (.inl (by simpa [magnitudeValue_zero] using hone))]
    rfl
  rw [nearest, if_neg hpos.ne']
  dsimp only
  generalize he : max (Int.log 2 q - fractionBits) leastExponent = e
  have hbits : (fractionBits : Int) = 52 := rfl
  have hleast : leastExponent ≤ e := by omega
  have hpow : (0 : ℚ) < 2 ^ e := zpow_pos two_pos e
  have hscaled : q * 2 ^ (-e) * 2 ^ e = q := by
    rw [mul_assoc, ← zpow_add₀ two_ne_zero, neg_add_cancel, zpow_zero, mul_one]
  have hle := Nat.floor_le (mul_pos hpos (zpow_pos two_pos (-e))).le
  have hlt := Nat.lt_floor_add_one (q * 2 ^ (-e))
  -- the whole part of the value in units of the last bit is a significand
  have hm : ⌊q * 2 ^ (-e)⌋₊ < 2 * leadingBit :=
    (Nat.floor_lt (mul_pos hpos (zpow_pos two_pos _)).le).2 (mul_zpow_neg_lt (by omega))
  have hnormal : leadingBit ≤ ⌊q * 2 ^ (-e)⌋₊ ∨ e = leastExponent := by
    rcases max_choice (Int.log 2 q - fractionBits) leastExponent with hlog | hlog
    · exact .inl (Nat.le_floor (leadingBit_le_mul_zpow_neg hpos (by omega)))
    · exact .inr (he.symm.trans hlog)
  rw [roundValue_eq e rfl]
  generalize ⌊q * 2 ^ (-e)⌋₊ = m at *
  have hv := magnitudeValue_pattern hleast hm.le hnormal
  have hv' := magnitudeValue_pattern (m := m + 1) hleast hm
    (hnormal.imp_left fun h => h.trans m.le_succ)
  have hparity : ((e - leastExponent).toNat * leadingBit + m) % 2 = m % 2 := by
    simp only [leadingBit]
    omega
  refine ⟨(e - leastExponent).toNat * leadingBit + m, ?_, ?_, ?_⟩
  · rw [hv, ← hscaled]
    exact mul_le_mul_of_nonneg_right hle hpow.le
  · rw [Nat.add_assoc, hv', ← hscaled, Nat.cast_succ]
    exact mul_lt_mul_of_pos_right hlt hpow
  · rw [hparity, Nat.add_assoc, hv, hv']
    split <;> rfl

/-- Of two neighbours around a value, one of them even, the nearer one is taken, or the even one if
they are equally near. Nothing outside the two is nearer, and if it is as near, the even one was
taken. -/
theorem nearer_minimal {a b c : ℚ} (hle : a ≤ q) (hlt : q < b) (hside : c ≤ a ∨ b ≤ c)
    (even : Prop) :
    (2 * q < a + b ∨ 2 * q = a + b ∧ even →
      |q - a| ≤ |q - c| ∧ (|q - a| = |q - c| → c ≠ a → even)) ∧
    (¬ (2 * q < a + b ∨ 2 * q = a + b ∧ even) →
      |q - b| ≤ |q - c| ∧ (|q - b| = |q - c| → c ≠ b → ¬ even)) := by
  have habs : c ≤ a ∧ |q - c| = q - c ∨ b ≤ c ∧ |q - c| = c - q := by
    rcases hside with hc | hc
    · exact .inl ⟨hc, abs_of_nonneg (by linarith)⟩
    · exact .inr ⟨hc, by rw [abs_sub_comm]; exact abs_of_pos (by linarith)⟩
  constructor
  · intro hnear
    rw [abs_of_nonneg (sub_nonneg.2 hle)]
    rcases habs with ⟨hc, habs⟩ | ⟨hc, habs⟩ <;> rw [habs]
    · exact ⟨by linarith, fun hsame hne => absurd (by linarith) hne⟩
    · rcases hnear with hnear | ⟨htie, heven⟩
      · exact ⟨by linarith, fun hsame => by linarith⟩
      · exact ⟨by linarith, fun _ _ => heven⟩
  · intro hfar
    rw [not_or, not_lt, not_and] at hfar
    obtain ⟨hge, hodd⟩ := hfar
    rw [abs_sub_comm, abs_of_pos (sub_pos.2 hlt)]
    rcases habs with ⟨hc, habs⟩ | ⟨hc, habs⟩ <;> rw [habs]
    · exact ⟨by linarith, fun hsame _ => hodd (by linarith)⟩
    · exact ⟨by linarith, fun hsame hne => absurd (by linarith) hne⟩

/-- The pattern of the nearest magnitude is that of a nearest one, and of two such ones the even
one. -/
theorem nearest_minimal (hq : 0 ≤ q) {k : Nat} (hk : k ≤ infinityBits) :
    |q - magnitudeValue (nearest q)| ≤ |q - magnitudeValue k| ∧
      (|q - magnitudeValue (nearest q)| = |q - magnitudeValue k| → nearest q ≠ k →
        nearest q % 2 = 0) := by
  obtain ⟨n, hle, hlt, heq⟩ := exists_nearest_eq hq
  have hmono := magnitudeValue_strictMono.monotone
  have hinjective := magnitudeValue_strictMono.injective
  rcases Nat.lt_or_ge n infinityBits with hn | hn
  · have hside : magnitudeValue k ≤ magnitudeValue n ∨ magnitudeValue (n + 1) ≤ magnitudeValue k :=
      (Nat.lt_or_ge n k).symm.imp (fun h => hmono h) (fun h => hmono h)
    obtain ⟨hnear, hfar⟩ := nearer_minimal hle hlt hside (n % 2 = 0)
    rw [heq, Nat.min_eq_right (by split <;> omega)]
    split
    · rename_i h
      obtain ⟨hmin, heven⟩ := hnear h
      exact ⟨hmin, fun hsame hne => heven hsame fun hv => hne (hinjective hv).symm⟩
    · rename_i h
      obtain ⟨hmin, hodd⟩ := hfar h
      refine ⟨hmin, fun hsame hne => ?_⟩
      have := hodd hsame fun hv => hne (hinjective hv).symm
      omega
  · -- a value beyond all finite ones is above all magnitudes
    have hvk := hmono hk
    have hvn := hmono hn
    rw [heq, Nat.min_eq_left (by split <;> omega), abs_of_nonneg (by linarith),
      abs_of_nonneg (by linarith)]
    refine ⟨by linarith, fun hsame hne => absurd ?_ hne⟩
    exact hinjective (by linarith)

theorem magnitudeValue_infinityBits :
    magnitudeValue infinityBits = 2 ^ (1024 : ℤ) ∧
      magnitudeValue (infinityBits - 1) = 2 ^ (1024 : ℤ) - 2 ^ (971 : ℤ) := by
  have hpattern : infinityBits = (971 - leastExponent).toNat * leadingBit + 2 * leadingBit := by
    decide
  have hbelow : infinityBits - 1 =
      (971 - leastExponent).toNat * leadingBit + (2 * leadingBit - 1) := by decide
  have hsplit : (2 : ℚ) ^ (1024 : ℤ) = 2 ^ (53 : ℤ) * 2 ^ (971 : ℤ) := by
    rw [← zpow_add₀ two_ne_zero]
    rfl
  constructor
  · rw [hpattern, magnitudeValue_pattern (by decide) le_rfl (.inl (by decide)), hsplit]
    norm_num [leadingBit]
  · rw [hbelow, magnitudeValue_pattern (by decide) (by decide) (.inl (by decide)), hsplit,
      eq_sub_iff_add_eq, ← add_one_mul]
    norm_num [leadingBit]

/-- A value is rounded to more than a pattern exactly if it is nearer to the next one, or as near
and the next one is even. -/
theorem lt_nearest_iff (hq : 0 ≤ q) {k : Nat} (hk : k < infinityBits) :
    k < nearest q ↔ magnitudeValue k + magnitudeValue (k + 1) < 2 * q ∨
      magnitudeValue k + magnitudeValue (k + 1) = 2 * q ∧ k % 2 = 1 := by
  obtain ⟨n, hle, hlt, heq⟩ := exists_nearest_eq hq
  have hmono := magnitudeValue_strictMono
  have hkk := hmono k.lt_succ_self
  rw [heq, lt_min_iff, and_iff_right hk]
  rcases Nat.lt_trichotomy k n with hkn | rfl | hnk
  · have hv := hmono.monotone (Nat.succ_le_of_lt hkn)
    refine iff_of_true (by split <;> omega) (.inl (by linarith))
  · split
    · rename_i hnear
      refine iff_of_false (Nat.lt_irrefl _) ?_
      rintro (hfar | ⟨htie, hodd⟩)
      · rcases hnear with hnear | ⟨hnear, -⟩ <;> linarith
      · rcases hnear with hnear | ⟨-, heven⟩
        · linarith
        · omega
    · rename_i hfar
      rw [not_or, not_lt, not_and] at hfar
      obtain ⟨hge, hodd⟩ := hfar
      refine iff_of_true k.lt_succ_self ?_
      rcases hge.lt_or_eq with hge | htie
      · exact .inl hge
      · have := hodd htie.symm
        exact .inr ⟨htie, by omega⟩
  · have hv := hmono.monotone (Nat.succ_le_of_lt hnk)
    refine iff_of_false (by split <;> omega) ?_
    rintro (hfar | ⟨htie, -⟩) <;> linarith

/-- Infinite is what is at least half a unit above the greatest finite double. -/
theorem nearest_eq_infinityBits_iff (hq : 0 ≤ q) :
    nearest q = infinityBits ↔ 2 ^ (1024 : ℤ) - 2 ^ (970 : ℤ) ≤ q := by
  obtain ⟨htop, hbelow⟩ := magnitudeValue_infinityBits
  have hgreatest : nearest q = infinityBits ↔ infinityBits - 1 < nearest q := by
    have hle := nearest_le q
    have hpos : 0 < infinityBits := by decide
    omega
  have hunit : (2 : ℚ) ^ (1 + 970 : ℤ) = 2 * 2 ^ (970 : ℤ) := zpow_one_add₀ two_ne_zero 970
  rw [show (1 + 970 : ℤ) = 971 from rfl] at hunit
  rw [hgreatest, lt_nearest_iff hq (by decide), hbelow, Nat.sub_add_cancel (by decide), htop, hunit]
  constructor
  · rintro (hlt | ⟨htie, -⟩) <;> linarith
  · intro hge
    rcases hge.lt_or_eq with hlt | htie
    · exact .inl (by linarith)
    · exact .inr ⟨by linarith, by decide⟩

/-- Zero is what is at most half the least double. -/
theorem nearest_eq_zero_iff (hq : 0 ≤ q) : nearest q = 0 ↔ q ≤ 2 ^ (-1075 : ℤ) := by
  have hleast : magnitudeValue (0 + 1) = 2 * 2 ^ (-1075 : ℤ) := by
    have hpattern := magnitudeValue_pattern (m := 1) le_rfl (by decide) (.inr rfl)
    have hunit : (2 : ℚ) ^ (1 + -1075 : ℤ) = 2 * 2 ^ (-1075 : ℤ) := zpow_one_add₀ two_ne_zero _
    rw [sub_self, Int.toNat_zero, Nat.zero_mul] at hpattern
    rw [hpattern, ← hunit, Nat.cast_one, one_mul]
    rfl
  rw [← not_iff_not, ← Ne, ← Nat.pos_iff_ne_zero, lt_nearest_iff hq (by decide), hleast,
    magnitudeValue_zero, zero_add, not_le]
  simp

/-! Doubles in order. -/

/-- The pattern of the magnitude with the sign of the double; it orders all doubles. -/
def signedBits (x : Float) : ℤ := Dyadic.signed (isNegative x) (magnitudeBits x)

def patternValue (i : ℤ) : ℚ := i.sign * magnitudeValue i.natAbs

theorem patternValue_neg (i : ℤ) : patternValue (-i) = -patternValue i := by
  simp [patternValue]

theorem patternValue_natCast (n : Nat) : patternValue n = magnitudeValue n := by
  rcases Nat.eq_zero_or_pos n with rfl | hn
  · simp [patternValue, magnitudeValue_zero]
  · simp [patternValue, Int.sign_natCast_of_ne_zero hn.ne']

theorem patternValue_strictMono : StrictMono patternValue := by
  refine strictMono_int_of_lt_succ fun i => ?_
  rcases Int.lt_or_le i 0 with hneg | hpos
  · obtain ⟨n, rfl⟩ : ∃ n : Nat, i = -(n + 1 : Nat) := ⟨(-i - 1).toNat, by omega⟩
    have hnext : -((n + 1 : Nat) : ℤ) + 1 = -(n : ℤ) := by omega
    rw [hnext, patternValue_neg, patternValue_neg, patternValue_natCast, patternValue_natCast]
    exact neg_lt_neg (magnitudeValue_strictMono n.lt_succ_self)
  · obtain ⟨n, rfl⟩ := Int.eq_ofNat_of_zero_le hpos
    rw [← Nat.cast_succ, patternValue_natCast, patternValue_natCast]
    exact magnitudeValue_strictMono n.lt_succ_self

theorem negative_dyadic (x : Float) : (dyadic x).negative = isNegative x := by
  simp only [dyadic]
  split <;> rfl

theorem value_eq_patternValue (x : Float) : value x = patternValue (signedBits x) := by
  have hmagnitude : ((dyadic x).significand : ℚ) * 2 ^ (dyadic x).exponent =
      magnitudeValue (magnitudeBits x) := by
    simp only [dyadic, magnitudeValue]
    split <;> rfl
  rw [value, signedBits, negative_dyadic]
  cases isNegative x with
  | false =>
    rw [Dyadic.signed_false, Dyadic.signed_false, patternValue_natCast, ← hmagnitude,
      Int.cast_natCast]
  | true =>
    rw [Dyadic.signed_true, Dyadic.signed_true, patternValue_neg, patternValue_natCast,
      ← hmagnitude, Int.cast_neg, Int.cast_natCast, neg_mul]

theorem natAbs_signedBits (x : Float) : (signedBits x).natAbs = magnitudeBits x := by
  simp only [signedBits, Dyadic.signed]
  split <;> simp

theorem signedBits_ofBits (negative : Bool) (hn : n ≤ infinityBits) :
    signedBits (ofBits negative n) = Dyadic.signed negative n := by
  rw [signedBits, isNegative_ofBits negative hn, magnitudeBits_ofBits negative hn]

theorem exists_signedBits {i : ℤ} (hi : i.natAbs ≤ infinityBits) :
    ∃ x : Float, x.isNaN = false ∧ signedBits x = i := by
  refine ⟨ofBits (i < 0) i.natAbs, ?_, ?_⟩
  · exact isNaN_ofBits _ hi
  · simp only [signedBits_ofBits _ hi, Dyadic.signed, decide_eq_true_eq]
    split <;> omega

theorem significand_mod_two (x : Float) : (dyadic x).significand % 2 = magnitudeBits x % 2 := by
  unfold dyadic
  dsimp only
  split <;> simp only [leadingBit] <;> omega

theorem value_eq_zero_iff : value x = 0 ↔ magnitudeBits x = 0 := by
  have hzero : patternValue 0 = 0 := by simp [patternValue]
  rw [value_eq_patternValue, ← hzero, patternValue_strictMono.injective.eq_iff, ← natAbs_signedBits,
    Int.natAbs_eq_zero]

/-- Between two doubles with even significands there is another one. -/
theorem exists_between (hx : x.isNaN = false) (hy : y.isNaN = false)
    (hxeven : (dyadic x).significand % 2 = 0) (hyeven : (dyadic y).significand % 2 = 0)
    (hlt : value x < value y) :
    ∃ z : Float, z.isNaN = false ∧ value x < value z ∧ value z < value y := by
  rw [significand_mod_two, ← natAbs_signedBits] at hxeven hyeven
  rw [isNaN_eq_false_iff, ← natAbs_signedBits] at hx hy
  simp only [value_eq_patternValue, patternValue_strictMono.lt_iff_lt] at hlt ⊢
  obtain ⟨z, hz, hnext⟩ := exists_signedBits (i := signedBits x + 1) (by omega)
  exact ⟨z, hz, by omega, by omega⟩

/-! The nearest double. -/

/-- All doubles that are nearest to a value have one exact value: they differ in the sign of a zero
at most. -/
theorem IsNearest.value_unique (hx : IsNearest q x) (hy : IsNearest q y) : value x = value y := by
  by_contra hne
  have hsame : |q - value x| = |q - value y| := (hx.le y hy.isNaN).antisymm (hy.le x hx.isNaN)
  wlog hlt : value x < value y generalizing x y
  · exact this hy hx (Ne.symm hne) hsame.symm (lt_of_le_of_ne (not_lt.1 hlt) (Ne.symm hne))
  obtain ⟨z, hz, hxz, hzy⟩ := exists_between hx.isNaN hy.isNaN
    (hx.even y hy.isNaN hsame hne) (hy.even x hx.isNaN hsame.symm (Ne.symm hne)) hlt
  -- both are as near, so that a double between them would be nearer
  have hmiddle : q - value x = value y - q := by
    rcases abs_eq_abs.1 hsame with h | h <;> linarith
  have hnearer : |q - value z| < |q - value x| := by
    rw [abs_of_pos (by linarith : 0 < q - value x), abs_lt]
    exact ⟨by linarith, by linarith⟩
  exact absurd (hx.le z hz) (not_le.2 hnearer)

/-- Negative doubles are farther from a value that is not negative than zero is. -/
theorem nearest_minimal_signed (hq : 0 ≤ q) {i : ℤ} (hi : i.natAbs ≤ infinityBits) :
    |q - patternValue (nearest q)| ≤ |q - patternValue i| ∧
      (|q - patternValue (nearest q)| = |q - patternValue i| → (nearest q : ℤ) ≠ i →
        nearest q % 2 = 0) := by
  rw [patternValue_natCast]
  rcases Int.lt_or_le i 0 with hneg | hpos
  · have hbelow : patternValue i < patternValue (0 : Nat) := patternValue_strictMono hneg
    have hzero := (nearest_minimal hq (Nat.zero_le infinityBits)).1
    rw [patternValue_natCast] at hbelow
    have hfarther : |q - magnitudeValue 0| < |q - patternValue i| := by
      rw [magnitudeValue_zero] at hbelow ⊢
      rw [abs_of_nonneg (by linarith), abs_of_nonneg (by linarith)]
      linarith
    exact ⟨by linarith, fun hsame => by linarith⟩
  · obtain ⟨k, rfl⟩ := Int.eq_ofNat_of_zero_le hpos
    have h := nearest_minimal hq (k := k) hi
    rw [patternValue_natCast]
    exact ⟨h.1, fun hsame hne => h.2 hsame fun heq => hne (congrArg _ heq)⟩

theorem value_of_signedBits_neg (h : signedBits y = -signedBits x) : value y = -value x := by
  rw [value_eq_patternValue, value_eq_patternValue, h, patternValue_neg]

theorem IsNearest.neg (h : IsNearest q x) (hy : y.isNaN = false)
    (hbits : signedBits y = -signedBits x) : IsNearest (-q) y := by
  have hflip {z z' : Float} (hz : value z' = -value z) : |-q - value z| = |q - value z'| := by
    rw [hz, abs_sub_comm, sub_neg_eq_add, sub_neg_eq_add, add_comm]
  have hself : value x = -value y := by
    rw [value_of_signedBits_neg hbits, neg_neg]
  have hopposite (z : Float) (hz : z.isNaN = false) :
      ∃ z' : Float, z'.isNaN = false ∧ value z' = -value z := by
    rw [isNaN_eq_false_iff, ← natAbs_signedBits, ← Int.natAbs_neg] at hz
    obtain ⟨z', hz', hsigned⟩ := exists_signedBits hz
    exact ⟨z', hz', value_of_signedBits_neg hsigned⟩
  refine ⟨hy, fun z hz => ?_, fun z hz hsame hne => ?_⟩
  · obtain ⟨z', hz', hv⟩ := hopposite z hz
    rw [hflip hself, hflip hv]
    exact h.le z' hz'
  · obtain ⟨z', hz', hv⟩ := hopposite z hz
    rw [hflip hself, hflip hv] at hsame
    have hparity : magnitudeBits y = magnitudeBits x := by
      rw [← natAbs_signedBits, hbits, Int.natAbs_neg, natAbs_signedBits]
    rw [significand_mod_two, hparity, ← significand_mod_two]
    refine h.even z' hz' hsame fun heq => hne ?_
    rw [hself, hv] at heq
    exact neg_injective heq

theorem isNearest_ofBits (hq : 0 ≤ q) (negative : Bool) :
    IsNearest (if negative then -q else q) (ofBits negative (nearest q)) := by
  have hle := nearest_le q
  have hbits (s : Bool) : signedBits (ofBits s (nearest q)) = Dyadic.signed s (nearest q) :=
    signedBits_ofBits s hle
  have hnumber (s : Bool) : (ofBits s (nearest q)).isNaN = false := isNaN_ofBits s hle
  have hpositive : IsNearest q (ofBits false (nearest q)) := by
    have hminimal (y : Float) (hy : y.isNaN = false) := nearest_minimal_signed hq
      (i := signedBits y) (by rwa [isNaN_eq_false_iff, ← natAbs_signedBits] at hy)
    simp only [← Dyadic.signed_false, ← hbits false, ← value_eq_patternValue] at hminimal
    refine ⟨hnumber false, fun y hy => (hminimal y hy).1, fun y hy hsame hne => ?_⟩
    rw [significand_mod_two, magnitudeBits_ofBits false hle]
    refine (hminimal y hy).2 hsame fun heq => hne ?_
    rw [value_eq_patternValue, value_eq_patternValue, heq]
  cases negative with
  | false => exact hpositive
  | true => exact hpositive.neg (hnumber true) (by rw [hbits, hbits]; rfl)

theorem isNearest_value (hx : x.isNaN = false) : IsNearest (value x) x where
  isNaN := hx
  le y _ := by
    rw [sub_self, abs_zero]
    exact abs_nonneg _
  even y _ hsame hne := by
    rw [sub_self, abs_zero, eq_comm, abs_eq_zero, sub_eq_zero] at hsame
    exact absurd hsame hne

theorem isNearest_ofBits_abs (q : ℚ) : IsNearest q (ofBits (q < 0) (nearest |q|)) := by
  have hfound := isNearest_ofBits (abs_nonneg q) (q < 0)
  have hself : (if decide (q < 0) then -|q| else |q|) = q := by
    rcases lt_or_ge q 0 with hneg | hpos
    · rw [if_pos (decide_eq_true hneg), abs_of_neg hneg, neg_neg]
    · rw [if_neg (by simpa using hpos), abs_of_nonneg hpos]
  rwa [hself] at hfound

theorem exists_isNearest (q : ℚ) : ∃ x, IsNearest q x := ⟨_, isNearest_ofBits_abs q⟩

theorem IsNearest.signedBits_eq (h : IsNearest q x) :
    signedBits x = Dyadic.signed (q < 0) (nearest |q|) := by
  have heq := h.value_unique (isNearest_ofBits_abs q)
  rw [value_eq_patternValue, value_eq_patternValue, patternValue_strictMono.injective.eq_iff] at heq
  rw [heq, signedBits_ofBits _ (nearest_le _)]

theorem IsNearest.magnitudeBits_eq (h : IsNearest q x) : magnitudeBits x = nearest |q| := by
  rw [← natAbs_signedBits, h.signedBits_eq, Dyadic.signed]
  split <;> simp

theorem IsNearest.eq_ofBits (h : IsNearest q x) (hne : nearest |q| ≠ 0) :
    x = ofBits (q < 0) (nearest |q|) := by
  have hbits := h.magnitudeBits_eq
  have hsigned := h.signedBits_eq
  rw [signedBits, hbits] at hsigned
  rw [← Dyadic.signed_left_injective hne hsigned, ← hbits,
    ofBits_magnitudeBits (isNaN_eq_false_iff.1 h.isNaN)]

/-- A value has an infinite nearest double from half a unit above the greatest finite one on. -/
theorem IsNearest.isInf_iff (h : IsNearest q x) :
    x.isInf ↔ 2 ^ (1024 : ℤ) - 2 ^ (970 : ℤ) ≤ |q| := by
  rw [Double.isInf_iff h.isNaN, h.magnitudeBits_eq, nearest_eq_infinityBits_iff (abs_nonneg q)]

/-- A value has zero as its nearest double up to half the least other one. -/
theorem IsNearest.value_eq_zero_iff (h : IsNearest q x) : value x = 0 ↔ |q| ≤ 2 ^ (-1075 : ℤ) := by
  rw [Double.value_eq_zero_iff, h.magnitudeBits_eq, nearest_eq_zero_iff (abs_nonneg q)]

end Double
end DeskCalculator
