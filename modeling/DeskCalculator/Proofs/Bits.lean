import DeskCalculator.Double.Basic
import Mathlib
/-!
Floats as a sign and the pattern of a magnitude. Main statement: `Double.ofBits_magnitudeBits` says
that a float that is no NaN is given by them; comparisons with zero, the negative and the magnitude
are read off them.
-/
namespace DeskCalculator
namespace Double

open Float.Model (Format UnpackedFloat)
open Float.Model.UnpackedFloat

/-- The bit pattern of a sign, an exponent field and a fraction. -/
def pattern (s : Sign) (e : BitVec 11) (m : BitVec 52) : BitVec Format.binary64.numBits :=
  packComponents Format.binary64 s e m

theorem toNat_pattern (s : Sign) (e : BitVec 11) (m : BitVec 52) :
    (pattern s e m).toNat = s.toBitVec.toNat * 2 ^ 63 + e.toNat * 2 ^ 52 + m.toNat := by
  simp only [pattern, packComponents, BitVec.toNat_append]
  rw [← Nat.shiftLeft_add_eq_or_of_lt e.isLt, ← Nat.shiftLeft_add_eq_or_of_lt m.isLt,
    Nat.shiftLeft_eq, Nat.shiftLeft_eq]
  omega

theorem exists_eq_pattern (b : BitVec Format.binary64.numBits) : ∃ s e m, b = pattern s e m := by
  refine ⟨if b.toNat < 2 ^ 63 then .positive else .negative, BitVec.ofNat 11 (b.toNat / 2 ^ 52),
    BitVec.ofNat 52 b.toNat, ?_⟩
  apply BitVec.eq_of_toNat_eq
  rw [toNat_pattern]
  have hb : b.toNat < 2 ^ 64 := b.isLt
  split <;> simp [Sign.toBitVec] <;> omega

theorem sign_pattern (s : Sign) (e : BitVec 11) (m : BitVec 52) :
    Sign.ofBitVec (unpackSign (pattern s e m)) = s := by
  have h : unpackSign (pattern s e m) = s.toBitVec := by
    apply BitVec.eq_of_toNat_eq
    have hs := s.toBitVec.isLt
    have he := e.isLt
    have hm := m.isLt
    simp only [unpackSign, BitVec.toNat_cast, BitVec.extractLsb_toNat, toNat_pattern,
      Nat.shiftRight_eq_div_pow]
    omega
  rw [h]
  cases s <;> rfl

theorem toNat_implicit (m : BitVec 52) : (1#1 ++ m).toNat = 2 ^ 52 + m.toNat := by
  rw [BitVec.toNat_append, ← Nat.shiftLeft_add_eq_or_of_lt m.isLt, Nat.shiftLeft_eq]
  rfl

theorem pack_subnormal (s : Sign) {n : Nat} (hn : 0 < n) (hlt : n < 2 ^ 52) {k : Int}
    (hk : k = -1074) :
    pack Format.binary64 (.finite s n k hn) = pattern s 0#11 (BitVec.ofNat 52 n) := by
  have hlog : ¬ n.log2 + 1 = Format.binary64.mantissaBits := by
    have := (Nat.log2_lt (by omega)).2 hlt
    have hbits : Format.binary64.mantissaBits = 53 := rfl
    omega
  subst hk
  simp only [pack, if_neg hlog]
  rfl

theorem pack_normal (s : Sign) {n : Nat} (hn : 0 < n) (hle : 2 ^ 52 ≤ n) (hlt : n < 2 ^ 53)
    {e : Nat} (he : e < 2047) {k : Int} (hk : k = e - 1075) :
    pack Format.binary64 (.finite s n k hn) =
      pattern s (BitVec.ofNat 11 e) (BitVec.ofNat 52 n) := by
  have hlog : n.log2 + 1 = Format.binary64.mantissaBits := by
    have h1 := (Nat.log2_lt (by omega)).2 hlt
    have h2 := (Nat.le_log2 (by omega)).2 hle
    have hbits : Format.binary64.mantissaBits = 53 := rfl
    omega
  have hbias : (k + Format.binary64.exponentBias +
      Format.binary64.mantissaBitsWithoutImplicit).toNat = e := by
    have hb : Format.binary64.exponentBias = 1023 := rfl
    have hb' : Format.binary64.mantissaBitsWithoutImplicit = 52 := rfl
    omega
  have hfits : ¬ 2 ^ Format.binary64.exponentBits ≤ e + 1 := by
    have hb : Format.binary64.exponentBits = 11 := rfl
    rw [hb]
    omega
  simp only [pack, hbias, if_neg hfits, if_pos hlog]
  rfl

/-- What a pattern that is no NaN stands for, and how it comes back with any sign. -/
theorem unpack_pattern (s : Sign) (e : BitVec 11) (m : BitVec 52) (hnan : e = -1#_ → m = 0#_) :
    (e = -1#_ ∧ m = 0#_ ∧ unpack Format.binary64 (pattern s e m) = .infinity s) ∨
    (e = 0#_ ∧ m = 0#_ ∧ unpack Format.binary64 (pattern s e m) = .zero s) ∨
    (e ≠ -1#_ ∧ (e = 0#_ → m ≠ 0#_) ∧ ∃ n k hn,
      unpack Format.binary64 (pattern s e m) = .finite s n k hn ∧
      ∀ s', pack Format.binary64 (.finite s' n k hn) = pattern s' e m) := by
  have hs := sign_pattern s e m
  have he : unpackExponent (pattern s e m) = e := unpackExponent_packComponents
  have hm : unpackMantissa (pattern s e m) = m := unpackMantissa_packComponents
  have hmlt := m.isLt
  simp only [unpack, hs, he, hm]
  by_cases htop : e = -1#_
  · rw [if_pos htop, if_pos (hnan htop)]
    exact .inl ⟨htop, hnan htop, rfl⟩
  · have hlt : e.toNat < 2047 := by
      have := e.isLt
      have hne : e.toNat ≠ 2047 := fun h => htop (BitVec.eq_of_toNat_eq h)
      omega
    refine .inr ?_
    rw [if_neg htop]
    by_cases hzero : e = 0#_
    · rw [if_pos hzero]
      by_cases hm0 : m = 0#_
      · rw [dif_pos hm0]
        exact .inl ⟨hzero, hm0, rfl⟩
      · rw [dif_neg hm0]
        have hpos : 0 < m.toNat := Nat.pos_of_ne_zero fun h => hm0 (BitVec.eq_of_toNat_eq h)
        refine .inr ⟨htop, fun _ => hm0, _, _, hpos, rfl, fun s' => ?_⟩
        rw [pack_subnormal s' hpos hmlt (by rw [hzero]; rfl), hzero, BitVec.ofNat_toNat,
          BitVec.setWidth_eq]
    · rw [if_neg hzero]
      have hn := toNat_implicit m
      have hpos : 0 < (1#1 ++ m).toNat := by omega
      refine .inr ⟨htop, fun h => absurd h hzero, _, _, hpos, rfl, fun s' => ?_⟩
      have hfraction : BitVec.ofNat 52 (1#1 ++ m).toNat = m := by
        apply BitVec.eq_of_toNat_eq
        rw [BitVec.toNat_ofNat, hn]
        omega
      refine (pack_normal s' hpos (by omega) (by omega) hlt ?_).trans ?_
      · have hbias : Format.binary64.exponentBias = 1023 := rfl
        omega
      · rw [hfraction, BitVec.ofNat_toNat, BitVec.setWidth_eq]
section pattern

variable {s : Sign} {e : BitVec 11} {m : BitVec 52}

theorem pack_unpack_pattern (hnan : e = -1#_ → m = 0#_) :
    pack Format.binary64 (unpack Format.binary64 (pattern s e m)) = pattern s e m := by
  rcases unpack_pattern s e m hnan with ⟨rfl, rfl, hu⟩ | ⟨rfl, rfl, hu⟩ | ⟨-, -, n, k, hn, hu, hp⟩
  · rw [hu]; rfl
  · rw [hu]; rfl
  · rw [hu, hp]

theorem pack_neg_unpack_pattern (hnan : e = -1#_ → m = 0#_) :
    pack Format.binary64 (unpack Format.binary64 (pattern s e m)).neg = pattern (-s) e m := by
  rcases unpack_pattern s e m hnan with ⟨rfl, rfl, hu⟩ | ⟨rfl, rfl, hu⟩ | ⟨-, -, n, k, hn, hu, hp⟩
  · rw [hu]; rfl
  · rw [hu]; rfl
  · rw [hu]; exact hp (-s)

theorem pack_abs_unpack_pattern (hnan : e = -1#_ → m = 0#_) :
    pack Format.binary64 (unpack Format.binary64 (pattern s e m)).abs = pattern .positive e m := by
  rcases unpack_pattern s e m hnan with ⟨rfl, rfl, hu⟩ | ⟨rfl, rfl, hu⟩ | ⟨-, -, n, k, hn, hu, hp⟩
  · rw [hu]; rfl
  · rw [hu]; rfl
  · rw [hu]; exact hp .positive

theorem isFinite_unpack_pattern :
    (unpack Format.binary64 (pattern s e m)).isFinite = true ↔ e ≠ -1#_ := by
  by_cases htop : e = -1#_
  · have he : unpackExponent (pattern s e m) = e := unpackExponent_packComponents
    simp only [unpack, he]
    rw [if_pos htop]
    split <;> simp [htop, isFinite]
  · have hnan : e = -1#_ → m = 0#_ := fun h => absurd h htop
    rcases unpack_pattern s e m hnan with ⟨h, -⟩ | ⟨-, -, hu⟩ | ⟨-, -, n, k, hn, hu, -⟩
    · exact absurd h htop
    · rw [hu]
      exact ⟨fun _ => htop, fun _ => rfl⟩
    · rw [hu]
      exact ⟨fun _ => htop, fun _ => rfl⟩

end pattern

/-! Floats by their sign and the pattern of their magnitude. -/

theorem toBits_injective {x y : Float} (h : x.toBits = y.toBits) : x = y := by
  obtain ⟨⟨b, hb⟩⟩ := x
  obtain ⟨⟨c, hc⟩⟩ := y
  cases h
  rfl

def signOf (negative : Bool) : Sign := if negative then .negative else .positive

theorem toNat_toBitVec_signOf (negative : Bool) :
    (signOf negative).toBitVec.toNat = if negative then 1 else 0 := by
  cases negative <;> rfl

theorem exists_pattern_of_le (negative : Bool) {n : Nat} (hn : n ≤ infinityBits) :
    ∃ (e : BitVec 11) (m : BitVec 52),
      (UInt64.ofNat (n + if negative then signBit else 0)).toBitVec =
        pattern (signOf negative) e m ∧
      n = e.toNat * 2 ^ 52 + m.toNat ∧ (e = -1#_ → m = 0#_) := by
  have hle : n ≤ 2047 * 2 ^ 52 := hn
  have he : (BitVec.ofNat 11 (n / 2 ^ 52)).toNat = n / 2 ^ 52 := by
    rw [BitVec.toNat_ofNat]
    omega
  have hm : (BitVec.ofNat 52 n).toNat = n % 2 ^ 52 := BitVec.toNat_ofNat n 52
  refine ⟨BitVec.ofNat 11 (n / 2 ^ 52), BitVec.ofNat 52 n, ?_, ?_, ?_⟩
  · have hbits : (n + if negative then signBit else 0) < 2 ^ 64 := by
      simp only [signBit]
      split <;> omega
    apply BitVec.eq_of_toNat_eq
    rw [toNat_pattern, he, hm, toNat_toBitVec_signOf]
    have hnat : (UInt64.ofNat (n + if negative then signBit else 0)).toBitVec.toNat =
        n + if negative then signBit else 0 := UInt64.toNat_ofNat_of_lt hbits
    rw [hnat]
    simp only [signBit]
    split <;> omega
  · omega
  · intro htop
    apply BitVec.eq_of_toNat_eq
    have h := congrArg BitVec.toNat htop
    rw [he] at h
    have htop' : (-1#11).toNat = 2047 := rfl
    rw [hm, BitVec.toNat_zero]
    omega

theorem toBits_ofBits (negative : Bool) {n : Nat} (hn : n ≤ infinityBits) :
    (ofBits negative n).toBits.toNat = n + if negative then signBit else 0 := by
  obtain ⟨e, m, hbits, -, hnan⟩ := exists_pattern_of_le negative hn
  have hlt : (n + if negative then signBit else 0) < 2 ^ 64 := by
    have hle : n ≤ 2047 * 2 ^ 52 := hn
    simp only [signBit]
    split <;> omega
  have hpack : (ofBits negative n).toBits.toBitVec =
      pack Format.binary64 (unpack Format.binary64
        (UInt64.ofNat (n + if negative then signBit else 0)).toBitVec) := rfl
  rw [← UInt64.toNat_toBitVec, hpack, hbits, pack_unpack_pattern hnan, ← hbits]
  exact UInt64.toNat_ofNat_of_lt hlt

@[simp] theorem isNegative_ofBits (negative : Bool) {n : Nat} (hn : n ≤ infinityBits) :
    isNegative (ofBits negative n) = negative := by
  have hle : n ≤ 2047 * 2 ^ 52 := hn
  rw [isNegative, toBits_ofBits negative hn]
  cases negative
  · simp only [signBit, Bool.false_eq_true, if_false, decide_eq_false_iff_not]
    omega
  · simp only [signBit, if_true, decide_eq_true_eq]
    omega

@[simp] theorem magnitudeBits_ofBits (negative : Bool) {n : Nat} (hn : n ≤ infinityBits) :
    magnitudeBits (ofBits negative n) = n := by
  have hle : n ≤ 2047 * 2 ^ 52 := hn
  rw [magnitudeBits, toBits_ofBits negative hn]
  simp only [signBit]
  split <;> omega

/-- A float that is no NaN is given by its sign and the pattern of its magnitude. -/
theorem ofBits_magnitudeBits {x : Float} (hx : magnitudeBits x ≤ infinityBits) :
    ofBits (isNegative x) (magnitudeBits x) = x := by
  apply toBits_injective
  apply UInt64.toNat_inj.1
  rw [toBits_ofBits _ hx]
  have hlt : x.toBits.toNat < 2 ^ 64 := x.toBits.toNat_lt
  cases hneg : isNegative x with
  | false =>
    have hbits : ¬ signBit ≤ x.toBits.toNat := of_decide_eq_false hneg
    simp only [magnitudeBits, signBit, Bool.false_eq_true, if_false] at hbits ⊢
    omega
  | true =>
    have hbits : signBit ≤ x.toBits.toNat := of_decide_eq_true hneg
    simp only [magnitudeBits, signBit, if_true] at hbits ⊢
    omega

theorem exists_pattern (x : Float) : ∃ (e : BitVec 11) (m : BitVec 52),
    x.toBits.toBitVec = pattern (signOf (isNegative x)) e m ∧
      magnitudeBits x = e.toNat * 2 ^ 52 + m.toNat := by
  obtain ⟨s, e, m, h⟩ := exists_eq_pattern x.toBits.toBitVec
  have hnat : x.toBits.toNat = s.toBitVec.toNat * 2 ^ 63 + e.toNat * 2 ^ 52 + m.toNat := by
    rw [← UInt64.toNat_toBitVec, h, toNat_pattern]
  have he := e.isLt
  have hm := m.isLt
  have hs : signOf (isNegative x) = s := by
    cases s with
    | negative =>
      have hbit : Sign.negative.toBitVec.toNat = 1 := rfl
      rw [isNegative, hnat, decide_eq_true (by simp only [signBit]; omega)]
      rfl
    | positive =>
      have hbit : Sign.positive.toBitVec.toNat = 0 := rfl
      rw [isNegative, hnat, decide_eq_false (by simp only [signBit]; omega)]
      rfl
  refine ⟨e, m, by rw [h, hs], ?_⟩
  have hbit := s.toBitVec.isLt
  simp only [magnitudeBits, hnat, signBit]
  omega

theorem isFinite_iff {x : Float} : x.isFinite ↔ magnitudeBits x < infinityBits := by
  obtain ⟨e, m, h, hn⟩ := exists_pattern x
  have hfinite : x.isFinite = (unpack Format.binary64 x.toBits.toBitVec).isFinite := rfl
  have he := e.isLt
  have hm := m.isLt
  rw [hfinite, h, isFinite_unpack_pattern, hn]
  have htop : e ≠ -1#_ ↔ e.toNat ≠ 2047 :=
    not_congr ⟨fun h => by rw [h]; rfl, fun h => BitVec.eq_of_toNat_eq h⟩
  rw [htop]
  simp only [infinityBits]
  omega

theorem unpack_of_isFinite {x : Float} (hx : x.isFinite) :
    (magnitudeBits x = 0 ∧ x.toModel.unpack = .zero (signOf (isNegative x))) ∨
    (magnitudeBits x ≠ 0 ∧ ∃ n k hn,
      x.toModel.unpack = .finite (signOf (isNegative x)) n k hn) := by
  obtain ⟨e, m, h, hn⟩ := exists_pattern x
  have hunpack : x.toModel.unpack = unpack Format.binary64 x.toBits.toBitVec := rfl
  have hfinite : (unpack Format.binary64 x.toBits.toBitVec).isFinite = true := hx
  rw [h, isFinite_unpack_pattern] at hfinite
  rw [hunpack, h, hn]
  rcases unpack_pattern (signOf (isNegative x)) e m (fun ht => absurd ht hfinite) with
    ⟨ht, -⟩ | ⟨rfl, rfl, hu⟩ | ⟨-, hne, n, k, hpos, hu, -⟩
  · exact absurd ht hfinite
  · exact .inl ⟨rfl, hu⟩
  · refine .inr ⟨fun hzero => ?_, n, k, hpos, hu⟩
    exact hne (BitVec.eq_of_toNat_eq (by rw [BitVec.toNat_zero]; omega))
      (BitVec.eq_of_toNat_eq (by rw [BitVec.toNat_zero]; omega))

theorem beq_zero_iff {x : Float} (hx : x.isFinite) : x == 0 ↔ magnitudeBits x = 0 := by
  have hbeq : (x == 0) = (x.toModel.unpack.compare (.zero .positive) == some .eq) := rfl
  rw [hbeq]
  rcases unpack_of_isFinite hx with ⟨hm, hu⟩ | ⟨hm, n, k, hn, hu⟩ <;> rw [hu]
  · cases isNegative x <;> simp [hm, UnpackedFloat.compare]
  · cases isNegative x <;> simp [hm, signOf, UnpackedFloat.compare]

theorem lt_zero_iff {x : Float} (hx : x.isFinite) :
    x < 0 ↔ isNegative x ∧ magnitudeBits x ≠ 0 := by
  have hlt : x < 0 ↔ (x.toModel.unpack.compare (.zero .positive) == some .lt) = true :=
    (decide_eq_true_iff : _ ↔ x.toModel < (0 : Float).toModel)
  rw [hlt]
  rcases unpack_of_isFinite hx with ⟨hm, hu⟩ | ⟨hm, n, k, hn, hu⟩ <;> rw [hu]
  · cases isNegative x <;> simp [hm, UnpackedFloat.compare]
  · cases isNegative x <;> simp [hm, signOf, UnpackedFloat.compare]

theorem zero_lt_iff {x : Float} (hx : x.isFinite) :
    0 < x ↔ isNegative x = false ∧ magnitudeBits x ≠ 0 := by
  have hlt : 0 < x ↔
      ((UnpackedFloat.zero .positive).compare x.toModel.unpack == some .lt) = true :=
    (decide_eq_true_iff : _ ↔ (0 : Float).toModel < x.toModel)
  rw [hlt]
  rcases unpack_of_isFinite hx with ⟨hm, hu⟩ | ⟨hm, n, k, hn, hu⟩ <;> rw [hu]
  · cases isNegative x <;> simp [hm, UnpackedFloat.compare]
  · cases isNegative x <;> simp [hm, signOf, UnpackedFloat.compare]

theorem eq_ofBits_of_pattern {x y : Float} (hx : x.isFinite) {negative : Bool}
    (h : ∀ (e : BitVec 11) (m : BitVec 52), (e = -1#_ → m = 0#_) →
      x.toBits.toBitVec = pattern (signOf (isNegative x)) e m →
      y.toBits.toBitVec = pattern (signOf negative) e m) :
    y = ofBits negative (magnitudeBits x) := by
  obtain ⟨e, m, hbits, hn⟩ := exists_pattern x
  have hlt := isFinite_iff.1 hx
  have hnan : e = -1#_ → m = 0#_ := by
    rintro rfl
    have htop : (-1#11).toNat = 2047 := rfl
    simp only [infinityBits, hn, htop] at hlt
    omega
  have hy := h e m hnan hbits
  apply toBits_injective
  apply UInt64.toNat_inj.1
  rw [toBits_ofBits negative (Nat.le_of_lt hlt), ← UInt64.toNat_toBitVec, hy, toNat_pattern,
    toNat_toBitVec_signOf, hn]
  simp only [signBit]
  split <;> omega

theorem neg_eq_ofBits {x : Float} (hx : x.isFinite) :
    -x = ofBits (!isNegative x) (magnitudeBits x) := by
  refine eq_ofBits_of_pattern hx fun e m hnan h => ?_
  have hneg : (-x).toBits.toBitVec =
      pack Format.binary64 (unpack Format.binary64 x.toBits.toBitVec).neg := rfl
  rw [hneg, h, pack_neg_unpack_pattern hnan]
  cases isNegative x <;> rfl

theorem abs_eq_ofBits {x : Float} (hx : x.isFinite) : x.abs = ofBits false (magnitudeBits x) := by
  refine eq_ofBits_of_pattern hx fun e m hnan h => ?_
  have habs : x.abs.toBits.toBitVec =
      pack Format.binary64 (unpack Format.binary64 x.toBits.toBitVec).abs := rfl
  rw [habs, h, pack_abs_unpack_pattern hnan]
  rfl

end Double
end DeskCalculator
