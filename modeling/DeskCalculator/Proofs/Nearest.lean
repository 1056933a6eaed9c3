import DeskCalculator.Decimal.Shortest
import DeskCalculator.Proofs.Bits
/-!
The nearest double as a function of the value that a fraction stands for. Main statements:
`Double.nearestBits_ratio_dyadic` says that a finite double is the nearest one to its own value, and
`Decimal.toDouble_shortest` that its shortest decimal is read as the double.
-/
namespace DeskCalculator

def fractionValue (f : Nat × Nat) : ℚ := f.1 / f.2

theorem fractionValue_scaleFraction {base : Nat} (num den : Nat) (hb : 0 < base)
    (exponent : Int) :
    fractionValue (scaleFraction base exponent num den) =
      fractionValue (num, den) * (base : ℚ) ^ exponent := by
  have hbase : (base : ℚ) ≠ 0 := Nat.cast_ne_zero.2 (Nat.ne_of_gt hb)
  simp only [fractionValue, scaleFraction]
  rcases Int.le_total 0 exponent with h | h
  · obtain ⟨n, rfl⟩ := Int.eq_ofNat_of_zero_le h
    simp [mul_div_right_comm]
  · obtain ⟨n, hn⟩ := Int.eq_ofNat_of_zero_le (Int.neg_nonneg_of_nonpos h)
    obtain rfl : exponent = -n := by omega
    simp [div_eq_mul_inv]
    ring

/-- The natural number next to a value, a half to the even one. -/
def roundValue (q : ℚ) : Nat :=
  if 2 * (q - ⌊q⌋₊) < 1 ∨ 2 * (q - ⌊q⌋₊) = 1 ∧ ⌊q⌋₊ % 2 = 0 then ⌊q⌋₊ else ⌊q⌋₊ + 1

theorem roundHalfEven_eq {num den : Nat} (hd : 0 < den) :
    roundHalfEven num den = roundValue (fractionValue (num, den)) := by
  have hden : (0 : ℚ) < den := Nat.cast_pos.2 hd
  have hfloor : ⌊fractionValue (num, den)⌋₊ = num / den := Nat.floor_div_eq_div num den
  have hrest : fractionValue (num, den) - (num / den : Nat) = ((num % den : Nat) : ℚ) / den := by
    have hsplit : (num : ℚ) = den * (num / den : Nat) + (num % den : Nat) := by
      exact_mod_cast (Nat.div_add_mod num den).symm
    simp only [fractionValue]
    rw [eq_div_iff hden.ne', sub_mul, div_mul_cancel₀ _ hden.ne']
    linarith
  have hlt : 2 * (((num % den : Nat) : ℚ) / den) < 1 ↔ 2 * (num % den) < den := by
    rw [← mul_div_assoc, div_lt_one hden]
    exact_mod_cast Iff.rfl
  have heq : 2 * (((num % den : Nat) : ℚ) / den) = 1 ↔ 2 * (num % den) = den := by
    rw [← mul_div_assoc, div_eq_one_iff_eq hden.ne']
    exact_mod_cast Iff.rfl
  simp only [roundHalfEven, roundValue, hfloor, hrest, hlt, heq]

theorem roundValue_natCast (n : Nat) : roundValue n = n := by
  simp [roundValue]

theorem roundValue_eq_zero {q : ℚ} (h : 2 * q < 1) : roundValue q = 0 := by
  have hfloor : ⌊q⌋₊ = 0 := Nat.floor_eq_zero.2 (by linarith)
  simp only [roundValue]
  rw [hfloor, if_pos (.inl (by simpa using h))]

theorem floor_le_roundValue (q : ℚ) : ⌊q⌋₊ ≤ roundValue q := by
  simp only [roundValue]
  split <;> omega

theorem fractionValue_pos {f : Nat × Nat} (hn : 0 < f.1) (hd : 0 < f.2) : 0 < fractionValue f :=
  div_pos (Nat.cast_pos.2 hn) (Nat.cast_pos.2 hd)

theorem one_le_fractionValue {f : Nat × Nat} (hd : 0 < f.2) : 1 ≤ fractionValue f ↔ f.2 ≤ f.1 := by
  have hden : (0 : ℚ) < f.2 := Nat.cast_pos.2 hd
  rw [fractionValue, one_le_div hden, Nat.cast_le]

/-- A guess that is at most one too high is put right. -/
theorem exponentFrom_eq {base num den : Nat} (hb : 1 < base) (hn : 0 < num) (hd : 0 < den)
    {guess : Int} (hle : Int.log base (fractionValue (num, den)) ≤ guess)
    (hge : guess - 1 ≤ Int.log base (fractionValue (num, den))) :
    exponentFrom base guess num den = Int.log base (fractionValue (num, den)) := by
  have hq : 0 < fractionValue (num, den) := fractionValue_pos hn hd
  have hpow : (0 : ℚ) < (base : ℚ) ^ guess := zpow_pos (Nat.cast_pos.2 (by omega)) guess
  have hpos : 0 < (scaleFraction base (-guess) num den).2 :=
    scaleFraction_den_pos (by omega) hd _ _
  have htest : (scaleFraction base (-guess) num den).2 ≤ (scaleFraction base (-guess) num den).1 ↔
      guess ≤ Int.log base (fractionValue (num, den)) := by
    rw [← one_le_fractionValue hpos, fractionValue_scaleFraction _ _ (by omega), zpow_neg,
      ← div_eq_mul_inv, one_le_div hpow, Int.zpow_le_iff_le_log hb hq]
  simp only [exponentFrom, htest]
  split <;> omega

theorem binaryExponent_eq {num den : Nat} (hn : 0 < num) (hd : 0 < den) :
    binaryExponent num den = Int.log 2 (fractionValue (num, den)) := by
  have hq : 0 < fractionValue (num, den) := fractionValue_pos hn hd
  have hnum : (0 : ℚ) < num := Nat.cast_pos.2 hn
  have hden : (0 : ℚ) < den := Nat.cast_pos.2 hd
  have hnum_ge : (2 : ℚ) ^ (num.log2 : Int) ≤ num := by
    rw [zpow_natCast]
    exact_mod_cast Nat.log2_self_le (by omega)
  have hnum_lt : (num : ℚ) < 2 ^ (num.log2 + 1 : Int) := by
    rw [← Nat.cast_succ, zpow_natCast]
    exact_mod_cast Nat.lt_log2_self
  have hden_ge : (2 : ℚ) ^ (den.log2 : Int) ≤ den := by
    rw [zpow_natCast]
    exact_mod_cast Nat.log2_self_le (by omega)
  have hden_lt : (den : ℚ) < 2 ^ (den.log2 + 1 : Int) := by
    rw [← Nat.cast_succ, zpow_natCast]
    exact_mod_cast Nat.lt_log2_self
  have hbelow : fractionValue (num, den) < (2 : ℚ) ^ ((num.log2 : Int) - den.log2 + 1) := by
    have hsplit : (num.log2 : Int) + 1 = (num.log2 - den.log2 + 1) + den.log2 := by ring
    rw [fractionValue, div_lt_iff₀ hden]
    calc (num : ℚ) < 2 ^ (num.log2 + 1 : Int) := hnum_lt
      _ = 2 ^ ((num.log2 : Int) - den.log2 + 1) * 2 ^ (den.log2 : Int) := by
        rw [hsplit, zpow_add₀ two_ne_zero]
      _ ≤ 2 ^ ((num.log2 : Int) - den.log2 + 1) * den := by gcongr
  have habove : (2 : ℚ) ^ ((num.log2 : Int) - den.log2 - 1) ≤ fractionValue (num, den) := by
    have hsplit : (num.log2 : Int) = (num.log2 - den.log2 - 1) + (den.log2 + 1) := by ring
    rw [fractionValue, le_div_iff₀ hden]
    calc (2 : ℚ) ^ ((num.log2 : Int) - den.log2 - 1) * den
        ≤ 2 ^ ((num.log2 : Int) - den.log2 - 1) * 2 ^ (den.log2 + 1 : Int) := by gcongr
      _ = 2 ^ (num.log2 : Int) := by rw [← zpow_add₀ two_ne_zero, ← hsplit]
      _ ≤ num := hnum_ge
  refine exponentFrom_eq (by decide) hn hd ?_ ?_
  · have h := (Int.lt_zpow_iff_log_lt (b := 2) (by decide) hq).1
      (by simpa only [Nat.cast_ofNat] using hbelow)
    exact Int.lt_add_one_iff.1 h
  · exact (Int.zpow_le_iff_le_log (b := 2) (by decide) hq).1
      (by simpa only [Nat.cast_ofNat] using habove)

namespace Double

def nearest (q : ℚ) : Nat :=
  if q = 0 then 0
  else
    let e := max (Int.log 2 q - fractionBits) leastExponent
    min infinityBits ((e - leastExponent).toNat * leadingBit + roundValue (q * 2 ^ (-e)))

theorem nearestBits_eq {num den : Nat} (hd : 0 < den) :
    nearestBits num den = nearest (fractionValue (num, den)) := by
  simp only [nearestBits, nearest]
  rcases Nat.eq_zero_or_pos num with rfl | hn
  · simp [fractionValue]
  · have hq : fractionValue (num, den) ≠ 0 := (fractionValue_pos hn hd).ne'
    have hpos (e : Int) : 0 < (scaleFraction 2 (-e) num den).2 :=
      scaleFraction_den_pos (by decide) hd _ _
    have hround (e : Int) : roundHalfEven (scaleFraction 2 (-e) num den).1
        (scaleFraction 2 (-e) num den).2 =
          roundValue (fractionValue (num, den) * 2 ^ (-e)) := by
      have hscale := fractionValue_scaleFraction num den two_pos (-e)
      rw [roundHalfEven_eq (hpos e), hscale]
      rfl
    rw [if_neg (by omega), if_neg hq]
    simp only [binaryExponent_eq hn hd, hround]

theorem leadingBit_eq : (leadingBit : ℚ) = 2 ^ (52 : Int) := by norm_num [leadingBit]

theorem mul_zpow_neg_lt {q : ℚ} {e : Int} (he : Int.log 2 q ≤ e + 52) :
    q * 2 ^ (-e) < (2 * leadingBit : Nat) := by
  have hself := Int.lt_zpow_succ_log_self (b := 2) (by decide) q
  rw [Nat.cast_ofNat] at hself
  calc q * 2 ^ (-e) < 2 ^ (Int.log 2 q + 1) * 2 ^ (-e) :=
        mul_lt_mul_of_pos_right hself (zpow_pos two_pos _)
    _ = 2 ^ (Int.log 2 q + 1 + -e) := (zpow_add₀ two_ne_zero _ _).symm
    _ ≤ 2 ^ (53 : Int) := zpow_le_zpow_right₀ one_le_two (by omega)
    _ = (2 * leadingBit : Nat) := by norm_num [leadingBit]

theorem leadingBit_le_mul_zpow_neg {q : ℚ} (hq : 0 < q) {e : Int} (he : e + 52 ≤ Int.log 2 q) :
    (leadingBit : ℚ) ≤ q * 2 ^ (-e) := by
  have hself := Int.zpow_log_le_self (b := 2) (by decide) hq
  rw [Nat.cast_ofNat] at hself
  calc (leadingBit : ℚ) = 2 ^ (52 : Int) := leadingBit_eq
    _ ≤ 2 ^ (Int.log 2 q + -e) := zpow_le_zpow_right₀ one_le_two (by omega)
    _ = 2 ^ Int.log 2 q * 2 ^ (-e) := zpow_add₀ two_ne_zero _ _
    _ ≤ q * 2 ^ (-e) := mul_le_mul_of_nonneg_right hself (zpow_pos two_pos _).le

/-- A value that has a pattern is its own nearest one. -/
theorem nearest_exact {m : Nat} {e : Int} (hm : 0 < m) (hlt : m < 2 * leadingBit)
    (he : leastExponent ≤ e) (hnormal : leadingBit ≤ m ∨ e = leastExponent) :
    nearest (m * 2 ^ e) =
      min infinityBits ((e - leastExponent).toNat * leadingBit + m) := by
  have hpow : (0 : ℚ) < 2 ^ e := zpow_pos two_pos e
  have hq : (0 : ℚ) < m * 2 ^ e := mul_pos (Nat.cast_pos.2 hm) hpow
  have hupper : Int.log 2 ((m : ℚ) * 2 ^ e) < 53 + e := by
    refine (Int.lt_zpow_iff_log_lt (b := 2) (by decide) hq).1 ?_
    have hmlt : (m : ℚ) < 2 ^ (53 : Int) := by
      calc (m : ℚ) < (2 * leadingBit : Nat) := Nat.cast_lt.2 hlt
        _ = 2 ^ (53 : Int) := by norm_num [leadingBit]
    rw [Nat.cast_ofNat, zpow_add₀ two_ne_zero]
    exact mul_lt_mul_of_pos_right hmlt hpow
  have hexponent : max (Int.log 2 ((m : ℚ) * 2 ^ e) - fractionBits) leastExponent = e := by
    have hbits : (fractionBits : Int) = 52 := rfl
    rcases hnormal with hle | rfl
    · have hlower : 52 + e ≤ Int.log 2 ((m : ℚ) * 2 ^ e) := by
        refine (Int.zpow_le_iff_le_log (b := 2) (by decide) hq).1 ?_
        rw [Nat.cast_ofNat, zpow_add₀ two_ne_zero, ← leadingBit_eq]
        exact mul_le_mul_of_nonneg_right (Nat.cast_le.2 hle) hpow.le
      omega
    · omega
  have hscaled : (m : ℚ) * 2 ^ e * 2 ^ (-e) = m := by
    rw [mul_assoc, ← zpow_add₀ two_ne_zero, add_neg_cancel, zpow_zero, mul_one]
  simp only [nearest]
  rw [if_neg hq.ne']
  simp only [hexponent, hscaled, roundValue_natCast]

theorem fractionValue_ratio (d : Dyadic) :
    fractionValue d.ratio = d.significand * 2 ^ d.exponent := by
  have hscale := fractionValue_scaleFraction d.significand 1 two_pos d.exponent
  rw [Dyadic.ratio, hscale]
  simp [fractionValue]

theorem nearestBits_ratio_dyadic {x : Float} (hx : x.isFinite) :
    nearestBits (dyadic x).ratio.1 (dyadic x).ratio.2 = magnitudeBits x := by
  have hlt := isFinite_iff.1 hx
  rw [nearestBits_eq (dyadic x).ratio_den_pos, fractionValue_ratio]
  have hsplit := Nat.div_add_mod (magnitudeBits x) leadingBit
  have hfraction := Nat.mod_lt (magnitudeBits x) (show 0 < leadingBit by decide)
  unfold dyadic
  generalize magnitudeBits x / leadingBit = field at hsplit ⊢
  generalize magnitudeBits x % leadingBit = fraction at hsplit hfraction ⊢
  rw [← hsplit] at hlt ⊢
  dsimp only
  split
  · rename_i hfield
    subst hfield
    rcases Nat.eq_zero_or_pos fraction with rfl | hpos
    · simp [nearest]
    · rw [nearest_exact hpos (by omega) (Int.le_refl _) (.inr rfl)]
      simp only [leadingBit, infinityBits, leastExponent] at hlt ⊢
      omega
  · rename_i hfield
    have hexponent : leastExponent ≤ leastExponent + (field : Int) - 1 := by omega
    rw [nearest_exact (Nat.add_pos_left (by decide) _) (by omega) hexponent (.inl (by omega))]
    simp only [leadingBit, infinityBits, leastExponent] at hlt ⊢
    omega

theorem nearest_eq_infinityBits {q : ℚ} (hq : 2 ^ (1024 : Int) ≤ q) : nearest q = infinityBits := by
  have hpos : 0 < q := lt_of_lt_of_le (zpow_pos two_pos _) hq
  have hlog : 1024 ≤ Int.log 2 q :=
    (Int.zpow_le_iff_le_log (b := 2) (by decide) hpos).1 (by simpa only [Nat.cast_ofNat] using hq)
  have hexponent : max (Int.log 2 q - fractionBits) leastExponent = Int.log 2 q - 52 := by
    have hbits : (fractionBits : Int) = 52 := rfl
    have hleast : leastExponent = -1074 := rfl
    omega
  have hsignificand : leadingBit ≤ roundValue (q * 2 ^ (-(Int.log 2 q - 52))) := by
    refine le_trans (Nat.le_floor ?_) (floor_le_roundValue _)
    exact leadingBit_le_mul_zpow_neg hpos (by omega)
  simp only [nearest]
  rw [if_neg hpos.ne']
  simp only [hexponent]
  generalize roundValue (q * 2 ^ (-(Int.log 2 q - 52))) = significand at hsignificand ⊢
  generalize Int.log 2 q = k at hlog ⊢
  simp only [leadingBit, infinityBits, leastExponent] at hsignificand ⊢
  omega

theorem nearest_eq_zero {q : ℚ} (hpos : 0 < q) (hq : q < 2 ^ (-1075 : Int)) : nearest q = 0 := by
  have hlog : Int.log 2 q < -1075 :=
    (Int.lt_zpow_iff_log_lt (b := 2) (by decide) hpos).1 (by simpa only [Nat.cast_ofNat] using hq)
  have hexponent : max (Int.log 2 q - fractionBits) leastExponent = leastExponent := by
    have hbits : (fractionBits : Int) = 52 := rfl
    have hleast : leastExponent = -1074 := rfl
    omega
  have hround : roundValue (q * 2 ^ (-leastExponent)) = 0 := by
    apply roundValue_eq_zero
    have hsplit : (2 : ℚ) * (q * 2 ^ (-leastExponent)) = q * 2 ^ (1075 : Int) := by
      have hexp : (1075 : Int) = 1 + -leastExponent := rfl
      rw [hexp, zpow_add₀ two_ne_zero, zpow_one]
      ring
    rw [hsplit, ← lt_div_iff₀ (zpow_pos two_pos _), one_div, ← zpow_neg]
    exact hq
  simp only [nearest]
  rw [if_neg hpos.ne']
  simp only [hexponent, hround, sub_self, Int.toNat_zero, zero_mul, add_zero]
  exact Nat.min_eq_right (Nat.zero_le _)

end Double

namespace Decimal

open Double (nearest)

def value (d : Decimal) : ℚ := d.digits * 10 ^ d.exponent

theorem fractionValue_ratio (d : Decimal) : fractionValue d.ratio = d.value := by
  have hscale := fractionValue_scaleFraction d.digits 1 (show 0 < 10 by decide) d.exponent
  rw [ratio, hscale]
  simp [fractionValue, value]

theorem nearestBits_ratio (d : Decimal) :
    Double.nearestBits d.ratio.1 d.ratio.2 = nearest d.value := by
  rw [Double.nearestBits_eq d.ratio_den_pos, fractionValue_ratio]

theorem two_zpow_le_ten_zpow (n : Nat) : (2 : ℚ) ^ (3 * n : Int) ≤ 10 ^ (n : Int) := by
  rw [zpow_mul, zpow_natCast, zpow_natCast]
  exact pow_le_pow_left₀ (by norm_num) (by norm_num) n

theorem le_value_of_large {d : Decimal} (hne : d.digits ≠ 0) (hlarge : exponentBound < d.exponent) :
    (2 : ℚ) ^ (1024 : Int) ≤ d.value := by
  have hdigits : (1 : ℚ) ≤ d.digits := by exact_mod_cast Nat.one_le_iff_ne_zero.2 hne
  have hpow : (0 : ℚ) ≤ 10 ^ d.exponent := zpow_nonneg (by norm_num) _
  calc (2 : ℚ) ^ (1024 : Int) ≤ 2 ^ (3 * (400 : Nat) : Int) :=
        zpow_le_zpow_right₀ one_le_two (by omega)
    _ ≤ 10 ^ ((400 : Nat) : Int) := two_zpow_le_ten_zpow 400
    _ ≤ 10 ^ d.exponent := zpow_le_zpow_right₀ (by norm_num) (Int.le_of_lt hlarge)
    _ ≤ d.digits * 10 ^ d.exponent := le_mul_of_one_le_left hpow hdigits

theorem value_lt_of_small {d : Decimal} (hsmall : d.exponent < -(exponentBound + d.digits.log2)) :
    d.value < (2 : ℚ) ^ (-1075 : Int) := by
  have hdigits : (d.digits : ℚ) < 2 ^ (d.digits.log2 + 1 : Int) := by
    rw [← Nat.cast_succ, zpow_natCast]
    exact_mod_cast Nat.lt_log2_self
  have hexp : d.exponent ≤ -((400 + d.digits.log2 : Nat) : Int) := by
    simp only [exponentBound] at hsmall
    omega
  have hpow : (10 : ℚ) ^ d.exponent ≤ 2 ^ (-(3 * (400 + d.digits.log2 : Nat) : Int)) := by
    calc (10 : ℚ) ^ d.exponent ≤ 10 ^ (-((400 + d.digits.log2 : Nat) : Int)) :=
          zpow_le_zpow_right₀ (by norm_num) hexp
      _ ≤ 2 ^ (-(3 * (400 + d.digits.log2 : Nat) : Int)) := by
        rw [zpow_neg, zpow_neg]
        exact inv_anti₀ (zpow_pos two_pos _) (two_zpow_le_ten_zpow _)
  calc d.value ≤ d.digits * 2 ^ (-(3 * (400 + d.digits.log2 : Nat) : Int)) :=
        mul_le_mul_of_nonneg_left hpow (Nat.cast_nonneg _)
    _ < 2 ^ (d.digits.log2 + 1 : Int) * 2 ^ (-(3 * (400 + d.digits.log2 : Nat) : Int)) :=
        mul_lt_mul_of_pos_right hdigits (zpow_pos two_pos _)
    _ = 2 ^ ((d.digits.log2 + 1 : Int) + -(3 * (400 + d.digits.log2 : Nat) : Int)) :=
        (zpow_add₀ two_ne_zero _ _).symm
    _ ≤ 2 ^ (-1075 : Int) := zpow_le_zpow_right₀ one_le_two (by push_cast; omega)

/-- The bounds on the exponent only save work. -/
theorem toDouble_eq (negative : Bool) (d : Decimal) :
    d.toDouble negative = Double.ofBits negative (nearest d.value) := by
  simp only [toDouble]
  split
  · rename_i hzero
    simp [value, hzero, nearest]
  · rename_i hne
    split
    · rename_i hlarge
      rw [Double.nearest_eq_infinityBits (le_value_of_large hne hlarge), Double.infinity]
    · split
      · rename_i hsmall
        have hpos : 0 < d.value :=
          mul_pos (Nat.cast_pos.2 (Nat.pos_of_ne_zero hne)) (zpow_pos (by norm_num) _)
        rw [Double.nearest_eq_zero hpos (value_lt_of_small hsmall)]
      · rw [Double.ofRatio, nearestBits_ratio]

/-! The shortest decimal. -/

theorem value_normalize (d : Decimal) : d.normalize.value = d.value := by
  fun_induction normalize d with
  | case1 d h ih =>
    have hsplit : (d.digits : ℚ) = (d.digits / 10 : Nat) * 10 := by
      exact_mod_cast (Nat.div_mul_cancel (Nat.dvd_of_mod_eq_zero h.2)).symm
    rw [ih, value, value, hsplit, zpow_add₀ (by norm_num : (10 : ℚ) ≠ 0)]
    simp
    ring
  | case2 d h => rfl

theorem value_ofDyadic (x : Dyadic) : (ofDyadic x).value = fractionValue x.ratio := by
  rw [Double.fractionValue_ratio]
  simp only [ofDyadic]
  rcases Int.lt_or_le x.exponent 0 with h | h
  · obtain ⟨n, hn⟩ := Int.eq_ofNat_of_zero_le (Int.neg_nonneg_of_nonpos h.le)
    have hexp : x.exponent = -n := by omega
    have hten : (10 : ℚ) = 5 * 2 := by norm_num
    have hpow : (5 : ℚ) ^ n * (10 ^ n)⁻¹ = (2 ^ n)⁻¹ := by
      rw [hten, mul_pow, mul_inv, ← mul_assoc, mul_inv_cancel₀ (by positivity), one_mul]
    rw [if_neg (by omega), value, hn, hexp]
    simp [mul_assoc, hpow]
  · obtain ⟨n, hn⟩ := Int.eq_ofNat_of_zero_le h
    rw [if_pos h, value, hn]
    simp [Dyadic.ratio, scaleFraction, hn]

theorem readsAs_of_choice {magnitude : Nat} {first second d : Decimal}
    (h : (if readsAs magnitude first then some first
      else if readsAs magnitude second then some second else none) = some d) :
    readsAs magnitude d := by
  split at h
  · rename_i hreads
    obtain rfl := Option.some.inj h
    exact hreads
  · split at h
    · rename_i hreads
      obtain rfl := Option.some.inj h
      exact hreads
    · cases h

theorem readsAs_of_neighbour? {tie : Tie} {magnitude num den : Nat} {unit : Int} {d : Decimal}
    (h : neighbour? tie magnitude unit num den = some d) : readsAs magnitude d := by
  unfold neighbour? at h
  dsimp only at h
  split at h
  · exact readsAs_of_choice h
  · exact readsAs_of_choice h

theorem nearest_shortest (tie : Tie) {x : Float} (hx : x.isFinite) :
    nearest (shortest tie x).value = Double.magnitudeBits x := by
  have hexact : nearest (ofDyadic (Double.dyadic x)).value = Double.magnitudeBits x := by
    rw [value_ofDyadic, ← Double.nearestBits_ratio_dyadic hx,
      Double.nearestBits_eq (Double.dyadic x).ratio_den_pos]
  unfold shortest
  dsimp only
  rw [value_normalize]
  cases hfound : (List.range maxShortestDigits).findSome? fun (n : Nat) =>
      neighbour? tie (Double.magnitudeBits x)
        (decimalExponent (Double.dyadic x).ratio.1 (Double.dyadic x).ratio.2 - n)
        (Double.dyadic x).ratio.1 (Double.dyadic x).ratio.2 with
  | none => exact hexact
  | some d =>
    obtain ⟨n, -, hn⟩ := List.exists_of_findSome?_eq_some hfound
    have hreads : readsAs (Double.magnitudeBits x) d := readsAs_of_neighbour? hn
    rw [Option.getD_some, ← nearestBits_ratio]
    exact beq_iff_eq.1 hreads

/-- The shortest decimal is read as the double, under either sign. -/
theorem toDouble_shortest (negative : Bool) (tie : Tie) {x : Float} (hx : x.isFinite) :
    (shortest tie x).toDouble negative = Double.ofBits negative (Double.magnitudeBits x) := by
  rw [toDouble_eq, nearest_shortest tie hx]

end Decimal
end DeskCalculator
