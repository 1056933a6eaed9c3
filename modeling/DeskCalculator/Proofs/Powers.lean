import DeskCalculator.Proofs.Wrapping
/-!
Powers of words. Main statement: `IntegerBinary.apply_pow` says that a power is the word congruent
to the exact one, that a negative exponent gives the reciprocal truncated toward zero, and that only
zero has no such power.
-/
namespace DeskCalculator

namespace Integer

/-- A rational without its fraction, which is never farther from zero. -/
def truncated (q : ℚ) : ℤ := if 0 ≤ q then ⌊q⌋ else ⌈q⌉

theorem truncated_intCast (z : ℤ) : truncated z = z := by
  rw [truncated, Int.floor_intCast, Int.ceil_intCast, ite_self]

theorem truncated_eq_zero {q : ℚ} (hq : |q| < 1) : truncated q = 0 := by
  obtain ⟨hlower, hupper⟩ := abs_lt.1 hq
  rw [truncated]
  split
  · rename_i hnonneg
    exact Int.floor_eq_zero_iff.2 ⟨hnonneg, hupper⟩
  · rename_i hneg
    exact Int.ceil_eq_zero_iff.2 ⟨hlower, (not_le.1 hneg).le⟩

/-! Reciprocals of powers: they have a whole part only for the bases one and minus one. -/

theorem truncated_zpow_of_one_lt_abs {x e : ℤ} (hx : 1 < |x|) (he : e < 0) :
    truncated ((x : ℚ) ^ e) = 0 := by
  apply truncated_eq_zero
  rw [abs_zpow, ← Int.cast_abs]
  exact zpow_lt_one_of_neg₀ (mod_cast hx) he

theorem truncated_one_zpow (e : ℤ) : truncated (((1 : ℤ) : ℚ) ^ e) = 1 := by
  rw [Int.cast_one, one_zpow]
  exact truncated_intCast 1

theorem truncated_neg_one_zpow (e : ℤ) :
    truncated (((-1 : ℤ) : ℚ) ^ e) = if Even e then 1 else -1 := by
  rw [Int.cast_neg, Int.cast_one]
  split
  · rename_i heven
    rw [heven.neg_one_zpow]
    exact truncated_intCast 1
  · rename_i hodd
    rw [(Int.not_even_iff_odd.1 hodd).neg_one_zpow]
    exact truncated_intCast (-1)

/-- The remainder has the sign of the word, but it vanishes for the same words. -/
theorem mod_two_eq_zero_iff (e : Int64) : e % 2 = 0 ↔ Even e.toInt := by
  rw [← Int64.toInt_inj, Int64.toInt_mod, even_iff_two_dvd, Int.dvd_iff_tmod_eq_zero]
  rfl

theorem one_lt_abs_toInt {b : Int64} (hzero : b ≠ 0) (hone : b ≠ 1) (hminus : b ≠ -1) :
    1 < |b.toInt| := by
  have h0 : b.toInt ≠ 0 := fun h => hzero (Int64.toInt_inj.1 h)
  have h1 : b.toInt ≠ 1 := fun h => hone (Int64.toInt_inj.1 h)
  have h2 : b.toInt ≠ -1 := fun h => hminus (Int64.toInt_inj.1 h)
  rw [lt_abs]
  omega

theorem power_of_neg {b e : Int64} (hb : b ≠ 0) (he : e < 0) :
    ∃ n : Int64, power b e = .integer n ∧ n.toInt = truncated ((b.toInt : ℚ) ^ e.toInt) := by
  rw [power, if_pos he, if_neg hb]
  by_cases hone : b = 1
  · rw [if_pos hone, hone]
    exact ⟨1, rfl, (truncated_one_zpow e.toInt).symm⟩
  · rw [if_neg hone]
    by_cases hminus : b = -1
    · rw [if_pos hminus, hminus]
      refine ⟨_, rfl, ?_⟩
      change _ = truncated (((-1 : ℤ) : ℚ) ^ e.toInt)
      rw [truncated_neg_one_zpow]
      simp only [mod_two_eq_zero_iff]
      split <;> rfl
    · rw [if_neg hminus]
      have hexponent : e.toInt < 0 := Int64.lt_iff_toInt_lt.1 he
      have hbase := one_lt_abs_toInt hb hone hminus
      exact ⟨0, rfl, (truncated_zpow_of_one_lt_abs hbase hexponent).symm⟩

theorem power_zero_of_neg {e : Int64} (he : e < 0) : power 0 e = .error .divideByZero := by
  rw [power, if_pos he, if_pos rfl]

theorem toInt_modEq_iff {n : Int64} {z : ℤ} :
    n.toInt ≡ z [ZMOD 2 ^ 64] ↔ n = Int64.ofInt z :=
  ⟨eq_ofInt_of_modEq, fun h => h ▸ toInt_ofInt_modEq z⟩

end Integer

namespace IntegerBinary

open Integer

/-- For a natural exponent the power is the one word congruent to the exact power (so that zero to
the zero is one), for a negative one the rational power without its fraction. -/
theorem apply_pow (b e : Int64) :
    (0 ≤ e → ∃ n : Int64, pow.apply b e = .integer n ∧
      ∀ n' : Int64, n'.toInt ≡ b.toInt ^ e.toInt.toNat [ZMOD 2 ^ 64] ↔ n' = n) ∧
    (e < 0 → b ≠ 0 → ∃ n : Int64, pow.apply b e = .integer n ∧
      n.toInt = truncated ((b.toInt : ℚ) ^ e.toInt)) ∧
    (e < 0 → b = 0 → pow.apply b e = .error .divideByZero) := by
  refine ⟨fun he => ?_, fun he hb => power_of_neg hb he, ?_⟩
  · refine ⟨Int64.ofInt (b.toInt ^ e.toInt.toNat), ?_, fun n' => toInt_modEq_iff⟩
    have hpower := power_ofInt b.toInt he
    rwa [Int64.ofInt_toInt] at hpower
  · rintro he rfl
    exact power_zero_of_neg he

/-- Seven to the hundredth and zero to the zero; the least exponent; and a reciprocal of zero. -/
theorem apply_pow_least :
    pow.apply 7 100 = .integer 3728452490685454945 ∧ pow.apply 0 0 = .integer 1 ∧
    (Int64.minValue < 0 ∧ (-1 : Int64) ≠ 0 ∧ pow.apply (-1) Int64.minValue = .integer 1) ∧
    pow.apply 0 (-2) = .error .divideByZero := by
  refine ⟨?_, ?_, ⟨by decide, by decide, ?_⟩, (apply_pow 0 (-2)).2.2 (by decide) rfl⟩
  · obtain ⟨n, hn, hunique⟩ := (apply_pow 7 100).1 (by decide)
    rw [hn, (hunique 3728452490685454945).1 (by decide)]
  · obtain ⟨n, hn, hunique⟩ := (apply_pow 0 0).1 (by decide)
    rw [hn, (hunique 1).1 (by decide)]
  · obtain ⟨n, hn, hvalue⟩ := (apply_pow (-1) Int64.minValue).2.1 (by decide) (by decide)
    have hpower := truncated_neg_one_zpow Int64.minValue.toInt
    rw [if_pos (by decide)] at hpower
    obtain rfl : n = 1 := Int64.toInt_inj.1 (hvalue.trans hpower)
    exact hn

end IntegerBinary
end DeskCalculator
