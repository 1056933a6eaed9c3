import DeskCalculator.Proofs.Rounding
/-!
Finite doubles in the order of their exact values. Main statements: `Double.lt_iff_value_lt` and
`Double.le_iff_value_le`.
-/
namespace DeskCalculator
namespace Double

open Float.Model.UnpackedFloat

variable {x y : Float}

/-- Exponents and, for equal ones, significands are in the order of the patterns. -/
theorem compare_dyadic (x y : Float) :
    (compare (dyadic x).exponent (dyadic y).exponent).then
        (compare (dyadic x).significand (dyadic y).significand) =
      compare (magnitudeBits x) (magnitudeBits y) := by
  have hlt {a b : Float} (h : magnitudeBits a < magnitudeBits b) :
      (dyadic a).exponent < (dyadic b).exponent ∨
        (dyadic a).exponent = (dyadic b).exponent ∧
          (dyadic a).significand < (dyadic b).significand := by
    have ha := Nat.div_add_mod (magnitudeBits a) leadingBit
    have hb := Nat.div_add_mod (magnitudeBits b) leadingBit
    simp only [dyadic]
    split <;> split <;> simp only [leadingBit, true_and] at * <;> omega
  rcases Nat.lt_trichotomy (magnitudeBits x) (magnitudeBits y) with h | h | h
  · rw [Nat.compare_eq_lt.2 h, Ordering.then_eq_lt, compare_lt_iff_lt, compare_eq_iff_eq,
      compare_lt_iff_lt]
    exact hlt h
  · have hsame : (dyadic x).exponent = (dyadic y).exponent ∧
        (dyadic x).significand = (dyadic y).significand := by
      simp only [dyadic, h]
      split <;> exact ⟨rfl, rfl⟩
    rw [hsame.1, hsame.2, h, compare_eq_iff_eq.2 rfl, compare_eq_iff_eq.2 rfl,
      compare_eq_iff_eq.2 rfl]
    rfl
  · rw [Nat.compare_eq_gt.2 h, Ordering.then_eq_gt, compare_gt_iff_gt, compare_eq_iff_eq,
      compare_gt_iff_gt]
    exact (hlt h).imp_right (And.imp_left Eq.symm)

theorem unpack_cases (hx : x.isFinite) :
    (magnitudeBits x = 0 ∧ x.toModel.unpack = .zero (signOf (isNegative x))) ∨
    (0 < magnitudeBits x ∧ ∃ h, x.toModel.unpack =
      .finite (signOf (isNegative x)) (dyadic x).significand (dyadic x).exponent h) := by
  rcases unpack_of_isFinite hx with hzero | ⟨hne, -⟩
  · exact .inl hzero
  · exact .inr ⟨Nat.pos_of_ne_zero hne, unpack_eq_dyadic hx hne⟩

/-- Finite doubles are in the order of their patterns with signs. -/
theorem compare_unpack (hx : x.isFinite) (hy : y.isFinite) :
    x.toModel.unpack.compare y.toModel.unpack = some (compare (signedBits x) (signedBits y)) := by
  have hcast (m n : Nat) : compare (m : ℤ) n = compare m n := by
    have hmono : StrictMono (Nat.cast : Nat → ℤ) := Nat.strictMono_cast
    simpa only [cmp_eq_compare] using hmono.cmp_map_eq m n
  have hneg (m n : Nat) : compare (-(m : ℤ)) (-n) = (compare m n).swap := by
    have hanti : StrictAnti (Neg.neg : ℤ → ℤ) := fun _ _ => neg_lt_neg
    rw [Nat.compare_swap, ← hcast]
    simpa only [cmp_eq_compare] using hanti.cmp_map_eq (m : ℤ) n
  have hlt {i j : ℤ} (h : i < j) : some .lt = some (compare i j) :=
    congrArg some (compare_lt_iff_lt.2 h).symm
  have hgt {i j : ℤ} (h : j < i) : some .gt = some (compare i j) :=
    congrArg some (compare_gt_iff_gt.2 h).symm
  have hzero (s : Bool) : Dyadic.signed s 0 = 0 := by cases s <;> rfl
  simp only [signedBits]
  rcases unpack_cases hx with ⟨hm, hu⟩ | ⟨hm, _, hu⟩ <;>
    rcases unpack_cases hy with ⟨hn, hv⟩ | ⟨hn, _, hv⟩ <;> rw [hu, hv]
  · rw [hm, hn, hzero, hzero]
    rfl
  · rw [hm, hzero]
    cases isNegative y with
    | false => exact hlt (Int.natCast_pos.2 hn)
    | true => exact hgt (Int.neg_neg_of_pos (Int.natCast_pos.2 hn))
  · rw [hn, hzero]
    cases isNegative x with
    | false => exact hgt (Int.natCast_pos.2 hm)
    | true => exact hlt (Int.neg_neg_of_pos (Int.natCast_pos.2 hm))
  · have hmagnitude := compare_dyadic x y
    cases isNegative x <;> cases isNegative y
    · exact congrArg some (hmagnitude.trans (hcast _ _).symm)
    · exact hgt (by simp only [Dyadic.signed_true, Dyadic.signed_false]; omega)
    · exact hlt (by simp only [Dyadic.signed_true, Dyadic.signed_false]; omega)
    · exact congrArg some ((congrArg Ordering.swap hmagnitude).trans (hneg _ _).symm)

theorem lt_iff_value_lt (hx : x.isFinite) (hy : y.isFinite) : x < y ↔ value x < value y := by
  have hlt : x < y ↔ (x.toModel.unpack.compare y.toModel.unpack == some .lt) = true :=
    (decide_eq_true_iff : _ ↔ x.toModel < y.toModel)
  rw [hlt, compare_unpack hx hy, beq_iff_eq, Option.some_inj, compare_lt_iff_lt,
    value_eq_patternValue, value_eq_patternValue, patternValue_strictMono.lt_iff_lt]

theorem le_iff_value_le (hx : x.isFinite) (hy : y.isFinite) : x ≤ y ↔ value x ≤ value y := by
  have hle : x ≤ y ↔ (x.toModel.unpack.compare y.toModel.unpack).any Ordering.isLE = true :=
    (decide_eq_true_iff : _ ↔ x.toModel ≤ y.toModel)
  rw [hle, compare_unpack hx hy, Option.any_some, Std.isLE_compare, value_eq_patternValue,
    value_eq_patternValue, patternValue_strictMono.le_iff_le]

theorem abs_patternValue (i : ℤ) : |patternValue i| = magnitudeValue i.natAbs := by
  have hnonneg (n : Nat) : 0 ≤ magnitudeValue n :=
    magnitudeValue_zero ▸ magnitudeValue_strictMono.monotone (Nat.zero_le n)
  rcases Int.natAbs_eq i with h | h
  · rw [h, patternValue_natCast, Int.natAbs_natCast, abs_of_nonneg (hnonneg _)]
  · rw [h, patternValue_neg, patternValue_natCast, abs_neg, Int.natAbs_neg, Int.natAbs_natCast,
      abs_of_nonneg (hnonneg _)]

theorem abs_value (x : Float) : |value x| = magnitudeValue (magnitudeBits x) := by
  rw [value_eq_patternValue, abs_patternValue, natAbs_signedBits]

theorem value_abs (hx : x.isFinite) : value x.abs = |value x| := by
  rw [abs_eq_ofBits hx, value_eq_patternValue, signedBits_ofBits false (isFinite_iff.1 hx).le,
    Dyadic.signed_false, patternValue_natCast, abs_value]

end Double
end DeskCalculator
