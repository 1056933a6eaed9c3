import DeskCalculator.Proofs.Denotation
import DeskCalculator.Proofs.Ordering
/-!
How many digits of a double are shown. Main statement: `Display.denoted?_doubleWith` says that the
text in positional notation denotes the value rounded to fifteen significant digits, except at both
ends of the range, where the number of decimal places is bounded.
-/
namespace DeskCalculator

/-! Rounding to a multiple of a power of ten. -/

theorem roundValue_minimal {q : ℚ} (hq : 0 ≤ q) (j : ℤ) :
    |q - roundValue q| ≤ |q - j| ∧
      (|q - roundValue q| = |q - j| → j ≠ roundValue q → roundValue q % 2 = 0) := by
  have hle := Nat.floor_le hq
  have hlt := Nat.lt_floor_add_one q
  rw [roundValue]
  generalize ⌊q⌋₊ = n at hle hlt ⊢
  have hside : (j : ℚ) ≤ n ∨ (n : ℚ) + 1 ≤ j :=
    (Int.lt_or_le n j).symm.imp (fun h => by exact_mod_cast h) (fun h => by exact_mod_cast h)
  have hcondition : 2 * (q - n) < 1 ∨ 2 * (q - n) = 1 ∧ n % 2 = 0 ↔
      2 * q < n + (n + 1) ∨ 2 * q = n + (n + 1) ∧ n % 2 = 0 :=
    or_congr (by constructor <;> intro h <;> linarith)
      (and_congr_left' (by constructor <;> intro h <;> linarith))
  obtain ⟨hnear, hfar⟩ := Double.nearer_minimal hle hlt hside (n % 2 = 0)
  simp only [hcondition]
  split
  · rename_i h
    obtain ⟨hmin, heven⟩ := hnear h
    exact ⟨hmin, fun hsame hne => heven hsame (by exact_mod_cast hne)⟩
  · rename_i h
    obtain ⟨hmin, hodd⟩ := hfar h
    rw [Nat.cast_succ]
    refine ⟨hmin, fun hsame hne => ?_⟩
    have := hodd hsame (by exact_mod_cast hne)
    omega

namespace Decimal

theorem zpow_le_iff {q : ℚ} (hq : 0 < q) (k : ℤ) : 10 ^ k ≤ q ↔ k ≤ Int.log 10 q := by
  simpa only [Nat.cast_ofNat] using Int.zpow_le_iff_le_log (b := 10) (by decide) hq

theorem lt_zpow_iff {q : ℚ} (hq : 0 < q) (k : ℤ) : q < 10 ^ k ↔ Int.log 10 q < k := by
  simpa only [Nat.cast_ofNat] using Int.lt_zpow_iff_log_lt (b := 10) (by decide) hq

theorem log_eq {q : ℚ} {e : ℤ} (hle : 10 ^ e ≤ q) (hlt : q < 10 ^ (e + 1)) :
    Int.log 10 q = e := by
  have hpos : 0 < q := lt_of_lt_of_le (zpow_pos (by norm_num) e) hle
  exact le_antisymm (Int.lt_add_one_iff.1 ((lt_zpow_iff hpos _).1 hlt)) ((zpow_le_iff hpos e).1 hle)

/-- Is `r` a multiple of `10 ^ unit` that is nearest to `q`, and of two equally near ones the even
one? -/
def IsRounded (unit : ℤ) (q r : ℚ) : Prop :=
  ∃ k : ℤ, r = k * 10 ^ unit ∧ ∀ j : ℤ, |q - r| ≤ |q - j * 10 ^ unit| ∧
    (|q - r| = |q - j * 10 ^ unit| → j ≠ k → k % 2 = 0)

/-- Is `r` the value `q` rounded to `n` significant digits, a half to the even last digit? -/
def IsSignificant (n : ℤ) (q r : ℚ) : Prop := IsRounded (Int.log 10 |q| - (n - 1)) q r

variable {unit : ℤ} {q r s : ℚ}

/-- There is one such multiple: of two that are equally near both would be even, and the one in the
middle between them would be nearer. -/
theorem IsRounded.unique (hr : IsRounded unit q r) (hs : IsRounded unit q s) : r = s := by
  obtain ⟨k, rfl, hk⟩ := hr
  obtain ⟨m, rfl, hm⟩ := hs
  by_contra hne
  have hkm : m ≠ k := fun h => hne (by rw [h])
  have hsame : |q - k * 10 ^ unit| = |q - m * 10 ^ unit| := (hk m).1.antisymm (hm k).1
  have hkeven := (hk m).2 hsame hkm
  have hmeven := (hm k).2 hsame.symm hkm.symm
  obtain ⟨j, hj⟩ : ∃ j, k + m = 2 * j := ⟨(k + m) / 2, by omega⟩
  have hmiddle : q = j * 10 ^ unit := by
    have hsum : (k : ℚ) + m = 2 * j := by exact_mod_cast hj
    have hsplit : (k : ℚ) * 10 ^ unit + m * 10 ^ unit = 2 * (j * 10 ^ unit) := by
      rw [← add_mul, hsum, mul_assoc]
    rcases abs_eq_abs.1 hsame with h | h
    · exact absurd (sub_right_injective h) hne
    · linarith
  have hzero (i : ℤ) (h : |q - i * 10 ^ unit| ≤ |q - j * 10 ^ unit|) : q = i * 10 ^ unit := by
    rw [← hmiddle, sub_self, abs_zero] at h
    exact sub_eq_zero.1 (abs_nonpos_iff.1 h)
  exact hne ((hzero k (hk j).1).symm.trans (hzero m (hm j).1))

theorem IsRounded.neg (h : IsRounded unit q r) : IsRounded unit (-q) (-r) := by
  obtain ⟨k, rfl, hk⟩ := h
  have hflip (s : ℚ) : |-q - -s| = |q - s| := by rw [neg_sub_neg, abs_sub_comm]
  refine ⟨-k, by push_cast; ring, fun j => ?_⟩
  have hj : (j : ℚ) * 10 ^ unit = -((-j : ℤ) * 10 ^ unit) := by push_cast; ring
  rw [hj, hflip, hflip]
  refine ⟨(hk (-j)).1, fun hsame hne => ?_⟩
  have heven := (hk (-j)).2 hsame (by omega)
  omega

theorem isRounded_roundValue (hq : 0 ≤ q) (unit : ℤ) :
    IsRounded unit q (roundValue (q * 10 ^ (-unit)) * 10 ^ unit) := by
  have hpow : (0 : ℚ) < 10 ^ unit := zpow_pos (by norm_num) unit
  have hscaled (k : ℚ) : |q - k * 10 ^ unit| = |q * 10 ^ (-unit) - k| * 10 ^ unit := by
    rw [← abs_of_pos hpow, ← abs_mul, abs_of_pos hpow, sub_mul, mul_assoc,
      ← zpow_add₀ (by norm_num), neg_add_cancel, zpow_zero, mul_one]
  have hinverse : (0 : ℚ) < 10 ^ (-unit) := zpow_pos (by norm_num) (-unit)
  have hnearest := roundValue_minimal (mul_nonneg hq hinverse.le)
  refine ⟨roundValue (q * 10 ^ (-unit)), by rw [Int.cast_natCast], fun j => ?_⟩
  rw [hscaled, hscaled, mul_le_mul_iff_left₀ hpow, mul_left_inj' hpow.ne']
  refine ⟨(hnearest j).1, fun hsame hne => ?_⟩
  exact_mod_cast (hnearest j).2 hsame hne

theorem value_roundPlaces (places num : Nat) {den : Nat} (hd : 0 < den) :
    (roundPlaces places num den).value =
      roundValue (fractionValue (num, den) * 10 ^ (places : ℤ)) * 10 ^ (-places : ℤ) := by
  have hscale := fractionValue_scaleFraction num den (show 0 < 10 by decide) (places : ℤ)
  have hpos : 0 < (scaleFraction 10 (places : ℤ) num den).2 :=
    scaleFraction_den_pos (by decide) hd _ _
  rw [value, roundPlaces, inUnits, neg_neg, roundHalfEven_eq hpos, Prod.mk.eta, hscale,
    Nat.cast_ofNat]

end Decimal

/-! The number that a positional form denotes. -/

theorem natural?_of_isDigit {cs : List Char} (h : ∀ c ∈ cs, c.isDigit) :
    Base.dec.natural? cs = some (Numeral.ofDigitChars cs) := by
  have hlt : ∀ d ∈ cs.map (·.toNat - '0'.toNat), d < Base.dec.radix := by
    intro d hd
    obtain ⟨c, hc, rfl⟩ := List.mem_map.1 hd
    exact (digitChar_of_isDigit (h c hc)).1
  have hchars : (cs.map (·.toNat - '0'.toNat)).map Base.dec.digitChar = cs := by
    rw [List.map_map]
    exact (List.map_congr_left fun c hc => (digitChar_of_isDigit (h c hc)).2).trans (List.map_id cs)
  have hdenoted := Base.dec.natural?_map_digitChar hlt
  rwa [hchars] at hdenoted

/-- Digits before the point and after it count together, in units of the last one. -/
theorem Numeral.ofDigitChars_append (cs ds : List Char) :
    ofDigitChars (cs ++ ds) = ofDigitChars cs * 10 ^ ds.length + ofDigitChars ds := by
  rw [ofDigitChars, List.map_append, ← Base.appendDigits_ofDigits, Base.appendDigits_eq,
    List.length_map]
  rfl

theorem ofDigitChars_replicate_zero (n : Nat) :
    Numeral.ofDigitChars (List.replicate n '0') = 0 := by
  have hzeros := Base.dec.ofDigits_replicate_zero n []
  rw [List.append_nil] at hzeros
  rw [Numeral.ofDigitChars, List.map_replicate]
  exact hzeros

namespace Positional

variable {p : Positional}

def value (p : Positional) : ℚ :=
  if p.negative then -p.numeral.decimal.value else p.numeral.decimal.value

theorem value_numeral (p : Positional) : p.numeral.decimal.value =
    Numeral.ofDigitChars p.whole + Numeral.ofDigitChars p.fraction / 10 ^ p.fraction.length := by
  rw [decimal_numeral, Decimal.value, Numeral.ofDigitChars_append, zpow_neg, zpow_natCast]
  push_cast
  field_simp

theorem ne_mark_of_isDigit {c : Char} (hc : c.isDigit) : c ≠ '-' ∧ c ≠ '.' ∧ c ≠ 'e' := by
  refine ⟨?_, ?_, ?_⟩ <;> rintro rfl <;> cases hc

theorem HasDigits.splitFirst_point (h : p.HasDigits) :
    splitFirst '.' (p.whole ++ if p.fraction.isEmpty then [] else '.' :: p.fraction) =
      (p.whole, p.fraction) := by
  have hwhole : ∀ c ∈ p.whole, c ≠ '.' := fun c hc => (ne_mark_of_isDigit (h.whole c hc)).2.1
  cases hfraction : p.fraction with
  | nil => simpa using splitFirst_of_notMem hwhole
  | cons c cs => exact splitFirst_cons hwhole (c :: cs)

theorem HasDigits.ne_exponent (h : p.HasDigits) :
    ∀ c ∈ p.whole ++ if p.fraction.isEmpty then [] else '.' :: p.fraction, c ≠ 'e' := by
  intro c hc
  rcases List.mem_append.1 hc with hc | hc
  · exact (ne_mark_of_isDigit (h.whole c hc)).2.2
  · split at hc
    · cases hc
    · rcases List.mem_cons.1 hc with rfl | hc
      · decide
      · exact (ne_mark_of_isDigit (h.fraction c hc)).2.2

theorem HasDigits.denoted?_text (h : p.HasDigits) : Base.dec.denoted? p.text = some p.value := by
  obtain ⟨c, cs, hwhole⟩ := List.exists_cons_of_ne_nil h.nonempty
  have hfirst : c ≠ '-' := (ne_mark_of_isDigit (h.whole c (hwhole ▸ List.mem_cons_self))).1
  have htext : p.text = Entry.signChars p.negative ++ (c :: cs ++
      if p.fraction.isEmpty then [] else '.' :: p.fraction) := by
    rw [text, hwhole, List.append_assoc]
    rfl
  rw [Base.denoted?, htext, List.cons_append, splitSign_append hfirst]
  dsimp only
  rw [← List.cons_append, ← hwhole, splitFirst_of_notMem h.ne_exponent]
  dsimp only
  rw [h.splitFirst_point]
  dsimp only
  have hexponent : Base.dec.integer? [] = some 0 := rfl
  rw [natural?_of_isDigit h.whole, natural?_of_isDigit h.fraction, hexponent]
  simp only [Option.bind_eq_bind, Option.bind_some, zpow_zero, mul_one, value, value_numeral]
  rfl

/-! Zeros at the end of a fraction. -/

/-- Trimming takes zeros off the end, and no zero is left there. -/
theorem dropTrailing_spec (cs : List Char) : ∃ n,
    cs = dropTrailing '0' cs ++ List.replicate n '0' ∧
      ∀ c ∈ (dropTrailing '0' cs).getLast?, c ≠ '0' := by
  have hdrop : dropTrailing '0' cs = cs.rdropWhile (· == '0') := rfl
  refine ⟨(cs.rtakeWhile (· == '0')).length, ?_, fun c hc => ?_⟩
  · have hzeros : cs.rtakeWhile (· == '0') = List.replicate _ '0' :=
      List.eq_replicate_of_mem fun c hc =>
        beq_iff_eq.1 (List.mem_rtakeWhile_imp (p := (· == '0')) hc)
    rw [← hzeros, hdrop, List.rdropWhile_append_rtakeWhile]
  · rw [hdrop] at hc
    obtain ⟨hne, rfl⟩ := List.mem_getLast?_eq_getLast hc
    exact fun hzero => List.rdropWhile_last_not _ _ hne (beq_iff_eq.2 hzero)

theorem value_unsignZero (p : Positional) : p.unsignZero.value = p.value := by
  rw [Positional.unsignZero]
  split
  · rename_i hzero
    have hvalue : p.numeral.decimal.value = 0 := by
      rw [value_numeral, hzero.1, hzero.2]
      simp [Numeral.ofDigitChars, Base.ofDigits]
    have hsame : Positional.value { p with negative := false } = p.numeral.decimal.value := rfl
    rw [hsame, value, hvalue, neg_zero, ite_self]
  · rfl

/-- Zeros at the end of a fraction do not change the number. -/
theorem value_trimZeros (p : Positional) : p.trimZeros.value = p.value := by
  obtain ⟨n, hsplit, -⟩ := dropTrailing_spec p.fraction
  have hten : (10 : ℚ) ^ n ≠ 0 := pow_ne_zero n (by norm_num)
  have hfraction : (Numeral.ofDigitChars (dropTrailing '0' p.fraction) : ℚ) /
      10 ^ (dropTrailing '0' p.fraction).length =
        Numeral.ofDigitChars p.fraction / 10 ^ p.fraction.length := by
    conv_rhs => rw [hsplit]
    rw [Numeral.ofDigitChars_append, ofDigitChars_replicate_zero, List.length_append,
      List.length_replicate, pow_add]
    push_cast
    field_simp
    simp
  have hsame : p.trimZeros.numeral.decimal.value = p.numeral.decimal.value := by
    rw [value_numeral, value_numeral, ← hfraction]
    rfl
  rw [value, value, hsame]
  rfl

theorem HasDigits.getLast?_text (h : p.HasDigits) (hpoint : '.' ∈ p.text) :
    p.fraction ≠ [] ∧ p.text.getLast? = p.fraction.getLast? := by
  cases hfraction : p.fraction with
  | nil =>
    have hsign : '.' ∉ (if p.negative then ['-'] else []) := by split <;> simp
    have hwhole : '.' ∉ p.whole := fun hc => (ne_mark_of_isDigit (h.whole _ hc)).2.1 rfl
    rw [text, hfraction] at hpoint
    simp [hsign, hwhole] at hpoint
  | cons c cs =>
    refine ⟨List.cons_ne_nil c cs, ?_⟩
    rw [text, hfraction]
    exact (List.getLast?_append_cons _ _ _).trans List.getLast?_cons_cons

end Positional

namespace Double

theorem value_eq_ratio (x : Float) : value x =
    if isNegative x then -fractionValue (dyadic x).ratio else fractionValue (dyadic x).ratio := by
  rw [value, negative_dyadic, fractionValue_ratio]
  cases isNegative x with
  | false => rw [Dyadic.signed_false, Int.cast_natCast, if_neg Bool.false_ne_true]
  | true => rw [Dyadic.signed_true, Int.cast_neg, Int.cast_natCast, neg_mul, if_pos rfl]

end Double

namespace Display

variable {x : Float}

/-- The range of positional notation, said of exact values. -/
theorem isPositional_abs_iff (hx : x.isFinite) : isPositional x.abs ↔
    10 ^ (-9 : ℤ) ≤ |Double.value x| ∧ |Double.value x| < 10 ^ (16 : ℤ) := by
  have hleast : Double.value 1e-9 = 4835703278458517 * 2 ^ (-82 : ℤ) := by
    have hdyadic : Double.dyadic 1e-9 = ⟨false, 4835703278458517, -82⟩ := by decide +kernel
    rw [Double.value, hdyadic, Dyadic.signed_false, Int.cast_natCast, Nat.cast_ofNat]
  have hbound : Double.value 1e16 = 10 ^ (16 : ℤ) := by
    have hdyadic : Double.dyadic 1e16 = ⟨false, 5000000000000000, 1⟩ := by decide +kernel
    rw [Double.value, hdyadic, Dyadic.signed_false]
    norm_num
  have hle : Double.value 1e-9 ≤ |Double.value x| ↔ 10 ^ (-9 : ℤ) ≤ |Double.value x| := by
    constructor
    · exact le_trans (by rw [hleast]; norm_num)
    · -- the double that comes before is too small
      intro h
      by_contra hlt
      have hbits : Double.magnitudeBits 1e-9 = 0x3E112E0BE826D694 + 1 := by decide +kernel
      have hpositive : Double.value 1e-9 = |Double.value 1e-9| := by
        rw [hleast]
        exact (abs_of_pos (by norm_num)).symm
      rw [not_le, hpositive, Double.abs_value, Double.abs_value, hbits,
        Double.magnitudeValue_strictMono.lt_iff_lt] at hlt
      have hbelow := Double.magnitudeValue_strictMono.monotone (Nat.le_of_lt_succ hlt)
      have hsmall : Double.magnitudeValue 0x3E112E0BE826D694 < 10 ^ (-9 : ℤ) := by
        norm_num [Double.magnitudeValue, Double.leadingBit, Double.leastExponent]
      rw [← Double.abs_value] at hbelow
      linarith
  rw [isPositional, Bool.and_eq_true, decide_eq_true_eq, decide_eq_true_eq,
    Double.le_iff_value_le rfl (Double.isFinite_abs hx),
    Double.lt_iff_value_lt (Double.isFinite_abs hx) rfl, Double.value_abs hx, hle, hbound]

/-- A double is written with the digits that it has after rounding to a number of places. -/
theorem exists_finite (log10 : Float → Float) (hp : isPositional x.abs) (places : Option Nat) :
    ∃ p : Positional, p.HasDigits ∧ finite log10 x false places = p.text ∧
      Decimal.IsRounded (-(places.getD (significantPlaces log10 x.abs) : ℤ)) (Double.value x)
        p.value ∧
      ∀ c ∈ p.fraction.getLast?, c ≠ '0' := by
  simp only [finite, if_pos hp]
  generalize places.getD (significantPlaces log10 x.abs) = places
  generalize hd : Double.dyadic x = d
  let digits := (Decimal.roundPlaces places d.ratio.1 d.ratio.2).digits
  let p := Positional.ofPlaces (Double.isNegative x) places digits
  have hvalue : p.numeral.decimal.value =
      roundValue (fractionValue d.ratio * 10 ^ (-(-places : ℤ))) * 10 ^ (-places : ℤ) := by
    have hrounded := Decimal.value_roundPlaces places d.ratio.1 d.ratio_den_pos
    rw [Positional.decimal_ofPlaces, neg_neg]
    exact hrounded
  have hnonneg : 0 ≤ fractionValue d.ratio :=
    div_nonneg (Nat.cast_nonneg _) (Nat.cast_nonneg _)
  have hrounded := Decimal.isRounded_roundValue hnonneg (-places)
  refine ⟨p.trimZeros.unsignZero, (Positional.hasDigits_ofPlaces _ _ _).trimZeros.unsignZero, rfl,
    ?_, ?_⟩
  · rw [Positional.value_unsignZero, Positional.value_trimZeros, Positional.value, hvalue,
      Double.value_eq_ratio, hd]
    have hsign : p.negative = Double.isNegative x := rfl
    rw [hsign]
    cases Double.isNegative x with
    | false => exact hrounded
    | true => exact hrounded.neg
  · obtain ⟨n, -, hlast⟩ := Positional.dropTrailing_spec p.fraction
    rw [Positional.unsignZero]
    split <;> exact hlast

/-- Does a text with a point end in neither a zero nor the point? -/
def IsTrimmed (text : List Char) : Prop :=
  '.' ∈ text → ∀ c ∈ text.getLast?, c ≠ '0' ∧ c ≠ '.'

theorem isTrimmed_text {p : Positional} (h : p.HasDigits)
    (hlast : ∀ c ∈ p.fraction.getLast?, c ≠ '0') : IsTrimmed p.text := by
  intro hpoint c hc
  obtain ⟨hne, hsame⟩ := h.getLast?_text hpoint
  rw [hsame] at hc
  have hmem : c ∈ p.fraction := List.mem_of_getLast? hc
  exact ⟨hlast c hc, (Positional.ne_mark_of_isDigit (h.fraction c hmem)).2.1⟩

open Decimal (IsSignificant log_eq)

/-- In positional notation the text of a double denotes its value rounded to fifteen significant
digits, if the value is at least a millionth and less than 10 ^ 15. From there on there are sixteen
digits, all of them before the point; below a millionth the twentieth decimal place is the last one,
and there are the fewer digits the smaller the value is. The fraction ends in no zero. -/
theorem denoted?_doubleWith (log10 : Float → Float) (hx : x.isFinite)
    (hlow : 10 ^ (-9 : ℤ) ≤ |Double.value x|) (hhigh : |Double.value x| < 10 ^ (16 : ℤ))
    (hlog : Double.floorInt (log10 x.abs) = Int.log 10 |Double.value x|) :
    IsTrimmed (doubleWith log10 x false none) ∧
    ∃ r, Base.dec.denoted? (doubleWith log10 x false none) = some r ∧
      (10 ^ (-6 : ℤ) ≤ |Double.value x| → |Double.value x| < 10 ^ (15 : ℤ) →
        ∀ s, IsSignificant 15 (Double.value x) s ↔ s = r) ∧
      (10 ^ (15 : ℤ) ≤ |Double.value x| → ∀ s, IsSignificant 16 (Double.value x) s ↔ s = r) ∧
      (|Double.value x| < 10 ^ (-6 : ℤ) →
        ∀ s, IsSignificant (21 + Int.log 10 |Double.value x|) (Double.value x) s ↔ s = r) := by
  have hpos : 0 < |Double.value x| := lt_of_lt_of_le (by norm_num) hlow
  have hp : isPositional x.abs := (isPositional_abs_iff hx).2 ⟨hlow, hhigh⟩
  have htext : doubleWith log10 x false none = finite log10 x false none := by
    obtain ⟨hnumber, hbounded⟩ := Double.isFinite_iff_not.1 hx
    have hzero : ¬ x == 0 := by
      rw [Double.beq_zero_iff hx, ← Double.value_eq_zero_iff, ← abs_eq_zero]
      exact hpos.ne'
    simp only [doubleWith, hnumber, hbounded, Bool.false_eq_true, if_false, if_neg hzero]
  obtain ⟨p, hdigits, hfinite, hrounded, hlast⟩ := exists_finite log10 hp none
  rw [htext, hfinite]
  refine ⟨isTrimmed_text hdigits hlast, p.value, hdigits.denoted?_text, ?_⟩
  simp only [Decimal.zpow_le_iff hpos, Decimal.lt_zpow_iff hpos] at hlow hhigh ⊢
  simp only [Option.getD_none, significantPlaces, hlog, maxPlaces, significantDigits] at hrounded
  -- the last place is that of the last significant digit, or the bound on the places is reached
  have hplaces {n : ℤ} (hn : Int.log 10 |Double.value x| - (n - 1) =
      -((max 0 (min 20 (((15 : Nat) : ℤ) - 1 - Int.log 10 |Double.value x|))).toNat : ℤ)) (s : ℚ) :
      IsSignificant n (Double.value x) s ↔ s = p.value := by
    rw [IsSignificant, hn]
    exact ⟨fun hs => hs.unique hrounded, fun hs => hs ▸ hrounded⟩
  exact ⟨fun hge hlt => hplaces (by omega), fun hge => hplaces (by omega),
    fun hlt => hplaces (by omega)⟩

theorem denoted?_doubleWith_sum :
    let x : Float := 0.1 + 0.2
    let log10 : Float → Float := fun _ => -0.5228787452803376
    x.isFinite ∧ 10 ^ (-9 : ℤ) ≤ |Double.value x| ∧ |Double.value x| < 10 ^ (16 : ℤ) ∧
      Double.floorInt (log10 x.abs) = Int.log 10 |Double.value x| ∧
      doubleWith log10 x false none = "0.3".toList ∧
      ∀ s, IsSignificant 15 (Double.value x) s ↔ s = 3 / 10 := by
  intro x log10
  have habs : |Double.value x| = 5404319552844596 * 2 ^ (-54 : ℤ) := by
    have hbits : Double.magnitudeBits x = 0x3FD3333333333334 := by decide +kernel
    rw [Double.abs_value, hbits]
    norm_num [Double.magnitudeValue, Double.leadingBit, Double.leastExponent]
  have hx : x.isFinite := by decide +kernel
  have hlow : 10 ^ (-9 : ℤ) ≤ |Double.value x| := by rw [habs]; norm_num
  have hhigh : |Double.value x| < 10 ^ (16 : ℤ) := by rw [habs]; norm_num
  have hlog : Double.floorInt (log10 x.abs) = Int.log 10 |Double.value x| := by
    have hfloor : Double.floorInt (log10 x.abs) = -1 := by decide +kernel
    rw [hfloor, log_eq (e := -1) (by rw [habs]; norm_num) (by rw [habs]; norm_num)]
  have htext : doubleWith log10 x false none = "0.3".toList := by decide +kernel
  have hdenoted : Base.dec.denoted? "0.3".toList = some (3 / 10) := by decide +kernel
  obtain ⟨-, r, hr, hsignificant, -⟩ := denoted?_doubleWith log10 hx hlow hhigh hlog
  rw [htext, hdenoted, Option.some_inj] at hr
  subst hr
  refine ⟨hx, hlow, hhigh, hlog, htext, hsignificant ?_ ?_⟩ <;> rw [habs] <;> norm_num

/-- Sixteen digits before the point are all shown, and not rounded to fifteen. -/
theorem not_isSignificant_doubleWith : ¬ ∀ (log10 : Float → Float) (x : Float), x.isFinite →
    10 ^ (-9 : ℤ) ≤ |Double.value x| → |Double.value x| < 10 ^ (16 : ℤ) →
    Double.floorInt (log10 x.abs) = Int.log 10 |Double.value x| →
    IsTrimmed (doubleWith log10 x false none) ∧
    ∃ r, Base.dec.denoted? (doubleWith log10 x false none) = some r ∧
      IsSignificant 15 (Double.value x) r := by
  intro h
  let x : Float := 1234567890123456
  let log10 : Float → Float := fun _ => 15.091514977169271
  have habs : |Double.value x| = 1234567890123456 := by
    have hbits : Double.magnitudeBits x = 0x43118B54F22AEB00 := by decide +kernel
    rw [Double.abs_value, hbits]
    norm_num [Double.magnitudeValue, Double.leadingBit, Double.leastExponent]
  have hlog : Int.log 10 |Double.value x| = 15 :=
    log_eq (by rw [habs]; norm_num) (by rw [habs]; norm_num)
  have hfloor : Double.floorInt (log10 x.abs) = 15 := by decide +kernel
  have htext : doubleWith log10 x false none = "1234567890123456".toList := by decide +kernel
  have hdenoted : Base.dec.denoted? "1234567890123456".toList = some 1234567890123456 := by
    decide +kernel
  obtain ⟨-, r, hr, k, hk, -⟩ := h log10 x (by decide +kernel) (by rw [habs]; norm_num)
    (by rw [habs]; norm_num) (hfloor.trans hlog.symm)
  rw [htext, hdenoted, Option.some_inj] at hr
  have hunit : (15 : ℤ) - (15 - 1) = 1 := rfl
  rw [← hr, hlog, hunit, zpow_one] at hk
  have hmultiple : (1234567890123456 : ℤ) = k * 10 := by exact_mod_cast hk
  omega

end Display

end DeskCalculator
