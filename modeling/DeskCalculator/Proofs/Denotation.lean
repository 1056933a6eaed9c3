import DeskCalculator.Calculator.State
import DeskCalculator.Proofs.Replay
import DeskCalculator.Proofs.Rounding
/-!
What the text of a number denotes. Main statements: `Entry.Consistent.denoted?_chars` says that the
text denotes what the fields of the entry stand for, and `Entry.value_run` that this is what is
committed, as far as there is an integer or a double for it.
-/
namespace DeskCalculator

/-! The number that a text denotes. -/

/-- Splits a text at the first occurrence of a character, which is left out. -/
def splitFirst (c : Char) (cs : List Char) : List Char × List Char :=
  (cs.takeWhile (· ≠ c), (cs.dropWhile (· ≠ c)).tail)

theorem splitFirst_cons {c : Char} {cs : List Char} (h : ∀ d ∈ cs, d ≠ c) (ds : List Char) :
    splitFirst c (cs ++ c :: ds) = (cs, ds) := by
  have hall : ∀ d ∈ cs, decide (d ≠ c) = true := fun d hd => decide_eq_true (h d hd)
  simp only [splitFirst, List.takeWhile_append_of_pos hall, List.dropWhile_append_of_pos hall]
  simp

theorem splitFirst_of_notMem {c : Char} {cs : List Char} (h : ∀ d ∈ cs, d ≠ c) :
    splitFirst c cs = (cs, []) := by
  have hall : ∀ d ∈ cs, decide (d ≠ c) = true := fun d hd => decide_eq_true (h d hd)
  rw [splitFirst, List.takeWhile_eq_self_iff.2 hall, List.dropWhile_eq_nil_iff.2 hall,
    List.tail_nil]

def splitSign : List Char → Bool × List Char
  | '-' :: cs => (true, cs)
  | cs => (false, cs)

theorem splitSign_append {c : Char} (hc : c ≠ '-') (negative : Bool) (cs : List Char) :
    splitSign (Entry.signChars negative ++ c :: cs) = (negative, c :: cs) := by
  cases negative with
  | true => rfl
  | false =>
    show splitSign (c :: cs) = (false, c :: cs)
    unfold splitSign
    split
    · rename_i heq
      exact absurd (List.cons.inj heq).1 hc
    · rfl

namespace Base

variable (b : Base)

def natural? (cs : List Char) : Option Nat := (cs.mapM b.digitOf?).map b.ofDigits

def integer? (cs : List Char) : Option ℤ :=
  let (negative, cs) := splitSign cs
  (b.natural? cs).map (Dyadic.signed negative)

/-- The number that a text denotes, made up of a sign, digits, a fraction after a point and an
exponent after a small `e`, which counts powers of the base. -/
def denoted? (cs : List Char) : Option ℚ := do
  let (negative, cs) := splitSign cs
  let (mantissa, exponent) := splitFirst 'e' cs
  let (whole, fraction) := splitFirst '.' mantissa
  let w ← b.natural? whole
  let f ← b.natural? fraction
  let x ← b.integer? exponent
  let magnitude : ℚ := (w + f / b.radix ^ fraction.length) * b.radix ^ x
  return if negative then -magnitude else magnitude

/-! Digits. -/

theorem natural?_map_digitChar {ds : List Nat} (hds : ∀ d ∈ ds, d < b.radix) :
    b.natural? (ds.map b.digitChar) = some (b.ofDigits ds) := by
  have hmap : (ds.map b.digitChar).mapM b.digitOf? = some ds := by
    induction ds with
    | nil => rfl
    | cons d ds ih =>
      rw [List.map_cons, List.mapM_cons, digitOf?_digitChar b d (hds d List.mem_cons_self),
        ih fun d' hd' => hds d' (List.mem_cons_of_mem _ hd')]
      rfl
  rw [natural?, hmap, Option.map_some]

theorem appendDigits_eq (n : Nat) (ds : List Nat) :
    b.appendDigits n ds = n * b.radix ^ ds.length + b.ofDigits ds := by
  induction ds generalizing n with
  | nil => simp [appendDigits, ofDigits]
  | cons d ds ih =>
    have hfront : b.ofDigits (d :: ds) = b.appendDigits (0 * b.radix + d) ds := rfl
    have hcons : b.appendDigits n (d :: ds) = b.appendDigits (n * b.radix + d) ds := rfl
    rw [hfront, hcons, ih, ih, List.length_cons]
    ring

end Base

namespace Entry

variable {e : Entry} {x : Float}

/-! The text of an entry, taken apart. -/

theorem Consistent.whole_ne_nil (h : e.Consistent) : e.whole ≠ [] := by
  have hlt : e.places < e.shownDigits.length := by
    simp only [shownDigits]
    split
    · rw [List.length_append, List.length_replicate]
      omega
    · rename_i hp
      rw [h.places hp]
      exact List.length_pos_of_ne_nil (e.base.digits_ne_nil _)
  refine List.ne_nil_of_length_pos ?_
  rw [whole, List.length_take]
  omega

theorem ne_of_mem_map_digitChar {ds : List Nat} (hds : ∀ d ∈ ds, d < e.base.radix) {c : Char}
    (hc : c ∈ ds.map e.base.digitChar) : c ≠ '-' ∧ c ≠ '.' ∧ c ≠ 'e' := by
  obtain ⟨d, hd, rfl⟩ := List.mem_map.1 hc
  obtain ⟨hsign, hpoint, hexponent, -⟩ := Base.digitChar_plain (hds d hd)
  exact ⟨hsign, hpoint, hexponent⟩

theorem splitSign_map_digitChar {ds : List Nat} (hds : ∀ d ∈ ds, d < e.base.radix) (hne : ds ≠ [])
    (negative : Bool) (cs : List Char) :
    splitSign (signChars negative ++ (ds.map e.base.digitChar ++ cs)) =
      (negative, ds.map e.base.digitChar ++ cs) := by
  cases ds with
  | nil => exact absurd rfl hne
  | cons d ds =>
    exact splitSign_append (ne_of_mem_map_digitChar hds (List.mem_cons_self)).1 _ _

theorem whole_lt (e : Entry) : ∀ d ∈ e.whole, d < e.base.radix := fun d hd =>
  e.shownDigits_lt d (List.mem_of_mem_take hd)

theorem fraction_lt (e : Entry) : ∀ d ∈ e.fraction, d < e.base.radix := fun d hd =>
  e.shownDigits_lt d (List.mem_of_mem_drop hd)

theorem Consistent.splitFirst_point (h : e.Consistent) :
    splitFirst '.' (e.whole.map e.base.digitChar ++ e.fractionChars) =
      (e.whole.map e.base.digitChar, e.fraction.map e.base.digitChar) := by
  have hwhole : ∀ c ∈ e.whole.map e.base.digitChar, c ≠ '.' := fun c hc =>
    (ne_of_mem_map_digitChar e.whole_lt hc).2.1
  rw [fractionChars]
  split
  · exact splitFirst_cons hwhole _
  · rename_i hp
    rw [h.fraction_eq_nil hp, List.append_nil]
    exact splitFirst_of_notMem hwhole

def exponentDigits (e : Entry) : List Char :=
  if e.inExponent then
    signChars e.exponentNegative ++ (e.base.digits e.exponent).map e.base.digitChar
  else []

theorem splitFirst_exponent (e : Entry) :
    splitFirst 'e' (e.whole.map e.base.digitChar ++ e.fractionChars ++ e.exponentChars) =
      (e.whole.map e.base.digitChar ++ e.fractionChars, e.exponentDigits) := by
  have hmantissa : ∀ c ∈ e.whole.map e.base.digitChar ++ e.fractionChars, c ≠ 'e' := by
    intro c hc
    rcases List.mem_append.1 hc with hc | hc
    · exact (ne_of_mem_map_digitChar e.whole_lt hc).2.2
    · rw [fractionChars] at hc
      split at hc
      · rcases List.mem_cons.1 hc with rfl | hc
        · decide
        · exact (ne_of_mem_map_digitChar e.fraction_lt hc).2.2
      · cases hc
  rw [exponentChars, exponentDigits]
  split
  · exact splitFirst_cons hmantissa _
  · rw [List.append_nil]
    exact splitFirst_of_notMem hmantissa

theorem Consistent.integer?_exponentDigits (h : e.Consistent) :
    e.base.integer? e.exponentDigits = some (Dyadic.signed e.exponentNegative e.exponent) := by
  have hdigits := e.base.digits_lt e.exponent
  rw [exponentDigits]
  split
  · have hsplit := splitSign_map_digitChar hdigits (e.base.digits_ne_nil _) e.exponentNegative []
    rw [List.append_nil] at hsplit
    rw [Base.integer?, hsplit]
    dsimp only
    rw [Base.natural?_map_digitChar e.base hdigits, Option.map_some, Base.ofDigits_digits]
  · rename_i hout
    obtain ⟨hexponent, hsign⟩ := h.exponent hout
    rw [hexponent, hsign]
    rfl

/-- The number that the fields of an entry stand for. -/
def quantity (e : Entry) : ℚ :=
  Dyadic.signed e.negative e.significand *
    (e.base.radix : ℚ) ^ (Dyadic.signed e.exponentNegative e.exponent - e.places)

/-- The text of an entry denotes what its fields stand for. -/
theorem Consistent.denoted?_chars (h : e.Consistent) :
    e.base.denoted? (e.chars false) = some e.quantity := by
  have hsplit := splitSign_map_digitChar e.whole_lt h.whole_ne_nil e.negative
    (e.fractionChars ++ e.exponentChars)
  have hradix : (e.base.radix : ℚ) ≠ 0 := Nat.cast_ne_zero.2 (Nat.ne_of_gt e.base.radix_pos)
  have hsignificand : (e.base.ofDigits e.whole : ℚ) +
      e.base.ofDigits e.fraction / (e.base.radix : ℚ) ^ e.places =
        e.significand * (e.base.radix : ℚ) ^ (-e.places : ℤ) := by
    have hsum := e.base.appendDigits_eq (e.base.ofDigits e.whole) e.fraction
    rw [Base.appendDigits_ofDigits, whole_append_fraction, ofDigits_shownDigits,
      h.length_fraction] at hsum
    rw [hsum, zpow_neg, zpow_natCast]
    push_cast
    field_simp
  rw [Base.denoted?, chars_eq, List.append_assoc, List.append_assoc, hsplit]
  dsimp only
  rw [← List.append_assoc, splitFirst_exponent]
  dsimp only
  rw [h.splitFirst_point]
  dsimp only
  rw [Base.natural?_map_digitChar _ e.whole_lt, Base.natural?_map_digitChar _ e.fraction_lt,
    h.integer?_exponentDigits]
  have hpower : (e.significand : ℚ) * (e.base.radix : ℚ) ^ (-e.places : ℤ) *
      (e.base.radix : ℚ) ^ Dyadic.signed e.exponentNegative e.exponent =
        e.significand * (e.base.radix : ℚ) ^
          (Dyadic.signed e.exponentNegative e.exponent - e.places) := by
    rw [mul_assoc, ← zpow_add₀ hradix, neg_add_eq_sub]
  simp only [Option.bind_eq_bind, Option.bind_some, List.length_map, h.length_fraction,
    hsignificand, hpower, quantity]
  cases e.negative with
  | false => rw [Dyadic.signed_false, Int.cast_natCast]; rfl
  | true => rw [Dyadic.signed_true, Int.cast_neg, Int.cast_natCast, neg_mul]; rfl

/-! The value of the number. -/

/-- The magnitude of the number as a decimal with its whole exponent. -/
def decimal (e : Entry) : Decimal :=
  ⟨e.significand, Dyadic.signed e.exponentNegative e.exponent - e.places⟩

theorem abs_quantity (hbase : e.base = .dec) : |e.quantity| = e.decimal.value := by
  have hsigned : |(Dyadic.signed e.negative e.significand : ℚ)| = e.significand := by
    cases e.negative with
    | false => rw [Dyadic.signed_false, Int.cast_natCast, Nat.abs_cast]
    | true => rw [Dyadic.signed_true, Int.cast_neg, Int.cast_natCast, abs_neg, Nat.abs_cast]
  rw [quantity, abs_mul, hsigned, hbase, Decimal.value, decimal]
  congr 1
  exact abs_of_pos (zpow_pos (by norm_num [Base.radix]) _)

/-- An exponent beyond the largest one counts as that one: the number is too great or too small for
a double either way. -/
theorem Consistent.nearest_unitExponent (h : e.Consistent) (hplaces : e.places < 2 ^ 30) :
    Double.nearest (Decimal.value ⟨e.significand, e.unitExponent⟩) =
      Double.nearest e.decimal.value := by
  rcases Nat.lt_or_ge maxExponent e.exponent with hbeyond | hle
  · rcases Nat.eq_zero_or_pos e.significand with hzero | hpos
    · rw [decimal, hzero]
      simp [Decimal.value]
    have hlog : e.significand.log2 < 64 := (Nat.log2_lt hpos.ne').2 h.significand_lt
    have hmax : min e.exponent maxExponent = maxExponent := Nat.min_eq_right hbeyond.le
    have hlarge {exponent : ℤ} (hexponent : Decimal.exponentBound < exponent) :
        Double.nearest (Decimal.value ⟨e.significand, exponent⟩) = Double.infinityBits :=
      Double.nearest_eq_infinityBits (Decimal.le_value_of_large hpos.ne' hexponent)
    have hsmall {exponent : ℤ} (hexponent : exponent < -(Decimal.exponentBound + 64)) :
        Double.nearest (Decimal.value ⟨e.significand, exponent⟩) = 0 := by
      refine Double.nearest_eq_zero ?_ (Decimal.value_lt_of_small ?_)
      · exact mul_pos (Nat.cast_pos.2 hpos) (zpow_pos (by norm_num) _)
      · show exponent < -(Decimal.exponentBound + (e.significand.log2 : ℤ))
        omega
    simp only [unitExponent, decimal, hmax]
    simp only [maxExponent] at hbeyond ⊢
    cases e.exponentNegative with
    | false =>
      simp only [Dyadic.signed_false]
      rw [hlarge (by simp only [Decimal.exponentBound]; omega),
        hlarge (by simp only [Decimal.exponentBound]; omega)]
    | true =>
      simp only [Dyadic.signed_true]
      rw [hsmall (by simp only [Decimal.exponentBound]; omega),
        hsmall (by simp only [Decimal.exponentBound]; omega)]
  · rw [unitExponent, Nat.min_eq_left hle]
    rfl

theorem Consistent.magnitude_eq (h : e.Consistent) (hplaces : e.places < 2 ^ 30)
    (hbase : e.base = .dec) : e.magnitude = Double.ofBits false (Double.nearest |e.quantity|) := by
  rw [magnitude, if_pos hbase, Decimal.toDouble_eq, h.nearest_unitExponent hplaces,
    abs_quantity hbase]

theorem quantity_eq_zero_iff : e.quantity = 0 ↔ e.significand = 0 := by
  have hradix : (e.base.radix : ℚ) ≠ 0 := Nat.cast_ne_zero.2 (Nat.ne_of_gt e.base.radix_pos)
  rw [quantity, mul_eq_zero, or_iff_left (zpow_ne_zero _ hradix), Int.cast_eq_zero, Dyadic.signed]
  split <;> omega

theorem decide_quantity_lt_zero (hne : e.significand ≠ 0) :
    decide (e.quantity < 0) = e.negative := by
  have hradix : (0 : ℚ) < e.base.radix := Nat.cast_pos.2 e.base.radix_pos
  have hpower : (0 : ℚ) < (e.base.radix : ℚ) ^
      (Dyadic.signed e.exponentNegative e.exponent - e.places) := zpow_pos hradix _
  have hpos : (0 : ℚ) < e.significand := Nat.cast_pos.2 (Nat.pos_of_ne_zero hne)
  rw [quantity]
  cases e.negative with
  | false =>
    rw [Dyadic.signed_false, Int.cast_natCast]
    exact decide_eq_false (not_lt.2 (mul_pos hpos hpower).le)
  | true =>
    rw [Dyadic.signed_true, Int.cast_neg, Int.cast_natCast, neg_mul]
    exact decide_eq_true (neg_neg_of_pos (mul_pos hpos hpower))

theorem Consistent.value_of_double (h : e.Consistent) (hplaces : e.places < 2 ^ 30)
    (hbase : e.base = .dec) (hdouble : ¬ e.integral) {n : Nat}
    (hn : Double.nearest |e.quantity| = n) :
    e.value =
      if n = Double.infinityBits then .error .overflow
      else if n = 0 then if e.quantity = 0 then .double 0 else .error .underflow
      else .double (Double.ofBits e.negative n) := by
  have hle : n ≤ Double.infinityBits := hn ▸ Double.nearest_le _
  simp only [Entry.value, if_neg hdouble, h.magnitude_eq hplaces hbase, hn,
    Double.isInf_ofBits false hle, quantity_eq_zero_iff]
  rcases hle.eq_or_lt with hinf | hlt
  · rw [if_pos hinf, if_pos hinf]
  · rw [if_neg hlt.ne, if_neg hlt.ne]
    have hzero := Double.ofBits_beq_zero_iff false hlt
    by_cases hn0 : n = 0
    · subst hn0
      by_cases hsignificand : e.significand = 0
      · rw [if_pos rfl, if_pos hsignificand, if_neg fun hs => hs.1 hsignificand,
          if_neg fun hs => absurd hs.2 (by decide)]
        rfl
      · rw [if_pos rfl, if_neg hsignificand, if_pos ⟨hsignificand, hzero.2 rfl⟩]
    · have hne : (Double.ofBits false n != 0) = true := by
        rw [bne, Bool.not_eq_true', Bool.eq_false_iff]
        exact fun hz => hn0 (hzero.1 hz)
      rw [if_neg hn0, if_neg fun hs => hn0 (hzero.1 hs.2)]
      cases e.negative with
      | false => rw [if_neg fun hs => Bool.false_ne_true hs.1]
      | true =>
        rw [if_pos ⟨rfl, hne⟩, Double.neg_ofBits false hlt]
        rfl

/-- The value is the double nearest to the number, or says why there is none. -/
theorem Consistent.value_of_isNearest (h : e.Consistent) (hplaces : e.places < 2 ^ 30)
    (hbase : e.base = .dec) (hdouble : ¬ e.integral) (hx : Double.IsNearest e.quantity x) :
    e.value =
      if x.isInf then .error .overflow
      else if x == 0 then if e.quantity = 0 then .double 0 else .error .underflow
      else .double x := by
  have hbits := hx.magnitudeBits_eq
  have hinf := Double.isInf_iff hx.isNaN
  rw [h.value_of_double hplaces hbase hdouble hbits.symm]
  by_cases htop : x.isInf
  · rw [if_pos htop, if_pos (hinf.1 htop)]
  · have hfinite : x.isFinite := Double.isFinite_iff_not.2 ⟨hx.isNaN, by simpa using htop⟩
    have hzero := Double.beq_zero_iff hfinite
    rw [if_neg htop, if_neg fun hn => htop (hinf.2 hn)]
    by_cases hx0 : x == 0
    · rw [if_pos hx0, if_pos (hzero.1 hx0)]
    · have hne : Double.nearest |e.quantity| ≠ 0 := fun hn => hx0 (hzero.2 (hbits.trans hn))
      have hsignificand : e.significand ≠ 0 := by
        intro hs
        rw [quantity_eq_zero_iff.2 hs, abs_zero, Double.nearest, if_pos rfl] at hne
        exact hne rfl
      rw [if_neg hx0, if_neg fun hn => hx0 (hzero.2 hn), ← decide_quantity_lt_zero hsignificand,
        hbits, ← hx.eq_ofBits hne]

/-- An integer is taken modulo the size of a word. -/
theorem Consistent.value_of_integral (h : e.Consistent) (hi : e.integral) :
    ∃ (i : Int64) (n : ℤ), e.value = .integer i ∧ e.quantity = n ∧ i.toInt ≡ n [ZMOD 2 ^ 64] := by
  obtain ⟨hpointed, hout⟩ := h.integral hi
  obtain ⟨hexponent, hsign⟩ := h.exponent hout
  refine ⟨_, Dyadic.signed e.negative e.significand, if_pos hi, ?_, ?_⟩
  · rw [quantity, hexponent, hsign, h.places hpointed]
    simp [Dyadic.signed_false]
  · rw [Int64.toInt_ofInt]
    exact Int.bmod_emod

/-- What is shown is what is committed. Whatever keys have led to a number with fewer than `2 ^ 30`
places: its text denotes a number. An integer is committed as the word that is congruent to it. A
decimal number is committed as the double nearest to it, as an overflow if that one is infinite, as
an underflow if it is zero and the number is not, and as a zero without a sign if the number is
zero, however large the exponent is. The next number starts afresh. -/
theorem value_run (b : Base) (integral : Bool) (strokes : List Stroke) :
    let fresh : Entry := { base := b, integral }
    let e := fresh.run strokes
    e.places < 2 ^ 30 →
      ∃ q, b.denoted? (e.chars false) = some q ∧
        (integral →
          ∃ (i : Int64) (n : ℤ), e.value = .integer i ∧ q = n ∧ i.toInt ≡ n [ZMOD 2 ^ 64]) ∧
        (¬ integral → b = .dec → (∃ x, Double.IsNearest q x) ∧
          ∀ x, Double.IsNearest q x → e.value =
            if x.isInf then .error .overflow
            else if x == 0 then if q = 0 then .double 0 else .error .underflow
            else .double x) ∧
        ∀ c : Calculator, c.entry = e →
          c.commit.entry = fresh ∧ c.commit.context.top? = some (.number e.value) := by
  intro fresh e hplaces
  have hclear : e.clear = fresh := fresh.clear_run strokes
  have he : e.Consistent := (consistent_clear fresh).run strokes
  have hbase : e.base = b := congrArg Entry.base hclear
  have hintegral : e.integral = integral := congrArg Entry.integral hclear
  refine ⟨e.quantity, hbase ▸ he.denoted?_chars, fun hi => ?_, fun hi hb => ⟨?_, fun x hx => ?_⟩,
    fun c hc => ⟨?_, ?_⟩⟩
  · exact he.value_of_integral (hintegral.trans hi)
  · exact Double.exists_isNearest e.quantity
  · exact he.value_of_isNearest hplaces (hbase.trans hb) (hintegral ▸ hi) hx
  · rw [← hclear, ← hc]
    rfl
  · rw [← hc]
    rfl

theorem value_run_half :
    let e := ({} : Entry).run [.digit 0, .point, .digit 5, .changeSign]
    e.places < 2 ^ 30 ∧ Base.dec.denoted? (e.chars false) = some (-1 / 2) ∧
      e.value = .double (Double.ofRatio true 1 2) := by
  intro e
  have hplaces : e.places < 2 ^ 30 := by decide
  obtain ⟨q, hq, -, hdouble, -⟩ := value_run .dec false _ hplaces
  have he : e.Consistent := (consistent_clear {}).run _
  have hquantity : e.quantity = -1 / 2 := by
    show (Dyadic.signed true 5 : ℚ) * (10 : Nat) ^ ((0 : ℤ) - (1 : Nat)) = _
    norm_num [Dyadic.signed]
  obtain rfl : q = -1 / 2 := (Option.some.inj (hq.symm.trans he.denoted?_chars)).trans hquantity
  have hvalue : Double.value (Double.ofRatio true 1 2) = -1 / 2 := by
    have hdyadic : Double.dyadic (Double.ofRatio true 1 2) = ⟨true, 2 ^ 52, -53⟩ := by decide
    rw [Double.value, hdyadic]
    norm_num [Dyadic.signed]
  have hnearest : Double.IsNearest (-1 / 2) (Double.ofRatio true 1 2) :=
    hvalue ▸ Double.isNearest_value (by decide)
  refine ⟨hplaces, hq, ((hdouble Bool.false_ne_true rfl).2 _ hnearest).trans ?_⟩
  rw [if_neg (by decide), if_neg (by decide)]

end Entry
end DeskCalculator
