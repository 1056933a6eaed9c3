import DeskCalculator.Display
import DeskCalculator.Expression.Reading
import DeskCalculator.Proofs.Nearest
import DeskCalculator.Proofs.Scanning
/-!
Literals as a sign and a numeral. Main statements: `Literal.chars_eq` takes the text of a literal
apart; `Literal.numeralValue_of_isNegative` and `Literal.numeralValue_of_not_isNegative` say that
the numeral is read as the literal.
-/
namespace DeskCalculator

/-! Decimal digits. -/

theorem digitChar_dec (d : Nat) (h : d < 10) :
    (Base.dec.digitChar d).isDigit ∧ (Base.dec.digitChar d).toNat - '0'.toNat = d := by
  have htable : ∀ n : Fin 10, (Base.dec.digitChar n.val).isDigit ∧
      (Base.dec.digitChar n.val).toNat - '0'.toNat = n.val := by decide
  exact htable ⟨d, h⟩

theorem digitChar_of_isDigit {c : Char} (hc : c.isDigit) :
    c.toNat - '0'.toNat < Base.dec.radix ∧ Base.dec.digitChar (c.toNat - '0'.toNat) = c := by
  obtain ⟨hge, hle⟩ := Char.isDigit_iff_toNat.1 hc
  have hzero : '0'.toNat = 48 := rfl
  have hnine : '9'.toNat = 57 := rfl
  have hlt : c.toNat - '0'.toNat < 10 := by omega
  have hdigit : c.toNat - '0'.toNat < Base.dec.radix := hlt
  refine ⟨hlt, ?_⟩
  rw [Base.digitChar, if_pos hdigit, if_pos hlt, Nat.add_sub_cancel' hge, Char.ofNat_toNat]

theorem isDigit_numeral (n : Nat) : ∀ c ∈ Base.dec.numeral n, c.isDigit := by
  intro c hc
  obtain ⟨d, hd, rfl⟩ := List.mem_map.1 hc
  exact (digitChar_dec d (Base.dec.digits_lt n d hd)).1

theorem Base.numeral_ne_nil (b : Base) (n : Nat) : b.numeral n ≠ [] := by
  simp [numeral, digits_ne_nil]

theorem ofDigitChars_numeral (n : Nat) : Numeral.ofDigitChars (Base.dec.numeral n) = n := by
  have hdigits : (Base.dec.numeral n).map (fun c => c.toNat - '0'.toNat) = Base.dec.digits n := by
    rw [Base.numeral, List.map_map]
    refine (List.map_congr_left fun d hd => ?_).trans (List.map_id _)
    exact (digitChar_dec d (Base.dec.digits_lt n d hd)).2
  rw [Numeral.ofDigitChars, hdigits, Base.ofDigits_digits]

theorem ofDigitChars_padZeros (length : Nat) (cs : List Char) :
    Numeral.ofDigitChars (padZeros length cs) = Numeral.ofDigitChars cs := by
  simp only [padZeros]
  generalize length - cs.length = count
  induction count with
  | zero => rfl
  | succ count ih =>
    rw [List.replicate_succ, List.cons_append, ← ih]
    rfl

theorem isDigit_padZeros {length : Nat} {cs : List Char} (h : ∀ c ∈ cs, c.isDigit) :
    ∀ c ∈ padZeros length cs, c.isDigit := by
  intro c hc
  rcases List.mem_append.1 hc with hc | hc
  · rw [List.eq_of_mem_replicate hc]
    rfl
  · exact h c hc

theorem le_length_padZeros (length : Nat) (cs : List Char) :
    length ≤ (padZeros length cs).length := by
  simp only [padZeros, List.length_append, List.length_replicate]
  omega

namespace Positional

def numeral (p : Positional) : Numeral :=
  ⟨p.whole, if p.fraction.isEmpty then none else some p.fraction, none⟩

theorem text_eq (p : Positional) :
    p.text = (if p.negative then ['-'] else []) ++ p.numeral.chars := by
  simp only [text, numeral, Numeral.chars]
  cases p.fraction <;> simp

theorem fraction_numeral (p : Positional) : p.numeral.fraction.getD [] = p.fraction := by
  simp only [numeral]
  cases p.fraction <;> rfl

theorem decimal_numeral (p : Positional) :
    p.numeral.decimal = ⟨Numeral.ofDigitChars (p.whole ++ p.fraction), -p.fraction.length⟩ := by
  rw [Numeral.decimal, fraction_numeral]
  simp [numeral]

/-- Are there digits before the point, and nothing but digits on either side of it? -/
structure HasDigits (p : Positional) : Prop where
  nonempty : p.whole ≠ []
  whole : ∀ c ∈ p.whole, c.isDigit
  fraction : ∀ c ∈ p.fraction, c.isDigit

theorem HasDigits.written_numeral {p : Positional} (h : p.HasDigits) : p.numeral.Written where
  whole := h.whole
  fraction := by
    intro f hf
    have hdigits := h.fraction
    simp only [numeral] at hf
    cases hfraction : p.fraction with
    | nil => simp [hfraction] at hf
    | cons c cs =>
      rw [hfraction] at hdigits
      simp [hfraction] at hf
      subst hf
      exact hdigits
  power := by simp [numeral]
  nonempty := .inl h.nonempty

theorem hasDigits_ofPlaces (negative : Bool) (places n : Nat) :
    (ofPlaces negative places n).HasDigits := by
  have hdigits : ∀ c ∈ padZeros (places + 1) (Base.dec.numeral n), c.isDigit :=
    isDigit_padZeros (isDigit_numeral n)
  have hlength := le_length_padZeros (places + 1) (Base.dec.numeral n)
  refine ⟨List.ne_nil_of_length_pos ?_, fun c hc => hdigits c (List.mem_of_mem_take hc),
    fun c hc => hdigits c (List.mem_of_mem_drop hc)⟩
  simp only [ofPlaces, List.length_take]
  omega

theorem HasDigits.trimZeros {p : Positional} (h : p.HasDigits) : p.trimZeros.HasDigits where
  nonempty := h.nonempty
  whole := h.whole
  fraction c hc := h.fraction c ((List.rdropWhile_prefix (· == '0') p.fraction).mem hc)

theorem HasDigits.unsignZero {p : Positional} (h : p.HasDigits) : p.unsignZero.HasDigits := by
  rw [Positional.unsignZero]
  split <;> exact ⟨h.nonempty, h.whole, h.fraction⟩

theorem decimal_ofPlaces (negative : Bool) (places n : Nat) :
    (ofPlaces negative places n).numeral.decimal = ⟨n, -places⟩ := by
  have hlength := le_length_padZeros (places + 1) (Base.dec.numeral n)
  have hfraction : (ofPlaces negative places n).fraction.length = places := by
    simp only [ofPlaces, List.length_drop]
    omega
  rw [decimal_numeral, hfraction]
  simp [ofPlaces, ofDigitChars_padZeros, ofDigitChars_numeral]

theorem hasDigits_ofDecimal (negative : Bool) (d : Decimal) : (ofDecimal negative d).HasDigits := by
  simp only [ofDecimal]
  split
  · exact hasDigits_ofPlaces _ _ _
  · exact ⟨Base.dec.numeral_ne_nil _, isDigit_numeral _, by simp⟩

theorem value_ofDecimal (negative : Bool) (d : Decimal) :
    (ofDecimal negative d).numeral.decimal.value = d.value := by
  simp only [ofDecimal]
  split
  · rename_i h
    have hexp : -(d.exponent.natAbs : Int) = d.exponent := by omega
    rw [decimal_ofPlaces, hexp]
  · rename_i h
    obtain ⟨n, hn⟩ := Int.eq_ofNat_of_zero_le (Int.not_lt.1 h)
    rw [decimal_numeral]
    simp [ofDigitChars_numeral, Decimal.value, Decimal.ratio, scaleFraction, hn]

theorem numeral_ofDecimal (negative : Bool) (d : Decimal) :
    (ofDecimal negative d).numeral = (ofDecimal false d).numeral := by
  simp only [ofDecimal]
  split <;> rfl

end Positional

namespace Scientific

def numeral (s : Scientific) : Numeral :=
  { s.mantissa.numeral with
    power := some ⟨'e', if s.exponent < 0 then some '-' else none,
      Base.dec.numeral s.exponent.natAbs⟩ }

theorem text_eq (s : Scientific) :
    s.text = (if s.mantissa.negative then ['-'] else []) ++ s.numeral.chars := by
  rw [text, Positional.text_eq]
  unfold numeral Numeral.chars Positional.numeral Numeral.Power.chars integerText
  by_cases h : s.exponent < 0 <;> simp [h]

theorem decimal_numeral (s : Scientific) :
    s.numeral.decimal = ⟨Numeral.ofDigitChars (s.mantissa.whole ++ s.mantissa.fraction),
      s.exponent - s.mantissa.fraction.length⟩ := by
  have hpower : Numeral.Power.value ⟨'e', if s.exponent < 0 then some '-' else none,
      Base.dec.numeral s.exponent.natAbs⟩ = s.exponent := by
    rw [Numeral.Power.value, ofDigitChars_numeral]
    by_cases h : s.exponent < 0
    · rw [if_pos h, if_pos rfl]
      omega
    · rw [if_neg h, if_neg (by simp)]
      omega
  have hfraction : s.numeral.fraction.getD [] = s.mantissa.fraction := s.mantissa.fraction_numeral
  rw [Numeral.decimal, hfraction]
  simp [numeral, hpower, Positional.numeral]

theorem hasDigits_mantissa (negative : Bool) (d : Decimal) :
    (ofDecimal negative d).mantissa.HasDigits := by
  have hdigits := isDigit_numeral d.digits
  refine ⟨?_, fun c hc => hdigits c (List.mem_of_mem_take hc),
    fun c hc => hdigits c (List.mem_of_mem_drop hc)⟩
  simp [ofDecimal, Base.numeral_ne_nil]

theorem written_ofDecimal (negative : Bool) (d : Decimal) :
    (ofDecimal negative d).numeral.Written := by
  have hmantissa := (hasDigits_mantissa negative d).written_numeral
  refine ⟨hmantissa.whole, hmantissa.fraction, ?_, hmantissa.nonempty⟩
  intro p hp
  obtain rfl := Option.some.inj hp
  refine ⟨.inl rfl, ?_, isDigit_numeral _, Base.dec.numeral_ne_nil _⟩
  split
  · exact .inr (.inr rfl)
  · exact .inl rfl

theorem value_ofDecimal (negative : Bool) (d : Decimal) :
    (ofDecimal negative d).numeral.decimal.value = d.value := by
  have hsplit := List.take_append_drop 1 (Base.dec.numeral d.digits)
  rw [decimal_numeral]
  simp only [ofDecimal, hsplit, ofDigitChars_numeral, List.length_drop, add_sub_cancel_right]

end Scientific

namespace Literal

def numeral : Value → Numeral
  | .double x =>
    if x == 0 then ⟨['0'], none, none⟩
    else if Display.isPositional x.abs then (positional x).numeral
    else (scientific x).numeral
  | .integer i => ⟨Base.dec.numeral i.toInt.natAbs, none, none⟩
  | .error _ => ⟨['0'], none, none⟩

end Literal

namespace Value

def IsLiteral (d : Domain) : Value → Prop
  | double x => d = .double ∧ x.isFinite
  | integer _ => d = .integer
  | error _ => True

def isPositive : Value → Bool
  | double x => 0 < x
  | integer i => 0 < i
  | error _ => false

def negated : Value → Value
  | double x => double (-x)
  | integer i => integer (-i)
  | error k => error k

/-- The value as it is read: a zero has no sign. -/
def unsignZero : Value → Value
  | double x => if x == 0 then double 0 else double x
  | v => v

end Value

namespace Literal

open Double (isNegative magnitudeBits)

theorem numeral_double (x : Float) : numeral (.double x) =
    if x == 0 then ⟨['0'], none, none⟩
    else if Display.isPositional x.abs then (positional x).numeral
    else (scientific x).numeral := rfl

theorem numeral_integer (i : Int64) :
    numeral (.integer i) = ⟨Base.dec.numeral i.toInt.natAbs, none, none⟩ := rfl

variable {x y : Float}

theorem shortest_congr (tie : Tie) (h : magnitudeBits x = magnitudeBits y) :
    Decimal.shortest tie x = Decimal.shortest tie y := by
  have hsignificand : (Double.dyadic x).significand = (Double.dyadic y).significand := by
    unfold Double.dyadic
    rw [h]
    dsimp only
    split <;> rfl
  have hexponent : (Double.dyadic x).exponent = (Double.dyadic y).exponent := by
    unfold Double.dyadic
    rw [h]
    dsimp only
    split <;> rfl
  have hratio : (Double.dyadic x).ratio = (Double.dyadic y).ratio := by
    rw [Dyadic.ratio, hsignificand, hexponent, ← Dyadic.ratio]
  have hexact : Decimal.ofDyadic (Double.dyadic x) = Decimal.ofDyadic (Double.dyadic y) := by
    rw [Decimal.ofDyadic, hsignificand, hexponent, hratio, ← Decimal.ofDyadic]
  simp only [Decimal.shortest, hratio, hexact, h]

theorem numeral_congr (hx : x.isFinite) (hy : y.isFinite)
    (h : magnitudeBits x = magnitudeBits y) : numeral (.double x) = numeral (.double y) := by
  have hzero : (x == 0) = (y == 0) := by
    rw [Bool.eq_iff_iff, Double.beq_zero_iff hx, Double.beq_zero_iff hy, h]
  have habs : x.abs = y.abs := by rw [Double.abs_eq_ofBits hx, Double.abs_eq_ofBits hy, h]
  have hpositional : (positional x).numeral = (positional y).numeral := by
    rw [positional, positional, Positional.numeral_ofDecimal, shortest_congr _ h,
      ← Positional.numeral_ofDecimal]
  have hscientific : (scientific x).numeral = (scientific y).numeral := by
    rw [scientific, scientific, shortest_congr _ h]
    rfl
  simp only [numeral, hzero, habs, hpositional, hscientific]

theorem chars_double (hx : x.isFinite) :
    chars (.double x) = (if x < 0 then ['-'] else []) ++ (numeral (.double x)).chars := by
  have hnegative : (positional x).negative = isNegative x := by
    simp only [positional, Positional.ofDecimal]
    split <;> rfl
  by_cases hzero : x == 0
  · have hsign : ¬ x < 0 := by
      rw [Double.lt_zero_iff hx]
      exact fun h => h.2 ((Double.beq_zero_iff hx).1 hzero)
    simp [chars, numeral, hzero, hsign, Numeral.chars]
  · have hsign : x < 0 ↔ isNegative x = true := by
      rw [Double.lt_zero_iff hx]
      exact and_iff_left fun h => hzero ((Double.beq_zero_iff hx).2 h)
    simp only [chars, numeral, hzero, hx, if_true, hsign]
    by_cases hpositional : Display.isPositional x.abs
    · simp [hpositional, Positional.text_eq, hnegative]
    · simp only [hpositional, Scientific.text_eq]
      rfl

theorem written_numeral (v : Value) : (numeral v).Written := by
  have hzero : Numeral.Written ⟨['0'], none, none⟩ :=
    ⟨by simp, by simp, by simp, .inl (by simp)⟩
  cases v with
  | double x =>
    rw [numeral_double]
    split
    · exact hzero
    · split
      · exact (Positional.hasDigits_ofDecimal _ _).written_numeral
      · exact Scientific.written_ofDecimal _ _
  | integer i =>
    rw [numeral_integer]
    exact ⟨isDigit_numeral _, by simp, by simp, .inl (Base.dec.numeral_ne_nil _)⟩
  | error k => exact hzero

theorem toDouble_numeral (negative : Bool) (hx : x.isFinite) :
    (numeral (.double x)).toDouble negative = Double.ofBits negative (magnitudeBits x) := by
  rw [Numeral.toDouble, Decimal.toDouble_eq]
  congr 1
  rw [numeral_double]
  split
  · rename_i hzero
    have hvalue : (Numeral.decimal ⟨['0'], none, none⟩).value = 0 := by
      have hdigits : (Numeral.decimal ⟨['0'], none, none⟩).digits = 0 := rfl
      simp [Decimal.value, hdigits]
    rw [hvalue, (Double.beq_zero_iff hx).1 hzero]
    rfl
  · split
    · rw [positional, Positional.value_ofDecimal, Decimal.nearest_shortest _ hx]
    · rw [scientific, Scientific.value_ofDecimal, Decimal.nearest_shortest _ hx]

theorem toInt64?_numeral (negative : Bool) {i j : Int64}
    (h : Dyadic.signed negative i.toInt.natAbs = j.toInt) :
    (numeral (.integer i)).toInt64? negative = some j := by
  have hrange := And.intro j.minValue_le_toInt j.toInt_le
  rw [numeral_integer, Numeral.toInt64?]
  simp only [ofDigitChars_numeral, h]
  rw [if_pos ⟨rfl, hrange⟩, Int64.ofInt_toInt]

theorem chars_integer (i : Int64) :
    chars (.integer i) = (if i < 0 then ['-'] else []) ++ (numeral (.integer i)).chars := by
  have hsign : i < 0 ↔ i.toInt < 0 := Int64.lt_iff_toInt_lt
  simp [chars, integerText, numeral_integer, Numeral.chars, hsign]

theorem chars_eq {d : Domain} {v : Value} (hv : v.IsLiteral d) (he : v.isError = false) :
    chars v = (if v.isNegative then ['-'] else []) ++ (numeral v).chars := by
  cases v with
  | double x => simpa [Value.isNegative] using chars_double hv.2
  | integer i => simpa [Value.isNegative] using chars_integer i
  | error k => cases he

/-! How the numeral of a literal is read. -/

open Phrase (numeralValue)

variable {d : Domain} {v : Value}

theorem numeralValue_of_isNegative (hv : v.IsLiteral d) (hn : v.isNegative) :
    numeralValue d true (numeral v) = .ok v := by
  cases v with
  | double x =>
    obtain ⟨rfl, hx⟩ := hv
    have hneg := (Double.lt_zero_iff hx).1 (by simpa [Value.isNegative] using hn)
    have hbits := Double.ofBits_magnitudeBits (Nat.le_of_lt (Double.isFinite_iff.1 hx))
    rw [hneg.1] at hbits
    rw [numeralValue, toDouble_numeral true hx, hbits]
  | integer i =>
    obtain rfl := hv
    have hneg : i.toInt < 0 := Int64.lt_iff_toInt_lt.1 (by simpa [Value.isNegative] using hn)
    have hsigned : Dyadic.signed true i.toInt.natAbs = i.toInt := by
      rw [Dyadic.signed, if_pos rfl]
      omega
    rw [numeralValue, toInt64?_numeral true hsigned]
  | error k => cases hn

theorem numeralValue_of_not_isNegative (hv : v.IsLiteral d) (he : v.isError = false)
    (hn : v.isNegative = false) : numeralValue d false (numeral v) = .ok v.unsignZero := by
  cases v with
  | double x =>
    obtain ⟨rfl, hx⟩ := hv
    have hbits := Double.ofBits_magnitudeBits (Nat.le_of_lt (Double.isFinite_iff.1 hx))
    rw [numeralValue, toDouble_numeral false hx, Value.unsignZero]
    split
    · rename_i hzero
      rw [(Double.beq_zero_iff hx).1 hzero]
      rfl
    · rename_i hzero
      have hpos : isNegative x = false := by
        have hlt : ¬ x < 0 := by simpa [Value.isNegative] using hn
        rw [Double.lt_zero_iff hx] at hlt
        by_contra hneg
        exact hlt ⟨by simpa using hneg, fun h => hzero ((Double.beq_zero_iff hx).2 h)⟩
      rw [hpos] at hbits
      rw [hbits]
  | integer i =>
    obtain rfl := hv
    have hpos : ¬ i.toInt < 0 := fun h => by
      simp [Value.isNegative, Int64.lt_iff_toInt_lt, h] at hn
    have hsigned : Dyadic.signed false i.toInt.natAbs = i.toInt := by
      rw [Dyadic.signed, if_neg Bool.false_ne_true]
      omega
    rw [numeralValue, toInt64?_numeral false hsigned]
    rfl
  | error k => cases he

theorem bits_of_isPositive {x : Float} (hx : x.isFinite) (hp : (Value.double x).isPositive) :
    isNegative x = false ∧ magnitudeBits x ≠ 0 :=
  (Double.zero_lt_iff hx).1 (by simpa [Value.isPositive] using hp)

theorem neg_of_isPositive {x : Float} (hx : x.isFinite) (hp : (Value.double x).isPositive) :
    -x = Double.ofBits true (magnitudeBits x) := by
  rw [Double.neg_eq_ofBits hx, (bits_of_isPositive hx hp).1]
  rfl

theorem toInt_pos_of_isPositive {i : Int64} (hp : (Value.integer i).isPositive) : 0 < i.toInt := by
  have hlt : 0 < i := by simpa [Value.isPositive] using hp
  simpa using Int64.lt_iff_toInt_lt.1 hlt

theorem toInt_neg_of_isPositive {i : Int64} (hp : (Value.integer i).isPositive) :
    (-i).toInt = -i.toInt := by
  have hpos := toInt_pos_of_isPositive hp
  have hlt := i.toInt_lt
  rw [Int64.toInt_neg]
  exact Int.bmod_eq_of_le (by omega) (by omega)

theorem isFinite_neg {x : Float} (hx : x.isFinite) : (-x).isFinite := by
  have hlt := Double.isFinite_iff.1 hx
  rw [Double.isFinite_iff, Double.neg_eq_ofBits hx,
    Double.magnitudeBits_ofBits _ (Nat.le_of_lt hlt)]
  exact hlt

theorem magnitudeBits_neg {x : Float} (hx : x.isFinite) : magnitudeBits (-x) = magnitudeBits x := by
  rw [Double.neg_eq_ofBits hx,
    Double.magnitudeBits_ofBits _ (Nat.le_of_lt (Double.isFinite_iff.1 hx))]

theorem isLiteral_negated (hv : v.IsLiteral d) : v.negated.IsLiteral d := by
  cases v with
  | double x => exact ⟨hv.1, isFinite_neg hv.2⟩
  | integer i => exact hv
  | error k => trivial

theorem isNegative_negated (hv : v.IsLiteral d) (hp : v.isPositive) : v.negated.isNegative := by
  cases v with
  | double x =>
    have hbits := bits_of_isPositive hv.2 hp
    have hlt : -x < 0 := by
      rw [Double.lt_zero_iff (isFinite_neg hv.2), magnitudeBits_neg hv.2,
        neg_of_isPositive hv.2 hp,
        Double.isNegative_ofBits _ (Nat.le_of_lt (Double.isFinite_iff.1 hv.2))]
      exact ⟨rfl, hbits.2⟩
    simpa [Value.isNegative, Value.negated] using hlt
  | integer i =>
    have hpos := toInt_pos_of_isPositive hp
    have hlt : -i < 0 := by
      rw [Int64.lt_iff_toInt_lt, toInt_neg_of_isPositive hp, Int64.toInt_zero]
      omega
    simpa [Value.isNegative, Value.negated] using hlt
  | error k => cases hp

theorem isNegative_of_isPositive (hv : v.IsLiteral d) (hp : v.isPositive) :
    v.isNegative = false := by
  cases v with
  | double x =>
    have hbits := bits_of_isPositive hv.2 hp
    have hlt : ¬ x < 0 := by
      rw [Double.lt_zero_iff hv.2, hbits.1]
      simp
    simpa [Value.isNegative] using hlt
  | integer i =>
    have hpos := toInt_pos_of_isPositive hp
    have hlt : ¬ i < 0 := by
      rw [Int64.lt_iff_toInt_lt, Int64.toInt_zero]
      omega
    simpa [Value.isNegative] using hlt
  | error k => cases hp

theorem numeral_negated (hv : v.IsLiteral d) (hp : v.isPositive) :
    numeral v.negated = numeral v := by
  cases v with
  | double x => exact numeral_congr (isFinite_neg hv.2) hv.2 (magnitudeBits_neg hv.2)
  | integer i =>
    rw [Value.negated, numeral_integer, toInt_neg_of_isPositive hp, Int.natAbs_neg]
    rfl
  | error k => cases hp

/-- A minus before a positive literal is read as its sign. -/
theorem numeralValue_of_isPositive (hv : v.IsLiteral d) (hp : v.isPositive) :
    numeralValue d true (numeral v) = .ok v.negated := by
  rw [← numeral_negated hv hp]
  exact numeralValue_of_isNegative (isLiteral_negated hv) (isNegative_negated hv hp)

theorem numeralValue_of_zero (hv : v.IsLiteral d) (he : v.isError = false)
    (hn : v.isNegative = false) (hp : v.isPositive = false) :
    ∃ w, numeralValue d true (numeral v) = .ok w ∧ w.isNegative = false := by
  cases v with
  | double x =>
    obtain ⟨rfl, hx⟩ := hv
    have hlt : ¬ x < 0 := by simpa [Value.isNegative] using hn
    have hgt : ¬ 0 < x := by simpa [Value.isPositive] using hp
    rw [Double.lt_zero_iff hx] at hlt
    rw [Double.zero_lt_iff hx] at hgt
    have hzero : magnitudeBits x = 0 := by
      cases hneg : isNegative x <;> simp_all
    refine ⟨_, by rw [numeralValue, toDouble_numeral true hx, hzero], ?_⟩
    decide
  | integer i =>
    obtain rfl := hv
    have hlt : ¬ i < 0 := by simpa [Value.isNegative] using hn
    have hgt : ¬ 0 < i := by simpa [Value.isPositive] using hp
    rw [Int64.lt_iff_toInt_lt, Int64.toInt_zero] at hlt hgt
    have hsigned : Dyadic.signed true i.toInt.natAbs = (0 : Int64).toInt := by
      rw [Dyadic.signed, if_pos rfl, Int64.toInt_zero]
      omega
    exact ⟨_, by rw [numeralValue, toInt64?_numeral true hsigned], rfl⟩
  | error k => cases he

theorem isError_of_isPositive (hp : v.isPositive) : v.isError = false := by
  cases v with
  | error k => cases hp
  | double x | integer i => rfl

theorem chars_negated (hv : v.IsLiteral d) (hp : v.isPositive) :
    chars v.negated = '-' :: chars v := by
  have he : v.negated.isError = false := by
    cases v with
    | error k => cases hp
    | double x | integer i => rfl
  rw [chars_eq (isLiteral_negated hv) he, chars_eq hv (isError_of_isPositive hp),
    isNegative_negated hv hp, isNegative_of_isPositive hv hp, numeral_negated hv hp]
  rfl

theorem chars_unsignZero (v : Value) : chars v.unsignZero = chars v := by
  cases v with
  | double x =>
    rw [Value.unsignZero]
    split
    · rename_i hzero
      have hchars : chars (.double x) = ['0'] := by simp [chars, hzero]
      rw [hchars]
      rfl
    · rfl
  | integer i | error k => rfl

end Literal
end DeskCalculator
