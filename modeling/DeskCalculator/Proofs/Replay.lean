import DeskCalculator.Proofs.Retyping
/-!
The text of a number that is being typed. Main statement: `Entry.retype_chars` says that the text
determines the number: its characters, pressed as keys one after the other, are all accepted and
lead to the same state again.
-/
namespace DeskCalculator

namespace Base

/-- No digit looks like a sign, the point or the small letter that begins an exponent. -/
theorem digitChar_plain {b : Base} {d : Nat} (hd : d < b.radix) :
    b.digitChar d ≠ '-' ∧ b.digitChar d ≠ '.' ∧ b.digitChar d ≠ 'e' ∧
      (b.digitChar d).utf8Size = 1 :=
  forall_digit hd (by intro b; cases b <;> decide)

variable (b : Base)

def appendDigits (n : Nat) (ds : List Nat) : Nat := ds.foldl (fun n d => n * b.radix + d) n

theorem le_appendDigits (n : Nat) (ds : List Nat) : n ≤ b.appendDigits n ds := by
  induction ds generalizing n with
  | nil => exact Nat.le_refl n
  | cons d ds ih =>
    calc n ≤ n * b.radix := Nat.le_mul_of_pos_right n b.radix_pos
      _ ≤ n * b.radix + d := Nat.le_add_right _ _
      _ ≤ b.appendDigits n (d :: ds) := ih _

theorem appendDigits_ofDigits (ds ds' : List Nat) :
    b.appendDigits (b.ofDigits ds) ds' = b.ofDigits (ds ++ ds') := List.foldl_append.symm

theorem ofDigits_replicate_zero (count : Nat) (ds : List Nat) :
    b.ofDigits (List.replicate count 0 ++ ds) = b.ofDigits ds := by
  induction count with
  | zero => rfl
  | succ count ih =>
    rw [← ih, List.replicate_succ, List.cons_append]
    simp [ofDigits]

end Base

namespace Entry

variable {e e' : Entry}

/-! Keys. -/

inductive Stroke where
  | digit (d : Nat)
  | point
  | startExponent
  | backspace
  | changeSign
  | clear
deriving DecidableEq, Repr

/-- What a key makes of the number; a digit without room leaves it. -/
def press (e : Entry) : Stroke → Entry
  | .digit d => e.extend d
  | .point => e.point
  | .startExponent => e.startExponent
  | .backspace => e.backspace
  | .changeSign => e.changeSign
  | .clear => e.clear

def run (e : Entry) (strokes : List Stroke) : Entry := strokes.foldl press e

/-- What a key makes of the number if it is accepted. A point is so only once, and neither point nor
exponent are in an integer or in an exponent. -/
def press? (e : Entry) : Stroke → Option Entry
  | .digit d => e.digit? d
  | .point => if e.integral ∨ e.pointed ∨ e.inExponent then none else some e.point
  | .startExponent => if e.integral ∨ e.inExponent then none else some e.startExponent
  | .backspace => some e.backspace
  | .changeSign => some e.changeSign
  | .clear => some e.clear

theorem clear_press (e : Entry) (k : Stroke) : (e.press k).clear = e.clear := by
  cases k with
  | digit d => exact e.clear_extend d
  | point => exact e.clear_point
  | startExponent => exact e.clear_startExponent
  | backspace => exact e.clear_backspace
  | changeSign => exact e.clear_changeSign
  | clear => rfl

theorem clear_run (e : Entry) (strokes : List Stroke) : (e.run strokes).clear = e.clear := by
  induction strokes generalizing e with
  | nil => rfl
  | cons k strokes ih => exact (ih (e.press k)).trans (e.clear_press k)

def Stroke.ofChar? (b : Base) (c : Char) : Option Stroke :=
  if c = '-' then some .changeSign
  else if c = '.' then some .point
  else if c = 'e' then some .startExponent
  else (b.digitOf? c).map .digit

def type? (e : Entry) (c : Char) : Option Entry := (Stroke.ofChar? e.base c).bind e.press?

theorem type?_digitChar {d : Nat} (hd : d < e.base.radix) :
    e.type? (e.base.digitChar d) = e.digit? d := by
  obtain ⟨hsign, hpoint, hexponent, -⟩ := Base.digitChar_plain hd
  rw [type?, Stroke.ofChar?, if_neg hsign, if_neg hpoint, if_neg hexponent,
    Base.digitOf?_digitChar _ d hd]
  rfl

/-! What all typing preserves. -/

/-- Is the number one that keys can have led to? -/
structure Consistent (e : Entry) : Prop where
  significand_lt : e.significand < limit
  exponent_lt : e.exponent < limit
  places : ¬ e.pointed → e.places = 0
  exponent : ¬ e.inExponent → e.exponent = 0 ∧ e.exponentNegative = false
  integral : e.integral → ¬ e.pointed ∧ ¬ e.inExponent

theorem consistent_clear (e : Entry) : e.clear.Consistent where
  significand_lt := (by decide : 0 < limit)
  exponent_lt := (by decide : 0 < limit)
  places _ := rfl
  exponent _ := ⟨rfl, rfl⟩
  integral _ := ⟨Bool.false_ne_true, Bool.false_ne_true⟩

theorem lt_limit_of_appendDigit? {b : Base} {n d m : Nat} (h : appendDigit? b n d = some m) :
    m < limit := by
  simp only [appendDigit?] at h
  split at h
  · rename_i hm
    exact Option.some.inj h ▸ hm
  · cases h

theorem Consistent.digit? (h : e.Consistent) {d : Nat} (hd : e.digit? d = some e') :
    e'.Consistent := by
  simp only [Entry.digit?] at hd
  split at hd
  · split at hd
    · rename_i hin
      obtain ⟨n, hn, rfl⟩ := Option.map_eq_some_iff.1 hd
      exact { h with
        exponent_lt := lt_limit_of_appendDigit? hn
        exponent := fun hout => absurd hin hout }
    · obtain ⟨n, hn, rfl⟩ := Option.map_eq_some_iff.1 hd
      exact { h with
        significand_lt := lt_limit_of_appendDigit? hn
        places := fun hp => (if_neg hp).trans (h.places hp) }
  · cases hd

theorem Consistent.point (h : e.Consistent) : e.point.Consistent := by
  rw [Entry.point]
  split
  · exact h
  · rename_i hn
    rw [not_or, not_or] at hn
    exact { h with
      places := fun hp => absurd rfl hp
      integral := fun hi => absurd hi hn.1 }

theorem Consistent.startExponent (h : e.Consistent) : e.startExponent.Consistent := by
  rw [Entry.startExponent]
  split
  · exact h
  · rename_i hn
    exact { h with
      exponent := fun hout => absurd rfl hout
      integral := fun hi => absurd hi hn }

theorem Consistent.backspace (h : e.Consistent) : e.backspace.Consistent := by
  simp only [Entry.backspace]
  split_ifs with hin hzero hpoint
  · exact { h with
      exponent := fun _ => ⟨hzero, rfl⟩
      integral := fun hi => ⟨(h.integral hi).1, Bool.false_ne_true⟩ }
  · exact { h with
      exponent_lt := (Nat.div_le_self _ _).trans_lt h.exponent_lt
      exponent := fun hout => absurd hin hout }
  · exact { h with
      places := fun _ => hpoint.2
      integral := fun hi => ⟨Bool.false_ne_true, (h.integral hi).2⟩ }
  · exact { h with
      significand_lt := (Nat.div_le_self _ _).trans_lt h.significand_lt
      places := fun hp => congrArg (· - 1) (h.places hp) }

theorem Consistent.changeSign (h : e.Consistent) : e.changeSign.Consistent := by
  rw [Entry.changeSign]
  split
  · rename_i hin
    exact { h with exponent := fun hout => absurd hin hout }
  · exact { h with }

theorem Consistent.press (h : e.Consistent) (k : Stroke) : (e.press k).Consistent := by
  cases k with
  | digit d =>
    rw [Entry.press, extend]
    cases hd : e.digit? d with
    | none => exact h
    | some e' => exact h.digit? hd
  | point => exact h.point
  | startExponent => exact h.startExponent
  | backspace => exact h.backspace
  | changeSign => exact h.changeSign
  | clear => exact e.consistent_clear

theorem Consistent.run (h : e.Consistent) (strokes : List Stroke) : (e.run strokes).Consistent := by
  induction strokes generalizing e with
  | nil => exact h
  | cons k strokes ih => exact ih (h.press k)

/-! Runs of digits. -/

def part (e : Entry) : Nat := if e.inExponent then e.exponent else e.significand

def withDigits (e : Entry) (ds : List Nat) : Entry :=
  if e.inExponent then { e with exponent := e.base.appendDigits e.exponent ds }
  else { e with
    significand := e.base.appendDigits e.significand ds
    places := if e.pointed then e.places + ds.length else e.places }

theorem digit?_eq_withDigits {d : Nat} (hd : d < e.base.radix)
    (hroom : e.base.appendDigits e.part [d] < limit) : e.digit? d = some (e.withDigits [d]) := by
  simp only [part] at hroom
  simp only [digit?, withDigits, if_pos hd]
  split
  · rename_i hin
    rw [if_pos hin] at hroom
    rw [show appendDigit? e.base e.exponent d = some _ from if_pos hroom]
    rfl
  · rename_i hout
    rw [if_neg hout] at hroom
    rw [show appendDigit? e.base e.significand d = some _ from if_pos hroom]
    rfl

theorem withDigits_nil (e : Entry) : e.withDigits [] = e := by
  rw [withDigits]
  split
  · rfl
  · rw [List.length_nil, Nat.add_zero, ite_self]
    rfl

theorem withDigits_cons (e : Entry) (d : Nat) (ds : List Nat) :
    (e.withDigits [d]).withDigits ds = e.withDigits (d :: ds) ∧
      (e.withDigits [d]).base = e.base ∧
      (e.withDigits [d]).part = e.base.appendDigits e.part [d] := by
  obtain ⟨base, integral, significand, exponent, places, pointed, negative, inExponent, sign⟩ := e
  cases inExponent with
  | true => exact ⟨rfl, rfl, rfl⟩
  | false =>
    cases pointed with
    | false => exact ⟨rfl, rfl, rfl⟩
    | true =>
      refine ⟨?_, rfl, rfl⟩
      have hplaces : places + 1 + ds.length = places + (d :: ds).length := by
        rw [List.length_cons, Nat.add_assoc, Nat.add_comm 1]
      exact congrArg (Entry.mk base integral _ exponent · true negative false sign) hplaces

/-- Digits are accepted as long as there is room for the number that they make in the end. -/
theorem foldlM_type?_digits {ds : List Nat} (hds : ∀ d ∈ ds, d < e.base.radix)
    (hroom : e.base.appendDigits e.part ds < limit) :
    (ds.map e.base.digitChar).foldlM type? e = some (e.withDigits ds) := by
  -- What the first digits make is no more than what all make, so there is room for each.
  induction ds generalizing e with
  | nil => exact congrArg some e.withDigits_nil.symm
  | cons d ds ih =>
    obtain ⟨hcons, hbase, hpart⟩ := e.withDigits_cons d ds
    have hd := hds d List.mem_cons_self
    have hfirst : e.base.appendDigits e.part [d] < limit :=
      (e.base.le_appendDigits _ ds).trans_lt hroom
    have hrest := ih (e := e.withDigits [d])
      (fun d' hd' => hbase ▸ hds d' (List.mem_cons_of_mem _ hd')) (by rwa [hbase, hpart])
    rw [List.map_cons, List.foldlM_cons, type?_digitChar hd, digit?_eq_withDigits hd hfirst]
    rw [hbase, hcons] at hrest
    exact hrest

/-! The text of the number. -/

/-- The digits of the text, from the first one before the point on. -/
def shownDigits (e : Entry) : List Nat :=
  let ds := e.base.digits e.significand
  if e.pointed then List.replicate (e.places + 1 - ds.length) 0 ++ ds else ds

theorem digits_eq (e : Entry) : e.digits = e.shownDigits.map e.base.digitChar := by
  simp only [digits, shownDigits]
  split
  · rw [padZeros, List.map_append, List.map_replicate, Base.digitChar_zero, Base.numeral,
      List.length_map]
  · rfl

theorem ofDigits_shownDigits (e : Entry) : e.base.ofDigits e.shownDigits = e.significand := by
  simp only [shownDigits]
  split
  · rw [Base.ofDigits_replicate_zero, Base.ofDigits_digits]
  · exact e.base.ofDigits_digits _

theorem shownDigits_lt (e : Entry) : ∀ d ∈ e.shownDigits, d < e.base.radix := by
  have hdigits := e.base.digits_lt e.significand
  simp only [shownDigits]
  split
  · intro d hd
    rcases List.mem_append.1 hd with hd | hd
    · rw [List.eq_of_mem_replicate hd]
      exact e.base.radix_pos
    · exact hdigits d hd
  · exact hdigits

theorem Consistent.places_le (h : e.Consistent) : e.places ≤ e.shownDigits.length := by
  simp only [shownDigits]
  split
  · rw [List.length_append, List.length_replicate]
    omega
  · rename_i hp
    rw [h.places hp]
    exact Nat.zero_le _

def whole (e : Entry) : List Nat := e.shownDigits.take (e.shownDigits.length - e.places)

def fraction (e : Entry) : List Nat := e.shownDigits.drop (e.shownDigits.length - e.places)

theorem whole_append_fraction (e : Entry) : e.whole ++ e.fraction = e.shownDigits :=
  List.take_append_drop _ _

theorem Consistent.length_fraction (h : e.Consistent) : e.fraction.length = e.places := by
  have hle := h.places_le
  rw [fraction, List.length_drop]
  omega

theorem Consistent.fraction_eq_nil (h : e.Consistent) (hp : ¬ e.pointed) : e.fraction = [] :=
  List.eq_nil_of_length_eq_zero (h.length_fraction.trans (h.places hp))

def signChars (negative : Bool) : List Char := if negative then ['-'] else []

def fractionChars (e : Entry) : List Char :=
  if e.pointed then '.' :: e.fraction.map e.base.digitChar else []

def exponentChars (e : Entry) : List Char :=
  if e.inExponent then
    'e' :: (signChars e.exponentNegative ++ (e.base.digits e.exponent).map e.base.digitChar)
  else []

theorem chars_eq (e : Entry) :
    e.chars false = signChars e.negative ++ e.whole.map e.base.digitChar ++ e.fractionChars ++
      e.exponentChars := by
  simp only [chars, digits_eq, List.length_map, ← List.map_take, ← List.map_drop]
  rfl

/-! The text typed again, piece by piece. -/

def typedWhole (e : Entry) : Entry :=
  { e.clear with negative := e.negative, significand := e.base.ofDigits e.whole }

def typedSignificand (e : Entry) : Entry :=
  { e with exponent := 0, inExponent := false, exponentNegative := false }

theorem Consistent.foldlM_whole (h : e.Consistent) :
    (signChars e.negative ++ e.whole.map e.base.digitChar).foldlM type? e.clear =
      some e.typedWhole := by
  have hsign : (signChars e.negative).foldlM type? e.clear =
      some { e.clear with negative := e.negative } := by
    cases e.negative <;> rfl
  have hdigits : ∀ d ∈ e.whole, d < e.base.radix := fun d hd =>
    e.shownDigits_lt d (List.mem_of_mem_take hd)
  have hroom : e.base.ofDigits e.whole < limit := by
    refine Nat.lt_of_le_of_lt ?_ h.significand_lt
    rw [← e.ofDigits_shownDigits, ← e.whole_append_fraction, ← Base.appendDigits_ofDigits]
    exact e.base.le_appendDigits _ _
  rw [List.foldlM_append, hsign]
  exact foldlM_type?_digits (e := { e.clear with negative := e.negative }) hdigits hroom

theorem Consistent.foldlM_fractionChars (h : e.Consistent) :
    e.fractionChars.foldlM type? e.typedWhole = some e.typedSignificand := by
  have hvalue : e.base.appendDigits (e.base.ofDigits e.whole) e.fraction = e.significand := by
    rw [Base.appendDigits_ofDigits, whole_append_fraction, ofDigits_shownDigits]
  rw [fractionChars]
  split
  · rename_i hp
    have hintegral : ¬ e.integral := fun hi => (h.integral hi).1 hp
    let pointed : Entry := { e.typedWhole with pointed := true }
    have hpoint : e.typedWhole.type? '.' = some pointed := by
      have hfree : ¬ (e.typedWhole.integral ∨ e.typedWhole.pointed ∨ e.typedWhole.inExponent) := by
        simpa [typedWhole, clear] using hintegral
      show e.typedWhole.press? .point = _
      rw [press?, if_neg hfree, Entry.point, if_neg hfree]
    have hlt : ∀ d ∈ e.fraction, d < e.base.radix := fun d hd =>
      e.shownDigits_lt d (List.mem_of_mem_drop hd)
    have hdigits := foldlM_type?_digits (e := pointed) hlt (hvalue.trans_lt h.significand_lt)
    have hend : pointed.withDigits e.fraction = e.typedSignificand := by
      show Entry.mk e.base e.integral (e.base.appendDigits (e.base.ofDigits e.whole) e.fraction) 0
        (0 + e.fraction.length) true e.negative false false = _
      rw [hvalue, h.length_fraction, Nat.zero_add, typedSignificand, hp]
    rw [List.foldlM_cons, hpoint]
    exact hdigits.trans (congrArg some hend)
  · rename_i hp
    -- Without a point all digits belong to the whole.
    rw [h.fraction_eq_nil hp] at hvalue
    have hvalue : e.base.ofDigits e.whole = e.significand := hvalue
    have hnot : e.pointed = false := by simpa using hp
    show some e.typedWhole = some e.typedSignificand
    rw [typedWhole, typedSignificand, hvalue, h.places hp, hnot]
    rfl

theorem Consistent.foldlM_exponentChars (h : e.Consistent) :
    e.exponentChars.foldlM type? e.typedSignificand = some e := by
  rw [exponentChars]
  split
  · rename_i hin
    have hintegral : ¬ e.integral := fun hi => (h.integral hi).2 hin
    let started : Entry := { e.typedSignificand with inExponent := true }
    have hstart : e.typedSignificand.type? 'e' = some started := by
      have hfree : ¬ (e.typedSignificand.integral ∨ e.typedSignificand.inExponent) := by
        simpa [typedSignificand] using hintegral
      show e.typedSignificand.press? .startExponent = _
      rw [press?, if_neg hfree, Entry.startExponent, if_neg fun hi => hfree (.inl hi)]
    have hsign : (signChars e.exponentNegative).foldlM type? started =
        some { started with exponentNegative := e.exponentNegative } := by
      cases e.exponentNegative <;> rfl
    have hvalue : e.base.ofDigits (e.base.digits e.exponent) = e.exponent :=
      e.base.ofDigits_digits _
    have hdigits := foldlM_type?_digits
      (e := { started with exponentNegative := e.exponentNegative }) (e.base.digits_lt e.exponent)
      (hvalue.trans_lt h.exponent_lt)
    have hend : ({ started with exponentNegative := e.exponentNegative } : Entry).withDigits
        (e.base.digits e.exponent) = e := by
      show { e with exponent := e.base.ofDigits (e.base.digits e.exponent), inExponent := true } = e
      rw [hvalue, ← hin]
    rw [List.foldlM_cons, hstart]
    show (_ ++ _ : List Char).foldlM type? started = _
    rw [List.foldlM_append, hsign]
    exact hdigits.trans (congrArg some hend)
  · rename_i hout
    obtain ⟨hexponent, hsign⟩ := h.exponent hout
    have hnot : e.inExponent = false := by simpa using hout
    have hsame : e.typedSignificand = e := by
      cases e
      cases hexponent
      cases hsign
      cases hnot
      rfl
    exact congrArg some hsame

theorem Consistent.foldlM_chars (h : e.Consistent) :
    (e.chars false).foldlM type? e.clear = some e := by
  rw [chars_eq, List.foldlM_append, List.foldlM_append, h.foldlM_whole]
  show (e.fractionChars.foldlM type? e.typedWhole).bind _ = _
  rw [h.foldlM_fractionChars]
  exact h.foldlM_exponentChars

/-- Whatever keys have led to a number: its text has a digit for each of its places, each of the
size of one byte, and the characters of the text, pressed as keys into a fresh entry, are accepted
one and all and lead to the number again, with all that the entry knows of it. -/
theorem retype_chars (b : Base) (integral : Bool) (strokes : List Stroke) :
    let fresh : Entry := { base := b, integral }
    let e := fresh.run strokes
    e.places ≤ e.digits.length ∧ (∀ c ∈ e.digits, c.utf8Size = 1) ∧
      (e.chars false).foldlM type? fresh = some e := by
  intro fresh e
  have hclear : e.clear = fresh := fresh.clear_run strokes
  have he : e.Consistent := (consistent_clear fresh).run strokes
  rw [digits_eq, List.length_map]
  refine ⟨he.places_le, fun c hc => ?_, hclear ▸ he.foldlM_chars⟩
  obtain ⟨d, hd, rfl⟩ := List.mem_map.1 hc
  exact (Base.digitChar_plain (e.shownDigits_lt d hd)).2.2.2

/-- A small letter begins an exponent, also where capital ones are digits. -/
example :
    let e := ({ base := .hex } : Entry).run [.changeSign, .point, .digit 0, .digit 14,
      .startExponent, .digit 1, .changeSign, .digit 4]
    e.chars false = "-0.0Ee-14".toList := by decide +kernel

end Entry
end DeskCalculator
