import DeskCalculator.Proofs.Replay
/-!
Keys of a number that are taken back. Main statements: `Entry.backspace_press` says that the
backspace key undoes a digit, a point or the key for the exponent wherever one of them has changed
the number, and `Entry.Consistent.run_backspaces` that it undoes any number of them one by one.
-/
namespace DeskCalculator
namespace Entry

variable {e e' : Entry} {k : Stroke}

def Stroke.lengthens : Stroke → Bool
  | .digit _ | .point | .startExponent => true
  | .backspace | .changeSign | .clear => false

/-- The last digit of a number is what a division by the base takes away. -/
theorem div_of_appendDigit? {b : Base} {n d m : Nat} (hd : d < b.radix)
    (h : appendDigit? b n d = some m) : m / b.radix = n := by
  simp only [appendDigit?] at h
  split at h
  · obtain rfl := Option.some.inj h
    rw [Nat.mul_comm, Nat.mul_add_div b.radix_pos, Nat.div_eq_of_lt hd, Nat.add_zero]
  · cases h

/-- A digit of the exponent is undone unless it is a zero at its front, which changes nothing. -/
theorem backspace_exponent (hin : e.inExponent) {n : Nat} (hdiv : n / e.base.radix = e.exponent)
    (hne : { e with exponent := n } ≠ e) : ({ e with exponent := n } : Entry).backspace = e := by
  have hpos : n ≠ 0 := by
    rintro rfl
    rw [Nat.zero_div] at hdiv
    exact hne (by rw [hdiv])
  simp only [backspace, if_pos hin, if_neg hpos, hdiv]

/-- A digit of the significand is undone together with the place that it takes after a point. -/
theorem Consistent.backspace_significand (h : e.Consistent) (hout : ¬ e.inExponent) {n : Nat}
    (hdiv : n / e.base.radix = e.significand) :
    ({ e with
      significand := n, places := if e.pointed then e.places + 1 else e.places } : Entry).backspace
        = e := by
  have hplaces := h.places
  obtain ⟨base, integral, significand, exponent, places, pointed, negative, inExponent, sign⟩ := e
  obtain rfl : inExponent = false := by simpa using hout
  obtain rfl : n / base.radix = significand := hdiv
  cases pointed with
  | true => rfl
  | false =>
    obtain rfl : places = 0 := hplaces Bool.false_ne_true
    rfl

theorem Consistent.backspace_of_digit? (h : e.Consistent) {d : Nat} (hd : e.digit? d = some e')
    (hne : e' ≠ e) : e'.backspace = e := by
  simp only [Entry.digit?] at hd
  split at hd
  · rename_i hlt
    split at hd
    · rename_i hin
      obtain ⟨n, hn, rfl⟩ := Option.map_eq_some_iff.1 hd
      exact backspace_exponent hin (div_of_appendDigit? hlt hn) hne
    · rename_i hout
      obtain ⟨n, hn, rfl⟩ := Option.map_eq_some_iff.1 hd
      exact h.backspace_significand hout (div_of_appendDigit? hlt hn)
  · cases hd

/-- A point that is taken has no digit after it yet. -/
theorem Consistent.backspace_point (h : e.Consistent) (hne : e.point ≠ e) :
    e.point.backspace = e := by
  have hplaces := h.places
  simp only [Entry.point] at hne ⊢
  split_ifs at hne ⊢ with hn
  · exact absurd rfl hne
  · obtain ⟨base, integral, significand, exponent, places, pointed, negative, inExponent, sign⟩ := e
    obtain ⟨-, rfl, rfl⟩ : integral = false ∧ pointed = false ∧ inExponent = false := by
      simpa using hn
    obtain rfl : places = 0 := hplaces Bool.false_ne_true
    rfl

/-- An exponent that has just been begun is zero and has no sign. -/
theorem Consistent.backspace_startExponent (h : e.Consistent) (hne : e.startExponent ≠ e) :
    e.startExponent.backspace = e := by
  have hexponent := h.exponent
  simp only [Entry.startExponent] at hne ⊢
  split_ifs at hne ⊢
  · exact absurd rfl hne
  · obtain ⟨base, integral, significand, exponent, places, pointed, negative, inExponent, sign⟩ := e
    cases inExponent with
    | true => exact absurd rfl hne
    | false =>
      obtain ⟨rfl, rfl⟩ : exponent = 0 ∧ sign = false := hexponent Bool.false_ne_true
      rfl

theorem Consistent.backspace_of_press (h : e.Consistent) (hk : k.lengthens) (hne : e.press k ≠ e) :
    (e.press k).backspace = e := by
  cases k with
  | digit d =>
    simp only [Entry.press, extend] at hne ⊢
    cases hd : e.digit? d with
    | none => rw [hd] at hne; exact absurd rfl hne
    | some e' => rw [hd] at hne; exact h.backspace_of_digit? hd hne
  | point => exact h.backspace_point hne
  | startExponent => exact h.backspace_startExponent hne
  | backspace | changeSign | clear => cases hk

/-- Does each of some keys change the number and make its text longer? -/
def Lengthened (e : Entry) : List Stroke → Prop
  | [] => True
  | k :: ks => k.lengthens ∧ e.press k ≠ e ∧ (e.press k).Lengthened ks

theorem Consistent.run_backspaces (h : e.Consistent) {ks : List Stroke} (hks : e.Lengthened ks) :
    e.run (ks ++ List.replicate ks.length .backspace) = e := by
  induction ks generalizing e with
  | nil => rfl
  | cons k ks ih =>
    obtain ⟨hk, hne, hrest⟩ := hks
    have hback : (e.press k).run (ks ++ List.replicate ks.length .backspace) = e.press k :=
      ih (h.press k) hrest
    rw [List.length_cons, List.replicate_succ', ← List.append_assoc, Entry.run, List.foldl_append]
    show Entry.backspace ((e.press k).run (ks ++ List.replicate ks.length .backspace)) = e
    rw [hback]
    exact h.backspace_of_press hk hne

/-- Whatever keys have led to a number, in every base and of either kind: if a digit, a point or the
key for the exponent changes it, the backspace key leads back to it, with all that the entry knows
of it. -/
theorem backspace_press (b : Base) (integral : Bool) (strokes : List Stroke) {k : Stroke}
    (hk : k.lengthens) :
    let e := ({ base := b, integral } : Entry).run strokes
    e.press k ≠ e → (e.press k).backspace = e := by
  intro e hne
  have he : e.Consistent := (consistent_clear { base := b, integral }).run strokes
  exact he.backspace_of_press hk hne

/-- The digit of a negative exponent leaves its sign behind. -/
theorem backspace_press_exponent :
    let e := ({ base := .hex } : Entry).run [.digit 10, .point, .digit 0, .startExponent, .changeSign]
    let longer := e.press (.digit 12)
    Stroke.lengthens (.digit 12) ∧ longer ≠ e ∧ longer.chars false = "A.0e-C".toList ∧
      longer.backspace = e := by
  intro e longer
  have hne : longer ≠ e := by decide
  exact ⟨rfl, hne, by decide +kernel, backspace_press .hex false _ rfl hne⟩

end Entry
end DeskCalculator
