import DeskCalculator.Proofs.Literal
/-!
The text of a rounded double, finished after it has been written out. Main statement:
`Display.finite_eq` says that to cut zeros off the text, to drop the sign of a zero and to group the
digits before the point gives what `Display.finite` writes from the parts of the number.
-/
namespace DeskCalculator

variable {c : Char} {cs ds : List Char}

theorem dropTrailing_append (c : Char) (cs ds : List Char) : dropTrailing c (cs ++ ds) =
    if dropTrailing c ds = [] then dropTrailing c cs else cs ++ dropTrailing c ds := by
  simp only [dropTrailing, List.reverse_append, List.dropWhile_append, List.isEmpty_iff,
    List.reverse_eq_nil_iff]
  split
  · rfl
  · rw [List.reverse_append, List.reverse_reverse]

theorem dropTrailing_eq_self (h : c ∉ cs) : dropTrailing c cs = cs :=
  List.rdropWhile_eq_self_iff.2 fun hne hlast =>
    h (beq_iff_eq.1 hlast ▸ List.getLast_mem hne)

namespace Display

/-- Cuts the zeros off the end of a fraction, and the point with the last of them. -/
def trimFraction (cs : List Char) : List Char :=
  if '.' ∈ cs then dropTrailing '.' (dropTrailing '0' cs) else cs

def trimScientific (cs : List Char) : List Char :=
  match cs.dropWhile (· != 'e') with
  | [] => cs
  | e :: exponent => trimFraction (cs.takeWhile (· != 'e')) ++ e :: exponent

def groupDecimal : List Char → List Char
  | '-' :: cs => '-' :: (Base.dec.group (cs.takeWhile (· != '.')) ++ cs.dropWhile (· != '.'))
  | cs => Base.dec.group (cs.takeWhile (· != '.')) ++ cs.dropWhile (· != '.')

end Display

namespace Positional

variable {p : Positional}

/-- What stands after the digits before the point. -/
def tail (p : Positional) : List Char := if p.fraction.isEmpty then [] else '.' :: p.fraction

theorem takeWhile_tail (p : Positional) : p.tail.takeWhile (· != '.') = [] := by
  rw [tail]
  split <;> rfl

namespace HasDigits

theorem notMem_whole (h : p.HasDigits) (hc : c.isDigit = false) : c ∉ p.whole :=
  fun hmem => absurd (h.whole c hmem) (by simp [hc])

theorem notMem_fraction (h : p.HasDigits) (hc : c.isDigit = false) : c ∉ p.fraction :=
  fun hmem => absurd (h.fraction c hmem) (by simp [hc])

theorem whole_eq_cons (h : p.HasDigits) : ∃ c cs, c ≠ '-' ∧ p.whole = c :: cs := by
  obtain ⟨c, cs, hwhole⟩ := List.exists_cons_of_ne_nil h.nonempty
  refine ⟨c, cs, ?_, hwhole⟩
  rintro rfl
  exact h.notMem_whole (by decide) (hwhole ▸ List.mem_cons_self)

theorem notMem_text (h : p.HasDigits) (hc : c.isDigit = false) (hsign : c ≠ '-')
    (hpoint : c ≠ '.') : c ∉ p.text := by
  have hwhole := h.notMem_whole hc
  have hfraction := h.notMem_fraction hc
  rw [text]
  cases p.negative <;> cases p.fraction.isEmpty <;> simp [hwhole, hfraction, hsign, hpoint]

/-- The zeros at the end of the text are those of the fraction, and the point is the last that goes
with them. -/
theorem trimFraction_text (h : p.HasDigits) : Display.trimFraction p.text = p.trimZeros.text := by
  obtain ⟨negative, whole, fraction⟩ := p
  let front := (if negative then ['-'] else []) ++ whole
  have hfront : '.' ∉ front := by
    have hwhole := h.notMem_whole (by decide : '.'.isDigit = false)
    cases negative <;> simpa [front] using hwhole
  have htrimmed : (Positional.trimZeros ⟨negative, whole, fraction⟩).text =
      front ++ tail ⟨negative, whole, dropTrailing '0' fraction⟩ := rfl
  rw [htrimmed]
  cases fraction with
  | nil =>
    have htext : (⟨negative, whole, []⟩ : Positional).text = front := List.append_nil _
    rw [htext, Display.trimFraction, if_neg hfront]
    exact (List.append_nil _).symm
  | cons d ds =>
    have htext : (⟨negative, whole, d :: ds⟩ : Positional).text = front ++ ['.'] ++ d :: ds := by
      simp [text, front]
    rw [htext, Display.trimFraction, if_pos (by simp), dropTrailing_append, tail]
    by_cases hzeros : dropTrailing '0' (d :: ds) = []
    · have hpoint : dropTrailing '0' (front ++ ['.']) = front ++ ['.'] :=
        List.rdropWhile_concat_neg _ _ _ (by decide)
      have hend : dropTrailing '.' (front ++ ['.']) = dropTrailing '.' front :=
        List.rdropWhile_concat_pos _ _ _ (by decide)
      rw [if_pos hzeros, hpoint, hend, dropTrailing_eq_self hfront, hzeros]
      exact (List.append_nil _).symm
    · have hplain : '.' ∉ dropTrailing '0' (d :: ds) := fun hmem =>
        h.notMem_fraction (by decide) ((List.rdropWhile_prefix (· == '0') (d :: ds)).mem hmem)
      have hkeep := dropTrailing_eq_self hplain
      rw [if_neg hzeros, dropTrailing_append, hkeep, if_neg hzeros]
      simp [hzeros]

theorem unsigned_text (h : p.HasDigits) :
    (if p.text = ['-', '0'] then ['0'] else p.text) = p.unsignZero.text := by
  obtain ⟨negative, whole, fraction⟩ := p
  obtain ⟨c, cs, hsign, rfl⟩ : ∃ c cs, c ≠ '-' ∧ whole = c :: cs := h.whole_eq_cons
  by_cases hzero : c :: cs = ['0'] ∧ fraction = []
  · obtain ⟨⟨rfl, rfl⟩, rfl⟩ := hzero
    cases negative <;> rfl
  · rw [Positional.unsignZero, if_neg hzero, if_neg]
    cases negative <;> cases fraction <;> simp_all [text]

theorem groupDecimal_text (h : p.HasDigits) :
    Display.groupDecimal p.text = (p.groupIf true).text := by
  obtain ⟨negative, whole, fraction⟩ := p
  have hrun : ∀ c ∈ whole, (c != '.') = true := fun c hc =>
    bne_iff_ne.2 fun hpoint => h.notMem_whole (by decide : '.'.isDigit = false) (hpoint ▸ hc)
  obtain ⟨htake, hdrop⟩ := span_append hrun (takeWhile_tail ⟨negative, whole, fraction⟩)
  have htext (ws : List Char) : text ⟨negative, ws, fraction⟩ =
      (if negative then ['-'] else []) ++ (ws ++ tail ⟨negative, whole, fraction⟩) :=
    List.append_assoc _ _ _
  obtain ⟨c, cs, hsign, rfl⟩ : ∃ c cs, c ≠ '-' ∧ whole = c :: cs := h.whole_eq_cons
  rw [groupIf, htext, htext]
  cases negative with
  | true =>
    simp only [if_true, List.singleton_append, Display.groupDecimal, htake, hdrop]
    rfl
  | false =>
    rw [if_neg (by simp), List.nil_append, List.nil_append, Display.groupDecimal, htake, hdrop]
    · rfl
    · rintro us hus
      exact hsign (List.cons.inj hus).1

end HasDigits
end Positional

namespace Scientific

theorem trimScientific_text {s : Scientific} (h : s.mantissa.HasDigits) :
    Display.trimScientific s.text = s.trimZeros.text := by
  have hletter : 'e' ∉ s.mantissa.text := h.notMem_text (by decide) (by decide) (by decide)
  have hrun : ∀ c ∈ s.mantissa.text, (c != 'e') = true := fun c hc =>
    bne_iff_ne.2 fun he => hletter (he ▸ hc)
  obtain ⟨htake, hdrop⟩ := span_append hrun
    (rfl : ('e' :: integerText s.exponent).takeWhile (· != 'e') = [])
  rw [text, Display.trimScientific, htake, hdrop]
  simp only [h.trimFraction_text]
  rfl

end Scientific

/-- A double is shown by editing the text of the rounded number. -/
theorem Display.finite_eq (log10 : Float → Float) (x : Float) (separators : Bool)
    (places : Option Nat) :
    finite log10 x separators places =
      let (num, den) := (Double.dyadic x).ratio
      let negative := Double.isNegative x
      if isPositional x.abs then
        let places := places.getD (significantPlaces log10 x.abs)
        let rounded := (Decimal.roundPlaces places num den).digits
        let trimmed := trimFraction (Positional.ofPlaces negative places rounded).text
        let unsigned := if trimmed = ['-', '0'] then ['0'] else trimmed
        if separators then groupDecimal unsigned else unsigned
      else
        let digits := places.getD (significantDigits - 1) + 1
        trimScientific
          (Scientific.ofDecimal negative (Decimal.roundSignificant digits num den)).text := by
  simp only [finite]
  split
  · have hdigits := Positional.hasDigits_ofPlaces (Double.isNegative x)
      (places.getD (significantPlaces log10 x.abs))
      (Decimal.roundPlaces (places.getD (significantPlaces log10 x.abs))
        (Double.dyadic x).ratio.1 (Double.dyadic x).ratio.2).digits
    rw [hdigits.trimFraction_text, hdigits.trimZeros.unsigned_text]
    cases separators with
    | true => rw [if_pos rfl, hdigits.trimZeros.unsignZero.groupDecimal_text]
    | false => rfl
  · exact (Scientific.trimScientific_text (Scientific.hasDigits_mantissa _ _)).symm

end DeskCalculator
