import DeskCalculator.Proofs.Retyping
/-!
One integer in two bases. Main statement: `Display.integer_eq_integer_iff` says that its texts are
the same only if the bases are, or if it is a single digit of both.
-/
namespace DeskCalculator

namespace Base

variable {b b' : Base} {d n : Nat}

theorem radix_injective (h : b.radix = b'.radix) : b = b' := by
  cases b <;> cases b' <;> first | rfl | cases h

theorem digits_of_lt (h : n < b.radix) : b.digits n = [n] := by
  rw [digits, if_pos h]

theorem digits_of_le (h : b.radix ≤ n) :
    b.digits n = b.digits (n / b.radix) ++ [n % b.radix] := by
  rw [digits, if_neg (Nat.not_lt.2 h)]

theorem digits_append_ne_singleton (m : Nat) : b.digits m ++ [d] ≠ [n] := by
  intro h
  have hlength := congrArg List.length h
  have hpos := List.length_pos_iff.2 (b.digits_ne_nil m)
  simp only [List.length_append, List.length_singleton] at hlength
  omega

/-- The same digits make a larger number in a larger base, unless there is but one of them. -/
theorem lt_of_digits_eq (hlt : b.radix < b'.radix) {m : Nat} (h : b.digits m = b'.digits n) :
    m = n ∧ m < b.radix ∨ m < n := by
  fun_induction digits b m generalizing n with
  | case1 m hm =>
    by_cases hn : n < b'.radix
    · rw [digits_of_lt hn, List.singleton_inj] at h
      exact .inl ⟨h, hm⟩
    · rw [digits_of_le (Nat.not_lt.1 hn)] at h
      exact absurd h.symm (digits_append_ne_singleton _)
  | case2 m hm ih =>
    by_cases hn : n < b'.radix
    · rw [digits_of_lt hn] at h
      exact absurd h (digits_append_ne_singleton _)
    · rw [digits_of_le (Nat.not_lt.1 hn)] at h
      obtain ⟨hfront, hlast⟩ := List.append_inj' h rfl
      have hle : m / b.radix ≤ n / b'.radix := by
        rcases ih hfront with ⟨heq, -⟩ | hless
        · exact heq.le
        · exact hless.le
      have hpos : 0 < m / b.radix := Nat.div_pos (Nat.not_lt.1 hm) b.radix_pos
      right
      calc
        m = b.radix * (m / b.radix) + m % b.radix := (Nat.div_add_mod _ _).symm
        _ < b'.radix * (m / b.radix) + m % b.radix :=
          Nat.add_lt_add_right (Nat.mul_lt_mul_of_pos_right hlt hpos) _
        _ ≤ b'.radix * (n / b'.radix) + n % b'.radix :=
          Nat.add_le_add (Nat.mul_le_mul_left _ hle) (List.singleton_inj.1 hlast).le
        _ = n := Nat.div_add_mod _ _

theorem lt_radix_of_digits_eq (hne : b ≠ b') (h : b.digits n = b'.digits n) :
    n < b.radix ∧ n < b'.radix := by
  rcases Nat.lt_or_gt_of_ne fun hr => hne (radix_injective hr) with hlt | hlt
  · rcases lt_of_digits_eq hlt h with ⟨-, hn⟩ | hless
    · exact ⟨hn, hn.trans hlt⟩
    · exact absurd hless (Nat.lt_irrefl n)
  · rcases lt_of_digits_eq hlt h.symm with ⟨-, hn⟩ | hless
    · exact ⟨hn.trans hlt, hn⟩
    · exact absurd hless (Nat.lt_irrefl n)

/-! Characters. -/

theorem alphanumericValue?_digitChar (hd : d < b.radix) :
    alphanumericValue? (b.digitChar d) = some d :=
  (Option.filter_eq_some_iff.1 (b.digitOf?_digitChar d hd)).1

theorem digitChar_congr (hd : d < b.radix) (hd' : d < b'.radix) :
    b.digitChar d = b'.digitChar d := by
  simp only [digitChar, if_pos hd, if_pos hd']

theorem digits_eq_of_numeral_eq {m : Nat} (h : b.numeral m = b'.numeral n) :
    b.digits m = b'.digits n := by
  have values (b : Base) (n : Nat) :
      (b.numeral n).map alphanumericValue? = (b.digits n).map some := by
    rw [numeral, List.map_map]
    exact List.map_congr_left fun d hd => alphanumericValue?_digitChar (b.digits_lt n d hd)
  have hvalues := congrArg (List.map alphanumericValue?) h
  rw [values, values] at hvalues
  exact List.map_injective_iff.2 (Option.some_injective Nat) hvalues

theorem mem_numeral {c : Char} (hc : c ∈ b.numeral n) : ∃ d, d < b.radix ∧ c = b.digitChar d := by
  obtain ⟨d, hd, rfl⟩ := List.mem_map.1 hc
  exact ⟨d, b.digits_lt n d hd, rfl⟩

theorem digitChar_ne_separator (b' : Base) (hd : d < b.radix) : b.digitChar d ≠ b'.separator :=
  forall_digit hd (by intro b; cases b' <;> cases b <;> decide)

theorem ungroup_numeral (b b' : Base) (n : Nat) : b'.ungroup (b.numeral n) = b.numeral n := by
  refine List.filter_eq_self.2 fun c hc => ?_
  obtain ⟨d, hd, rfl⟩ := mem_numeral hc
  exact decide_eq_true (digitChar_ne_separator b' hd)

/-- Whatever separators they have, the texts hold the same digits. -/
theorem numeral_eq_of_groupIf_eq {separators : Bool} {m : Nat}
    (h : b.groupIf separators (b.numeral m) = b'.groupIf separators (b'.numeral n)) :
    b.numeral m = b'.numeral n := by
  calc
    b.numeral m = b'.ungroup (b.ungroup (b.groupIf separators (b.numeral m))) := by
      rw [ungroup_groupIf, ungroup_numeral, ungroup_numeral]
    _ = b'.ungroup (b.ungroup (b'.groupIf separators (b'.numeral n))) := by rw [h]
    _ = b.ungroup (b'.ungroup (b'.groupIf separators (b'.numeral n))) := List.filter_comm _ _ _
    _ = b'.numeral n := by rw [ungroup_groupIf, ungroup_numeral, ungroup_numeral]

end Base

namespace Display

variable {v : Int64} {b b' : Base} {n : Nat} {separators : Bool}

theorem unsigned_eq_unsigned_iff (hne : b ≠ b') :
    unsigned n b separators = unsigned n b' separators ↔ n < b.radix ∧ n < b'.radix := by
  constructor
  · intro h
    have hnumeral := Base.numeral_eq_of_groupIf_eq h
    exact Base.lt_radix_of_digits_eq hne (Base.digits_eq_of_numeral_eq hnumeral)
  · rintro ⟨hn, hn'⟩
    simp only [unsigned, Base.numeral, Base.digits_of_lt hn, Base.digits_of_lt hn', List.map_cons,
      List.map_nil, Base.digitChar_congr hn hn']
    cases separators <;> rfl

theorem minus_notMem_unsigned : '-' ∉ unsigned n b separators := by
  intro h
  have hdigits : '-' ∈ b.ungroup (unsigned n b separators) :=
    List.mem_filter.2 ⟨h, by cases b <;> rfl⟩
  rw [unsigned, Base.ungroup_groupIf, Base.ungroup_numeral] at hdigits
  obtain ⟨d, hd, hminus⟩ := Base.mem_numeral hdigits
  revert hminus
  exact Base.forall_digit hd (by intro b; cases b <;> decide)

theorem pattern_lt_radix_iff :
    v.toUInt64.toNat < b.radix ↔ 0 ≤ v.toInt ∧ v.toInt < b.radix := by
  have hpattern : v.toInt =
      if 2 * v.toUInt64.toNat < 2 ^ 64 then (v.toUInt64.toNat : Int)
      else v.toUInt64.toNat - (2 ^ 64 : Nat) := BitVec.toInt_eq_toNat_cond v.toBitVec
  have hlimit : v.toUInt64.toNat < 2 ^ 64 := v.toUInt64.toNat_lt
  have hradix := b.radix_le_sixteen
  split at hpattern <;> omega

theorem integer_ne_of_hasSign (h : hasSign v b) (h' : ¬ hasSign v b') :
    integer v b separators ≠ integer v b' separators := by
  intro heq
  simp only [integer_eq, if_pos h, if_neg h', List.nil_append, List.singleton_append] at heq
  have hminus : '-' ∈ unsigned (magnitude v b') b' separators := by
    rw [← heq]
    exact List.mem_cons_self
  exact minus_notMem_unsigned hminus

/-- An integer is written alike in two bases only as a single digit of both. -/
theorem integer_eq_integer_iff : integer v b separators = integer v b' separators ↔
    b = b' ∨ 0 ≤ v.toInt ∧ v.toInt < b.radix ∧ v.toInt < b'.radix := by
  by_cases hne : b = b'
  · simp [hne]
  have signed (b : Base) : hasSign v b ↔ b = .dec ∧ v.toInt < 0 := by
    simp [hasSign, Int64.lt_iff_toInt_lt]
  by_cases h : hasSign v b
  · obtain ⟨hdec, hneg⟩ := (signed b).1 h
    have h' : ¬ hasSign v b' := fun h' => hne (hdec.trans ((signed b').1 h').1.symm)
    exact iff_of_false (integer_ne_of_hasSign h h') (by simp only [hne, false_or]; omega)
  · by_cases h' : hasSign v b'
    · obtain ⟨-, hneg⟩ := (signed b').1 h'
      exact iff_of_false (integer_ne_of_hasSign h' h).symm (by simp only [hne, false_or]; omega)
    · simp only [hne, false_or, integer_eq, magnitude, if_neg h, if_neg h', List.nil_append]
      rw [unsigned_eq_unsigned_iff hne, pattern_lt_radix_iff, pattern_lt_radix_iff]
      omega

end Display
end DeskCalculator
