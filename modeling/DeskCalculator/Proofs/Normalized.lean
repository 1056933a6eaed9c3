import DeskCalculator.Proofs.Bits
import DeskCalculator.Proofs.Library
import DeskCalculator.Proofs.Pushing
/-!
Results that are zero or have a normal magnitude. Main statement:
`Machine.isNormalized_computed` says that operations push nothing else but integers and errors,
whatever their operands are and whatever the mathematical library answers.
-/
namespace DeskCalculator
namespace Double

open Float.Model (Format UnpackedFloat)
open Float.Model.UnpackedFloat

theorem isFinite_iff_not {x : Float} : x.isFinite ↔ x.isNaN = false ∧ x.isInf = false := by
  have hfinite : x.isFinite = x.toModel.unpack.isFinite := rfl
  have hnan : x.isNaN = x.toModel.unpack.isNaN := rfl
  have hinf : x.isInf = x.toModel.unpack.isInf := rfl
  rw [hfinite, hnan, hinf]
  cases x.toModel.unpack <;>
    simp [UnpackedFloat.isFinite, UnpackedFloat.isNaN, UnpackedFloat.isInf]

theorem compare_swap (u v : UnpackedFloat) : v.compare u = (u.compare v).map Ordering.swap := by
  have hthen (m n : Nat) (k l : Int) : (compare l k).then (compare n m) =
      ((compare k l).then (compare m n)).swap := by
    rw [Ordering.swap_then, Int.compare_swap, Nat.compare_swap]
  cases u with
  | notANumber => cases v <;> rfl
  | infinity s =>
    cases v with
    | infinity s' => cases s <;> cases s' <;> rfl
    | notANumber => cases s <;> rfl
    | zero s' => cases s <;> rfl
    | finite s' => cases s <;> cases s' <;> rfl
  | zero s =>
    cases v with
    | infinity s' | finite s' => cases s' <;> rfl
    | notANumber | zero s' => rfl
  | finite s m k hm =>
    cases v with
    | notANumber => cases s <;> rfl
    | infinity s' => cases s <;> cases s' <;> rfl
    | zero s' => cases s <;> rfl
    | finite s' n l hn =>
      cases s <;> cases s' <;>
        simp only [UnpackedFloat.compare, Option.map_some, hthen n m l k] <;> simp

theorem exists_compare {u v : UnpackedFloat} (hu : u.isNaN = false) (hv : v.isNaN = false) :
    ∃ o, u.compare v = some o := by
  cases u with
  | notANumber => cases hu
  | infinity s | zero s | finite s =>
    cases v with
    | notANumber => cases hv
    | infinity s' | zero s' | finite s' => cases s <;> cases s' <;> exact ⟨_, rfl⟩

theorem le_of_not_lt {x y : Float} (hx : x.isNaN = false) (hy : y.isNaN = false) (h : ¬ x < y) :
    y ≤ x := by
  have hlt : x < y ↔ (x.toModel.unpack.compare y.toModel.unpack == some .lt) = true :=
    (decide_eq_true_iff : _ ↔ x.toModel < y.toModel)
  have hle : y ≤ x ↔ (y.toModel.unpack.compare x.toModel.unpack).any Ordering.isLE = true :=
    (decide_eq_true_iff : _ ↔ y.toModel ≤ x.toModel)
  obtain ⟨o, ho⟩ := exists_compare (u := x.toModel.unpack) (v := y.toModel.unpack) hx hy
  rw [hlt, ho] at h
  rw [hle, compare_swap, ho]
  cases o with
  | lt => exact absurd rfl h
  | eq | gt => rfl

/-- Is a float a zero or a finite number with the magnitude of a normal one? -/
def IsNormalized (x : Float) : Prop := x.isFinite ∧ (x == 0 ∨ leastNormal ≤ x.abs)

instance (x : Float) : Decidable (IsNormalized x) := inferInstanceAs (Decidable (_ ∧ _))

theorem isFinite_abs {x : Float} (hx : x.isFinite) : x.abs.isFinite := by
  have hlt := isFinite_iff.1 hx
  rwa [isFinite_iff, abs_eq_ofBits hx, magnitudeBits_ofBits false (Nat.le_of_lt hlt)]

/-- What passes the checks of a result. -/
theorem isNormalized_of_checks {x : Float} (hnan : x.isNaN = false) (hinf : x.isInf = false)
    (hsmall : ¬ (x != 0 && x.abs < leastNormal)) : IsNormalized x := by
  have hx := isFinite_iff_not.2 ⟨hnan, hinf⟩
  refine ⟨hx, ?_⟩
  cases hzero : x == 0 with
  | true => exact .inl rfl
  | false =>
    refine .inr (le_of_not_lt (isFinite_iff_not.1 (isFinite_abs hx)).1 rfl fun hlt => hsmall ?_)
    simp [bne, hzero, hlt]

/-! Factorials. -/

theorem unpack_eq_dyadic {x : Float} (hx : x.isFinite) (hzero : magnitudeBits x ≠ 0) :
    ∃ h, x.toModel.unpack =
      .finite (signOf (isNegative x)) (dyadic x).significand (dyadic x).exponent h := by
  obtain ⟨e, m, hbits, hn⟩ := exists_pattern x
  have hlt := isFinite_iff.1 hx
  have hunpack : x.toModel.unpack = unpack Format.binary64 x.toBits.toBitVec := rfl
  have hs := sign_pattern (signOf (isNegative x)) e m
  have he : unpackExponent (pattern (signOf (isNegative x)) e m) = e :=
    unpackExponent_packComponents
  have hm : unpackMantissa (pattern (signOf (isNegative x)) e m) = m :=
    unpackMantissa_packComponents
  have hmlt := m.isLt
  have hfield : magnitudeBits x / leadingBit = e.toNat := by
    simp only [leadingBit]
    omega
  have hfraction : magnitudeBits x % leadingBit = m.toNat := by
    simp only [leadingBit]
    omega
  have htop : e ≠ -1#_ := by
    rintro rfl
    have htop : (-1#11).toNat = 2047 := rfl
    simp only [infinityBits, hn, htop] at hlt
    omega
  rw [hunpack, hbits]
  simp only [unpack, hs, he, hm, if_neg htop, dyadic, hfield, hfraction]
  by_cases hfirst : e = 0#_
  · subst hfirst
    have hm0 : m ≠ 0#_ := fun h => hzero (by rw [hn, h]; rfl)
    exact ⟨Nat.pos_of_ne_zero fun h => hm0 (BitVec.eq_of_toNat_eq h), by
      rw [if_pos rfl, dif_neg hm0]; rfl⟩
  · have hpos : e.toNat ≠ 0 := fun h => hfirst (BitVec.eq_of_toNat_eq h)
    have himplicit := toNat_implicit m
    simp only [if_neg hfirst, if_neg hpos, himplicit]
    refine ⟨by simp only [leadingBit]; omega, ?_⟩
    rw [UnpackedFloat.finite.injEq]
    have hbias : Format.binary64.exponentBias = 1023 := rfl
    refine ⟨rfl, rfl, ?_⟩
    simp only [leastExponent, hbias]
    omega

/-- Exact values that are not above 170 in the order of exponent and significand. -/
theorem whole_le {d : Dyadic}
    (horder : ¬ (-45 < d.exponent ∨ -45 = d.exponent ∧ 170 * 2 ^ 45 < d.significand))
    (hbound : d.significand < 2 * leadingBit) : d.whole ≤ 170 := by
  rw [not_or, not_lt, not_and, not_lt] at horder
  obtain ⟨hexponent, hlast⟩ := horder
  have hnum : d.exponent.toNat = 0 := by omega
  simp only [Dyadic.whole, Dyadic.ratio, scaleFraction, hnum, Nat.pow_eq, pow_zero, mul_one, one_mul]
  rcases hexponent.eq_or_lt with heq | hlt
  · rw [heq]
    exact Nat.div_le_of_le_mul (hlast heq.symm)
  · have hpow : 2 ^ 46 ≤ 2 ^ (-d.exponent).toNat := Nat.pow_le_pow_right two_pos (by omega)
    calc d.significand / 2 ^ (-d.exponent).toNat
        ≤ d.significand / 2 ^ 46 := Nat.div_le_div_left hpow (by decide)
      _ ≤ 170 := by
        simp only [leadingBit] at hbound
        omega

theorem whole_le_of_not_gt {x : Float} (hnan : x.isNaN = false) (hneg : ¬ x < 0)
    (hgt : ¬ x > maxFactorial) : (dyadic x).whole ≤ 170 := by
  have hmax : ∃ h, maxFactorial.toModel.unpack = .finite .positive (170 * 2 ^ 45) (-45) h :=
    ⟨by decide, rfl⟩
  obtain ⟨hpos, hmax⟩ := hmax
  have hgt : ¬ (maxFactorial.toModel.unpack.compare x.toModel.unpack == some .lt) = true :=
    fun h => hgt ((decide_eq_true_iff : _ ↔ maxFactorial.toModel < x.toModel).2 h)
  have hlt : ¬ (x.toModel.unpack.compare (.zero .positive) == some .lt) = true :=
    fun h => hneg ((decide_eq_true_iff : _ ↔ x.toModel < (0 : Float).toModel).2 h)
  have hinf : x.isInf = false := by
    have hinf : x.isInf = x.toModel.unpack.isInf := rfl
    rw [hinf]
    rw [hmax] at hgt
    cases hu : x.toModel.unpack with
    | infinity s =>
      rw [hu] at hgt hlt
      cases s
      · simp [UnpackedFloat.compare] at hlt
      · simp [UnpackedFloat.compare] at hgt
    | notANumber | zero s | finite s m e hm => rfl
  have hfinite := isFinite_iff_not.2 ⟨hnan, hinf⟩
  by_cases hzero : magnitudeBits x = 0
  · simp [dyadic, hzero, Dyadic.whole, Dyadic.ratio, scaleFraction]
  · obtain ⟨hm, hu⟩ := unpack_eq_dyadic hfinite hzero
    have hsign : isNegative x = false := by
      by_contra hs
      exact hneg ((lt_zero_iff hfinite).2 ⟨by simpa using hs, hzero⟩)
    rw [hmax, hu, hsign] at hgt
    have horder : (compare (-45) (dyadic x).exponent).then
        (compare (170 * 2 ^ 45) (dyadic x).significand) ≠ .lt := fun h => hgt (by
      simp only [signOf, UnpackedFloat.compare, Bool.false_eq_true, if_false, h]
      rfl)
    have hbound : (dyadic x).significand < 2 * leadingBit := by
      have := Nat.mod_lt (magnitudeBits x) (show 0 < leadingBit by decide)
      simp only [dyadic]
      split <;> dsimp only <;> omega
    simp only [ne_eq, Ordering.then_eq_lt, compare_lt_iff_lt, compare_eq_iff_eq] at horder
    exact whole_le horder hbound

/-- All factorials up to the greatest one are normal numbers. -/
theorem isNormalized_factorialProduct {n : Nat} (hn : n ≤ 170) :
    IsNormalized (factorialProduct n) := by
  -- The products are the partial results of one fold up to 170.
  have table : ∀ x ∈ (List.range' 2 169).scanl (fun product (k : Nat) => product * ofInt k) 1,
      IsNormalized x := by decide +kernel
  have htake : List.range' 2 (n - 1) = (List.range' 2 169).take (n - 1) :=
    (List.take_range'_of_length_ge (by omega)).symm
  refine table _ (List.mem_of_getElem? (i := n - 1) ?_)
  rw [List.getElem?_scanl, if_pos (by simp; omega), factorialProduct, htake]

end Double

/-! Values. -/

namespace Value

/-- Is the value no double that is undefined, infinite or too small? -/
def IsNormalized : Value → Prop
  | double x => Double.IsNormalized x
  | integer _ | error _ => True

theorem isNormalized_ofResult (x : Float) : (ofResult x).IsNormalized := by
  simp only [ofResult]
  split_ifs with hnan hinf hsmall
  · trivial
  · trivial
  · trivial
  · exact Double.isNormalized_of_checks (by simpa using hnan) (by simpa using hinf) hsmall

theorem isNormalized_ofScaledResult (x : Float) (inputsNonzero : Bool) :
    (ofScaledResult x inputsNonzero).IsNormalized := by
  simp only [ofScaledResult]
  split_ifs
  · trivial
  · exact isNormalized_ofResult x

theorem BelongsTo.isNormalized {v : Value} (h : v.BelongsTo .integer) : v.IsNormalized := by
  cases v with
  | double x => cases belongsTo_double.1 h
  | integer i | error k => trivial

theorem isNormalized_of_isError {v : Value} (h : v.isError) : v.IsNormalized := by
  cases v with
  | double x | integer i => cases h
  | error k => trivial

end Value

namespace Double.Library

open Value (isNormalized_ofResult isNormalized_ofScaledResult)

variable (l : Library)

theorem isNormalized_factorial (x : Float) : (l.factorial x).IsNormalized := by
  simp only [factorial]
  split_ifs with hnan _ hneg hgt
  · trivial
  · trivial
  · trivial
  · exact isNormalized_factorialProduct (whole_le_of_not_gt (by simpa using hnan) hneg hgt)
  · exact isNormalized_ofResult _

theorem isNormalized_unary (f : DoubleUnary) (x : Float) : (l.unary f x).IsNormalized := by
  cases f with
  | fact => exact l.isNormalized_factorial x
  | tand =>
    simp only [unary, tand]
    split_ifs
    · trivial
    · exact (by decide : Double.IsNormalized 0)
    · exact isNormalized_ofResult _
  | exp => exact isNormalized_ofScaledResult _ _
  | _ => exact isNormalized_ofResult _

theorem isNormalized_binary (f : DoubleBinary) (a b : Float) : (l.binary f a b).IsNormalized := by
  cases f with
  | add | sub => exact isNormalized_ofResult _
  | mul => exact isNormalized_ofScaledResult _ _
  | div =>
    simp only [binary]
    split_ifs
    · trivial
    · exact isNormalized_ofScaledResult _ _
  | pow =>
    simp only [binary, power]
    split_ifs
    · trivial
    · exact isNormalized_ofScaledResult _ _
  | yroot =>
    simp only [binary, root]
    split_ifs
    · trivial
    all_goals exact isNormalized_ofResult _
  | logy =>
    simp only [binary, logarithm]
    split_ifs
    · trivial
    all_goals exact isNormalized_ofResult _

end Double.Library

/-! Programs. -/

open Double (Library)

def Opcode.computeWith? (l : Library) : Opcode → List Value → Option Value
  | .doubleUnary f, [a] => some (l.unary f a.asDouble)
  | .doubleBinary f, [a, b] => some (l.binary f a.asDouble b.asDouble)
  | .integerUnary f, [a] => some (f.apply a.asInteger)
  | .integerBinary f, [a, b] => some (f.apply a.asInteger b.asInteger)
  | _, _ => none

def Opcode.valueWith? (l : Library) (op : Opcode) (operands : List Value) : Option Value :=
  if operands.length = op.arity then
    match operands.find? Value.isError with
    | some e => some e
    | none => op.computeWith? l operands
  else none

theorem Opcode.computeWith?_standard (op : Opcode) (operands : List Value) :
    op.computeWith? .standard operands = op.compute? operands := by
  cases op with
  | doubleUnary f =>
    match operands with
    | [a] => exact congrArg some (Library.unary_standard f _)
    | [] | a :: b :: rest => rfl
  | doubleBinary f =>
    match operands with
    | [a, b] => exact congrArg some (Library.binary_standard f _ _)
    | [] | [a] | a :: b :: c :: rest => rfl
  | push d | integerUnary f | integerBinary f => rfl

theorem Opcode.valueWith?_standard (op : Opcode) (operands : List Value) :
    op.valueWith? .standard operands = op.value? operands := by
  rw [valueWith?, value?]
  cases operands.find? Value.isError with
  | some e => rfl
  | none => exact if_congr Iff.rfl (op.computeWith?_standard operands) rfl

theorem Opcode.isNormalized_of_valueWith? {l : Library} {op : Opcode} {vs : List Value} {v : Value}
    (h : op.valueWith? l vs = some v) : v.IsNormalized := by
  simp only [valueWith?] at h
  split at h
  · split at h
    · rename_i e he
      obtain rfl := Option.some.inj h
      exact Value.isNormalized_of_isError (List.find?_some he)
    · simp only [computeWith?] at h
      split at h
      · obtain rfl := Option.some.inj h
        exact l.isNormalized_unary _ _
      · obtain rfl := Option.some.inj h
        exact l.isNormalized_binary _ _ _
      · obtain rfl := Option.some.inj h
        exact (IntegerUnary.apply_belongsTo _ _).isNormalized
      · obtain rfl := Option.some.inj h
        exact (IntegerBinary.apply_belongsTo _ _ _).isNormalized
      · cases h
  · cases h

def Instruction.valueWith? (l : Library) (i : Instruction) (operands : List Value) :
    Option Value :=
  if i.opcode.isPush then i.operand else i.opcode.valueWith? l operands

theorem Instruction.valueWith?_standard (i : Instruction) (operands : List Value) :
    i.valueWith? .standard operands = i.value? operands := by
  rw [valueWith?, value?, Opcode.valueWith?_standard]

namespace Machine

variable {i : Instruction} {code : List Instruction} {stack : List Value} {v : Value}

/-- The values that the operations of a run push, those that a push brings in left out. -/
def computed : List Instruction → List Value → List Value
  | [], _ => []
  | i :: code, stack =>
    match step i stack with
    | .ok (v :: rest) =>
      if i.opcode.isPush then computed code (v :: rest) else v :: computed code (v :: rest)
    | _ => []

/-- The same where the operations are over a library of any functions. -/
def computedWith (l : Library) : List Instruction → List Value → List Value
  | [], _ => []
  | i :: code, stack =>
    match i.valueWith? l (stack.take i.opcode.arity).reverse with
    | some v =>
      let next := v :: stack.drop i.opcode.arity
      if i.opcode.isPush then computedWith l code next else v :: computedWith l code next
    | none => []

theorem value?_of_step_eq_error {e : MachineError} (h : step i stack = .error e) :
    i.value? (stack.take i.opcode.arity).reverse = none := by
  cases hpush : i.opcode.isPush with
  | true =>
    obtain ⟨op, operand⟩ := i
    cases op with
    | push d =>
      cases operand with
      | none => rfl
      | some v => cases h
    | _ => cases hpush
  | false =>
    rw [Instruction.value?, hpush, if_neg Bool.false_ne_true, Option.eq_none_iff_forall_ne_some]
    intro v hv
    have harity : i.opcode.arity ≤ stack.length := by
      simpa using Opcode.length_of_value? hv
    obtain ⟨w, -, hstep⟩ := step_of_arity_le hpush harity
    rw [h] at hstep
    cases hstep

theorem computedWith_standard (code : List Instruction) (stack : List Value) :
    computedWith .standard code stack = computed code stack := by
  induction code generalizing stack with
  | nil => rfl
  | cons i code ih =>
    rw [computedWith, computed, Instruction.valueWith?_standard]
    cases hstep : step i stack with
    | ok next =>
      obtain ⟨v, hv, rfl⟩ := step_eq_ok hstep
      simp only [hv, ih]
    | error e => rw [value?_of_step_eq_error hstep]

theorem isNormalized_of_mem_computedWith {l : Library} (h : v ∈ computedWith l code stack) :
    v.IsNormalized := by
  induction code generalizing stack with
  | nil => cases h
  | cons i code ih =>
    rw [computedWith] at h
    split at h
    · rename_i w hw
      cases hpush : i.opcode.isPush with
      | true =>
        rw [hpush, if_pos rfl] at h
        exact ih h
      | false =>
        rw [hpush, if_neg Bool.false_ne_true] at h
        rw [Instruction.valueWith?, hpush, if_neg Bool.false_ne_true] at hw
        rcases List.mem_cons.1 h with rfl | h
        · exact Opcode.isNormalized_of_valueWith? hw
        · exact ih h
    · cases h

/-- Whatever the code, the operands that it finds on the stack, and the answers of the library: what
an operation pushes is an integer, an error, or a finite double that is zero or has the magnitude of
a normal one. Over the functions that the machine uses, these are the values that its operations
push. -/
theorem isNormalized_computed (code : List Instruction) (stack : List Value) :
    (∀ l, ∀ v ∈ computedWith l code stack, v.IsNormalized) ∧
      computedWith .standard code stack = computed code stack :=
  ⟨fun _ _ => isNormalized_of_mem_computedWith, computedWith_standard code stack⟩

theorem isNormalized_computed_factorial :
    let l : Library := { Library.standard with sin := fun _ => Double.ofBits false 1 }
    let code : List Instruction :=
      [⟨.doubleUnary .sin, none⟩, .push (.double 170), ⟨.doubleUnary .fact, none⟩]
    let stack : List Value := [.double (Double.infinity true)]
    computedWith l code stack =
        [.error .underflow, .double (Double.factorialProduct 170)] ∧
      (Value.double (Double.factorialProduct 170)).IsNormalized := by
  intro l code stack
  have hcomputed : computedWith l code stack =
      [.error .underflow, .double (Double.factorialProduct 170)] := by decide +kernel
  refine ⟨hcomputed, (isNormalized_computed code stack).1 l _ ?_⟩
  rw [hcomputed]
  exact List.mem_cons_of_mem _ List.mem_cons_self

end Machine
end DeskCalculator
