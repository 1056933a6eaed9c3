import DeskCalculator.Proofs.Finite
/-!
Zeros with and without a sign. Main statement: `Opcode.respects_unsignZero` says that operations
which take both zeros to like results take all operands that differ in the sign of a zero to like
results; of those not left to the mathematical library, `Opcode.signBlind_of_not_library` says that
they do.
-/
namespace DeskCalculator
namespace Double

open Float.Model (Format UnpackedFloat)
open Float.Model.UnpackedFloat

theorem isFinite_of_beq_zero {x : Float} (h : x == 0) : x.isFinite := by
  have hfinite : x.isFinite = x.toModel.unpack.isFinite := rfl
  have hbeq : (x == 0) = (x.toModel.unpack.compare (.zero .positive) == some .eq) := rfl
  rw [hbeq] at h
  rw [hfinite]
  cases hu : x.toModel.unpack with
  | notANumber => simp [hu, UnpackedFloat.compare] at h
  | infinity s => cases s <;> simp [hu, UnpackedFloat.compare] at h
  | zero s | finite s m e hm => rfl

theorem beq_self {x : Float} (hx : x.isFinite) : x == x := by
  have hbeq : (x == x) = (x.toModel.unpack.compare x.toModel.unpack == some .eq) := rfl
  rw [hbeq]
  rcases unpack_of_isFinite hx with ⟨-, hu⟩ | ⟨-, n, k, hn, hu⟩ <;> rw [hu]
  · simp [UnpackedFloat.compare]
  · cases isNegative x <;> simp [signOf, UnpackedFloat.compare]

theorem eq_zero_or_of_beq_zero {x : Float} (h : x == 0) : x = 0 ∨ x = -0 := by
  have hx := isFinite_of_beq_zero h
  have hbits := ofBits_magnitudeBits (Nat.le_of_lt (isFinite_iff.1 hx))
  rw [(beq_zero_iff hx).1 h] at hbits
  cases hneg : isNegative x with
  | false =>
    rw [hneg] at hbits
    exact .inl hbits.symm
  | true =>
    rw [hneg] at hbits
    exact .inr hbits.symm

/-- Are two floats the same but for the sign of a zero? -/
def Alike (x y : Float) : Prop := x = y ∨ x == 0 ∧ y == 0

def ofUnpacked (u : UnpackedFloat) : Float := ⟨Float.Model.pack u⟩

theorem alike_of_zeros (s s' : Sign) : Alike (ofUnpacked (.zero s)) (ofUnpacked (.zero s')) := by
  cases s <;> cases s' <;> exact .inr ⟨rfl, rfl⟩

/-- An operation on floats is one on unpacked floats, to which the zeros differ in a sign. -/
theorem alike_of_unpacked {g : Float → Float} {f : UnpackedFloat → UnpackedFloat}
    (hg : ∀ x, g x = ofUnpacked (f x.toModel.unpack))
    (hf : Alike (ofUnpacked (f (.zero .negative))) (ofUnpacked (f (.zero .positive)))) :
    Alike (g (-0)) (g 0) := by
  have hzero : (0 : Float).toModel.unpack = .zero .positive := rfl
  have hneg : (-0 : Float).toModel.unpack = .zero .negative := rfl
  rwa [hg, hg, hzero, hneg]

theorem alike_of_unpacked₂ {g : Float → Float → Float}
    {f : UnpackedFloat → UnpackedFloat → UnpackedFloat}
    (hg : ∀ x y, g x y = ofUnpacked (f x.toModel.unpack y.toModel.unpack))
    (hf : ∀ u, Alike (ofUnpacked (f (.zero .negative) u)) (ofUnpacked (f (.zero .positive) u)) ∧
      Alike (ofUnpacked (f u (.zero .negative))) (ofUnpacked (f u (.zero .positive)))) (z : Float) :
    Alike (g (-0) z) (g 0 z) ∧ Alike (g z (-0)) (g z 0) := by
  obtain ⟨hleft, hright⟩ := hf z.toModel.unpack
  exact ⟨alike_of_unpacked (f := (f · z.toModel.unpack)) (fun x => hg x z) hleft,
    alike_of_unpacked (f := f z.toModel.unpack) (fun x => hg z x) hright⟩

theorem alike_add (z : Float) : Alike (-0 + z) (0 + z) ∧ Alike (z + -0) (z + 0) := by
  refine alike_of_unpacked₂ (f := UnpackedFloat.add Format.binary64) (fun _ _ => rfl)
    (fun u => ?_) z
  cases u with
  | notANumber | infinity s | finite s m e hm => exact ⟨.inl rfl, .inl rfl⟩
  | zero s => cases s <;> exact ⟨alike_of_zeros _ _, alike_of_zeros _ _⟩

theorem alike_sub (z : Float) : Alike (-0 - z) (0 - z) ∧ Alike (z - -0) (z - 0) := by
  refine alike_of_unpacked₂ (f := UnpackedFloat.sub Format.binary64) (fun _ _ => rfl)
    (fun u => ?_) z
  cases u with
  | notANumber | infinity s | finite s m e hm => exact ⟨.inl rfl, .inl rfl⟩
  | zero s => cases s <;> exact ⟨alike_of_zeros _ _, alike_of_zeros _ _⟩

theorem alike_mul (z : Float) : Alike (-0 * z) (0 * z) ∧ Alike (z * -0) (z * 0) := by
  refine alike_of_unpacked₂ (f := UnpackedFloat.mul Format.binary64) (fun _ _ => rfl)
    (fun u => ?_) z
  cases u with
  | notANumber | infinity s => exact ⟨.inl rfl, .inl rfl⟩
  | zero s | finite s m e hm => exact ⟨alike_of_zeros _ _, alike_of_zeros _ _⟩

/-- A quotient of zero; by zero nothing is divided. -/
theorem alike_div (z : Float) : Alike (-0 / z) (0 / z) := by
  refine alike_of_unpacked (f := (UnpackedFloat.div Format.binary64 · z.toModel.unpack))
    (fun _ => rfl) ?_
  cases z.toModel.unpack with
  | notANumber | zero s => exact .inl rfl
  | infinity s | finite s m e hm => exact alike_of_zeros _ _

end Double

/-! Operations of the machine. -/

open Double (Alike)

namespace Value

theorem ofScaledResult_false (x : Float) : ofScaledResult x false = ofResult x := by
  simp [ofScaledResult]

theorem unsignZero_ofResult_of_beq_zero {x : Float} (h : x == 0) :
    (ofResult x).unsignZero = .double 0 := by
  rcases Double.eq_zero_or_of_beq_zero h with rfl | rfl <;> rfl

theorem unsignZero_ofResult_congr {x y : Float} (h : Alike x y) :
    (ofResult x).unsignZero = (ofResult y).unsignZero := by
  rcases h with rfl | ⟨hx, hy⟩
  · rfl
  · rw [unsignZero_ofResult_of_beq_zero hx, unsignZero_ofResult_of_beq_zero hy]

theorem unsignZero_eq_iff {v w : Value} : v.unsignZero = w.unsignZero ↔
    v = w ∨ ∃ x y, v = .double x ∧ w = .double y ∧ x == 0 ∧ y == 0 := by
  constructor
  · intro h
    cases v with
    | integer i | error k =>
      cases w with
      | integer j | error l => exact .inl h
      | double y =>
        simp only [unsignZero] at h
        split at h <;> cases h
    | double x =>
      cases w with
      | integer j | error l =>
        simp only [unsignZero] at h
        split at h <;> cases h
      | double y =>
        simp only [unsignZero] at h
        by_cases hx : (x == 0) = true <;> by_cases hy : (y == 0) = true
        · exact .inr ⟨x, y, rfl, rfl, hx, hy⟩
        · rw [if_pos hx, if_neg hy] at h
          rw [← Value.double.inj h] at hy
          exact absurd rfl hy
        · rw [if_neg hx, if_pos hy] at h
          rw [Value.double.inj h] at hx
          exact absurd rfl hx
        · rw [if_neg hx, if_neg hy] at h
          exact .inl h
  · rintro (rfl | ⟨x, y, rfl, rfl, hx, hy⟩)
    · rfl
    · simp only [unsignZero, if_pos hx, if_pos hy]

/-- What takes both zeros to like values takes all like values to like ones. -/
theorem unsignZero_apply_congr {g : Value → Value} {v w : Value}
    (hg : (g (.double (-0))).unsignZero = (g (.double 0)).unsignZero)
    (h : v.unsignZero = w.unsignZero) : (g v).unsignZero = (g w).unsignZero := by
  rcases unsignZero_eq_iff.1 h with rfl | ⟨x, y, rfl, rfl, hx, hy⟩
  · rfl
  · rcases Double.eq_zero_or_of_beq_zero hx with rfl | rfl <;>
      rcases Double.eq_zero_or_of_beq_zero hy with rfl | rfl <;> simp only [hg]

theorem unsignZero_unsignZero (v : Value) : v.unsignZero.unsignZero = v.unsignZero := by
  cases v with
  | double x => by_cases h : x == 0 <;> simp [unsignZero, h]
  | integer i | error k => rfl

theorem unsignZero_eq_self {v : Value} (h : v ≠ .double (-0)) : v.unsignZero = v := by
  cases v with
  | double x =>
    rw [unsignZero]
    split_ifs with hx
    · rcases Double.eq_zero_or_of_beq_zero hx with rfl | rfl
      · rfl
      · exact absurd rfl h
    · rfl
  | integer i | error k => rfl

/-- Are two values the same for one who compares doubles as numbers? -/
def Agrees : Value → Value → Prop
  | double x, double y => x == y
  | v, w => v = w

theorem agrees_of_unsignZero_eq {v w : Value} (hw : w.IsFinite)
    (h : v.unsignZero = w.unsignZero) : v.Agrees w := by
  rcases unsignZero_eq_iff.1 h with rfl | ⟨x, y, rfl, rfl, hx, hy⟩
  · cases v with
    | double x => exact Double.beq_self hw
    | integer i | error k => rfl
  · rcases Double.eq_zero_or_of_beq_zero hx with rfl | rfl <;>
      rcases Double.eq_zero_or_of_beq_zero hy with rfl | rfl <;> rfl

theorem asInteger_negative_zero : (double (-0)).asInteger = (double 0).asInteger := by
  decide +kernel

theorem isError_unsignZero (v : Value) : v.unsignZero.isError = v.isError := by
  cases v with
  | double x =>
    rw [unsignZero]
    split <;> rfl
  | integer i | error k => rfl

end Value

namespace Opcode

/-- Does an operation take operands that are alike under `N` to results that are alike? -/
def Respects (op : Opcode) (N : Value → Value) : Prop :=
  ∀ vs ws : List Value, vs.map N = ws.map N → (op.value? vs).map N = (op.value? ws).map N

variable {op : Opcode} {N : Value → Value}

theorem respects_id (op : Opcode) : op.Respects id := by
  intro vs ws h
  rw [List.map_id, List.map_id] at h
  rw [h]

theorem respects_of_unary {f : Value → Value} (ha : op.arity = 1)
    (hf : ∀ a, op.compute? [a] = some (f a)) (herror : ∀ v, (N v).isError = v.isError)
    (hcongr : ∀ a b, N a = N b → N (f a) = N (f b)) : op.Respects N := by
  intro vs ws h
  have hlength : vs.length = ws.length := by simpa using congrArg List.length h
  by_cases hl : vs.length = 1
  · obtain ⟨a, rfl⟩ := List.length_eq_one_iff.1 hl
    obtain ⟨b, rfl⟩ := List.length_eq_one_iff.1 (hlength ▸ hl)
    have hab : N a = N b := List.singleton_injective h
    have herr : a.isError = b.isError := by rw [← herror a, hab, herror]
    rw [value?_unary f ha (hf a), value?_unary f ha (hf b), Value.lift, Value.lift, herr]
    cases b.isError with
    | false => exact congrArg some (hcongr a b hab)
    | true => exact congrArg some hab
  · rw [value?, value?, if_neg (by omega), if_neg (by omega)]

theorem respects_of_binary {f : Value → Value → Value} (ha : op.arity = 2)
    (hf : ∀ a b, op.compute? [a, b] = some (f a b)) (herror : ∀ v, (N v).isError = v.isError)
    (hleft : ∀ a a' b, N a = N a' → N (f a b) = N (f a' b))
    (hright : ∀ a b b', N b = N b' → N (f a b) = N (f a b')) : op.Respects N := by
  intro vs ws h
  have hlength : vs.length = ws.length := by simpa using congrArg List.length h
  by_cases hl : vs.length = 2
  · obtain ⟨a, b, rfl⟩ := List.length_eq_two.1 hl
    obtain ⟨a', b', rfl⟩ := List.length_eq_two.1 (hlength ▸ hl)
    obtain ⟨haa, hbb⟩ : N a = N a' ∧ N b = N b' := by simpa using h
    have herra : a.isError = a'.isError := by rw [← herror a, haa, herror]
    have herrb : b.isError = b'.isError := by rw [← herror b, hbb, herror]
    rw [value?_binary f ha (hf a b), value?_binary f ha (hf a' b'), Value.lift₂, Value.lift₂, herra,
      herrb]
    cases a'.isError with
    | true => exact congrArg some haa
    | false =>
      cases b'.isError with
      | true => exact congrArg some hbb
      | false => exact congrArg some ((hleft a a' b haa).trans (hright a' b b' hbb))
  · rw [value?, value?, if_neg (by omega), if_neg (by omega)]

end Opcode

/-- Does an operation take zeros of either sign to results that are alike? -/
def Opcode.SignBlind : Opcode → Prop
  | doubleUnary f => (f.apply (-0)).unsignZero = (f.apply 0).unsignZero
  | doubleBinary f => ∀ z, (f.apply (-0) z).unsignZero = (f.apply 0 z).unsignZero ∧
    (f.apply z (-0)).unsignZero = (f.apply z 0).unsignZero
  | _ => True

def Opcode.ofLibrary : Opcode → Bool
  | doubleUnary f => f ∈ [.exp, .ln, .log10, .log2, .sin, .cos, .tan, .asin, .acos, .atan, .sinh,
    .cosh, .tanh, .asinh, .acosh, .atanh]
  | doubleBinary f => f ∈ [.pow, .yroot, .logy]
  | _ => false

theorem DoubleUnary.signBlind {f : DoubleUnary} (h : (Opcode.doubleUnary f).ofLibrary = false) :
    (Opcode.doubleUnary f).SignBlind := by
  rw [Opcode.SignBlind]
  cases f with
  | neg | percent | fact | sqrt | cbrt | sind | cosd | tand | asind | acosd | atand =>
    decide +kernel
  | _ => cases h

theorem DoubleBinary.signBlind {f : DoubleBinary} (h : (Opcode.doubleBinary f).ofLibrary = false) :
    (Opcode.doubleBinary f).SignBlind := by
  have hzero : ((0 : Float) != 0) = false := rfl
  have hneg : ((-0 : Float) != 0) = false := rfl
  intro z
  cases f with
  | add =>
    obtain ⟨hleft, hright⟩ := Double.alike_add z
    exact ⟨Value.unsignZero_ofResult_congr hleft, Value.unsignZero_ofResult_congr hright⟩
  | sub =>
    obtain ⟨hleft, hright⟩ := Double.alike_sub z
    exact ⟨Value.unsignZero_ofResult_congr hleft, Value.unsignZero_ofResult_congr hright⟩
  | mul =>
    obtain ⟨hleft, hright⟩ := Double.alike_mul z
    simp only [DoubleBinary.apply, hzero, hneg, Bool.false_and, Bool.and_false,
      Value.ofScaledResult_false]
    exact ⟨Value.unsignZero_ofResult_congr hleft, Value.unsignZero_ofResult_congr hright⟩
  | div =>
    constructor
    · simp only [DoubleBinary.apply, hzero, hneg, Value.ofScaledResult_false]
      split
      · rfl
      · exact Value.unsignZero_ofResult_congr (Double.alike_div z)
    · have hneg : ((-0 : Float) == 0) = true := rfl
      have hzero : ((0 : Float) == 0) = true := rfl
      simp only [DoubleBinary.apply, hneg, hzero, if_true]
  | pow | yroot | logy => cases h

namespace Opcode

variable {op : Opcode}

theorem signBlind_of_not_library (h : op.ofLibrary = false) : op.SignBlind := by
  cases op with
  | doubleUnary f => exact DoubleUnary.signBlind h
  | doubleBinary f => exact DoubleBinary.signBlind h
  | push | integerUnary | integerBinary => trivial

theorem respects_unsignZero (h : op.SignBlind) : op.Respects Value.unsignZero := by
  cases op with
  | push d =>
    intro vs ws _
    have hnone (us : List Value) : (push d).value? us = none := by
      cases us <;> rfl
    rw [hnone, hnone]
  | doubleUnary f =>
    refine respects_of_unary (f := fun a => f.apply a.asDouble) rfl (fun _ => rfl)
      Value.isError_unsignZero fun a b hab => ?_
    exact Value.unsignZero_apply_congr (g := fun a => f.apply a.asDouble) h hab
  | integerUnary f =>
    refine respects_of_unary (f := fun a => f.apply a.asInteger) rfl (fun _ => rfl)
      Value.isError_unsignZero fun a b hab => ?_
    exact Value.unsignZero_apply_congr (g := fun a => f.apply a.asInteger)
      (by rw [Value.asInteger_negative_zero]) hab
  | doubleBinary f =>
    refine respects_of_binary (f := fun a b => f.apply a.asDouble b.asDouble) rfl (fun _ _ => rfl)
      Value.isError_unsignZero (fun a a' b haa => ?_) fun a b b' hbb => ?_
    · exact Value.unsignZero_apply_congr (g := fun a => f.apply a.asDouble b.asDouble)
        (h b.asDouble).1 haa
    · exact Value.unsignZero_apply_congr (g := fun b => f.apply a.asDouble b.asDouble)
        (h a.asDouble).2 hbb
  | integerBinary f =>
    refine respects_of_binary (f := fun a b => f.apply a.asInteger b.asInteger) rfl (fun _ _ => rfl)
      Value.isError_unsignZero (fun a a' b haa => ?_) fun a b b' hbb => ?_
    · exact Value.unsignZero_apply_congr (g := fun a => f.apply a.asInteger b.asInteger)
        (by rw [Value.asInteger_negative_zero]) haa
    · exact Value.unsignZero_apply_congr (g := fun b => f.apply a.asInteger b.asInteger)
        (by rw [Value.asInteger_negative_zero]) hbb

end Opcode

end DeskCalculator
