import DeskCalculator.Machine
import Mathlib
/-!
The domain of a value: coercion and every operation stay within theirs, errors apart.
-/
namespace DeskCalculator

def Value.BelongsTo (v : Value) (d : Domain) : Prop := v.isError ∨ v.domain? = some d

theorem Value.belongsTo_double {x : Float} {d : Domain} :
    (double x).BelongsTo d ↔ d = .double := by
  simp [BelongsTo, isError, errorKind?, domain?, eq_comm]

theorem Value.belongsTo_integer {i : Int64} {d : Domain} :
    (integer i).BelongsTo d ↔ d = .integer := by
  simp [BelongsTo, isError, errorKind?, domain?, eq_comm]

theorem Value.belongsTo_zero (d : Domain) : (zero d).BelongsTo d := by
  cases d <;> exact Or.inr rfl

theorem Value.belongsTo_coerce (v : Value) (d : Domain) : (v.coerce d).BelongsTo d := by
  cases v with
  | error k =>
    rw [coerce_error]
    exact Or.inl rfl
  | integer i => cases d <;> exact Or.inr rfl
  | double x =>
    cases d with
    | double => exact Or.inr rfl
    | integer =>
      by_cases h : x.isFinite
      · exact Or.inr (by simp [coerce, h, domain?])
      · exact Or.inl (by simp [coerce, h, isError, errorKind?])

theorem Value.belongsTo_ofResult (x : Float) : (ofResult x).BelongsTo .double := by
  simp only [ofResult]
  split_ifs
  · exact Or.inl rfl
  · exact Or.inl rfl
  · exact Or.inl rfl
  · exact Or.inr rfl

theorem Value.belongsTo_ofScaledResult (x : Float) (inputsNonzero : Bool) :
    (ofScaledResult x inputsNonzero).BelongsTo .double := by
  simp only [ofScaledResult]
  split_ifs
  · exact Or.inl rfl
  · exact belongsTo_ofResult x

theorem DoubleUnary.apply_belongsTo (f : DoubleUnary) (x : Float) :
    (f.apply x).BelongsTo .double := by
  cases f with
  | fact =>
    simp only [apply, Double.factorial]
    split_ifs
    · exact Or.inl rfl
    · exact Or.inl rfl
    · exact Or.inl rfl
    · exact Or.inr rfl
    · exact Value.belongsTo_ofResult _
  | tand =>
    simp only [apply, Double.tand]
    split_ifs
    · exact Or.inl rfl
    · exact Or.inr rfl
    · exact Value.belongsTo_ofResult _
  | exp => exact Value.belongsTo_ofScaledResult _ _
  | _ => exact Value.belongsTo_ofResult _

theorem DoubleBinary.apply_belongsTo (f : DoubleBinary) (a b : Float) :
    (f.apply a b).BelongsTo .double := by
  cases f with
  | add => exact Value.belongsTo_ofResult _
  | sub => exact Value.belongsTo_ofResult _
  | mul => exact Value.belongsTo_ofScaledResult _ _
  | div =>
    simp only [apply]
    split_ifs
    · exact Or.inl rfl
    · exact Value.belongsTo_ofScaledResult _ _
  | pow =>
    simp only [apply, Double.power]
    split_ifs
    · exact Or.inl rfl
    · exact Value.belongsTo_ofScaledResult _ _
  | yroot =>
    simp only [apply, Double.root]
    split_ifs
    · exact Or.inl rfl
    all_goals exact Value.belongsTo_ofResult _
  | logy =>
    simp only [apply, Double.logarithm]
    split_ifs
    · exact Or.inl rfl
    all_goals exact Value.belongsTo_ofResult _

theorem IntegerUnary.apply_belongsTo (f : IntegerUnary) (a : Int64) :
    (f.apply a).BelongsTo .integer := by
  cases f <;> exact Or.inr rfl

theorem IntegerBinary.apply_belongsTo (f : IntegerBinary) (a b : Int64) :
    (f.apply a b).BelongsTo .integer := by
  cases f with
  | div =>
    simp only [apply, Integer.divide]
    split_ifs
    · exact Or.inl rfl
    · exact Or.inr rfl
  | pow =>
    simp only [apply, Integer.power]
    split_ifs
    · exact Or.inl rfl
    all_goals exact Or.inr rfl
  | shiftLeft | shiftRight =>
    simp only [apply, Integer.shift]
    split_ifs
    · exact Or.inr rfl
    · exact Or.inl rfl
  | _ => exact Or.inr rfl

end DeskCalculator
