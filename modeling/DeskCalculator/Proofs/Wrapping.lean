import DeskCalculator.Proofs.Supported
/-!
Integer arithmetic modulo `2 ^ 64`. Main statement: `Tree.execute_exact` says that sums, products
and powers of integers come out as the word congruent to their exact value, however far the values
on the way leave the range of words.
-/
namespace DeskCalculator

namespace Integer

/-! Words of integers. -/

theorem toInt_ofInt_modEq (z : ℤ) : (Int64.ofInt z).toInt ≡ z [ZMOD 2 ^ 64] := by
  rw [Int64.toInt_ofInt]
  exact Int.bmod_emod

theorem eq_ofInt_of_modEq {n : Int64} {z : ℤ} (h : n.toInt ≡ z [ZMOD 2 ^ 64]) :
    n = Int64.ofInt z := by
  refine ((Int64.ofInt_eq_iff_bmod_eq_toInt z n).2 ?_).symm
  calc z.bmod (2 ^ 64) = (z % (2 ^ 64 : Nat)).bmod (2 ^ 64) := (Int.emod_bmod z _).symm
    _ = (n.toInt % (2 ^ 64 : Nat)).bmod (2 ^ 64) := congrArg (Int.bmod · (2 ^ 64)) h.symm
    _ = n.toInt.bmod (2 ^ 64) := Int.emod_bmod n.toInt _
    _ = n.toInt := n.toInt_bmod

/-- Repeated squaring gives the word of the power. -/
theorem natPower_ofInt (x : ℤ) (n : Nat) : natPower (Int64.ofInt x) n = Int64.ofInt (x ^ n) := by
  induction n using Nat.strong_induction_on generalizing x with
  | h n ih =>
    rw [natPower]
    split
    · rename_i hzero
      rw [hzero, pow_zero]
      rfl
    · rename_i hpos
      have hsplit : x ^ n = x ^ (n % 2) * (x * x) ^ (n / 2) := by
        rw [← sq, ← pow_mul, ← pow_add, Nat.mod_add_div]
      dsimp only
      rw [← Int64.ofInt_mul, ih (n / 2) (by omega), hsplit]
      split
      · rename_i hodd
        rw [hodd, pow_one, Int64.ofInt_mul]
      · rename_i hnotOdd
        have heven : n % 2 = 0 := by omega
        rw [heven, pow_zero, one_mul]

theorem power_ofInt (x : ℤ) {n : Int64} (hn : 0 ≤ n) :
    power (Int64.ofInt x) n = .integer (Int64.ofInt (x ^ n.toInt.toNat)) := by
  rw [power, if_neg (Int64.not_lt.2 hn), natPower_ofInt]

end Integer

namespace Tree

open Integer

/-- The exact value of a tree of integer literals, sums, differences, products, negations and powers
with a natural literal as the exponent. -/
inductive Exact : Tree → ℤ → Prop where
  | literal (i : Int64) : Exact (number (.integer i)) i.toInt
  | negate {a : Tree} {x : ℤ} : Exact a x → Exact (before .negate a) (-x)
  | add {l r : Tree} {x y : ℤ} : Exact l x → Exact r y → Exact (binary .add l r) (x + y)
  | sub {l r : Tree} {x y : ℤ} : Exact l x → Exact r y → Exact (binary .sub l r) (x - y)
  | mul {l r : Tree} {x y : ℤ} : Exact l x → Exact r y → Exact (binary .mul l r) (x * y)
  | pow {a : Tree} {x : ℤ} {n : Int64} : Exact a x → 0 ≤ n →
    Exact (binary .pow a (number (.integer n))) (x ^ n.toInt.toNat)
  | paren {a : Tree} {x : ℤ} : Exact a x → Exact (paren a) x

variable {t : Tree} {z : ℤ}

theorem Exact.supported (h : t.Exact z) : t.Supported .integer := by
  induction h with
  | literal i => exact supported_number _
  | negate _ ih => exact .before rfl ih
  | add _ _ ihl ihr | sub _ _ ihl ihr | mul _ _ ihl ihr => exact .binary rfl ihl ihr
  | pow _ _ ih => exact .binary rfl ih (supported_number _)
  | paren _ ih => exact ih.paren

theorem value?_binary_integer {op : Operator} {f : IntegerBinary} {l r : Tree} {a b : Int64}
    (hop : op.binaryOpcode? .integer = some (.integerBinary f))
    (hl : l.value? .integer = some (.integer a)) (hr : r.value? .integer = some (.integer b)) :
    (binary op l r).value? .integer = some (f.apply a b) := by
  simp only [value?, hop, hl, hr, Option.bind_eq_bind, Option.bind_some]
  rfl

/-- The value of a tree is the word of its exact value. -/
theorem Exact.value?_eq (h : t.Exact z) :
    t.value? .integer = some (.integer (Int64.ofInt z)) := by
  induction h with
  | literal i => rw [Int64.ofInt_toInt]; rfl
  | negate _ ih =>
    simp only [value?, ih, Operator.unaryOpcode?, Option.bind_eq_bind, Option.bind_some,
      Int64.ofInt_neg]
    rfl
  | add _ _ ihl ihr => rw [value?_binary_integer rfl ihl ihr, Int64.ofInt_add]; rfl
  | sub _ _ ihl ihr => rw [value?_binary_integer rfl ihl ihr, Int64.ofInt_sub]; rfl
  | mul _ _ ihl ihr => rw [value?_binary_integer rfl ihl ihr, Int64.ofInt_mul]; rfl
  | pow _ hn ih =>
    rw [value?_binary_integer rfl ih rfl]
    exact congrArg some (power_ofInt _ hn)
  | paren _ ih => exact ih

/-- A tree of sums, products and powers of integers has a program, whose result on any machine is the
one word that is congruent to the exact value. -/
theorem execute_exact (h : t.Exact z) (name : String) :
    ∃ p, Compiler.compile name .integer t = .ok p ∧
      ∃ n : Int64, (∀ m : Machine, (m.execute p).2 = .ok (.integer n)) ∧
        n.toInt ≡ z [ZMOD 2 ^ 64] ∧ ∀ n' : Int64, n'.toInt ≡ z [ZMOD 2 ^ 64] → n' = n := by
  obtain ⟨code, hcode⟩ := h.supported
  obtain ⟨v, hv, hexecute⟩ := Compiler.execute_code hcode
  obtain rfl := Option.some.inj (hv.symm.trans h.value?_eq)
  refine ⟨⟨name, .integer, code⟩, ?_, Int64.ofInt z, fun m => hexecute m name, toInt_ofInt_modEq z,
    fun n' => eq_ofInt_of_modEq⟩
  rw [Compiler.compile, hcode]
  rfl

theorem execute_exact_power :
    let three : Tree := number (.integer 3)
    let t : Tree := before .negate (paren (binary .sub
      (binary .mul (binary .pow three (number (.integer 100))) (number (.integer 5)))
      (number (.integer 1))))
    t.Exact (-(3 ^ 100 * 5 - 1)) ∧ ∃ p, Compiler.compile "power" .integer t = .ok p ∧
      ∀ m : Machine, (m.execute p).2 = .ok (.integer (-3523629846021825300)) := by
  intro three t
  have ht : t.Exact (-(3 ^ 100 * 5 - 1)) :=
    .negate (.paren (.sub (.mul (.pow (.literal 3) (by decide)) (.literal 5)) (.literal 1)))
  obtain ⟨p, hp, n, hn, -, hunique⟩ := execute_exact ht "power"
  obtain rfl := hunique (-3523629846021825300) (by decide)
  exact ⟨ht, p, hp, hn⟩

end Tree
end DeskCalculator
