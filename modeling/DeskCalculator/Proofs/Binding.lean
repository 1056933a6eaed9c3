import DeskCalculator.Expression.Phrase
import DeskCalculator.Proofs.Scanning
import DeskCalculator.Tree
/-!
How tightly operators bind, as the levels that their operands need. Main statements:
`Operator.bindsBefore_eq_false_iff` compares two operators between operands by their levels, and
`Phrase.Rule.operator?_eq_some_iff` says that the grammar's own lists of operators and their levels
agree with the registry.
-/
namespace DeskCalculator

namespace Precedence

theorem eq_iff_level {a b : Precedence} : a = b ↔ a.level = b.level :=
  ⟨congrArg level, level_injective⟩

theorem lt_iff_level {a b : Precedence} : a < b ↔ a.level < b.level := Iff.rfl

end Precedence

namespace Operator

def level (op : Operator) : Nat := op.precedence.level

/-- The least level of a left operand without parentheses. -/
def leftLevel (op : Operator) : Nat := if op.associativity = .left then op.level else op.level + 1

def rightLevel (op : Operator) : Nat :=
  if op.associativity = .right then op.level else op.level + 1

variable {op o : Operator}

theorem wrapsLeft_eq_false_iff {t : Tree} :
    Tree.wrapsLeft op t = false ↔ op.leftLevel ≤ t.precedence.level := by
  simp only [leftLevel, level, Tree.wrapsLeft, Bool.or_eq_false_iff, decide_eq_false_iff_not,
    Precedence.lt_iff_level, Bool.and_eq_false_iff, beq_eq_false_iff_ne, ne_eq,
    Precedence.eq_iff_level, bne_eq_false_iff_eq]
  by_cases hleft : op.associativity = .left
  · simp [hleft]
  · simp only [hleft, or_false, if_false]
    omega

theorem wrapsRight_eq_false_iff {t : Tree} :
    Tree.wrapsRight op t = false ↔ op.rightLevel ≤ t.precedence.level := by
  simp only [rightLevel, level, Tree.wrapsRight, Bool.or_eq_false_iff, decide_eq_false_iff_not,
    Precedence.lt_iff_level, Bool.and_eq_false_iff, beq_eq_false_iff_ne, ne_eq,
    Precedence.eq_iff_level, bne_eq_false_iff_eq]
  by_cases hright : op.associativity = .right
  · simp [hright]
  · simp only [hright, or_false, if_false]
    omega

theorem bindsBefore_iff : o.bindsBefore op ↔ op.leftLevel ≤ o.level := by
  simp only [leftLevel, level, bindsBefore, Bool.or_eq_true, decide_eq_true_eq,
    Precedence.lt_iff_level, Bool.and_eq_true, beq_iff_eq, Precedence.eq_iff_level]
  by_cases hleft : op.associativity = .left
  · simp only [hleft, and_true, if_true]
    omega
  · simp only [hleft, and_false, or_false, if_false]
    omega

theorem arity_of_binary (h : op.rule = .binary) : op.arity = 2 := congrArg BuildRule.arity h

theorem arity_of_after (h : op.rule = .after) : op.arity = 1 := congrArg BuildRule.arity h

/-- Of the operators between operands only powers and roots associate to the right. -/
theorem associativity_of_arity (h : op.arity = 2) :
    op.associativity = if op.level = Precedence.power.level then .right else .left := by
  revert h
  cases op <;> decide

theorem level_of_binary (h : op.rule = .binary) :
    Precedence.additive.level ≤ op.level ∧ op.level ≤ Precedence.power.level := by
  revert h
  cases op <;> decide

theorem operandLevels_of_binary (h : op.rule = .binary) :
    op.leftLevel ≤ Precedence.value.level ∧ op.rightLevel ≤ Precedence.value.level := by
  revert h
  cases op <;> decide

/-- An operator that waits leaves its right operand to the next one exactly if that one can be in
its right operand without parentheses. -/
theorem bindsBefore_eq_false_iff (ho : o.arity = 2) (hop : op.arity = 2) :
    o.bindsBefore op = false ↔ o.rightLevel ≤ op.level := by
  have h : o.bindsBefore op = false ↔ o.level < op.leftLevel := by
    rw [← Bool.not_eq_true, bindsBefore_iff, Nat.not_le]
  rw [h]
  simp only [leftLevel, rightLevel]
  rw [associativity_of_arity ho, associativity_of_arity hop]
  by_cases hl : o.level = Precedence.power.level <;>
    by_cases hr : op.level = Precedence.power.level <;> simp [hl, hr] <;> omega

/-- The rule of the grammar that place and precedence of an operator ask for. -/
def phraseRule? (op : Operator) : Option Phrase.Rule :=
  match op.rule, op.precedence with
  | .binary, .additive => some .sum
  | .binary, .multiplicative => some .product
  | .binary, .power => some .power
  | .before, _ => some .unary
  | .after, _ => some .suffixed
  | _, _ => none

variable {rule : Phrase.Rule}

theorem exists_phraseRule?_of_binary (h : op.rule = .binary) : ∃ rule,
    op.phraseRule? = some rule ∧ (rule = .sum ∨ rule = .product ∨ rule = .power) := by
  have hlevel := level_of_binary h
  rw [phraseRule?, h]
  cases hp : op.precedence <;> simp [level, hp, Precedence.level] at hlevel ⊢

theorem levels_of_sum_or_product (h : op.phraseRule? = some rule)
    (hrule : rule = .sum ∨ rule = .product) :
    op.level = rule.level ∧ op.leftLevel = rule.level ∧ op.rightLevel = rule.next.level := by
  revert h
  rcases hrule with rfl | rfl <;> cases op <;> decide

theorem eq_pow_of_phraseRule? (h : op.phraseRule? = some .power) : op = .pow := by
  revert h
  cases op <;> decide

end Operator

namespace Phrase.Rule

variable {rule : Rule} {token : Token} {op : Operator}

def all : List Rule := [sum, product, power, unary, suffixed, primary]

theorem mem_all (rule : Rule) : rule ∈ all := by cases rule <;> decide

/-- Every word that the grammar lists is an operator of the registry. -/
theorem isSome_operator?_iff : (rule.operator? token).isSome ↔ token ∈ rule.words := by
  have htable : ∀ r ∈ all, ∀ t ∈ r.words, (Operator.ofSymbol? r.placement t.symbol).isSome := by
    decide
  rw [operator?]
  split
  · rename_i h
    simpa [h] using htable rule rule.mem_all token h
  · rename_i h
    simp [h]

/-- A word is an operator of a rule exactly if the registry has an operator with that word, which
stands there and binds as the rule says. -/
theorem operator?_eq_some_iff :
    rule.operator? token = some op ↔ op.token = token ∧ op.phraseRule? = some rule := by
  constructor
  · intro h
    have htable : ∀ r ∈ all, ∀ t ∈ r.words, ∀ o ∈ Operator.ofSymbol? r.placement t.symbol,
        o.token = t ∧ o.phraseRule? = some r := by
      decide
    obtain ⟨hmem, hop⟩ := Option.ite_none_right_eq_some.1 h
    exact htable rule rule.mem_all token hmem op hop
  · rintro ⟨rfl, hrule⟩
    have htable : ∀ o ∈ Operator.all, ∀ r ∈ o.phraseRule?, r.operator? o.token = some o := by
      decide
    exact htable op op.mem_all rule hrule

end Phrase.Rule
end DeskCalculator
