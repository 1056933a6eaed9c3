import DeskCalculator.Proofs.Except
import DeskCalculator.Proofs.Printing
/-!
Printed trees that are read again. Main statement: `Tree.read_text` gives the tree that the printed
form of a tree is read as, and says that it has the same printed form.
-/
namespace DeskCalculator
namespace Tree

def parenIf (wrap : Bool) (t : Tree) : Tree := if wrap then .paren t else t

mutual

/-- What the printed form is read as. The parentheses that were printed are there now, a minus
before a positive literal has become its sign, and a zero has none. -/
def reread : Tree → Tree
  | number v => number v.unsignZero
  | constant name v => constant name v
  | before op (number v) =>
    if op = .negate ∧ v.isPositive then number v.negated else before op (number v.unsignZero)
  | before op a => before op (a.reread.parenIf (a.precedence < .function))
  | after op a => after op (a.reread.parenIf (a.precedence < .value))
  | binary op l r =>
    binary op (l.reread.parenIf (wrapsLeft op l)) (r.reread.parenIf (wrapsRight op r))
  | call name args => call name (rereadAll args)
  | paren a => paren a.reread

def rereadAll : List Tree → List Tree
  | [] => []
  | a :: rest => a.reread :: rereadAll rest

end

variable {mode : Mode} {angle : AngleUnit} {d : Domain} {v : Value} {op : Operator} {a t : Tree}

theorem reread_before (op : Operator) (ha : ∀ v, a ≠ .number v) :
    (before op a).reread = before op (a.reread.parenIf (a.precedence < .function)) := by
  rw [reread]
  exact ha

theorem reread_negate_of_isPositive (hp : v.isPositive) :
    (before .negate (number v)).reread = number v.negated := by
  simp [reread, hp]

theorem reread_before_number (h : ¬ (op = .negate ∧ v.isPositive)) :
    (before op (number v)).reread = before op (number v.unsignZero) := by
  rw [reread, if_neg h]

theorem reread_constantTree (hop : op = .pi ∨ op = .e) :
    (Phrase.constantTree mode op).reread = Phrase.constantTree mode op := by
  rcases hop with rfl | rfl <;> rfl

end Tree

/-! What the phrase is read as. -/

namespace Phrase

variable {mode : Mode} {angle : AngleUnit} {op : Operator} {a p : Phrase} {n : Numeral}
  {v w : Value} {t : Tree} {wrap : Bool}

theorem toTree_numeral (hv : numeralValue mode.domain false n = .ok v) :
    (numeral n).toTree mode angle = .ok (.number v) := by
  rw [toTree, hv]
  rfl

theorem toTree_before (ha : ∀ n, a ≠ .numeral n) (ht : a.toTree mode angle = .ok t) :
    (before op a).toTree mode angle = .ok (.before op t) := by
  rw [toTree, ht]
  · rfl
  · exact ha

theorem toTree_negative (hw : numeralValue mode.domain true n = .ok w) (hn : w.isNegative) :
    (before .negate (numeral n)).toTree mode angle = .ok (.number w) := by
  simp [toTree, hw, hn]

theorem toTree_negate_zero (hw : numeralValue mode.domain true n = .ok w)
    (hn : w.isNegative = false) (hv : numeralValue mode.domain false n = .ok v) :
    (before .negate (numeral n)).toTree mode angle = .ok (.before .negate (.number v)) := by
  simp [toTree, hw, hn, hv]

theorem toTree_before_numeral (hop : op ≠ .negate)
    (hv : numeralValue mode.domain false n = .ok v) :
    (before op (numeral n)).toTree mode angle = .ok (.before op (.number v)) := by
  rw [toTree, if_neg hop, hv]
  rfl

theorem toTree_groupIf (wrap : Bool) (ht : p.toTree mode angle = .ok t) :
    (p.groupIf wrap).toTree mode angle = .ok (t.parenIf wrap) := by
  cases wrap with
  | false => exact ht
  | true =>
    show (group p).toTree mode angle = .ok (.paren t)
    rw [toTree, ht]
    rfl

theorem groupIf_ne_numeral (hp : ∀ n, p ≠ .numeral n) (n : Numeral) :
    p.groupIf wrap ≠ .numeral n := by
  cases wrap with
  | false => exact hp n
  | true => simp [groupIf]

end Phrase

namespace Literal

open Phrase (numeralValue)

variable {mode : Mode} {angle : AngleUnit} {d : Domain} {v : Value}

theorem unsignZero_of_isNegative (hv : v.IsLiteral d) (hn : v.isNegative) : v.unsignZero = v := by
  cases v with
  | integer i | error k => rfl
  | double x =>
    have hlt : x < 0 := by simpa [Value.isNegative] using hn
    have hzero : ¬ x == 0 := by
      rw [Double.beq_zero_iff hv.2]
      exact ((Double.lt_zero_iff hv.2).1 hlt).2
    rw [Value.unsignZero, if_neg hzero]

theorem isNegative_unsignZero (hv : v.IsLiteral d) : v.unsignZero.isNegative = v.isNegative := by
  cases hn : v.isNegative with
  | true => rw [unsignZero_of_isNegative hv hn, hn]
  | false =>
    cases v with
    | integer i | error k => exact hn
    | double x =>
      rw [Value.unsignZero]
      split
      · decide
      · exact hn

def isPlain (v : Value) : Bool := !v.isError && !v.isNegative

theorem isPlain_iff : isPlain v ↔ v.isError = false ∧ v.isNegative = false := by
  simp [isPlain]

theorem phrase_of_isPlain (h : isPlain v) : phrase v = .numeral (numeral v) := by
  obtain ⟨he, hn⟩ := isPlain_iff.1 h
  have hkind : v.errorKind? = none := by simpa [Value.isError] using he
  simp [phrase, hkind, hn]

theorem phrase_ne_numeral (h : ¬ isPlain v) (n : Numeral) : phrase v ≠ .numeral n := by
  rw [isPlain_iff] at h
  simp only [phrase]
  cases hkind : v.errorKind? with
  | some kind => simp
  | none => simp_all [Value.isError]

theorem isPlain_of_isPositive (hv : v.IsLiteral d) (hp : v.isPositive) : isPlain v :=
  isPlain_iff.2 ⟨isError_of_isPositive hp, isNegative_of_isPositive hv hp⟩

theorem toTree_phrase (hv : v.IsLiteral mode.domain) :
    (phrase v).toTree mode angle = .ok (.number v.unsignZero) := by
  cases v with
  | error kind => rfl
  | double x | integer i =>
    rw [phrase]
    dsimp only [Value.errorKind?]
    cases hn : Value.isNegative _ with
    | false => exact Phrase.toTree_numeral (numeralValue_of_not_isNegative hv rfl hn)
    | true =>
      rw [unsignZero_of_isNegative hv hn]
      exact Phrase.toTree_negative (numeralValue_of_isNegative hv hn) hn

end Literal

namespace Tree

variable {mode : Mode} {angle : AngleUnit} {op : Operator} {v : Value} {a t : Tree}

theorem phrase_ne_numeral (ht : ∀ v, t ≠ .number v) (n : Numeral) : t.phrase ≠ .numeral n := by
  cases t with
  | number v => exact absurd rfl (ht v)
  | constant | before | after | binary | call | paren => simp [phrase]

theorem precedence_number (v : Value) : ¬ (number v).precedence < .function := by
  rw [precedence]
  cases v.isNegative <;> decide

theorem phrase_before_number (op : Operator) (v : Value) :
    (before op (number v)).phrase = .before op (Literal.phrase v) := by
  simp [phrase, Phrase.groupIf, precedence_number]

/-- A sign before a literal becomes part of it if it is a minus before a positive one. -/
theorem toTree_before_number (op : Operator) (hv : v.IsLiteral mode.domain) :
    (before op (number v)).phrase.toTree mode angle = .ok (before op (number v)).reread := by
  rw [phrase_before_number]
  by_cases hplain : Literal.isPlain v
  · obtain ⟨he, hn⟩ := Literal.isPlain_iff.1 hplain
    have hvalue := Literal.numeralValue_of_not_isNegative hv he hn
    rw [Literal.phrase_of_isPlain hplain]
    by_cases hop : op = .negate
    · subst hop
      cases hp : v.isPositive with
      | true =>
        rw [reread_negate_of_isPositive hp]
        exact Phrase.toTree_negative (Literal.numeralValue_of_isPositive hv hp)
          (Literal.isNegative_negated hv hp)
      | false =>
        obtain ⟨w, hw, hnegative⟩ := Literal.numeralValue_of_zero hv he hn hp
        rw [reread_before_number (by simp [hp])]
        exact Phrase.toTree_negate_zero hw hnegative hvalue
    · rw [reread_before_number (by simp [hop])]
      exact Phrase.toTree_before_numeral hop hvalue
  · have hp : ¬ v.isPositive := fun hp => hplain (Literal.isPlain_of_isPositive hv hp)
    rw [reread_before_number (by simp [hp])]
    exact Phrase.toTree_before (Literal.phrase_ne_numeral hplain) (Literal.toTree_phrase hv)

theorem toTree_before_of_ne_number (op : Operator) (ha : ∀ v, a ≠ .number v)
    (ht : a.phrase.toTree mode angle = .ok a.reread) :
    (before op a).phrase.toTree mode angle = .ok (before op a).reread := by
  rw [reread_before op ha, phrase]
  exact Phrase.toTree_before (Phrase.groupIf_ne_numeral (phrase_ne_numeral ha))
    (Phrase.toTree_groupIf _ ht)

theorem toTrees_phrases {args : List Tree}
    (hargs : ∀ a ∈ args, a.phrase.toTree mode angle = .ok a.reread) :
    Phrase.toTrees mode angle (phrases args) = .ok (rereadAll args) := by
  induction args with
  | nil => rfl
  | cons a args ih =>
    have hrest := ih fun b hb => hargs b (List.mem_cons_of_mem _ hb)
    rw [phrases, Phrase.toTrees, hargs a (by simp), hrest]
    rfl

theorem toTree_call {name : String} {args : List Tree} (hname : (Operator.ofFunction? name).isSome)
    (hangle : Operator.functionName name angle = name)
    (hargs : ∀ a ∈ args, a.phrase.toTree mode angle = .ok a.reread) :
    (call name args).phrase.toTree mode angle = .ok (call name args).reread := by
  rw [phrase, Phrase.toTree, toTrees_phrases hargs]
  simp [hname, hangle, reread]

theorem Printable.isLiteral (h : Printable mode angle (.number v)) : v.IsLiteral mode.domain := by
  generalize ht : Tree.number v = t at h
  cases h with
  | number hv =>
    cases ht
    exact hv
  | constant hop hbuild =>
    rw [eq_constantTree hop hbuild] at ht
    rcases hop with rfl | rfl <;> cases ht
  | before | after | binary | call | paren => cases ht

theorem Printable.toTree (h : t.Printable mode angle) :
    t.phrase.toTree mode angle = .ok t.reread := by
  induction h with
  | number hv => exact Literal.toTree_phrase hv
  | constant hop ht =>
    rw [eq_constantTree hop ht, phrase_constantTree hop, reread_constantTree hop]
    rfl
  | @before op a hop ha ih =>
    by_cases hnumber : ∃ v, a = .number v
    · obtain ⟨v, rfl⟩ := hnumber
      exact toTree_before_number op ha.isLiteral
    · exact toTree_before_of_ne_number op (not_exists.1 hnumber) ih
  | after hop _ ih =>
    rw [phrase, reread, Phrase.toTree, Phrase.toTree_groupIf _ ih]
    rfl
  | binary hop _ _ ihl ihr =>
    rw [phrase, reread, Phrase.toTree, Phrase.toTree_groupIf _ ihl, Phrase.toTree_groupIf _ ihr]
    rfl
  | call hname hangle _ _ ih => exact toTree_call hname hangle ih
  | paren _ ih =>
    rw [phrase, reread, Phrase.toTree, ih]
    rfl

/-! The printed form of what is read. -/

/-- The sign that a literal takes up is as much of an operator before as after. -/
theorem precedence_reread (h : t.Printable mode angle) : t.reread.precedence = t.precedence := by
  cases h with
  | number hv =>
    rw [reread, precedence, precedence, Literal.isNegative_unsignZero hv]
  | constant hop ht => rw [eq_constantTree hop ht, reread_constantTree hop]
  | @before op a hop ha =>
    by_cases hnumber : ∃ v, a = .number v
    · obtain ⟨v, rfl⟩ := hnumber
      by_cases hsign : op = .negate ∧ v.isPositive
      · obtain ⟨rfl, hp⟩ := hsign
        rw [reread_negate_of_isPositive hp, precedence,
          if_pos (Literal.isNegative_negated ha.isLiteral hp)]
        rfl
      · rw [reread_before_number hsign]
        rfl
    · rw [reread_before op (not_exists.1 hnumber)]
      rfl
  | after | binary | call | paren => rfl

theorem chars_parenIf (wraps : Tree → Bool) (hparen : wraps (.paren t) = false)
    (h : wraps t = wraps a) (hchars : t.chars = a.chars) :
    parenthesizeIf (wraps (t.parenIf (wraps a))) (t.parenIf (wraps a)).chars =
      parenthesizeIf (wraps a) a.chars := by
  cases hwrap : wraps a with
  | false =>
    show parenthesizeIf (wraps t) t.chars = a.chars
    rw [h, hwrap, hchars]
    rfl
  | true =>
    show parenthesizeIf (wraps (.paren t)) (paren t).chars = '(' :: a.chars ++ [')']
    rw [hparen, chars, hchars]
    rfl

theorem chars_before_number (op : Operator) (v : Value) :
    (before op (number v)).chars = op.symbol.toList ++ Literal.chars v := by
  simp [chars, parenthesizeIf, precedence_number]

theorem chars_reread_before_number (op : Operator) (hv : v.IsLiteral mode.domain) :
    (before op (number v)).reread.chars = (before op (number v)).chars := by
  rw [chars_before_number]
  by_cases hsign : op = .negate ∧ v.isPositive
  · obtain ⟨rfl, hp⟩ := hsign
    rw [reread_negate_of_isPositive hp, chars, Literal.chars_negated hv hp]
    rfl
  · rw [reread_before_number hsign, chars_before_number, Literal.chars_unsignZero]

theorem chars_rereadAll {args : List Tree} (hargs : ∀ a ∈ args, a.reread.chars = a.chars) :
    charsOfAll (rereadAll args) = charsOfAll args := by
  induction args with
  | nil => rfl
  | cons a args ih =>
    have ha := hargs a (by simp)
    have hrest := ih fun b hb => hargs b (List.mem_cons_of_mem _ hb)
    cases args with
    | nil => exact ha
    | cons b args =>
      show a.reread.chars ++ ',' :: ' ' :: charsOfAll (rereadAll (b :: args)) = _
      rw [ha, hrest]
      rfl

theorem chars_reread (h : t.Printable mode angle) : t.reread.chars = t.chars := by
  induction h with
  | number hv => exact Literal.chars_unsignZero _
  | constant hop ht => rw [eq_constantTree hop ht, reread_constantTree hop]
  | @before op a hop ha ih =>
    by_cases hnumber : ∃ v, a = .number v
    · obtain ⟨v, rfl⟩ := hnumber
      exact chars_reread_before_number op ha.isLiteral
    · have hoperand := chars_parenIf (fun t => t.precedence < .function) (t := a.reread) (a := a)
        rfl (by rw [precedence_reread ha]) ih
      rw [reread_before op (not_exists.1 hnumber), chars, chars, hoperand]
  | @after op a hop ha ih =>
    have hoperand := chars_parenIf (fun t => t.precedence < .value) (t := a.reread) (a := a)
        rfl (by rw [precedence_reread ha]) ih
    rw [reread, chars, chars, hoperand]
  | @binary op l r hop hl hr ihl ihr =>
    obtain ⟨hlevel, hlevel'⟩ := Operator.operandLevels_of_binary hop
    have hleft := chars_parenIf (wrapsLeft op) (Operator.wrapsLeft_eq_false_iff.2 hlevel)
      (by rw [wrapsLeft, precedence_reread hl, ← wrapsLeft]) ihl
    have hright := chars_parenIf (wrapsRight op) (Operator.wrapsRight_eq_false_iff.2 hlevel')
      (by rw [wrapsRight, precedence_reread hr, ← wrapsRight]) ihr
    rw [reread, chars, chars, hleft, hright]
  | call _ _ _ _ ih => rw [reread, chars, chars, chars_rereadAll ih]
  | paren _ ih => rw [reread, chars, chars, ih]

/-- What is printed is read as the same tree, but for what the printed form cannot show. -/
theorem read_text (h : t.Printable mode angle) :
    Tree.read mode angle t.text = .ok t.reread ∧ t.reread.text = t.text := by
  have hread : Phrase.ofChars? t.text.toList = some t.phrase := by
    rw [text, String.toList_ofList, Phrase.ofChars?, h.spelling.scanAll]
    exact Phrase.ofTokens?_tokens h.bindsAt.sum
  refine ⟨?_, ?_⟩
  · rw [read, hread]
    exact h.toTree
  · rw [text, chars_reread h, text]

theorem read_text_product :
    Tree.read .programmer .radians "(-3 + 4) * rol(1)" =
      .ok (.binary .mul (.paren (.binary .add (.number (.integer (-3))) (.number (.integer 4))))
        (.call "rol" [.number (.integer 1)])) := by
  have literal (i : Int64) : Printable .programmer .radians (.number (.integer i)) := .number rfl
  have sum : Printable .programmer .radians
      (.binary .add (.before .negate (.number (.integer 3))) (.number (.integer 4))) :=
    .binary rfl (.before rfl (literal 3)) (literal 4)
  have call : Printable .programmer .radians (.call "rol" [.number (.integer 1)]) :=
    .call (by decide) rfl (fun a ha => List.mem_singleton.1 ha ▸ literal 1) (by simp)
  have htext : (Tree.binary .mul (.binary .add (.before .negate (.number (.integer 3)))
      (.number (.integer 4))) (.call "rol" [.number (.integer 1)])).text =
      "(-3 + 4) * rol(1)" := by cbv
  rw [← htext]
  exact (read_text (.binary rfl sum call)).1

end Tree
end DeskCalculator
