import DeskCalculator.Expression.Reading
import DeskCalculator.Proofs.Context
import DeskCalculator.Proofs.Wording
/-!
Infix expressions, pressed key by key and written. Main statement: `Infix.read_eq_finish` says that
the keypad, which compares operators by the registry, gives the tree of the phrase that the grammar
derives with the same words.
-/
namespace DeskCalculator

/-- A word of an infix expression: a literal with its value, or an operator. -/
inductive Word where
  | literal (n : Numeral) (v : Value)
  | operator (op : Operator)

namespace Word

def chars : Word → List Char
  | literal n _ => n.chars
  | operator op => op.symbol.toList

def token : Word → Token
  | literal n _ => .numeral n
  | operator op => op.token

def spaced : List Word → List Char
  | [] => []
  | [w] => w.chars
  | w :: ws => w.chars ++ ' ' :: spaced ws

def text (ws : List Word) : String := String.ofList (spaced ws)

end Word

def Context.press (c : Context) : Word → Except BuildError Context
  | .literal _ v => .ok (c.pushOperand (.number v))
  | .operator op => c.apply op

/-- The infix expressions over the literals and the operators of a mode. -/
inductive Infix (mode : Mode) : List Word → Prop where
  | literal {n : Numeral} {v : Value} (hn : n.Written)
      (hv : Phrase.numeralValue mode.domain false n = .ok v) : Infix mode [.literal n v]
  | group {ws : List Word} (h : Infix mode ws) :
      Infix mode (.operator .openParen :: ws ++ [.operator .closeParen])
  | after {ws : List Word} {op : Operator} (h : Infix mode ws) (hop : op.rule = .after)
      (hm : op.availableIn mode) : Infix mode (ws ++ [.operator op])
  | between {l r : List Word} (op : Operator) (hl : Infix mode l) (hr : Infix mode r)
      (hop : op.rule = .binary) (hm : op.availableIn mode) : Infix mode (l ++ .operator op :: r)

/-! The words of an infix expression, written with blanks between them. -/

namespace Word

/-- Is the word read as itself where another character ends it? -/
def IsWritten : Word → Prop
  | literal n _ => n.Written
  | operator op => op.hasSign

theorem isWritten_of_infix {mode : Mode} {ws : List Word} (h : Infix mode ws) :
    ∀ w ∈ ws, w.IsWritten := by
  induction h with
  | literal hn hv =>
    intro w hw
    rw [List.mem_singleton.1 hw]
    exact hn
  | group h ih =>
    intro w hw
    simp only [List.cons_append, List.mem_cons, List.mem_append, List.not_mem_nil, or_false] at hw
    rcases hw with rfl | hw | rfl
    · rfl
    · exact ih w hw
    · rfl
  | after h hop hm ih =>
    intro w hw
    rcases List.mem_append.1 hw with hw | hw
    · exact ih w hw
    · rw [List.mem_singleton.1 hw]
      simp [IsWritten, Operator.hasSign, hop]
  | between op hl hr hop hm ihl ihr =>
    intro w hw
    rcases List.mem_append.1 hw with hw | hw
    · exact ihl w hw
    · rcases List.mem_cons.1 hw with rfl | hw
      · simp [IsWritten, Operator.hasSign, hop]
      · exact ihr w hw

theorem IsWritten.spelling {w : Word} (h : w.IsWritten) : Token.Spelling w.chars [w.token] := by
  cases w with
  | literal n v => exact Numeral.Written.spelling h
  | operator op => exact Token.Spelling.symbol op h

theorem spelling_spaced {ws : List Word} (h : ∀ w ∈ ws, w.IsWritten) :
    Token.Spelling (spaced ws) (ws.map token) := by
  induction ws with
  | nil => exact .nil
  | cons w ws ih =>
    have hw := (h w (by simp)).spelling
    have hws := ih fun u hu => h u (List.mem_cons_of_mem _ hu)
    cases ws with
    | nil => exact hw
    | cons u ws => exact hw.append hws.blank ((Token.endsWord_cons _ _).2 (by decide))

end Word

namespace Infix

variable {mode : Mode} {angle : AngleUnit}

/-- What has been entered of an operand: its words, the phrase that the grammar derives with them
and the tree of the keypad. -/
structure Operand (mode : Mode) (angle : AngleUnit) where
  words : List Word
  phrase : Phrase
  tree : Tree
  level : Nat
  tokens_phrase : phrase.tokens = words.map Word.token
  bindsAt : phrase.BindsAt level
  toTree_phrase : phrase.toTree mode angle = .ok tree

namespace Operand

def literal (angle : AngleUnit) {n : Numeral} {v : Value}
    (hv : Phrase.numeralValue mode.domain false n = .ok v) : Operand mode angle where
  words := [.literal n v]
  phrase := .numeral n
  tree := .number v
  level := Precedence.value.level
  tokens_phrase := rfl
  bindsAt := .of_primary (.numeral n) .value
  toTree_phrase := by simp [Phrase.toTree, hv, Except.map]

def group (x : Operand mode angle) : Operand mode angle where
  words := .operator .openParen :: x.words ++ [.operator .closeParen]
  phrase := .group x.phrase
  tree := .paren x.tree
  level := Precedence.value.level
  tokens_phrase := by
    have hopen : Word.token (.operator .openParen) = .openParen := rfl
    have hclose : Word.token (.operator .closeParen) = .closeParen := rfl
    simp [x.tokens_phrase, hopen, hclose]
  bindsAt := .of_primary (.group x.bindsAt.sum) .value
  toTree_phrase := by simp [Phrase.toTree, x.toTree_phrase, Except.map]

def after (x : Operand mode angle) (op : Operator) (hop : op.rule = .after)
    (hx : Precedence.value.level ≤ x.level) : Operand mode angle where
  words := x.words ++ [.operator op]
  phrase := .after op x.phrase
  tree := .after op x.tree
  level := Precedence.value.level
  tokens_phrase := by simp [x.tokens_phrase, Word.token]
  bindsAt := .after hop (x.bindsAt.mono hx)
  toTree_phrase := by simp [Phrase.toTree, x.toTree_phrase, Except.map]

def between (x y : Operand mode angle) (op : Operator) (hop : op.rule = .binary)
    (hx : op.leftLevel ≤ x.level) (hy : op.rightLevel ≤ y.level) : Operand mode angle where
  words := x.words ++ .operator op :: y.words
  phrase := .binary op x.phrase y.phrase
  tree := .binary op x.tree y.tree
  level := op.level
  tokens_phrase := by simp [x.tokens_phrase, y.tokens_phrase, Word.token]
  bindsAt := .binary hop (x.bindsAt.mono hx) (y.bindsAt.mono hy)
  toTree_phrase := by simp [Phrase.toTree, x.toTree_phrase, y.toTree_phrase]

end Operand

/-- The operators and brackets that wait for an operand, with the number of brackets that are open
and the least level of that operand. -/
inductive Waiting (mode : Mode) (angle : AngleUnit) : (depth demand : Nat) → Type where
  | start : Waiting mode angle 0 Precedence.additive.level
  | group {depth demand : Nat} (s : Waiting mode angle depth demand) :
      Waiting mode angle (depth + 1) Precedence.additive.level
  | operator {depth demand : Nat} (s : Waiting mode angle depth demand)
      (left : Operand mode angle) (op : Operator) (hop : op.rule = .binary)
      (hdemand : demand ≤ op.level) (hleft : op.leftLevel ≤ left.level) :
      Waiting mode angle depth op.rightLevel

namespace Waiting

variable {depth demand : Nat}

def pending : {depth demand : Nat} → Waiting mode angle depth demand → List Pending
  | _, _, start => []
  | _, _, group s => .openParen :: s.pending
  | _, _, operator s _ op _ _ _ => .operator op :: s.pending

def nodes : {depth demand : Nat} → Waiting mode angle depth demand → List Tree
  | _, _, start => []
  | _, _, group s => s.nodes
  | _, _, operator s left _ _ _ _ => left.tree :: s.nodes

def words : {depth demand : Nat} → Waiting mode angle depth demand → List Word
  | _, _, start => []
  | _, _, group s => s.words ++ [.operator .openParen]
  | _, _, operator s left op _ _ _ => s.words ++ left.words ++ [.operator op]

def context (s : Waiting mode angle depth demand) : Context :=
  { nodes := s.nodes, pending := s.pending, mode, angle, style := .algebraic }

def contextAfter (s : Waiting mode angle depth demand) (x : Operand mode angle) : Context :=
  { nodes := x.tree :: s.nodes, pending := s.pending, mode, angle, style := .algebraic }

theorem demand_le (s : Waiting mode angle depth demand) : demand ≤ Precedence.value.level := by
  cases s with
  | start | group => decide
  | operator s left op hop hdemand hleft => exact (Operator.operandLevels_of_binary hop).2

theorem length_nodes (s : Waiting mode angle depth demand) :
    s.nodes.length = Context.waiting s.pending := by
  induction s with
  | start => rfl
  | group s ih => simpa [nodes, pending] using ih
  | operator s left op hop hdemand hleft ih => simp [nodes, pending, ih]

theorem awaitsOperand_context (s : Waiting mode angle depth demand) : s.context.awaitsOperand := by
  rw [Context.awaitsOperand_iff]
  exact Nat.le_of_eq s.length_nodes

theorem awaitsOperand_contextAfter (s : Waiting mode angle depth demand)
    (x : Operand mode angle) : (s.contextAfter x).awaitsOperand = false := by
  rw [← Bool.not_eq_true, Context.awaitsOperand_iff]
  have := s.length_nodes
  simp only [contextAfter, List.length_cons]
  omega

theorem openParens_contextAfter (s : Waiting mode angle depth demand) (x : Operand mode angle) :
    (s.contextAfter x).openParens = depth := by
  simp only [Context.openParens, contextAfter]
  induction s with
  | start => rfl
  | group s ih => simpa [pending, Pending.isOperator] using ih
  | operator s left op hop hdemand hleft ih => simpa [pending, Pending.isOperator] using ih

end Waiting

variable (mode angle) in
theorem combine_binary {op : Operator} (hop : op.rule = .binary) (a b : Tree) (nodes : List Tree) :
    Context.combine mode angle op (b :: a :: nodes) = .ok (.binary op a b :: nodes) := by
  have harity := Operator.arity_of_binary hop
  simp [Context.combine, harity, Tree.build, hop, Except.map]

variable (mode angle) in
theorem combine_after {op : Operator} (hop : op.rule = .after) (a : Tree) (nodes : List Tree) :
    Context.combine mode angle op (a :: nodes) = .ok (.after op a :: nodes) := by
  have harity := Operator.arity_of_after hop
  simp [Context.combine, harity, Tree.build, hop, Except.map]

/-- What is left after the operators that fulfil a condition have taken the operand as their right
one. -/
structure Reduction {depth demand : Nat} (q : Operator → Bool)
    (s : Waiting mode angle depth demand) (x : Operand mode angle) where
  demand : Nat
  rest : Waiting mode angle depth demand
  operand : Operand mode angle
  keypad : Context.reduceWhile mode angle q s.pending (x.tree :: s.nodes) =
    .ok (rest.pending, operand.tree :: rest.nodes)
  words : rest.words ++ operand.words = s.words ++ x.words
  fits : demand ≤ operand.level
  level : operand.level = x.level ∨ ∃ o, q o ∧ operand.level = o.level
  stops : ∀ o others, rest.pending = .operator o :: others → q o = false

theorem nonempty_reduction {depth demand : Nat} (q : Operator → Bool)
    (s : Waiting mode angle depth demand) (x : Operand mode angle) (hx : demand ≤ x.level) :
    Nonempty (Reduction q s x) := by
  induction s generalizing x with
  | start =>
    exact ⟨⟨_, .start, x, rfl, rfl, hx, .inl rfl, fun o others h => by cases h⟩⟩
  | group s ih =>
    exact ⟨⟨_, s.group, x, rfl, rfl, hx, .inl rfl, fun o others h => by cases h⟩⟩
  | operator s left op hop hdemand hleft ih =>
    by_cases hq : q op
    · -- the operand becomes the right one of the operator on top
      obtain ⟨r⟩ := ih (left.between x op hop hleft hx) hdemand
      refine ⟨⟨r.demand, r.rest, r.operand, ?_, ?_, r.fits, .inr ?_, r.stops⟩⟩
      · simpa [Waiting.pending, Waiting.nodes, Context.reduceWhile, hq,
          combine_binary mode angle hop, Operand.between] using r.keypad
      · simpa [Waiting.words, Operand.between] using r.words
      · rcases r.level with hl | hl
        · exact ⟨op, hq, hl⟩
        · exact hl
    · refine ⟨⟨_, s.operator left op hop hdemand hleft, x, ?_, rfl, hx, .inl rfl, ?_⟩⟩
      · simp [Waiting.pending, Waiting.nodes, Context.reduceWhile, hq]
      · rintro o others ⟨⟩
        simpa using hq

section steps

variable {depth demand : Nat} (s : Waiting mode angle depth demand)

theorem press_literal {n : Numeral} {v : Value}
    (hv : Phrase.numeralValue mode.domain false n = .ok v) :
    s.context.press (.literal n v) = .ok (s.contextAfter (.literal angle hv)) := by
  have hawait : s.context.awaitsOperand = true := s.awaitsOperand_context
  simp only [Context.press, Context.pushOperand, Context.makeRoom, hawait, not_true_eq_false,
    and_false, if_false]
  rfl

theorem press_openParen : s.context.press (.operator .openParen) = .ok s.group.context := by
  have hawait : s.context.awaitsOperand = true := s.awaitsOperand_context
  have hstyle : s.context.style = .algebraic := rfl
  simp only [Context.press, Context.apply_openParen, Context.applyOpenParen, hstyle,
    Context.makeRoom, hawait, not_true_eq_false, and_false, if_false]
  rfl

theorem press_after {op : Operator} (hop : op.rule = .after) (hm : op.availableIn mode)
    (x : Operand mode angle) (hx : Precedence.value.level ≤ x.level) :
    (s.contextAfter x).press (.operator op) = .ok (s.contextAfter (x.after op hop hx)) := by
  have harity := Operator.arity_of_after hop
  have hgroup : op.rule ≠ .group := by simp [hop]
  have hawait := s.awaitsOperand_contextAfter x
  have happly : (s.contextAfter x).apply op = (s.contextAfter x).applyNow op := by
    rw [Context.apply_of_rule_ne_group hgroup hm, if_neg (by simp [harity])]
  have hcombine := combine_after mode angle hop x.tree s.nodes
  rw [Context.press, happly, Context.applyNow, if_neg (by simp [harity]), if_neg (by simp [hawait])]
  simp only [Waiting.contextAfter, hcombine, Except.map]
  rfl

theorem press_between {op : Operator} (hop : op.rule = .binary) (hm : op.availableIn mode)
    (x : Operand mode angle) (hx : demand ≤ x.level) (hvalue : Precedence.value.level ≤ x.level) :
    ∃ s' : Waiting mode angle depth op.rightLevel,
      (s.contextAfter x).press (.operator op) = .ok s'.context ∧
      s'.words = s.words ++ x.words ++ [.operator op] := by
  obtain ⟨r⟩ := nonempty_reduction (·.bindsBefore op) s x hx
  obtain ⟨demand', rest, y, hkeypad, hwords, -, hylevel, hstops⟩ := r
  have hdemand : demand' ≤ op.level := by
    cases rest with
    | start | group rest => exact (Operator.level_of_binary hop).1
    | operator rest left o ho hdemand hleft =>
      exact (Operator.bindsBefore_eq_false_iff (Operator.arity_of_binary ho)
        (Operator.arity_of_binary hop)).1 (hstops o rest.pending rfl)
  have hleft : op.leftLevel ≤ y.level := by
    rcases hylevel with hl | ⟨o, ho, hl⟩
    · rw [hl]
      exact Nat.le_trans (Operator.operandLevels_of_binary hop).1 hvalue
    · rw [hl]
      exact Operator.bindsBefore_iff.1 ho
  refine ⟨rest.operator y op hop hdemand hleft, ?_, by rw [Waiting.words, hwords]⟩
  have harity := Operator.arity_of_binary hop
  have hgroup : op.rule ≠ .group := by simp [hop]
  have hawait := s.awaitsOperand_contextAfter x
  have happly : (s.contextAfter x).apply op = (s.contextAfter x).applyBetween op := by
    rw [Context.apply_of_rule_ne_group hgroup hm, if_pos ⟨harity, rfl⟩]
  have hreduce : Context.reduceWhile (s.contextAfter x).mode (s.contextAfter x).angle
      (·.bindsBefore op) (s.contextAfter x).pending (s.contextAfter x).nodes =
        .ok (rest.pending, y.tree :: rest.nodes) := hkeypad
  rw [Context.press, happly, Context.applyBetween, if_neg (by simp [hawait])]
  simp only [ok_bind, hreduce]
  rfl

theorem press_closeParen (s : Waiting mode angle (depth + 1) demand) (x : Operand mode angle)
    (hx : demand ≤ x.level) :
    ∃ (demand' : Nat) (s' : Waiting mode angle depth demand') (x' : Operand mode angle),
      (s.contextAfter x).press (.operator .closeParen) = .ok (s'.contextAfter x') ∧
      s'.words ++ x'.words = s.words ++ x.words ++ [.operator .closeParen] ∧
      x'.level = Precedence.value.level := by
  obtain ⟨r⟩ := nonempty_reduction (fun _ => true) s x hx
  obtain ⟨demand', rest, y, hkeypad, hwords, -, -, hstops⟩ := r
  cases rest with
  | operator rest left o ho hdemand hleft => exact absurd (hstops o rest.pending rfl) (by simp)
  | group rest =>
    refine ⟨_, rest, y.group, ?_, ?_, rfl⟩
    · have hawait := s.awaitsOperand_contextAfter x
      have hparens := s.openParens_contextAfter x
      have hreduce : Context.reduceWhile (s.contextAfter x).mode (s.contextAfter x).angle
          (fun _ => true) (s.contextAfter x).pending (s.contextAfter x).nodes =
          .ok ((Waiting.group rest).pending, y.tree :: (Waiting.group rest).nodes) := hkeypad
      rw [Context.press, Context.apply_closeParen, Context.applyCloseParen, hparens, hawait,
        hreduce]
      rfl
    · have hgroup : y.group.words =
          .operator .openParen :: y.words ++ [.operator .closeParen] := rfl
      rw [← hwords, hgroup, Waiting.words]
      simp

end steps

/-- From where an operand is wanted, an infix expression leads to where it has been entered. -/
theorem run {ws : List Word} (h : Infix mode ws) {depth demand : Nat}
    (s : Waiting mode angle depth demand) :
    ∃ (demand' : Nat) (s' : Waiting mode angle depth demand') (x : Operand mode angle),
      ws.foldlM Context.press s.context = .ok (s'.contextAfter x) ∧
      s'.words ++ x.words = s.words ++ ws ∧
      demand' ≤ x.level ∧ Precedence.value.level ≤ x.level := by
  induction h generalizing depth demand with
  | literal hn hv =>
    have hpress := press_literal s hv
    refine ⟨demand, s, .literal angle hv, ?_, rfl, s.demand_le, Nat.le_refl _⟩
    simp [List.foldlM_cons, hpress]
  | @group ws h ih =>
    have hopen := press_openParen s
    obtain ⟨_, s₁, x₁, hpress, hwords, hfits, -⟩ := ih s.group
    obtain ⟨_, s₂, x₂, hclose, hwords₂, hlevel⟩ := press_closeParen s₁ x₁ hfits
    refine ⟨_, s₂, x₂, ?_, ?_, hlevel ▸ s₂.demand_le, Nat.le_of_eq hlevel.symm⟩
    · simp [List.foldlM_cons, List.foldlM_append, hopen, hpress, hclose]
    · simp [hwords₂, hwords, Waiting.words]
  | @after ws op h hop hm ih =>
    obtain ⟨_, s₁, x₁, hpress, hwords, hfits, hvalue⟩ := ih s
    have hafter := press_after s₁ hop hm x₁ hvalue
    refine ⟨_, s₁, x₁.after op hop hvalue, ?_, ?_, s₁.demand_le, Nat.le_refl _⟩
    · simp [List.foldlM_append, hpress, hafter]
    · have hafterWords : (x₁.after op hop hvalue).words = x₁.words ++ [.operator op] := rfl
      rw [hafterWords, ← List.append_assoc, hwords, List.append_assoc]
  | @between l r op hl hr hop hm ihl ihr =>
    obtain ⟨_, s₁, x₁, hpress₁, hwords₁, hfits, hvalue⟩ := ihl s
    obtain ⟨s₂, hop₂, hwords₂⟩ := press_between s₁ hop hm x₁ hfits hvalue
    obtain ⟨_, s₃, x₃, hpress₃, hwords₃, hfits₃, hvalue₃⟩ := ihr s₂
    refine ⟨_, s₃, x₃, ?_, ?_, hfits₃, hvalue₃⟩
    · simp [List.foldlM_cons, List.foldlM_append, hpress₁, hop₂, hpress₃]
    · rw [hwords₃, hwords₂, hwords₁]
      simp

/-- With no bracket open the keypad finishes with the tree of a phrase of all words. -/
theorem finish_contextAfter {demand : Nat} (s : Waiting mode angle 0 demand)
    (x : Operand mode angle) (hx : demand ≤ x.level) :
    ∃ y : Operand mode angle, (s.contextAfter x).finish = .ok y.tree ∧
      y.words = s.words ++ x.words := by
  obtain ⟨r⟩ := nonempty_reduction (fun _ => true) s x hx
  obtain ⟨demand', rest, y, hkeypad, hwords, -, -, hstops⟩ := r
  cases rest with
  | operator rest left o ho hdemand hleft => exact absurd (hstops o rest.pending rfl) (by simp)
  | start =>
    refine ⟨y, ?_, hwords⟩
    have hawait := s.awaitsOperand_contextAfter x
    have hnodes : (s.contextAfter x).nodes = x.tree :: s.nodes := rfl
    have hstyle : (s.contextAfter x).style = .algebraic := rfl
    have hclose : Context.closeAll (s.contextAfter x).mode (s.contextAfter x).angle
        (s.contextAfter x).pending (x.tree :: s.nodes) = .ok [y.tree] :=
      Context.closeAll_reduceWhile hkeypad
    simp only [Context.finish, hnodes, hstyle, hawait, hclose]
    rfl

/-- An infix expression entered key by key is accepted at every key and finishes with the tree that
is read from its words with blanks between them. It is the tree of the one phrase that the grammar
derives with these words. -/
theorem read_eq_finish {mode : Mode} {ws : List Word} (h : Infix mode ws)
    (angle : AngleUnit) :
    ∃ c t, ws.foldlM Context.press (.ofSettings { mode, angle, style := .algebraic }) = .ok c ∧
      c.finish = .ok t ∧ Tree.read mode angle (Word.text ws) = .ok t ∧
      ∃ p : Phrase, p.toTree mode angle = .ok t ∧
        ∀ q, Phrase.Rule.sum.Derives q ∧ q.tokens = ws.map Word.token ↔ q = p := by
  obtain ⟨_, s, x, hpress, hwords, hfits, -⟩ := h.run (.start : Waiting mode angle _ _)
  obtain ⟨y, hfinish, hywords⟩ := finish_contextAfter s x hfits
  have htokens : y.phrase.tokens = ws.map Word.token := by
    rw [y.tokens_phrase, hywords, hwords]
    rfl
  have hread : Phrase.ofChars? (Word.text ws).toList = some y.phrase := by
    have hscan := (Word.spelling_spaced (Word.isWritten_of_infix h)).scanAll
    rw [Word.text, String.toList_ofList, Phrase.ofChars?, hscan, Option.bind_some, ← htokens]
    exact Phrase.ofTokens?_tokens y.bindsAt.sum
  refine ⟨s.contextAfter x, y.tree, hpress, hfinish, ?_, y.phrase, y.toTree_phrase, fun q => ?_⟩
  · rw [Tree.read, hread]
    exact y.toTree_phrase
  · constructor
    · rintro ⟨hq, hqtokens⟩
      exact hq.eq_of_tokens_eq y.bindsAt.sum (hqtokens.trans htokens.symm)
    · rintro rfl
      exact ⟨y.bindsAt.sum, htokens⟩

theorem read_eq_finish_tower :
    ∃ c t,
      [.literal ⟨['2'], none, none⟩ (.integer 2), .operator .pow,
        .literal ⟨['3'], none, none⟩ (.integer 3), .operator .pow, .operator .openParen,
        .literal ⟨['4'], none, none⟩ (.integer 4), .operator .bitXor,
        .literal ⟨['5'], none, none⟩ (.integer 5), .operator .closeParen].foldlM Context.press
        (.ofSettings { mode := .programmer, angle := .radians, style := .algebraic }) = .ok c ∧
      c.finish = .ok t ∧ Tree.read .programmer .radians "2 ^ 3 ^ ( 4 xor 5 )" = .ok t ∧
      t.nodeCount = 8 := by
  have written : ∀ d : Char, d.isDigit → Numeral.Written ⟨[d], none, none⟩ := fun d hd =>
    ⟨by simpa using hd, by simp, by simp, .inl (by simp)⟩
  have two : Infix .programmer [.literal ⟨['2'], none, none⟩ (.integer 2)] :=
    .literal (written '2' rfl) rfl
  have three : Infix .programmer [.literal ⟨['3'], none, none⟩ (.integer 3)] :=
    .literal (written '3' rfl) rfl
  have four : Infix .programmer [.literal ⟨['4'], none, none⟩ (.integer 4)] :=
    .literal (written '4' rfl) rfl
  have five : Infix .programmer [.literal ⟨['5'], none, none⟩ (.integer 5)] :=
    .literal (written '5' rfl) rfl
  have bracket := (Infix.between .bitXor four five rfl rfl).group
  obtain ⟨c, t, hpress, hfinish, hread, -⟩ := read_eq_finish
    (.between .pow two (.between .pow three bracket rfl rfl) rfl rfl) .radians
  refine ⟨c, t, hpress, hfinish, hread, ?_⟩
  obtain rfl : _ = c := Except.ok.inj hpress
  obtain rfl : _ = t := Except.ok.inj hfinish
  rfl

end Infix
end DeskCalculator
