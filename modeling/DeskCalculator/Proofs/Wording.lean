import DeskCalculator.Proofs.Binding
/-!
Phrases with the words they are written with, and the rules that derive them. Main statements:
`Phrase.ofTokens?_tokens` reads a derived phrase back from its words, and
`Phrase.Rule.Derives.eq_of_tokens_eq` says that no other phrase is derived with the same words.
-/
namespace DeskCalculator
namespace Phrase

def constantToken (op : Operator) : Token :=
  if op = .pi then .piSign else .name op.symbol.toList

mutual

def tokens : Phrase → List Token
  | numeral n => [.numeral n]
  | failure kind => [.failure kind]
  | constant op => [constantToken op]
  | before op a => op.token :: a.tokens
  | after op a => a.tokens ++ [op.token]
  | binary op l r => l.tokens ++ op.token :: r.tokens
  | call name args => .name name :: .openParen :: (tokensOfAll args ++ [.closeParen])
  | group a => .openParen :: (a.tokens ++ [.closeParen])

def tokensOfAll : List Phrase → List Token
  | [] => []
  | [a] => a.tokens
  | a :: rest => a.tokens ++ .comma :: tokensOfAll rest

end

section tokens

variable (op : Operator) (p l r : Phrase) (name : List Char) {args : List Phrase}

@[simp] theorem tokens_numeral (n : Numeral) : (numeral n).tokens = [.numeral n] := rfl
@[simp] theorem tokens_failure (kind : ErrorKind) : (failure kind).tokens = [.failure kind] := rfl
@[simp] theorem tokens_before : (before op p).tokens = op.token :: p.tokens := rfl
@[simp] theorem tokens_after : (after op p).tokens = p.tokens ++ [op.token] := rfl
@[simp] theorem tokens_binary : (binary op l r).tokens = l.tokens ++ op.token :: r.tokens := rfl
@[simp] theorem tokens_group : (group p).tokens = .openParen :: (p.tokens ++ [.closeParen]) := rfl
@[simp] theorem tokens_call : (call name args).tokens =
    .name name :: .openParen :: (tokensOfAll args ++ [.closeParen]) := rfl

theorem tokensOfAll_singleton : tokensOfAll [p] = p.tokens := rfl

theorem tokensOfAll_cons (hargs : args ≠ []) :
    tokensOfAll (p :: args) = p.tokens ++ .comma :: tokensOfAll args := by
  cases args with
  | nil => exact absurd rfl hargs
  | cons q args => rfl

end tokens

/-- The phrases that a rule of the grammar derives. -/
inductive Rule.Derives : Rule → Phrase → Prop where
  | numeral (n : Numeral) : Derives .primary (.numeral n)
  | failure (kind : ErrorKind) : Derives .primary (.failure kind)
  | constant {op : Operator} (hop : op = .pi ∨ op = .e) : Derives .primary (.constant op)
  | call {name : List Char} {args : List Phrase} (hargs : ∀ a ∈ args, Derives .sum a)
      (hne : args ≠ []) : Derives .primary (.call name args)
  | group {a : Phrase} (ha : Derives .sum a) : Derives .primary (.group a)
  | after {op : Operator} {a : Phrase} (hop : Rule.suffixed.operator? op.token = some op)
      (ha : Derives .suffixed a) : Derives .suffixed (.after op a)
  | before {op : Operator} {a : Phrase} (hop : Rule.unary.operator? op.token = some op)
      (ha : Derives .unary a) : Derives .unary (.before op a)
  | power {l r : Phrase} (hl : Derives .unary l) (hr : Derives .power r) :
      Derives .power (.binary .pow l r)
  | chain {rule : Rule} {op : Operator} {l r : Phrase} (hrule : rule = .sum ∨ rule = .product)
      (hop : rule.operator? op.token = some op) (hl : Derives rule l) (hr : Derives rule.next r) :
      Derives rule (.binary op l r)
  | next {rule : Rule} {p : Phrase} (h : Derives rule.next p) : Derives rule p

namespace Rule

theorem level_injective {r s : Rule} (h : r.level = s.level) : r = s := by
  cases r <;> cases s <;> first | rfl | cases h

theorem sum_le (rule : Rule) : sum.level ≤ rule.level := by cases rule <;> decide

theorem exists_next_eq {rule : Rule} (h : sum.level < rule.level) :
    ∃ r : Rule, r.next = rule ∧ r.level + 1 = rule.level := by
  cases rule with
  | sum => exact absurd h (Nat.lt_irrefl _)
  | product => exact ⟨sum, rfl, rfl⟩
  | power => exact ⟨product, rfl, rfl⟩
  | unary => exact ⟨power, rfl, rfl⟩
  | suffixed => exact ⟨unary, rfl, rfl⟩
  | primary => exact ⟨suffixed, rfl, rfl⟩

theorem Derives.mono {rule s : Rule} {p : Phrase} (h : s.Derives p)
    (hlevel : rule.level ≤ s.level) : rule.Derives p := by
  obtain ⟨n, hn⟩ := Nat.exists_eq_add_of_le hlevel
  induction n generalizing s with
  | zero =>
    obtain rfl := level_injective hn
    exact h
  | succ n ih =>
    have hsum := rule.sum_le
    obtain ⟨r, rfl, hr⟩ := s.exists_next_eq (by omega)
    exact ih (.next h) (by omega) (by omega)

variable {rule : Rule} {op : Operator} {p a l r : Phrase} {args : List Phrase}
  {ts rest : List Token} {t : Token}

/-- Is a text over, or is the word that follows none that an operand of this level would go on
with? -/
def Ends (n : Nat) (rest : List Token) : Prop :=
  ∀ t ∈ rest.head?, t ≠ .openParen ∧
    ∀ rule : Rule, n ≤ rule.level → rule ≠ .unary → rule.operator? t = none

theorem Ends.mono {m n : Nat} (h : Ends m rest) (hmn : m ≤ n) : Ends n rest := fun t ht =>
  ⟨(h t ht).1, fun rule hrule => (h t ht).2 rule (Nat.le_trans hmn hrule)⟩

theorem goOn_eq_self {left : Reading Phrase ts}
    (h : ∀ t ∈ left.rest.head?, rule.operator? t = none) : goOn rule left = left := by
  rw [goOn]
  split
  · rfl
  · rename_i t rest hrest
    have ht := h t (by simp [hrest])
    simp [ht]

theorem goOn_after (hop : Rule.suffixed.operator? t = some op)
    (h : (t :: rest).length < ts.length) :
    goOn .suffixed ⟨a, t :: rest, h⟩ =
      goOn .suffixed (⟨.after op a, rest, Nat.lt_of_succ_lt h⟩ : Reading Phrase ts) := by
  rw [goOn]
  simp [hop]

theorem goOn_power {us : List Token} (ht : (Rule.power.operator? t).isSome)
    {h : (t :: us).length < ts.length} {hr : rest.length < us.length}
    (hread : read .power us = some ⟨r, rest, hr⟩) :
    goOn .power (⟨l, t :: us, h⟩ : Reading Phrase ts) =
      ⟨.binary .pow l r, rest, by simp only [List.length_cons] at h; omega⟩ := by
  obtain ⟨op, hop⟩ := Option.isSome_iff_exists.1 ht
  rw [goOn]
  simp [hop, hread]

theorem goOn_chain {us : List Token} (hrule : rule = .sum ∨ rule = .product)
    (hop : rule.operator? t = some op)
    {h : (t :: us).length < ts.length} {hr : rest.length < us.length}
    (hread : read rule.next us = some ⟨r, rest, hr⟩) :
    goOn rule (⟨l, t :: us, h⟩ : Reading Phrase ts) =
      goOn rule ⟨.binary op l r, rest, by simp only [List.length_cons] at h; omega⟩ := by
  rw [goOn]
  rcases hrule with rfl | rfl <;> simp [hop, hread]

/-- In the grammar a word has one place at most after an operand. -/
theorem mem_words_unique {r s : Rule} (hr : r ≠ .unary) (hs : s ≠ .unary) (htr : t ∈ r.words)
    (hts : t ∈ s.words) : r = s := by
  have htable : ∀ a ∈ all, ∀ b ∈ all, a ≠ .unary → b ≠ .unary →
      ∀ u ∈ a.words, u ∈ b.words → a = b := by
    decide
  exact htable r r.mem_all s s.mem_all hr hs t htr hts

theorem mem_words_of_operator? (h : rule.operator? t = some op) : t ∈ rule.words :=
  (Option.ite_none_right_eq_some.1 h).1

/-- What is read as the left operand of an operator ends before it. -/
theorem ends_operator (hrule : rule ≠ .unary) (ht : t ∈ rule.words) :
    Ends (rule.level + 1) (t :: rest) := by
  have hparen : ∀ r ∈ all, Token.openParen ∉ r.words := by decide
  rintro u ⟨⟩
  refine ⟨?_, fun s hlevel hs => if_neg fun hmem => ?_⟩
  · rintro rfl
    exact hparen rule rule.mem_all ht
  · obtain rfl := mem_words_unique hrule hs ht hmem
    omega

theorem ends_nil (n : Nat) : Ends n [] := by rintro t ⟨⟩

/-- Every operand ends before a comma and before the bracket that closes it. -/
theorem ends_separator (n : Nat) (ht : t = .comma ∨ t = .closeParen) : Ends n (t :: rest) := by
  have hwords : ∀ r ∈ all, Token.comma ∉ r.words ∧ Token.closeParen ∉ r.words := by decide
  rintro u ⟨⟩
  refine ⟨by rcases ht with rfl | rfl <;> simp, fun r _ _ => if_neg ?_⟩
  rcases ht with rfl | rfl
  · exact (hwords r r.mem_all).1
  · exact (hwords r r.mem_all).2

/-- From words a rule takes a phrase and leaves the rest. -/
def Takes (rule : Rule) (ts : List Token) (p : Phrase) (rest : List Token) : Prop :=
  ∃ h, read rule ts = some ⟨p, rest, h⟩

/-- From words a rule takes a phrase as its first operand and goes on with the rest. -/
def GoesOn (rule : Rule) (ts : List Token) (p : Phrase) (rest : List Token) : Prop :=
  ∃ h, read rule ts = some (goOn rule ⟨p, rest, h⟩)

/-- Do any number of operators follow the first operand of the rule? -/
def repeats : Rule → Bool
  | sum | product | suffixed => true
  | _ => false

/-- A rule takes a phrase from its words if no operator follows that it would go on with. Where the
rule goes on from operator to operator, one of its own may follow. -/
structure Reads (rule : Rule) (p : Phrase) : Prop where
  takes : ∀ rest, Ends rule.level rest → Takes rule (p.tokens ++ rest) p rest
  goesOn : rule.repeats → ∀ rest, Ends (rule.level + 1) rest → GoesOn rule (p.tokens ++ rest) p rest

theorem Reads.of_goesOn (hrule : rule ≠ .unary)
    (h : ∀ rest, Ends (rule.level + 1) rest → GoesOn rule (p.tokens ++ rest) p rest) :
    Reads rule p := by
  refine ⟨fun rest hrest => ?_, fun _ => h⟩
  obtain ⟨hlt, hread⟩ := h rest (hrest.mono (Nat.le_succ _))
  rw [goOn_eq_self fun t ht => (hrest t ht).2 rule (Nat.le_refl _) hrule] at hread
  exact ⟨hlt, hread⟩

theorem Reads.of_takes (hrule : rule.repeats = false)
    (h : ∀ rest, Ends rule.level rest → Takes rule (p.tokens ++ rest) p rest) : Reads rule p :=
  ⟨h, fun hrepeats => absurd hrepeats (by simp [hrule])⟩

theorem read_unary_of_suffixed {r : Reading Phrase ts} (h : read .suffixed ts = some r) :
    read .unary ts = some r := by
  cases ts with
  | nil => simp [read] at h
  | cons t ts =>
    cases hop : Rule.unary.operator? t with
    | none => rw [read, hop, h]
    | some op =>
      have ht := mem_words_of_operator? hop
      simp only [words, List.mem_cons, List.not_mem_nil, or_false] at ht
      rcases ht with rfl | rfl <;> simp [read] at h

/-- But for prefixed signs a rule begins with an operand of the next one. -/
theorem read_eq_map (hrule : rule ≠ .unary) (hprimary : rule ≠ .primary) (ts : List Token) :
    read rule ts = (read rule.next ts).map fun first => goOn rule first := by
  cases rule with
  | unary => exact absurd rfl hrule
  | primary => exact absurd rfl hprimary
  | sum | product | power | suffixed => simp only [read, Rule.next]

theorem Reads.next (h : Reads rule.next p) : Reads rule p := by
  cases rule with
  | sum | product | suffixed =>
    refine .of_goesOn (by simp) fun rest hrest => ?_
    obtain ⟨hlt, hread⟩ := h.takes rest hrest
    exact ⟨hlt, by rw [read_eq_map (by simp) (by simp), hread, Option.map_some]⟩
  | power =>
    refine .of_takes rfl fun rest hrest => ?_
    obtain ⟨hlt, hread⟩ := h.takes rest (hrest.mono (Nat.le_succ _))
    have hself : goOn .power (⟨p, rest, hlt⟩ : Reading Phrase (p.tokens ++ rest)) =
        ⟨p, rest, hlt⟩ :=
      goOn_eq_self fun t ht => (hrest t ht).2 .power (Nat.le_refl _) (by simp)
    exact ⟨hlt, by rw [read_eq_map (by simp) (by simp), hread, Option.map_some, hself]⟩
  | unary =>
    refine .of_takes rfl fun rest hrest => ?_
    obtain ⟨hlt, hread⟩ := h.takes rest (hrest.mono (Nat.le_succ _))
    exact ⟨hlt, read_unary_of_suffixed hread⟩
  | primary => exact h

theorem Reads.numeral (n : Numeral) : Reads .primary (.numeral n) := by
  refine .of_takes rfl fun rest _ => ?_
  rw [tokens_numeral, List.singleton_append]
  exact ⟨Nat.lt_succ_self _, by rw [read]⟩

theorem Reads.failure (kind : ErrorKind) : Reads .primary (.failure kind) := by
  refine .of_takes rfl fun rest _ => ?_
  rw [tokens_failure, List.singleton_append]
  exact ⟨Nat.lt_succ_self _, by rw [read]⟩

theorem Reads.constant (hop : op = .pi ∨ op = .e) : Reads .primary (.constant op) := by
  refine .of_takes rfl fun rest hrest => ?_
  rcases hop with rfl | rfl
  · have htokens : (Phrase.constant .pi).tokens ++ rest = .piSign :: rest := rfl
    rw [htokens]
    exact ⟨Nat.lt_succ_self _, by rw [read]⟩
  · have htokens : (Phrase.constant .e).tokens ++ rest = .name ['e'] :: rest := rfl
    rw [htokens]
    refine ⟨Nat.lt_succ_self _, ?_⟩
    have hparen : ∀ us, rest ≠ .openParen :: us := by
      rintro us rfl
      exact (hrest _ rfl).1 rfl
    rw [read]
    · rfl
    · exact hparen

theorem readArguments_tokensOfAll (rest : List Token) (hargs : ∀ a ∈ args, Reads .sum a)
    (hne : args ≠ []) :
    ∃ h, readArguments (tokensOfAll args ++ .closeParen :: rest) = some ⟨args, rest, h⟩ := by
  induction args with
  | nil => exact absurd rfl hne
  | cons a args ih =>
    have ha := (hargs a (by simp)).takes
    cases args with
    | nil =>
      obtain ⟨hlt, hread⟩ := ha (.closeParen :: rest) (ends_separator _ (.inr rfl))
      rw [tokensOfAll_singleton, readArguments, hread]
      exact ⟨_, rfl⟩
    | cons b args =>
      obtain ⟨hlt', hrest⟩ := ih (fun c hc => hargs c (List.mem_cons_of_mem _ hc)) (by simp)
      obtain ⟨hlt, hread⟩ := ha (.comma :: (tokensOfAll (b :: args) ++ .closeParen :: rest))
        (ends_separator _ (.inl rfl))
      rw [tokensOfAll_cons a (by simp), List.append_assoc, List.cons_append, readArguments, hread]
      simp only [hrest]
      exact ⟨Nat.lt_trans hlt' (Nat.lt_of_succ_lt hlt), rfl⟩

theorem Reads.call {name : List Char} (hargs : ∀ a ∈ args, Reads .sum a) (hne : args ≠ []) :
    Reads .primary (.call name args) := by
  refine .of_takes rfl fun rest _ => ?_
  obtain ⟨hlt, hread⟩ := readArguments_tokensOfAll rest hargs hne
  rw [tokens_call]
  simp only [List.cons_append, List.append_assoc, List.nil_append]
  exact ⟨_, by rw [read, hread]⟩

theorem Reads.group (ha : Reads .sum a) : Reads .primary (.group a) := by
  refine .of_takes rfl fun rest _ => ?_
  obtain ⟨hlt, hread⟩ := ha.takes (.closeParen :: rest) (ends_separator _ (.inr rfl))
  rw [tokens_group]
  simp only [List.cons_append, List.append_assoc, List.nil_append]
  exact ⟨_, by rw [read, hread]⟩

theorem Reads.after (hop : Rule.suffixed.operator? op.token = some op) (ha : Reads .suffixed a) :
    Reads .suffixed (.after op a) := by
  refine .of_goesOn (by simp) fun rest _ => ?_
  have hends : Ends (Rule.suffixed.level + 1) (op.token :: rest) :=
    ends_operator (by simp) (mem_words_of_operator? hop)
  obtain ⟨hlt, hread⟩ := ha.goesOn rfl (op.token :: rest) hends
  rw [tokens_after, List.append_assoc, List.singleton_append]
  exact ⟨_, by rw [hread, goOn_after hop]⟩

theorem Reads.before (hop : Rule.unary.operator? op.token = some op) (ha : Reads .unary a) :
    Reads .unary (.before op a) := by
  refine .of_takes rfl fun rest hrest => ?_
  obtain ⟨hlt, hread⟩ := ha.takes rest hrest
  rw [tokens_before, List.cons_append]
  exact ⟨_, by rw [read, hop, hread]; rfl⟩

theorem Reads.power (hl : Reads .unary l) (hr : Reads .power r) :
    Reads .power (.binary .pow l r) := by
  refine .of_takes rfl fun rest hrest => ?_
  have hpow : (Rule.power.operator? Operator.pow.token).isSome := by decide
  have hends (us : List Token) : Ends Rule.unary.level (Operator.pow.token :: us) :=
    ends_operator (by simp : Rule.power ≠ .unary) (by decide)
  obtain ⟨hltr, hreadr⟩ := hr.takes rest hrest
  obtain ⟨hltl, hreadl⟩ := hl.takes (Operator.pow.token :: (r.tokens ++ rest)) (hends _)
  rw [tokens_binary, List.append_assoc, List.cons_append]
  exact ⟨_, by rw [read, hreadl, Option.map_some, goOn_power hpow hreadr]⟩

theorem Reads.chain (hrule : rule = .sum ∨ rule = .product)
    (hop : rule.operator? op.token = some op) (hl : Reads rule l) (hr : Reads rule.next r) :
    Reads rule (.binary op l r) := by
  have hunary : rule ≠ .unary := by rcases hrule with rfl | rfl <;> simp
  have hrepeats : rule.repeats := by rcases hrule with rfl | rfl <;> rfl
  have hnext : rule.next.level = rule.level + 1 := by rcases hrule with rfl | rfl <;> rfl
  refine .of_goesOn hunary fun rest hrest => ?_
  obtain ⟨hltr, hreadr⟩ := hr.takes rest (hnext ▸ hrest)
  obtain ⟨hltl, hreadl⟩ := hl.goesOn hrepeats (op.token :: (r.tokens ++ rest))
    (ends_operator hunary (mem_words_of_operator? hop))
  rw [tokens_binary, List.append_assoc, List.cons_append]
  exact ⟨_, by rw [hreadl, goOn_chain hrule hop hreadr]⟩

theorem Derives.reads (h : Derives rule p) : Reads rule p := by
  induction h with
  | numeral n => exact .numeral n
  | failure kind => exact .failure kind
  | constant hop => exact .constant hop
  | call _ hne ih => exact .call ih hne
  | group _ ih => exact .group ih
  | after hop _ ih => exact .after hop ih
  | before hop _ ih => exact .before hop ih
  | power _ _ ihl ihr => exact .power ihl ihr
  | chain hrule hop _ _ ihl ihr => exact .chain hrule hop ihl ihr
  | next _ ih => exact ih.next

end Rule

theorem ofTokens?_tokens {p : Phrase} (h : Rule.sum.Derives p) : ofTokens? p.tokens = some p := by
  have htakes := h.reads.takes [] (Rule.ends_nil _)
  rw [List.append_nil] at htakes
  obtain ⟨hlt, hread⟩ := htakes
  rw [ofTokens?, hread]

theorem Rule.Derives.eq_of_tokens_eq {p q : Phrase} (hp : Rule.sum.Derives p)
    (hq : Rule.sum.Derives q) (h : p.tokens = q.tokens) : p = q := by
  have hread := ofTokens?_tokens hp
  rw [h, ofTokens?_tokens hq] at hread
  exact (Option.some.inj hread).symm

/-- Is a phrase derived by a rule of at least this level? -/
def BindsAt (n : Nat) (p : Phrase) : Prop := ∃ rule : Rule, n ≤ rule.level ∧ rule.Derives p

namespace BindsAt

variable {m n : Nat} {op : Operator} {p a l r : Phrase}

theorem mono (h : p.BindsAt n) (hmn : m ≤ n) : p.BindsAt m := by
  obtain ⟨rule, hlevel, hp⟩ := h
  exact ⟨rule, Nat.le_trans hmn hlevel, hp⟩

theorem of_primary (h : Rule.primary.Derives p) (precedence : Precedence) :
    p.BindsAt precedence.level :=
  ⟨.primary, by cases precedence <;> decide, h⟩

theorem derives {rule : Rule} (h : p.BindsAt rule.level) : rule.Derives p := by
  obtain ⟨s, hlevel, hp⟩ := h
  exact hp.mono hlevel

theorem sum (h : p.BindsAt n) : Rule.sum.Derives p := by
  obtain ⟨s, -, hp⟩ := h
  exact hp.mono s.sum_le

theorem before (hop : op.rule = .before) (ha : a.BindsAt Precedence.function.level) :
    (before op a).BindsAt Precedence.function.level := by
  have hword : Rule.unary.operator? op.token = some op :=
    Rule.operator?_eq_some_iff.2 ⟨rfl, by simp [Operator.phraseRule?, hop]⟩
  have hunary : Rule.unary.Derives a := derives ha
  exact ⟨.unary, Nat.le_refl _, .before hword hunary⟩

theorem after (hop : op.rule = .after) (ha : a.BindsAt Precedence.value.level) :
    (after op a).BindsAt Precedence.value.level := by
  have hword : Rule.suffixed.operator? op.token = some op :=
    Rule.operator?_eq_some_iff.2 ⟨rfl, by simp [Operator.phraseRule?, hop]⟩
  have hsuffixed : Rule.suffixed.Derives a := derives ha
  exact ⟨.suffixed, Nat.le_refl _, .after hword hsuffixed⟩

/-- The operands that the registry asks for are those of the rule. -/
theorem binary (hop : op.rule = .binary) (hl : l.BindsAt op.leftLevel)
    (hr : r.BindsAt op.rightLevel) : (binary op l r).BindsAt op.level := by
  obtain ⟨rule, hrule, hcases⟩ := Operator.exists_phraseRule?_of_binary hop
  have hword : rule.operator? op.token = some op := Rule.operator?_eq_some_iff.2 ⟨rfl, hrule⟩
  rw [← or_assoc] at hcases
  rcases hcases with hchain | rfl
  · obtain ⟨hlevel, hleft, hright⟩ := Operator.levels_of_sum_or_product hrule hchain
    rw [hleft] at hl
    rw [hright] at hr
    exact ⟨rule, Nat.le_of_eq hlevel, .chain hchain hword hl.derives hr.derives⟩
  · obtain rfl := Operator.eq_pow_of_phraseRule? hrule
    have hunary : Rule.unary.Derives l := derives hl
    have hpower : Rule.power.Derives r := derives hr
    exact ⟨.power, Nat.le_refl _, .power hunary hpower⟩

end BindsAt

end Phrase
end DeskCalculator
