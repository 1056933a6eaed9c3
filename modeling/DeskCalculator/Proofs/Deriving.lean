import DeskCalculator.Proofs.Wording
/-!
What the reader finds in words is derived by the grammar. Main statements:
`Phrase.derives_of_ofTokens?` says so of any words, and `Phrase.ofTokens?_eq_some_iff` that the
reader finds exactly the phrase derived with the words, if none of them is a name for a sign.
-/
namespace DeskCalculator
namespace Phrase

/-- The one name that is read like a sign. -/
def piName : Token := .name ['p', 'i']

/-- The rule that derives what stands before an operator of a rule. -/
def Rule.left : Rule → Rule
  | .power => .unary
  | rule => rule

/-- The rule that derives what stands after an operator of a rule. -/
def Rule.right : Rule → Rule
  | .power => .power
  | rule => rule.next

/-- A rule derives what has been read, with the words that have been read. -/
structure Reading.IsSound (rule : Rule) {ts : List Token} (r : Reading Phrase ts) : Prop where
  derives : rule.Derives r.value
  tokens_append : piName ∉ ts → r.value.tokens ++ r.rest = ts

structure Reading.AreSound {ts : List Token} (r : Reading (List Phrase) ts) : Prop where
  derives : ∀ a ∈ r.value, Rule.sum.Derives a
  nonempty : r.value ≠ []
  tokens_append : piName ∉ ts → tokensOfAll r.value ++ .closeParen :: r.rest = ts

variable {rule : Rule} {op : Operator} {ts us rest : List Token} {t : Token} {p : Phrase}
  {name : List Char}

namespace Reading

variable {left : Reading Phrase ts} {right : Reading Phrase rest}

namespace IsSound

theorem notMem_rest (h : left.IsSound rule) (hpi : piName ∉ ts) : piName ∉ left.rest :=
  fun hmem => hpi (h.tokens_append hpi ▸ List.mem_append_right _ hmem)

theorem next (h : left.IsSound rule.next) : left.IsSound rule := ⟨.next h.derives, h.tokens_append⟩

theorem left_of_next (h : left.IsSound rule.next) : left.IsSound rule.left := by
  cases rule with
  | power => exact h
  | sum | product | unary | suffixed | primary => exact h.next

theorem of_left (h : left.IsSound rule.left) : left.IsSound rule := by
  cases rule with
  | power =>
    have hbase : left.IsSound Rule.power.next := h
    exact hbase.next
  | sum | product | unary | suffixed | primary => exact h

theorem before (hop : Rule.unary.operator? t = some op) (h : right.IsSound .unary)
    (hlt : right.rest.length < (t :: rest).length) :
    (⟨.before op right.value, right.rest, hlt⟩ : Reading Phrase (t :: rest)).IsSound .unary := by
  obtain ⟨rfl, -⟩ := Rule.operator?_eq_some_iff.1 hop
  refine ⟨.before hop h.derives, fun hpi => ?_⟩
  have hmem : piName ∉ rest := fun hmem => hpi (List.mem_cons_of_mem _ hmem)
  rw [tokens_before, List.cons_append, h.tokens_append hmem]

theorem group (h : right.IsSound .sum) (hrest : right.rest = .closeParen :: us)
    (hlt : us.length < (Token.openParen :: rest).length) :
    (⟨.group right.value, us, hlt⟩ : Reading Phrase (.openParen :: rest)).IsSound .primary := by
  refine ⟨.group h.derives, fun hpi => ?_⟩
  have hwords := h.tokens_append fun hmem => hpi (List.mem_cons_of_mem _ hmem)
  rw [hrest] at hwords
  rw [tokens_group, List.cons_append, List.append_assoc, List.singleton_append, hwords]

theorem after (hop : Rule.suffixed.operator? t = some op) (h : left.IsSound .suffixed)
    (hrest : left.rest = t :: us) (hlt : us.length < ts.length) :
    (⟨.after op left.value, us, hlt⟩ : Reading Phrase ts).IsSound .suffixed := by
  obtain ⟨rfl, -⟩ := Rule.operator?_eq_some_iff.1 hop
  refine ⟨.after hop h.derives, fun hpi => ?_⟩
  have hwords := h.tokens_append hpi
  rw [hrest] at hwords
  rw [tokens_after, List.append_assoc, List.singleton_append, hwords]

theorem binary (hop : op.token = t)
    (hd : rule.left.Derives left.value → rule.right.Derives right.value →
      rule.Derives (.binary op left.value right.value))
    (h : left.IsSound rule.left) (hrest : left.rest = t :: rest) (hright : right.IsSound rule.right)
    (hlt : right.rest.length < ts.length) :
    (⟨.binary op left.value right.value, right.rest, hlt⟩ : Reading Phrase ts).IsSound rule := by
  refine ⟨hd h.derives hright.derives, fun hpi => ?_⟩
  have hmem := h.notMem_rest hpi
  have hwords := h.tokens_append hpi
  rw [hrest] at hmem hwords
  have hwordsRight := hright.tokens_append fun hr => hmem (List.mem_cons_of_mem _ hr)
  rw [tokens_binary, hop, List.append_assoc, List.cons_append, hwordsRight, hwords]

end IsSound

namespace AreSound

variable {args : Reading (List Phrase) us}

theorem call (h : args.AreSound)
    (hlt : args.rest.length < (Token.name name :: Token.openParen :: us).length) :
    (⟨.call name args.value, args.rest, hlt⟩ :
      Reading Phrase (.name name :: .openParen :: us)).IsSound .primary := by
  refine ⟨.call h.derives h.nonempty, fun hpi => ?_⟩
  have hmem : piName ∉ us := fun hmem =>
    hpi (List.mem_cons_of_mem _ (List.mem_cons_of_mem _ hmem))
  simp [h.tokens_append hmem]

theorem singleton (h : left.IsSound .sum) (hrest : left.rest = .closeParen :: us)
    (hlt : us.length < ts.length) :
    (⟨[left.value], us, hlt⟩ : Reading (List Phrase) ts).AreSound := by
  refine ⟨List.forall_mem_singleton.2 h.derives, by simp, fun hpi => ?_⟩
  have hwords := h.tokens_append hpi
  rw [hrest] at hwords
  exact hwords

theorem cons (h : left.IsSound .sum) (hrest : left.rest = .comma :: us) (hargs : args.AreSound)
    (hlt : args.rest.length < ts.length) :
    (⟨left.value :: args.value, args.rest, hlt⟩ : Reading (List Phrase) ts).AreSound := by
  refine ⟨List.forall_mem_cons.2 ⟨h.derives, hargs.derives⟩, by simp, fun hpi => ?_⟩
  have hmem := h.notMem_rest hpi
  have hwords := h.tokens_append hpi
  rw [hrest] at hmem hwords
  have hall := hargs.tokens_append fun hu => hmem (List.mem_cons_of_mem _ hu)
  rw [tokensOfAll_cons _ hargs.nonempty, List.append_assoc, List.cons_append, hall, hwords]

end AreSound
end Reading

theorem isSound_readConstant {r : Reading Phrase (.name name :: ts)}
    (h : readConstant name ts = some r) : r.IsSound .primary := by
  obtain ⟨op, hop, rfl⟩ := Option.map_eq_some_iff.1 h
  rw [constantOf?] at hop
  split at hop
  · rename_i hname
    obtain rfl := Option.some.inj hop
    exact ⟨.constant (.inl rfl), fun hpi => absurd (by simp [piName, hname]) hpi⟩
  · split at hop
    · rename_i hname
      obtain rfl := Option.some.inj hop
      exact ⟨.constant (.inr rfl), fun _ => by rw [hname]; rfl⟩
    · cases hop

theorem isSound_of_first (hunary : rule ≠ .unary) (hprimary : rule ≠ .primary)
    (hfirst : ∀ r, read rule.next ts = some r → r.IsSound rule.next)
    (hgoOn : ∀ first : Reading Phrase ts, rule ≠ .unary → first.IsSound rule.left →
      (goOn rule first).IsSound rule) :
    ∀ r, read rule ts = some r → r.IsSound rule := by
  intro r hr
  rw [Rule.read_eq_map hunary hprimary] at hr
  obtain ⟨first, hread, rfl⟩ := Option.map_eq_some_iff.1 hr
  exact hgoOn first hunary (hfirst first hread).left_of_next

theorem goOn_of_read_eq_none {l : Phrase} {h : (t :: rest).length < ts.length}
    (hsuffixed : rule ≠ .suffixed) (hop : rule.operator? t = some op)
    (hread : read rule.right rest = none) :
    goOn rule (⟨l, t :: rest, h⟩ : Reading Phrase ts) = ⟨l, t :: rest, h⟩ := by
  rw [goOn]
  cases rule with
  | suffixed => exact absurd rfl hsuffixed
  | sum | product | power | unary | primary =>
    simp only [Rule.right] at hread
    simp [hop, hread]

theorem Rule.eq_sum_or_product (hop : rule.operator? t = some op) (hunary : rule ≠ .unary)
    (hsuffixed : rule ≠ .suffixed) (hpower : rule ≠ .power) : rule = .sum ∨ rule = .product := by
  cases rule with
  | sum | product => simp
  | power => exact absurd rfl hpower
  | unary => exact absurd rfl hunary
  | suffixed => exact absurd rfl hsuffixed
  | primary => cases mem_words_of_operator? hop

theorem Rule.derives_binary (hrule : rule = .sum ∨ rule = .product)
    (hop : rule.operator? t = some op) {l r : Phrase} (hl : rule.left.Derives l)
    (hr : rule.right.Derives r) : rule.Derives (.binary op l r) := by
  obtain ⟨rfl, -⟩ := operator?_eq_some_iff.1 hop
  rcases hrule with rfl | rfl
  · exact .chain (.inl rfl) hop hl hr
  · exact .chain (.inr rfl) hop hl hr

theorem isSound_read :
    (∀ rule ts r, read rule ts = some r → r.IsSound rule) ∧
    (∀ ts r, readArguments ts = some r → r.AreSound) ∧
    ∀ rule ts (left : Reading Phrase ts), rule ≠ .unary → left.IsSound rule.left →
      (goOn rule left).IsSound rule := by
  apply read.mutual_induct
    (fun rule ts => ∀ r, read rule ts = some r → r.IsSound rule)
    (fun ts => ∀ r, readArguments ts = some r → r.AreSound)
    (fun rule ts left => rule ≠ .unary → left.IsSound rule.left →
      (goOn rule left).IsSound rule)
  -- rules that begin with an operand of the next one
  case _ => exact fun ts hgoOn hfirst => isSound_of_first (by simp) (by simp) hfirst hgoOn
  case _ => exact fun ts hgoOn hfirst => isSound_of_first (by simp) (by simp) hfirst hgoOn
  case _ => exact fun ts hgoOn hfirst => isSound_of_first (by simp) (by simp) hfirst hgoOn
  case _ => exact fun ts hgoOn hfirst => isSound_of_first (by simp) (by simp) hfirst hgoOn
  -- prefixed signs
  case _ =>
    intro r hr
    simp [read] at hr
  case _ =>
    intro t ts op hop ih r hr
    rw [read, hop] at hr
    obtain ⟨operand, hread, rfl⟩ := Option.map_eq_some_iff.1 hr
    exact .before hop (ih operand hread) _
  case _ =>
    intro t ts hop ih r hr
    rw [read, hop] at hr
    have hsuffixed : r.IsSound Rule.unary.next := ih r hr
    exact hsuffixed.next
  -- primary operands
  case _ =>
    intro n ts r hr
    rw [read] at hr
    obtain rfl := Option.some.inj hr
    exact ⟨.numeral n, fun _ => rfl⟩
  case _ =>
    intro kind ts r hr
    rw [read] at hr
    obtain rfl := Option.some.inj hr
    exact ⟨.failure kind, fun _ => rfl⟩
  case _ =>
    intro ts r hr
    rw [read] at hr
    obtain rfl := Option.some.inj hr
    exact ⟨.constant (.inl rfl), fun _ => rfl⟩
  case _ =>
    intro ts inner rest h hread ih r hr
    rw [read, hread] at hr
    obtain rfl := Option.some.inj hr
    exact .group (ih _ hread) rfl _
  case _ =>
    intro ts hnone _ r hr
    rw [read] at hr
    split at hr
    · rename_i inner rest h hread
      exact absurd hread (hnone inner rest h)
    · cases hr
  case _ =>
    intro name ts args hread ih r hr
    rw [read, hread] at hr
    obtain rfl := Option.some.inj hr
    exact (ih args hread).call _
  case _ =>
    intro name ts hread _ r hr
    rw [read, hread] at hr
    exact isSound_readConstant hr
  case _ =>
    intro name ts hparen r hr
    rw [read] at hr
    · exact isSound_readConstant hr
    · exact hparen
  case _ =>
    intro ts _ _ _ _ _ _ r hr
    rw [read] at hr
    · cases hr
    all_goals assumption
  -- arguments
  case _ =>
    intro ts a rest h hread ih ihArgs r hr
    rw [readArguments, hread] at hr
    obtain ⟨args, hrest, rfl⟩ := Option.map_eq_some_iff.1 hr
    exact .cons (ih _ hread) rfl (ihArgs args hrest) _
  case _ =>
    intro ts a rest h hread ih r hr
    rw [readArguments, hread] at hr
    obtain rfl := Option.some.inj hr
    exact .singleton (ih _ hread) rfl _
  case _ =>
    intro ts hcomma hparen _ r hr
    rw [readArguments] at hr
    split at hr
    · rename_i a rest h hread
      exact absurd hread (hcomma a rest h)
    · rename_i a rest h hread
      exact absurd hread (hparen a rest h)
    · cases hr
  -- no operator of the rule follows
  case _ =>
    intro rule ts left hrest _ hleft
    rw [Rule.goOn_eq_self (by simp [hrest])]
    exact hleft.of_left
  case _ =>
    intro rule ts left t rest hrest _ hop _ hleft
    rw [Rule.goOn_eq_self (by simp [hrest, hop])]
    exact hleft.of_left
  -- an operator of the rule follows
  case _ =>
    rintro ts ⟨l, us, hlt⟩ t rest rfl _ op hop ih hrule hleft
    rw [Rule.goOn_after hop]
    exact ih hrule (.after hop hleft rfl _)
  case _ =>
    rintro ts ⟨l, us, hlt⟩ t rest rfl _ op hread hop _ _ hleft
    rw [goOn_of_read_eq_none (by simp) hop hread]
    exact hleft.of_left
  case _ =>
    rintro ts ⟨l, us, hlt⟩ t rest rfl _ op right hread _ hop ih _ hleft
    obtain ⟨rfl, hpower⟩ := Rule.operator?_eq_some_iff.1 hop
    obtain rfl := Operator.eq_pow_of_phraseRule? hpower
    have hderives : Rule.power.left.Derives l → Rule.power.right.Derives right.value →
        Rule.power.Derives (.binary .pow l right.value) := .power
    rw [Rule.goOn_power (by simp [hop]) hread]
    exact .binary rfl hderives hleft rfl (ih right hread) _
  case _ =>
    rintro ts ⟨l, us, hlt⟩ t rest rfl _ rule op hsuffixed hpower hread hop _ hrule hleft
    have hchain := rule.eq_sum_or_product hop hrule hsuffixed hpower
    have hnone : read rule.right rest = none := by rcases hchain with rfl | rfl <;> exact hread
    rw [goOn_of_read_eq_none hsuffixed hop hnone]
    exact hleft.of_left
  case _ =>
    rintro ts ⟨l, us, hlt⟩ t rest rfl _ rule op hsuffixed hpower right hread hright hop ih ihgoOn
      hrule hleft
    have hchain := rule.eq_sum_or_product hop hrule hsuffixed hpower
    have hsound : right.IsSound rule.right := by
      rcases hchain with rfl | rfl <;> exact ih right hread
    have htoken := (Rule.operator?_eq_some_iff.1 hop).1
    have hboth := Reading.IsSound.binary htoken (Rule.derives_binary hchain hop) hleft rfl hsound
      (Nat.lt_trans hright hlt)
    rw [Rule.goOn_chain hchain hop hread]
    refine ihgoOn hrule ?_
    rcases hchain with rfl | rfl <;> exact hboth

theorem isSound_of_ofTokens? (h : ofTokens? ts = some p) :
    ∃ r : Reading Phrase ts, r.IsSound .sum ∧ r.value = p ∧ r.rest = [] := by
  rw [ofTokens?] at h
  split at h
  · rename_i q hlt hread
    obtain rfl := Option.some.inj h
    exact ⟨_, isSound_read.1 _ _ _ hread, rfl, rfl⟩
  · cases h

theorem derives_of_ofTokens? (h : ofTokens? ts = some p) : Rule.sum.Derives p := by
  obtain ⟨r, hr, rfl, -⟩ := isSound_of_ofTokens? h
  exact hr.derives

/-- Of words without the name of pi the reader finds exactly the phrase that the grammar derives and
that is written with them. -/
theorem ofTokens?_eq_some_iff (hpi : piName ∉ ts) :
    ofTokens? ts = some p ↔ Rule.sum.Derives p ∧ p.tokens = ts := by
  constructor
  · intro h
    obtain ⟨r, hr, rfl, hrest⟩ := isSound_of_ofTokens? h
    have hwords := hr.tokens_append hpi
    rw [hrest, List.append_nil] at hwords
    exact ⟨hr.derives, hwords⟩
  · rintro ⟨hp, rfl⟩
    exact ofTokens?_tokens hp

end Phrase
end DeskCalculator
