import DeskCalculator.Proofs.Literal
import DeskCalculator.Proofs.Tree
import DeskCalculator.Proofs.Wording
/-!
The printed form of a tree as the words of a phrase. Main statements: `Printable.spelling` says that
the words of the phrase spell the printed form, and `Printable.bindsAt` that the grammar derives the
phrase, at the level of the tree.
-/
namespace DeskCalculator

namespace Phrase

def groupIf (wrap : Bool) (p : Phrase) : Phrase := if wrap then .group p else p

variable {p : Phrase} {wrap : Bool}

theorem BindsAt.groupIf {n : Nat} (hp : Rule.sum.Derives p) (hn : n ≤ Rule.primary.level)
    (h : wrap = false → p.BindsAt n) : (p.groupIf wrap).BindsAt n := by
  cases wrap with
  | false => exact h rfl
  | true => exact ⟨.primary, hn, .group hp⟩

theorem spelling_groupIf (wrap : Bool) {cs : List Char} (h : Token.Spelling cs p.tokens) :
    Token.Spelling (Tree.parenthesizeIf wrap cs) (p.groupIf wrap).tokens := by
  cases wrap with
  | false => exact h
  | true => exact h.paren

end Phrase

/-- The phrase of a literal: before the numeral of a negative one stands a minus. -/
def Literal.phrase (v : Value) : Phrase :=
  match v.errorKind? with
  | some kind => .failure kind
  | none => if v.isNegative then .before .negate (.numeral (numeral v)) else .numeral (numeral v)

namespace Tree

mutual

def phrase : Tree → Phrase
  | number v => Literal.phrase v
  | constant name _ => .constant (if name = Operator.pi.symbol then .pi else .e)
  | before op a => .before op (a.phrase.groupIf (a.precedence < .function))
  | after op a => .after op (a.phrase.groupIf (a.precedence < .value))
  | binary op l r =>
    .binary op (l.phrase.groupIf (wrapsLeft op l)) (r.phrase.groupIf (wrapsRight op r))
  | call name args => .call name.toList (phrases args)
  | paren a => .group a.phrase

def phrases : List Tree → List Phrase
  | [] => []
  | a :: rest => a.phrase :: phrases rest

end

theorem phrases_eq_nil {args : List Tree} (h : phrases args = []) : args = [] := by
  cases args with
  | nil => rfl
  | cons a args => cases h

theorem mem_phrases {args : List Tree} {p : Phrase} (h : p ∈ phrases args) :
    ∃ a ∈ args, a.phrase = p := by
  induction args with
  | nil => simp [phrases] at h
  | cons a args ih =>
    rw [phrases] at h
    rcases List.mem_cons.1 h with rfl | h
    · exact ⟨a, by simp, rfl⟩
    · obtain ⟨b, hb, hp⟩ := ih h
      exact ⟨b, List.mem_cons_of_mem _ hb, hp⟩

/-- The trees that have a printed form of their own. Only `negate` and `bitNot` stand before their
operand, only `percent` and `factorial` after it; a call keeps its name under the angle unit. -/
inductive Printable (mode : Mode) (angle : AngleUnit) : Tree → Prop where
  | number {v : Value} (hv : v.IsLiteral mode.domain) : Printable mode angle (.number v)
  | constant {op : Operator} {t : Tree} (hop : op = .pi ∨ op = .e)
      (ht : build op [] mode angle = .ok t) : Printable mode angle t
  | before {op : Operator} {a : Tree} (hop : op.rule = .before) (ha : Printable mode angle a) :
      Printable mode angle (.before op a)
  | after {op : Operator} {a : Tree} (hop : op.rule = .after) (ha : Printable mode angle a) :
      Printable mode angle (.after op a)
  | binary {op : Operator} {l r : Tree} (hop : op.rule = .binary) (hl : Printable mode angle l)
      (hr : Printable mode angle r) : Printable mode angle (.binary op l r)
  | call {name : String} {args : List Tree} (hname : (Operator.ofFunction? name).isSome)
      (hangle : Operator.functionName name angle = name)
      (hargs : ∀ a ∈ args, Printable mode angle a) (hne : args ≠ []) :
      Printable mode angle (.call name args)
  | paren {a : Tree} (ha : Printable mode angle a) : Printable mode angle (.paren a)

end Tree

namespace Operator

def functionNames (op : Operator) : List String :=
  match op.rule with
  | .function n | .binaryFunction n => [n]
  | .angleFunction radians degrees => [radians, degrees]
  | _ => []

theorem mem_functionNames_of_ofFunction? {name : String} (h : (ofFunction? name).isSome) :
    ∃ op : Operator, name ∈ op.functionNames := by
  obtain ⟨op, hop⟩ := Option.isSome_iff_exists.1 h
  have hname := List.find?_some hop
  refine ⟨op, ?_⟩
  rw [functionNames]
  cases hrule : op.rule <;> rw [hrule] at hname
  case function n | binaryFunction n => exact List.mem_singleton.2 (beq_iff_eq.1 hname).symm
  case angleFunction radians degrees =>
    simp only [Bool.or_eq_true, beq_iff_eq] at hname
    simpa only [List.mem_cons, List.not_mem_nil, or_false, eq_comm (a := name)] using hname
  all_goals cases hname

theorem isName_of_ofFunction? {name : String} (h : (ofFunction? name).isSome) :
    Token.IsName name.toList := by
  have htable : ∀ op ∈ all, ∀ n ∈ op.functionNames, Token.IsName n.toList := by decide
  obtain ⟨op, hop⟩ := mem_functionNames_of_ofFunction? h
  exact htable op op.mem_all name hop

end Operator

namespace Literal

theorem spelling_message (kind : ErrorKind) :
    Token.Spelling kind.message.toList [.failure kind] := by
  refine .word ?_ fun _ hrest => Token.scan?_message kind hrest
  cases kind <;> decide

theorem spelling {d : Domain} {v : Value} (hv : v.IsLiteral d) :
    Token.Spelling (chars v) (phrase v).tokens := by
  cases hkind : v.errorKind? with
  | some kind =>
    have hchars : chars v = kind.message.toList := by
      cases v with
      | error k =>
        obtain rfl := Option.some.inj hkind
        rfl
      | double x | integer i => cases hkind
    simpa [phrase, hkind, hchars] using spelling_message kind
  | none =>
    rw [chars_eq hv (by simp [Value.isError, hkind])]
    cases hn : v.isNegative with
    | false => simpa [phrase, hkind, hn] using (written_numeral v).spelling
    | true =>
      have hsign : Token.Spelling ('-' :: (numeral v).chars)
          [Operator.negate.token, .numeral (numeral v)] :=
        Token.Spelling.symbol_append .negate rfl (by decide) (written_numeral v).spelling
      simpa [phrase, hkind, hn] using hsign

theorem bindsAt_phrase (v : Value) : (phrase v).BindsAt (Tree.number v).precedence.level := by
  simp only [phrase]
  split
  · exact .of_primary (.failure _) _
  · split
    · rename_i hneg
      have hnumeral := Phrase.BindsAt.of_primary (.numeral (numeral v)) .function
      rw [Tree.precedence, if_pos hneg]
      exact .before rfl hnumeral
    · exact .of_primary (.numeral _) _

end Literal

namespace Tree

variable {mode : Mode} {angle : AngleUnit} {t : Tree} {op : Operator}

theorem eq_constantTree (hop : op = .pi ∨ op = .e) (ht : build op [] mode angle = .ok t) :
    t = Phrase.constantTree mode op := by
  rcases hop with rfl | rfl <;> exact (Except.ok.inj ht).symm

theorem phrase_constantTree (hop : op = .pi ∨ op = .e) :
    (Phrase.constantTree mode op).phrase = .constant op := by
  rcases hop with rfl | rfl <;> rfl

theorem spelling_constant (hop : op = .pi ∨ op = .e) :
    Token.Spelling (Phrase.constantTree mode op).chars [Phrase.constantToken op] := by
  rcases hop with rfl | rfl
  · have hstart : Token.StartsWord ['π'] := by decide
    exact .word hstart fun _ hrest => Token.scan?_piSign hrest
  · have hname : Token.IsName ['e'] := by decide
    have hstart : Token.StartsWord ['e'] := by decide
    exact .word hstart fun _ hrest => Token.scan?_name hname hrest

theorem spelling_args {args : List Tree}
    (hargs : ∀ a ∈ args, Token.Spelling a.chars a.phrase.tokens) :
    Token.Spelling (charsOfAll args) (Phrase.tokensOfAll (phrases args)) := by
  induction args with
  | nil => exact .nil
  | cons a args ih =>
    have ha := hargs a (by simp)
    have hrest := ih fun b hb => hargs b (List.mem_cons_of_mem _ hb)
    cases args with
    | nil => exact ha
    | cons b args =>
      have hends : Token.EndsWord (',' :: ' ' :: charsOfAll (b :: args)) :=
        (Token.endsWord_cons _ _).2 (by decide)
      exact ha.append hrest.blank.comma hends

theorem spelling_call {name : String} {args : List Tree} (hname : Token.IsName name.toList)
    (hargs : ∀ a ∈ args, Token.Spelling a.chars a.phrase.tokens) :
    Token.Spelling (call name args).chars (call name args).phrase.tokens := by
  have hword : Token.Spelling name.toList [.name name.toList] := by
    refine .word ?_ fun _ hrest => Token.scan?_name hname hrest
    obtain ⟨c, hc, hlower⟩ := hname.start
    exact ⟨c, hc, Token.isBlank_eq_false (.inr (.inr hlower))⟩
  have hends : Token.EndsWord ('(' :: charsOfAll args ++ [')']) :=
    (Token.endsWord_cons _ _).2 (by decide)
  have happend := hword.append (spelling_args hargs).paren hends
  simpa [chars, phrase] using happend

theorem Printable.spelling (h : t.Printable mode angle) :
    Token.Spelling t.chars t.phrase.tokens := by
  induction h with
  | number hv => exact Literal.spelling hv
  | constant hop ht =>
    rw [eq_constantTree hop ht, phrase_constantTree hop]
    exact spelling_constant hop
  | @before op a hop ha ih =>
    have hsign : op.hasSign := by simp [Operator.hasSign, hop]
    have hxor : op ≠ .bitXor := by
      rintro rfl
      cases hop
    exact Token.Spelling.symbol_append op hsign hxor (Phrase.spelling_groupIf _ ih)
  | @after op a hop ha ih =>
    have hsign : op.hasSign := by simp [Operator.hasSign, hop]
    have htable : ∀ o ∈ Operator.all, o.rule = .after → Token.EndsWord o.symbol.toList := by
      decide
    have hends : Token.EndsWord op.symbol.toList := htable op op.mem_all hop
    exact (Phrase.spelling_groupIf _ ih).append (Token.Spelling.symbol op hsign) hends
  | @binary op l r hop hl hr ihl ihr =>
    have hsign : op.hasSign := by simp [Operator.hasSign, hop]
    have hends (cs : List Char) : Token.EndsWord (' ' :: cs) :=
      (Token.endsWord_cons _ _).2 (by decide)
    have hsymbol := (Token.Spelling.symbol op hsign).blank
    have hleft := (Phrase.spelling_groupIf (wrapsLeft op l) ihl).append hsymbol (hends _)
    have hright := (Phrase.spelling_groupIf (wrapsRight op r) ihr).blank
    have happend := hleft.append hright (hends _)
    rw [List.append_assoc _ [op.token]] at happend
    exact happend
  | call hname _ _ _ ih => exact spelling_call (Operator.isName_of_ofFunction? hname) ih
  | paren _ ih => exact ih.paren

theorem Printable.bindsAt (h : t.Printable mode angle) : t.phrase.BindsAt t.precedence.level := by
  induction h with
  | number hv => exact Literal.bindsAt_phrase _
  | constant hop ht =>
    rw [eq_constantTree hop ht, phrase_constantTree hop]
    exact .of_primary (.constant hop) _
  | @before op a hop ha ih =>
    refine .before hop (.groupIf ih.sum (by decide) fun hwrap => ih.mono ?_)
    exact Nat.not_lt.1 (of_decide_eq_false hwrap)
  | @after op a hop ha ih =>
    have hafter : (Tree.after op a).phrase.BindsAt Precedence.value.level := by
      refine .after hop (.groupIf ih.sum (by decide) fun hwrap => ih.mono ?_)
      exact Nat.not_lt.1 (of_decide_eq_false hwrap)
    exact hafter.mono (by decide : Precedence.function.level ≤ Precedence.value.level)
  | @binary op l r hop hl hr ihl ihr =>
    obtain ⟨hleft, hright⟩ := Operator.operandLevels_of_binary hop
    refine .binary hop (.groupIf ihl.sum (Nat.le_succ_of_le hleft) fun hwrap => ihl.mono ?_)
      (.groupIf ihr.sum (Nat.le_succ_of_le hright) fun hwrap => ihr.mono ?_)
    · exact Operator.wrapsLeft_eq_false_iff.1 hwrap
    · exact Operator.wrapsRight_eq_false_iff.1 hwrap
  | call _ _ _ hne ih =>
    refine .of_primary (.call (fun p hp => ?_) (mt phrases_eq_nil hne)) _
    obtain ⟨a, ha, rfl⟩ := mem_phrases hp
    exact (ih a ha).sum
  | paren _ ih => exact .of_primary (.group ih.sum) _

end Tree

end DeskCalculator
