import DeskCalculator.Expression.Token
import DeskCalculator.Operator
/-!
Expressions as they are written, and the grammar that reads them. The grammar has lists of its own
of the words that stand between, before and after operands, and nests them by its rules; only which
operator such a word names is looked up.
-/
namespace DeskCalculator

inductive Phrase where
  | numeral (n : Numeral)
  | failure (kind : ErrorKind)
  | constant (op : Operator)
  | before (op : Operator) (operand : Phrase)
  | after (op : Operator) (operand : Phrase)
  | binary (op : Operator) (left right : Phrase)
  | call (name : List Char) (args : List Phrase)
  | group (inner : Phrase)

namespace Phrase

/-- The rules of the grammar, from the loosest to the tightest:

    sum      = product (additive product)*
    product  = power (multiplicative power)*
    power    = unary ("^" power)?
    unary    = sign* suffixed
    suffixed = primary suffix*
    primary  = message | numeral | call | constant | group
    call     = name "(" sum ("," sum)* ")"
    group    = "(" sum ")" -/
inductive Rule where
  | sum
  | product
  | power
  | unary
  | suffixed
  | primary
deriving DecidableEq, Repr

namespace Rule

/-- The words of the operators of a rule. That `×` and `÷` mean `*` and `/` is settled before. -/
def words : Rule → List Token
  | sum => [.sign "+", .sign "-", .sign "|", .name ['x', 'o', 'r']]
  | product => [.sign "*", .sign "/", .sign "&", .sign "<<", .sign ">>"]
  | power => [.sign "^"]
  | unary => [.sign "-", .sign "~"]
  | suffixed => [.sign "%", .sign "!"]
  | primary => []

def placement : Rule → Placement
  | unary => .before
  | suffixed => .after
  | _ => .between

def operator? (rule : Rule) (token : Token) : Option Operator :=
  if token ∈ rule.words then Operator.ofSymbol? rule.placement token.symbol else none

/-- The rule that a rule begins with. -/
def next : Rule → Rule
  | sum => product
  | product => power
  | power => unary
  | unary => suffixed
  | _ => primary

def level : Rule → Nat
  | sum => 1
  | product => 2
  | power => 3
  | unary => 4
  | suffixed => 5
  | primary => 6

end Rule

/-- What has been read from the start of a list of words, and the words after it. -/
structure Reading (α : Type) (ts : List Token) where
  value : α
  rest : List Token
  shorter : rest.length < ts.length

def constantOf? (name : List Char) : Option Operator :=
  if name = ['p', 'i'] then some .pi else if name = ['e'] then some .e else none

def readConstant (name : List Char) (ts : List Token) :
    Option (Reading Phrase (.name name :: ts)) :=
  (constantOf? name).map fun op => ⟨constant op, ts, Nat.lt_succ_self _⟩

mutual

/-- Reads by a rule as much as it takes of the words. -/
def read (rule : Rule) (ts : List Token) : Option (Reading Phrase ts) :=
  match rule, ts with
  | .sum, ts => (read .product ts).map fun first => goOn .sum first
  | .product, ts => (read .power ts).map fun first => goOn .product first
  | .power, ts => (read .unary ts).map fun base => goOn .power base
  | .suffixed, ts => (read .primary ts).map fun operand => goOn .suffixed operand
  | .unary, [] => none
  | .unary, t :: ts =>
    match Rule.unary.operator? t with
    | some op => (read .unary ts).map fun r =>
      ⟨before op r.value, r.rest, Nat.lt_succ_of_lt r.shorter⟩
    | none => read .suffixed (t :: ts)
  | .primary, .numeral n :: ts => some ⟨numeral n, ts, Nat.lt_succ_self _⟩
  | .primary, .failure kind :: ts => some ⟨failure kind, ts, Nat.lt_succ_self _⟩
  | .primary, .piSign :: ts => some ⟨constant .pi, ts, Nat.lt_succ_self _⟩
  | .primary, .openParen :: ts =>
    match read .sum ts with
    | some ⟨inner, .closeParen :: rest, h⟩ =>
      some ⟨group inner, rest, Nat.lt_succ_of_lt (Nat.lt_of_succ_lt h)⟩
    | _ => none
  | .primary, .name n :: .openParen :: ts =>
    match readArguments ts with
    | some args =>
      some ⟨call n args.value, args.rest, Nat.lt_succ_of_lt (Nat.lt_succ_of_lt args.shorter)⟩
    | none => readConstant n (.openParen :: ts)
  | .primary, .name n :: ts => readConstant n ts
  | .primary, _ => none
termination_by (ts.length, 6 - rule.level)
decreasing_by
  all_goals first
    | exact .right _ (by decide)
    | exact .left _ _ (Reading.shorter _)
    | exact .left _ _ (by simp only [List.length_cons]; omega)

/-- Goes on after the first operand of a rule, as long as an operator of the rule follows, and its
other operand. -/
def goOn (rule : Rule) {ts : List Token} (left : Reading Phrase ts) : Reading Phrase ts :=
  match h : left.rest with
  | [] => left
  | t :: rest =>
    have hrest : rest.length < left.rest.length := h ▸ Nat.lt_succ_self _
    match rule, rule.operator? t with
    | _, none => left
    | .suffixed, some op =>
      goOn .suffixed ⟨after op left.value, rest, Nat.lt_trans hrest left.shorter⟩
    | .power, some _ =>
      match read .power rest with
      | none => left
      | some right =>
        have hright := Nat.lt_trans right.shorter hrest
        ⟨binary .pow left.value right.value, right.rest, Nat.lt_trans hright left.shorter⟩
    | rule, some op =>
      match read rule.next rest with
      | none => left
      | some right =>
        have hright := Nat.lt_trans right.shorter hrest
        goOn rule ⟨binary op left.value right.value, right.rest, Nat.lt_trans hright left.shorter⟩
termination_by (left.rest.length, 6)
decreasing_by
  all_goals exact .left _ _ ‹_›

/-- Reads arguments and the bracket that closes them. -/
def readArguments (ts : List Token) : Option (Reading (List Phrase) ts) :=
  match read .sum ts with
  | some ⟨a, .comma :: rest, h⟩ =>
    (readArguments rest).map fun args =>
      ⟨a :: args.value, args.rest, Nat.lt_trans args.shorter (Nat.lt_of_succ_lt h)⟩
  | some ⟨a, .closeParen :: rest, h⟩ => some ⟨[a], rest, Nat.lt_of_succ_lt h⟩
  | _ => none
termination_by (ts.length, 6)
decreasing_by
  · exact .right _ (by decide)
  · exact .left _ _ (Nat.lt_of_succ_lt h)

end

def ofTokens? (tokens : List Token) : Option Phrase :=
  match read .sum tokens with
  | some ⟨p, [], _⟩ => some p
  | _ => none

def ofChars? (cs : List Char) : Option Phrase := (Token.scanAll cs).bind ofTokens?

end Phrase
end DeskCalculator
