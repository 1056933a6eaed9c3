import DeskCalculator.Value
import DeskCalculator.Decimal.Numeral
/-!
The words of a written expression: numerals, names, signs, brackets, and the messages of failed
results. Blanks between words are skipped.
-/
namespace DeskCalculator

inductive Token where
  | numeral (n : Numeral)
  | name (text : List Char)
  | failure (kind : ErrorKind)
  | piSign
  | sign (text : String)
  | openParen
  | closeParen
  | comma
deriving DecidableEq, Repr

namespace Token

/-- The symbol that a word would be of an operator. -/
def symbol : Token → String
  | sign s => s
  | name text => String.ofList text
  | _ => ""

def isBlank (c : Char) : Bool := c == ' ' || c == '\t' || c == '\r' || c == '\n'

def isNameStart (c : Char) : Bool := c.isAlpha

def isNamePart (c : Char) : Bool := c.isAlphanum || c == '_'

def signs : List Char := ['+', '-', '|', '*', '/', '&', '^', '~', '%', '!']

def endsName : List Char → Bool
  | c :: _ => !isNamePart c
  | [] => true

/-- The error whose message stands at the start of a text, with what follows it. -/
def scanFailure? (cs : List Char) : Option (ErrorKind × List Char) :=
  [ErrorKind.divideByZero, .overflow, .underflow, .unknown].findSome? fun kind =>
    let message := kind.message.toList
    if message.isPrefixOf cs ∧ endsName (cs.drop message.length) then
      some (kind, cs.drop message.length)
    else none

def scanName? : List Char → Option (List Char × List Char)
  | c :: rest =>
    if isNameStart c then some (c :: rest.takeWhile isNamePart, rest.dropWhile isNamePart)
    else none
  | [] => none

def scanSign? : List Char → Option (Token × List Char)
  | '(' :: rest => some (openParen, rest)
  | ')' :: rest => some (closeParen, rest)
  | ',' :: rest => some (comma, rest)
  | '<' :: '<' :: rest => some (sign "<<", rest)
  | '>' :: '>' :: rest => some (sign ">>", rest)
  | '×' :: rest => some (sign "*", rest)
  | '÷' :: rest => some (sign "/", rest)
  | 'π' :: rest => if endsName rest then some (piSign, rest) else none
  | c :: rest => if c ∈ signs then some (sign (String.singleton c), rest) else none
  | [] => none

def scan? (cs : List Char) : Option (Token × List Char) :=
  match scanFailure? cs with
  | some (kind, rest) => some (failure kind, rest)
  | none =>
    match Numeral.scan? cs with
    | some (n, rest) => some (numeral n, rest)
    | none =>
      match scanName? cs with
      | some (text, rest) => some (name text, rest)
      | none => scanSign? cs

def skipBlanks (cs : List Char) : List Char := cs.dropWhile isBlank

/-- The words of a text; nothing if some part of it is no word. The count bounds the words. -/
def scanUpTo : Nat → List Char → Option (List Token)
  | 0, cs => if (skipBlanks cs).isEmpty then some [] else none
  | bound + 1, cs =>
    match skipBlanks cs with
    | [] => some []
    | c :: rest =>
      match scan? (c :: rest) with
      | some (token, rest) => (scanUpTo bound rest).map (token :: ·)
      | none => none

/-- A text has at most one word for each character. -/
def scanAll (cs : List Char) : Option (List Token) := scanUpTo cs.length cs

end Token
end DeskCalculator
