import DeskCalculator.Json.Basic
/-!
Reading JSON texts. Escaped UTF-16 units are joined to characters once a string is complete.
-/
namespace DeskCalculator

namespace Json

def isBlank (c : Char) : Bool := c == ' ' || c == '\t' || c == '\n' || c == '\r'

def skipBlanks (cs : List Char) : List Char := cs.dropWhile isBlank

/-- A part of a string: a character, or a UTF-16 unit that was escaped by its number. -/
inductive StringPart where
  | char (c : Char)
  | unit (n : Nat)
deriving DecidableEq, Repr

def hexValue? (c : Char) : Option Nat := Base.hex.digitOf? c

/-- The number that four hexadecimal digits stand for. -/
def unitOf? (a b c d : Char) : Option Nat := do
  return (((← hexValue? a) * 16 + (← hexValue? b)) * 16 + (← hexValue? c)) * 16 + (← hexValue? d)

/-- The characters after a backslash that stand for themselves or for a control character. -/
def simpleEscape? (c : Char) : Option Char :=
  [('"', '"'), ('\\', '\\'), ('/', '/'), ('b', Char.ofNat 8), ('f', Char.ofNat 12), ('n', '\n'),
    ('r', '\r'), ('t', '\t')].lookup c

/-- The parts of a string up to its closing quote, and what follows that. -/
def scanString : List Char → Option (List StringPart × List Char)
  | '"' :: rest => some ([], rest)
  | '\\' :: 'u' :: a :: b :: c :: d :: rest => do
    let n ← unitOf? a b c d
    let (parts, rest) ← scanString rest
    return (.unit n :: parts, rest)
  | '\\' :: c :: rest => do
    let c ← simpleEscape? c
    let (parts, rest) ← scanString rest
    return (.char c :: parts, rest)
  | c :: rest =>
    if c.toNat < 0x20 ∨ c = '\\' then none
    else do
      let (parts, rest) ← scanString rest
      return (.char c :: parts, rest)
  | [] => none

/-- Joins surrogates to characters; a lone one has none. -/
def joinUnits : List StringPart → Option (List Char)
  | [] => some []
  | .char c :: rest => (joinUnits rest).map (c :: ·)
  | .unit high :: .unit low :: rest =>
    if 0xD800 ≤ high ∧ high < 0xDC00 then
      if 0xDC00 ≤ low ∧ low < 0xE000 then
        (joinUnits rest).map (Char.ofNat (0x10000 + (high - 0xD800) * 0x400 + (low - 0xDC00)) :: ·)
      else none
    else if 0xDC00 ≤ high ∧ high < 0xE000 then none
    else (joinUnits (.unit low :: rest)).map (Char.ofNat high :: ·)
  | .unit n :: rest =>
    if 0xD800 ≤ n ∧ n < 0xE000 then none else (joinUnits rest).map (Char.ofNat n :: ·)

def textOf (parts : List StringPart) : Option String := (joinUnits parts).map String.ofList

/-- JSON wants a whole part without a needless zero, and digits after a point. -/
def isNumber (n : Numeral) : Bool :=
  !n.whole.isEmpty && (n.whole.length == 1 || n.whole.head? != some '0') && n.fraction != some []

def scanNumber? (cs : List Char) : Option (Json × List Char) :=
  let (negative, cs) := match cs with
    | '-' :: rest => (true, rest)
    | cs => (false, cs)
  match Numeral.scan? cs with
  | some (n, rest) => if isNumber n then some (number negative n, rest) else none
  | none => none

def dropWord? (word : String) (cs : List Char) : Option (List Char) :=
  if word.toList.isPrefixOf cs then some (cs.drop word.length) else none

/-- The words and numbers that begin with neither a bracket nor a quote. -/
def scanScalar? (cs : List Char) : Option (Json × List Char) :=
  match dropWord? "null" cs, dropWord? "true" cs, dropWord? "false" cs with
  | some rest, _, _ => some (null, rest)
  | _, some rest, _ => some (bool true, rest)
  | _, _, some rest => some (bool false, rest)
  | _, _, _ => scanNumber? cs

mutual

/-- A value after any blanks, and what follows it. The count bounds the steps. -/
def scanValue : Nat → List Char → Option (Json × List Char)
  | 0, _ => none
  | bound + 1, cs =>
    match skipBlanks cs with
    | '"' :: rest => do
      let (parts, rest) ← scanString rest
      return (string (textOf parts), rest)
    | '[' :: rest =>
      match skipBlanks rest with
      | ']' :: rest => some (array [], rest)
      | rest => do
        let (items, rest) ← scanItems bound rest
        return (array items, rest)
    | '\x7b' :: rest =>
      match skipBlanks rest with
      | '\x7d' :: rest => some (object [], rest)
      | rest => do
        let (fields, rest) ← scanFields bound rest
        return (object fields, rest)
    | cs => scanScalar? cs

def scanItems : Nat → List Char → Option (List Json × List Char)
  | 0, _ => none
  | bound + 1, cs => do
    let (item, rest) ← scanValue bound cs
    match skipBlanks rest with
    | ']' :: rest => return ([item], rest)
    | ',' :: rest =>
      let (items, rest) ← scanItems bound rest
      return (item :: items, rest)
    | _ => none

def scanFields : Nat → List Char → Option (List (Option String × Json) × List Char)
  | 0, _ => none
  | bound + 1, cs =>
    match skipBlanks cs with
    | '"' :: rest => do
      let (parts, rest) ← scanString rest
      match skipBlanks rest with
      | ':' :: rest =>
        let (value, rest) ← scanValue bound rest
        match skipBlanks rest with
        | '\x7d' :: rest => return ([(textOf parts, value)], rest)
        | ',' :: rest =>
          let (fields, rest) ← scanFields bound rest
          return ((textOf parts, value) :: fields, rest)
        | _ => none
      | _ => none
    | _ => none

end

/-- Reads a whole text. Each step but the first takes a character. -/
def read? (text : String) : Option Json :=
  let cs := text.toList
  match scanValue (2 * cs.length + 1) cs with
  | some (j, rest) => if (skipBlanks rest).isEmpty then some j else none
  | none => none

end Json
end DeskCalculator
