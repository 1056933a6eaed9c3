import DeskCalculator.Decimal.Numeral
/-!
JSON values and their text, on one line or indented.
-/
namespace DeskCalculator

inductive Json where
  | null
  | bool (b : Bool)
  | number (negative : Bool) (n : Numeral)
  /-- Nothing stands for a text that escapes a lone surrogate. -/
  | string (text : Option String)
  | array (items : List Json)
  | object (fields : List (Option String × Json))

namespace Json

def ofString (s : String) : Json := string (some s)

def ofFields (fields : List (String × Json)) : Json :=
  object (fields.map fun (k, v) => (some k, v))

def hexDigit (n : Nat) : Char := (Base.hex.digitChar n).toLower

/-- A character of a string; only quotes, backslashes and control characters are escaped. -/
def escapeChar (c : Char) : List Char :=
  if c = '"' then ['\\', '"']
  else if c = '\\' then ['\\', '\\']
  else if c = '\n' then ['\\', 'n']
  else if c = '\r' then ['\\', 'r']
  else if c = '\t' then ['\\', 't']
  else if c.toNat = 8 then ['\\', 'b']
  else if c.toNat = 12 then ['\\', 'f']
  else if c.toNat < 0x20 then
    ['\\', 'u', '0', '0', hexDigit (c.toNat / 16), hexDigit (c.toNat % 16)]
  else [c]

def quote (s : String) : List Char := '"' :: s.toList.flatMap escapeChar ++ ['"']

def quote? (s : Option String) : List Char := quote (s.getD "")

def numberChars (negative : Bool) (n : Numeral) : List Char :=
  (if negative then ['-'] else []) ++ n.chars

structure Layout where
  /-- What separates members at a depth. -/
  lineBreak : Nat → List Char
  colon : List Char

def Layout.compact : Layout := ⟨fun _ => [], [':']⟩

/-- Each member on a line of its own, two blanks further in than its container. -/
def Layout.indented : Layout := ⟨fun depth => '\n' :: List.replicate (2 * depth) ' ', [':', ' ']⟩

mutual

def chars (l : Layout) (depth : Nat) : Json → List Char
  | null => "null".toList
  | bool b => (if b then "true" else "false").toList
  | number negative n => numberChars negative n
  | string s => quote? s
  | array [] => ['[', ']']
  | array items => '[' :: itemChars l (depth + 1) items ++ l.lineBreak depth ++ [']']
  | object [] => ['\x7b', '\x7d']
  | object fields => '\x7b' :: fieldChars l (depth + 1) fields ++ l.lineBreak depth ++ ['\x7d']

def itemChars (l : Layout) (depth : Nat) : List Json → List Char
  | [] => []
  | [a] => l.lineBreak depth ++ chars l depth a
  | a :: rest => l.lineBreak depth ++ chars l depth a ++ ',' :: itemChars l depth rest

def fieldChars (l : Layout) (depth : Nat) : List (Option String × Json) → List Char
  | [] => []
  | [(k, v)] => l.lineBreak depth ++ quote? k ++ l.colon ++ chars l depth v
  | (k, v) :: rest =>
    l.lineBreak depth ++ quote? k ++ l.colon ++ chars l depth v ++ ',' :: fieldChars l depth rest

end

def compact (j : Json) : String := String.ofList (j.chars .compact 0)

def pretty (j : Json) : String := String.ofList (j.chars .indented 0)

end Json
end DeskCalculator
