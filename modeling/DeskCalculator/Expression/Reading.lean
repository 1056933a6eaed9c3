import DeskCalculator.Expression.Phrase
import DeskCalculator.Expression.Build
/-!
Reading a written expression into a tree. Literals belong to the domain of the mode, and a minus
directly before a numeral is the sign of the literal unless that is zero.
-/
namespace DeskCalculator

inductive ReadError where
  | malformed
  | unknownSymbol (name : String)
  | invalidNumber (text : String)
deriving DecidableEq, Repr

def ReadError.message : ReadError → String
  | malformed => "syntax error"
  | unknownSymbol name => s!"unknown symbol: {name}"
  | invalidNumber text => s!"invalid number: {text}"

namespace Phrase

def numeralValue (domain : Domain) (negative : Bool) (n : Numeral) : Except ReadError Value :=
  match domain with
  | .double => .ok (.double (n.toDouble negative))
  | .integer =>
    match n.toInt64? negative with
    | some i => .ok (.integer i)
    | none =>
      let sign := if negative then ['-'] else []
      .error (.invalidNumber (String.ofList (sign ++ n.chars)))

def constantTree (mode : Mode) (op : Operator) : Tree :=
  match op.rule with
  | .constant x => .constantLiteral mode op x
  | _ => default

mutual

def toTree (mode : Mode) (angle : AngleUnit) : Phrase → Except ReadError Tree
  | numeral n => (numeralValue mode.domain false n).map .number
  | failure kind => .ok (.number (.error kind))
  | constant op => .ok (constantTree mode op)
  | before op (numeral n) =>
    if op = .negate then do
      let negated ← numeralValue mode.domain true n
      if negated.isNegative then return .number negated
      let v ← numeralValue mode.domain false n
      return .before op (.number v)
    else (numeralValue mode.domain false n).map fun v => .before op (.number v)
  | before op a => (toTree mode angle a).map (.before op)
  | after op a => (toTree mode angle a).map (.after op)
  | binary op l r => do
    let left ← toTree mode angle l
    let right ← toTree mode angle r
    return .binary op left right
  | call name args =>
    let text := String.ofList name
    if (Operator.ofFunction? text).isSome then do
      let trees ← toTrees mode angle args
      return .call (Operator.functionName text angle) trees
    else .error (.unknownSymbol text)
  | group a => (toTree mode angle a).map .paren

def toTrees (mode : Mode) (angle : AngleUnit) : List Phrase → Except ReadError (List Tree)
  | [] => .ok []
  | a :: rest => do
    let first ← toTree mode angle a
    let others ← toTrees mode angle rest
    return first :: others

end

end Phrase

def Tree.read (mode : Mode) (angle : AngleUnit) (text : String) : Except ReadError Tree :=
  match Phrase.ofChars? text.toList with
  | some p => p.toTree mode angle
  | none => .error .malformed

end DeskCalculator
