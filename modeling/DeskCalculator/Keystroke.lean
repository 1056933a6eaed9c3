import DeskCalculator.Key
import DeskCalculator.Text.Similarity
/-!
Keys as they are typed. Names of keys come first, then operator signs, then operator names; all
else has to be a number, typed digit by digit in the base in use.
-/
namespace DeskCalculator

namespace Keystroke

def keys : List (String × Key) :=
  [("=", .equals), ("enter", .enter), ("ee", .startExponent), ("+/-", .changeSign),
    ("bs", .backspace), ("c", .clearEntry), ("ac", .allClear), ("swap", .swap), ("drop", .drop),
    ("rdn", .rollDown), ("rup", .rollUp), ("m+", .memory .add), ("m-", .memory .subtract),
    ("mr", .memory .read), ("mc", .memory .clear), ("rand", .random), ("basic", .mode .basic),
    ("scientific", .mode .scientific), ("programmer", .mode .programmer), ("bin", .base .bin),
    ("oct", .base .oct), ("dec", .base .dec), ("hex", .base .hex), ("deg", .angle .degrees),
    ("rad", .angle .radians), ("rpn", .style .rpn), ("algebraic", .style .algebraic)]

def signs : List (String × Operator) :=
  [("+", .add), ("-", .sub), ("*", .mul), ("/", .div), ("^", .pow), ("%", .percent),
    ("!", .factorial), ("&", .bitAnd), ("|", .bitOr), ("~", .bitNot), ("<<", .shiftLeft),
    (">>", .shiftRight)]

def names : List String := keys.map (·.1) ++ signs.map (·.1) ++ Operator.all.map Operator.name

def key? (token : String) : Option Key :=
  match keys.lookup token.toLower with
  | some k => some k
  | none =>
    match signs.lookup token with
    | some op => some (.operator op)
    | none => (Operator.ofName? token).map .operator

def digits? (base : Base) (token : String) : Option (List Key) :=
  token.toList.mapM fun c => if c = '.' then some .point else (base.digitOf? c).map .digit

/-- A suggestion has to be more alike than this. -/
def threshold : Float := 0.7

/-- The name most like a token; of several the last. -/
def suggestion? (token : String) : Option String :=
  let lower := token.toLower.toList
  let scored := names.map fun name => (Similarity.jaroWinkler name.toList lower, name)
  let alike := scored.filter fun (score, _) => score > threshold
  let best := alike.foldl (fun (best : Option (Float × String)) (score, name) =>
    if best.all (·.1 ≤ score) then some (score, name) else best) none
  best.map (·.2)

end Keystroke

structure UnknownKey where
  token : String
deriving DecidableEq, Repr

namespace UnknownKey

def suggestion? (e : UnknownKey) : Option String := Keystroke.suggestion? e.token

def message (e : UnknownKey) : String :=
  let hint := e.suggestion?.elim "" fun name => s!" (did you mean '{name}'?)"
  s!"unknown key '{e.token}'{hint}"

end UnknownKey

def Keystroke.read (base : Base) (token : String) : Except UnknownKey (List Key) :=
  match key? token with
  | some k => .ok [k]
  | none =>
    match digits? base token with
    | some ks => .ok ks
    | none => .error ⟨token⟩

end DeskCalculator
