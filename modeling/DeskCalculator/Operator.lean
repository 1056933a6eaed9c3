import DeskCalculator.Settings
/-!
The operator keys: what each is called and written as, where it stands, how tightly it binds, what
it builds, and on which keypads it is found.
-/
namespace DeskCalculator

inductive Operator where
  | add | sub | mul | div | negate | percent
  | square | cube | pow | powRev | exp | pow10 | pow2
  | invert | sqrt | cbrt | yroot | ln | log10 | log2 | logy
  | factorial | sin | asin | cos | acos | tan | atan
  | sinh | asinh | cosh | acosh | tanh | atanh
  | pi | e
  | openParen | closeParen
  | bitAnd | bitOr | bitXor | bitNot | shiftLeft | shiftRight
  | rotateLeft | rotateRight | flipBytes | flipWords
deriving DecidableEq, Repr

inductive Placement where
  | before
  | between
  | after
deriving DecidableEq, Repr

inductive Associativity where
  | left
  | right
  | none
deriving DecidableEq, Repr

inductive Precedence where
  | none
  | additive
  | multiplicative
  | power
  | function
  | value
deriving DecidableEq, Repr

namespace Precedence

def level : Precedence → Nat
  | none => 0
  | additive => 1
  | multiplicative => 2
  | power => 3
  | function => 4
  | value => 5

instance : LT Precedence := ⟨fun a b => a.level < b.level⟩
instance : LE Precedence := ⟨fun a b => a.level ≤ b.level⟩
instance (a b : Precedence) : Decidable (a < b) := inferInstanceAs (Decidable (a.level < b.level))
instance (a b : Precedence) : Decidable (a ≤ b) := inferInstanceAs (Decidable (a.level ≤ b.level))

theorem level_injective {a b : Precedence} (h : a.level = b.level) : a = b := by
  cases a <;> cases b <;> first | rfl | cases h

end Precedence

/-- What an operator builds from its operands, taken in the order of entry. -/
inductive BuildRule where
  | binary
  | swapped (target : Operator)
  | before
  | after
  | function (name : String)
  | angleFunction (radians degrees : String)
  | binaryFunction (name : String)
  | raiseTo (exponent : Int64)
  | powerOf (base : Int64)
  | reciprocal
  | constant (value : Float)
  | group
deriving DecidableEq

def BuildRule.arity : BuildRule → Nat
  | constant _ | group => 0
  | binary | swapped _ | binaryFunction _ => 2
  | _ => 1

inductive Availability where
  | everywhere
  | decimal
  | scientific
  | programmer
deriving DecidableEq, Repr

def Availability.allows : Availability → Mode → Bool
  | everywhere, _ => true
  | decimal, mode => mode ≠ .programmer
  | scientific, mode => mode = .scientific
  | programmer, mode => mode = .programmer

structure OperatorInfo where
  symbol : String
  placement : Placement
  associativity : Associativity
  precedence : Precedence
  rule : BuildRule
  availability : Availability

namespace Operator

/-- All operators, in the order in which a symbol or a function is looked up. -/
def all : List Operator :=
  [add, sub, mul, div, negate, percent, square, cube, pow, powRev, exp, pow10, pow2,
    invert, sqrt, cbrt, yroot, ln, log10, log2, logy, factorial, sin, asin, cos, acos, tan, atan,
    sinh, asinh, cosh, acosh, tanh, atanh, pi, e, openParen, closeParen,
    bitAnd, bitOr, bitXor, bitNot, shiftLeft, shiftRight, rotateLeft, rotateRight,
    flipBytes, flipWords]

theorem mem_all (op : Operator) : op ∈ all := by cases op <;> decide

def name : Operator → String
  | add => "add"
  | sub => "sub"
  | mul => "mul"
  | div => "div"
  | negate => "neg"
  | percent => "percent"
  | square => "square"
  | cube => "cube"
  | pow => "pow"
  | powRev => "powrev"
  | exp => "exp"
  | pow10 => "pow10"
  | pow2 => "pow2"
  | invert => "inv"
  | sqrt => "sqrt"
  | cbrt => "cbrt"
  | yroot => "yroot"
  | ln => "ln"
  | log10 => "log10"
  | log2 => "log2"
  | logy => "logy"
  | factorial => "fact"
  | sin => "sin"
  | asin => "asin"
  | cos => "cos"
  | acos => "acos"
  | tan => "tan"
  | atan => "atan"
  | sinh => "sinh"
  | asinh => "asinh"
  | cosh => "cosh"
  | acosh => "acosh"
  | tanh => "tanh"
  | atanh => "atanh"
  | pi => "pi"
  | e => "e"
  | openParen => "("
  | closeParen => ")"
  | bitAnd => "and"
  | bitOr => "or"
  | bitXor => "xor"
  | bitNot => "not"
  | shiftLeft => "shl"
  | shiftRight => "shr"
  | rotateLeft => "rol"
  | rotateRight => "ror"
  | flipBytes => "flipb"
  | flipWords => "flipw"

def ofName? (text : String) : Option Operator :=
  let lower := text.toLower
  all.find? (·.name == lower)

private def function (name : String) (availability : Availability) : OperatorInfo :=
  ⟨name, .before, .right, .function, .function name, availability⟩

private def angleFunction (radians degrees : String) : OperatorInfo :=
  ⟨radians, .before, .right, .function, .angleFunction radians degrees, .scientific⟩

private def binaryFunction (name : String) : OperatorInfo :=
  ⟨name, .between, .right, .power, .binaryFunction name, .scientific⟩

private def constant (symbol : String) (value : Float) : OperatorInfo :=
  ⟨symbol, .before, .none, .value, .constant value, .scientific⟩

def info : Operator → OperatorInfo
  | add => ⟨"+", .between, .left, .additive, .binary, .everywhere⟩
  | sub => ⟨"-", .between, .left, .additive, .binary, .everywhere⟩
  | mul => ⟨"*", .between, .left, .multiplicative, .binary, .everywhere⟩
  | div => ⟨"/", .between, .left, .multiplicative, .binary, .everywhere⟩
  | negate => ⟨"-", .before, .right, .function, .before, .everywhere⟩
  | percent => ⟨"%", .after, .left, .function, .after, .decimal⟩
  | square => ⟨"x²", .after, .left, .power, .raiseTo 2, .everywhere⟩
  | cube => ⟨"x³", .after, .left, .power, .raiseTo 3, .everywhere⟩
  | pow => ⟨"^", .between, .right, .power, .binary, .everywhere⟩
  | powRev => ⟨"yˣ", .between, .right, .power, .swapped pow, .scientific⟩
  | exp => function "exp" .scientific
  | pow10 => ⟨"10ˣ", .before, .right, .power, .powerOf 10, .scientific⟩
  | pow2 => ⟨"2ˣ", .before, .right, .power, .powerOf 2, .everywhere⟩
  | invert => ⟨"1/x", .after, .left, .multiplicative, .reciprocal, .decimal⟩
  | sqrt => function "sqrt" .scientific
  | cbrt => function "cbrt" .scientific
  | yroot => binaryFunction "yroot"
  | ln => function "ln" .scientific
  | log10 => function "log10" .scientific
  | log2 => function "log2" .scientific
  | logy => binaryFunction "logy"
  | factorial => ⟨"!", .after, .left, .function, .after, .scientific⟩
  | sin => angleFunction "sin" "sind"
  | asin => angleFunction "asin" "asind"
  | cos => angleFunction "cos" "cosd"
  | acos => angleFunction "acos" "acosd"
  | tan => angleFunction "tan" "tand"
  | atan => angleFunction "atan" "atand"
  | sinh => function "sinh" .scientific
  | asinh => function "asinh" .scientific
  | cosh => function "cosh" .scientific
  | acosh => function "acosh" .scientific
  | tanh => function "tanh" .scientific
  | atanh => function "atanh" .scientific
  | pi => constant "π" 3.141592653589793
  | e => constant "e" 2.718281828459045
  | openParen => ⟨"(", .before, .none, .none, .group, .everywhere⟩
  | closeParen => ⟨")", .after, .none, .none, .group, .everywhere⟩
  | bitAnd => ⟨"&", .between, .left, .multiplicative, .binary, .programmer⟩
  | bitOr => ⟨"|", .between, .left, .additive, .binary, .programmer⟩
  | bitXor => ⟨"xor", .between, .left, .additive, .binary, .programmer⟩
  | bitNot => ⟨"~", .before, .right, .function, .before, .programmer⟩
  | shiftLeft => ⟨"<<", .between, .left, .multiplicative, .binary, .programmer⟩
  | shiftRight => ⟨">>", .between, .left, .multiplicative, .binary, .programmer⟩
  | rotateLeft => function "rol" .programmer
  | rotateRight => function "ror" .programmer
  | flipBytes => function "flipb" .programmer
  | flipWords => function "flipw" .programmer

def symbol (op : Operator) : String := op.info.symbol
def placement (op : Operator) : Placement := op.info.placement
def associativity (op : Operator) : Associativity := op.info.associativity
def precedence (op : Operator) : Precedence := op.info.precedence
def rule (op : Operator) : BuildRule := op.info.rule

def arity (op : Operator) : Nat := op.rule.arity

def availableIn (op : Operator) (mode : Mode) : Bool := op.info.availability.allows mode

/-- Does a waiting operator take its right operand before `op` takes it as its left one? -/
def bindsBefore (waiting op : Operator) : Bool :=
  op.precedence < waiting.precedence ||
    (waiting.precedence == op.precedence && op.associativity == .left)

def ofSymbol? (placement : Placement) (symbol : String) : Option Operator :=
  all.find? fun op => op.placement = placement ∧ op.symbol = symbol

/-- The operator that builds calls of a function, under either angle unit. -/
def ofFunction? (name : String) : Option Operator :=
  all.find? fun op =>
    match op.rule with
    | .function n | .binaryFunction n => n == name
    | .angleFunction radians degrees => radians == name || degrees == name
    | _ => false

def functionName (name : String) : AngleUnit → String
  | .radians => name
  | .degrees =>
    let variant := all.findSome? fun op =>
      match op.rule with
      | .angleFunction radians degrees => if radians == name then some degrees else none
      | _ => none
    variant.getD name

end Operator
end DeskCalculator
