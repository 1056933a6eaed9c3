import DeskCalculator.Settings
/-!
The instruction set: for each domain a push and operations on one or two operands. Doubles have
bytes below 64, integers from 64 on.
-/
namespace DeskCalculator

inductive DoubleUnary where
  | neg | percent | fact
  | sqrt | cbrt | exp | ln | log10 | log2
  | sin | cos | tan | asin | acos | atan
  | sind | cosd | tand | asind | acosd | atand
  | sinh | cosh | tanh | asinh | acosh | atanh
deriving DecidableEq, Repr

inductive DoubleBinary where
  | add | sub | mul | div | pow | yroot | logy
deriving DecidableEq, Repr

inductive IntegerUnary where
  | neg | not | rotateLeft | rotateRight | flipBytes | flipWords
deriving DecidableEq, Repr

inductive IntegerBinary where
  | add | sub | mul | div | pow | and | or | xor | shiftLeft | shiftRight
deriving DecidableEq, Repr

inductive Opcode where
  | push (domain : Domain)
  | doubleUnary (f : DoubleUnary)
  | doubleBinary (f : DoubleBinary)
  | integerUnary (f : IntegerUnary)
  | integerBinary (f : IntegerBinary)
deriving DecidableEq, Repr

namespace Opcode

def domain : Opcode → Domain
  | push d => d
  | doubleUnary _ | doubleBinary _ => .double
  | integerUnary _ | integerBinary _ => .integer

def arity : Opcode → Nat
  | push _ => 0
  | doubleUnary _ | integerUnary _ => 1
  | doubleBinary _ | integerBinary _ => 2

def isPush : Opcode → Bool
  | push _ => true
  | _ => false

/-- All opcodes with their bytes and names, in the order of the bytes. -/
def table : List (Nat × Opcode × String) :=
  [(0, push .double, "PUSH"),
    (1, doubleBinary .add, "ADD"),
    (2, doubleBinary .sub, "SUB"),
    (3, doubleBinary .mul, "MUL"),
    (4, doubleBinary .div, "DIV"),
    (5, doubleUnary .neg, "NEG"),
    (6, doubleBinary .pow, "POW"),
    (7, doubleUnary .percent, "PERCENT"),
    (8, doubleUnary .fact, "FACT"),
    (9, doubleUnary .sqrt, "SQRT"),
    (10, doubleUnary .cbrt, "CBRT"),
    (11, doubleUnary .exp, "EXP"),
    (12, doubleUnary .ln, "LN"),
    (13, doubleUnary .log10, "LOG10"),
    (14, doubleUnary .log2, "LOG2"),
    (15, doubleUnary .sin, "SIN"),
    (16, doubleUnary .cos, "COS"),
    (17, doubleUnary .tan, "TAN"),
    (18, doubleUnary .asin, "ASIN"),
    (19, doubleUnary .acos, "ACOS"),
    (20, doubleUnary .atan, "ATAN"),
    (21, doubleUnary .sind, "SIND"),
    (22, doubleUnary .cosd, "COSD"),
    (23, doubleUnary .tand, "TAND"),
    (24, doubleUnary .asind, "ASIND"),
    (25, doubleUnary .acosd, "ACOSD"),
    (26, doubleUnary .atand, "ATAND"),
    (27, doubleUnary .sinh, "SINH"),
    (28, doubleUnary .cosh, "COSH"),
    (29, doubleUnary .tanh, "TANH"),
    (30, doubleUnary .asinh, "ASINH"),
    (31, doubleUnary .acosh, "ACOSH"),
    (32, doubleUnary .atanh, "ATANH"),
    (33, doubleBinary .yroot, "YROOT"),
    (34, doubleBinary .logy, "LOGY"),
    (64, push .integer, "PUSHI"),
    (65, integerBinary .add, "ADDI"),
    (66, integerBinary .sub, "SUBI"),
    (67, integerBinary .mul, "MULI"),
    (68, integerBinary .div, "DIVI"),
    (69, integerUnary .neg, "NEGI"),
    (70, integerBinary .pow, "POWI"),
    (71, integerBinary .and, "AND"),
    (72, integerBinary .or, "OR"),
    (73, integerBinary .xor, "XOR"),
    (74, integerUnary .not, "NOT"),
    (75, integerBinary .shiftLeft, "SHL"),
    (76, integerBinary .shiftRight, "SHR"),
    (77, integerUnary .rotateLeft, "ROL"),
    (78, integerUnary .rotateRight, "ROR"),
    (79, integerUnary .flipBytes, "FLIPB"),
    (80, integerUnary .flipWords, "FLIPW")]

def ofByte? (byte : Nat) : Option Opcode := (table.find? (·.1 == byte)).map (·.2.1)

def row? (op : Opcode) : Option (Nat × Opcode × String) := table.find? (·.2.1 == op)

theorem row?_isSome (op : Opcode) : op.row?.isSome := by
  cases op with
  | push d => cases d <;> decide
  | doubleUnary f => cases f <;> decide
  | doubleBinary f => cases f <;> decide
  | integerUnary f => cases f <;> decide
  | integerBinary f => cases f <;> decide

def byte (op : Opcode) : Nat := (op.row?.get op.row?_isSome).1

def name (op : Opcode) : String := (op.row?.get op.row?_isSome).2.2

theorem ofByte?_byte (op : Opcode) : ofByte? op.byte = some op := by
  cases op with
  | push d => cases d <;> decide
  | doubleUnary f => cases f <;> decide
  | doubleBinary f => cases f <;> decide
  | integerUnary f => cases f <;> decide
  | integerBinary f => cases f <;> decide

end Opcode
end DeskCalculator
