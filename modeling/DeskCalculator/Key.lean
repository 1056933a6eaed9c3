import DeskCalculator.Operator
/-!
The keys of the calculator.
-/
namespace DeskCalculator

inductive MemoryKey where
  | add
  | subtract
  | read
  | clear
deriving DecidableEq, Repr

namespace MemoryKey

def name : MemoryKey → String
  | add => "m+"
  | subtract => "m-"
  | read => "mr"
  | clear => "mc"

def ofName : String → Except UnknownName MemoryKey :=
  findName "memory key" [("m+", add), ("m-", subtract), ("mr", read), ("mc", clear)]

end MemoryKey

inductive Key where
  | digit (d : Nat)
  | point
  | startExponent
  | operator (op : Operator)
  | equals
  | allClear
  | clearEntry
  | changeSign
  | backspace
  | mode (m : Mode)
  | base (b : Base)
  | angle (u : AngleUnit)
  | style (s : EntryStyle)
  | memory (k : MemoryKey)
  | enter
  | swap
  | drop
  | rollDown
  | rollUp
  | random
deriving DecidableEq, Repr

end DeskCalculator
