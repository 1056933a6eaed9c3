import DeskCalculator.Opcode
import DeskCalculator.Display
/-!
Programs for the stack machine and their listing.
-/
namespace DeskCalculator

/-- An opcode with an inline value; only a push uses it. -/
structure Instruction where
  opcode : Opcode
  operand : Option Value := none
deriving DecidableEq

namespace Instruction

def pushIn (domain : Domain) (v : Value) : Instruction := ⟨.push domain, some v⟩

def push (v : Value) : Instruction := pushIn (v.domain?.getD .double) v

def operandText : Value → List Char
  | .integer i => integerText i.toInt ++ " (0x".toList ++ Base.hex.numeral i.toUInt64.toNat ++ [')']
  | v => Display.value v .dec false none

def nameWidth : Nat := 8

def listing (i : Instruction) : List Char :=
  let name := i.opcode.name.toList
  match i.operand with
  | some v => name ++ List.replicate (nameWidth - name.length) ' ' ++ ' ' :: operandText v
  | none => name

end Instruction

structure Program where
  name : String
  domain : Domain
  code : List Instruction
deriving DecidableEq

namespace Program

def headerLine (p : Program) : String :=
  s!"========== Program: {p.name} ({p.domain.name}, {p.code.length} instructions) =========="

/-- The line of an instruction: its number in four digits at least, and its listing. -/
def instructionLine (number : Nat) (i : Instruction) : List Char :=
  padZeros 4 (Base.dec.numeral number) ++ ' ' :: ' ' :: i.listing

def lines (p : Program) : List String :=
  p.headerLine :: p.code.mapIdx fun n i => String.ofList (instructionLine n i)

def disassembly (p : Program) : String := String.join (p.lines.map (· ++ "\n"))

end Program
end DeskCalculator
