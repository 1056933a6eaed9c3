import DeskCalculator.Proofs.Pushing
/-!
The depth of the stack, which alone decides how a program ends. Main statement:
`Machine.execute_ending` says that a machine in any state ends a program the way that counting
foretells, and never looks for an operation where there is none.
-/
namespace DeskCalculator

/-! Operations found by the bytes of their opcodes. -/

namespace Opcode

/-- What an opcode does with doubles. Nothing is said of other opcodes, nor of other numbers of
operands. -/
def onDoubles? : Opcode → List Float → Option Value
  | .doubleUnary f, [a] => some (f.apply a)
  | .doubleBinary f, [a, b] => some (f.apply a b)
  | _, _ => none

def onIntegers? : Opcode → List Int64 → Option Value
  | .integerUnary f, [a] => some (f.apply a)
  | .integerBinary f, [a, b] => some (f.apply a b)
  | _, _ => none

def firstIntegerByte : Nat := 64

/-- The first error among the operands, or else what the opcode does in the domain that its byte
lies in; nothing if the domain does not know the opcode. -/
def dispatch? (op : Opcode) (operands : List Value) : Option Value :=
  match operands.find? Value.isError with
  | some e => some e
  | none =>
    if op.byte < firstIntegerByte then op.onDoubles? (operands.map Value.asDouble)
    else op.onIntegers? (operands.map Value.asInteger)

theorem byte_lt_iff (op : Opcode) : op.byte < firstIntegerByte ↔ op.domain = .double := by
  cases op with
  | push d => cases d <;> decide
  | doubleUnary f => cases f <;> decide
  | doubleBinary f => cases f <;> decide
  | integerUnary f => cases f <;> decide
  | integerBinary f => cases f <;> decide

/-- Each opcode has its operation in the domain of its byte. -/
theorem dispatch?_eq {op : Opcode} {operands : List Value} (hl : operands.length = op.arity) :
    op.dispatch? operands = op.value? operands := by
  rw [dispatch?, value?, if_pos hl]
  cases operands.find? Value.isError with
  | some e => rfl
  | none =>
    dsimp only
    cases op with
    | push d =>
      obtain rfl := List.length_eq_zero_iff.1 hl
      split <;> rfl
    | doubleUnary f =>
      obtain ⟨a, rfl⟩ := List.length_eq_one_iff.1 hl
      rw [if_pos ((byte_lt_iff _).2 rfl)]
      rfl
    | doubleBinary f =>
      obtain ⟨a, b, rfl⟩ := List.length_eq_two.1 hl
      rw [if_pos ((byte_lt_iff _).2 rfl)]
      rfl
    | integerUnary f =>
      obtain ⟨a, rfl⟩ := List.length_eq_one_iff.1 hl
      rw [if_neg fun h => by cases (byte_lt_iff _).1 h]
      rfl
    | integerBinary f =>
      obtain ⟨a, b, rfl⟩ := List.length_eq_two.1 hl
      rw [if_neg fun h => by cases (byte_lt_iff _).1 h]
      rfl

end Opcode

/-- What an instruction does to the depth of a stack. -/
def Instruction.depthAfter (i : Instruction) (depth : Nat) : Except MachineError Nat :=
  if i.opcode.isPush then
    if i.operand.isSome then .ok (depth + 1) else .error (.missingOperand i.opcode.name)
  else if depth < i.opcode.arity then .error .stackUnderflow
  else .ok (depth - i.opcode.arity + 1)

namespace Machine

variable {i : Instruction} {stack : List Value}

/-- A step that looks for its operation by the byte of the opcode. -/
def dispatchStep? (i : Instruction) (stack : List Value) :
    Option (Except MachineError (List Value)) :=
  if i.opcode.isPush then
    some (match i.operand with
      | some v => .ok (v :: stack)
      | none => .error (.missingOperand i.opcode.name))
  else if stack.length < i.opcode.arity then some (.error .stackUnderflow)
  else (i.opcode.dispatch? (stack.take i.opcode.arity).reverse).map fun v =>
    .ok (v :: stack.drop i.opcode.arity)

/-- A run of such steps; nothing if one of them finds no operation. -/
def dispatchRun? : List Instruction → List Value → Option (List Value × Option MachineError)
  | [], stack => some (stack, none)
  | i :: code, stack => do
    match ← dispatchStep? i stack with
    | .ok next => dispatchRun? code next
    | .error e => some (stack, some e)

theorem step_of_lt_arity (h : stack.length < i.opcode.arity) :
    step i stack = .error .stackUnderflow := by
  cases hop : i.opcode with
  | push d => simp [hop, Opcode.arity] at h
  | doubleUnary f | integerUnary f =>
    cases stack with
    | nil => simp [step, hop, applyUnary]
    | cons a stack => simp [hop, Opcode.arity] at h
  | doubleBinary f | integerBinary f =>
    rcases stack with _ | ⟨b, _ | ⟨a, stack⟩⟩
    · simp [step, hop, applyBinary]
    · simp [step, hop, applyBinary]
    · simp only [hop, Opcode.arity, List.length_cons] at h
      omega

theorem step_push (hp : i.opcode.isPush) : step i stack =
    match i.operand with
    | some v => .ok (v :: stack)
    | none => .error (.missingOperand i.opcode.name) := by
  obtain ⟨op, operand⟩ := i
  cases op with
  | push d => cases operand <;> rfl
  | _ => cases hp

theorem dispatchStep?_eq (i : Instruction) (stack : List Value) :
    dispatchStep? i stack = some (step i stack) := by
  cases hp : i.opcode.isPush with
  | true => rw [dispatchStep?, if_pos hp, step_push hp]
  | false =>
    rw [dispatchStep?, hp, if_neg Bool.false_ne_true]
    split_ifs with h
    · rw [step_of_lt_arity h]
    · obtain ⟨v, hv, hstep⟩ := step_of_arity_le hp (Nat.le_of_not_lt h)
      rw [Opcode.dispatch?_eq (Opcode.length_of_value? hv), hv, hstep]
      rfl

theorem dispatchRun?_eq (code : List Instruction) (stack : List Value) :
    dispatchRun? code stack = some (run code stack) := by
  induction code generalizing stack with
  | nil => rfl
  | cons i code ih =>
    simp only [dispatchRun?, run, dispatchStep?_eq, Option.bind_eq_bind, Option.bind_some]
    cases step i stack with
    | ok next => exact ih next
    | error e => rfl

/-! Counting. -/

/-- The depth that code leaves, counted from the depth that it begins with; or else the failure of
the first instruction that has no operand to push or finds too few to take. -/
def depthAfter : List Instruction → Nat → Except MachineError Nat
  | [], depth => .ok depth
  | i :: code, depth => do depthAfter code (← i.depthAfter depth)

def ending (code : List Instruction) : Except MachineError Unit := do
  let depth ← depthAfter code 0
  if depth = 1 then .ok () else .error (.unbalancedStack depth)

/-- A step does to the depth of a stack what counting says, whatever the values. -/
theorem depthAfter_step (i : Instruction) (stack : List Value) :
    i.depthAfter stack.length = (step i stack).map List.length := by
  rw [Instruction.depthAfter]
  cases hp : i.opcode.isPush with
  | true =>
    rw [if_pos rfl, step_push hp]
    cases i.operand <;> rfl
  | false =>
    rw [if_neg Bool.false_ne_true]
    split_ifs with h
    · rw [step_of_lt_arity h]
      rfl
    · obtain ⟨v, -, hstep⟩ := step_of_arity_le hp (Nat.le_of_not_lt h)
      rw [hstep, Except.map, List.length_cons, List.length_drop]

theorem depthAfter_run (code : List Instruction) (stack : List Value) :
    depthAfter code stack.length = match run code stack with
      | (rest, none) => .ok rest.length
      | (_, some e) => .error e := by
  induction code generalizing stack with
  | nil => rfl
  | cons i code ih =>
    simp only [depthAfter, run, depthAfter_step]
    cases step i stack with
    | ok next => exact ih next
    | error e => rfl

/-- Whatever the program, and whatever the machine has run before: every instruction finds the
operation that its byte stands for, and the program succeeds or fails, with the error that it fails
with, the way that counting says; the values on the stack have no part in it. -/
theorem execute_ending (m : Machine) (p : Program) :
    dispatchRun? p.code [] = some (run p.code []) ∧
      (m.execute p).2.map (fun _ => ()) = ending p.code := by
  refine ⟨dispatchRun?_eq _ _, ?_⟩
  have hdepth := depthAfter_run p.code []
  rw [List.length_nil] at hdepth
  rw [ending, hdepth, execute]
  cases hrun : run p.code [] with
  | mk stack failure =>
    cases failure with
    | some e => rfl
    | none =>
      rcases stack with _ | ⟨v, _ | ⟨w, stack⟩⟩
      · rfl
      · rfl
      · rfl

/-- The first instruction that fails decides. -/
example : ending [.push (.integer 2), ⟨.doubleBinary .add, none⟩, ⟨.push .integer, none⟩] =
    .error .stackUnderflow := rfl

end Machine
end DeskCalculator
