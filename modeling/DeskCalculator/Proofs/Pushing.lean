import DeskCalculator.Proofs.Compilation
/-!
What the instructions of a program push, whether it was compiled or not. Main statement:
`Machine.isError_execute_iff` says that a program ends in an error exactly if an error has been
pushed, and then in the first one.
-/
namespace DeskCalculator

def Instruction.value? (i : Instruction) (operands : List Value) : Option Value :=
  if i.opcode.isPush then i.operand else i.opcode.value? operands

/-- An operation does not get past the first error among its operands. -/
theorem Opcode.value?_of_find? {op : Opcode} {vs : List Value} {e v : Value}
    (he : vs.find? Value.isError = some e) (h : op.value? vs = some v) : v = e := by
  rw [value?, if_pos (length_of_value? h), he] at h
  exact (Option.some.inj h).symm

namespace Machine

variable {i : Instruction} {code : List Instruction} {stack stack' next : List Value} {v : Value}

theorem step_of_not_isPush (hp : i.opcode.isPush = false) (stack : List Value) :
    step i stack = step ⟨i.opcode, none⟩ stack := by
  simp only [step]
  cases hop : i.opcode with
  | push d => simp [hop, Opcode.isPush] at hp
  | _ => rfl

theorem arity_le_of_step (h : step i stack = .ok next) : i.opcode.arity ≤ stack.length := by
  cases hop : i.opcode with
  | push d => exact Nat.zero_le _
  | doubleUnary f | integerUnary f =>
    match stack with
    | [] => simp [step, hop, applyUnary] at h
    | a :: stack => simp [Opcode.arity]
  | doubleBinary f | integerBinary f =>
    match stack with
    | [] | [a] => simp [step, hop, applyBinary] at h
    | b :: a :: stack => simp [Opcode.arity]

/-- An operation that finds its operands on the stack puts its result in their place. -/
theorem step_of_arity_le (hp : i.opcode.isPush = false) (h : i.opcode.arity ≤ stack.length) :
    ∃ v, i.opcode.value? (stack.take i.opcode.arity).reverse = some v ∧
      step i stack = .ok (v :: stack.drop i.opcode.arity) := by
  have hlength : (stack.take i.opcode.arity).reverse.length = i.opcode.arity := by simpa using h
  obtain ⟨v, hv⟩ := Opcode.exists_value? hp _ hlength
  have hstep := step_operation hp hv (stack.drop i.opcode.arity)
  rw [List.reverse_reverse, List.take_append_drop, ← step_of_not_isPush hp] at hstep
  exact ⟨v, hv, hstep⟩

/-- What a step can do: it takes as many values from the stack as the opcode asks for, and pushes
exactly one. -/
theorem step_eq_ok (h : step i stack = .ok next) :
    ∃ v, i.value? (stack.take i.opcode.arity).reverse = some v ∧
      next = v :: stack.drop i.opcode.arity := by
  cases hpush : i.opcode.isPush with
  | true =>
    obtain ⟨op, operand⟩ := i
    cases op with
    | push d =>
      cases operand with
      | none => cases h
      | some v => exact ⟨v, rfl, (Except.ok.inj h).symm⟩
    | _ => cases hpush
  | false =>
    obtain ⟨v, hv, hstep⟩ := step_of_arity_le hpush (arity_le_of_step h)
    rw [h] at hstep
    exact ⟨v, by simp [Instruction.value?, hpush, hv], Except.ok.inj hstep⟩

/-- The values that a run pushes, in the order of the instructions; each step leaves the value that
it pushes on top. -/
def pushed : List Instruction → List Value → List Value
  | [], _ => []
  | i :: code, stack =>
    match step i stack with
    | .ok (v :: rest) => v :: pushed code (v :: rest)
    | _ => []

def lowestError? (stack : List Value) : Option Value := stack.reverse.find? Value.isError

theorem lowestError?_append (upper lower : List Value) :
    lowestError? (upper ++ lower) = (lowestError? lower).or (lowestError? upper) := by
  simp [lowestError?, List.find?_append]

/-- If an instruction takes an error from the stack, it pushes the lowest one of those taken. -/
theorem value?_of_lowestError? {e : Value}
    (hv : i.value? (stack.take i.opcode.arity).reverse = some v)
    (he : lowestError? (stack.take i.opcode.arity) = some e) : v = e := by
  cases hpush : i.opcode.isPush with
  | true =>
    have harity : i.opcode.arity = 0 := by
      cases hop : i.opcode with
      | push d => rfl
      | _ => simp [hop, Opcode.isPush] at hpush
    simp [harity, lowestError?] at he
  | false =>
    simp only [Instruction.value?, hpush, Bool.false_eq_true, if_false] at hv
    exact Opcode.value?_of_find? he hv

/-- A value that is pushed becomes the lowest error only where there has been none; an operation
that takes the lowest error from the stack puts it back. -/
theorem lowestError?_push (hv : i.value? (stack.take i.opcode.arity).reverse = some v) :
    lowestError? (v :: stack.drop i.opcode.arity) =
      (lowestError? stack).or ([v].find? Value.isError) := by
  have hstack := lowestError?_append (stack.take i.opcode.arity) (stack.drop i.opcode.arity)
  have hnext := lowestError?_append [v] (stack.drop i.opcode.arity)
  have hv' : lowestError? [v] = [v].find? Value.isError := rfl
  rw [List.take_append_drop] at hstack
  rw [List.singleton_append, hv'] at hnext
  rw [hnext, hstack, Option.or_assoc]
  congr 1
  cases htaken : lowestError? (stack.take i.opcode.arity) with
  | none => rfl
  | some e =>
    have herror : e.isError := List.find?_some htaken
    simp [value?_of_lowestError? hv htaken, herror]

/-- Through a whole run the lowest error on the stack stays the first one there has been. -/
theorem lowestError?_run (h : run code stack = (stack', none)) :
    lowestError? stack' = (lowestError? stack).or ((pushed code stack).find? Value.isError) := by
  induction code generalizing stack with
  | nil =>
    obtain rfl : stack = stack' := congrArg Prod.fst h
    simp [pushed]
  | cons i code ih =>
    simp only [run] at h
    split at h
    · rename_i next hstep
      obtain ⟨v, hv, rfl⟩ := step_eq_ok hstep
      rw [ih h, lowestError?_push hv, Option.or_assoc, ← List.find?_append]
      simp [pushed, hstep]
    · cases h

theorem run_of_execute {m : Machine} {p : Program} (h : (m.execute p).2 = .ok v) :
    run p.code [] = ([v], none) := by
  simp only [execute] at h
  split at h
  · cases h
  · rename_i w hrun
    rw [hrun, Except.ok.inj h]
  · cases h

/-- Whatever the program, and whatever the machine has run before: a result is an error exactly if
an instruction has pushed an error, and then it is the first error pushed. -/
theorem isError_execute_iff (m : Machine) (p : Program) {v : Value}
    (h : (m.execute p).2 = .ok v) :
    (v.isError ↔ ∃ e ∈ pushed p.code [], e.isError) ∧
      (v.isError → (pushed p.code []).find? Value.isError = some v) := by
  have hfirst : [v].find? Value.isError = (pushed p.code []).find? Value.isError :=
    lowestError?_run (run_of_execute h)
  refine ⟨?_, fun hv => ?_⟩
  · rw [← List.find?_isSome, ← hfirst]
    simp
  · rw [← hfirst]
    simp [hv]

/-- Two errors, of which the one pushed first lies deeper in the sum. -/
theorem isError_execute_iff_quotient :
    let p : Program := ⟨"p", .double,
      [.push (.double 1), .push (.integer 7), .push (.integer 0), ⟨.integerBinary .div, none⟩,
        .push (.error .overflow), ⟨.doubleUnary .neg, none⟩, ⟨.doubleBinary .mul, none⟩,
        ⟨.doubleBinary .add, none⟩]⟩
    let m : Machine := ⟨[.integer 3]⟩
    (m.execute p).2 = .ok (.error .divideByZero) ∧
      (pushed p.code []).find? Value.isError = some (.error .divideByZero) := by
  intro p m
  have hresult : (m.execute p).2 = .ok (.error .divideByZero) := rfl
  obtain ⟨-, hfirst⟩ := isError_execute_iff m p hresult
  exact ⟨hresult, hfirst rfl⟩

end Machine
end DeskCalculator
