import DeskCalculator.Compiler
import DeskCalculator.Proofs.Except
import DeskCalculator.Proofs.Tree
import Mathlib
/-!
Trees that have no code in a domain, and compilers that go on after such a tree. Main statement:
`Compiler.State.compile_eq_error_iff` says that a compiler fails exactly for the first node without
code, parents before their operands, whatever it has compiled before.
-/
namespace DeskCalculator

namespace Tree

variable {d : Domain} {t : Tree} {e : CompileError}

/-- A domain lacks what a node stands for, the operands left aside. -/
inductive Lacks (d : Domain) : Tree → CompileError → Prop where
  | before {op : Operator} {a : Tree} (h : op.unaryOpcode? d = none) :
      Lacks d (.before op a) (.unsupportedOperator op.symbol d)
  | after {op : Operator} {a : Tree} (h : op.unaryOpcode? d = none) :
      Lacks d (.after op a) (.unsupportedOperator op.symbol d)
  | binary {op : Operator} {l r : Tree} (h : op.binaryOpcode? d = none) :
      Lacks d (.binary op l r) (.unsupportedOperator op.symbol d)
  /-- The function belongs to the other domain alone. -/
  | foreign {name : String} {args : List Tree} (h : functionOpcode? name d = none)
      (hother : (functionOpcode? name d.other).isSome) :
      Lacks d (.call name args) (.unsupportedOperator name d)
  | unknown {name : String} {args : List Tree} (h : ∀ d', functionOpcode? name d' = none) :
      Lacks d (.call name args) (.unknownFunction name)
  | arity {name : String} {args : List Tree} {opcode : Opcode}
      (h : functionOpcode? name d = some opcode) (hcount : args.length ≠ opcode.arity) :
      Lacks d (.call name args) (.arityMismatch name opcode.arity args.length)

def defect? (d : Domain) : Tree → Option CompileError
  | .before op _ | .after op _ => failure? (Compiler.opcodeOr d op (op.unaryOpcode? d))
  | .binary op _ _ => failure? (Compiler.opcodeOr d op (op.binaryOpcode? d))
  | .call name args => failure? (Compiler.callOpcode d name args.length)
  | .number _ | .constant .. | .paren _ => none

theorem lacks_of_callOpcode {name : String} {args : List Tree}
    (h : Compiler.callOpcode d name args.length = .error e) : Lacks d (.call name args) e := by
  rw [Compiler.callOpcode] at h
  cases hop : functionOpcode? name d with
  | some opcode =>
    simp only [hop] at h
    split_ifs at h with hcount
    cases h
    exact .arity hop hcount
  | none =>
    simp only [hop] at h
    split_ifs at h with hother
    · cases h
      exact .foreign hop hother
    · cases h
      refine .unknown fun d' => ?_
      -- There are two domains, and neither knows the name.
      have hnone : functionOpcode? name d.other = none := by simpa using hother
      cases d <;> cases d' <;> assumption

theorem callOpcode_of_lacks {name : String} {args : List Tree} (h : Lacks d (.call name args) e) :
    Compiler.callOpcode d name args.length = .error e := by
  cases h with
  | foreign h hother => simp only [Compiler.callOpcode, h, if_pos hother]
  | unknown h => simp [Compiler.callOpcode, h]
  | arity h hcount => simp only [Compiler.callOpcode, h, if_neg hcount]

theorem opcodeOr_eq_error {op : Operator} {opcode? : Option Opcode} :
    Compiler.opcodeOr d op opcode? = .error e ↔
      opcode? = none ∧ e = .unsupportedOperator op.symbol d := by
  cases opcode? <;> simp [Compiler.opcodeOr, eq_comm]

theorem defect?_eq_some_iff : t.defect? d = some e ↔ t.Lacks d e := by
  cases t with
  | number v | constant name v | paren a =>
    constructor
    · intro h
      cases h
    · intro h
      cases h
  | before op a | after op a =>
    rw [defect?, failure?_eq_some, opcodeOr_eq_error]
    constructor
    · rintro ⟨h, rfl⟩
      constructor
      exact h
    · intro h
      cases h
      exact ⟨‹_›, rfl⟩
  | binary op l r =>
    rw [defect?, failure?_eq_some, opcodeOr_eq_error]
    constructor
    · rintro ⟨h, rfl⟩
      exact .binary h
    · intro h
      cases h
      exact ⟨‹_›, rfl⟩
  | call name args =>
    rw [defect?, failure?_eq_some]
    exact ⟨lacks_of_callOpcode, callOpcode_of_lacks⟩

theorem findSome?_cons (f : Tree → Option CompileError) (t : Tree) (ts : List Tree) :
    (t :: ts).findSome? f = (f t).or (ts.findSome? f) := by
  rw [List.findSome?_cons]
  cases f t <;> rfl

theorem failure?_codeOfAll {args : List Tree}
    (h : ∀ a ∈ args, failure? (Compiler.code d a) = a.subtrees.findSome? (defect? d)) :
    failure? (Compiler.codeOfAll d args) = (subtreesOfAll args).findSome? (defect? d) := by
  induction args with
  | nil => rfl
  | cons a args ih =>
    rw [Compiler.codeOfAll, subtreesOfAll, List.findSome?_append, ← h a List.mem_cons_self,
      ← ih fun b hb => h b (List.mem_cons_of_mem _ hb)]
    exact failure?_bind fun _ => failure?_bind_pure

/-- Compiling fails for what the first node in need of something lacks. -/
theorem failure?_code (d : Domain) (t : Tree) :
    failure? (Compiler.code d t) = t.subtrees.findSome? (defect? d) := by
  induction t with
  | number v | constant name v => rfl
  | before op a ih | after op a ih =>
    rw [Compiler.code, subtrees, findSome?_cons, ← ih]
    exact failure?_bind fun _ => failure?_bind_pure
  | binary op l r ihl ihr =>
    rw [Compiler.code, subtrees, findSome?_cons, List.findSome?_append, ← ihl, ← ihr]
    exact failure?_bind fun _ => failure?_bind fun _ => failure?_bind_pure
  | call name args ih =>
    rw [Compiler.code, subtrees, findSome?_cons, ← failure?_codeOfAll ih]
    exact failure?_bind fun _ => failure?_bind_pure
  | paren a ih =>
    rw [Compiler.code, subtrees, findSome?_cons, ih]
    rfl

theorem exists_code_eq_error_iff (d : Domain) (t : Tree) : (∃ e, Compiler.code d t = .error e) ↔
    ∃ u ∈ t.subtrees, ∃ e, u.Lacks d e := by
  have hsome := List.findSome?_isSome_iff (f := defect? d) (l := t.subtrees)
  simpa only [← failure?_code, Option.isSome_iff_exists, failure?_eq_some, defect?_eq_some_iff]
    using hsome

/-- The nodes of a tree come parents first, and operands from left to right. -/
theorem code_eq_error_iff : Compiler.code d t = .error e ↔
    ∃ before u after, t.subtrees = before ++ u :: after ∧ u.Lacks d e ∧
      ∀ w ∈ before, ∀ e', ¬ w.Lacks d e' := by
  rw [← failure?_eq_some, failure?_code, List.findSome?_eq_some_iff]
  simp only [defect?_eq_some_iff, Option.eq_none_iff_forall_ne_some, ne_eq]

end Tree

/-! Compilers at work. -/

namespace Compiler

theorem compile_eq_error {name : String} {d : Domain} {t : Tree} {e : CompileError} :
    compile name d t = .error e ↔ code d t = .error e := by
  rw [compile]
  cases code d t <;> simp [Except.map]

/-- Work on a program under construction. What has been emitted before a failure stays there. -/
abbrev Emission : Type → Type := ExceptT CompileError (StateM (List Instruction))

def Emission.check {α : Type} (x : Except CompileError α) : Emission α := ExceptT.mk (pure x)

def emit (i : Instruction) : Emission Unit := modify (· ++ [i])

mutual

/-- Emits the code of a tree on the way through it. -/
def emitCode (d : Domain) : Tree → Emission Unit
  | .number v | .constant _ v => emit (.pushIn d (v.coerce d))
  | .before op a | .after op a => do
    let opcode ← Emission.check (opcodeOr d op (op.unaryOpcode? d))
    emitCode d a
    emit ⟨opcode, none⟩
  | .binary op l r => do
    let opcode ← Emission.check (opcodeOr d op (op.binaryOpcode? d))
    emitCode d l
    emitCode d r
    emit ⟨opcode, none⟩
  | .call name args => do
    let opcode ← Emission.check (callOpcode d name args.length)
    emitAll d args
    emit ⟨opcode, none⟩
  | .paren a => emitCode d a

def emitAll (d : Domain) : List Tree → Emission Unit
  | [] => pure ()
  | a :: rest => do
    emitCode d a
    emitAll d rest

end

/-- The work adds the code to a program under construction, or fails with the error. -/
structure Emits (work : Emission Unit) (x : Except CompileError (List Instruction)) : Prop where
  ok : ∀ {code}, x = .ok code → ∀ program, work program = (.ok (), program ++ code)
  error : ∀ {e}, x = .error e → ∀ program, ∃ left, work program = (.error e, left)

variable {d : Domain} {x y : Except CompileError (List Instruction)} {work next : Emission Unit}

theorem bind_of_ok {α β : Type} {m : Emission α} {f : α → Emission β} {a : α}
    {program program' : List Instruction} (h : m program = (.ok a, program')) :
    (m >>= f) program = f a program' := by
  show (StateT.bind m (ExceptT.bindCont f)) program = _
  rw [StateT.bind, h]
  rfl

theorem bind_of_error {α β : Type} {m : Emission α} {f : α → Emission β} {e : CompileError}
    {program program' : List Instruction} (h : m program = (.error e, program')) :
    (m >>= f) program = (.error e, program') := by
  show (StateT.bind m (ExceptT.bindCont f)) program = _
  rw [StateT.bind, h]
  rfl

theorem emits_emit (i : Instruction) : Emits (emit i) (.ok [i]) where
  ok h program := by
    cases h
    rfl
  error h := by cases h

theorem emits_nil : Emits (pure ()) (.ok []) where
  ok h program := by
    cases h
    rw [List.append_nil]
    rfl
  error h := by cases h

theorem Emits.append (h : Emits work x) (h' : Emits next y) :
    Emits (do work; next) (do return (← x) ++ (← y)) where
  ok hcode program := by
    simp only [bind_eq_ok, pure_eq_ok] at hcode
    obtain ⟨code, hx, code', hy, rfl⟩ := hcode
    rw [bind_of_ok (h.ok hx program), h'.ok hy, List.append_assoc]
  error he program := by
    cases x with
    | error e =>
      cases he
      obtain ⟨left, hwork⟩ := h.error rfl program
      exact ⟨left, bind_of_error hwork⟩
    | ok code =>
      rw [bind_of_ok (h.ok rfl program)]
      refine h'.error ?_ _
      cases y with
      | error e => exact he
      | ok code' => cases he

theorem Emits.check {α : Type} {c : Except CompileError α} {work : α → Emission Unit}
    {f : α → Except CompileError (List Instruction)} (h : ∀ a, Emits (work a) (f a)) :
    Emits (do work (← Emission.check c)) (do f (← c)) := by
  cases c with
  | ok a => exact h a
  | error e =>
    constructor
    · intro code hcode
      cases hcode
    · intro e' he program
      cases he
      exact ⟨program, rfl⟩

theorem emits_emitAll {args : List Tree} (h : ∀ a ∈ args, Emits (emitCode d a) (code d a)) :
    Emits (emitAll d args) (codeOfAll d args) := by
  induction args with
  | nil => exact emits_nil
  | cons a args ih =>
    rw [emitAll, codeOfAll]
    exact (h a List.mem_cons_self).append (ih fun b hb => h b (List.mem_cons_of_mem _ hb))

theorem emits_emitCode (d : Domain) (t : Tree) : Emits (emitCode d t) (code d t) := by
  induction t with
  | number v | constant name v => exact emits_emit _
  | before op a ih | after op a ih =>
    rw [emitCode, code]
    exact Emits.check fun opcode => ih.append (emits_emit _)
  | binary op l r ihl ihr =>
    rw [emitCode, code]
    refine Emits.check fun opcode => ?_
    have hoperands := (ihl.append ihr).append (emits_emit ⟨opcode, none⟩)
    simpa only [bind_assoc, pure_bind, ok_bind] using hoperands
  | call name args ih =>
    rw [emitCode, code]
    exact Emits.check fun opcode => (emits_emitAll ih).append (emits_emit _)
  | paren a ih => exact ih

/-- A compiler, and the program that it has under construction. -/
structure State where
  name : String
  domain : Domain
  program : List Instruction := []

namespace State

variable {e : CompileError}

/-- Begins a new program, and hands it out once the code of the tree is complete. -/
def compile (s : State) (t : Tree) : State × Except CompileError Program :=
  match emitCode s.domain t [] with
  | (.ok (), code) => ({ s with program := [] }, .ok ⟨s.name, s.domain, code⟩)
  | (.error e, left) => ({ s with program := left }, .error e)

/-- The compiler after some trees, whether they had code or not. -/
def after (s : State) (ts : List Tree) : State := ts.foldl (fun s t => (s.compile t).1) s

/-- What earlier trees have left in the program under construction has no part in the next one. -/
theorem compile_eq (s : State) (t : Tree) :
    (s.compile t).2 = Compiler.compile s.name s.domain t ∧
      (s.compile t).1.name = s.name ∧ (s.compile t).1.domain = s.domain := by
  have hemits := emits_emitCode s.domain t
  rw [compile, Compiler.compile]
  -- Work starts from the empty program, whatever is left in the state.
  cases hcode : code s.domain t with
  | ok code =>
    rw [hemits.ok hcode, List.nil_append]
    exact ⟨rfl, rfl, rfl⟩
  | error e =>
    obtain ⟨left, hleft⟩ := hemits.error hcode []
    rw [hleft]
    exact ⟨rfl, rfl, rfl⟩

theorem after_settings (s : State) (ts : List Tree) :
    (s.after ts).name = s.name ∧ (s.after ts).domain = s.domain := by
  induction ts generalizing s with
  | nil => exact ⟨rfl, rfl⟩
  | cons t ts ih =>
    obtain ⟨-, hname, hdomain⟩ := s.compile_eq t
    obtain ⟨hname', hdomain'⟩ := ih (s.compile t).1
    exact ⟨hname'.trans hname, hdomain'.trans hdomain⟩

/-- Whatever trees a compiler has seen before, and whether it has failed for some of them: it
compiles a tree as a new one would; it fails exactly if the domain lacks something for a node of the
tree, and then with what is lacking for the first such node, parents before their operands and
operands from left to right. -/
theorem compile_eq_error_iff (s : State) (ts : List Tree) (t : Tree) :
    let result := ((s.after ts).compile t).2
    result = (State.compile { name := s.name, domain := s.domain } t).2 ∧
      result = Compiler.compile s.name s.domain t ∧
      ((∃ e, result = .error e) ↔ ∃ u ∈ t.subtrees, ∃ e, u.Lacks s.domain e) ∧
      ∀ e, result = .error e ↔
        ∃ before u after, t.subtrees = before ++ u :: after ∧ u.Lacks s.domain e ∧
          ∀ w ∈ before, ∀ e', ¬ w.Lacks s.domain e' := by
  intro result
  obtain ⟨hname, hdomain⟩ := s.after_settings ts
  have hresult : result = Compiler.compile s.name s.domain t := by
    rw [← hname, ← hdomain]
    exact ((s.after ts).compile_eq t).1
  have hfresh := (compile_eq { name := s.name, domain := s.domain } t).1
  refine ⟨hresult.trans hfresh.symm, hresult, ?_, fun e => ?_⟩
  · simp only [hresult, compile_eq_error]
    exact Tree.exists_code_eq_error_iff s.domain t
  · rw [hresult, compile_eq_error]
    exact Tree.code_eq_error_iff

/-- The percent sign comes before its operand, and the left operand before the right one. -/
example : Compiler.compile "p" .integer
    (.binary .add (.after .percent (.call "f" [])) (.call "sin" [])) =
      .error (.unsupportedOperator "%" .integer) := rfl

end State

end Compiler
end DeskCalculator
