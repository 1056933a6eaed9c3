import DeskCalculator.Proofs.Taping
/-!
The listing of an evaluation, and the program that was run for it. Main statement:
`Session.bytecode_runKeys` says that the listing after a script is that of the program exactly if the
keypad then in use computes in the domain of the program.
-/
namespace DeskCalculator

/-! Listings. -/

namespace Program

variable {p q : Program}

theorem exists_disassembly_eq (p : Program) : ∃ rest,
    p.disassembly = "========== Program: " ++ p.name ++ " (" ++ p.domain.name ++ rest := by
  have hheader : p.headerLine = "========== Program: " ++ p.name ++ " (" ++ p.domain.name ++ ", " ++
      toString p.code.length ++ " instructions) ==========" := rfl
  rw [disassembly, lines, List.map_cons, String.join_cons, hheader]
  simp only [String.append_assoc, String.append_right_inj, exists_eq']

theorem domain_eq_of_disassembly_eq (hname : p.name = q.name)
    (h : p.disassembly = q.disassembly) : p.domain = q.domain := by
  obtain ⟨rest, hp⟩ := p.exists_disassembly_eq
  obtain ⟨rest', hq⟩ := q.exists_disassembly_eq
  rw [hp, hq, hname] at h
  have hchars := congrArg String.toList h
  simp only [String.toList_append, List.append_assoc, List.append_cancel_left_eq] at hchars
  revert hchars
  generalize p.domain = d, q.domain = d'
  -- The names of the domains differ in their first letter.
  cases d <;> cases d' <;> intro hchars <;> first | rfl | cases hchars

end Program

theorem Compiler.compile_eq_ok {name : String} {d : Domain} {t : Tree} {p : Program}
    (h : compile name d t = .ok p) : p.name = name ∧ p.domain = d := by
  obtain ⟨code, -, rfl⟩ := map_eq_ok.1 h
  exact ⟨rfl, rfl⟩

namespace Calculator

variable {c c' : Calculator} {t : Tree} {e : Evaluation} {p : Program}

theorem compile_eq_ok_iff :
    c.compile t = .ok p ↔ Compiler.compile programName c.domain t = .ok p := by
  unfold compile
  split <;> simp [*]

theorem compile_congr (hdomain : c'.domain = c.domain) (t : Tree) : c'.compile t = c.compile t := by
  rw [compile, compile, hdomain]

theorem exists_compile_eq_ok_iff : (∃ p, c.compile t = .ok p) ↔ t.Supported c.domain := by
  simp only [compile_eq_ok_iff, Compiler.compile, map_eq_ok]
  constructor
  · rintro ⟨p, code, hcode, -⟩
    exact ⟨code, hcode⟩
  · rintro ⟨code, hcode⟩
    exact ⟨_, code, hcode, rfl⟩

/-! Evaluations that keep their program. -/

/-- Compiles a tree and runs its program, which is kept. -/
def execute (c : Calculator) (t : Tree) : Except EvaluationError (Evaluation × Program) := do
  let p ← c.compile t
  match p.result with
  | .ok v => .ok (⟨v, t⟩, p)
  | .error e => .error (.machine e)

def root? (c : Calculator) : Input → Option Tree
  | .key .equals => c.commitTyped.context.finish.toOption
  | .key .enter =>
    if c.settings.style = .algebraic then c.commitTyped.context.finish.toOption else none
  | .key _ => none
  | .text source => (Tree.read c.settings.mode c.settings.angle source).toOption

/-- The evaluation of an input, with the program that is run for it. -/
def execution? (c : Calculator) (i : Input) : Option (Evaluation × Program) :=
  (c.root? i).bind fun t => (c.execute t).toOption

def executions (c : Calculator) (inputs : List Input) : List (Evaluation × Program) :=
  c.gather execution? inputs

theorem execute_eq_ok (h : c.execute t = .ok (e, p)) :
    e.tree = t ∧ c.compile t = .ok p ∧ p.result = .ok e.value := by
  obtain ⟨p', hcompile, h⟩ := bind_eq_ok.1 h
  split at h
  · rename_i v hresult
    cases h
    exact ⟨rfl, hcompile, hresult⟩
  · cases h

theorem execute_of_execution? {i : Input} (h : c.execution? i = some (e, p)) :
    c.compile e.tree = .ok p ∧ p.result = .ok e.value := by
  obtain ⟨t, -, ht⟩ := Option.bind_eq_some_iff.1 h
  obtain ⟨rfl, hcompile, hresult⟩ := execute_eq_ok (toOption_eq_some.1 ht)
  exact ⟨hcompile, hresult⟩

theorem map_fst_execute (c : Calculator) (t : Tree) :
    (c.execute t).map Prod.fst = (c.evaluate t).map (⟨·, t⟩) := by
  rw [evaluate, execute]
  cases c.compile t with
  | error e => rfl
  | ok p =>
    simp only [ok_bind]
    cases p.result <;> rfl

/-- The equals key gives the value of the whole expression; typing has no part in it. -/
theorem equals_eq (c : Calculator) : c.equals.2 =
    c.commitTyped.context.finish.toOption.bind fun t =>
      ((c.evaluate t).map (⟨·, t⟩)).toOption := by
  have hevaluate (t : Tree) : c.commitTyped.evaluate t = c.evaluate t := by
    have hdomain : c.commitTyped.domain = c.domain := by rw [domain, domain, settings_commitTyped]
    rw [evaluate, evaluate, compile_congr hdomain]
  unfold equals
  dsimp only
  cases c.commitTyped.context.finish with
  | error e => rfl
  | ok root =>
    dsimp only
    rw [hevaluate]
    cases hvalue : c.evaluate root <;> simp [Except.toOption, Except.map, publish, hvalue]

theorem evaluateText_eq (c : Calculator) (source : String) : (c.evaluateText source).2.toOption =
    (Tree.read c.settings.mode c.settings.angle source).toOption.bind fun t =>
      ((c.evaluate t).map (⟨·, t⟩)).toOption := by
  unfold evaluateText
  cases Tree.read c.settings.mode c.settings.angle source with
  | error e => rfl
  | ok t =>
    dsimp only
    cases hvalue : c.evaluate t <;> simp [Except.toOption, Except.map, publish, hvalue]

theorem evaluation?_eq (c : Calculator) (i : Input) : c.evaluation? i =
    (c.root? i).bind fun t => ((c.evaluate t).map (⟨·, t⟩)).toOption := by
  cases i with
  | text source => exact evaluateText_eq c source
  | key k =>
    cases k with
    | equals => exact equals_eq c
    | enter =>
      simp only [evaluation?, press, enter, root?]
      cases c.settings.style with
      | algebraic => exact equals_eq c
      | rpn =>
        dsimp only
        split
        · rfl
        · split <;> rfl
    | _ => rfl

theorem map_fst_execution? (c : Calculator) (i : Input) :
    (c.execution? i).map Prod.fst = c.evaluation? i := by
  rw [evaluation?_eq, execution?, Option.map_bind]
  refine congrArg (c.root? i).bind (funext fun t => ?_)
  rw [← map_fst_execute, toOption_map]
  rfl

theorem map_fst_executions (c : Calculator) (inputs : List Input) :
    (c.executions inputs).map Prod.fst = (c.results inputs).map Prod.fst := by
  induction inputs generalizing c with
  | nil => rfl
  | cons i inputs ih =>
    rw [executions, gather, results, List.map_append, List.map_append, ← map_fst_execution?]
    refine congrArg₂ _ ?_ (ih (c.feed i))
    cases c.execution? i <;> rfl

end Calculator

namespace Session

variable {s : Session} {e : Evaluation}

theorem bytecode_eq_ok_iff {text : String} : s.bytecode e = .ok text ↔
    ∃ p, s.calculator.compile e.tree = .ok p ∧ p.disassembly = text := by
  unfold bytecode
  split <;> simp [*]

theorem exists_bytecode_eq_ok_iff :
    (∃ text, s.bytecode e = .ok text) ↔ e.tree.Supported s.calculator.domain := by
  simp only [bytecode_eq_ok_iff, ← Calculator.exists_compile_eq_ok_iff]
  constructor
  · rintro ⟨text, p, hp, -⟩
    exact ⟨p, hp⟩
  · rintro ⟨p, hp⟩
    exact ⟨_, p, hp, rfl⟩

/-- The program of a tree is listed exactly under a keypad that computes in its domain. -/
theorem bytecode_eq_disassembly_iff {c : Calculator} {p : Program}
    (hcompile : c.compile e.tree = .ok p) :
    s.bytecode e = .ok p.disassembly ↔ s.calculator.domain = c.domain := by
  rw [bytecode_eq_ok_iff]
  constructor
  · rintro ⟨q, hq, htext⟩
    obtain ⟨hname, hdomain⟩ := Compiler.compile_eq_ok (Calculator.compile_eq_ok_iff.1 hcompile)
    obtain ⟨hname', hdomain'⟩ := Compiler.compile_eq_ok (Calculator.compile_eq_ok_iff.1 hq)
    rw [← hdomain, ← hdomain']
    exact Program.domain_eq_of_disassembly_eq (hname'.trans hname.symm) htext
  · intro hdomain
    exact ⟨p, by rw [Calculator.compile_congr hdomain, hcompile], rfl⟩

/-- The listing of an evaluation is that of the program that has run exactly in the domain of that
program. -/
theorem bytecode_eq_iff_of_mem_executions {c : Calculator} {keys : List Key} {p : Program}
    (h : (e, p) ∈ c.executions (keys.map .key)) :
    s.bytecode e = .ok p.disassembly ↔ s.calculator.domain = p.domain := by
  obtain ⟨front, k, back, -, hk⟩ := Calculator.exists_of_mem_gather h
  obtain ⟨hcompile, -⟩ := Calculator.execute_of_execution? hk
  obtain ⟨-, hdomain⟩ := Compiler.compile_eq_ok (Calculator.compile_eq_ok_iff.1 hcompile)
  rw [hdomain]
  exact bytecode_eq_disassembly_iff hcompile

/-- A script of known keys gives the evaluations of its keys. After the script the listing of one is
that of the program whose result it is, exactly if the keypad then in use computes in the domain of
the program; so it is if no key after that of the evaluation chooses a keypad. In the other domain
there is a listing only if the tree has code there, and it is that of another program. -/
theorem bytecode_runKeys (h : s.Reachable) (script : String)
    (hknown : (s.calculator.readTokens (Text.words script)).2 = none) :
    let keys := (s.calculator.readTokens (Text.words script)).1
    let executions := s.calculator.executions (keys.map .key)
    let s' := (s.runKeys script).1
    (s.runKeys script).2 = .ok (executions.map Prod.fst) ∧
      ∀ e p, (e, p) ∈ executions → p.result = .ok e.value ∧
        (s'.bytecode e = .ok p.disassembly ↔ s'.calculator.domain = p.domain) ∧
        ((∃ text, s'.bytecode e = .ok text) ↔ e.tree.Supported s'.calculator.domain) ∧
        ∃ front k back, keys = front ++ k :: back ∧
          (s.calculator.run (front.map .key)).execution? (.key k) = some (e, p) ∧
          ((∀ k' ∈ back, ¬ k'.setsMode) → s'.bytecode e = .ok p.disassembly) := by
  obtain ⟨es, hfed, hresult⟩ := h.taped.runTokens (Text.words script)
  rw [hknown, hfed.evaluations, ← Calculator.map_fst_executions] at hresult
  intro keys executions s'
  refine ⟨hresult, fun e p hmem => ?_⟩
  obtain ⟨front, k, back, hkeys, hk⟩ := Calculator.exists_of_mem_gather hmem
  obtain ⟨hcompile, hvalue⟩ := Calculator.execute_of_execution? hk
  obtain ⟨-, hdomain⟩ := Compiler.compile_eq_ok (Calculator.compile_eq_ok_iff.1 hcompile)
  have hlisting : s'.bytecode e = .ok p.disassembly ↔ s'.calculator.domain = p.domain :=
    bytecode_eq_iff_of_mem_executions hmem
  refine ⟨hvalue, hlisting, exists_bytecode_eq_ok_iff, front, k, back, hkeys, hk, fun hback => ?_⟩
  let before := s.calculator.run (front.map .key)
  have hevaluation : before.evaluation? (.key k) = some e := by
    rw [← Calculator.map_fst_execution?, hk]
    rfl
  have hafter : s'.calculator = (before.feed (.key k)).run (back.map .key) := by
    have hrun : s'.calculator = s.calculator.run (keys.map .key) := hfed.calculator
    rw [hrun, hkeys, List.map_append, Calculator.run_append]
    rfl
  rw [hlisting, hafter, Calculator.domain_run hback, Calculator.domain,
    (Calculator.shown_of_evaluation? hevaluation).1]
  exact hdomain.symm

theorem bytecode_runKeys_product :
    let s := ofSettings { mode := .programmer } ⟨0⟩
    let script := "6 * 7 = hex"
    s.Reachable ∧ (s.calculator.readTokens (Text.words script)).2 = none ∧
      ∃ e, (s.runKeys script).2 = .ok [e] ∧ (s.runKeys script).1.bytecode e = .ok
        ("========== Program: <calc> (integer, 3 instructions) ==========\n" ++
          "0000  PUSHI    6 (0x6)\n" ++ "0001  PUSHI    7 (0x7)\n" ++ "0002  MULI\n") := by
  intro s script
  have hs : s.Reachable := .fresh _ _
  have hknown : (s.calculator.readTokens (Text.words script)).2 = none := by decide +kernel
  obtain ⟨hresult, hlistings⟩ := bytecode_runKeys hs script hknown
  let executions :=
    s.calculator.executions ((s.calculator.readTokens (Text.words script)).1.map .key)
  have htexts : executions.map (·.2.disassembly) =
      ["========== Program: <calc> (integer, 3 instructions) ==========\n" ++
        "0000  PUSHI    6 (0x6)\n" ++ "0001  PUSHI    7 (0x7)\n" ++ "0002  MULI\n"] := by
    decide +kernel
  obtain ⟨⟨e, p⟩, hone, htext⟩ := List.map_eq_singleton_iff.1 htexts
  rw [show s.calculator.executions _ = [(e, p)] from hone] at hresult hlistings
  obtain ⟨-, -, -, front, k, back, hkeys, -, hback⟩ := hlistings e p List.mem_cons_self
  have hmode : ∀ k' ∈ (s.calculator.readTokens (Text.words script)).1, ¬ k'.setsMode := by
    decide +kernel
  have hlisting := hback fun k' hk' => hmode k' (by simp [hkeys, hk'])
  exact ⟨hs, hknown, e, hresult, hlisting.trans (congrArg _ htext)⟩

/-- A key that chooses a keypad after the result: the listing is of a program on doubles, while one on
integers has run. -/
theorem not_bytecode_runKeys_disassembly : ¬ ∀ (s : Session) (script : String),
    s.Reachable → (s.calculator.readTokens (Text.words script)).2 = none →
      let keys := (s.calculator.readTokens (Text.words script)).1
      let s' := (s.runKeys script).1
      ∀ e p, (e, p) ∈ s.calculator.executions (keys.map .key) →
        s'.bytecode e = .ok p.disassembly := by
  intro h
  let s := ofSettings { mode := .programmer } ⟨0⟩
  let script := "6 * 7 = scientific"
  let executions :=
    s.calculator.executions ((s.calculator.readTokens (Text.words script)).1.map .key)
  have hran : executions.map (·.2.domain) = [.integer] := by decide +kernel
  have hafter : (s.runKeys script).1.calculator.domain = .double := by decide +kernel
  obtain ⟨⟨e, p⟩, hone, hdomain⟩ := List.map_eq_singleton_iff.1 hran
  have hmem : (e, p) ∈ executions := hone ▸ List.mem_cons_self
  have hlisting := h s script (.fresh _ _) (by decide +kernel) e p hmem
  rw [bytecode_eq_iff_of_mem_executions hmem, hafter] at hlisting
  exact absurd (hlisting.trans hdomain) (by decide)

end Session
end DeskCalculator
