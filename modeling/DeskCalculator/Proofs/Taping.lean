import DeskCalculator.Session
import DeskCalculator.Proofs.Formula
import DeskCalculator.Proofs.Growth
import DeskCalculator.Proofs.SettingKeys
/-!
The tape against the evaluations. Main statement: `Session.lines_runKeys` says that a script adds to
the tape one line for each evaluation that its keys give, with the text shown right after the key,
and nothing else; listeners that fail do not change that.
-/
namespace DeskCalculator

namespace Calculator

variable {c : Calculator} {e : Evaluation}

/-- The evaluations that inputs give, each with the calculator right after its input. -/
def results (c : Calculator) : List Input → List (Evaluation × Calculator)
  | [] => []
  | i :: inputs => ((c.evaluation? i).map (·, c.feed i)).toList ++ (c.feed i).results inputs

/-- What inputs give, each in the state that the inputs before it lead to. -/
def gather {α : Type} (f : Calculator → Input → Option α) (c : Calculator) : List Input → List α
  | [] => []
  | i :: inputs => (f c i).toList ++ (c.feed i).gather f inputs

/-- The keys of tokens, each read in the base that the keys before it lead to, up to the first
token that is none. -/
def readTokens (c : Calculator) : List String → List Key × Option UnknownKey
  | [] => ([], none)
  | token :: tokens =>
    match Keystroke.read c.base token with
    | .error unknown => ([], some unknown)
    | .ok ks =>
      let (rest, unknown?) := (c.run (ks.map .key)).readTokens tokens
      (ks ++ rest, unknown?)

theorem results_append (c : Calculator) (inputs inputs' : List Input) :
    c.results (inputs ++ inputs') = c.results inputs ++ (c.run inputs).results inputs' := by
  induction inputs generalizing c with
  | nil => rfl
  | cons i inputs ih =>
    simp only [List.cons_append, results, ih, List.append_assoc]
    rfl

theorem results_eq_nil {inputs : List Input}
    (h : ∀ i ∈ inputs, ∀ c : Calculator, c.evaluation? i = none) : c.results inputs = [] := by
  induction inputs generalizing c with
  | nil => rfl
  | cons i inputs ih =>
    rw [results, h i List.mem_cons_self, ih fun i' hi' => h i' (List.mem_cons_of_mem _ hi')]
    rfl

theorem results_eq_gather (c : Calculator) (inputs : List Input) :
    c.results inputs = c.gather (fun c i => (c.evaluation? i).map (·, c.feed i)) inputs := by
  induction inputs generalizing c with
  | nil => rfl
  | cons i inputs ih => rw [results, gather, ih]

theorem exists_of_mem_gather {α : Type} {f : Calculator → Input → Option α} {ks : List Key} {a : α}
    (h : a ∈ c.gather f (ks.map .key)) :
    ∃ front k back, ks = front ++ k :: back ∧ f (c.run (front.map .key)) (.key k) = some a := by
  induction ks generalizing c with
  | nil => cases h
  | cons k ks ih =>
    rcases List.mem_append.1 h with h | h
    · exact ⟨[], k, ks, rfl, Option.mem_toList.1 h⟩
    · obtain ⟨front, k', back, rfl, hk'⟩ := ih h
      exact ⟨k :: front, k', back, rfl, hk'⟩

theorem exists_of_mem_results {ks : List Key} {after : Calculator}
    (h : (e, after) ∈ c.results (ks.map .key)) :
    ∃ front k back, ks = front ++ k :: back ∧
      let before := c.run (front.map .key)
      before.evaluation? (.key k) = some e ∧ after = before.feed (.key k) := by
  rw [results_eq_gather] at h
  obtain ⟨front, k, back, rfl, hk⟩ := exists_of_mem_gather h
  obtain ⟨e', he, hpair⟩ := Option.map_eq_some_iff.1 hk
  cases hpair
  exact ⟨front, k, back, rfl, he, rfl⟩

/-! What is shown after an evaluation. -/

theorem shown_of_equals (h : c.equals.2 = some e) :
    c.equals.1.settings = c.settings ∧ c.equals.1.isTyping = false ∧
      c.equals.1.display = e.value := by
  unfold equals at h ⊢
  dsimp only at h ⊢
  split at h
  · cases h
  · split at h
    · cases h
    · cases h
      exact ⟨settings_commitTyped c, rfl, rfl⟩

theorem shown_of_evaluateText {source : String} (h : (c.evaluateText source).2 = .ok e) :
    (c.evaluateText source).1.settings = c.settings ∧
      (c.evaluateText source).1.isTyping = false ∧
      (c.evaluateText source).1.display = e.value := by
  unfold evaluateText at h ⊢
  split at h
  · cases h
  · split at h
    · cases h
    · cases h
      exact ⟨rfl, rfl, rfl⟩

theorem shown_of_evaluation? {i : Input} (h : c.evaluation? i = some e) :
    (c.feed i).settings = c.settings ∧ (c.feed i).isTyping = false ∧
      (c.feed i).display = e.value := by
  cases i with
  | key k =>
    have hpress := press_eq_equals h
    simp only [evaluation?, feed, hpress] at h ⊢
    exact shown_of_equals h
  | text source => exact shown_of_evaluateText (toOption_eq_some.1 h)

/-- The line of an evaluation in the base in use holds the text shown. -/
theorem line_of_evaluation? {i : Input} (h : c.evaluation? i = some e) :
    e.line c.base c.settings.separators = ⟨e.tree.text, (c.feed i).displayText⟩ := by
  obtain ⟨hsettings, htyping, hdisplay⟩ := shown_of_evaluation? h
  simp only [Evaluation.line, displayText, displayChars, htyping, base, hsettings, hdisplay]
  rfl

theorem separators_feed (c : Calculator) (i : Input) :
    (c.feed i).settings.separators = c.settings.separators := by
  cases i with
  | key k =>
    rw [feed, settings_press]
    cases k <;> rfl
  | text source => rw [feed, settings_evaluateText]

end Calculator

open Calculator (Input)

/-! Listeners. -/

namespace Observed

variable {σ : Type}

/-- With another listener in front that always fails. -/
def jam (o : Observed σ) : Observed σ := { o with listeners := Listener.failing :: o.listeners }

def feed (o : Observed σ) : Input → Observed σ
  | .key k => (o.press k).1
  | .text source => (o.evaluateText source).1

def run (o : Observed σ) (inputs : List Input) : Observed σ := inputs.foldl feed o

@[simp] theorem calculator_feed (o : Observed σ) (i : Input) :
    (o.feed i).calculator = o.calculator.feed i := by cases i <;> rfl

@[simp] theorem listeners_feed (o : Observed σ) (i : Input) :
    (o.feed i).listeners = o.listeners := by cases i <;> rfl

theorem state_feed (o : Observed σ) (i : Input) :
    (o.feed i).state = (o.calculator.evaluation? i).elim o.state
      (Listener.notifyAll o.listeners · o.state) := by
  cases i with
  | key k =>
    simp only [feed, press, advance, Calculator.evaluation?]
    cases (o.calculator.press k).2 <;> rfl
  | text source =>
    simp only [feed, evaluateText, advance, Calculator.evaluation?]
    cases (o.calculator.evaluateText source).2.toOption <;> rfl

def Records (o : Observed Tape) : Prop :=
  ∀ e t, Listener.notifyAll o.listeners e t = t.record e

variable {o : Observed Tape}

theorem records_recorder (h : o.listeners = [Listener.recorder]) : o.Records := by
  intro e t
  rw [h]
  rfl

/-- A listener that fails does not keep those after it from being told. -/
theorem Records.jam (h : o.Records) : o.jam.Records := h

theorem Records.feed (h : o.Records) (i : Input) : (o.feed i).Records := by
  rw [Records, listeners_feed]
  exact h

theorem Records.state_feed (h : o.Records) (i : Input) :
    (o.feed i).state = { o.state with
      lines := o.state.lines ++
        (o.calculator.evaluation? i).toList.map (·.line o.state.base o.state.separators) } := by
  rw [Observed.state_feed]
  cases o.calculator.evaluation? i with
  | none => simp
  | some e => exact h e o.state

theorem Records.state_run (h : o.Records) (inputs : List Input) :
    (o.run inputs).state = { o.state with
      lines := o.state.lines ++
        (o.calculator.results inputs).map (·.1.line o.state.base o.state.separators) } := by
  induction inputs generalizing o with
  | nil => simp [run, Calculator.results]
  | cons i inputs ih =>
    show ((o.feed i).run inputs).state = _
    rw [ih (h.feed i), h.state_feed i, calculator_feed, Calculator.results, List.map_append,
      ← List.append_assoc]
    cases o.calculator.evaluation? i <;> rfl

end Observed

/-! Scripts. -/

namespace Session

open Observed

/-- The sessions that scripts and written expressions lead to, with the tape torn off at times, and
whatever numbers the random key draws. -/
inductive Reachable : Session → Prop where
  | fresh (s : Settings) (random : Random) : Reachable (ofSettings s random)
  | keys {s : Session} (h : Reachable s) (script : String) : Reachable (s.runKeys script).1
  | text {s : Session} (h : Reachable s) (source : String) : Reachable (s.evaluate source).1
  | clearTape {s : Session} (h : Reachable s) : Reachable s.clearTape
  | draw {s : Session} (h : Reachable s) (random : Random) :
      Reachable { s with calculator := { s.calculator with random } }

/-- Does the tape get a line of each evaluation, written as the display is? -/
structure Taped (s : Session) : Prop where
  records : Records s
  separators : s.state.separators = s.calculator.settings.separators

variable {s : Session}

theorem Taped.feed (h : s.Taped) (i : Input) : Taped (s.followBase.feed i) where
  records := Records.feed (o := s.followBase) h.records i
  separators := by
    have hstate := Records.state_feed (o := s.followBase) h.records i
    rw [hstate, calculator_feed, Calculator.separators_feed]
    exact h.separators

/-- What inputs make of a session: the tape has got a line of each evaluation, with the text shown
right after its input. -/
structure Fed (s : Session) (inputs : List Input) (s' : Session) (es : List Evaluation) : Prop where
  taped : s'.Taped
  calculator : s'.calculator = s.calculator.run inputs
  lines : s'.state.lines = s.state.lines ++
    (s.calculator.results inputs).map fun (e, after) => ⟨e.tree.text, after.displayText⟩
  evaluations : es = (s.calculator.results inputs).map Prod.fst

namespace Fed

variable {s' s'' : Session} {inputs inputs' : List Input} {es es' : List Evaluation}

theorem nil (h : s.Taped) : Fed s [] s [] where
  taped := h
  calculator := rfl
  lines := (List.append_nil _).symm
  evaluations := rfl

/-- An input adds the line of its evaluation. -/
theorem single (h : s.Taped) (i : Input) :
    Fed s [i] (s.followBase.feed i) (s.calculator.evaluation? i).toList := by
  have hstate := Records.state_feed (o := s.followBase) h.records i
  have hresults : s.calculator.results [i] =
      ((s.calculator.evaluation? i).map (·, s.calculator.feed i)).toList := List.append_nil _
  refine ⟨h.feed i, calculator_feed _ i, ?_, ?_⟩
  · rw [hstate, hresults]
    show s.state.lines ++ (s.calculator.evaluation? i).toList.map _ = _
    cases he : s.calculator.evaluation? i with
    | none => rfl
    | some e =>
      have hline := Calculator.line_of_evaluation? he
      rw [← h.separators] at hline
      exact congrArg (s.state.lines ++ [·]) hline
  · rw [hresults]
    cases s.calculator.evaluation? i <;> rfl

theorem append (h : Fed s inputs s' es) (h' : Fed s' inputs' s'' es') :
    Fed s (inputs ++ inputs') s'' (es ++ es') where
  taped := h'.taped
  calculator := by rw [h'.calculator, h.calculator, Calculator.run_append]
  lines := by
    rw [h'.lines, h.lines, h.calculator, Calculator.results_append, List.map_append,
      List.append_assoc]
  evaluations := by
    rw [h'.evaluations, h.evaluations, h.calculator, Calculator.results_append, List.map_append]

end Fed

theorem Taped.pressAll (h : s.Taped) (ks : List Key) :
    Fed s (ks.map .key) (s.pressAll ks).1 (s.pressAll ks).2 := by
  induction ks generalizing s with
  | nil => exact .nil h
  | cons k ks ih =>
    have hkey := Fed.single h (.key k)
    exact hkey.append (ih hkey.taped)

/-- Tokens press their keys, up to the first that is none. -/
theorem Taped.runTokens (h : s.Taped) (tokens : List String) :
    ∃ es, Fed s ((s.calculator.readTokens tokens).1.map .key) (s.runTokens tokens).1 es ∧
      (s.runTokens tokens).2 = (s.calculator.readTokens tokens).2.elim (.ok es) .error := by
  induction tokens generalizing s with
  | nil => exact ⟨[], .nil h, rfl⟩
  | cons token tokens ih =>
    simp only [Session.runTokens, Calculator.readTokens]
    cases hread : Keystroke.read s.calculator.base token with
    | error unknown => exact ⟨[], .nil h, rfl⟩
    | ok ks =>
      have hks := h.pressAll ks
      obtain ⟨es, hrest, hresult⟩ := ih hks.taped
      rw [hks.calculator] at hrest hresult
      refine ⟨(s.pressAll ks).2 ++ es, List.map_append ▸ hks.append hrest, ?_⟩
      dsimp only
      rw [hresult]
      cases ((s.calculator.run (ks.map .key)).readTokens tokens).2 <;> rfl

theorem Taped.runKeys (h : s.Taped) (script : String) : (s.runKeys script).1.Taped := by
  obtain ⟨es, hfed, -⟩ := h.runTokens (Text.words script)
  exact hfed.taped

theorem Reachable.taped (h : s.Reachable) : s.Taped := by
  induction h with
  | fresh settings random => exact ⟨records_recorder rfl, rfl⟩
  | keys _ script ih => exact ih.runKeys script
  | text _ source ih => exact ih.feed (.text source)
  | clearTape _ ih => exact ⟨ih.records, ih.separators⟩
  | draw _ random ih => exact ⟨ih.records, ih.separators⟩

theorem Reachable.calculator (h : s.Reachable) : s.calculator.Reachable := by
  induction h with
  | fresh settings random => exact .fresh settings random
  | keys h script ih =>
    obtain ⟨es, hfed, -⟩ := h.taped.runTokens (Text.words script)
    exact hfed.calculator ▸ ih.run _
  | text _ source ih => exact ih.feed (.text source)
  | clearTape _ ih => exact ih
  | draw _ random ih => exact ih.draw random

/-! A listener in front that fails. -/

theorem pressAll_jam (s : Session) (ks : List Key) :
    pressAll s.jam ks = ((s.pressAll ks).1.jam, (s.pressAll ks).2) := by
  induction ks generalizing s with
  | nil => rfl
  | cons k ks ih =>
    have hkey : (followBase s.jam).press k =
        ((s.followBase.press k).1.jam, (s.followBase.press k).2) := rfl
    simp only [pressAll, hkey, ih]

theorem runTokens_jam (s : Session) (tokens : List String) :
    runTokens s.jam tokens = ((s.runTokens tokens).1.jam, (s.runTokens tokens).2) := by
  induction tokens generalizing s with
  | nil => rfl
  | cons token tokens ih =>
    have hbase : s.jam.calculator.base = s.calculator.base := rfl
    simp only [runTokens, hbase]
    cases Keystroke.read s.calculator.base token with
    | error unknown => rfl
    | ok ks => simp only [pressAll_jam, ih]

/-- The tape records exactly the evaluations. After any history, a script adds one line for each
evaluation that its keys give, in their order and nothing else, and so do the keys before one that is
unknown. A line holds the expression and the text on the display right after the key, which is in the
base then in use. Behind a listener that always fails the tape gets the same lines, for scripts and
for any inputs of the calculator itself. -/
theorem lines_runKeys (h : s.Reachable) (script : String) :
    let keys := (s.calculator.readTokens (Text.words script)).1
    let unknown? := (s.calculator.readTokens (Text.words script)).2
    let results := s.calculator.results (keys.map .key)
    let s' := (s.runKeys script).1
    s'.state.lines =
        s.state.lines ++ results.map (fun (e, after) => ⟨e.tree.text, after.displayText⟩) ∧
      (s.runKeys script).2 = unknown?.elim (.ok (results.map Prod.fst)) .error ∧
      s'.calculator = s.calculator.run (keys.map .key) ∧
      runKeys s.jam script = (s'.jam, (s.runKeys script).2) ∧
      ∀ inputs, (s.jam.run inputs).state = (Observed.run s inputs).state ∧
        (s.jam.run inputs).state.lines = s.state.lines ++
          (s.calculator.results inputs).map (·.1.line s.state.base s.state.separators) := by
  intro keys unknown? results s'
  have htaped := h.taped
  obtain ⟨es, hfed, hresult⟩ := htaped.runTokens (Text.words script)
  rw [hfed.evaluations] at hresult
  refine ⟨hfed.lines, hresult, hfed.calculator, runTokens_jam s _, fun inputs => ?_⟩
  have hjam := htaped.records.jam.state_run inputs
  exact ⟨hjam.trans (htaped.records.state_run inputs).symm, congrArg Tape.lines hjam⟩

theorem lines_runKeys_programmer :
    let s := ofSettings { mode := .programmer } ⟨0⟩
    let script := "15 and 9 = hex or 16 = frob 1 ="
    s.Reachable ∧
      (s.runKeys script).1.state.lines = [⟨"15 & 9", "9"⟩, ⟨"9 | 22", "1F"⟩] ∧
      (s.runKeys script).2 = .error ⟨"frob"⟩ ∧
      (runKeys s.jam script).1.state.lines = (s.runKeys script).1.state.lines := by
  intro s script
  have hs : s.Reachable := .fresh _ _
  obtain ⟨hlines, hresult, -, hjam, -⟩ := lines_runKeys hs script
  have hunknown : (s.calculator.readTokens (Text.words script)).2 = some ⟨"frob"⟩ := by
    decide +kernel
  rw [hunknown] at hresult
  refine ⟨hs, hlines.trans ?_, hresult, congrArg (·.1.state.lines) hjam⟩
  decide +kernel

end Session
end DeskCalculator
