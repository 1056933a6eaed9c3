import DeskCalculator.Repl
import DeskCalculator.Proofs.Rendering
/-!
What a line of an interactive session prints, and what it leaves on the tape. Main statement:
`Repl.printed_handleLine` says that both are the same lines exactly if each result looks the same in
the base in force right after its key and in the base in force at the end of the line; so they are
if no key chooses a base or a keypad.
-/
namespace DeskCalculator

def Value.LooksAlike (separators : Bool) (b b' : Base) : Value → Prop
  | .double x =>
    Display.value (.double x) b separators none = Display.value (.double x) b' separators none
  | .integer i => b = b' ∨ 0 ≤ i.toInt ∧ i.toInt < b.radix ∧ i.toInt < b'.radix
  | .error _ => True

theorem Display.value_eq_value_iff {v : Value} {separators : Bool} {b b' : Base} :
    Display.value v b separators none = Display.value v b' separators none ↔
      v.LooksAlike separators b b' := by
  cases v with
  | double x => rfl
  | integer i => exact Display.integer_eq_integer_iff
  | error k => exact iff_of_true rfl trivial

theorem Evaluation.line_eq_line_iff {e : Evaluation} {separators : Bool} {b b' : Base} :
    e.line b separators = e.line b' separators ↔ e.value.LooksAlike separators b b' := by
  rw [← Display.value_eq_value_iff, line, line, TapeLine.mk.injEq, String.ofList_inj]
  exact and_iff_right rfl

namespace Calculator

variable {c : Calculator}

theorem separators_run (c : Calculator) (inputs : List Input) :
    (c.run inputs).settings.separators = c.settings.separators :=
  run_induction (P := fun c' => c'.settings.separators = c.settings.separators)
    (fun c' i h => (separators_feed c' i).trans h) inputs rfl

variable {ks : List Key} {e : Evaluation} {after : Calculator}

/-- A line with the text shown right after a key is written in the base then in force. -/
theorem line_of_mem_results (h : (e, after) ∈ c.results (ks.map .key)) :
    (⟨e.tree.text, after.displayText⟩ : TapeLine) = e.line after.base c.settings.separators := by
  obtain ⟨front, k, back, -, he, rfl⟩ := exists_of_mem_results h
  have hsettings := (shown_of_evaluation? he).1
  rw [← line_of_evaluation? he, base, base, hsettings, separators_run]

theorem base_of_mem_results (h : (e, after) ∈ c.results (ks.map .key))
    (hks : ∀ k ∈ ks, ¬ k.setsBase) : after.base = c.base := by
  obtain ⟨front, k, back, rfl, he, rfl⟩ := exists_of_mem_results h
  have hfront : ∀ k' ∈ front, ¬ k'.setsBase := fun k' hk' => hks k' (List.mem_append_left _ hk')
  rw [base, (shown_of_evaluation? he).1]
  exact base_run hfront

/-- Lines in one base are those with the texts shown right after the keys, exactly if each result
looks the same in both bases. -/
theorem map_line_eq_iff (c : Calculator) (ks : List Key) (b : Base) :
    let results := c.results (ks.map .key)
    (results.map fun (e, _) => e.line b c.settings.separators) =
        (results.map fun (e, after) => ⟨e.tree.text, after.displayText⟩) ↔
      ∀ e after, (e, after) ∈ results → e.value.LooksAlike c.settings.separators b after.base := by
  intro results
  have hshown : (results.map fun (e, after) => (⟨e.tree.text, after.displayText⟩ : TapeLine)) =
      results.map fun (e, after) => e.line after.base c.settings.separators :=
    List.map_congr_left fun (_, _) hmem => line_of_mem_results hmem
  rw [hshown, List.map_inj_left, Prod.forall]
  simp only [Evaluation.line_eq_line_iff]

end Calculator

namespace Repl

variable {s : Session}

theorem handleLine_keys {script : String} {s' : Session} {es : List Evaluation}
    (style : OutputStyle) {line : String} (hline : Command.ofLine line = .keys script)
    (hrun : s.runKeys script = (s', .ok es)) :
    handleLine s style false line = (s', .ok (.print ((lineReport s' es).render style))) := by
  simp only [handleLine, hline, hrun]
  exact congrArg (fun text => (s', Except.ok (Action.print text))) String.empty_append

/-- A line of known keys prints one line for each evaluation, and adds one for each to the tape.
Printed are the results in the base in force at the end of the line, while on the tape they are in
the base in force right after their key, as on the display; so the lines are the same exactly if each
result looks the same in both bases, and in particular if no key of the line chooses a base or a
keypad. Otherwise the print is the report of the session, and the tape command shows all lines. -/
theorem printed_handleLine (h : s.Reachable) (style : OutputStyle) {line : String}
    (hline : Command.ofLine line = .keys line)
    (hknown : (s.calculator.readTokens (Text.words line)).2 = none) :
    let keys := (s.calculator.readTokens (Text.words line)).1
    let results := s.calculator.results (keys.map .key)
    let s' := (handleLine s style false line).1
    let c' := s'.calculator
    let printed := results.map fun (e, _) => e.line c'.base c'.settings.separators
    let appended := results.map fun (e, after) => (⟨e.tree.text, after.displayText⟩ : TapeLine)
    (handleLine s style false line).2 =
        .ok (.print ({ s'.report with lines := printed }.render style)) ∧
      s'.state.lines = s.state.lines ++ appended ∧
      (handleLine s' style false ":tape").2 =
        .ok (.print ("\n".intercalate ((s.state.lines ++ appended).map (·.text)))) ∧
      (printed = appended ↔ ∀ e after, (e, after) ∈ results →
        e.value.LooksAlike c'.settings.separators c'.base after.base) ∧
      ((∀ k ∈ keys, ¬ k.setsBase) → printed = appended) := by
  obtain ⟨es, hfed, hresult⟩ := h.taped.runTokens (Text.words line)
  rw [hknown] at hresult
  have hhandle := handleLine_keys style hline (Prod.ext rfl hresult)
  rw [hhandle]
  intro keys results s' c' printed appended
  have hc' : c' = s.calculator.run (keys.map .key) := hfed.calculator
  have hseparators : c'.settings.separators = s.calculator.settings.separators := by
    rw [hc', Calculator.separators_run]
  have hprinted : es.map (·.line c'.base c'.settings.separators) = printed := by
    rw [hfed.evaluations, List.map_map]
    rfl
  have hiff : printed = appended ↔ ∀ e after, (e, after) ∈ results →
      e.value.LooksAlike c'.settings.separators c'.base after.base := by
    simp only [printed, hseparators]
    exact Calculator.map_line_eq_iff s.calculator keys c'.base
  refine ⟨?_, hfed.lines, ?_, hiff, fun hkeys => hiff.2 fun e after hmem => ?_⟩
  · rw [← hprinted]
    rfl
  · rw [← hfed.lines]
    rfl
  · have hbase : c'.base = after.base := by
      rw [hc', Calculator.base_run hkeys, Calculator.base_of_mem_results hmem hkeys]
    rw [hbase, ← Evaluation.line_eq_line_iff]

theorem printed_handleLine_hex :
    let s := Session.ofSettings { mode := .programmer } ⟨0⟩
    let line := "hex 15 + 9 ="
    s.Reachable ∧ Command.ofLine line = .keys line ∧
      (s.calculator.readTokens (Text.words line)).2 = none ∧
      (handleLine s .plain false line).2 = .ok (.print "21 + 9 = 1E\n1E") ∧
      (handleLine s .plain false line).1.state.lines = [⟨"21 + 9", "1E"⟩] := by
  intro s line
  have hs : s.Reachable := .fresh _ _
  have hline : Command.ofLine line = .keys line := by decide +kernel
  have hknown : (s.calculator.readTokens (Text.words line)).2 = none := by decide +kernel
  obtain ⟨hprint, hlines, -⟩ := printed_handleLine hs .plain hline hknown
  refine ⟨hs, hline, hknown, hprint.trans ?_, hlines.trans ?_⟩
  · refine congrArg (Except.ok ∘ Action.print) ?_
    decide +kernel
  · decide +kernel

/-- A key that chooses a base after the result: the print has the result in hexadecimal, the tape in
decimal. -/
theorem not_printed_handleLine_appended : ¬ ∀ (s : Session) (style : OutputStyle) (line : String),
    s.Reachable → Command.ofLine line = .keys line →
      (s.calculator.readTokens (Text.words line)).2 = none →
      let s' := (handleLine s style false line).1
      ∃ appended, s'.state.lines = s.state.lines ++ appended ∧
        (handleLine s style false line).2 =
          .ok (.print ({ s'.report with lines := appended }.render style)) := by
  intro h
  let s := Session.ofSettings { mode := .programmer } ⟨0⟩
  let line := "15 + 9 = hex"
  obtain ⟨appended, htape, hprint⟩ :=
    h s .plain line (.fresh _ _) (by decide +kernel) (by decide +kernel)
  have hlines : (handleLine s .plain false line).1.state.lines = [⟨"15 + 9", "24"⟩] := by
    decide +kernel
  have htext : (handleLine s .plain false line).2.toOption = some (.print "15 + 9 = 18\n18") := by
    decide +kernel
  obtain rfl : appended = [⟨"15 + 9", "24"⟩] := htape.symm.trans hlines
  rw [hprint] at htext
  revert htext
  decide +kernel

end Repl
end DeskCalculator
