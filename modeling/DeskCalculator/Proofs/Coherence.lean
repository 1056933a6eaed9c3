import DeskCalculator.Proofs.Run
/-!
What is shown against what is on the stack. Main statement: `Calculator.displayValue_reachable` says
that the display shows the value of the last operand, or else the number being typed.
-/
namespace DeskCalculator

theorem Value.BelongsTo.coerce_eq {v : Value} {d : Domain} (h : v.BelongsTo d) :
    v.coerce d = v := by
  cases v with
  | error k => exact coerce_error k d
  | double x =>
    rcases h with h | h
    · cases h
    · cases h
      rfl
  | integer i =>
    rcases h with h | h
    · cases h
    · cases h
      rfl

namespace Entry

/-! What is typed changes neither the base nor the kind of number. -/

variable {e : Entry}

theorem clear_of_digit? {d : Nat} {e' : Entry} (h : e.digit? d = some e') :
    e'.clear = e.clear := by
  simp only [digit?] at h
  split at h
  · split at h
    · obtain ⟨n, -, rfl⟩ := Option.map_eq_some_iff.1 h
      rfl
    · obtain ⟨n, -, rfl⟩ := Option.map_eq_some_iff.1 h
      rfl
  · cases h

theorem clear_point (e : Entry) : e.point.clear = e.clear := by
  simp only [point]
  split <;> rfl

theorem clear_startExponent (e : Entry) : e.startExponent.clear = e.clear := by
  simp only [startExponent]
  split <;> rfl

theorem clear_backspace (e : Entry) : e.backspace.clear = e.clear := by
  simp only [backspace]
  split
  · split <;> rfl
  · split <;> rfl

theorem clear_changeSign (e : Entry) : e.changeSign.clear = e.clear := by
  simp only [changeSign]
  split <;> rfl

theorem belongsTo_value (e : Entry) :
    e.value.BelongsTo (if e.integral then .integer else .double) := by
  simp only [value]
  split
  · exact .inr rfl
  · split_ifs
    · exact .inl rfl
    · exact .inl rfl
    · exact .inr rfl
    · exact .inr rfl

end Entry

namespace Calculator

variable {c c' : Calculator} {t : Tree} {v : Value}

/-! The value of an operand. -/

theorem valueOf_congr (h : c'.domain = c.domain) : c'.valueOf = c.valueOf := by
  funext t
  simp only [valueOf, evaluate, compile, h]

theorem valueOf_number (c : Calculator) (v : Value) : c.valueOf (.number v) = v.coerce c.domain :=
  rfl

/-- An operand with code has the value that its tree has by recursion. -/
theorem valueOf_of_supported (h : t.Supported c.domain) :
    t.value? c.domain = some (c.valueOf t) ∧ c.evaluate t = .ok (c.valueOf t) := by
  obtain ⟨p, v, hcompile, hrun, hevaluate, rfl⟩ := evaluate_of_supported h
  obtain ⟨code, hc⟩ := h
  obtain ⟨w, hw, hm⟩ := Compiler.execute_code hc
  have hp : (⟨programName, c.settings.mode.domain, code⟩ : Program) = p := by
    simpa [Compiler.compile, show Compiler.code c.settings.mode.domain t = .ok code from hc,
      Except.map] using hcompile
  have hwv : w = c.valueOf t := Except.ok.inj ((hm {} programName).symm.trans (hp ▸ hrun {}))
  exact ⟨hwv ▸ hw, hevaluate⟩

theorem supported_of_evaluate (h : c.evaluate t = .ok v) : t.Supported c.domain := by
  simp only [evaluate, bind_eq_ok] at h
  obtain ⟨p, hp, -⟩ := h
  simp only [compile] at hp
  split at hp
  · rename_i hcompile
    obtain ⟨code, hc, -⟩ := map_eq_ok.1 hcompile
    exact ⟨code, hc⟩
  · cases hp

theorem value?_of_evaluate (h : c.evaluate t = .ok v) : t.value? c.domain = some v := by
  obtain ⟨hvalue, hevaluate⟩ := valueOf_of_supported (supported_of_evaluate h)
  obtain rfl := Except.ok.inj (hevaluate.symm.trans h)
  exact hvalue

theorem belongsTo_of_evaluate (h : c.evaluate t = .ok v) : v.BelongsTo c.domain :=
  Tree.belongsTo_of_value? (value?_of_evaluate h)

/-! The number being typed and what is shown. -/

/-- Is a number typed in the base and of the kind that the settings ask for? -/
def Fits (c : Calculator) : Prop := c.entry.clear = c.settings.freshEntry

def ShowsTop (c : Calculator) : Prop := c.display = c.context.top?.elim c.settings.zero c.valueOf

/-- The expression in progress is sound, the number being typed fits the settings, and the last
operand is shown while none is typed. -/
structure Coherent (c : Calculator) : Prop extends c.Sound where
  fits : c.Fits
  shows : ¬ c.isTyping → c.ShowsTop

theorem Fits.entry_base (h : c.Fits) : c.entry.base = c.base := congrArg Entry.base h

theorem Fits.belongsTo (h : c.Fits) : c.entry.value.BelongsTo c.domain := by
  have hkind : c.entry.integral = decide (c.domain = .integer) := congrArg Entry.integral h
  have hvalue := c.entry.belongsTo_value
  rw [hkind] at hvalue
  cases hd : c.domain <;> simpa [hd] using hvalue

theorem showsTop_number (ht : c.context.top? = some (.number c.display))
    (hv : c.display.BelongsTo c.domain) : c.ShowsTop := by
  rw [ShowsTop, ht]
  exact hv.coerce_eq.symm

/-- Nothing is shown of the last operand while a number is typed. -/
theorem Sound.coherent_of_isTyping (h : c.Sound) (hf : c.Fits) (ht : c.isTyping) : c.Coherent where
  toSound := h
  fits := hf
  shows hn := absurd ht hn

theorem Sound.coherent_refreshDisplay (h : c.Sound) (hf : c.Fits) : c.refreshDisplay.Coherent where
  toSound := h.refreshDisplay
  fits := hf
  shows _ := rfl

theorem Sound.coherent_number (h : c.Sound) (hf : c.Fits)
    (ht : c.context.top? = some (.number c.display)) (hv : c.display.BelongsTo c.domain) :
    c.Coherent where
  toSound := h
  fits := hf
  shows _ := showsTop_number ht hv

theorem coherent_ofSettings (s : Settings) (random : Random) : (ofSettings s random).Coherent where
  toSound := sound_ofSettings s random
  fits := rfl
  shows _ := rfl

theorem Fits.commitTyped (h : c.Fits) : c.commitTyped.Fits := by
  simp only [Calculator.commitTyped]
  split
  · exact h
  · exact h

/-! Typing. -/

theorem isTyping_beginTyping (c : Calculator) : c.beginTyping.isTyping := by
  simp only [Calculator.beginTyping]
  split
  · assumption
  · rfl

theorem Fits.beginTyping (h : c.Fits) : c.beginTyping.Fits := by
  simp only [Calculator.beginTyping]
  split <;> exact h

theorem Coherent.typed (h : c.Coherent) {e : Entry} (he : e.clear = c.beginTyping.entry.clear) :
    Coherent { c.beginTyping with entry := e } :=
  Sound.coherent_of_isTyping (h.toSound.beginTyping.congr rfl rfl id)
    (he.trans h.fits.beginTyping) (isTyping_beginTyping c)

theorem Coherent.digit (h : c.Coherent) (d : Nat) : (c.digit d).1.Coherent := by
  unfold Calculator.digit
  split
  · dsimp only
    split
    · rename_i e he
      exact h.typed (Entry.clear_of_digit? he)
    · exact h.typed rfl
  · exact h

theorem Coherent.typeDouble (h : c.Coherent) {f : Entry → Entry} (hf : ∀ e, (f e).clear = e.clear) :
    (c.typeDouble f).Coherent := by
  simp only [Calculator.typeDouble]
  split
  · exact h
  · exact h.typed (hf _)

theorem Coherent.setEntry (h : c.Coherent) {e : Entry} (he : e.clear = c.entry.clear) :
    Coherent { c with entry := e } where
  toSound := h.toSound.congr rfl rfl id
  fits := he.trans h.fits
  shows := h.shows

theorem Coherent.backspace (h : c.Coherent) : c.backspace.Coherent := by
  simp only [Calculator.backspace]
  split
  · exact h.setEntry (Entry.clear_backspace _)
  · exact h

/-! Operators and results. -/

theorem Coherent.operator (h : c.Coherent) (op : Operator) : (c.operator op).1.Coherent := by
  have hsound := h.toSound.operator op
  simp only [Calculator.operator, restore_commitTyped] at hsound ⊢
  split
  · rename_i context hc
    rw [hc] at hsound
    exact ⟨hsound, h.fits.commitTyped, fun _ => rfl⟩
  · exact h

theorem Coherent.changeSign (h : c.Coherent) : c.changeSign.Coherent := by
  simp only [Calculator.changeSign]
  split
  · exact h.setEntry (Entry.clear_changeSign _)
  · split
    · exact h.typed (Entry.clear_changeSign _)
    · exact h.operator .negate

theorem Coherent.resetTo (h : c.Coherent) (hv : v.BelongsTo c.domain)
    (hs : c'.settings = c.settings) (hc : c'.context = c.context.resetTo (.number v))
    (hr : c'.replacesTop = false) (he : c'.entry.clear = c.entry.clear) (hd : c'.display = v) :
    c'.Coherent := by
  have hf : c'.Fits := by
    rw [Fits, hs, he]
    exact h.fits
  refine (h.toSound.resetTo v hs hc hr).coherent_number hf ?_ ?_
  · rw [hc, hd]
    rfl
  · rw [hd, Calculator.domain, hs]
    exact hv

/-- What a result leaves of the expression. -/
def resultContext (c : Calculator) (v : Value) : Context :=
  match c.settings.style with
  | .algebraic => c.commitTyped.context.resetTo (.number v)
  | .rpn => c.commitTyped.context

/-- A complete expression has a result, the value of its root. -/
theorem Sound.equals_of_finish (h : c.Sound) {root : Tree}
    (hf : c.commitTyped.context.finish = .ok root) :
    root.Supported c.domain ∧
      c.equals = (({ c.commitTyped with context := c.resultContext (c.valueOf root) }.publish
        (c.valueOf root) root).1, some ⟨c.valueOf root, root⟩) := by
  have ht := h.commitTyped
  have hdomain : c.commitTyped.domain = c.domain := by
    rw [domain, settings_commitTyped, domain]
  have hs : root.Supported c.domain := by
    have hfinish := ht.context.finish
    rw [hf, ht.mode, settings_commitTyped] at hfinish
    split at hfinish
    · obtain ⟨e, he⟩ := hfinish
      cases he
    · obtain ⟨t, htree, hs⟩ := hfinish
      cases htree
      exact hs
  have hevaluate : c.commitTyped.evaluate root = .ok (c.valueOf root) := by
    rw [← valueOf_congr hdomain]
    exact (valueOf_of_supported (by rwa [hdomain])).2
  refine ⟨hs, ?_⟩
  simp only [Calculator.equals, hf, hevaluate]
  rfl

theorem Sound.top?_of_finish (h : c.Sound) (hrpn : c.settings.style = .rpn) {root : Tree}
    (hf : c.context.finish = .ok root) : c.context.top? = some root := by
  have hstyle := h.style.trans hrpn
  simp only [Context.finish, hstyle] at hf
  split at hf
  · cases hf
  · rename_i hnodes
    cases hf
    simp [Context.top?, hnodes]

theorem Coherent.equals (h : c.Coherent) : c.equals.1.Coherent := by
  cases hf : c.commitTyped.context.finish with
  | error e =>
    have hequals : c.equals = (c, none) := by simp only [Calculator.equals, hf, restore_commitTyped]
    rw [hequals]
    exact h
  | ok root =>
    obtain ⟨hs, hequals⟩ := h.toSound.equals_of_finish hf
    have hsound := h.toSound.equals
    rw [hequals] at hsound ⊢
    refine ⟨hsound, h.fits.commitTyped, fun _ => ?_⟩
    have hdomain : c.commitTyped.domain = c.domain := by
      rw [domain, settings_commitTyped, domain]
    show c.valueOf root = (c.resultContext (c.valueOf root)).top?.elim _ c.commitTyped.valueOf
    cases hstyle : c.settings.style with
    | algebraic =>
      have hv := Tree.belongsTo_of_value? (valueOf_of_supported hs).1
      simp only [resultContext, hstyle, Context.top?, Context.resetTo, List.head?_cons,
        Option.elim_some, valueOf_number, hdomain, hv.coerce_eq]
    | rpn =>
      have htop := h.toSound.commitTyped.top?_of_finish (settings_commitTyped c ▸ hstyle) hf
      simp only [resultContext, hstyle, htop, Option.elim_some, valueOf_congr hdomain]

theorem Coherent.evaluateText (h : c.Coherent) (source : String) :
    (c.evaluateText source).1.Coherent := by
  simp only [Calculator.evaluateText]
  split
  · exact h
  · split
    · exact h
    · rename_i v hv
      exact h.resetTo (belongsTo_of_evaluate hv) rfl rfl rfl rfl rfl

theorem Coherent.allClear (h : c.Coherent) : c.allClear.Coherent where
  toSound := h.toSound.allClear
  fits := h.fits
  shows _ := rfl

/-! Settings. -/

theorem coherent_resetExpression (c : Calculator) : c.resetExpression.Coherent where
  toSound := sound_resetExpression c
  fits := rfl
  shows _ := rfl

theorem Coherent.setBase (h : c.Coherent) (b : Base) : (c.setBase b).Coherent := by
  have hsound := h.toSound.setBase b
  unfold Calculator.setBase at hsound ⊢
  dsimp only at hsound ⊢
  split
  · rename_i hmode
    have hv := Value.belongsTo_coerce c.displayValue .integer
    refine (coherent_resetExpression _).resetTo ?_ rfl rfl rfl rfl rfl
    show (c.displayValue.coerce .integer).BelongsTo c.settings.mode.domain
    rw [hmode]
    exact hv
  · rename_i hmode
    rw [if_neg hmode] at hsound
    refine ⟨hsound, ?_, h.shows⟩
    rw [Fits, h.fits]
    simp only [Settings.freshEntry, Settings.effectiveBase, Settings.domain, hmode, if_false]
    rfl

theorem Coherent.setSeparators (h : c.Coherent) (on : Bool) : (c.setSeparators on).Coherent where
  toSound := ⟨⟨h.settings.mode, h.settings.angle, h.settings.style⟩, h.context, h.copy⟩
  fits := h.fits
  shows := h.shows

/-! The stack, the memory and random numbers. -/

theorem Coherent.rearrange (h : c.Coherent) {f : Context → Option Context} (hf : KeepsNodes f) :
    (c.rearrange f).1.Coherent := by
  have hsound := h.toSound.rearrange hf
  unfold Calculator.rearrange at hsound ⊢
  split
  · rename_i hrpn
    rw [if_pos hrpn] at hsound
    dsimp only at hsound ⊢
    split
    · rename_i context hc
      rw [hc] at hsound
      exact ⟨hsound, h.fits.commitTyped, fun _ => rfl⟩
    · rename_i hc
      rw [hc] at hsound
      exact ⟨hsound, h.fits.commitTyped, fun _ => rfl⟩
  · exact h

theorem Coherent.drop (h : c.Coherent) : c.drop.1.Coherent := by
  simp only [Calculator.drop]
  split
  · exact Sound.coherent_refreshDisplay (h.toSound.congr rfl rfl id) h.fits
  · exact h.rearrange keepsNodes_drop

theorem Coherent.enter (h : c.Coherent) : c.enter.1.Coherent := by
  have hsound := h.toSound.enter
  simp only [Calculator.enter] at hsound ⊢
  split
  · exact h.equals
  · rename_i hrpn
    split
    · exact h.toSound.commit.coherent_refreshDisplay h.fits
    · rename_i hn
      split
      · rename_i context hc
        simp only [hrpn, if_neg hn, hc] at hsound
        exact ⟨hsound, h.fits, fun _ => rfl⟩
      · exact h.toSound.coherent_refreshDisplay h.fits

theorem Coherent.accumulate (h : c.Coherent) (f : Float → Float → Float) :
    (c.accumulate f).Coherent := by
  unfold Calculator.accumulate
  dsimp only
  split
  · exact h
  · split
    · have hc := h.toSound.commit.coherent_refreshDisplay h.fits
      exact ⟨hc.toSound.congr rfl rfl id, hc.fits, hc.shows⟩
    · exact ⟨h.toSound.congr rfl rfl id, h.fits, h.shows⟩

theorem Coherent.pushValue (h : c.Coherent) (hv : v.BelongsTo c.domain) :
    (c.pushValue v).Coherent := by
  refine (h.toSound.pushValue v).coherent_number ?_ rfl hv
  show (if c.isTyping then c.entry.clear else c.entry).clear = c.settings.freshEntry
  split
  · exact h.fits
  · exact h.fits

theorem Coherent.memoryKey (h : c.Coherent) (k : MemoryKey) : (c.memoryKey k).Coherent := by
  cases k with
  | add | subtract => exact h.accumulate _
  | read => exact h.pushValue (Value.belongsTo_coerce _ _)
  | clear => exact ⟨h.toSound.congr rfl rfl id, h.fits, h.shows⟩

theorem Coherent.setRandom (h : c.Coherent) (random : Random) : Coherent { c with random } :=
  ⟨h.toSound.congr rfl rfl id, h.fits, h.shows⟩

theorem Coherent.randomKey (h : c.Coherent) : c.randomKey.Coherent := by
  unfold Calculator.randomKey
  rcases c.random.next with ⟨word, random⟩
  refine (h.setRandom random).pushValue ?_
  show Value.BelongsTo _ c.domain
  cases c.domain with
  | double => exact .inr rfl
  | integer => exact .inr rfl

theorem Coherent.press (h : c.Coherent) (k : Key) : (c.press k).1.Coherent := by
  cases k with
  | digit d => exact h.digit d
  | point => exact h.typeDouble Entry.clear_point
  | startExponent => exact h.typeDouble Entry.clear_startExponent
  | operator op => exact h.operator op
  | equals => exact h.equals
  | allClear => exact h.allClear
  | clearEntry => exact h.setEntry rfl
  | changeSign => exact h.changeSign
  | backspace => exact h.backspace
  | mode m => exact coherent_resetExpression _
  | base b => exact h.setBase b
  | angle u => exact coherent_resetExpression _
  | style s => exact coherent_resetExpression _
  | memory k => exact h.memoryKey k
  | enter => exact h.enter
  | swap => exact h.rearrange keepsNodes_swap
  | drop => exact h.drop
  | rollDown => exact h.rearrange keepsNodes_rollDown
  | rollUp => exact h.rearrange keepsNodes_rollUp
  | random => exact h.randomKey

theorem Coherent.feed (h : c.Coherent) (i : Input) : (c.feed i).Coherent := by
  cases i with
  | key k => exact h.press k
  | text source => exact h.evaluateText source

/-- The calculators that a user can come to: with any settings at first, through keys and written
expressions, with separators switched on or off, and whatever numbers the random key draws. -/
inductive Reachable : Calculator → Prop where
  | fresh (s : Settings) (random : Random) : Reachable (ofSettings s random)
  | feed {c : Calculator} (h : Reachable c) (i : Input) : Reachable (c.feed i)
  | separators {c : Calculator} (h : Reachable c) (on : Bool) : Reachable (c.setSeparators on)
  | draw {c : Calculator} (h : Reachable c) (random : Random) : Reachable { c with random }

theorem Reachable.run (h : c.Reachable) (inputs : List Input) : (c.run inputs).Reachable :=
  run_induction (fun _ i h => h.feed i) inputs h

theorem reachable_run (s : Settings) (random : Random) (inputs : List Input) :
    ((ofSettings s random).run inputs).Reachable :=
  (Reachable.fresh s random).run inputs

theorem Reachable.coherent (h : c.Reachable) : c.Coherent := by
  induction h with
  | fresh s random => exact coherent_ofSettings s random
  | feed _ i ih => exact ih.feed i
  | separators _ on ih => exact ih.setSeparators on
  | draw _ random ih => exact ih.setRandom random

/-- Wherever keys and written expressions lead, the display shows the number being typed, which is
then the first value on the stack, or else the value that the code of the last operand computes, or
else zero. -/
theorem displayValue_reachable (h : c.Reachable) :
    if c.isTyping then
      c.displayValue = c.entry.value ∧ c.stackValues.head? = some c.displayValue
    else
      match c.context.top? with
      | some t => c.evaluate t = .ok c.displayValue
      | none => c.displayValue = c.settings.zero := by
  have hc := h.coherent
  split
  · rename_i ht
    simp [displayValue, stackValues, ht]
  · rename_i ht
    have hshown : c.displayValue = c.display := if_neg ht
    have htop : c.display = c.context.top?.elim c.settings.zero c.valueOf := hc.shows ht
    rw [hshown, htop]
    split
    · rename_i t hnode
      have hmem : t ∈ c.context.nodes := List.mem_of_mem_head? hnode
      rw [hnode]
      exact (valueOf_of_supported (hc.supported hmem)).2
    · rename_i hnone
      rw [hnone]
      rfl

theorem displayValue_reachable_product :
    let c := (ofSettings { mode := .programmer, style := .rpn } ⟨0⟩).run
      [.key (.digit 7), .key .enter, .key (.digit 5), .key (.operator .mul)]
    c.Reachable ∧ c.displayValue = .integer 35 := by
  intro c
  have hc : c.Reachable := reachable_run _ _ _
  refine ⟨hc, ?_⟩
  have hevaluate : c.evaluate (.binary .mul (.number (.integer 7)) (.number (.integer 5))) =
      .ok c.displayValue := displayValue_reachable hc
  exact (Except.ok.inj hevaluate).symm

end Calculator
end DeskCalculator
