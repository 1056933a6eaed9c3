import DeskCalculator.Calculator.Keypad
import DeskCalculator.Proofs.Context
/-!
What the calculator keeps through keys and written expressions. Main statement:
`Calculator.evaluate_run` says that no operand on the stack is without a value, and that only a
missing operand keeps the equals key from giving a result.
-/
namespace DeskCalculator
namespace Calculator

/-- What a user does: presses a key, or has a written expression evaluated. -/
inductive Input where
  | key (k : Key)
  | text (source : String)

def feed (c : Calculator) : Input → Calculator
  | .key k => (c.press k).1
  | .text source => (c.evaluateText source).1

def run (c : Calculator) (inputs : List Input) : Calculator := inputs.foldl feed c

theorem run_induction {P : Calculator → Prop} (hstep : ∀ c i, P c → P (c.feed i))
    (inputs : List Input) {c : Calculator} (h : P c) : P (c.run inputs) := by
  induction inputs generalizing c with
  | nil => exact h
  | cons i inputs ih => exact ih (hstep c i h)

/-- The expression in progress has its shape under the settings in force, and a copy to be
replaced lies on the stack of reverse Polish entry only. -/
structure Sound (c : Calculator) : Prop where
  settings : (Context.ofSettings c.settings).SameSettings c.context
  context : c.context.Sound
  copy : c.replacesTop → c.settings.style = .rpn

variable {c c' : Calculator}

theorem Sound.mode (h : c.Sound) : c.context.mode = c.settings.mode := h.settings.mode

theorem Sound.style (h : c.Sound) : c.context.style = c.settings.style := h.settings.style

theorem sound_ofSettings (s : Settings) (random : Random) : (ofSettings s random).Sound where
  settings := .refl _
  context := Context.sound_ofSettings s
  copy := fun h => absurd h Bool.false_ne_true

theorem Sound.congr (h : c.Sound) (hs : c'.settings = c.settings) (hc : c'.context = c.context)
    (hr : c'.replacesTop → c.replacesTop) : c'.Sound where
  settings := by rw [hs, hc]; exact h.settings
  context := by rw [hc]; exact h.context
  copy := fun ht => by rw [hs]; exact h.copy (hr ht)

theorem Sound.setContext (h : c.Sound) (hs : c'.settings = c.settings)
    (hc : c.context.SameSettings c'.context) (hsound : c'.context.Sound)
    (hr : c'.replacesTop → c.replacesTop) : c'.Sound where
  settings := by rw [hs]; exact h.settings.trans hc
  context := hsound
  copy := fun ht => by rw [hs]; exact h.copy (hr ht)

theorem Sound.setNodes (h : c.Sound) (hrpn : c.settings.style = .rpn) {nodes : List Tree}
    (hn : ∀ t ∈ nodes, t.Supported c.context.mode.domain) :
    Sound { c with context := { c.context with nodes } } where
  settings := ⟨h.settings.mode, h.settings.angle, h.settings.style⟩
  context := h.context.withNodes (h.style.trans hrpn) hn
  copy := fun _ => hrpn

theorem Sound.refreshDisplay (h : c.Sound) : c.refreshDisplay.Sound := h.congr rfl rfl id

theorem Sound.dropCopy (h : c.Sound) : c.dropCopy.Sound := by
  simp only [Calculator.dropCopy, keptNodes]
  split
  · rename_i ht
    have hn := fun t hm => h.context.supported t (List.mem_of_mem_tail hm)
    exact (h.setNodes (h.copy ht) hn).congr rfl rfl fun hf => absurd hf Bool.false_ne_true
  · exact h.congr rfl rfl fun hf => absurd hf Bool.false_ne_true

theorem Sound.pushNumber (h : c.Sound) (v : Value) (hs : c'.settings = c.settings)
    (hc : c'.context = c.dropCopy.context.pushOperand (.number v)) (hr : c'.replacesTop = false) :
    c'.Sound :=
  have hd := h.dropCopy
  { settings := by rw [hs, hc]; exact hd.settings.trans (Context.sameSettings_pushOperand _ _)
    context := by rw [hc]; exact hd.context.pushOperand (Tree.supported_number v)
    copy := fun ht => absurd (hr.symm.trans ht) Bool.false_ne_true }

theorem Sound.commit (h : c.Sound) : c.commit.Sound := h.pushNumber c.entry.value rfl rfl rfl

theorem Sound.commitTyped (h : c.Sound) : c.commitTyped.Sound := by
  simp only [Calculator.commitTyped]
  split
  · exact h.commit
  · exact h

theorem settings_commitTyped (c : Calculator) : c.commitTyped.settings = c.settings := by
  simp only [Calculator.commitTyped]
  split <;> rfl

/-- To commit the typed number touches nothing but what can be taken back. -/
@[simp] theorem restore_commitTyped (c : Calculator) : c.commitTyped.restore c = c := by
  simp only [Calculator.commitTyped]
  split <;> rfl

theorem Sound.pushValue (h : c.Sound) (v : Value) : (c.pushValue v).Sound :=
  h.pushNumber v rfl rfl rfl

/-! Typing leaves the expression alone. -/

theorem Sound.beginTyping (h : c.Sound) : c.beginTyping.Sound := by
  simp only [Calculator.beginTyping]
  split
  · exact h
  · exact h.congr rfl rfl id

theorem Sound.digit (h : c.Sound) (d : Nat) : (c.digit d).1.Sound := by
  unfold Calculator.digit
  split
  · have hb := h.beginTyping
    dsimp only
    split
    · exact hb.congr rfl rfl id
    · exact hb
  · exact h

theorem Sound.typeDouble (h : c.Sound) (f : Entry → Entry) : (c.typeDouble f).Sound := by
  simp only [Calculator.typeDouble]
  split
  · exact h
  · exact h.beginTyping.congr rfl rfl id

theorem Sound.backspace (h : c.Sound) : c.backspace.Sound := by
  simp only [Calculator.backspace]
  split
  · exact h.congr rfl rfl id
  · exact h

/-! Operators and results. -/

theorem Sound.operator (h : c.Sound) (op : Operator) : (c.operator op).1.Sound := by
  simp only [Calculator.operator, restore_commitTyped]
  split
  · rename_i context hc
    have ht := h.commitTyped
    obtain ⟨hsound, hsame⟩ := ht.context.apply hc
    exact Sound.refreshDisplay
      (ht.setContext rfl hsame hsound fun hf => absurd hf Bool.false_ne_true)
  · exact h

theorem Sound.changeSign (h : c.Sound) : c.changeSign.Sound := by
  simp only [Calculator.changeSign]
  split
  · exact h.congr rfl rfl id
  · split
    · exact h.beginTyping.congr rfl rfl id
    · exact h.operator .negate

theorem Sound.resetTo (h : c.Sound) (v : Value) (hs : c'.settings = c.settings)
    (hc : c'.context = c.context.resetTo (.number v)) (hr : c'.replacesTop = false) : c'.Sound :=
  h.setContext hs (by rw [hc]; exact ⟨rfl, rfl, rfl⟩)
    (by rw [hc]; exact Context.sound_resetTo _ (Tree.supported_number v))
    fun ht => absurd (hr.symm.trans ht) Bool.false_ne_true

theorem Sound.equals (h : c.Sound) : c.equals.1.Sound := by
  simp only [Calculator.equals, restore_commitTyped]
  split
  · exact h
  · split
    · exact h
    · rename_i v hv
      have ht := h.commitTyped
      cases hstyle : c.settings.style with
      | algebraic => exact ht.resetTo v rfl rfl rfl
      | rpn => exact ht.congr rfl rfl fun hf => absurd hf Bool.false_ne_true

theorem Sound.evaluateText (h : c.Sound) (source : String) : (c.evaluateText source).1.Sound := by
  simp only [Calculator.evaluateText]
  split
  · exact h
  · split
    · exact h
    · rename_i v hv
      exact h.resetTo v rfl rfl rfl

theorem Sound.allClear (h : c.Sound) : c.allClear.Sound :=
  h.setContext rfl ⟨rfl, rfl, rfl⟩ (Context.sound_clear _) fun hf => absurd hf Bool.false_ne_true

/-! Other settings start another expression. -/

theorem sound_resetExpression (c : Calculator) : c.resetExpression.Sound where
  settings := .refl _
  context := Context.sound_ofSettings c.settings
  copy := fun h => absurd h Bool.false_ne_true

theorem Sound.setBase (h : c.Sound) (b : Base) : (c.setBase b).Sound := by
  unfold Calculator.setBase
  dsimp only
  split
  · exact (sound_resetExpression _).resetTo (c.displayValue.coerce .integer) rfl rfl rfl
  · exact ⟨⟨h.settings.mode, h.settings.angle, h.settings.style⟩, h.context, h.copy⟩

/-! The stack, the memory and random numbers. -/

/-- Does a step leave nothing on the stack that was not there? -/
def KeepsNodes (f : Context → Option Context) : Prop :=
  ∀ c c', f c = some c' → ∃ nodes, c' = { c with nodes } ∧ ∀ t ∈ nodes, t ∈ c.nodes

theorem keepsNodes_duplicate : KeepsNodes Context.duplicate? := by
  intro c c' h
  simp only [Context.duplicate?] at h
  split at h
  · rename_i t nodes hn
    refine ⟨_, (Option.some.inj h).symm, fun u hu => ?_⟩
    rw [hn]
    rcases List.mem_cons.1 hu with rfl | hu
    · exact List.mem_cons_self
    · exact hu
  · cases h

theorem keepsNodes_swap : KeepsNodes Context.swap? := by
  intro c c' h
  simp only [Context.swap?] at h
  split at h
  · rename_i x y nodes hn
    refine ⟨_, (Option.some.inj h).symm, fun u hu => ?_⟩
    rw [hn]
    exact (List.Perm.swap x y nodes).mem_iff.1 hu
  · cases h

theorem keepsNodes_drop : KeepsNodes Context.drop? := by
  intro c c' h
  simp only [Context.drop?] at h
  split at h
  · rename_i t nodes hn
    refine ⟨_, (Option.some.inj h).symm, fun u hu => ?_⟩
    rw [hn]
    exact List.mem_cons_of_mem _ hu
  · cases h

theorem keepsNodes_rollDown : KeepsNodes Context.rollDown? := by
  intro c c' h
  simp only [Context.rollDown?] at h
  split at h
  · rename_i x y nodes hn
    refine ⟨_, (Option.some.inj h).symm, fun u hu => ?_⟩
    rw [hn]
    rcases List.mem_append.1 hu with hu | hu
    · exact List.mem_cons_of_mem _ hu
    · rw [List.mem_singleton.1 hu]
      exact List.mem_cons_self
  · cases h

theorem keepsNodes_rollUp : KeepsNodes Context.rollUp? := by
  intro c c' h
  simp only [Context.rollUp?] at h
  split at h
  · rename_i x y nodes hn
    refine ⟨_, (Option.some.inj h).symm, fun u hu => ?_⟩
    rw [hn]
    rcases List.mem_cons.1 hu with rfl | hu
    · exact List.mem_cons_of_mem _ (List.getLast_mem _)
    · rcases List.mem_cons.1 hu with rfl | hu
      · exact List.mem_cons_self
      · exact List.mem_cons_of_mem _ (List.dropLast_subset _ hu)
  · cases h

theorem Sound.rearranged (h : c.Sound) (hrpn : c.settings.style = .rpn)
    {f : Context → Option Context} (hf : KeepsNodes f) {context : Context}
    (hc : f c.context = some context) : Sound { c with context } := by
  obtain ⟨nodes, rfl, hn⟩ := hf _ _ hc
  exact h.setNodes hrpn fun t ht => h.context.supported t (hn t ht)

theorem Sound.rearrange (h : c.Sound) {f : Context → Option Context} (hf : KeepsNodes f) :
    (c.rearrange f).1.Sound := by
  unfold Calculator.rearrange
  split
  · rename_i hrpn
    have ht : Sound { c.commitTyped with replacesTop := false } :=
      h.commitTyped.congr rfl rfl fun hf => absurd hf Bool.false_ne_true
    have hset : c.commitTyped.settings = c.settings := settings_commitTyped c
    dsimp only
    split
    · rename_i context hc
      exact (ht.rearranged (by rw [hset, hrpn]) hf hc).refreshDisplay
    · exact ht.refreshDisplay
  · exact h

theorem Sound.drop (h : c.Sound) : c.drop.1.Sound := by
  simp only [Calculator.drop]
  split
  · exact h.congr rfl rfl id
  · exact h.rearrange keepsNodes_drop

theorem Sound.enter (h : c.Sound) : c.enter.1.Sound := by
  simp only [Calculator.enter]
  split
  · exact h.equals
  · rename_i hrpn
    split
    · exact h.commit.refreshDisplay
    · split
      · rename_i context hc
        have hd := h.rearranged hrpn keepsNodes_duplicate hc
        exact Sound.refreshDisplay ⟨hd.settings, hd.context, fun _ => hrpn⟩
      · exact h.refreshDisplay

theorem Sound.accumulate (h : c.Sound) (f : Float → Float → Float) : (c.accumulate f).Sound := by
  unfold Calculator.accumulate
  dsimp only
  split
  · exact h
  · split
    · exact h.commit.refreshDisplay.congr rfl rfl id
    · exact h.congr rfl rfl id

theorem Sound.memoryKey (h : c.Sound) (k : MemoryKey) : (c.memoryKey k).Sound := by
  cases k with
  | add | subtract => exact h.accumulate _
  | read => exact h.pushValue _
  | clear => exact h.congr rfl rfl id

theorem Sound.randomKey (h : c.Sound) : c.randomKey.Sound :=
  (h.congr rfl rfl id : Sound { c with random := c.random.next.2 }).pushValue _

theorem Sound.press (h : c.Sound) (k : Key) : (c.press k).1.Sound := by
  cases k with
  | digit d => exact h.digit d
  | point => exact h.typeDouble Entry.point
  | startExponent => exact h.typeDouble Entry.startExponent
  | operator op => exact h.operator op
  | equals => exact h.equals
  | allClear => exact h.allClear
  | clearEntry => exact h.congr rfl rfl id
  | changeSign => exact h.changeSign
  | backspace => exact h.backspace
  | mode m => exact sound_resetExpression _
  | base b => exact h.setBase b
  | angle u => exact sound_resetExpression _
  | style s => exact sound_resetExpression _
  | memory k => exact h.memoryKey k
  | enter => exact h.enter
  | swap => exact h.rearrange keepsNodes_swap
  | drop => exact h.drop
  | rollDown => exact h.rearrange keepsNodes_rollDown
  | rollUp => exact h.rearrange keepsNodes_rollUp
  | random => exact h.randomKey

theorem Sound.feed (h : c.Sound) (i : Input) : (c.feed i).Sound := by
  cases i with
  | key k => exact h.press k
  | text source => exact h.evaluateText source

theorem sound_run (s : Settings) (random : Random) (inputs : List Input) :
    ((ofSettings s random).run inputs).Sound :=
  run_induction (fun _ i h => h.feed i) inputs (sound_ofSettings s random)

/-! What the shape gives. -/

/-- A tree with code has a value, which every machine computes. -/
theorem evaluate_of_supported {t : Tree} (h : t.Supported c.domain) :
    ∃ p v, Compiler.compile programName c.settings.mode.domain t = .ok p ∧
      (∀ m : Machine, (m.execute p).2 = .ok v) ∧ c.evaluate t = .ok v ∧ c.valueOf t = v := by
  obtain ⟨code, hc⟩ := h
  obtain ⟨v, -, hm⟩ := Compiler.execute_code hc
  have hp : Compiler.compile programName c.domain t = .ok ⟨programName, c.domain, code⟩ := by
    simp [Compiler.compile, hc, Except.map]
  have hv : c.evaluate t = .ok v := by
    simp [evaluate, compile, hp, Program.result, hm]
  exact ⟨_, v, hp, fun m => hm m _, hv, by simp [valueOf, hv]⟩

theorem Sound.supported (h : c.Sound) {t : Tree} (ht : t ∈ c.context.nodes) :
    t.Supported c.domain := by
  have hs := h.context.supported t ht
  rwa [h.mode] at hs

/-- The equals key gives no result exactly if an operand is missing. -/
theorem Sound.equals_eq_none_iff (h : c.Sound) :
    c.equals.2 = none ↔ c.commitTyped.context.nodes = [] ∨
      c.settings.style = .algebraic ∧ c.commitTyped.context.awaitsOperand := by
  have ht := h.commitTyped
  have hf := ht.context.finish
  have hset : c.commitTyped.settings = c.settings := settings_commitTyped c
  rw [ht.style, ht.mode, hset] at hf
  simp only [Calculator.equals]
  split at hf
  · rename_i hmissing
    obtain ⟨e, he⟩ := hf
    simp [he, hmissing]
  · rename_i hmissing
    obtain ⟨t, hfin, hs⟩ := hf
    rw [← hset] at hs
    obtain ⟨p, v, -, -, hv, -⟩ := evaluate_of_supported (c := c.commitTyped) hs
    simp [hfin, hv, hmissing]

/-- In every state that keys and written expressions lead to, each operand on the stack has code
for the keypad in use and a value, so that the stack never shows an error of the calculator itself;
and the equals key gives no result exactly if nothing has been entered or an operand is missing. -/
theorem evaluate_run (s : Settings) (random : Random) (inputs : List Input) :
    let c := (ofSettings s random).run inputs
    (∀ t ∈ c.context.nodes, ∃ p v, Compiler.compile programName c.settings.mode.domain t = .ok p ∧
      (∀ m : Machine, (m.execute p).2 = .ok v) ∧ c.evaluate t = .ok v ∧ c.valueOf t = v) ∧
    (c.equals.2 = none ↔ c.commitTyped.context.nodes = [] ∨
      c.settings.style = .algebraic ∧ c.commitTyped.context.awaitsOperand) := by
  intro c
  have h : c.Sound := sound_run s random inputs
  refine ⟨?_, h.equals_eq_none_iff⟩
  intro t ht
  exact evaluate_of_supported (h.supported ht)

end Calculator
end DeskCalculator
