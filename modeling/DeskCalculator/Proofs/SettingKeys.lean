import DeskCalculator.Proofs.Run
/-!
What keys make of the settings. Main statements: `Calculator.settings_press` says it for one key, and
`Calculator.settings_run` for many: only the keys that are named after a setting change it, each its
own.
-/
namespace DeskCalculator

def Settings.press (s : Settings) : Key → Settings
  | .mode mode => { s with mode }
  | .base base => { s with base }
  | .angle angle => { s with angle }
  | .style style => { s with style }
  | _ => s

namespace Key

def setsMode : Key → Bool
  | mode _ => true
  | _ => false

def setsBase : Key → Bool
  | mode _ | base _ => true
  | _ => false

end Key

namespace Settings

theorem domain_press (s : Settings) {k : Key} (hk : ¬ k.setsMode) :
    (s.press k).domain = s.domain := by
  cases k with
  | mode m => exact absurd rfl hk
  | _ => rfl

theorem effectiveBase_press (s : Settings) {k : Key} (hk : ¬ k.setsBase) :
    (s.press k).effectiveBase = s.effectiveBase := by
  cases k with
  | mode m => exact absurd rfl hk
  | base b => exact absurd rfl hk
  | _ => rfl

theorem foldl_press {α : Type} {f : Settings → α} {ks : List Key}
    (h : ∀ k ∈ ks, ∀ s : Settings, f (s.press k) = f s) (s : Settings) :
    f (ks.foldl press s) = f s := by
  induction ks generalizing s with
  | nil => rfl
  | cons k ks ih =>
    have hks := ih (fun k' hk' => h k' (List.mem_cons_of_mem _ hk')) (s.press k)
    exact hks.trans (h k List.mem_cons_self s)

end Settings

namespace Calculator

variable (c : Calculator)

/-! Steps that leave the settings. -/

theorem settings_beginTyping : c.beginTyping.settings = c.settings := by
  simp only [beginTyping]
  split <;> rfl

theorem settings_digit (d : Nat) : (c.digit d).1.settings = c.settings := by
  unfold digit
  split
  · dsimp only
    split <;> exact settings_beginTyping c
  · rfl

theorem settings_typeDouble (f : Entry → Entry) : (c.typeDouble f).settings = c.settings := by
  simp only [typeDouble]
  split
  · rfl
  · exact settings_beginTyping c

theorem settings_backspace : c.backspace.settings = c.settings := by
  simp only [backspace]
  split <;> rfl

theorem settings_operator (op : Operator) : (c.operator op).1.settings = c.settings := by
  simp only [operator, restore_commitTyped]
  split
  · exact settings_commitTyped c
  · rfl

theorem settings_changeSign : c.changeSign.settings = c.settings := by
  simp only [changeSign]
  split
  · rfl
  · split
    · exact settings_beginTyping c
    · exact settings_operator c .negate

theorem settings_equals : c.equals.1.settings = c.settings := by
  simp only [equals, restore_commitTyped]
  split
  · rfl
  · split
    · rfl
    · exact settings_commitTyped c

theorem settings_evaluateText (source : String) :
    (c.evaluateText source).1.settings = c.settings := by
  simp only [evaluateText]
  split
  · rfl
  · split <;> rfl

theorem settings_rearrange (f : Context → Option Context) :
    (c.rearrange f).1.settings = c.settings := by
  simp only [rearrange]
  split
  · split <;> exact settings_commitTyped c
  · rfl

theorem settings_drop : c.drop.1.settings = c.settings := by
  simp only [drop]
  split
  · rfl
  · exact settings_rearrange c Context.drop?

theorem settings_enter : c.enter.1.settings = c.settings := by
  simp only [enter]
  split
  · exact settings_equals c
  · split
    · rfl
    · split <;> rfl

theorem settings_accumulate (f : Float → Float → Float) :
    (c.accumulate f).settings = c.settings := by
  simp only [accumulate]
  split
  · rfl
  · split <;> rfl

theorem settings_memoryKey (k : MemoryKey) : (c.memoryKey k).settings = c.settings := by
  cases k with
  | add | subtract => exact settings_accumulate c _
  | read | clear => rfl

theorem settings_setBase (b : Base) :
    (c.setBase b).settings = { c.settings with base := b } := by
  simp only [setBase]
  split <;> rfl

/-! Keys. -/

theorem settings_press (k : Key) : (c.press k).1.settings = c.settings.press k := by
  cases k with
  | digit d => exact settings_digit c d
  | point => exact settings_typeDouble c Entry.point
  | startExponent => exact settings_typeDouble c Entry.startExponent
  | operator op => exact settings_operator c op
  | equals => exact settings_equals c
  | changeSign => exact settings_changeSign c
  | backspace => exact settings_backspace c
  | base b => exact settings_setBase c b
  | memory k => exact settings_memoryKey c k
  | enter => exact settings_enter c
  | swap => exact settings_rearrange c Context.swap?
  | drop => exact settings_drop c
  | rollDown => exact settings_rearrange c Context.rollDown?
  | rollUp => exact settings_rearrange c Context.rollUp?
  | allClear | clearEntry | mode | angle | style | random => rfl

theorem settings_run (ks : List Key) :
    (c.run (ks.map .key)).settings = ks.foldl Settings.press c.settings := by
  induction ks generalizing c with
  | nil => rfl
  | cons k ks ih =>
    show ((c.press k).1.run (ks.map .key)).settings = _
    rw [ih, settings_press]
    rfl

variable {c} {ks : List Key}

theorem domain_run (h : ∀ k ∈ ks, ¬ k.setsMode) : (c.run (ks.map .key)).domain = c.domain := by
  rw [domain, settings_run]
  exact Settings.foldl_press (fun k hk s => s.domain_press (h k hk)) c.settings

theorem base_run (h : ∀ k ∈ ks, ¬ k.setsBase) : (c.run (ks.map .key)).base = c.base := by
  rw [base, settings_run]
  exact Settings.foldl_press (fun k hk s => s.effectiveBase_press (h k hk)) c.settings

end Calculator
end DeskCalculator
