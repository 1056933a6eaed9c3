import DeskCalculator.Calculator.Keypad
/-!
The paper tape, and listeners in general: whatever is told of each evaluation.
-/
namespace DeskCalculator

structure TapeLine where
  expression : String
  result : String
deriving DecidableEq, Repr

def TapeLine.text (l : TapeLine) : String := s!"{l.expression} = {l.result}"

def Evaluation.line (e : Evaluation) (base : Base) (separators : Bool) : TapeLine :=
  ⟨e.tree.text, String.ofList (Display.value e.value base separators none)⟩

structure Tape where
  base : Base := .dec
  separators : Bool := false
  lines : List TapeLine := []
deriving DecidableEq, Repr

namespace Tape

/-- Results to come are written in the base. -/
def setBase (t : Tape) (b : Base) : Tape := { t with base := b }

def clear (t : Tape) : Tape := { t with lines := [] }

def record (t : Tape) (e : Evaluation) : Tape :=
  { t with lines := t.lines ++ [e.line t.base t.separators] }

end Tape

/-- Something that is told of evaluations and may fail; all listeners work on a common state. -/
abbrev Listener (σ : Type) := Evaluation → σ → Except String σ

namespace Listener

def recorder : Listener Tape := fun e t => .ok (t.record e)

def failing {σ : Type} : Listener σ := fun _ _ => .error "listener failed"

/-- Tells the listeners in order; one that fails is passed over. -/
def notifyAll {σ : Type} (listeners : List (Listener σ)) (e : Evaluation) (s : σ) : σ :=
  listeners.foldl (fun s l => match l e s with
    | .ok s => s
    | .error _ => s) s

end Listener

structure Observed (σ : Type) where
  calculator : Calculator
  listeners : List (Listener σ)
  state : σ

namespace Observed

variable {σ : Type}

def mapState (o : Observed σ) (f : σ → σ) : Observed σ := { o with state := f o.state }

/-- Takes over a calculator after a step, and tells the listeners of its evaluation. -/
def advance (o : Observed σ) (c : Calculator) (e? : Option Evaluation) : Observed σ :=
  { o with
    calculator := c
    state := match e? with
      | some e => Listener.notifyAll o.listeners e o.state
      | none => o.state }

def press (o : Observed σ) (k : Key) : Observed σ × Option Evaluation :=
  let (c, e?) := o.calculator.press k
  (o.advance c e?, e?)

def evaluateText (o : Observed σ) (source : String) :
    Observed σ × Except EvaluationError Evaluation :=
  let (c, result) := o.calculator.evaluateText source
  (o.advance c result.toOption, result)

end Observed
end DeskCalculator
