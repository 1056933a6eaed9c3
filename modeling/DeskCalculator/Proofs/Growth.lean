import DeskCalculator.Proofs.ValueStack
import DeskCalculator.Proofs.Printing
/-!
What the operands on the stack are made of. Main statement: `Inherited.feed` says that a property of
trees which operators and parentheses hand on holds of all operands, if it holds of the numbers that
keys and written expressions bring in.
-/
namespace DeskCalculator
namespace Tree

variable {mode : Mode} {angle : AngleUnit} {op : Operator} {operands : List Tree} {t : Tree}

/-- Is the tree one of the operands or an integer that a rule brings in? -/
def IsPart (mode : Mode) (operands : List Tree) (t : Tree) : Prop :=
  t ∈ operands ∨ ∃ n, t = integerLiteral mode n

inductive Built (mode : Mode) (angle : AngleUnit) (operands : List Tree) : Tree → Prop where
  | before {op : Operator} {a : Tree} (hop : op.rule = .before) (ha : a ∈ operands) :
      Built mode angle operands (.before op a)
  | after {op : Operator} {a : Tree} (hop : op.rule = .after) (ha : a ∈ operands) :
      Built mode angle operands (.after op a)
  | binary {op : Operator} {l r : Tree} (hop : op.rule = .binary) (hl : IsPart mode operands l)
      (hr : IsPart mode operands r) : Built mode angle operands (.binary op l r)
  | call {name : String} (hname : (Operator.ofFunction? name).isSome)
      (hangle : Operator.functionName name angle = name) (hne : operands ≠ []) :
      Built mode angle operands (.call name operands)
  | constant {op : Operator} {x : Float} (hop : op = .pi ∨ op = .e) (hx : op.rule = .constant x) :
      Built mode angle operands (constantLiteral mode op x)

/-- Does the rule of an operator bring in only a name that the angle unit keeps, an operator between
operands, or one of the constants? -/
def ruleFits (op : Operator) (angle : AngleUnit) : Bool :=
  let keeps (name : String) : Bool :=
    (Operator.ofFunction? name).isSome && Operator.functionName name angle == name
  match op.rule with
  | .function name | .binaryFunction name => keeps name
  | .angleFunction radians degrees => keeps (if angle = .radians then radians else degrees)
  | .swapped target => target.rule = .binary
  | .constant _ => op = .pi ∨ op = .e
  | _ => true

theorem ruleFits_all (op : Operator) (angle : AngleUnit) : ruleFits op angle := by
  cases angle <;> cases op <;> decide

theorem built_of_build (h : build op operands mode angle = .ok t) :
    Built mode angle operands t := by
  have hfits := ruleFits_all op angle
  have hpow : Operator.pow.rule = .binary := rfl
  have hdiv : Operator.div.rule = .binary := rfl
  have part {a : Tree} (ha : a ∈ operands) : IsPart mode operands a := .inl ha
  have literal (n : Int64) : IsPart mode operands (integerLiteral mode n) := .inr ⟨n, rfl⟩
  simp only [build] at h
  simp only [ruleFits] at hfits
  split at h <;> rename_i hrule <;> cases h <;> rw [hrule] at hfits
  case h_1 => exact .binary hrule (part (by simp)) (part (by simp))
  case h_2 => exact .binary (of_decide_eq_true hfits) (part (by simp)) (part (by simp))
  case h_4 => exact .before hrule (by simp)
  case h_5 => exact .after hrule (by simp)
  case h_8 => exact .binary hpow (part (by simp)) (literal _)
  case h_9 => exact .binary hpow (literal _) (part (by simp))
  case h_10 => exact .binary hdiv (literal 1) (part (by simp))
  case h_11 => exact .constant (of_decide_eq_true hfits) hrule
  all_goals
    obtain ⟨hname, hangle⟩ := Bool.and_eq_true_iff.1 hfits
    exact .call hname (beq_iff_eq.1 hangle) (by simp)

end Tree

/-- Does a property of trees, under a mode and an angle unit, pass from operands to all that
operators and parentheses make of them? -/
structure Inherited (Q : Mode → AngleUnit → Tree → Prop) : Prop where
  built : ∀ {mode angle operands t}, Tree.Built mode angle operands t →
    (∀ a ∈ operands, Q mode angle a) → Q mode angle t
  paren : ∀ {mode angle a}, Q mode angle a → Q mode angle (.paren a)

def Context.All (Q : Mode → AngleUnit → Tree → Prop) (c : Context) : Prop :=
  ∀ t ∈ c.nodes, Q c.mode c.angle t

namespace Context.All

variable {Q : Mode → AngleUnit → Tree → Prop} {c c' : Context} {t : Tree}

/-- What keeps the mode and the angle unit and brings in no operand keeps the property. -/
theorem mono (h : c.All Q) (hmode : c'.mode = c.mode) (hangle : c'.angle = c.angle)
    (hn : ∀ t ∈ c'.nodes, t ∈ c.nodes) : c'.All Q := by
  intro t ht
  rw [hmode, hangle]
  exact h t (hn t ht)

theorem makeRoom (h : c.All Q) : c.makeRoom.All Q := by
  refine h.mono (makeRoom_mode c) (makeRoom_angle c) fun t ht => ?_
  simp only [Context.makeRoom] at ht
  split at ht
  · exact List.mem_of_mem_tail ht
  · exact ht

theorem pushOperand (h : c.All Q) (ht : Q c.mode c.angle t) : (c.pushOperand t).All Q := by
  intro u hu
  rcases List.mem_cons.1 hu with rfl | hu
  · simpa [Context.pushOperand] using ht
  · exact h.makeRoom u hu

theorem resetTo (ht : Q c.mode c.angle t) : (c.resetTo t).All Q := by
  intro u hu
  rw [List.mem_singleton.1 hu]
  exact ht

theorem applyOpenParen (h : c.All Q) (hc : c.applyOpenParen = .ok c') : c'.All Q := by
  simp only [Context.applyOpenParen] at hc
  split at hc
  · cases hc
  · cases hc
    exact h.makeRoom

end Context.All

namespace Inherited

variable {Q : Mode → AngleUnit → Tree → Prop} (hQ : Inherited Q)
include hQ

/-! The expression in progress. -/

section Context

variable {mode : Mode} {angle : AngleUnit} {op : Operator} {pending pending' : List Pending}
  {nodes nodes' : List Tree} {c c' : Context} {root : Tree}

theorem combine (hc : Context.combine mode angle op nodes = .ok nodes')
    (hn : ∀ t ∈ nodes, Q mode angle t) : ∀ t ∈ nodes', Q mode angle t := by
  simp only [Context.combine] at hc
  split at hc
  · cases hc
  · obtain ⟨t, ht, rfl⟩ := map_eq_ok.1 hc
    intro u hu
    rcases List.mem_cons.1 hu with rfl | hu
    · refine hQ.built (Tree.built_of_build ht) fun a ha => hn a ?_
      exact List.mem_of_mem_take (List.mem_reverse.1 ha)
    · exact hn u (List.mem_of_mem_drop hu)

theorem wrapTop (hc : Context.wrapTop nodes = .ok nodes') (hn : ∀ t ∈ nodes, Q mode angle t) :
    ∀ t ∈ nodes', Q mode angle t := by
  cases nodes with
  | nil => cases hc
  | cons t nodes =>
    cases hc
    intro u hu
    rcases List.mem_cons.1 hu with rfl | hu
    · exact hQ.paren (hn t (by simp))
    · exact hn u (List.mem_cons_of_mem _ hu)

theorem reduceWhile {p : Operator → Bool}
    (hc : Context.reduceWhile mode angle p pending nodes = .ok (pending', nodes'))
    (hn : ∀ t ∈ nodes, Q mode angle t) : ∀ t ∈ nodes', Q mode angle t := by
  induction pending generalizing nodes with
  | nil =>
    cases hc
    exact hn
  | cons first pending ih =>
    cases first with
    | openParen =>
      cases hc
      exact hn
    | operator op =>
      simp only [Context.reduceWhile] at hc
      split at hc
      · obtain ⟨between, hcombine, hrest⟩ := bind_eq_ok.1 hc
        exact ih hrest (hQ.combine hcombine hn)
      · cases hc
        exact hn

theorem closeAll (hc : Context.closeAll mode angle pending nodes = .ok nodes')
    (hn : ∀ t ∈ nodes, Q mode angle t) : ∀ t ∈ nodes', Q mode angle t := by
  induction pending generalizing nodes with
  | nil =>
    cases hc
    exact hn
  | cons first pending ih =>
    cases first with
    | openParen =>
      obtain ⟨between, hwrap, hrest⟩ := bind_eq_ok.1 hc
      exact ih hrest (hQ.wrapTop hwrap hn)
    | operator op =>
      obtain ⟨between, hcombine, hrest⟩ := bind_eq_ok.1 hc
      exact ih hrest (hQ.combine hcombine hn)

theorem applyBetween (hc : c.applyBetween op = .ok c') (h : c.All Q) : c'.All Q := by
  -- whether an operator is given up or not, the rest of what waits is applied in the same way
  have reduced {pending : List Pending} {rest : List Pending × List Tree}
      (hr : Context.reduceWhile c.mode c.angle (·.bindsBefore op) pending c.nodes = .ok rest) :
      Context.All Q { c with nodes := rest.2, pending := .operator op :: rest.1 } :=
    hQ.reduceWhile hr h
  simp only [Context.applyBetween] at hc
  split at hc
  · split at hc
    · obtain ⟨rest, hr, hput⟩ := bind_eq_ok.1 (ok_bind _ _ ▸ hc)
      cases hput
      exact reduced hr
    · cases hc
  · obtain ⟨rest, hr, hput⟩ := bind_eq_ok.1 (ok_bind _ _ ▸ hc)
    cases hput
    exact reduced hr

theorem applyNow (hc : c.applyNow op = .ok c') (h : c.All Q) : c'.All Q := by
  simp only [Context.applyNow] at hc
  split at hc
  · obtain ⟨t, ht, rfl⟩ := map_eq_ok.1 hc
    exact h.pushOperand (hQ.built (Tree.built_of_build ht) (by simp))
  · split at hc
    · cases hc
    · obtain ⟨nodes, hn, rfl⟩ := map_eq_ok.1 hc
      exact hQ.combine hn h

theorem applyCloseParen (hc : c.applyCloseParen = .ok c') (h : c.All Q) : c'.All Q := by
  simp only [Context.applyCloseParen] at hc
  split at hc
  · obtain ⟨nodes, hn, rfl⟩ := map_eq_ok.1 hc
    exact hQ.wrapTop hn h
  · split at hc
    · cases hc
    · split at hc
      · cases hc
      · obtain ⟨⟨pending, nodes⟩, hreduce, hrest⟩ := bind_eq_ok.1 hc
        obtain ⟨wrapped, hwrap, hput⟩ := bind_eq_ok.1 hrest
        cases hput
        exact hQ.wrapTop hwrap (hQ.reduceWhile hreduce h)

theorem apply (hc : c.apply op = .ok c') (h : c.All Q) : c'.All Q := by
  simp only [Context.apply] at hc
  split at hc
  · split at hc
    · exact h.applyOpenParen hc
    · exact hQ.applyCloseParen hc h
    · split at hc
      · exact hQ.applyBetween hc h
      · exact hQ.applyNow hc h
  · cases hc

theorem finish (hc : c.finish = .ok root) (h : c.All Q) : Q c.mode c.angle root := by
  simp only [Context.finish] at hc
  split at hc
  · cases hc
  · rename_i t nodes hnodes
    split at hc
    · cases hc
      exact h root (by simp [hnodes])
    · split at hc
      · cases hc
      · obtain ⟨closed, hclose, hroot⟩ := bind_eq_ok.1 hc
        have hall := hQ.closeAll hclose fun u hu => h u (hnodes ▸ hu)
        split at hroot
        · cases hroot
          exact hall root (by simp)
        · cases hroot
        · cases hroot

end Context
end Inherited

/-! Literals. -/

namespace Tree

def LiteralsIn (d : Domain) (t : Tree) : Prop :=
  ∀ u ∈ t.subtrees, ∀ v, u.literal? = some v → v.BelongsTo d

variable {d : Domain} {op : Operator} {a l r : Tree} {name : String} {v : Value}

@[simp] theorem literalsIn_number : (number v).LiteralsIn d ↔ v.BelongsTo d := by
  simp [LiteralsIn, subtrees, literal?]

@[simp] theorem literalsIn_constant : (constant name v).LiteralsIn d ↔ v.BelongsTo d := by
  simp [LiteralsIn, subtrees, literal?]

@[simp] theorem literalsIn_before : (before op a).LiteralsIn d ↔ a.LiteralsIn d := by
  simp [LiteralsIn, subtrees, literal?]

@[simp] theorem literalsIn_after : (after op a).LiteralsIn d ↔ a.LiteralsIn d := by
  simp [LiteralsIn, subtrees, literal?]

@[simp] theorem literalsIn_binary :
    (binary op l r).LiteralsIn d ↔ l.LiteralsIn d ∧ r.LiteralsIn d := by
  simp [LiteralsIn, subtrees, literal?, or_imp, forall_and]

@[simp] theorem literalsIn_paren : (paren a).LiteralsIn d ↔ a.LiteralsIn d := by
  simp [LiteralsIn, subtrees, literal?]

theorem literalsIn_call {args : List Tree} (h : ∀ a ∈ args, a.LiteralsIn d) :
    (call name args).LiteralsIn d := by
  intro u hu v hv
  rcases List.mem_cons.1 hu with rfl | hu
  · cases hv
  · obtain ⟨a, ha, hu⟩ := mem_subtreesOfAll.1 hu
    exact h a ha u hu v hv

theorem inherited_literalsIn : Inherited fun mode _ t => t.LiteralsIn mode.domain where
  built {mode _ operands _} ht ha := by
    have part {a : Tree} (h : IsPart mode operands a) : a.LiteralsIn mode.domain := by
      rcases h with h | ⟨n, rfl⟩
      · exact ha a h
      · exact literalsIn_number.2 (Value.belongsTo_coerce _ _)
    cases ht with
    | before _ h => exact literalsIn_before.2 (ha _ h)
    | after _ h => exact literalsIn_after.2 (ha _ h)
    | binary _ hl hr => exact literalsIn_binary.2 ⟨part hl, part hr⟩
    | call => exact literalsIn_call ha
    | constant => exact literalsIn_constant.2 (Value.belongsTo_coerce _ _)
  paren ha := literalsIn_paren.2 ha

end Tree

/-! The calculator. -/

namespace Calculator

variable {Q : Mode → AngleUnit → Tree → Prop} {c c' : Calculator} {v : Value}

def evaluation? (c : Calculator) : Input → Option Evaluation
  | .key k => (c.press k).2
  | .text source => (c.evaluateText source).2.toOption

/-- The numbers that an input can make operands: the one being typed, a result, the memory, a random
number, and what was shown when the base of the programmer keypad changes. -/
inductive Introduces (c : Calculator) : Input → Value → Prop where
  | typed {i : Input} (ht : c.isTyping) : Introduces c i c.entry.value
  | result {i : Input} {e : Evaluation} (he : c.evaluation? i = some e) : Introduces c i e.value
  | recalled : Introduces c (.key (.memory .read)) ((Value.double c.memory).coerce c.domain)
  | drawnDouble (hd : c.domain = .double) (word : UInt64) :
      Introduces c (.key .random) (.double (Random.unitDouble word))
  | drawnInteger (hd : c.domain = .integer) (word : UInt64) :
      Introduces c (.key .random) (.integer word.toInt64)
  | kept {b : Base} (hmode : c.settings.mode = .programmer) :
      Introduces c (.key (.base b)) (c.displayValue.coerce .integer)

def Accepts (Q : Mode → AngleUnit → Tree → Prop) (c : Calculator) (v : Value) : Prop :=
  Q c.context.mode c.context.angle (.number v)

theorem all_dropCopy (h : c.context.All Q) : c.dropCopy.context.All Q := by
  refine h.mono rfl rfl fun t ht => ?_
  have hkept : t ∈ c.keptNodes := ht
  rw [keptNodes] at hkept
  split at hkept
  · exact List.mem_of_mem_tail hkept
  · exact hkept

theorem all_commit (h : c.context.All Q) (hv : c.Accepts Q c.entry.value) :
    c.commit.context.All Q :=
  (all_dropCopy h).pushOperand hv

theorem all_pushValue (h : c.context.All Q) (hv : c.Accepts Q v) :
    (c.pushValue v).context.All Q :=
  (all_dropCopy h).pushOperand hv

theorem all_commitTyped (h : c.context.All Q) (hv : c.isTyping → c.Accepts Q c.entry.value) :
    c.commitTyped.context.All Q := by
  simp only [commitTyped]
  split
  · rename_i ht
    exact all_commit h (hv ht)
  · exact h

theorem sameSettings_context_commitTyped (c : Calculator) :
    c.context.SameSettings c.commitTyped.context := by
  simp only [commitTyped]
  split
  · have hpush := Context.sameSettings_pushOperand c.dropCopy.context (.number c.entry.value)
    exact ⟨hpush.mode, hpush.angle, hpush.style⟩
  · exact .refl _

/-! Typing leaves the operands alone. -/

theorem context_beginTyping (c : Calculator) : c.beginTyping.context = c.context := by
  simp only [beginTyping]
  split <;> rfl

theorem context_digit (c : Calculator) (d : Nat) : (c.digit d).1.context = c.context := by
  simp only [digit]
  split
  · split <;> exact context_beginTyping c
  · rfl

theorem context_typeDouble (c : Calculator) (f : Entry → Entry) :
    (c.typeDouble f).context = c.context := by
  simp only [typeDouble]
  split
  · rfl
  · exact context_beginTyping c

theorem context_backspace (c : Calculator) : c.backspace.context = c.context := by
  simp only [backspace]
  split <;> rfl

/-! The keys of the stack and of the memory. -/

theorem all_rearranged {f : Context → Option Context} (hf : KeepsNodes f) (h : c.context.All Q)
    {context : Context} (hc : f c.context = some context) : context.All Q := by
  obtain ⟨nodes, rfl, hn⟩ := hf _ _ hc
  exact h.mono rfl rfl hn

theorem all_rearrange {f : Context → Option Context} (hf : KeepsNodes f) (h : c.context.All Q)
    (hv : c.isTyping → c.Accepts Q c.entry.value) : (c.rearrange f).1.context.All Q := by
  have ht := all_commitTyped h hv
  simp only [rearrange]
  split
  · split
    · rename_i context hc
      exact all_rearranged (c := c.commitTyped) hf ht hc
    · exact ht
  · exact h

theorem all_drop (h : c.context.All Q) (hv : c.isTyping → c.Accepts Q c.entry.value) :
    c.drop.1.context.All Q := by
  simp only [drop]
  split
  · exact h
  · exact all_rearrange keepsNodes_drop h hv

theorem all_accumulate (f : Float → Float → Float) (h : c.context.All Q)
    (hv : c.isTyping → c.Accepts Q c.entry.value) : (c.accumulate f).context.All Q := by
  simp only [accumulate]
  split
  · exact h
  · split
    · rename_i ht
      exact all_commit h (hv ht)
    · exact h

theorem all_equals (h : c.context.All Q) (hv : c.isTyping → c.Accepts Q c.entry.value)
    (hresult : ∀ e, c.equals.2 = some e → c.Accepts Q e.value) :
    c.equals.1.context.All Q := by
  have ht := all_commitTyped h hv
  obtain ⟨hmode, hangle, -⟩ := sameSettings_context_commitTyped c
  simp only [equals, restore_commitTyped] at hresult ⊢
  cases hfinish : c.commitTyped.context.finish with
  | error e => exact h
  | ok root =>
    simp only [hfinish] at hresult ⊢
    cases hvalue : c.commitTyped.evaluate root with
    | error e => exact h
    | ok v =>
      simp only [hvalue] at hresult ⊢
      have hnumber : c.Accepts Q v := hresult _ rfl
      rw [Accepts, ← hmode, ← hangle] at hnumber
      cases hstyle : c.settings.style with
      | algebraic => exact Context.All.resetTo hnumber
      | rpn => exact ht

theorem all_enter (h : c.context.All Q) (hv : c.isTyping → c.Accepts Q c.entry.value)
    (hresult : ∀ e, c.enter.2 = some e → c.Accepts Q e.value) : c.enter.1.context.All Q := by
  simp only [enter] at hresult ⊢
  cases hstyle : c.settings.style with
  | algebraic =>
    simp only [hstyle] at hresult
    exact all_equals h hv hresult
  | rpn =>
    dsimp only
    split
    · rename_i ht
      exact all_commit h (hv ht)
    · split
      · rename_i context hc
        exact all_rearranged keepsNodes_duplicate h hc
      · exact h

theorem all_evaluateText {source : String} (h : c.context.All Q)
    (hresult : ∀ e, (c.evaluateText source).2.toOption = some e → c.Accepts Q e.value) :
    (c.evaluateText source).1.context.All Q := by
  simp only [evaluateText] at hresult ⊢
  split
  · exact h
  · rename_i t hread
    simp only [hread] at hresult
    split
    · exact h
    · rename_i v hvalue
      simp only [hvalue] at hresult
      exact Context.All.resetTo (hresult _ rfl)

theorem all_ofSettings (s : Settings) : (Context.ofSettings s).All Q :=
  fun _ h => absurd h (by simp [Context.ofSettings])

theorem all_clear (h : c.context.All Q) : c.context.clear.All Q :=
  h.mono rfl rfl fun _ ht => absurd ht (by simp [Context.clear])

theorem Sound.accepts_iff (h : c.Sound) {v : Value} :
    c.Accepts Q v ↔ Q c.settings.mode c.settings.angle (.number v) := by
  rw [Accepts, h.mode, h.settings.angle]
  rfl

theorem all_setBase (h : c.context.All Q) (b : Base)
    (hkept : c.settings.mode = .programmer →
      Q c.settings.mode c.settings.angle (.number (c.displayValue.coerce .integer))) :
    (c.setBase b).context.All Q := by
  simp only [setBase]
  split
  · rename_i hmode
    exact Context.All.resetTo (hkept hmode)
  · exact h

theorem all_randomKey (h : c.context.All Q)
    (hdrawn : ∀ v, c.Introduces (.key .random) v → c.Accepts Q v) :
    c.randomKey.context.All Q := by
  unfold randomKey
  rcases c.random.next with ⟨word, random⟩
  refine all_pushValue (c := { c with random }) h (hdrawn _ ?_)
  split
  · exact .drawnDouble ‹_› word
  · exact .drawnInteger ‹_› word

/-! What a result is. -/

/-- A result is the value of its tree, which is the root of the expression. -/
theorem Sound.of_equals (h : c.Sound) {e : Evaluation} (he : c.equals.2 = some e) :
    c.commitTyped.context.finish = .ok e.tree ∧ e.tree.Supported c.domain ∧
      e.tree.value? c.domain = some e.value := by
  cases hfinish : c.commitTyped.context.finish with
  | error _ => simp [Calculator.equals, hfinish] at he
  | ok root =>
    obtain ⟨hs, hequals⟩ := h.equals_of_finish hfinish
    rw [hequals] at he
    cases he
    exact ⟨rfl, hs, (valueOf_of_supported hs).1⟩

theorem evaluateText_eq_ok {source : String} {e : Evaluation}
    (he : (c.evaluateText source).2 = .ok e) :
    Tree.read c.settings.mode c.settings.angle source = .ok e.tree ∧
      c.evaluate e.tree = .ok e.value := by
  simp only [evaluateText] at he
  split at he
  · cases he
  · rename_i t hread
    split at he
    · cases he
    · rename_i v hvalue
      cases he
      exact ⟨hread, hvalue⟩

/-- Only the equals sign gives a result, and Enter where it is the same. -/
theorem press_eq_equals {k : Key} {e : Evaluation} (he : (c.press k).2 = some e) :
    c.press k = c.equals := by
  cases k with
  | equals => rfl
  | enter =>
    simp only [press, enter] at he ⊢
    split at he
    · rfl
    · split at he
      · cases he
      · split at he <;> cases he
  | _ => cases he

/-- Only the equals sign, Enter in its place and a written expression give results. -/
theorem evaluation?_cases {i : Input} {e : Evaluation} (he : c.evaluation? i = some e) :
    c.equals.2 = some e ∨ ∃ source, i = .text source ∧ (c.evaluateText source).2 = .ok e := by
  cases i with
  | text source => exact .inr ⟨source, rfl, toOption_eq_some.1 he⟩
  | key k =>
    left
    rw [← press_eq_equals he]
    exact he

theorem Sound.evaluate_of_evaluation? (h : c.Sound) {i : Input} {e : Evaluation}
    (he : c.evaluation? i = some e) : c.evaluate e.tree = .ok e.value := by
  rcases evaluation?_cases he with he | ⟨source, -, he⟩
  · obtain ⟨-, hs, hvalue⟩ := h.of_equals he
    obtain ⟨htree, hevaluate⟩ := valueOf_of_supported hs
    rwa [Option.some.inj (htree.symm.trans hvalue)] at hevaluate
  · exact (evaluateText_eq_ok he).2

theorem Sound.value?_of_evaluation? (h : c.Sound) {i : Input} {e : Evaluation}
    (he : c.evaluation? i = some e) : e.tree.value? c.domain = some e.value :=
  value?_of_evaluate (h.evaluate_of_evaluation? he)

theorem domain_of_programmer (hmode : c.settings.mode = .programmer) : c.domain = .integer := by
  rw [domain, Settings.domain, hmode]
  rfl

theorem Coherent.belongsTo_of_introduces (h : c.Coherent) {i : Input} {v : Value}
    (hv : c.Introduces i v) : v.BelongsTo c.domain := by
  cases hv with
  | typed => exact h.fits.belongsTo
  | result he => exact Tree.belongsTo_of_value? (h.toSound.value?_of_evaluation? he)
  | recalled => exact Value.belongsTo_coerce _ _
  | drawnDouble hd | drawnInteger hd =>
    rw [hd]
    exact .inr rfl
  | kept hmode =>
    rw [domain_of_programmer hmode]
    exact Value.belongsTo_coerce _ _

end Calculator

namespace Inherited

open Calculator

variable {Q : Mode → AngleUnit → Tree → Prop} (hQ : Inherited Q) {c : Calculator}
include hQ

theorem operator (h : c.context.All Q) (hv : c.isTyping → c.Accepts Q c.entry.value)
    (op : Operator) : (c.operator op).1.context.All Q := by
  have ht := all_commitTyped h hv
  simp only [Calculator.operator, restore_commitTyped]
  split
  · rename_i context hc
    exact hQ.apply hc ht
  · exact h

theorem changeSign (h : c.context.All Q) (hv : c.isTyping → c.Accepts Q c.entry.value) :
    c.changeSign.context.All Q := by
  simp only [Calculator.changeSign]
  split
  · exact h
  · split
    · rw [context_beginTyping]
      exact h
    · exact hQ.operator h hv .negate

theorem press (hs : c.Sound) (h : c.context.All Q) (k : Key)
    (hnumber : ∀ v, c.Introduces (.key k) v → Q c.settings.mode c.settings.angle (.number v)) :
    (c.press k).1.context.All Q := by
  have haccepts (v : Value) (hv : c.Introduces (.key k) v) : c.Accepts Q v :=
    hs.accepts_iff.2 (hnumber v hv)
  have htyped (ht : c.isTyping) : c.Accepts Q c.entry.value := haccepts _ (.typed ht)
  cases k with
  | digit d => exact (context_digit c d).symm ▸ h
  | point => exact (context_typeDouble c Entry.point).symm ▸ h
  | startExponent => exact (context_typeDouble c Entry.startExponent).symm ▸ h
  | operator op => exact hQ.operator h htyped op
  | equals => exact all_equals h htyped fun e he => haccepts _ (.result he)
  | allClear => exact all_clear h
  | clearEntry => exact h
  | changeSign => exact hQ.changeSign h htyped
  | backspace => exact (context_backspace c).symm ▸ h
  | mode m => exact all_ofSettings _
  | base b => exact all_setBase h b fun hmode => hnumber _ (.kept hmode)
  | angle u => exact all_ofSettings _
  | style s => exact all_ofSettings _
  | memory k =>
    cases k with
    | add | subtract => exact all_accumulate _ h htyped
    | read => exact all_pushValue h (haccepts _ .recalled)
    | clear => exact h
  | enter => exact all_enter h htyped fun e he => haccepts _ (.result he)
  | swap => exact all_rearrange keepsNodes_swap h htyped
  | drop => exact all_drop h htyped
  | rollDown => exact all_rearrange keepsNodes_rollDown h htyped
  | rollUp => exact all_rearrange keepsNodes_rollUp h htyped
  | random => exact all_randomKey h haccepts

/-- What an input leaves of the operands has a property that all operands had and that the numbers
brought in have. -/
theorem feed (hs : c.Sound) (h : c.context.All Q) (i : Input)
    (hnumber : ∀ v, c.Introduces i v → Q c.settings.mode c.settings.angle (.number v)) :
    (c.feed i).context.All Q := by
  cases i with
  | key k => exact hQ.press hs h k hnumber
  | text source =>
    exact all_evaluateText h fun e he => hs.accepts_iff.2 (hnumber _ (.result he))

theorem tree_of_equals (hs : c.Sound) (h : c.context.All Q)
    (hv : c.isTyping → Q c.settings.mode c.settings.angle (.number c.entry.value))
    {e : Evaluation} (he : c.equals.2 = some e) : Q c.settings.mode c.settings.angle e.tree := by
  have ht := all_commitTyped h fun ht => hs.accepts_iff.2 (hv ht)
  have hroot := hQ.finish (hs.of_equals he).1 ht
  rwa [hs.sameSettings_commitTyped.mode, hs.sameSettings_commitTyped.angle] at hroot

/-- A property of all numbers of the domain that is handed on holds of all operands, wherever keys
and written expressions lead. -/
theorem of_reachable (hnumber : ∀ {mode angle v}, v.BelongsTo mode.domain → Q mode angle (.number v))
    (h : c.Reachable) : c.context.All Q := by
  induction h with
  | fresh s random => exact all_ofSettings s
  | feed h i ih =>
    exact hQ.feed h.coherent.toSound ih i fun v hv =>
      hnumber (h.coherent.belongsTo_of_introduces hv)
  | separators _ on ih => exact ih
  | draw _ random ih => exact ih

theorem tree_of_reachable
    (hnumber : ∀ {mode angle v}, v.BelongsTo mode.domain → Q mode angle (.number v))
    (h : c.Reachable) {e : Evaluation} (he : c.equals.2 = some e) :
    Q c.settings.mode c.settings.angle e.tree :=
  hQ.tree_of_equals h.coherent.toSound (hQ.of_reachable hnumber h)
    (fun _ => hnumber h.coherent.fits.belongsTo) he

end Inherited
end DeskCalculator
