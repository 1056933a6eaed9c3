import DeskCalculator.Proofs.Building
import DeskCalculator.Proofs.Coherence
/-!
Reverse Polish entry as a machine on a stack of values. Main statement:
`Calculator.stackValues_rpn` says what each key makes of the values on the stack.
-/
namespace DeskCalculator

/-! A stack, the last one first, as the keys act on it. -/

namespace Stack

variable {α β : Type}

def swap : List α → List α
  | x :: y :: xs => y :: x :: xs
  | xs => xs

/-- Moves the first to the end. -/
def rollDown : List α → List α
  | x :: xs => xs ++ [x]
  | [] => []

/-- Moves the last to the front. -/
def rollUp (xs : List α) : List α := xs.getLast?.toList ++ xs.dropLast

theorem map_swap (f : α → β) (xs : List α) : (swap xs).map f = swap (xs.map f) := by
  match xs with
  | [] | [x] | x :: y :: xs => rfl

theorem map_rollDown (f : α → β) (xs : List α) : (rollDown xs).map f = rollDown (xs.map f) := by
  cases xs with
  | nil => rfl
  | cons x xs => simp [rollDown]

theorem map_rollUp (f : α → β) (xs : List α) : (rollUp xs).map f = rollUp (xs.map f) := by
  cases h : xs.getLast? <;> simp [rollUp, h]

end Stack

/-- Does a stack have what an operator key takes from it? A closing parenthesis takes the last
operand, and an opening one has no use. -/
def Operator.takes (op : Operator) (mode : Mode) (count : Nat) : Bool :=
  match op with
  | openParen => false
  | closeParen => 1 ≤ count
  | op => op.availableIn mode && op.arity ≤ count

theorem Operator.takes_iff {op : Operator} (hg : op.rule ≠ .group) {mode : Mode} {count : Nat} :
    op.takes mode count ↔ op.availableIn mode ∧ op.arity ≤ count := by
  simp only [takes]
  split
  · exact absurd rfl hg
  · exact absurd rfl hg
  · simp

namespace Context

variable {c : Context}

/-- Does a key act on a stack of two operands or more as a function of lists, which leaves shorter
lists alone? -/
structure Rearranges (f : Context → Option Context) (g : {α : Type} → List α → List α) :
    Prop where
  eq_ite : ∀ c : Context,
    f c = if 2 ≤ c.nodes.length then some { c with nodes := g c.nodes } else none
  map : ∀ {α β : Type} (φ : α → β) (xs : List α), (g xs).map φ = g (xs.map φ)
  nil : ∀ {α : Type}, g ([] : List α) = []
  single : ∀ {α : Type} (x : α), g [x] = [x]

theorem Rearranges.short {f : Context → Option Context} {g : {α : Type} → List α → List α}
    (h : Rearranges f g) {α : Type} (xs : List α) (hl : xs.length < 2) : g xs = xs := by
  match xs, hl with
  | [], _ => exact h.nil
  | [x], _ => exact h.single x

theorem rearranges_swap : Rearranges swap? Stack.swap where
  eq_ite c := by
    obtain ⟨nodes, pending, mode, angle, style⟩ := c
    match nodes with
    | [] | [_] => rfl
    | x :: y :: nodes => simp [swap?, Stack.swap]
  map := Stack.map_swap
  nil := rfl
  single _ := rfl

theorem rearranges_rollDown : Rearranges rollDown? Stack.rollDown where
  eq_ite c := by
    obtain ⟨nodes, pending, mode, angle, style⟩ := c
    match nodes with
    | [] | [_] => rfl
    | x :: y :: nodes => simp [rollDown?, Stack.rollDown]
  map := Stack.map_rollDown
  nil := rfl
  single _ := rfl

theorem rearranges_rollUp : Rearranges rollUp? Stack.rollUp where
  eq_ite c := by
    obtain ⟨nodes, pending, mode, angle, style⟩ := c
    match nodes with
    | [] | [_] => rfl
    | x :: y :: nodes => simp [rollUp?, Stack.rollUp, List.getLast?_eq_some_getLast]
  map := Stack.map_rollUp
  nil := rfl
  single _ := rfl

/-! Operators in reverse Polish entry. -/

theorem applyNow_rpn (hs : c.style = .rpn) (op : Operator) :
    c.applyNow op = (combine c.mode c.angle op c.nodes).map fun nodes => { c with nodes } := by
  simp only [applyNow]
  split
  · rename_i harity
    have hroom : c.makeRoom = c := by simp [makeRoom, hs]
    simp only [combine, harity, List.take_zero, List.reverse_nil, List.drop_zero]
    cases Tree.build op [] c.mode c.angle <;> simp [Except.map, pushOperand, hroom]
  · rw [if_neg (by simp [hs])]

theorem apply_rpn (hs : c.style = .rpn) {op : Operator} (hg : op.rule ≠ .group)
    (hop : op.availableIn c.mode) :
    c.apply op = (combine c.mode c.angle op c.nodes).map fun nodes => { c with nodes } := by
  rw [apply_of_rule_ne_group hg hop, if_neg (by simp [hs]), applyNow_rpn hs]

theorem apply_closeParen_rpn (hs : c.style = .rpn) :
    c.apply .closeParen = (wrapTop c.nodes).map fun nodes => { c with nodes } := by
  simp only [apply_closeParen, applyCloseParen, hs]

theorem apply_openParen_rpn (hs : c.style = .rpn) :
    c.apply .openParen = .error (.operatorUnavailable "(" "RPN entry") := by
  simp only [apply_openParen, applyOpenParen, hs]

theorem apply_rpn_of_not_takes (hs : c.style = .rpn) {op : Operator}
    (hn : ¬ op.takes c.mode c.nodes.length) : ∃ e, c.apply op = .error e := by
  by_cases hop : op.availableIn c.mode
  · by_cases hg : op.rule = .group
    · rcases (Operator.rule_eq_group_iff op).1 hg with rfl | rfl
      · exact ⟨_, apply_openParen_rpn hs⟩
      · have hempty : c.nodes = [] := by
          simpa [Operator.takes, Nat.lt_one_iff] using hn
        rw [apply_closeParen_rpn hs, hempty]
        exact ⟨_, rfl⟩
    · have hlen : c.nodes.length < op.arity := by
        rw [Operator.takes_iff hg] at hn
        exact Nat.lt_of_not_le fun hle => hn ⟨hop, hle⟩
      rw [apply_rpn hs hg hop, combine, if_pos hlen]
      exact ⟨_, rfl⟩
  · simp only [apply, if_neg hop]
    exact ⟨_, rfl⟩

end Context

namespace Calculator

variable {c : Calculator}

theorem isTyping_commitTyped (c : Calculator) : c.commitTyped.isTyping = false := by
  simp only [commitTyped]
  split
  · rfl
  · rename_i ht
    simpa using ht

theorem domain_commitTyped (c : Calculator) : c.commitTyped.domain = c.domain := by
  rw [domain, settings_commitTyped, domain]

theorem Sound.sameSettings_commitTyped (h : c.Sound) :
    (Context.ofSettings c.settings).SameSettings c.commitTyped.context := by
  have hs := h.commitTyped.settings
  rwa [settings_commitTyped] at hs

theorem Sound.supported_commitTyped (h : c.Sound) {t : Tree}
    (ht : t ∈ c.commitTyped.context.nodes) : t.Supported c.domain := by
  have hs := h.commitTyped.supported ht
  rwa [domain_commitTyped] at hs

theorem stackValues_eq {c' : Calculator} (ht : c'.isTyping = false) (hd : c'.domain = c.domain) :
    c'.stackValues = c'.context.nodes.map c.valueOf := by
  simp [stackValues, ht, valueOf_congr hd]

/-- A typed number is the last value on the stack before and after it becomes an operand. -/
theorem Coherent.map_valueOf_commitTyped (h : c.Coherent) (hrpn : c.settings.style = .rpn) :
    c.commitTyped.context.nodes.map c.valueOf = c.stackValues := by
  simp only [commitTyped, stackValues]
  split
  · have hstyle : c.dropCopy.context.style = .rpn := h.toSound.dropCopy.style.trans hrpn
    have hroom : c.dropCopy.context.makeRoom = c.dropCopy.context := by
      simp [Context.makeRoom, hstyle]
    simp only [commit, Context.pushOperand, hroom]
    rw [List.map_cons, valueOf_number, h.fits.belongsTo.coerce_eq]
    rfl
  · rfl

theorem Coherent.displayValue_eq (h : c.Coherent) :
    c.displayValue = c.stackValues.head?.getD c.settings.zero := by
  by_cases ht : c.isTyping
  · simp only [displayValue, stackValues, if_pos ht, List.head?_cons, Option.getD_some]
  · have hshows : c.display = c.context.top?.elim c.settings.zero c.valueOf := h.shows ht
    simp only [displayValue, stackValues, if_neg ht, List.head?_map, hshows, Context.top?]
    cases c.context.nodes.head? <;> rfl

theorem operator_of_apply {op : Operator} {context : Context}
    (h : c.commitTyped.context.apply op = .ok context) :
    c.operator op = (({ c.commitTyped with context, phase := .idle, replacesTop := false }
      : Calculator).refreshDisplay, true) := by
  simp only [operator, h]

theorem operator_of_error {op : Operator} {e : BuildError}
    (h : c.commitTyped.context.apply op = .error e) : c.operator op = (c, false) := by
  simp only [operator, h, restore_commitTyped]

/-- Once a typed number is an operand, what an operator leaves of the operands gives the values on
the stack. -/
theorem operator_of_nodes {op : Operator} {nodes : List Tree}
    (h : c.commitTyped.context.apply op = .ok { c.commitTyped.context with nodes }) :
    (c.operator op).2 = true ∧ (c.operator op).1.stackValues = nodes.map c.valueOf := by
  rw [operator_of_apply h]
  exact ⟨rfl, stackValues_eq rfl (domain_commitTyped c)⟩

/-- What an operator key leaves of the values on the stack: a closing parenthesis leaves them all,
and any other operator puts the value of its tree in the place of the operands that it takes, which
are there in the order of entry. -/
def Leaves (c : Calculator) (op : Operator) (vs vs' : List Value) : Prop :=
  match op with
  | .closeParen => vs' = vs
  | op => ∃ t v,
    Tree.build op ((vs.take op.arity).map Tree.number).reverse c.settings.mode c.settings.angle =
      .ok t ∧ c.evaluate t = .ok v ∧ vs' = v :: vs.drop op.arity

theorem forall₂_value_number {nodes : List Tree} (h : ∀ t ∈ nodes, t.Supported c.domain) :
    List.Forall₂ (fun t u => t.value? c.domain = u.value? c.domain) nodes
      ((nodes.map c.valueOf).map Tree.number) := by
  induction nodes with
  | nil => exact .nil
  | cons t nodes ih =>
    have hvalue := (valueOf_of_supported (h t (by simp))).1
    have hcoerce := (Tree.belongsTo_of_value? hvalue).coerce_eq
    refine .cons ?_ (ih fun u hu => h u (List.mem_cons_of_mem _ hu))
    rw [hvalue, Tree.value?, hcoerce]

theorem build_values {op : Operator} {nodes : List Tree} (hg : op.rule ≠ .group)
    (hop : op.availableIn c.settings.mode) (hl : nodes.length = op.arity)
    (hs : ∀ t ∈ nodes, t.Supported c.domain) :
    ∃ t u, Tree.build op nodes c.settings.mode c.settings.angle = .ok t ∧
      Tree.build op ((nodes.map c.valueOf).map Tree.number) c.settings.mode c.settings.angle =
        .ok u ∧ c.evaluate u = .ok (c.valueOf t) := by
  obtain ⟨t, ht, htree⟩ := Tree.supported_build c.settings.angle hop hg hl hs
  obtain ⟨u, hu, hvalue⟩ := (Tree.congruence_value c.domain).build (forall₂_value_number hs) ht
  have hnumbers : ∀ a ∈ (nodes.map c.valueOf).map Tree.number, a.Supported c.domain := by
    intro a ha
    obtain ⟨v, -, rfl⟩ := List.mem_map.1 ha
    exact Tree.supported_number v
  obtain ⟨u', hu', hnumber⟩ :=
    Tree.supported_build c.settings.angle hop hg (by simpa using hl) hnumbers
  obtain rfl := Except.ok.inj (hu'.symm.trans hu)
  obtain ⟨htv, -⟩ := valueOf_of_supported (c := c) htree
  obtain ⟨huv, hevaluate⟩ := valueOf_of_supported (c := c) hnumber
  have heq : c.valueOf u' = c.valueOf t := Option.some.inj (huv.symm.trans (hvalue.symm.trans htv))
  exact ⟨t, u', ht, hu, heq ▸ hevaluate⟩

/-- An operator with enough operands puts the value of its tree in their place. -/
theorem Coherent.operator_of_arity_le (h : c.Coherent) (hrpn : c.settings.style = .rpn)
    {op : Operator} (hg : op.rule ≠ .group) (hop : op.availableIn c.settings.mode)
    (hl : op.arity ≤ c.stackValues.length) :
    (c.operator op).2 = true ∧ ∃ t v,
      Tree.build op ((c.stackValues.take op.arity).map Tree.number).reverse c.settings.mode
        c.settings.angle = .ok t ∧ c.evaluate t = .ok v ∧
      (c.operator op).1.stackValues = v :: c.stackValues.drop op.arity := by
  obtain ⟨hmode, hangle, hstyle⟩ := h.toSound.sameSettings_commitTyped
  simp only [Context.ofSettings] at hmode hangle hstyle
  have hvalues := h.map_valueOf_commitTyped hrpn
  have hlen : op.arity ≤ c.commitTyped.context.nodes.length := by
    rwa [← hvalues, List.length_map] at hl
  have hsupported : ∀ t ∈ (c.commitTyped.context.nodes.take op.arity).reverse,
      t.Supported c.domain := fun t ht =>
    h.toSound.supported_commitTyped (List.mem_of_mem_take (List.mem_reverse.1 ht))
  obtain ⟨t, u, ht, hu, hevaluate⟩ := build_values hg hop (by simp [hlen]) hsupported
  rw [← hmode, ← hangle] at ht
  have happly := Context.apply_rpn (hstyle.trans hrpn) hg (hmode ▸ hop)
  rw [Context.combine_of_build hlen ht] at happly
  obtain ⟨htaken, hleft⟩ := operator_of_nodes happly
  refine ⟨htaken, u, c.valueOf t, ?_, hevaluate, ?_⟩
  · rw [← hu, ← hvalues]
    simp only [List.map_reverse, List.map_take]
  · rw [hleft, ← hvalues, List.map_cons, List.map_drop]

theorem Coherent.operator_closeParen (h : c.Coherent) (hrpn : c.settings.style = .rpn)
    (hl : 1 ≤ c.stackValues.length) :
    (c.operator .closeParen).2 = true ∧
      (c.operator .closeParen).1.stackValues = c.stackValues := by
  have hstyle := h.toSound.sameSettings_commitTyped.style
  have hvalues := h.map_valueOf_commitTyped hrpn
  have happly := Context.apply_closeParen_rpn (hstyle.trans hrpn)
  rw [← hvalues] at hl ⊢
  cases hnodes : c.commitTyped.context.nodes with
  | nil => simp [hnodes] at hl
  | cons t nodes =>
    rw [hnodes] at happly
    obtain ⟨htaken, hleft⟩ := operator_of_nodes happly
    exact ⟨htaken, hleft⟩

theorem Coherent.operator_of_not_takes (h : c.Coherent) (hrpn : c.settings.style = .rpn)
    {op : Operator} (hn : ¬ op.takes c.settings.mode c.stackValues.length) :
    c.operator op = (c, false) := by
  obtain ⟨hmode, -, hstyle⟩ := h.toSound.sameSettings_commitTyped
  simp only [Context.ofSettings] at hmode hstyle
  have hvalues := h.map_valueOf_commitTyped hrpn
  rw [← hvalues, List.length_map, ← hmode] at hn
  obtain ⟨e, he⟩ := Context.apply_rpn_of_not_takes (hstyle.trans hrpn) hn
  exact operator_of_error he

theorem Coherent.operator_of_takes (h : c.Coherent) (hrpn : c.settings.style = .rpn)
    {op : Operator} (ht : op.takes c.settings.mode c.stackValues.length) :
    (c.operator op).2 = true ∧ c.Leaves op c.stackValues (c.operator op).1.stackValues := by
  by_cases hg : op.rule = .group
  · rcases (Operator.rule_eq_group_iff op).1 hg with rfl | rfl
    · exact absurd ht Bool.false_ne_true
    · exact h.operator_closeParen hrpn (of_decide_eq_true ht)
  · obtain ⟨hop, hl⟩ := (Operator.takes_iff hg).1 ht
    obtain ⟨htaken, hresult⟩ := h.operator_of_arity_le hrpn hg hop hl
    refine ⟨htaken, ?_⟩
    simp only [Leaves]
    split
    · exact absurd rfl hg
    · exact hresult

/-! The keys of the stack. -/

theorem rearrange_eq (hrpn : c.settings.style = .rpn) {f : Context → Option Context}
    {g : {α : Type} → List α → List α} (hf : Context.Rearranges f g) :
    c.rearrange f =
      (({ c.commitTyped with
        context := { c.commitTyped.context with nodes := g c.commitTyped.context.nodes }
        replacesTop := false } : Calculator).refreshDisplay,
        decide (2 ≤ c.commitTyped.context.nodes.length)) := by
  simp only [rearrange, if_pos hrpn, hf.eq_ite]
  by_cases hl : 2 ≤ c.commitTyped.context.nodes.length
  · simp only [if_pos hl, decide_eq_true hl]
  · simp only [if_neg hl, decide_eq_false hl, hf.short _ (Nat.lt_of_not_le hl)]

theorem Coherent.rearrange_rpn (h : c.Coherent) (hrpn : c.settings.style = .rpn)
    {f : Context → Option Context} {g : {α : Type} → List α → List α}
    (hf : Context.Rearranges f g) :
    ((c.rearrange f).2 = true ↔ 2 ≤ c.stackValues.length) ∧
      (c.rearrange f).1.stackValues = g c.stackValues := by
  rw [rearrange_eq hrpn hf, ← h.map_valueOf_commitTyped hrpn, List.length_map, ← hf.map]
  exact ⟨decide_eq_true_iff, stackValues_eq (isTyping_commitTyped c) (domain_commitTyped c)⟩

theorem enter_eq_of_isTyping (hrpn : c.settings.style = .rpn) (ht : c.isTyping) :
    c.enter = (c.commitTyped.refreshDisplay, none) := by
  simp only [Calculator.enter, hrpn, commitTyped, if_pos ht]

theorem Coherent.enter_of_isTyping (h : c.Coherent) (hrpn : c.settings.style = .rpn)
    (ht : c.isTyping) : c.enter.1.stackValues = c.stackValues := by
  rw [enter_eq_of_isTyping hrpn ht, ← h.map_valueOf_commitTyped hrpn]
  exact stackValues_eq (isTyping_commitTyped c) (domain_commitTyped c)

/-- The Enter key repeats the last operand if no number is typed. -/
theorem enter_of_nodes (hrpn : c.settings.style = .rpn) (ht : ¬ c.isTyping) {t : Tree}
    {nodes : List Tree} (hn : c.context.nodes = t :: nodes) :
    c.enter = (({ c with
      context := { c.context with nodes := t :: t :: nodes }, replacesTop := true }
      : Calculator).refreshDisplay, none) := by
  simp only [enter, hrpn, if_neg ht, Context.duplicate?, hn]

theorem enter_of_not_isTyping (hrpn : c.settings.style = .rpn) (ht : ¬ c.isTyping) :
    c.enter.1.stackValues = c.stackValues.head?.toList ++ c.stackValues := by
  have hidle : c.isTyping = false := by simpa using ht
  have hvalues : c.stackValues = c.context.nodes.map c.valueOf := stackValues_eq hidle rfl
  cases hn : c.context.nodes with
  | nil =>
    have henter : c.enter = (c.refreshDisplay, none) := by
      simp only [enter, hrpn, if_neg ht, Context.duplicate?, hn]
    have hempty : c.stackValues = [] := by rw [hvalues, hn, List.map_nil]
    rw [henter, hempty]
    exact hempty
  | cons t nodes =>
    rw [enter_of_nodes hrpn ht hn, hvalues, hn]
    exact stackValues_eq hidle rfl

theorem value_firstDigit (s : Settings) {d : Nat} (hd : d < s.effectiveBase.radix) :
    Entry.value { s.freshEntry with significand := d } =
      (Value.integer (Int64.ofNat d)).coerce s.domain := by
  cases hs : s.domain with
  | integer =>
    have hentry : s.freshEntry = { base := s.effectiveBase, integral := true } := by
      simp [Settings.freshEntry, hs]
    rw [hentry]
    rfl
  | double =>
    have hbase : s.effectiveBase = .dec := by
      rw [Settings.domain] at hs
      cases hm : s.mode <;> simp_all [Settings.effectiveBase, Mode.domain]
    have hentry : s.freshEntry = { base := .dec, integral := false } := by
      simp [Settings.freshEntry, hs, hbase]
    have table : ∀ n : Fin 10, Entry.value { base := .dec, integral := false, significand := n } =
        .double (Double.ofInt (Int64.ofNat n).toInt) := by decide
    rw [hbase] at hd
    rw [hentry]
    exact table ⟨d, hd⟩

theorem Fits.beginTyping_of_not_isTyping (h : c.Fits) (ht : ¬ c.isTyping) :
    c.beginTyping = { c with entry := c.settings.freshEntry, phase := .typing } := by
  rw [Calculator.beginTyping, if_neg ht, h]

theorem Fits.digit_of_not_isTyping (h : c.Fits) (ht : ¬ c.isTyping) {d : Nat}
    (hd : d < c.base.radix) :
    c.digit d = ({ c with
      entry := { c.settings.freshEntry with significand := d }, phase := .typing }, true) := by
  have hlimit : d < Entry.limit :=
    Nat.lt_of_lt_of_le hd (Nat.le_trans c.base.radix_le_sixteen (by decide))
  have hbegin := h.beginTyping_of_not_isTyping ht
  have hdigit : c.settings.freshEntry.digit? d =
      some { c.settings.freshEntry with significand := d } := by
    simp only [Entry.digit?, Entry.appendDigit?, Settings.freshEntry, Nat.zero_mul, Nat.zero_add,
      if_pos hlimit]
    exact if_pos hd
  simp only [Calculator.digit, h.entry_base, if_pos hd, hbegin, hdigit]

/-- The first digit after a repeated operand takes the place of the copy. -/
theorem Coherent.digit_enter_rpn (h : c.Coherent) (hrpn : c.settings.style = .rpn)
    (ht : ¬ c.isTyping) (hvs : c.stackValues ≠ []) {d : Nat} (hd : d < c.base.radix) :
    (c.enter.1.digit d).1.stackValues =
      (Value.integer (Int64.ofNat d)).coerce c.domain :: c.stackValues := by
  have hvalues : c.stackValues = c.context.nodes.map c.valueOf :=
    stackValues_eq (by simpa using ht) rfl
  cases hn : c.context.nodes with
  | nil => simp [hvalues, hn] at hvs
  | cons t nodes =>
    have henter := enter_of_nodes hrpn ht hn
    have htyping : ¬ c.enter.1.isTyping := by rwa [henter]
    have hbase : d < c.enter.1.base.radix := by rwa [henter]
    rw [h.enter.fits.digit_of_not_isTyping htyping hbase, henter, hvalues, hn]
    exact congrArg (· :: _) (value_firstDigit c.settings hd)

/-- The equals key shows the last value and leaves the stack. -/
theorem Coherent.equals_rpn (h : c.Coherent) (hrpn : c.settings.style = .rpn) :
    c.equals.2.map Evaluation.value = c.stackValues.head? ∧
      c.equals.1.stackValues = c.stackValues := by
  have hvalues := h.map_valueOf_commitTyped hrpn
  have hstyle := h.toSound.sameSettings_commitTyped.style.trans hrpn
  cases hn : c.commitTyped.context.nodes with
  | nil =>
    have hfinish : c.commitTyped.context.finish = .error .emptyExpression := by
      simp only [Context.finish, hn]
    have hequals : c.equals = (c, none) := by simp only [Calculator.equals, hfinish, restore_commitTyped]
    rw [hequals]
    refine ⟨?_, rfl⟩
    rw [← hvalues, hn]
    rfl
  | cons t nodes =>
    have hfinish : c.commitTyped.context.finish = .ok t := by
      simp only [Context.finish, hn, hstyle]
    have hequals := (h.toSound.equals_of_finish hfinish).2
    have hcontext : c.resultContext (c.valueOf t) = c.commitTyped.context := by
      simp only [resultContext, hrpn]
    rw [hequals, hcontext, ← hvalues]
    refine ⟨by simp [hn], ?_⟩
    exact stackValues_eq rfl (domain_commitTyped c)

/-- In reverse Polish entry the keys act on the values of the stack as on numbers. An operator is
taken exactly if the keypad has it and the stack its operands, and puts the value of its tree over
them in their place; a refused one changes nothing. The keys of the stack rearrange the values. The
Enter key keeps a typed number or repeats the last value, and then the first digit typed replaces
the copy. The equals key gives the last value, if there is one, and leaves the stack. -/
theorem stackValues_rpn (h : c.Reachable) (hrpn : c.settings.style = .rpn) :
    let vs := c.stackValues
    (∀ op : Operator,
      if op.takes c.settings.mode vs.length then
        (c.operator op).2 = true ∧ c.Leaves op vs (c.operator op).1.stackValues
      else c.operator op = (c, false)) ∧
    ((c.swap.2 = true ↔ 2 ≤ vs.length) ∧ c.swap.1.stackValues = Stack.swap vs) ∧
    ((c.rollDown.2 = true ↔ 2 ≤ vs.length) ∧ c.rollDown.1.stackValues = Stack.rollDown vs) ∧
    ((c.rollUp.2 = true ↔ 2 ≤ vs.length) ∧ c.rollUp.1.stackValues = Stack.rollUp vs) ∧
    (if c.isTyping then c.enter.1.stackValues = vs
      else c.enter.1.stackValues = vs.head?.toList ++ vs ∧
        (vs ≠ [] → ∀ d < c.base.radix, (c.enter.1.digit d).1.stackValues =
          (Value.integer (Int64.ofNat d)).coerce c.domain :: vs)) ∧
    c.equals.2.map Evaluation.value = vs.head? ∧ c.equals.1.stackValues = vs := by
  have hc := h.coherent
  refine ⟨fun op => ?_, hc.rearrange_rpn hrpn Context.rearranges_swap,
    hc.rearrange_rpn hrpn Context.rearranges_rollDown,
    hc.rearrange_rpn hrpn Context.rearranges_rollUp, ?_, hc.equals_rpn hrpn⟩
  · split
    · rename_i htaken
      exact hc.operator_of_takes hrpn htaken
    · rename_i hrefused
      exact hc.operator_of_not_takes hrpn hrefused
  · split
    · rename_i ht
      exact hc.enter_of_isTyping hrpn ht
    · rename_i ht
      exact ⟨enter_of_not_isTyping hrpn ht, fun hvs d hd => hc.digit_enter_rpn hrpn ht hvs hd⟩

theorem stackValues_rpn_difference :
    let c := (ofSettings { mode := .programmer, style := .rpn } ⟨0⟩).run
      [.key (.digit 7), .key .enter, .key (.digit 2)]
    c.Reachable ∧ c.settings.style = .rpn ∧ c.stackValues = [.integer 2, .integer 7] ∧
      (c.operator .sub).1.stackValues = [.integer 5] ∧
      c.swap.1.stackValues = [.integer 7, .integer 2] := by
  intro c
  have hc : c.Reachable := reachable_run _ _ _
  have hvalues : c.stackValues = [.integer 2, .integer 7] := rfl
  obtain ⟨hoperator, ⟨-, hswap⟩, -⟩ := stackValues_rpn hc rfl
  rw [hvalues] at hoperator hswap
  obtain ⟨-, t, v, ht, hv, hleft⟩ := hoperator .sub
  cases ht
  have hdomain : c.domain = .integer := rfl
  have hdifference := (Except.ok.inj hv).symm
  rw [hdomain] at hdifference
  refine ⟨hc, rfl, hvalues, ?_, hswap⟩
  rw [hleft, hdifference]
  rfl

end Calculator
end DeskCalculator
