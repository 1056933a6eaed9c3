import DeskCalculator.Proofs.ValueStack
/-!
Expressions entered with parentheses or in reverse Polish notation. Main statement:
`Formula.equals_infixKeys_postfixKeys` says that both give one value, and one tree but for the
parentheses.
-/
namespace DeskCalculator

inductive Formula (s : Settings) where
  | typed (digits : List Nat) (hne : digits ≠ []) (hd : ∀ d ∈ digits, d < s.effectiveBase.radix)
  | constant (op : Operator) (hg : op.rule ≠ .group) (hop : op.arity = 0)
      (hm : op.availableIn s.mode)
  | unary (op : Operator) (hop : op.arity = 1) (hm : op.availableIn s.mode) (a : Formula s)
  | binary (op : Operator) (hop : op.arity = 2) (hm : op.availableIn s.mode) (l r : Formula s)

namespace Formula

variable {s : Settings}

/-- With parentheses around every operator between operands. -/
def infixKeys : Formula s → List Key
  | typed digits .. => digits.map .digit
  | constant op .. => [.operator op]
  | unary op _ _ a => a.infixKeys ++ [.operator op]
  | binary op _ _ l r =>
    .operator .openParen :: l.infixKeys ++ .operator op :: r.infixKeys ++ [.operator .closeParen]

/-- With each operator after its operands. -/
def postfixKeys : Formula s → List Key
  | typed digits .. => digits.map .digit ++ [.enter]
  | constant op .. => [.operator op]
  | unary op _ _ a => a.postfixKeys ++ [.operator op]
  | binary op _ _ l r => l.postfixKeys ++ r.postfixKeys ++ [.operator op]

end Formula

namespace Entry

def extend (e : Entry) (d : Nat) : Entry := (e.digit? d).getD e

theorem clear_extend (e : Entry) (d : Nat) : (e.extend d).clear = e.clear := by
  rw [extend]
  cases h : e.digit? d with
  | none => rfl
  | some e' => exact clear_of_digit? h

end Entry

namespace Context

variable {c : Context} {op : Operator} {t l r : Tree} {mode : Mode} {angle : AngleUnit}

theorem combine_operands (operands : List Tree) {nodes : List Tree}
    (hl : operands.length = op.arity) (ht : Tree.build op operands.reverse mode angle = .ok t) :
    combine mode angle op (operands ++ nodes) = .ok (t :: nodes) := by
  have htake : (operands ++ nodes).take op.arity = operands := List.take_left' hl
  have hdrop : (operands ++ nodes).drop op.arity = nodes := List.drop_left' hl
  have hlen : op.arity ≤ (operands ++ nodes).length := by simp [hl]
  rw [combine_of_build hlen (htake.symm ▸ ht), hdrop]

/-! An operand where there is room for one. -/

def put (c : Context) (t : Tree) : Context := { c with nodes := t :: c.nodes }

def wait (c : Context) (p : Pending) : Context := { c with pending := p :: c.pending }

section views

variable (c : Context) (t : Tree) (p : Pending)

@[simp] theorem put_nodes : (c.put t).nodes = t :: c.nodes := rfl
@[simp] theorem put_pending : (c.put t).pending = c.pending := rfl
@[simp] theorem put_mode : (c.put t).mode = c.mode := rfl
@[simp] theorem put_angle : (c.put t).angle = c.angle := rfl
@[simp] theorem put_style : (c.put t).style = c.style := rfl
@[simp] theorem wait_nodes : (c.wait p).nodes = c.nodes := rfl
@[simp] theorem wait_pending : (c.wait p).pending = p :: c.pending := rfl
@[simp] theorem wait_mode : (c.wait p).mode = c.mode := rfl
@[simp] theorem wait_angle : (c.wait p).angle = c.angle := rfl
@[simp] theorem wait_style : (c.wait p).style = c.style := rfl

end views

/-- Has every operand its operator, where operators wait for operands? -/
def HasRoom (c : Context) : Prop := c.style = .algebraic → c.nodes.length = waiting c.pending

theorem HasRoom.wait_openParen (h : c.HasRoom) : (c.wait .openParen).HasRoom := fun hs => by
  simpa using h hs

theorem HasRoom.wait_operator (h : c.HasRoom) (op : Operator) (t : Tree) :
    ((c.wait (.operator op)).put t).HasRoom := fun hs => by
  simpa using h hs

theorem HasRoom.awaitsOperand (h : c.HasRoom) (hs : c.style = .algebraic) : c.awaitsOperand :=
  c.awaitsOperand_iff.2 (Nat.le_of_eq (h hs))

theorem HasRoom.awaitsOperand_put (h : c.HasRoom) (hs : c.style = .algebraic) (t : Tree) :
    ¬ (c.put t).awaitsOperand := by
  rw [awaitsOperand_iff]
  simp [h hs]

theorem HasRoom.makeRoom (h : c.HasRoom) : c.makeRoom = c :=
  if_neg fun hc => hc.2 (h.awaitsOperand hc.1)

theorem HasRoom.pushOperand (h : c.HasRoom) (t : Tree) : c.pushOperand t = c.put t := by
  rw [Context.pushOperand, h.makeRoom]
  rfl

theorem HasRoom.apply_constant (h : c.HasRoom) (hg : op.rule ≠ .group) (hop : op.arity = 0)
    (hm : op.availableIn c.mode) (ht : Tree.build op [] c.mode c.angle = .ok t) :
    c.apply op = .ok (c.put t) := by
  rw [apply_of_rule_ne_group hg hm, if_neg (by simp [hop]), applyNow, if_pos hop, ht,
    ← h.pushOperand]
  rfl

theorem HasRoom.apply_unary (h : c.HasRoom) (hop : op.arity = 1) (hm : op.availableIn c.mode)
    (ht : Tree.build op [l] c.mode c.angle = .ok t) : (c.put l).apply op = .ok (c.put t) := by
  have hready : ¬ ((c.put l).style = .algebraic ∧ (c.put l).awaitsOperand) :=
    fun hr => h.awaitsOperand_put hr.1 l hr.2
  have hcombine : combine c.mode c.angle op (l :: c.nodes) = .ok (t :: c.nodes) :=
    combine_operands [l] hop.symm ht
  have hg : op.rule ≠ .group := rule_ne_group (by omega)
  rw [apply_of_rule_ne_group (c := c.put l) hg hm, if_neg (by simp [hop]), applyNow,
    if_neg (by simp [hop]), if_neg hready]
  simp only [put, hcombine]
  rfl

theorem apply_binary_rpn (hs : c.style = .rpn) (hop : op.arity = 2) (hm : op.availableIn c.mode)
    (ht : Tree.build op [l, r] c.mode c.angle = .ok t) :
    ((c.put l).put r).apply op = .ok (c.put t) := by
  have hcombine : combine c.mode c.angle op (r :: l :: c.nodes) = .ok (t :: c.nodes) :=
    combine_operands [r, l] hop.symm ht
  have hg : op.rule ≠ .group := rule_ne_group (by omega)
  rw [apply_rpn (c := (c.put l).put r) hs hg hm]
  simp only [put, hcombine]
  rfl

theorem HasRoom.apply_openParen (h : c.HasRoom) (hs : c.style = .algebraic) :
    c.apply .openParen = .ok (c.wait .openParen) := by
  rw [Context.apply_openParen, applyOpenParen, hs, h.makeRoom]
  rfl

theorem HasRoom.apply_between (h : c.HasRoom) (hs : c.style = .algebraic) (hop : op.arity = 2)
    (hm : op.availableIn c.mode) :
    ((c.wait .openParen).put l).apply op =
      .ok (((c.wait .openParen).wait (.operator op)).put l) := by
  have hready := h.wait_openParen.awaitsOperand_put hs l
  have hg : op.rule ≠ .group := rule_ne_group (by omega)
  rw [apply_of_rule_ne_group (c := (c.wait .openParen).put l) hg hm, if_pos ⟨hop, hs⟩,
    applyBetween, if_neg hready]
  rfl

theorem HasRoom.apply_closeParen (h : c.HasRoom) (hs : c.style = .algebraic) (hop : op.arity = 2)
    (ht : Tree.build op [l, r] c.mode c.angle = .ok t) :
    ((((c.wait .openParen).wait (.operator op)).put l).put r).apply .closeParen =
      .ok (c.put (.paren t)) := by
  have hready := (h.wait_openParen.wait_operator op l).awaitsOperand_put hs r
  have hcombine : combine c.mode c.angle op (r :: l :: c.nodes) = .ok (t :: c.nodes) :=
    combine_operands [r, l] hop.symm ht
  have hreduce : reduceWhile c.mode c.angle (fun _ => true)
      (.operator op :: .openParen :: c.pending) (r :: l :: c.nodes) =
      .ok (.openParen :: c.pending, t :: c.nodes) := by
    simp [reduceWhile, hcombine]
  have hopen : ((((c.wait .openParen).wait (.operator op)).put l).put r).openParens ≠ 0 := by
    simp [openParens, Pending.isOperator]
  rw [Context.apply_closeParen, applyCloseParen]
  simp only [put_style, wait_style, hs, if_neg hopen, if_neg hready, put_mode, put_angle, put_nodes,
    put_pending, wait_mode, wait_angle, wait_nodes, wait_pending, hreduce]
  rw [← hs]
  rfl

section settings

variable {s : Settings} (hs : (ofSettings s).SameSettings c)

include hs

theorem SameSettings.put (t : Tree) : (ofSettings s).SameSettings (c.put t) :=
  ⟨hs.mode, hs.angle, hs.style⟩

theorem SameSettings.wait (p : Pending) : (ofSettings s).SameSettings (c.wait p) :=
  ⟨hs.mode, hs.angle, hs.style⟩

theorem SameSettings.availableIn (hm : op.availableIn s.mode) : op.availableIn c.mode := by
  rwa [hs.mode]

theorem SameSettings.build {operands : List Tree}
    (ht : Tree.build op operands s.mode s.angle = .ok t) :
    Tree.build op operands c.mode c.angle = .ok t := by
  rwa [hs.mode, hs.angle]

end settings

theorem hasRoom_ofSettings (s : Settings) : (ofSettings s).HasRoom := fun _ => rfl

theorem finish_put (s : Settings) (t : Tree) : ((ofSettings s).put t).finish = .ok t := by
  cases hs : s.style with
  | rpn => simp [finish, ofSettings, hs]
  | algebraic =>
    have hstyle : (ofSettings s).style = .algebraic := hs
    have hready := (hasRoom_ofSettings s).awaitsOperand_put hs t
    simp only [finish, put_nodes, put_style, hstyle, if_neg hready]
    rfl

end Context

namespace Calculator

open Context

variable {c : Calculator} {s : Settings} {context context' : Context} {e : Entry} {op : Operator}
  {d : Nat} {ds : List Nat}

/-- The settings and the expression in progress, with nothing typed beside it. -/
structure Rests (c : Calculator) (s : Settings) (context : Context) : Prop where
  settings : c.settings = s
  fits : c.Fits
  idle : c.isTyping = false
  kept : c.replacesTop = false
  context : c.context = context

structure Types (c : Calculator) (s : Settings) (context : Context) (e : Entry) : Prop where
  settings : c.settings = s
  fits : c.Fits
  typing : c.isTyping
  kept : c.replacesTop = false
  context : c.context = context
  entry : c.entry = e

theorem rests_ofSettings (s : Settings) (random : Random) :
    (ofSettings s random).Rests s (.ofSettings s) :=
  ⟨rfl, rfl, rfl, rfl, rfl⟩

theorem Rests.commitTyped (h : c.Rests s context) : c.commitTyped.Rests s context := by
  rwa [Calculator.commitTyped, if_neg (by simp [h.idle])]

theorem Rests.operator (h : c.commitTyped.Rests s context) (ha : context.apply op = .ok context') :
    (c.operator op).1.Rests s context' := by
  rw [operator_of_apply (h.context.symm ▸ ha)]
  exact ⟨h.settings, h.fits, rfl, rfl, rfl⟩

theorem Rests.beginTyping (h : c.Rests s context) :
    c.beginTyping.Types s context s.freshEntry := by
  rw [Calculator.beginTyping, if_neg (by simp [h.idle])]
  have hentry : c.entry.clear = s.freshEntry := h.settings ▸ h.fits
  exact ⟨h.settings, h.fits, rfl, h.kept, h.context, hentry⟩

theorem digit_beginTyping (hd : d < c.entry.base.radix) :
    (c.beginTyping.digit d).1 = (c.digit d).1 := by
  have hbase : c.beginTyping.entry.base = c.entry.base := by
    simp only [Calculator.beginTyping]
    split <;> rfl
  have hagain : c.beginTyping.beginTyping = c.beginTyping := if_pos (isTyping_beginTyping c)
  simp only [Calculator.digit, hbase, if_pos hd, hagain]

theorem Types.digit (h : c.Types s context e) (hd : d < s.effectiveBase.radix) :
    (c.digit d).1.Types s context (e.extend d) := by
  obtain rfl := h.entry
  have hbegin : c.beginTyping = c := if_pos h.typing
  have hbase : c.entry.base = s.effectiveBase := h.settings ▸ h.fits.entry_base
  have hdigit : (c.digit d).1 = { c with entry := c.entry.extend d } := by
    simp only [Calculator.digit, hbase, if_pos hd, hbegin, Entry.extend]
    cases c.entry.digit? d <;> rfl
  rw [hdigit]
  have hfits : (c.entry.extend d).clear = c.settings.freshEntry :=
    (Entry.clear_extend c.entry d).trans h.fits
  exact ⟨h.settings, hfits, h.typing, h.kept, h.context, rfl⟩

theorem Types.digits (h : c.Types s context e) (hd : ∀ d ∈ ds, d < s.effectiveBase.radix) :
    (c.run ((ds.map Key.digit).map .key)).Types s context (ds.foldl Entry.extend e) := by
  induction ds generalizing c e with
  | nil => exact h
  | cons d ds ih =>
    exact ih (h.digit (hd d (by simp))) fun d' hd' => hd d' (List.mem_cons_of_mem _ hd')

theorem Rests.digits (h : c.Rests s context) (hne : ds ≠ [])
    (hd : ∀ d ∈ ds, d < s.effectiveBase.radix) :
    (c.run ((ds.map Key.digit).map .key)).Types s context
      (ds.foldl Entry.extend s.freshEntry) := by
  cases ds with
  | nil => exact absurd rfl hne
  | cons d ds =>
    have hbase : c.entry.base = s.effectiveBase := h.settings ▸ h.fits.entry_base
    have hbegin : (c.beginTyping.digit d).1 = (c.digit d).1 :=
      digit_beginTyping (hbase ▸ hd d (by simp))
    have htyped := h.beginTyping.digits hd
    simp only [List.map_cons, run, List.foldl_cons, feed, press] at htyped ⊢
    rwa [hbegin] at htyped

theorem Types.commitTyped (h : c.Types s context e) :
    c.commitTyped.Rests s (context.pushOperand (.number e.value)) := by
  have hkept : c.keptNodes = context.nodes := by rw [keptNodes, h.kept, ← h.context]; rfl
  rw [Calculator.commitTyped, if_pos h.typing]
  refine ⟨h.settings, h.fits, rfl, rfl, ?_⟩
  simp only [commit, dropCopy, hkept, h.entry, h.context]

theorem Types.enter (h : c.Types s context e) (hs : s.style = .rpn) :
    c.enter.1.Rests s (context.pushOperand (.number e.value)) := by
  have hc := h.commitTyped
  rw [enter_eq_of_isTyping (h.settings ▸ hs) h.typing]
  exact ⟨hc.settings, hc.fits, hc.idle, hc.kept, hc.context⟩

theorem run_append (c : Calculator) (inputs inputs' : List Input) :
    c.run (inputs ++ inputs') = (c.run inputs).run inputs' :=
  List.foldl_append

/-- Do the keys enter a tree where there is room for an operand? -/
def Enters (s : Settings) (keys : List Key) (t : Tree) : Prop :=
  ∀ (c : Calculator) (context : Context), (Context.ofSettings s).SameSettings context →
    context.HasRoom → c.Rests s context → (c.run (keys.map .key)).Rests s (context.put t)

/-- Do they enter it once the number still being typed, if there is one, is an operand? -/
def EntersTyped (s : Settings) (keys : List Key) (t : Tree) : Prop :=
  ∀ (c : Calculator) (context : Context), (Context.ofSettings s).SameSettings context →
    context.HasRoom → c.Rests s context →
      (c.run (keys.map .key)).commitTyped.Rests s (context.put t)

theorem Enters.typed {keys : List Key} {t : Tree} (h : Enters s keys t) : EntersTyped s keys t :=
  fun c context hs hroom hc => (h c context hs hroom hc).commitTyped

variable {keys keys' : List Key} {t l r : Tree}

theorem entersTyped_digits (hne : ds ≠ []) (hd : ∀ d ∈ ds, d < s.effectiveBase.radix) :
    EntersTyped s (ds.map .digit) (.number (ds.foldl Entry.extend s.freshEntry).value) := by
  intro c context _ hroom hc
  rw [← hroom.pushOperand]
  exact (hc.digits hne hd).commitTyped

theorem enters_digits (hs : s.style = .rpn) (hne : ds ≠ [])
    (hd : ∀ d ∈ ds, d < s.effectiveBase.radix) :
    Enters s (ds.map .digit ++ [.enter])
      (.number (ds.foldl Entry.extend s.freshEntry).value) := by
  intro c context _ hroom hc
  rw [← hroom.pushOperand, List.map_append, run_append]
  exact (hc.digits hne hd).enter hs

theorem enters_constant (hg : op.rule ≠ .group) (hop : op.arity = 0) (hm : op.availableIn s.mode)
    (ht : Tree.build op [] s.mode s.angle = .ok t) : Enters s [.operator op] t := by
  intro c context hs hroom hc
  exact hc.commitTyped.operator (hroom.apply_constant hg hop (hs.availableIn hm) (hs.build ht))

theorem EntersTyped.unary (h : EntersTyped s keys l) (hop : op.arity = 1)
    (hm : op.availableIn s.mode) (ht : Tree.build op [l] s.mode s.angle = .ok t) :
    Enters s (keys ++ [.operator op]) t := by
  intro c context hs hroom hc
  rw [List.map_append, run_append]
  exact (h c context hs hroom hc).operator
    (hroom.apply_unary hop (hs.availableIn hm) (hs.build ht))

theorem Enters.binary (h : Enters s keys l) (h' : EntersTyped s keys' r) (hrpn : s.style = .rpn)
    (hop : op.arity = 2) (hm : op.availableIn s.mode)
    (ht : Tree.build op [l, r] s.mode s.angle = .ok t) :
    Enters s (keys ++ keys' ++ [.operator op]) t := by
  intro c context hs hroom hc
  have hstyle : context.style = .rpn := hs.style.trans hrpn
  have hroom' : (context.put l).HasRoom := fun ha => absurd (hstyle.symm.trans ha) (by decide)
  have hleft := h c context hs hroom hc
  have hright := h' _ _ (hs.put l) hroom' hleft
  simp only [List.map_append, run_append]
  exact hright.operator (apply_binary_rpn hstyle hop (hs.availableIn hm) (hs.build ht))

/-- Parentheses keep an operator and its operands apart from what waits before them. -/
theorem EntersTyped.binary (h : EntersTyped s keys l) (h' : EntersTyped s keys' r)
    (ha : s.style = .algebraic) (hop : op.arity = 2) (hm : op.availableIn s.mode)
    (ht : Tree.build op [l, r] s.mode s.angle = .ok t) :
    Enters s (.operator .openParen :: keys ++ .operator op :: keys' ++ [.operator .closeParen])
      (.paren t) := by
  intro c context hs hroom hc
  have hstyle : context.style = .algebraic := hs.style.trans ha
  have hopened := hc.commitTyped.operator (hroom.apply_openParen hstyle)
  have hs' := hs.wait .openParen
  have hleft := h _ _ hs' hroom.wait_openParen hopened
  have hbetween := hleft.operator (hroom.apply_between hstyle hop (hs.availableIn hm))
  have hroom' := hroom.wait_openParen.wait_operator op l
  have hright := h' _ _ ((hs'.wait (.operator op)).put l) hroom' hbetween
  simp only [List.map_append, List.map_cons, run_append]
  exact hright.operator (hroom.apply_closeParen hstyle hop (hs.build ht))

theorem EntersTyped.equals (h : EntersTyped s keys t) (random : Random) :
    ∃ v, t.value? s.domain = some v ∧
      (((ofSettings s random).run (keys.map .key)).press .equals).2 = some ⟨v, t⟩ := by
  have hc := h _ _ (.refl _) (hasRoom_ofSettings s) (rests_ofSettings s random)
  have hfinish := hc.context.symm ▸ finish_put s t
  obtain ⟨hs, hequals⟩ := (sound_run s random (keys.map .key)).equals_of_finish hfinish
  have hdomain : ((ofSettings s random).run (keys.map .key)).domain = s.domain := by
    rw [← domain_commitTyped, domain, hc.settings]
  rw [← hdomain]
  exact ⟨_, (valueOf_of_supported hs).1, congrArg Prod.snd hequals⟩

end Calculator

namespace Formula

open Calculator

variable {s : Settings}

theorem exists_trees (e : Formula s) :
    ∃ t u, t.bare = u.bare ∧ EntersTyped { s with style := .algebraic } e.infixKeys t ∧
      Enters { s with style := .rpn } e.postfixKeys u := by
  induction e with
  | typed digits hne hd => exact ⟨_, _, rfl, entersTyped_digits hne hd, enters_digits rfl hne hd⟩
  | constant op hg hop hm =>
    have hlen : ([] : List Tree).length = op.arity := hop.symm
    obtain ⟨t, ht⟩ := Tree.exists_build s.mode s.angle hg hlen
    have hkey : ∀ style, Enters { s with style } [.operator op] t :=
      fun style => enters_constant hg hop hm ht
    exact ⟨t, t, rfl, (hkey _).typed, hkey _⟩
  | unary op hop hm a ih =>
    obtain ⟨a, a', hbare, ha, ha'⟩ := ih
    have hlen : [a].length = op.arity := hop.symm
    obtain ⟨t, ht⟩ := Tree.exists_build s.mode s.angle (Context.rule_ne_group (by omega)) hlen
    obtain ⟨u, hu, hbare⟩ := Tree.congruence_bare.build (.cons hbare .nil) ht
    exact ⟨t, u, hbare, (ha.unary hop hm ht).typed, ha'.typed.unary hop hm hu⟩
  | binary op hop hm l r ihl ihr =>
    obtain ⟨l, l', hbareLeft, hl, hl'⟩ := ihl
    obtain ⟨r, r', hbareRight, hr, hr'⟩ := ihr
    have hlen : [l, r].length = op.arity := hop.symm
    obtain ⟨t, ht⟩ := Tree.exists_build s.mode s.angle (Context.rule_ne_group (by omega)) hlen
    obtain ⟨u, hu, hbare⟩ := Tree.congruence_bare.build (.cons hbareLeft (.cons hbareRight .nil)) ht
    exact ⟨.paren t, u, hbare, (hl.binary hr rfl hop hm ht).typed,
      hl'.binary hr'.typed rfl hop hm hu⟩

/-- An expression has a result both with parentheses and in reverse Polish notation. The values are
the same, and the trees differ in parentheses alone. -/
theorem equals_infixKeys_postfixKeys (e : Formula s) (random random' : Random) :
    ∃ x y,
      (((ofSettings { s with style := .algebraic } random).run (e.infixKeys.map .key)).press
        .equals).2 = some x ∧
      (((ofSettings { s with style := .rpn } random').run (e.postfixKeys.map .key)).press
        .equals).2 = some y ∧
      x.value = y.value ∧ x.tree.bare = y.tree.bare := by
  obtain ⟨t, u, hbare, ht, hu⟩ := e.exists_trees
  obtain ⟨v, hv, hx⟩ := ht.equals random
  obtain ⟨w, hw, hy⟩ := hu.typed.equals random'
  refine ⟨_, _, hx, hy, ?_, hbare⟩
  rw [← Tree.value?_bare, hbare, Tree.value?_bare] at hv
  exact Option.some.inj (hv.symm.trans hw)

end Formula
end DeskCalculator
