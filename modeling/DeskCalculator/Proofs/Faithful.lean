import DeskCalculator.Proofs.Rereading
import DeskCalculator.Proofs.SignedZero
/-!
The printed form of a result against the result. Main statement: `Tree.Printable.repeats` says that a
tree, printed and read again, has a like value under every likeness which its operations respect. By
`Calculator.evaluateText_text_of_programmer` the lines of the tape have the values printed on them,
and by `Calculator.evaluateText_text_of_decimal` so they have on the other keypads, up to the sign of
a zero, if no number below the normal ones is negated.
-/
namespace DeskCalculator
namespace Tree

/-! What keys make is printable. -/

theorem inherited_printable :
    Inherited fun mode angle t =>
      (∀ v, .number v ∈ t.subtrees → v.IsLiteral mode.domain) → t.Printable mode angle where
  built {mode angle operands _} ht ha hv := by
    have part {a : Tree} (h : IsPart mode operands a)
        (hv : ∀ v, .number v ∈ a.subtrees → v.IsLiteral mode.domain) : a.Printable mode angle := by
      rcases h with h | ⟨n, rfl⟩
      · exact ha a h hv
      · exact .number (hv _ (by simp [integerLiteral, subtrees]))
    cases ht with
    | before hop h => exact .before hop (ha _ h fun v hm => hv v (by simp [subtrees, hm]))
    | after hop h => exact .after hop (ha _ h fun v hm => hv v (by simp [subtrees, hm]))
    | binary hop hl hr =>
      exact .binary hop (part hl fun v hm => hv v (by simp [subtrees, hm]))
        (part hr fun v hm => hv v (by simp [subtrees, hm]))
    | call hname hangle hne =>
      refine .call hname hangle (fun a h => ha a h fun v hm => hv v ?_) hne
      have harg := mem_subtreesOfAll.2 ⟨a, h, hm⟩
      simp [subtrees, harg]
    | constant hop hx =>
      refine .constant hop ?_
      simp [build, hx]
  paren ha hv := .paren (ha fun v hm => hv v (by simp [subtrees, hm]))

end Tree

/-! The value of what is read, up to a likeness of values. -/

namespace Tree

variable {N : Value → Value} {d : Domain} {a a' b b' t : Tree}

theorem map_bind_congr {α β : Type} {M : α → α} {M' : β → β} {x y : Option α}
    {f g : α → Option β} (h : x.map M = y.map M)
    (hfg : ∀ v w, M v = M w → (f v).map M' = (g w).map M') :
    (x.bind f).map M' = (y.bind g).map M' := by
  cases x with
  | none =>
    cases y with
    | none => rfl
    | some w => cases h
  | some v =>
    cases y with
    | none => cases h
    | some w => exact hfg v w (Option.some.inj h)

/-- Has a tree code, and up to a likeness the value of another one? -/
structure Repeats (N : Value → Value) (d : Domain) (t u : Tree) : Prop where
  supported : u.Supported d
  value : (u.value? d).map N = (t.value? d).map N

theorem Repeats.number {v w : Value} (h : N (w.coerce d) = N (v.coerce d)) :
    Repeats N d (.number v) (.number w) where
  supported := supported_number w
  value := congrArg some h

theorem Repeats.before {op : Operator} {opcode : Opcode} (ho : op.unaryOpcode? d = some opcode)
    (hr : opcode.Respects N) (h : Repeats N d a b) : Repeats N d (.before op a) (.before op b) where
  supported := h.supported.before (by simp [ho])
  value := by
    simp only [value?, ho, Option.bind_eq_bind, Option.bind_some]
    exact map_bind_congr h.value fun v w hvw => hr [v] [w] (by simp [hvw])

theorem Repeats.after {op : Operator} {opcode : Opcode} (ho : op.unaryOpcode? d = some opcode)
    (hr : opcode.Respects N) (h : Repeats N d a b) : Repeats N d (.after op a) (.after op b) where
  supported := h.supported.after (by simp [ho])
  value := (h.before ho hr).value

theorem Repeats.binary {op : Operator} {opcode : Opcode} (ho : op.binaryOpcode? d = some opcode)
    (hr : opcode.Respects N) (ha : Repeats N d a a') (hb : Repeats N d b b') :
    Repeats N d (.binary op a b) (.binary op a' b') where
  supported := ha.supported.binary (by simp [ho]) hb.supported
  value := by
    simp only [value?, ho, Option.bind_eq_bind, Option.bind_some]
    exact map_bind_congr ha.value fun v v' hv => map_bind_congr hb.value fun w w' hw =>
      hr [v, w] [v', w'] (by simp [hv, hw])

theorem map_valuesOf?_congr {xs ys : List Tree} (h : List.Forall₂ (Repeats N d) xs ys) :
    (valuesOf? d ys).map (List.map N) = (valuesOf? d xs).map (List.map N) := by
  induction h with
  | nil => rfl
  | cons ha _ ih =>
    simp only [valuesOf?, Option.bind_eq_bind]
    refine map_bind_congr ha.value fun v v' hv => map_bind_congr ih fun vs vs' hvs => ?_
    simp [hv, hvs]

theorem supported_of_repeats {xs ys : List Tree} (h : List.Forall₂ (Repeats N d) xs ys) :
    ∀ b ∈ ys, b.Supported d := by
  induction h with
  | nil => exact List.forall_mem_nil _
  | cons hb _ ih => exact List.forall_mem_cons.2 ⟨hb.supported, ih⟩

theorem Repeats.call {name : String} {opcode : Opcode} {xs ys : List Tree}
    (ho : functionOpcode? name d = some opcode) (hl : xs.length = opcode.arity)
    (hr : opcode.Respects N) (h : List.Forall₂ (Repeats N d) xs ys) :
    Repeats N d (.call name xs) (.call name ys) where
  supported := .call ho (h.length_eq ▸ hl) (supported_of_repeats h)
  value := by
    simp only [value?, ho, Option.bind_eq_bind, Option.bind_some]
    exact map_bind_congr (map_valuesOf?_congr h) hr

theorem Repeats.paren (h : Repeats N d a b) : Repeats N d (.paren a) (.paren b) :=
  ⟨h.supported.paren, h.value⟩

theorem Repeats.parenIf (wrap : Bool) (h : Repeats N d a b) : Repeats N d a (b.parenIf wrap) := by
  cases wrap with
  | false => exact h
  | true => exact ⟨h.supported.paren, h.value⟩

variable {mode : Mode} {angle : AngleUnit} {op : Operator} {v : Value}

theorem coerce_eq_of_isLiteral (h : v.IsLiteral d) : v.coerce d = v := by
  cases v with
  | double x => rw [h.1]; rfl
  | integer i => rw [show d = .integer from h]; rfl
  | error k => exact Value.coerce_error k d

theorem isLiteral_unsignZero (h : v.IsLiteral d) : v.unsignZero.IsLiteral d := by
  cases v with
  | double x =>
    rw [Value.unsignZero]
    split
    · exact ⟨h.1, rfl⟩
    · exact h
  | integer i | error k => exact h

theorem repeats_number (h : v.IsLiteral d) (hzero : N v.unsignZero = N v) :
    Repeats N d (.number v) (.number v.unsignZero) := by
  refine .number ?_
  rw [coerce_eq_of_isLiteral h, coerce_eq_of_isLiteral (isLiteral_unsignZero h), hzero]

/-- Is what printing changes about literals alike: the sign of a zero is lost, and a minus before a
positive literal is read as its sign? -/
structure LiteralsRepeat (N : Value → Value) (d : Domain) (t : Tree) : Prop where
  zero : ∀ v, number v ∈ t.subtrees → N v.unsignZero = N v
  sign : ∀ v, before .negate (number v) ∈ t.subtrees → v.isPositive →
    (before .negate (number v)).value? d = some v.negated

theorem LiteralsRepeat.mono (h : t.LiteralsRepeat N d) (hsub : ∀ u ∈ a.subtrees, u ∈ t.subtrees) :
    a.LiteralsRepeat N d where
  zero v hv := h.zero v (hsub _ hv)
  sign v hv := h.sign v (hsub _ hv)

theorem exists_code_of_mem {args : List Tree} {code : List Instruction}
    (hc : Compiler.codeOfAll d args = .ok code) (ha : a ∈ args) :
    ∃ part, Compiler.code d a = .ok part ∧ part ⊆ code := by
  induction args generalizing code with
  | nil => cases ha
  | cons first args ih =>
    simp only [Compiler.codeOfAll, bind_eq_ok, pure_eq_ok] at hc
    obtain ⟨part, hpart, others, hothers, rfl⟩ := hc
    rcases List.mem_cons.1 ha with rfl | ha
    · exact ⟨part, hpart, List.subset_append_left _ _⟩
    · obtain ⟨part', hpart', hsub⟩ := ih hothers ha
      exact ⟨part', hpart', fun i hi => List.mem_append_right _ (hsub hi)⟩

theorem forall₂_rereadAll {args : List Tree} (h : ∀ a ∈ args, Repeats N d a a.reread) :
    List.Forall₂ (Repeats N d) args (rereadAll args) := by
  induction args with
  | nil => exact .nil
  | cons a args ih =>
    exact .cons (h a (by simp)) (ih fun b hb => h b (List.mem_cons_of_mem _ hb))

/-- A sign before a literal: a minus before a positive one becomes its sign. -/
theorem repeats_before_number {opcode : Opcode} (ho : op.unaryOpcode? d = some opcode)
    (hr : opcode.Respects N) (hv : v.IsLiteral d)
    (hlit : (before op (number v)).LiteralsRepeat N d) :
    Repeats N d (before op (number v)) (before op (number v)).reread := by
  by_cases hminus : op = .negate ∧ v.isPositive
  · obtain ⟨rfl, hp⟩ := hminus
    have hvalue := hlit.sign v (by simp [subtrees]) hp
    rw [reread_negate_of_isPositive hp]
    refine ⟨supported_number _, ?_⟩
    rw [hvalue, value?, coerce_eq_of_isLiteral (Literal.isLiteral_negated hv)]
  · rw [reread_before_number hminus]
    exact (repeats_number hv (hlit.zero v (by simp [subtrees]))).before ho hr

/-- Printed and read again, a tree has a like value, if its operations respect the likeness. -/
theorem Printable.repeats (h : t.Printable mode angle) {code : List Instruction}
    (hc : Compiler.code mode.domain t = .ok code) (hops : ∀ i ∈ code, i.opcode.Respects N)
    (hlit : t.LiteralsRepeat N mode.domain) : Repeats N mode.domain t t.reread := by
  induction h generalizing code with
  | number hv =>
    rw [reread]
    exact repeats_number hv (hlit.zero _ (by simp [subtrees]))
  | constant hop ht =>
    rw [eq_constantTree hop ht, reread_constantTree hop]
    refine ⟨?_, rfl⟩
    rcases hop with rfl | rfl <;> exact supported_constant _ _
  | @before op a hop ha ih =>
    simp only [Compiler.code, bind_eq_ok, pure_eq_ok, Compiler.opcodeOr_eq_ok] at hc
    obtain ⟨opcode, ho, operand, hoperand, rfl⟩ := hc
    have hr : opcode.Respects N := hops ⟨opcode, none⟩ (by simp)
    by_cases hnumber : ∃ v, a = .number v
    · obtain ⟨v, rfl⟩ := hnumber
      exact repeats_before_number ho hr ha.isLiteral hlit
    · rw [reread_before op (not_exists.1 hnumber)]
      have ha := ih hoperand (fun i hi => hops i (by simp [hi]))
        (hlit.mono fun u hu => by simp [subtrees, hu])
      exact (ha.parenIf _).before ho hr
  | @after op a hop ha ih =>
    simp only [Compiler.code, bind_eq_ok, pure_eq_ok, Compiler.opcodeOr_eq_ok] at hc
    obtain ⟨opcode, ho, operand, hoperand, rfl⟩ := hc
    have ha := ih hoperand (fun i hi => hops i (by simp [hi]))
      (hlit.mono fun u hu => by simp [subtrees, hu])
    rw [reread]
    exact (ha.parenIf _).after ho (hops ⟨opcode, none⟩ (by simp))
  | @binary op l r hop hl hr ihl ihr =>
    simp only [Compiler.code, bind_eq_ok, pure_eq_ok, Compiler.opcodeOr_eq_ok] at hc
    obtain ⟨opcode, ho, left, hleft, right, hright, rfl⟩ := hc
    have hl := ihl hleft (fun i hi => hops i (by simp [hi]))
      (hlit.mono fun u hu => by simp [subtrees, hu])
    have hr := ihr hright (fun i hi => hops i (by simp [hi]))
      (hlit.mono fun u hu => by simp [subtrees, hu])
    rw [reread]
    exact (hl.parenIf _).binary ho (hops ⟨opcode, none⟩ (by simp)) (hr.parenIf _)
  | @call name args hname hangle hargs hne ih =>
    simp only [Compiler.code, bind_eq_ok, pure_eq_ok, Compiler.callOpcode_eq_ok] at hc
    obtain ⟨opcode, ⟨ho, hl⟩, operands, hoperands, rfl⟩ := hc
    rw [reread]
    refine .call ho hl (hops ⟨opcode, none⟩ (by simp)) (forall₂_rereadAll fun a ha => ?_)
    obtain ⟨part, hpart, hsub⟩ := exists_code_of_mem hoperands ha
    refine ih a ha hpart (fun i hi => hops i (by simp [hsub hi])) (hlit.mono fun u hu => ?_)
    exact List.mem_cons_of_mem _ (mem_subtreesOfAll.2 ⟨a, ha, hu⟩)
  | paren _ ih =>
    rw [reread]
    exact (ih hc hops (hlit.mono fun u hu => by simp [subtrees, hu])).paren

theorem Repeats.of_id (h : Repeats id d t a) : Repeats N d t a where
  supported := h.supported
  value := by
    have hvalue : a.value? d = t.value? d := by simpa using h.value
    rw [hvalue]

theorem eq_of_coerce_eq_double {x y : Float} (h : (Value.double x).coerce d = .double y) : x = y := by
  cases d with
  | double => exact Value.double.inj h
  | integer =>
    simp only [Value.coerce] at h
    split at h <;> cases h

theorem Printable.isFinite_of_bare (h : t.Printable mode angle) {x : Float}
    (hx : t.bare.literal? = some (.double x)) : x.isFinite := by
  induction h with
  | number hv =>
    obtain rfl := Option.some.inj hx
    exact hv.2
  | constant hop ht =>
    rcases hop with rfl | rfl <;>
    · obtain rfl := Except.ok.inj ht
      obtain rfl := eq_of_coerce_eq_double (Option.some.inj hx)
      rfl
  | before | after | binary | call => cases hx
  | paren _ ih => exact ih hx

theorem ofResult_neg {x : Float} (hx : x.isFinite) (hp : (Value.double x).isPositive) :
    Value.ofResult (-x) =
      if x < Double.leastNormal then .error .underflow else .double (-x) := by
  obtain ⟨hsign, hbits⟩ := Literal.bits_of_isPositive hx hp
  have hneg := Literal.isFinite_neg hx
  have hlt := Double.isFinite_iff.1 hx
  obtain ⟨hnan, hinf⟩ := Double.isFinite_iff_not.1 hneg
  have hzero : ((-x) != 0) = true := by
    have h0 := (Double.beq_zero_iff hneg).not.2 (by rwa [Literal.magnitudeBits_neg hx])
    simpa [bne] using h0
  have habs : (-x).abs = x := by
    rw [Double.abs_eq_ofBits hneg, Literal.magnitudeBits_neg hx, ← hsign,
      Double.ofBits_magnitudeBits (Nat.le_of_lt hlt)]
  simp only [Value.ofResult, hnan, hinf, hzero, habs, Bool.true_and, Bool.false_eq_true, if_false]
  simp

/-- Literals of integers are read as they are, and a minus before one wraps around as its sign. -/
theorem literalsRepeat_of_integer (h : ∀ v, number v ∈ t.subtrees → v.BelongsTo .integer) :
    t.LiteralsRepeat id .integer where
  zero v hv := by
    cases v with
    | double x => cases Value.belongsTo_double.1 (h _ hv)
    | integer i | error k => rfl
  sign v hv hp := by
    have hdomain := h v (mem_subtrees_trans hv (by simp [subtrees]))
    cases v with
    | double x => cases Value.belongsTo_double.1 hdomain
    | integer i => rfl
    | error k => cases hp

/-- A minus before a positive literal is its sign, unless negated it is too small for a result. -/
theorem value?_negate_of_isPositive (hv : v.IsLiteral .double) (hp : v.isPositive)
    (hnormal : ∀ x, v = .double x → ¬ x < Double.leastNormal) :
    (before .negate (number v)).value? .double = some v.negated := by
  cases v with
  | double x =>
    have hvalue : (before .negate (number (.double x))).value? .double =
      some (.ofResult (-x)) := rfl
    rw [hvalue, ofResult_neg hv.2 hp, if_neg (hnormal x rfl)]
    rfl
  | integer i => cases hv
  | error k => cases hp

/-- Printed and read again, a tree over doubles has its value up to the sign of a zero, if no number
below the normal ones is negated in it and what it calls of the mathematical library does not tell
zeros apart. -/
theorem Printable.repeats_unsignZero (h : t.Printable mode angle) (hd : mode.domain = .double)
    {code : List Instruction} (hc : Compiler.code mode.domain t = .ok code)
    (hlit : ∀ v, Tree.number v ∈ t.subtrees → v.IsLiteral mode.domain)
    (hnormal : ∀ x, Tree.before .negate (Tree.number (.double x)) ∈ t.subtrees → 0 < x →
      ¬ x < Double.leastNormal)
    (hlibrary : Tree.number (.double (-0)) ∈ t.subtrees →
      ∀ i ∈ code, i.opcode.ofLibrary → i.opcode.SignBlind) :
    Repeats Value.unsignZero mode.domain t t.reread := by
  have hsign (v : Value) (hv : Tree.before .negate (Tree.number v) ∈ t.subtrees)
      (hp : v.isPositive) :
      (Tree.before .negate (Tree.number v)).value? mode.domain = some v.negated := by
    have hv' := hlit v (mem_subtrees_trans hv (by simp [subtrees]))
    rw [hd] at hv' ⊢
    refine value?_negate_of_isPositive hv' hp fun x hx => ?_
    subst hx
    exact hnormal x hv (by simpa [Value.isPositive] using hp)
  -- without a negative zero the value is the same; with one, all operations must be blind to it
  by_cases hzero : Tree.number (.double (-0)) ∈ t.subtrees
  · refine h.repeats hc (fun i hi => Opcode.respects_unsignZero ?_)
      ⟨fun v _ => Value.unsignZero_unsignZero v, hsign⟩
    cases hl : i.opcode.ofLibrary with
    | false => exact Opcode.signBlind_of_not_library hl
    | true => exact hlibrary hzero i hi hl
  · refine .of_id (h.repeats hc (fun i _ => i.opcode.respects_id) ⟨fun v hv => ?_, hsign⟩)
    refine Value.unsignZero_eq_self fun hneg => ?_
    subst hneg
    exact hzero hv

theorem Printable.read (h : t.Printable mode angle) : Tree.read mode angle t.text = .ok t.reread := by
  have hphrase : Phrase.ofChars? t.text.toList = some t.phrase := by
    rw [text, String.toList_ofList, Phrase.ofChars?, h.spelling.scanAll]
    exact Phrase.ofTokens?_tokens h.bindsAt.sum
  rw [Tree.read, hphrase]
  exact h.toTree

/-- The functions of the programmer keypad go by one name under both angle units. -/
theorem functionName_of_integer {name : String} {opcode : Opcode}
    (ho : functionOpcode? name .integer = some opcode) (angle : AngleUnit) :
    Operator.functionName name angle = name := by
  have table : ∀ row ∈ functionTable .integer, Operator.functionName row.1 angle = row.1 := by
    cases angle <;> decide
  obtain ⟨before, after, hrow, -⟩ := List.lookup_eq_some_iff.1 ho
  exact table (name, opcode) (by simp [hrow])

theorem Printable.withAngle (h : t.Printable .programmer angle) {code : List Instruction}
    (hc : Compiler.code .integer t = .ok code) (angle' : AngleUnit) :
    t.Printable .programmer angle' := by
  induction h generalizing code with
  | number hv => exact .number hv
  | constant hop ht =>
    refine .constant hop ?_
    rcases hop with rfl | rfl <;> exact ht
  | before hop _ ih =>
    simp only [Compiler.code, bind_eq_ok, pure_eq_ok] at hc
    obtain ⟨_, _, operand, hoperand, rfl⟩ := hc
    exact .before hop (ih hoperand)
  | after hop _ ih =>
    simp only [Compiler.code, bind_eq_ok, pure_eq_ok] at hc
    obtain ⟨_, _, operand, hoperand, rfl⟩ := hc
    exact .after hop (ih hoperand)
  | binary hop _ _ ihl ihr =>
    simp only [Compiler.code, bind_eq_ok, pure_eq_ok] at hc
    obtain ⟨_, _, left, hleft, right, hright, rfl⟩ := hc
    exact .binary hop (ihl hleft) (ihr hright)
  | call hname _ _ hne ih =>
    simp only [Compiler.code, bind_eq_ok, pure_eq_ok, Compiler.callOpcode_eq_ok] at hc
    obtain ⟨opcode, ⟨ho, -⟩, operands, hoperands, rfl⟩ := hc
    refine .call hname (functionName_of_integer ho angle') (fun a ha => ?_) hne
    obtain ⟨part, hpart, -⟩ := exists_code_of_mem hoperands ha
    exact ih a ha hpart
  | paren _ ih => exact .paren (ih hc)

end Tree

namespace Calculator

variable {N : Value → Value} {c c' : Calculator} {e : Evaluation} {t : Tree} {v : Value}

/-- The printed form of a tree evaluates to a like value. -/
theorem evaluateText_of_repeats (hprint : t.Printable c.settings.mode c.settings.angle)
    (hr : t.Repeats N c.domain t.reread) (hv : t.value? c.domain = some v) :
    ∃ w, (c.evaluateText t.text).2 = .ok ⟨w, t.reread⟩ ∧ N w = N v := by
  obtain ⟨hvalue, hevaluate⟩ := valueOf_of_supported (c := c) hr.supported
  refine ⟨c.valueOf t.reread, ?_, ?_⟩
  · simp only [evaluateText, hprint.read, hevaluate]
    rfl
  · have hlike := hr.value
    rw [hvalue, hv] at hlike
    exact Option.some.inj hlike

theorem Reachable.belongsTo_of_equals (h : c.Reachable) (he : c.equals.2 = some e) :
    ∀ v, Tree.number v ∈ e.tree.subtrees → v.BelongsTo c.domain := by
  have hliterals := Tree.inherited_literalsIn.tree_of_reachable Tree.literalsIn_number.2 h he
  exact fun v hv => hliterals _ hv v rfl

theorem Reachable.isLiteral_of_equals (h : c.Reachable) (he : c.equals.2 = some e)
    (hfinite : ∀ x, Tree.number (.double x) ∈ e.tree.subtrees → x.isFinite) :
    ∀ v, Tree.number v ∈ e.tree.subtrees → v.IsLiteral c.domain := by
  intro v hv
  have hdomain := h.belongsTo_of_equals he v hv
  cases v with
  | error k => trivial
  | integer i => exact Value.belongsTo_integer.1 hdomain
  | double x => exact ⟨Value.belongsTo_double.1 hdomain, hfinite x hv⟩

theorem Reachable.printable_of_equals (h : c.Reachable) (he : c.equals.2 = some e)
    (hfinite : ∀ x, Tree.number (.double x) ∈ e.tree.subtrees → x.isFinite) :
    e.tree.Printable c.settings.mode c.settings.angle := by
  refine Tree.inherited_printable.tree_of_reachable (fun {mode angle v} _ hv => ?_) h he
    (h.isLiteral_of_equals he hfinite)
  exact .number (hv v (by simp [Tree.subtrees]))

/-- On the programmer keypad the line of the tape is faithful: the printed form of a result's tree,
evaluated under any base, angle unit and entry style of that keypad, has the value of the result. -/
theorem evaluateText_text_of_programmer (h : c.Reachable) (hmode : c.settings.mode = .programmer)
    (he : c.equals.2 = some e) (c' : Calculator) (hmode' : c'.settings.mode = .programmer) :
    (c'.evaluateText e.tree.text).2 = .ok ⟨e.value, e.tree.reread⟩ := by
  have hdomain := domain_of_programmer hmode
  have hdomain' := domain_of_programmer hmode'
  obtain ⟨-, ⟨code, hcode⟩, hvalue⟩ := h.coherent.toSound.of_equals he
  rw [hdomain] at hcode hvalue
  have hinteger (v : Value) (hv : Tree.number v ∈ e.tree.subtrees) : v.BelongsTo .integer :=
    hdomain ▸ h.belongsTo_of_equals he v hv
  have hprint := h.printable_of_equals he fun x hx => nomatch Value.belongsTo_double.1 (hinteger _ hx)
  rw [hmode] at hprint
  have hprint' := hprint.withAngle hcode c'.settings.angle
  have hrepeats : e.tree.Repeats id .integer e.tree.reread :=
    hprint.repeats hcode (fun i _ => i.opcode.respects_id) (Tree.literalsRepeat_of_integer hinteger)
  obtain ⟨w, hw, rfl⟩ := evaluateText_of_repeats (c := c') (v := e.value) (hmode' ▸ hprint')
    (hdomain' ▸ hrepeats) (hdomain' ▸ hvalue)
  exact hw

/-- One less than the least integer wraps around, with the sign of the literal printed and read. -/
theorem evaluateText_text_of_programmer_least :
    let c := (ofSettings { mode := .programmer } ⟨0⟩).run
      [.key (.digit 1), .key (.operator .shiftLeft), .key (.digit 6), .key (.digit 3),
        .key .equals, .key (.operator .sub), .key (.digit 1)]
    c.Reachable ∧ c.settings.mode = .programmer ∧ ∃ e, c.equals.2 = some e ∧
      e.value = .integer Int64.maxValue ∧
      (c.evaluateText e.tree.text).2 = .ok ⟨e.value, e.tree.reread⟩ := by
  intro c
  have hc : c.Reachable := reachable_run _ _ _
  have hequals : c.equals.2 = some ⟨.integer Int64.maxValue,
      .binary .sub (.number (.integer Int64.minValue)) (.number (.integer 1))⟩ := by
    unfold c
    cbv
  exact ⟨hc, rfl, _, hequals, rfl, evaluateText_text_of_programmer hc rfl hequals c rfl⟩

theorem domain_of_decimal (hmode : c.settings.mode ≠ .programmer) : c.domain = .double := by
  rw [domain, Settings.domain]
  cases h : c.settings.mode with
  | basic | scientific => rfl
  | programmer => exact absurd h hmode

/-- On the other keypads the line of the tape is faithful if its literals are finite, no number
below the normal ones is negated, and, where a zero has lost its sign in print, what is called of the
mathematical library does not tell zeros apart. -/
theorem evaluateText_text_of_decimal (h : c.Reachable) (hmode : c.settings.mode ≠ .programmer)
    (he : c.equals.2 = some e)
    (hfinite : ∀ x, Tree.number (.double x) ∈ e.tree.subtrees → x.isFinite)
    (hnormal : ∀ x, Tree.before .negate (.number (.double x)) ∈ e.tree.subtrees → 0 < x →
      ¬ x < Double.leastNormal)
    (hlibrary : Tree.number (.double (-0)) ∈ e.tree.subtrees →
      ∀ p, c.compile e.tree = .ok p → ∀ i ∈ p.code, i.opcode.ofLibrary → i.opcode.SignBlind)
    (c' : Calculator) (hmode' : c'.settings.mode = c.settings.mode)
    (hangle : c'.settings.angle = c.settings.angle) :
    ∃ v, (c'.evaluateText e.tree.text).2 = .ok ⟨v, e.tree.reread⟩ ∧ v.Agrees e.value := by
  have hd := domain_of_decimal hmode
  have hd' : c'.domain = c.domain := by rw [domain, Settings.domain, hmode']; rfl
  obtain ⟨-, ⟨code, hcode⟩, hvalue⟩ := h.coherent.toSound.of_equals he
  have hprint := h.printable_of_equals he hfinite
  have hcompile : c.compile e.tree = .ok ⟨programName, c.domain, code⟩ := by
    rw [compile, Compiler.compile, hcode]
    rfl
  have hrepeats : e.tree.Repeats Value.unsignZero c.domain e.tree.reread :=
    hprint.repeats_unsignZero hd hcode (h.isLiteral_of_equals he hfinite) hnormal
      fun hzero => hlibrary hzero _ hcompile
  have hfinite' : e.value.IsFinite :=
    Tree.isFinite_of_value? hvalue fun _ x hx => hprint.isFinite_of_bare hx
  obtain ⟨v, hv, hlike⟩ := evaluateText_of_repeats (c := c') (v := e.value)
    (hmode' ▸ hangle ▸ hprint) (hd' ▸ hrepeats) (hd' ▸ hvalue)
  exact ⟨v, hv, Value.agrees_of_unsignZero_eq hfinite' hlike⟩

/-- The sign of a zero is not printed, but square roots do not tell zeros apart. -/
theorem evaluateText_text_of_decimal_negative_zero :
    let c := (ofSettings {} ⟨0⟩).run
      [.key (.digit 0), .key (.operator .negate), .key .equals, .key (.operator .sqrt)]
    c.Reachable ∧ c.settings.mode ≠ .programmer ∧
      ∃ e, c.equals.2 = some e ∧ Tree.number (.double (-0)) ∈ e.tree.subtrees ∧
        ∃ v, (c.evaluateText e.tree.text).2 = .ok ⟨v, e.tree.reread⟩ ∧ v.Agrees e.value := by
  intro c
  have hc : c.Reachable := reachable_run _ _ _
  have hscientific : c.settings.mode = .scientific := rfl
  have hmode : c.settings.mode ≠ .programmer := by simp [hscientific]
  let typed := (ofSettings {} ⟨0⟩).run [.key (.digit 0), .key (.operator .negate)]
  let zero := ((ofSettings {} ⟨0⟩).feed (.key (.digit 0))).entry.value
  have hnegated : typed.valueOf (.before .negate (.number zero)) = .double (-0) := by
    decide +kernel
  let t := Tree.call "sqrt" [.number (.double (-0))]
  have hequals : c.equals.2 = some ⟨c.valueOf t, t⟩ := by
    simp only [t]
    rw [← hnegated]
    rfl
  have hcode : ∃ p, c.compile t = .ok p ∧ ∀ i ∈ p.code, i.opcode.ofLibrary = false :=
    ⟨_, rfl, by decide +kernel⟩
  obtain ⟨p, hp, hnone⟩ := hcode
  have hfinite (x : Float) (hx : Tree.number (.double x) ∈ t.subtrees) : x.isFinite := by
    obtain rfl : x = -0 := by simpa [t, Tree.subtrees, Tree.subtreesOfAll] using hx
    rfl
  have hnormal (x : Float) (hx : Tree.before .negate (.number (.double x)) ∈ t.subtrees) :
      0 < x → ¬ x < Double.leastNormal := by
    simp [t, Tree.subtrees, Tree.subtreesOfAll] at hx
  refine ⟨hc, hmode, _, hequals, by simp [t, Tree.subtrees, Tree.subtreesOfAll],
    evaluateText_text_of_decimal hc hmode hequals hfinite hnormal (fun _ q hq i hi hl => ?_) c rfl
      rfl⟩
  obtain rfl := Except.ok.inj (hp.symm.trans hq)
  exact absurd hl (by simp [hnone i hi])

/-- A number below the normal ones is too small for a result of negation, but what is printed of the
negation is read as a literal, which may be that small. -/
theorem evaluateText_text_of_subnormal {x : Float} (hmode : c.settings.mode ≠ .programmer)
    (hx : x.isFinite) (hp : 0 < x) (hsmall : x < Double.leastNormal) :
    let t := Tree.before .negate (.number (.double x))
    c.valueOf t = .error .underflow ∧
      (c.evaluateText t.text).2 = .ok ⟨.double (-x), .number (.double (-x))⟩ := by
  intro t
  have hd := domain_of_decimal hmode
  have hp' : (Value.double x).isPositive := by simpa [Value.isPositive] using hp
  have hprint : t.Printable c.settings.mode c.settings.angle :=
    .before rfl (.number ⟨hd, hx⟩)
  have hsupported : t.Supported c.domain := by
    refine (Tree.supported_number _).before ?_
    rw [hd]
    rfl
  have hread : Tree.read c.settings.mode c.settings.angle t.text = .ok (.number (.double (-x))) := by
    rw [hprint.read, Tree.reread_negate_of_isPositive hp']
    rfl
  constructor
  · have hvalue := (valueOf_of_supported hsupported).1
    have hresult : t.value? .double = some (.ofResult (-x)) := rfl
    rw [hd, hresult, Tree.ofResult_neg hx hp', if_pos hsmall] at hvalue
    exact (Option.some.inj hvalue).symm
  · rw [evaluateText_of_literal (v := .double (-x)) hread rfl, hd]
    rfl

/-- The negation of the typed number `1e-310` is too small, but its printed form is not. -/
theorem not_evaluateText_text_of_decimal :
    let c := (ofSettings {} ⟨0⟩).run
      [.key (.digit 1), .key .startExponent, .key .changeSign, .key (.digit 3), .key (.digit 1),
        .key (.digit 0), .key (.operator .negate)]
    c.Reachable ∧ c.settings.mode ≠ .programmer ∧
      ∃ e, c.equals.2 = some e ∧ e.value = .error .underflow ∧ e.tree.text = "-1e-310" ∧
        ∃ x, (c.evaluateText e.tree.text).2 = .ok ⟨.double x, .number (.double x)⟩ ∧
          ¬ (Value.double x).Agrees e.value := by
  intro c
  have hscientific : c.settings.mode = .scientific := rfl
  have hmode : c.settings.mode ≠ .programmer := by simp [hscientific]
  let typed := (ofSettings {} ⟨0⟩).run
    [.key (.digit 1), .key .startExponent, .key .changeSign, .key (.digit 3), .key (.digit 1),
      .key (.digit 0)]
  let x := Double.ofBits false 20240225330731
  have hvalue : typed.entry.value = .double x := by decide +kernel
  let t := Tree.before .negate (.number (.double x))
  have hequals : c.equals.2 = some ⟨c.valueOf t, t⟩ := by
    simp only [t]
    rw [← hvalue]
    rfl
  obtain ⟨hunderflow, htext⟩ := evaluateText_text_of_subnormal (x := x) hmode
    (by decide +kernel) (by decide +kernel) (by decide +kernel)
  refine ⟨reachable_run _ _ _, hmode, _, hequals, hunderflow, by decide +kernel, -x, htext, ?_⟩
  rw [show (⟨c.valueOf t, t⟩ : Evaluation).value = .error .underflow from hunderflow]
  exact Value.noConfusion

end Calculator
end DeskCalculator
