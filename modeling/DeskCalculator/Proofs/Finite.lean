import DeskCalculator.Proofs.Growth
import DeskCalculator.Proofs.Nearest
import DeskCalculator.Proofs.Normalized
import DeskCalculator.Proofs.Wording
/-!
Numbers that are neither infinite nor undefined. Main statement: `Calculator.showsFinite_feed_iff`
says that only the memory and written literals bring in other ones.
-/
namespace DeskCalculator
namespace Double

theorem isFinite_ofBits {negative : Bool} {n : Nat} (hn : n ≤ infinityBits)
    (hinf : (ofBits negative n).isInf = false) : (ofBits negative n).isFinite := by
  rw [isFinite_iff, magnitudeBits_ofBits negative hn]
  refine Nat.lt_of_le_of_ne hn fun htop => ?_
  rw [htop] at hinf
  revert hinf
  cases negative <;> decide

theorem nearest_le (q : ℚ) : nearest q ≤ infinityBits := by
  rw [nearest]
  split
  · exact Nat.zero_le _
  · exact Nat.min_le_left _ _

theorem nearestBits_le {num den : Nat} (hd : 0 < den) : nearestBits num den ≤ infinityBits :=
  nearestBits_eq hd ▸ nearest_le _

theorem roundValue_le (q : ℚ) : roundValue q ≤ ⌊q⌋₊ + 1 := by
  rw [roundValue]
  split <;> omega

theorem nearest_lt {q : ℚ} (hpos : 0 ≤ q) (hq : q < 2 ^ (64 : Int)) :
    nearest q < infinityBits := by
  rcases hpos.eq_or_lt with rfl | hpos
  · rw [nearest, if_pos rfl]
    decide
  have hlog : Int.log 2 q < 64 :=
    (Int.lt_zpow_iff_log_lt (b := 2) (by decide) hpos).1 (by simpa only [Nat.cast_ofNat] using hq)
  rw [nearest, if_neg hpos.ne']
  generalize he : max (Int.log 2 q - fractionBits) leastExponent = e
  have hbits : (fractionBits : Int) = 52 := rfl
  have hleast : leastExponent = -1074 := rfl
  have hfloor : ⌊q * 2 ^ (-e)⌋₊ < 2 * leadingBit :=
    (Nat.floor_lt (by positivity)).2 (mul_zpow_neg_lt (by omega))
  have hround := roundValue_le (q * 2 ^ (-e))
  refine (Nat.min_le_right _ _).trans_lt ?_
  generalize roundValue (q * 2 ^ (-e)) = significand at hround ⊢
  simp only [leadingBit, infinityBits, hleast] at hfloor ⊢
  omega

theorem isFinite_ofRatio {negative : Bool} {num den : Nat} (hd : 0 < den) (hn : num < 2 ^ 64) :
    (ofRatio negative num den).isFinite := by
  have hden : (1 : ℚ) ≤ den := Nat.one_le_cast.2 hd
  have hnum : (num : ℚ) < 2 ^ (64 : Int) := by exact_mod_cast hn
  rw [ofRatio, isFinite_iff, magnitudeBits_ofBits negative (nearestBits_le hd), nearestBits_eq hd]
  refine nearest_lt (div_nonneg (Nat.cast_nonneg num) (zero_le_one.trans hden)) ?_
  exact (div_le_self (Nat.cast_nonneg num) hden).trans_lt hnum

theorem isFinite_ofInt (i : Int64) : (ofInt i.toInt).isFinite := by
  have hmin := i.le_toInt
  have hmax := i.toInt_lt
  exact isFinite_ofRatio Nat.one_pos (by omega)

theorem isFinite_unitDouble (word : UInt64) : (Random.unitDouble word).isFinite :=
  isFinite_ofRatio (by decide) (word >>> 11).toNat_lt

end Double

/-! Values. -/

namespace Value

/-- Is the value an error or a number that is neither infinite nor undefined? -/
def IsFinite : Value → Prop
  | double x => x.isFinite
  | integer _ | error _ => True

theorem IsNormalized.isFinite {v : Value} (h : v.IsNormalized) : v.IsFinite := by
  cases v with
  | double x => exact h.1
  | integer i | error k => trivial

theorem BelongsTo.isFinite {v : Value} (h : v.BelongsTo .integer) : v.IsFinite :=
  h.isNormalized.isFinite

theorem IsFinite.coerce {v : Value} (h : v.IsFinite) (d : Domain) : (v.coerce d).IsFinite := by
  cases d with
  | integer => exact (belongsTo_coerce v .integer).isFinite
  | double =>
    cases v with
    | double x | error k => exact h
    | integer i => exact Double.isFinite_ofInt i

theorem isFinite_coerce_integer (v : Value) : (v.coerce .integer).IsFinite :=
  (belongsTo_coerce v .integer).isFinite

end Value

/-- An operation gives an error or a finite number, whatever its operands. -/
theorem Opcode.isFinite_of_value? {op : Opcode} {vs : List Value} {v : Value}
    (h : op.value? vs = some v) : v.IsFinite :=
  (isNormalized_of_valueWith? ((op.valueWith?_standard vs).trans h)).isFinite

namespace Tree

variable {d : Domain} {t : Tree} {v : Value}

/-- Only a literal, in parentheses or not, can have a value that is not finite. -/
theorem isFinite_of_value? (hv : t.value? d = some v)
    (hliteral : d = .double → ∀ x, t.bare.literal? = some (.double x) → x.isFinite) :
    v.IsFinite := by
  induction t with
  | number u | constant name u =>
    obtain rfl := Option.some.inj hv
    cases d with
    | integer => exact u.isFinite_coerce_integer
    | double =>
      cases u with
      | double x => exact hliteral rfl x rfl
      | integer i => exact Double.isFinite_ofInt i
      | error k => trivial
  | before op a _ | after op a _ =>
    simp only [value?, Option.bind_eq_bind, Option.bind_eq_some_iff] at hv
    obtain ⟨opcode, -, u, -, hv⟩ := hv
    exact Opcode.isFinite_of_value? hv
  | binary op l r _ _ =>
    simp only [value?, Option.bind_eq_bind, Option.bind_eq_some_iff] at hv
    obtain ⟨opcode, -, u, -, w, -, hv⟩ := hv
    exact Opcode.isFinite_of_value? hv
  | call name args _ =>
    simp only [value?, Option.bind_eq_bind, Option.bind_eq_some_iff] at hv
    obtain ⟨opcode, -, vs, -, hv⟩ := hv
    exact Opcode.isFinite_of_value? hv
  | paren a ih => exact ih hv hliteral

theorem inherited_isFinite :
    Inherited fun mode _ t => ∀ v, t.value? mode.domain = some v → v.IsFinite where
  built {mode _ _ _} ht _ v hv := by
    refine isFinite_of_value? hv fun hd x hx => ?_
    cases ht with
    | constant hop hc =>
      have hx : (Value.double _).coerce mode.domain = .double x := Option.some.inj hx
      rw [hd] at hx
      cases hx
      rcases hop with rfl | rfl <;> cases hc <;> rfl
    | before | after | binary | call => cases hx
  paren ha := ha

end Tree

/-! Typed numbers. -/

theorem Decimal.exists_ofBits (negative : Bool) (d : Decimal) :
    ∃ n ≤ Double.infinityBits, d.toDouble negative = Double.ofBits negative n := by
  simp only [toDouble]
  split_ifs
  · exact ⟨0, Nat.zero_le _, rfl⟩
  · exact ⟨Double.infinityBits, le_rfl, rfl⟩
  · exact ⟨0, Nat.zero_le _, rfl⟩
  · exact ⟨_, Double.nearestBits_le d.ratio_den_pos, rfl⟩

theorem Entry.isFinite_value {e : Entry} (h : e.integral = false → e.base = .dec) :
    e.value.IsFinite := by
  simp only [value]
  split
  · trivial
  · rename_i hintegral
    have hbase := h (by simpa using hintegral)
    obtain ⟨n, hn, hx⟩ := Decimal.exists_ofBits false ⟨e.significand, e.unitExponent⟩
    simp only [magnitude, if_pos hbase, hx]
    split_ifs with hinf _ hsign
    · trivial
    · trivial
    · exact Literal.isFinite_neg (Double.isFinite_ofBits hn (by simpa using hinf))
    · exact Double.isFinite_ofBits hn (by simpa using hinf)

namespace Calculator

variable {c c' : Calculator} {i : Input} {v : Value}

theorem Fits.isFinite (h : c.Fits) : c.entry.value.IsFinite := by
  refine Entry.isFinite_value fun hintegral => ?_
  have hkind : c.entry.integral = decide (c.domain = .integer) := congrArg Entry.integral h
  rw [hintegral, eq_comm, decide_eq_false_iff_not] at hkind
  have hmode : c.settings.mode ≠ .programmer := by
    intro hmode
    exact hkind (domain_of_programmer hmode)
  rw [h.entry_base, base, Settings.effectiveBase, if_neg hmode]

structure ShowsFinite (c : Calculator) : Prop where
  display : c.displayValue.IsFinite
  stack : ∀ v ∈ c.stackValues, v.IsFinite

/-- Does an input bring in a number that is not finite: a memory that has grown out of range, or a
text that is nothing but a literal out of range? -/
def BringsInfinity (c : Calculator) : Input → Prop
  | .key (.memory .read) => c.domain = .double ∧ ¬ c.memory.isFinite
  | .text source => c.domain = .double ∧ ∃ t x,
    Tree.read c.settings.mode c.settings.angle source = .ok t ∧
      t.bare.literal? = some (.double x) ∧ ¬ x.isFinite
  | _ => False

def FiniteOperands (c : Calculator) : Prop :=
  c.context.All fun mode _ t => ∀ v, t.value? mode.domain = some v → v.IsFinite

theorem Coherent.showsFinite (h : c.Coherent) (hn : c.FiniteOperands) : c.ShowsFinite := by
  have hoperand (t : Tree) (ht : t ∈ c.context.nodes) : (c.valueOf t).IsFinite := by
    refine hn t ht _ ?_
    rw [h.mode]
    exact (valueOf_of_supported (h.supported ht)).1
  have hstack (v : Value) (hv : v ∈ c.stackValues) : v.IsFinite := by
    simp only [stackValues] at hv
    split at hv
    · rcases List.mem_cons.1 hv with rfl | hv
      · exact h.fits.isFinite
      · obtain ⟨t, ht, rfl⟩ := List.mem_map.1 hv
        refine hoperand t ?_
        rw [keptNodes] at ht
        split at ht
        · exact List.mem_of_mem_tail ht
        · exact ht
    · obtain ⟨t, ht, rfl⟩ := List.mem_map.1 hv
      exact hoperand t ht
  refine ⟨?_, hstack⟩
  rw [h.displayValue_eq]
  cases hhead : c.stackValues.head? with
  | none =>
    show (Value.zero c.settings.domain).IsFinite
    cases c.settings.domain with
    | double => exact (rfl : (0 : Float).isFinite = true)
    | integer => trivial
  | some v => exact hstack v (List.mem_of_mem_head? hhead)

theorem Coherent.isFinite_of_introduces (h : c.Coherent) (hn : c.FiniteOperands)
    (hi : ¬ c.BringsInfinity i) (hv : c.Introduces i v) : v.IsFinite := by
  cases hv with
  | typed => exact h.fits.isFinite
  | @result _ e he =>
    rcases evaluation?_cases he with hequals | ⟨source, rfl, hok⟩
    · obtain ⟨-, -, hvalue⟩ := h.toSound.of_equals hequals
      refine Tree.inherited_isFinite.tree_of_equals h.toSound hn (fun _ w hw => ?_) hequals _ hvalue
      obtain rfl := Option.some.inj hw
      exact h.fits.isFinite.coerce _
    · obtain ⟨hread, hevaluate⟩ := evaluateText_eq_ok hok
      have hvalue := h.toSound.value?_of_evaluation? he
      refine Tree.isFinite_of_value? hvalue fun hd x hx => ?_
      by_contra hinfinite
      exact hi ⟨hd, e.tree, x, hread, hx, hinfinite⟩
  | recalled =>
    cases hd : c.domain with
    | integer => exact Value.isFinite_coerce_integer _
    | double => exact not_not.1 fun hx => hi ⟨hd, hx⟩
  | drawnDouble _ word => exact Double.isFinite_unitDouble word
  | drawnInteger _ word => trivial
  | kept => exact Value.isFinite_coerce_integer _

theorem Coherent.finiteOperands_feed (h : c.Coherent) (hn : c.FiniteOperands)
    (hi : ¬ c.BringsInfinity i) : (c.feed i).FiniteOperands := by
  refine Tree.inherited_isFinite.feed h.toSound hn i fun v hv w hw => ?_
  obtain rfl := Option.some.inj hw
  exact (h.isFinite_of_introduces hn hi hv).coerce _

/-- The calculators that a user can come to without bringing in a number that is not finite. -/
inductive WithinRange : Calculator → Prop where
  | fresh (s : Settings) (random : Random) : WithinRange (ofSettings s random)
  | feed {c : Calculator} (h : WithinRange c) {i : Input} (hi : ¬ c.BringsInfinity i) :
      WithinRange (c.feed i)
  | separators {c : Calculator} (h : WithinRange c) (on : Bool) : WithinRange (c.setSeparators on)
  | draw {c : Calculator} (h : WithinRange c) (random : Random) : WithinRange { c with random }

theorem WithinRange.reachable (h : c.WithinRange) : c.Reachable := by
  induction h with
  | fresh s random => exact .fresh s random
  | feed _ _ ih => exact ih.feed _
  | separators _ on ih => exact ih.separators on
  | draw _ random ih => exact ih.draw random

theorem WithinRange.finiteOperands (h : c.WithinRange) : c.FiniteOperands := by
  induction h with
  | fresh s random => exact all_ofSettings s
  | feed h hi ih => exact h.reachable.coherent.finiteOperands_feed ih hi
  | separators _ on ih => exact ih
  | draw _ random ih => exact ih

/-! What such a number leads to. -/

theorem supported_of_bare_literal {d : Domain} {t : Tree} (h : t.bare.literal? = some v) :
    t.Supported d := by
  induction t with
  | number u => exact Tree.supported_number u
  | constant name u => exact Tree.supported_constant name u
  | paren a ih => exact (ih h).paren
  | before | after | binary | call => cases h

theorem value?_of_literal {d : Domain} {t : Tree} (h : t.literal? = some v) :
    t.value? d = some (v.coerce d) := by
  cases t with
  | number u | constant name u =>
    obtain rfl := Option.some.inj h
    rfl
  | before | after | binary | call | paren => cases h

/-- An infinite memory is shown when it is recalled. -/
theorem displayValue_recalled (hd : c.domain = .double) :
    (c.feed (.key (.memory .read))).displayValue = .double c.memory := by
  have hshown : (c.feed (.key (.memory .read))).displayValue =
      (Value.double c.memory).coerce c.domain := rfl
  rw [hshown, hd]
  rfl

/-- A text that is nothing but a literal has the literal as its result. -/
theorem evaluateText_of_literal {source : String} {t : Tree}
    (hread : Tree.read c.settings.mode c.settings.angle source = .ok t)
    (hliteral : t.bare.literal? = some v) :
    (c.evaluateText source).2 = .ok ⟨v.coerce c.domain, t⟩ := by
  obtain ⟨hvalue, hevaluate⟩ := valueOf_of_supported (c := c) (supported_of_bare_literal hliteral)
  rw [← Tree.value?_bare, value?_of_literal hliteral] at hvalue
  rw [← Option.some.inj hvalue] at hevaluate
  simp only [evaluateText, hread, hevaluate]
  rfl

/-- As long as no number that is not finite has been brought in, all numbers shown are finite; and
the next input shows or gives such a number exactly if it brings it in itself. -/
theorem showsFinite_feed_iff (h : c.WithinRange) (i : Input) :
    c.ShowsFinite ∧ ((c.feed i).ShowsFinite ∧
      (∀ e, c.evaluation? i = some e → e.value.IsFinite) ↔ ¬ c.BringsInfinity i) := by
  have hc := h.reachable.coherent
  refine ⟨hc.showsFinite h.finiteOperands, fun ⟨hshown, hresult⟩ hi => ?_, fun hi => ?_⟩
  · simp only [BringsInfinity] at hi
    split at hi
    · obtain ⟨hd, hinfinite⟩ := hi
      have hdisplay := hshown.display
      rw [displayValue_recalled hd] at hdisplay
      exact hinfinite hdisplay
    · obtain ⟨hd, t, x, hread, hliteral, hinfinite⟩ := hi
      have hresult := hresult ⟨.double x, t⟩ (by
        simp only [evaluation?, evaluateText_of_literal hread hliteral, hd]
        rfl)
      exact hinfinite hresult
    · exact hi
  · refine ⟨(hc.feed i).showsFinite (hc.finiteOperands_feed h.finiteOperands hi), fun e he => ?_⟩
    exact hc.isFinite_of_introduces h.finiteOperands hi (.result he)

theorem showsFinite_feed_iff_equals :
    let c := (ofSettings {} ⟨0⟩).feed (.key (.digit 7))
    c.WithinRange ∧ c.ShowsFinite ∧ (c.feed (.key .equals)).ShowsFinite := by
  intro c
  have hc : c.WithinRange := .feed (.fresh _ _) not_false
  have hi : ¬ c.BringsInfinity (.key .equals) := not_false
  obtain ⟨hshown, hnext⟩ := showsFinite_feed_iff hc (.key .equals)
  exact ⟨hc, hshown, (hnext.2 hi).1⟩

/-- A literal out of range is not classified: the infinity that it is read as is the result. -/
theorem not_showsFinite_feed_literal :
    let c := ofSettings {} ⟨0⟩
    c.WithinRange ∧ (c.evaluateText "1e400").2 =
        .ok ⟨.double (Double.infinity false), .number (.double (Double.infinity false))⟩ ∧
      (c.feed (.text "1e400")).displayValue = .double (Double.infinity false) ∧
      ¬ (c.feed (.text "1e400")).ShowsFinite := by
  intro c
  have hscan : Token.scanAll "1e400".toList =
      some [.numeral ⟨['1'], none, some ⟨'e', none, ['4', '0', '0']⟩⟩] := rfl
  have hphrase : Phrase.ofChars? "1e400".toList =
      some (.numeral ⟨['1'], none, some ⟨'e', none, ['4', '0', '0']⟩⟩) := by
    rw [Phrase.ofChars?, hscan]
    exact Phrase.ofTokens?_tokens (Phrase.BindsAt.of_primary (.numeral _) .value).sum
  have hvalue : Numeral.toDouble false ⟨['1'], none, some ⟨'e', none, ['4', '0', '0']⟩⟩ =
      Double.infinity false := by decide +kernel
  have hread : Tree.read .scientific .radians "1e400" =
      .ok (.number (.double (Double.infinity false))) := by
    rw [Tree.read, hphrase, ← hvalue]
    rfl
  have hevaluate : c.evaluate (.number (.double (Double.infinity false))) =
      .ok (.double (Double.infinity false)) := rfl
  have hdisplay : (c.feed (.text "1e400")).displayValue = .double (Double.infinity false) := by
    show (c.evaluateText "1e400").1.displayValue = _
    simp only [evaluateText]
    rw [show Tree.read c.settings.mode c.settings.angle "1e400" = _ from hread]
    dsimp only
    rw [hevaluate]
    rfl
  refine ⟨.fresh _ _, ?_, hdisplay, fun hshown => ?_⟩
  · exact evaluateText_of_literal (v := .double (Double.infinity false)) hread rfl
  · have hfinite := hshown.display
    rw [hdisplay] at hfinite
    exact absurd hfinite (by decide : ¬ (Double.infinity false).isFinite)

end Calculator
end DeskCalculator
