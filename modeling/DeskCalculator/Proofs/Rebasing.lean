import DeskCalculator.Proofs.Growth
/-!
Changes of the base on the programmer keypad. Main statement: `Calculator.foldl_setBase` says that
any number of them keeps the number shown, as the only operand and in the last base, whatever was
being typed or entered before.
-/
namespace DeskCalculator
namespace Calculator

variable {c : Calculator} {v : Value}

/-- With a value shown as a result in a base, in place of the expression in progress. -/
def showIn (c : Calculator) (b : Base) (v : Value) : Calculator :=
  let settings := { c.settings with base := b }
  { c with
    settings, context := (Context.ofSettings settings).resetTo (.number v),
    entry := settings.freshEntry, phase := .resultShown, display := v, replacesTop := false }

theorem displayValue_showIn (c : Calculator) (b : Base) (v : Value) :
    (c.showIn b v).displayValue = v := rfl

theorem showIn_showIn (c : Calculator) (b b' : Base) (v v' : Value) :
    (c.showIn b v).showIn b' v' = c.showIn b' v' := rfl

theorem Coherent.belongsTo_displayValue (h : c.Coherent) : c.displayValue.BelongsTo c.domain := by
  simp only [displayValue]
  split
  · exact h.fits.belongsTo
  · rename_i ht
    have hshows : c.display = c.context.top?.elim c.settings.zero c.valueOf := h.shows ht
    rw [hshows]
    cases htop : c.context.top? with
    | none => exact Value.belongsTo_zero _
    | some t =>
      have hsupported := h.supported (List.mem_of_mem_head? htop)
      exact Tree.belongsTo_of_value? (valueOf_of_supported hsupported).1

theorem setBase_eq_showIn (hmode : c.settings.mode = .programmer)
    (hv : c.displayValue.BelongsTo .integer) (b : Base) :
    c.setBase b = c.showIn b c.displayValue := by
  have hset : c.setBase b = c.showIn b (c.displayValue.coerce .integer) := if_pos hmode
  rw [hset, hv.coerce_eq]

theorem setBase_showIn (hmode : c.settings.mode = .programmer) (hv : v.BelongsTo .integer)
    (b b' : Base) : (c.showIn b v).setBase b' = c.showIn b' v := by
  have hshown := setBase_eq_showIn (c := c.showIn b v) hmode hv b'
  rwa [displayValue_showIn, showIn_showIn] at hshown

/-- One base after the other: the last one decides. -/
theorem foldl_setBase_showIn (hmode : c.settings.mode = .programmer) (hv : v.BelongsTo .integer)
    (b : Base) (bs : List Base) :
    bs.foldl setBase (c.showIn b v) = c.showIn ((b :: bs).getLast (List.cons_ne_nil _ _)) v := by
  induction bs generalizing b with
  | nil => rfl
  | cons b' bs ih =>
    rw [List.foldl_cons, setBase_showIn hmode hv, ih, List.getLast_cons (List.cons_ne_nil _ _)]

/-- Wherever keys and written expressions lead on the programmer keypad, changes of the base keep the
value shown and write it in the last base; it becomes the only operand, and nothing waits. The
memory, the last result and the other settings stay, and the last change made again changes
nothing. -/
theorem foldl_setBase (h : c.Reachable) (hmode : c.settings.mode = .programmer) {bs : List Base}
    (hbs : bs ≠ []) :
    let b := bs.getLast hbs
    let c' := bs.foldl setBase c
    c'.displayValue = c.displayValue ∧
      c'.displayText =
        String.ofList (Display.value c.displayValue b c.settings.separators none) ∧
      c'.context.nodes = [.number c.displayValue] ∧ c'.context.pending = [] ∧
      c'.memory = c.memory ∧ c'.last = c.last ∧ c'.settings = { c.settings with base := b } ∧
      c'.setBase b = c' := by
  intro b c'
  have hv : c.displayValue.BelongsTo .integer :=
    domain_of_programmer hmode ▸ h.coherent.belongsTo_displayValue
  have hc' : c' = c.showIn b c.displayValue := by
    obtain ⟨first, rest, rfl⟩ := List.exists_cons_of_ne_nil hbs
    show rest.foldl setBase (c.setBase first) = _
    rw [setBase_eq_showIn hmode hv, foldl_setBase_showIn hmode hv]
  have hbase : c'.base = b := by
    rw [hc']
    exact if_pos hmode
  have htext : c'.displayText =
      String.ofList (Display.value c'.display c'.base c'.settings.separators none) := by
    rw [hc']
    rfl
  rw [hbase] at htext
  rw [hc'] at htext ⊢
  exact ⟨rfl, htext, rfl, rfl, rfl, rfl, rfl, setBase_showIn hmode hv b b⟩

theorem foldl_setBase_typing :
    let c := (ofSettings { mode := .programmer, style := .rpn } ⟨0⟩).run
      [.key (.digit 7), .key .enter, .key .enter, .key (.digit 4), .key (.digit 2)]
    let c' := [Base.bin, .hex].foldl setBase c
    c.Reachable ∧ c.isTyping ∧ c'.displayValue = .integer 42 ∧ c'.displayText = "2A" ∧
      c'.setBase .hex = c' := by
  intro c c'
  have hc : c.Reachable := reachable_run _ _ _
  obtain ⟨hvalue, htext, -, -, -, -, -, hagain⟩ :=
    foldl_setBase hc rfl (List.cons_ne_nil Base.bin [.hex])
  exact ⟨hc, rfl, hvalue, htext.trans (by decide +kernel), hagain⟩

end Calculator
end DeskCalculator
