import DeskCalculator.Expression.Build
import DeskCalculator.Proofs.Compilation
/-!
What operators build, whatever they build it from. Main statement: `Tree.Congruence.build` says that
operands which are alike give trees which are alike, be it in value or but for parentheses.
-/
namespace DeskCalculator
namespace Tree

/-- Is a likeness of trees kept by all nodes with operands but parentheses? -/
structure Congruence (R : Tree → Tree → Prop) : Prop where
  refl : ∀ t, R t t
  before : ∀ op {a b}, R a b → R (.before op a) (.before op b)
  after : ∀ op {a b}, R a b → R (.after op a) (.after op b)
  binary : ∀ op {a a' b b'}, R a a' → R b b' → R (.binary op a b) (.binary op a' b')
  call : ∀ name {xs ys}, List.Forall₂ R xs ys → R (.call name xs) (.call name ys)

variable {R : Tree → Tree → Prop} {xs ys : List Tree} {op : Operator} {t u : Tree} {d : Domain}

theorem exists_build (mode : Mode) (angle : AngleUnit) (hg : op.rule ≠ .group)
    (hl : xs.length = op.arity) : ∃ t, build op xs mode angle = .ok t := by
  rw [Operator.arity] at hl
  simp only [build]
  cases hrule : op.rule <;> rw [hrule] at hl
  case group => exact absurd hrule hg
  case constant =>
    obtain rfl := List.length_eq_zero_iff.1 hl
    exact ⟨_, rfl⟩
  case binary | swapped | binaryFunction =>
    obtain ⟨a, b, rfl⟩ := List.length_eq_two.1 hl
    exact ⟨_, rfl⟩
  all_goals
    obtain ⟨a, rfl⟩ := List.length_eq_one_iff.1 hl
    exact ⟨_, rfl⟩

theorem Congruence.build (hR : Congruence R) {mode : Mode} {angle : AngleUnit}
    (h : List.Forall₂ R xs ys) (ht : Tree.build op xs mode angle = .ok t) :
    ∃ u, Tree.build op ys mode angle = .ok u ∧ R t u := by
  simp only [Tree.build] at ht ⊢
  split at ht <;> rename_i hrule <;> cases ht
  case h_1 =>
    obtain _ | ⟨ha, _ | ⟨hb, _ | _⟩⟩ := h
    exact ⟨_, by rw [hrule], hR.binary op ha hb⟩
  case h_2 target _ _ =>
    obtain _ | ⟨ha, _ | ⟨hb, _ | _⟩⟩ := h
    exact ⟨_, by rw [hrule], hR.binary target hb ha⟩
  case h_3 name _ _ =>
    obtain _ | ⟨ha, _ | ⟨hb, _ | _⟩⟩ := h
    exact ⟨_, by rw [hrule], hR.call name (.cons ha (.cons hb .nil))⟩
  case h_4 =>
    obtain _ | ⟨ha, _ | _⟩ := h
    exact ⟨_, by rw [hrule], hR.before op ha⟩
  case h_5 =>
    obtain _ | ⟨ha, _ | _⟩ := h
    exact ⟨_, by rw [hrule], hR.after op ha⟩
  case h_6 name _ =>
    obtain _ | ⟨ha, _ | _⟩ := h
    exact ⟨_, by rw [hrule], hR.call name (.cons ha .nil)⟩
  case h_7 =>
    obtain _ | ⟨ha, _ | _⟩ := h
    exact ⟨_, by rw [hrule], hR.call _ (.cons ha .nil)⟩
  case h_8 =>
    obtain _ | ⟨ha, _ | _⟩ := h
    exact ⟨_, by rw [hrule], hR.binary .pow ha (hR.refl _)⟩
  case h_9 =>
    obtain _ | ⟨ha, _ | _⟩ := h
    exact ⟨_, by rw [hrule], hR.binary .pow (hR.refl _) ha⟩
  case h_10 =>
    obtain _ | ⟨ha, _ | _⟩ := h
    exact ⟨_, by rw [hrule], hR.binary .div (hR.refl _) ha⟩
  case h_11 =>
    obtain _ | _ := h
    exact ⟨_, by rw [hrule], hR.refl _⟩

/-! Trees of one value. -/

theorem valuesOf?_congr (h : List.Forall₂ (fun t u => value? d t = value? d u) xs ys) :
    valuesOf? d xs = valuesOf? d ys := by
  induction h with
  | nil => rfl
  | cons ha _ ih => simp only [valuesOf?, ha, ih]

variable (d) in
theorem congruence_value : Congruence fun t u => value? d t = value? d u where
  refl _ := rfl
  before op _ _ h := by simp only [value?, h]
  after op _ _ h := by simp only [value?, h]
  binary op _ _ _ _ ha hb := by simp only [value?, ha, hb]
  call name _ _ h := by simp only [value?, valuesOf?_congr h]

/-! Trees that differ in parentheses alone. -/

mutual

def bare : Tree → Tree
  | number v => number v
  | constant name v => constant name v
  | before op a => before op a.bare
  | after op a => after op a.bare
  | binary op l r => binary op l.bare r.bare
  | call name args => call name (bareAll args)
  | paren a => a.bare

def bareAll : List Tree → List Tree
  | [] => []
  | a :: rest => a.bare :: bareAll rest

end

theorem bareAll_congr (h : List.Forall₂ (fun t u => t.bare = u.bare) xs ys) :
    bareAll xs = bareAll ys := by
  induction h with
  | nil => rfl
  | cons ha _ ih => simp only [bareAll, ha, ih]

theorem congruence_bare : Congruence fun t u => t.bare = u.bare where
  refl _ := rfl
  before op _ _ h := by simp only [bare, h]
  after op _ _ h := by simp only [bare, h]
  binary op _ _ _ _ ha hb := by simp only [bare, ha, hb]
  call name _ _ h := by simp only [bare, bareAll_congr h]

theorem valuesOf?_bareAll (h : ∀ a ∈ xs, value? d a.bare = value? d a) :
    valuesOf? d (bareAll xs) = valuesOf? d xs := by
  induction xs with
  | nil => rfl
  | cons a xs ih =>
    simp only [bareAll, valuesOf?, h a (by simp), ih fun b hb => h b (List.mem_cons_of_mem _ hb)]

@[simp] theorem value?_bare (d : Domain) (t : Tree) : value? d t.bare = value? d t := by
  induction t with
  | number v | constant name v => rfl
  | before op a ih | after op a ih => simp only [bare, value?, ih]
  | binary op l r ihl ihr => simp only [bare, value?, ihl, ihr]
  | call name args ih => simp only [bare, value?, valuesOf?_bareAll ih]
  | paren a ih => simp only [bare, value?, ih]

end Tree
end DeskCalculator
