import DeskCalculator.Tree
/-!
Induction over trees, with a hypothesis for every argument of a call, the measure of trees that
counts parentheses, and the trees within a tree.
-/
namespace DeskCalculator
namespace Tree

@[induction_eliminator]
theorem induction {motive : Tree → Prop} (number : ∀ v, motive (.number v))
    (constant : ∀ name v, motive (.constant name v))
    (before : ∀ op a, motive a → motive (.before op a))
    (after : ∀ op a, motive a → motive (.after op a))
    (binary : ∀ op l r, motive l → motive r → motive (.binary op l r))
    (call : ∀ name args, (∀ a ∈ args, motive a) → motive (.call name args))
    (paren : ∀ a, motive a → motive (.paren a)) (t : Tree) : motive t :=
  match t with
  | .number v => number v
  | .constant name v => constant name v
  | .before op a => before op a (induction number constant before after binary call paren a)
  | .after op a => after op a (induction number constant before after binary call paren a)
  | .binary op l r =>
    binary op l r (induction number constant before after binary call paren l)
      (induction number constant before after binary call paren r)
  | .call name args =>
    call name args fun a _ => induction number constant before after binary call paren a
  | .paren a => paren a (induction number constant before after binary call paren a)
termination_by sizeOf t

mutual

def parenCount : Tree → Nat
  | number _ | constant .. => 0
  | before _ a | after _ a => a.parenCount
  | paren a => 1 + a.parenCount
  | binary _ l r => l.parenCount + r.parenCount
  | call _ args => parenCountOfAll args

def parenCountOfAll : List Tree → Nat
  | [] => 0
  | a :: rest => a.parenCount + parenCountOfAll rest

end

mutual

def subtrees : Tree → List Tree
  | number v => [number v]
  | constant name v => [constant name v]
  | before op a => before op a :: a.subtrees
  | after op a => after op a :: a.subtrees
  | binary op l r => binary op l r :: (l.subtrees ++ r.subtrees)
  | call name args => call name args :: subtreesOfAll args
  | paren a => paren a :: a.subtrees

def subtreesOfAll : List Tree → List Tree
  | [] => []
  | a :: rest => a.subtrees ++ subtreesOfAll rest

end

theorem mem_subtreesOfAll {t : Tree} {args : List Tree} :
    t ∈ subtreesOfAll args ↔ ∃ a ∈ args, t ∈ a.subtrees := by
  induction args with
  | nil => simp [subtreesOfAll]
  | cons a args ih => simp [subtreesOfAll, ih]

theorem mem_subtrees_trans {t u w : Tree} (hu : u ∈ t.subtrees) (hw : w ∈ u.subtrees) :
    w ∈ t.subtrees := by
  induction t with
  | number v | constant name v =>
    rw [subtrees, List.mem_singleton] at hu
    exact hu ▸ hw
  | before op a ih | after op a ih | paren a ih =>
    rw [subtrees, List.mem_cons] at hu
    rcases hu with rfl | hu
    · exact hw
    · exact List.mem_cons_of_mem _ (ih hu)
  | binary op l r ihl ihr =>
    rw [subtrees, List.mem_cons, List.mem_append] at hu
    rcases hu with rfl | hu | hu
    · exact hw
    · exact List.mem_cons_of_mem _ (List.mem_append_left _ (ihl hu))
    · exact List.mem_cons_of_mem _ (List.mem_append_right _ (ihr hu))
  | call name args ih =>
    rw [subtrees, List.mem_cons, mem_subtreesOfAll] at hu
    rcases hu with rfl | ⟨a, ha, hu⟩
    · exact hw
    · exact List.mem_cons_of_mem _ (mem_subtreesOfAll.2 ⟨a, ha, ih a ha hu⟩)

end Tree
end DeskCalculator
