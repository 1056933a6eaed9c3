/-!
Positional bases for entry and display: digits, their characters, and the grouping of long digit
runs. Main statements: `digitOf?_digitChar` reads every digit character back, and
`ungroup_group` says that grouping adds nothing but separators.
-/
namespace DeskCalculator

inductive Base where
  | bin
  | oct
  | dec
  | hex
deriving DecidableEq, Repr, Inhabited

namespace Base

def all : List Base := [bin, oct, dec, hex]

def radix : Base → Nat
  | bin => 2
  | oct => 8
  | dec => 10
  | hex => 16

theorem two_le_radix (b : Base) : 2 ≤ b.radix := by cases b <;> decide

theorem radix_le_sixteen (b : Base) : b.radix ≤ 16 := by cases b <;> decide

def groupSize : Base → Nat
  | bin | hex => 4
  | oct | dec => 3

theorem groupSize_pos (b : Base) : 0 < b.groupSize := by cases b <;> decide

def separator : Base → Char
  | dec => ','
  | _ => ' '

def name : Base → String
  | bin => "bin"
  | oct => "oct"
  | dec => "dec"
  | hex => "hex"

/-- The value of a digit or a letter in either case, as in bases up to 36. -/
def alphanumericValue? (c : Char) : Option Nat :=
  if '0' ≤ c ∧ c ≤ '9' then some (c.toNat - '0'.toNat)
  else if 'a' ≤ c ∧ c ≤ 'z' then some (c.toNat - 'a'.toNat + 10)
  else if 'A' ≤ c ∧ c ≤ 'Z' then some (c.toNat - 'A'.toNat + 10)
  else none

def digitOf? (b : Base) (c : Char) : Option Nat :=
  (alphanumericValue? c).filter (· < b.radix)

/-- The character of a digit, with capital letters from ten on; a question mark if `d` is no digit
of the base. -/
def digitChar (b : Base) (d : Nat) : Char :=
  if d < b.radix then
    if d < 10 then Char.ofNat ('0'.toNat + d) else Char.ofNat ('A'.toNat + (d - 10))
  else '?'

@[elab_as_elim]
theorem forall_digit {motive : Base → Nat → Prop} {b : Base} {d : Nat} (hd : d < b.radix)
    (table : ∀ b : Base, ∀ n : Fin 16, n.val < b.radix → motive b n.val) : motive b d :=
  table b ⟨d, Nat.lt_of_lt_of_le hd b.radix_le_sixteen⟩ hd

theorem digitOf?_digitChar (b : Base) (d : Nat) (h : d < b.radix) :
    b.digitOf? (b.digitChar d) = some d :=
  forall_digit h (by intro b; cases b <;> decide)

/-- The digits of `n`, most significant first; zero has the one digit 0. -/
def digits (b : Base) (n : Nat) : List Nat :=
  if n < b.radix then [n] else b.digits (n / b.radix) ++ [n % b.radix]
termination_by n
decreasing_by
  have := b.two_le_radix
  exact Nat.div_lt_self (by omega) (by omega)

def ofDigits (b : Base) (ds : List Nat) : Nat :=
  ds.foldl (fun n d => n * b.radix + d) 0

theorem ofDigits_concat (b : Base) (ds : List Nat) (d : Nat) :
    b.ofDigits (ds ++ [d]) = b.ofDigits ds * b.radix + d := by
  simp [ofDigits]

theorem ofDigits_digits (b : Base) (n : Nat) : b.ofDigits (b.digits n) = n := by
  fun_induction digits b n with
  | case1 n h => simp [ofDigits]
  | case2 n h ih => rw [ofDigits_concat, ih, Nat.div_add_mod']

theorem digits_lt (b : Base) (n : Nat) : ∀ d ∈ b.digits n, d < b.radix := by
  fun_induction digits b n with
  | case1 n h => simpa using h
  | case2 n h ih =>
    intro d hd
    rcases List.mem_append.1 hd with hd | hd
    · exact ih d hd
    · have := b.two_le_radix
      rw [List.mem_singleton.1 hd]
      exact Nat.mod_lt _ (by omega)

theorem digits_ne_nil (b : Base) (n : Nat) : b.digits n ≠ [] := by
  unfold digits
  split <;> simp

def numeral (b : Base) (n : Nat) : List Char := (b.digits n).map b.digitChar

/-- Puts the separator before each digit that has a whole number of groups from it to the end,
the first digit excepted. -/
def group (b : Base) : List Char → List Char
  | [] => []
  | [c] => [c]
  | c :: d :: rest =>
    if (rest.length + 1) % b.groupSize = 0 then c :: b.separator :: b.group (d :: rest)
    else c :: b.group (d :: rest)

def ungroup (b : Base) (cs : List Char) : List Char := cs.filter (· ≠ b.separator)

section Ungroup

variable (b : Base)

@[simp] theorem ungroup_append (cs ds : List Char) :
    b.ungroup (cs ++ ds) = b.ungroup cs ++ b.ungroup ds := List.filter_append _ _

theorem ungroup_cons (c : Char) (cs : List Char) :
    b.ungroup (c :: cs) = b.ungroup [c] ++ b.ungroup cs := b.ungroup_append [c] cs

@[simp] theorem ungroup_separator (cs : List Char) :
    b.ungroup (b.separator :: cs) = b.ungroup cs := by simp [ungroup]

@[simp] theorem ungroup_group (cs : List Char) : b.ungroup (b.group cs) = b.ungroup cs := by
  fun_induction group b cs with
  | case1 | case2 => rfl
  | case3 c d rest hd ih => rw [ungroup_cons, ungroup_separator, ih, ← ungroup_cons]
  | case4 c d rest hd ih => rw [ungroup_cons, ih, ← ungroup_cons]

end Ungroup

def groupIf (b : Base) (separators : Bool) (cs : List Char) : List Char :=
  if separators then b.group cs else cs

@[simp] theorem ungroup_groupIf (b : Base) (separators : Bool) (cs : List Char) :
    b.ungroup (b.groupIf separators cs) = b.ungroup cs := by
  cases separators with
  | true => exact b.ungroup_group cs
  | false => rfl

end Base
end DeskCalculator
