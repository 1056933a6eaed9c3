import DeskCalculator.Expression.Token
import DeskCalculator.Operator
import Mathlib
/-!
Words that stand one after the other, with or without blanks between them. Main statement:
`Token.Spelling.scanAll` says that a text is read as the words it was put together from.
-/
namespace DeskCalculator

namespace Token

/-- Can the character go on neither a name nor a numeral? -/
def isBoundary (c : Char) : Bool := !isNamePart c && c != '.'

/-- Does every word before this text end here? -/
def EndsWord (cs : List Char) : Prop := ∀ c ∈ cs.head?, isBoundary c

instance (cs : List Char) : Decidable (EndsWord cs) :=
  decidable_of_iff (cs.head?.all isBoundary) (Option.all_eq_true _ _)

def StartsWord (cs : List Char) : Prop := ∃ c ∈ cs.head?, isBlank c = false

instance (cs : List Char) : Decidable (StartsWord cs) :=
  decidable_of_iff (cs.head?.any (!isBlank ·)) (by simp [StartsWord, Option.any_eq_true])

@[simp] theorem startsWord_cons (c : Char) (cs : List Char) :
    StartsWord (c :: cs) ↔ isBlank c = false := by
  simp [StartsWord]

@[simp] theorem endsWord_nil : EndsWord [] := by simp [EndsWord]

@[simp] theorem endsWord_cons (c : Char) (cs : List Char) : EndsWord (c :: cs) ↔ isBoundary c := by
  simp [EndsWord]

theorem isNamePart_of_isDigit {c : Char} (h : c.isDigit) : isNamePart c := by
  simp [isNamePart, Char.isAlphanum, h]

theorem EndsWord.endsName {cs : List Char} (h : EndsWord cs) : endsName cs := by
  cases cs with
  | nil => rfl
  | cons c cs =>
    simp only [endsWord_cons, isBoundary, Bool.and_eq_true] at h
    exact h.1

/-- A run of characters ends where the text after it ends words. -/
theorem EndsWord.takeWhile_eq_nil {cs : List Char} (h : EndsWord cs) {p : Char → Bool}
    (hp : ∀ c, p c → isNamePart c) : cs.takeWhile p = [] := by
  cases cs with
  | nil => rfl
  | cons c cs =>
    simp only [endsWord_cons, isBoundary, Bool.and_eq_true, Bool.not_eq_true'] at h
    have hc : p c = false := by
      cases hpc : p c with
      | false => rfl
      | true => exact absurd (hp c hpc) (by simp [h.1])
    simp [hc]

end Token

theorem span_append {p : Char → Bool} {run rest : List Char} (hrun : ∀ c ∈ run, p c)
    (hrest : rest.takeWhile p = []) :
    (run ++ rest).takeWhile p = run ∧ (run ++ rest).dropWhile p = rest := by
  have hdrop : rest.dropWhile p = rest := by
    have happend := List.takeWhile_append_dropWhile (p := p) (l := rest)
    rwa [hrest, List.nil_append] at happend
  rw [List.takeWhile_append_of_pos hrun, List.dropWhile_append_of_pos hrun, hrest, hdrop,
    List.append_nil]
  exact ⟨rfl, rfl⟩

namespace Numeral

open Token (EndsWord)

structure Power.Written (p : Power) : Prop where
  letter : p.letter = 'e' ∨ p.letter = 'E'
  sign : p.sign = none ∨ p.sign = some '+' ∨ p.sign = some '-'
  digits : ∀ c ∈ p.digits, c.isDigit
  digits_ne_nil : p.digits ≠ []

/-- The numerals that can be written: a digit at least, before or after the point. -/
structure Written (n : Numeral) : Prop where
  whole : ∀ c ∈ n.whole, c.isDigit
  fraction : ∀ f ∈ n.fraction, ∀ c ∈ f, c.isDigit
  power : ∀ p ∈ n.power, p.Written
  nonempty : n.whole ≠ [] ∨ ∃ f ∈ n.fraction, f ≠ []

variable {rest : List Char}

theorem scanDigits_run {digits : List Char} (h : ∀ c ∈ digits, c.isDigit)
    (hrest : rest.takeWhile Char.isDigit = []) : scanDigits (digits ++ rest) = (digits, rest) := by
  obtain ⟨ht, hd⟩ := span_append h hrest
  rw [scanDigits, ht, hd]

theorem Power.Written.scan {p : Power} (h : p.Written) (hrest : EndsWord rest) :
    scanPower? (p.chars ++ rest) = some (p, rest) := by
  obtain ⟨letter, sign, digits⟩ := p
  obtain ⟨hl, hs, hd, hne⟩ := h
  have hscan := scanDigits_run hd (hrest.takeWhile_eq_nil fun _ => Token.isNamePart_of_isDigit)
  dsimp only at hl hs hd hne
  cases digits with
  | nil => exact absurd rfl hne
  | cons d digits =>
    have hplus : d ≠ '+' := by rintro rfl; exact absurd (hd '+' (by simp)) (by decide)
    have hminus : d ≠ '-' := by rintro rfl; exact absurd (hd '-' (by simp)) (by decide)
    rw [List.cons_append] at hscan
    rcases hs with rfl | rfl | rfl <;>
      simp [Power.chars, scanPower?, hl, hplus, hminus, hscan]

theorem scanPower?_eq_none (hrest : EndsWord rest) : scanPower? rest = none := by
  cases rest with
  | nil => rfl
  | cons c rest =>
    have hc : ¬ (c = 'e' ∨ c = 'E') := by
      rintro (rfl | rfl) <;> exact absurd ((Token.endsWord_cons _ _).1 hrest) (by decide)
    simp [scanPower?, hc]

theorem scanPower_append {power : Option Power} (h : ∀ p ∈ power, p.Written)
    (hrest : EndsWord rest) : scanPower (power.elim [] Power.chars ++ rest) = (power, rest) := by
  cases power with
  | none => simp [scanPower, scanPower?_eq_none hrest]
  | some p => simp [scanPower, (h p rfl).scan hrest]

theorem scanPositional?_append {whole : List Char} {fraction : Option (List Char)}
    (hw : ∀ c ∈ whole, c.isDigit) (hf : ∀ f ∈ fraction, ∀ c ∈ f, c.isDigit)
    (hne : whole ≠ [] ∨ ∃ f ∈ fraction, f ≠ [])
    (hrest : rest.takeWhile Char.isDigit = []) (hpoint : rest.head? ≠ some '.') :
    scanPositional? (whole ++ fraction.elim [] ('.' :: ·) ++ rest) =
      some (whole, fraction, rest) := by
  cases fraction with
  | none =>
    have hscan := scanDigits_run hw hrest
    have hwhole : whole ≠ [] := by simpa using hne
    cases whole with
    | nil => exact absurd rfl hwhole
    | cons d whole =>
      rw [Option.elim_none, List.append_nil, scanPositional?, hscan]
      cases rest with
      | nil => rfl
      | cons c rest =>
        have hc : c ≠ '.' := by simpa using hpoint
        simp [hc]
  | some f =>
    have htail : ('.' :: (f ++ rest)).takeWhile Char.isDigit = [] := rfl
    have hscan := scanDigits_run hw htail
    have hfraction := scanDigits_run (hf f rfl) hrest
    have hchars : whole ++ (some f).elim [] ('.' :: ·) ++ rest = whole ++ '.' :: (f ++ rest) := by
      simp
    rw [hchars, scanPositional?, hscan]
    cases whole with
    | cons d whole => simp [hfraction]
    | nil =>
      cases f with
      | nil => simp at hne
      | cons d f =>
        rw [List.cons_append] at hfraction
        simp [hfraction]

/-- A numeral is read as far as it was written. -/
theorem Written.scan {n : Numeral} (h : n.Written) (hrest : EndsWord rest) :
    scan? (n.chars ++ rest) = some (n, rest) := by
  have hpower := scanPower_append h.power hrest
  have htail : ∀ c ∈ (n.power.elim [] Power.chars ++ rest).head?, c.isDigit = false ∧ c ≠ '.' := by
    cases hp : n.power with
    | none =>
      intro c hc
      have hb := hrest c (by simpa [hp] using hc)
      simp only [Token.isBoundary, Bool.and_eq_true, Bool.not_eq_true', bne_iff_ne] at hb
      refine ⟨?_, hb.2⟩
      cases hd : c.isDigit with
      | false => rfl
      | true => exact absurd (Token.isNamePart_of_isDigit hd) (by simp [hb.1])
    | some p =>
      intro c hc
      have hletter : p.letter = c := by simpa [hp, Power.chars] using hc
      rcases (h.power p hp).letter with he | he <;> rw [← hletter, he] <;> decide
  have hdigits : (n.power.elim [] Power.chars ++ rest).takeWhile Char.isDigit = [] := by
    cases hcs : n.power.elim [] Power.chars ++ rest with
    | nil => rfl
    | cons c cs => simp [(htail c (by simp [hcs])).1]
  have hpoint : (n.power.elim [] Power.chars ++ rest).head? ≠ some '.' :=
    fun hc => (htail '.' hc).2 rfl
  have hscan := scanPositional?_append h.whole h.fraction h.nonempty hdigits hpoint
  rw [chars, List.append_assoc, scan?, hscan]
  simp [hpower]

theorem scan?_eq_none {c : Char} (hd : c.isDigit = false) (hp : c ≠ '.') (rest : List Char) :
    scan? (c :: rest) = none := by
  have hscan : scanDigits (c :: rest) = ([], c :: rest) := by simp [scanDigits, hd]
  have hpositional : scanPositional? (c :: rest) = none := by simp [scanPositional?, hscan, hp]
  rw [scan?, hpositional]

theorem Written.chars_eq_cons {n : Numeral} (h : n.Written) :
    ∃ c cs, n.chars = c :: cs ∧ (c.isDigit ∨ c = '.') := by
  obtain ⟨whole, fraction, power⟩ := n
  cases whole with
  | cons d whole => exact ⟨d, _, rfl, .inl (h.whole d (by simp))⟩
  | nil =>
    obtain ⟨f, hf, -⟩ := h.nonempty.resolve_left (by simp)
    cases fraction with
    | none => cases hf
    | some g => exact ⟨'.', _, rfl, .inr rfl⟩

end Numeral

namespace Token

variable {rest : List Char}

/-- Only four letters begin the message of a failed result. -/
theorem scanFailure?_eq_none {c : Char} (h : c ∉ ['C', 'O', 'U', 'E']) (cs : List Char) :
    scanFailure? (c :: cs) = none := by
  simp only [List.mem_cons, List.not_mem_nil, not_or] at h
  have hmessage : ∀ kind : ErrorKind, (kind.message.toList).isPrefixOf (c :: cs) = false := by
    intro kind
    cases kind <;> simp [ErrorKind.message, List.isPrefixOf, Ne.symm, h, eq_comm (b := c)]
  simp [scanFailure?, hmessage]

theorem scanFailure?_message (kind : ErrorKind) (hrest : EndsWord rest) :
    scanFailure? (kind.message.toList ++ rest) = some (kind, rest) := by
  have hends := hrest.endsName
  cases kind <;> simp [scanFailure?, ErrorKind.message, hends]

theorem scan?_message (kind : ErrorKind) (hrest : EndsWord rest) :
    scan? (kind.message.toList ++ rest) = some (failure kind, rest) := by
  simp [scan?, scanFailure?_message kind hrest]

theorem not_mem_messageStarts {c : Char} (h : c.isDigit ∨ c = '.' ∨ c.isLower) :
    c ∉ ['C', 'O', 'U', 'E'] := by
  simp only [List.mem_cons, List.not_mem_nil, or_false]
  rintro (rfl | rfl | rfl | rfl) <;> exact absurd h (by decide)

theorem scan?_numeral {n : Numeral} (h : n.Written) (hrest : EndsWord rest) :
    scan? (n.chars ++ rest) = some (numeral n, rest) := by
  have hscan := h.scan hrest
  obtain ⟨c, cs, hcs, hc⟩ := h.chars_eq_cons
  rw [hcs, List.cons_append] at hscan ⊢
  have hmessage := not_mem_messageStarts (hc.imp_right .inl)
  simp [scan?, scanFailure?_eq_none hmessage, hscan]

/-- The names that can be written and are not taken for a message. -/
structure IsName (name : List Char) : Prop where
  start : ∃ c ∈ name.head?, c.isLower
  parts : ∀ c ∈ name, isNamePart c

instance (name : List Char) : Decidable (IsName name) :=
  decidable_of_iff (name.head?.any Char.isLower ∧ name.all isNamePart)
    ⟨fun h => ⟨(Option.any_eq_true _ _).1 h.1, List.all_eq_true.1 h.2⟩,
      fun h => ⟨(Option.any_eq_true _ _).2 h.start, List.all_eq_true.2 h.parts⟩⟩

theorem scan?_name {name : List Char} (h : IsName name) (hrest : EndsWord rest) :
    scan? (name ++ rest) = some (.name name, rest) := by
  obtain ⟨⟨c, hc, hlower⟩, hparts⟩ := h
  cases name with
  | nil => cases hc
  | cons d name =>
    obtain rfl : d = c := by simpa using hc
    have hstart : isNameStart d := by simp [isNameStart, Char.isAlpha, hlower]
    have hdigit : d.isDigit = false := by
      simp only [Char.isLower, Char.isDigit, Bool.and_eq_true, decide_eq_true_eq] at hlower ⊢
      simp only [Bool.and_eq_false_iff, decide_eq_false_iff_not]
      refine .inr fun hle => ?_
      exact absurd (UInt32.le_trans hlower.1 hle) (by decide)
    have hpoint : d ≠ '.' := by
      rintro rfl
      exact absurd hlower (by decide)
    obtain ⟨ht, hd⟩ := span_append (fun c hc => hparts c (List.mem_cons_of_mem _ hc))
      (hrest.takeWhile_eq_nil fun _ => id)
    have hmessage := not_mem_messageStarts (.inr (.inr hlower))
    rw [List.cons_append, scan?, scanFailure?_eq_none hmessage, Numeral.scan?_eq_none hdigit hpoint]
    simp [scanName?, hstart, ht, hd]

theorem scan?_eq_scanSign? {c : Char} (h : c ∉ ['C', 'O', 'U', 'E']) (hd : c.isDigit = false)
    (hp : c ≠ '.') (hn : isNameStart c = false) (cs : List Char) :
    scan? (c :: cs) = scanSign? (c :: cs) := by
  simp [scan?, scanFailure?_eq_none h, Numeral.scan?_eq_none hd hp, scanName?, hn]

theorem scan?_comma (rest : List Char) : scan? (',' :: rest) = some (comma, rest) :=
  scan?_eq_scanSign? (by decide) (by decide) (by decide) (by decide) rest

theorem scan?_piSign (hrest : EndsWord rest) : scan? ('π' :: rest) = some (piSign, rest) := by
  rw [scan?_eq_scanSign? (by decide) (by decide) (by decide) (by decide)]
  simp [scanSign?, hrest.endsName]

end Token

namespace Operator

def hasSign (op : Operator) : Bool :=
  match op.rule with
  | .before | .after | .binary | .group => true
  | _ => false

def token : Operator → Token
  | openParen => .openParen
  | closeParen => .closeParen
  | bitXor => .name ['x', 'o', 'r']
  | op => .sign op.symbol

theorem scan?_symbol {op : Operator} (hop : op.hasSign) {rest : List Char}
    (hrest : op = .bitXor → Token.EndsWord rest) :
    Token.scan? (op.symbol.toList ++ rest) = some (op.token, rest) := by
  by_cases hxor : op = .bitXor
  · subst hxor
    have hname : Token.IsName ['x', 'o', 'r'] := by decide
    exact Token.scan?_name hname (hrest rfl)
  · clear hrest
    revert hop hxor
    cases op <;> intro hop hxor <;> first
      | exact absurd rfl hxor
      | exact absurd hop (by decide)
      | exact Token.scan?_eq_scanSign? (by decide) (by decide) (by decide) (by decide) _

theorem start_symbol {op : Operator} (hop : op.hasSign) : Token.StartsWord op.symbol.toList := by
  revert hop
  cases op <;> decide

end Operator

namespace Token

theorem isBlank_eq_false {c : Char} (h : c.isDigit ∨ c = '.' ∨ c.isLower) :
    isBlank c = false := by
  cases hb : isBlank c with
  | false => rfl
  | true =>
    simp only [isBlank, Bool.or_eq_true, beq_iff_eq] at hb
    rcases hb with ((rfl | rfl) | rfl) | rfl <;> exact absurd h (by decide)

/-- A text that is put together from words, each of which is read as such before what follows it,
and blanks. -/
inductive Spells : List Char → List Token → Prop where
  | nil : Spells [] []
  | blank {cs : List Char} {ts : List Token} (h : Spells cs ts) : Spells (' ' :: cs) ts
  | word {word rest : List Char} {t : Token} {ts : List Token}
      (start : StartsWord word) (scan : scan? (word ++ rest) = some (t, rest))
      (h : Spells rest ts) : Spells (word ++ rest) (t :: ts)

theorem Spells.scanUpTo {cs : List Char} {ts : List Token} (h : Spells cs ts) {bound : Nat}
    (hb : cs.length ≤ bound) : scanUpTo bound cs = some ts := by
  induction h generalizing bound with
  | nil => cases bound <;> rfl
  | @blank cs ts h ih =>
    have hskip : skipBlanks (' ' :: cs) = skipBlanks cs := rfl
    have hcs := ih (Nat.le_of_succ_le hb)
    cases bound with
    | zero => exact absurd hb (by simp)
    | succ bound => simpa only [Token.scanUpTo, hskip] using hcs
  | @word word rest t ts start scan h ih =>
    obtain ⟨c, hc, hblank⟩ := start
    cases word with
    | nil => cases hc
    | cons d word =>
      obtain rfl : d = c := by simpa using hc
      have hskip : skipBlanks (d :: (word ++ rest)) = d :: (word ++ rest) := by
        simp [skipBlanks, hblank]
      rw [List.cons_append] at scan hb ⊢
      cases bound with
      | zero => exact absurd hb (by simp)
      | succ bound =>
        have hrest : rest.length ≤ bound := by
          simp only [List.length_cons, List.length_append] at hb
          omega
        simp [Token.scanUpTo, hskip, scan, ih hrest]

theorem scanAll_of_spells {cs : List Char} {ts : List Token} (h : Spells cs ts) :
    scanAll cs = some ts :=
  h.scanUpTo (Nat.le_refl _)

/-- In front of any text that ends words, the characters are read as the words. -/
def Spelling (cs : List Char) (ts : List Token) : Prop :=
  ∀ rest us, EndsWord rest → Spells rest us → Spells (cs ++ rest) (ts ++ us)

variable {cs cs' : List Char} {ts ts' : List Token}

theorem Spelling.nil : Spelling [] [] := fun _ _ _ h => h

theorem Spelling.word {t : Token} (start : StartsWord cs)
    (scan : ∀ rest, EndsWord rest → scan? (cs ++ rest) = some (t, rest)) : Spelling cs [t] :=
  fun rest _ hrest h => .word start (scan rest hrest) h

theorem Spelling.blank (h : Spelling cs ts) : Spelling (' ' :: cs) ts :=
  fun _ _ hrest hus => .blank (h _ _ hrest hus)

theorem EndsWord.append {cs rest : List Char} (h : EndsWord cs) (hrest : EndsWord rest) :
    EndsWord (cs ++ rest) := by
  cases cs with
  | nil => exact hrest
  | cons c cs => exact (endsWord_cons _ _).2 ((endsWord_cons _ _).1 h)

theorem Spelling.append (h : Spelling cs ts) (h' : Spelling cs' ts') (hends : EndsWord cs') :
    Spelling (cs ++ cs') (ts ++ ts') := by
  intro rest us hrest hus
  rw [List.append_assoc, List.append_assoc]
  exact h _ _ (hends.append hrest) (h' _ _ hrest hus)

theorem Spelling.symbol (op : Operator) (hop : op.hasSign) :
    Spelling op.symbol.toList [op.token] :=
  .word (Operator.start_symbol hop) fun _ hrest => Operator.scan?_symbol hop fun _ => hrest

/-- Signs need no blank after them. -/
theorem Spelling.symbol_append (op : Operator) (hop : op.hasSign) (hxor : op ≠ .bitXor)
    (h : Spelling cs ts) : Spelling (op.symbol.toList ++ cs) (op.token :: ts) := by
  intro rest us hrest hus
  rw [List.append_assoc]
  exact .word (Operator.start_symbol hop) (Operator.scan?_symbol hop fun he => absurd he hxor)
    (h _ _ hrest hus)

theorem Spelling.paren (h : Spelling cs ts) :
    Spelling ('(' :: cs ++ [')']) (.openParen :: (ts ++ [.closeParen])) := by
  have hclose : Spelling [')'] [.closeParen] := Spelling.symbol .closeParen rfl
  have hends : EndsWord [')'] := (endsWord_cons _ _).2 (by decide)
  exact Spelling.symbol_append .openParen rfl (by decide) (h.append hclose hends)

theorem Spelling.comma (h : Spelling cs ts) : Spelling (',' :: cs) (.comma :: ts) := by
  intro rest us hrest hus
  have hstart : StartsWord [','] := by decide
  show Spells ([','] ++ (cs ++ rest)) (.comma :: (ts ++ us))
  exact .word hstart (scan?_comma _) (h _ _ hrest hus)

theorem Spelling.scanAll (h : Spelling cs ts) : scanAll cs = some ts := by
  have hspells := h _ _ endsWord_nil Spells.nil
  rw [List.append_nil, List.append_nil] at hspells
  exact scanAll_of_spells hspells

end Token

theorem Numeral.Written.spelling {n : Numeral} (h : n.Written) :
    Token.Spelling n.chars [.numeral n] := by
  refine .word ?_ fun _ hrest => Token.scan?_numeral h hrest
  obtain ⟨c, cs, hchars, hc⟩ := h.chars_eq_cons
  exact ⟨c, by simp [hchars], Token.isBlank_eq_false (hc.imp_right .inl)⟩

end DeskCalculator
