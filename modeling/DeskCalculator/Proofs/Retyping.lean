import DeskCalculator.Proofs.Taping
/-!
Integers that are typed as they are shown. Main statement: `Session.runKeys_retyped` says that the
digits of an integer, typed on the programmer keypad, give the integer and its text again.
-/
namespace DeskCalculator

/-! Tokens. -/

namespace Text

theorem wordsFrom_append {word : List Char} (h : ∀ c ∈ word, isBlank c = false)
    (begun rest : List Char) :
    wordsFrom begun (word ++ rest) = wordsFrom (word.reverse ++ begun) rest := by
  induction word generalizing begun with
  | nil => rfl
  | cons c word ih =>
    have hc : isBlank c = false := h c List.mem_cons_self
    rw [List.cons_append, wordsFrom, hc, if_neg Bool.false_ne_true,
      ih fun d hd => h d (List.mem_cons_of_mem _ hd)]
    simp

theorem words_of_word {word : List Char} (h : ∀ c ∈ word, isBlank c = false) (hne : word ≠ []) :
    words (String.ofList word) = [String.ofList word] := by
  have hwords := wordsFrom_append h [] []
  rw [List.append_nil, List.append_nil] at hwords
  simp [words, hwords, wordsFrom, hne]

theorem words_append_blank {word : List Char} (h : ∀ c ∈ word, isBlank c = false) (hne : word ≠ [])
    {c : Char} (hc : isBlank c) (rest : List Char) :
    words (String.ofList (word ++ c :: rest)) =
      String.ofList word :: words (String.ofList rest) := by
  rw [words, String.toList_ofList, wordsFrom_append h, List.append_nil]
  simp [words, wordsFrom, hne, hc]

end Text

namespace Base

variable {b : Base}

theorem isBlank_digitChar {d : Nat} (hd : d < b.radix) : Text.isBlank (b.digitChar d) = false :=
  forall_digit hd (by intro b; cases b <;> decide)

theorem radix_pos (b : Base) : 0 < b.radix := Nat.lt_of_lt_of_le Nat.zero_lt_two b.two_le_radix

theorem digitChar_zero (b : Base) : b.digitChar 0 = '0' := by cases b <;> rfl

/-- The token that types a natural number: a zero and its digits. -/
def token (b : Base) (n : Nat) : String := "0" ++ String.ofList (b.numeral n)

def tokenDigits (b : Base) (n : Nat) : List Nat := 0 :: b.digits n

def tokenKeys (b : Base) (n : Nat) : List Key := (b.tokenDigits n).map .digit

theorem tokenDigits_lt (b : Base) (n : Nat) : ∀ d ∈ b.tokenDigits n, d < b.radix :=
  List.forall_mem_cons.2 ⟨b.radix_pos, b.digits_lt n⟩

theorem token_eq (b : Base) (n : Nat) :
    b.token n = String.ofList ((b.tokenDigits n).map b.digitChar) := by
  rw [tokenDigits, List.map_cons, digitChar_zero]
  exact (String.ofList_append : String.ofList (['0'] ++ _) = _).symm

theorem isBlank_token (b : Base) (n : Nat) :
    ∀ c ∈ (b.tokenDigits n).map b.digitChar, Text.isBlank c = false :=
  List.forall_mem_map.2 fun d hd => isBlank_digitChar (b.tokenDigits_lt n d hd)

theorem words_token (b : Base) (n : Nat) : Text.words (b.token n) = [b.token n] := by
  rw [token_eq]
  exact Text.words_of_word (isBlank_token b n) (List.cons_ne_nil _ _)

theorem words_token_sign (b : Base) (n : Nat) :
    Text.words (b.token n ++ " +/-") = [b.token n, "+/-"] := by
  have hwords := Text.words_append_blank (isBlank_token b n) (List.cons_ne_nil _ _)
    (c := ' ') (by decide) ['+', '/', '-']
  rw [String.ofList_append, ← token_eq] at hwords
  exact hwords

end Base

namespace Keystroke

variable {b : Base} {token : String} {ds : List Nat}

theorem lookup_eq_none {α : Type} {table : List (String × α)} {c : Char}
    (htable : ∀ p ∈ table, p.1.toList.head? ≠ some c) (h : token.toList.head? = some c) :
    table.lookup token = none := by
  rw [List.lookup_eq_none_iff]
  intro p hp
  rw [bne_iff_ne]
  rintro rfl
  exact htable p hp h

theorem key?_eq_none (h : token.toList.head? = some '0') : key? token = none := by
  have hlower : token.toLower.toList.head? = some '0' := by
    rw [String.toLower, String.toList_map, List.head?_map, h]
    rfl
  have hkeys : keys.lookup token.toLower = none := lookup_eq_none (by decide) hlower
  have hsigns : signs.lookup token = none := lookup_eq_none (by decide) h
  have hop : Operator.ofName? token = none := by
    simp only [Operator.ofName?, List.find?_eq_none, beq_iff_eq]
    intro op _ hname
    have hhead : op.name.toList.head? ≠ some '0' := by cases op <;> decide
    exact hhead (hname ▸ hlower)
  simp only [key?, hkeys, hsigns, hop, Option.map_none]

theorem digits?_ofList (h : ∀ d ∈ ds, d < b.radix) :
    digits? b (String.ofList (ds.map b.digitChar)) = some (ds.map .digit) := by
  rw [digits?, String.toList_ofList]
  induction ds with
  | nil => rfl
  | cons d ds ih =>
    have hd := Base.digitOf?_digitChar b d (h d List.mem_cons_self)
    have hpoint : b.digitChar d ≠ '.' := by
      intro he
      rw [he] at hd
      cases b <;> cases hd
    simp [List.mapM_cons, hd, hpoint, ih fun d' hd' => h d' (List.mem_cons_of_mem _ hd')]

/-- Behind a zero, letters are digits even where they spell the name of a key. -/
theorem read_token (b : Base) (n : Nat) : read b (b.token n) = .ok (b.tokenKeys n) := by
  have hhead : (b.token n).toList.head? = some '0' := by
    rw [Base.token, String.toList_append]
    rfl
  have hdigits := digits?_ofList (b.tokenDigits_lt n)
  rw [← Base.token_eq] at hdigits
  simp only [read, key?_eq_none hhead, hdigits, Base.tokenKeys]

theorem read_changeSign (b : Base) : read b "+/-" = .ok [.changeSign] := by
  have hkey : key? "+/-" = some .changeSign := by decide +kernel
  simp only [read, hkey]

end Keystroke

/-! Typing integers. -/

namespace Calculator

variable {c : Calculator} {n d : Nat} {ds : List Nat}

def typing (c : Calculator) (n : Nat) (negative : Bool) : Calculator :=
  { c with entry := { c.settings.freshEntry with significand := n, negative }, phase := .typing }

theorem changeSign_typing (c : Calculator) (n : Nat) :
    (c.typing n false).changeSign = c.typing n true := rfl

theorem digit_typing (hd : d < c.base.radix) (hn : n * c.base.radix + d < Entry.limit) :
    ((c.typing n false).digit d).1 = c.typing (n * c.base.radix + d) false := by
  have hroom : Entry.appendDigit? c.base n d = some (n * c.base.radix + d) := if_pos hn
  have hdigit : (c.typing n false).entry.digit? d =
      some { c.settings.freshEntry with significand := n * c.base.radix + d } := by
    show (if d < c.base.radix then (Entry.appendDigit? c.base n d).map _ else none) = _
    rw [if_pos hd, hroom]
    rfl
  have hbegin : (c.typing n false).beginTyping = c.typing n false := rfl
  have hradix : d < (c.typing n false).entry.base.radix := hd
  simp only [digit, if_pos hradix, hbegin, hdigit]
  rfl

/-- Digits make up their number as long as there is room for it. -/
theorem run_typing (hds : ∀ d ∈ ds, d < c.base.radix) (hn : c.base.ofDigits ds < Entry.limit) :
    (c.typing 0 false).run ((ds.map Key.digit).map .key) = c.typing (c.base.ofDigits ds) false := by
  -- The number before the last digit is the smaller one, so the room lasts.
  induction ds using List.reverseRecOn with
  | nil => rfl
  | append_singleton ds d ih =>
    rw [Base.ofDigits_concat] at hn ⊢
    have hd : d < c.base.radix := hds d (by simp)
    have hsmaller : c.base.ofDigits ds < Entry.limit := by
      have hmul := Nat.le_mul_of_pos_right (c.base.ofDigits ds) c.base.radix_pos
      omega
    have hbefore := ih (fun d' hd' => hds d' (by simp [hd'])) hsmaller
    rw [List.map_append, List.map_append, run_append, hbefore]
    exact digit_typing hd hn

theorem Fits.run_tokenKeys (h : c.Fits) (ht : ¬ c.isTyping) (hn : n < Entry.limit) :
    c.run ((c.base.tokenKeys n).map .key) = c.typing n false := by
  have hzero : (c.digit 0).1 = c.typing 0 false :=
    congrArg Prod.fst (h.digit_of_not_isTyping ht c.base.radix_pos)
  show (c.digit 0).1.run (((c.base.digits n).map Key.digit).map .key) = _
  have hdigits := c.base.ofDigits_digits n
  rw [hzero, run_typing (c.base.digits_lt n) (by rwa [hdigits]), hdigits]

theorem displayValue_typing (hmode : c.settings.mode = .programmer) (negative : Bool) :
    (c.typing n negative).displayValue =
      .integer (Int64.ofInt (Dyadic.signed negative n)) := by
  have hdomain : c.settings.domain = .integer := domain_of_programmer hmode
  have hintegral : (c.typing n negative).entry.integral = true := by
    simp [typing, Settings.freshEntry, hdomain]
  show (c.typing n negative).entry.value = _
  rw [Entry.value, if_pos hintegral]
  rfl

theorem displayChars_typing (c : Calculator) (n : Nat) (negative : Bool) :
    (c.typing n negative).displayChars =
      (if negative then ['-'] else []) ++ Display.unsigned n c.base c.settings.separators := by
  show (c.typing n negative).entry.chars c.settings.separators = _
  cases negative <;>
    simp [Entry.chars, Entry.digits, typing, Settings.freshEntry, Display.unsigned, base]

end Calculator

/-! Integers as they are shown. -/

namespace Display

variable (v : Int64) (b : Base)

def hasSign : Bool := b = .dec ∧ v < 0

def magnitude : Nat := if hasSign v b then v.toInt.natAbs else v.toUInt64.toNat

theorem integer_eq (separators : Bool) :
    integer v b separators =
      (if hasSign v b then ['-'] else []) ++ unsigned (magnitude v b) b separators := by
  by_cases hsign : b = .dec ∧ v < 0
  · simp [integer, magnitude, hasSign, hsign]
  · simp only [integer, magnitude, hasSign, hsign]
    rfl

theorem ofInt_magnitude : Int64.ofInt (Dyadic.signed (hasSign v b) (magnitude v b)) = v := by
  rw [magnitude]
  cases hsign : hasSign v b with
  | true =>
    have hneg : v.toInt < 0 := by
      simpa [Int64.lt_iff_toInt_lt] using (of_decide_eq_true hsign).2
    have habs : Dyadic.signed true v.toInt.natAbs = v.toInt := by
      rw [Dyadic.signed, if_pos rfl]
      omega
    rw [if_pos rfl, habs, Int64.ofInt_toInt]
  | false =>
    -- The pattern reads as the integer again.
    show Int64.ofInt (v.toUInt64.toNat : Int) = v
    rw [Int64.ofInt_eq_ofNat, ← UInt64.toInt64_ofNat', UInt64.ofNat_toNat, Int64.toInt64_toUInt64]

theorem magnitude_lt_limit : magnitude v b < Entry.limit := by
  rw [magnitude]
  split
  · have hlow := v.le_toInt
    have hhigh := v.toInt_lt
    simp only [Entry.limit, UInt64.size]
    omega
  · exact v.toUInt64.toNat_lt_size

end Display

/-! Scripts. -/

namespace Session

variable {s : Session} {n : Nat}

/-- The script that types an integer the way it is shown: a zero and the digits on the display, and
the key for the sign if there is one. -/
def retyped (v : Int64) (b : Base) : String :=
  if b = .dec ∧ v < 0 then
    "0" ++ String.ofList (Display.unsigned v.toInt.natAbs b false) ++ " +/-"
  else "0" ++ String.ofList (Display.integer v b false)

theorem retyped_eq (v : Int64) (b : Base) :
    retyped v b = b.token (Display.magnitude v b) ++ if Display.hasSign v b then " +/-" else "" := by
  by_cases hsign : b = .dec ∧ v < 0
  · simp only [retyped, Display.magnitude, Display.hasSign, hsign]
    rfl
  · simp only [retyped, Display.integer, Display.magnitude, Display.hasSign, hsign]
    exact String.append_empty.symm

theorem Reachable.runKeys_typing (h : s.Reachable) {script : String} {keys : List Key}
    (hread : s.calculator.readTokens (Text.words script) = (keys, none))
    (hkeys : ∀ k ∈ keys, ∀ c : Calculator, (c.press k).2 = none) :
    (s.runKeys script).1.calculator = s.calculator.run (keys.map .key) ∧
      (s.runKeys script).2 = .ok [] := by
  obtain ⟨es, hfed, hresult⟩ := h.taped.runTokens (Text.words script)
  rw [hread] at hfed hresult
  have hnone : es = [] := by
    rw [hfed.evaluations, Calculator.results_eq_nil (List.forall_mem_map.2 hkeys)]
    rfl
  exact ⟨hfed.calculator, hnone ▸ hresult⟩

theorem press_tokenKeys {b : Base} {k : Key} (hk : k ∈ b.tokenKeys n) (c : Calculator) :
    (c.press k).2 = none := by
  obtain ⟨d, -, rfl⟩ := List.mem_map.1 hk
  rfl

/-- A number that there is room for; the key for its sign comes last. -/
theorem Reachable.runKeys_token (h : s.Reachable) (ht : ¬ s.calculator.isTyping)
    (hn : n < Entry.limit) (negative : Bool) :
    let script := s.calculator.base.token n ++ if negative then " +/-" else ""
    (s.runKeys script).1.calculator = s.calculator.typing n negative ∧
      (s.runKeys script).2 = .ok [] := by
  intro script
  let keys := s.calculator.base.tokenKeys n ++ if negative then [Key.changeSign] else []
  have hdigits := h.calculator.coherent.fits.run_tokenKeys ht hn
  have hread : s.calculator.readTokens (Text.words script) = (keys, none) := by
    cases negative with
    | false =>
      have hscript : script = s.calculator.base.token n := String.append_empty
      rw [hscript, Base.words_token]
      simp only [Calculator.readTokens, Keystroke.read_token]
      rfl
    | true =>
      have hscript : script = s.calculator.base.token n ++ " +/-" := rfl
      rw [hscript, Base.words_token_sign]
      simp only [Calculator.readTokens, Keystroke.read_token, Keystroke.read_changeSign]
      rfl
  have hrun : s.calculator.run (keys.map .key) = s.calculator.typing n negative := by
    rw [List.map_append, Calculator.run_append, hdigits]
    cases negative with
    | false => rfl
    | true => exact s.calculator.changeSign_typing n
  have hkeys : ∀ k ∈ keys, ∀ c : Calculator, (c.press k).2 = none := by
    intro k hk c
    rcases List.mem_append.1 hk with hk | hk
    · exact press_tokenKeys hk c
    · cases negative with
      | false => cases hk
      | true =>
        rw [List.mem_singleton.1 hk]
        rfl
  rw [← hrun]
  exact h.runKeys_typing hread hkeys

/-- Typing a displayed integer gives it back. On the programmer keypad in any base, with or without
separators, while no number is typed: the keys for the digits on the display, after a zero, show the
integer and its text again, up to the bounds of 64 bits. -/
theorem runKeys_retyped (h : s.Reachable) (hmode : s.calculator.settings.mode = .programmer)
    (ht : ¬ s.calculator.isTyping) (v : Int64) :
    let b := s.calculator.base
    let s' := (s.runKeys (retyped v b)).1
    (s.runKeys (retyped v b)).2 = .ok [] ∧ s'.calculator.displayValue = .integer v ∧
      s'.calculator.displayText =
        String.ofList (Display.integer v b s.calculator.settings.separators) := by
  intro b s'
  obtain ⟨hcalculator, hresult⟩ :=
    h.runKeys_token ht (Display.magnitude_lt_limit v b) (Display.hasSign v b)
  rw [← retyped_eq] at hcalculator hresult
  refine ⟨hresult, ?_, ?_⟩
  · rw [hcalculator, Calculator.displayValue_typing hmode, Display.ofInt_magnitude]
  · rw [hcalculator, Calculator.displayText, Calculator.displayChars_typing, Display.integer_eq]

theorem runKeys_retyped_hex :
    let s := ofSettings { mode := .programmer, base := .hex, separators := true } ⟨0⟩
    let s' := (s.runKeys "0FFFFFFFFFFFFFFEE").1
    s.Reachable ∧ s.calculator.settings.mode = .programmer ∧ ¬ s.calculator.isTyping ∧
      retyped (-18) s.calculator.base = "0FFFFFFFFFFFFFFEE" ∧
      s'.calculator.displayValue = .integer (-18) ∧
      s'.calculator.displayText = "FFFF FFFF FFFF FFEE" := by
  intro s s'
  have hs : s.Reachable := .fresh _ _
  have hmode : s.calculator.settings.mode = .programmer := rfl
  have hidle : ¬ s.calculator.isTyping := by decide
  have hscript : retyped (-18) s.calculator.base = "0FFFFFFFFFFFFFFEE" := by decide +kernel
  obtain ⟨-, hvalue, htext⟩ := runKeys_retyped hs hmode hidle (-18)
  rw [hscript] at hvalue htext
  refine ⟨hs, hmode, hidle, hscript, hvalue, htext.trans ?_⟩
  decide +kernel

end Session
end DeskCalculator
