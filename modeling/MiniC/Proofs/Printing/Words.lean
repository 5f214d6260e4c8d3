import Mathlib.Tactic.SplitIfs
import MiniC.Binary32.Read
import MiniC.Binary32.Write
import MiniC.Text.Quote
import MiniC.Token.Lexeme

/-! # Reading back pieces of text

A piece of a text ends at the first character that it cannot have, so what follows it does not blur
it.  Numerals and quoted texts are read back to what they were written for; the texts of
floats are not, but they are told apart from integers and from words.
-/
namespace MiniC
set_option autoImplicit false

namespace Text

/-- A character of another kind is not in a text of one kind. -/
theorem not_mem_of_forall {kind : Char → Bool} {a : List Char} (h : ∀ c ∈ a, kind c = true)
    {c : Char} (hc : kind c = false) : c ∉ a := by
  intro hMem
  rw [h c hMem] at hc
  cases hc

theorem forall_beq_eq_false {a : List Char} {c : Char} (h : c ∉ a) :
    ∀ d ∈ a, (d == c) = false := by
  intro d hd
  refine beq_eq_false_iff_ne.mpr ?_
  rintro rfl
  exact h hd

/-- The text is empty or starts with a character that ends a piece. -/
def Ends (stop : Char → Bool) (r : List Char) : Prop := ∀ c ∈ r.head?, stop c = true

section

variable {stop : Char → Bool} {a b r s : List Char}

theorem Ends.nil : Ends stop [] := by
  simp [Ends]

theorem Ends.cons {c : Char} (h : stop c = true) (r : List Char) : Ends stop (c :: r) := by
  simpa [Ends] using h

theorem takeWhile_append_of_ends (ha : ∀ c ∈ a, stop c = false) (hr : Ends stop r) :
    (a ++ r).takeWhile (fun c => !stop c) = a := by
  rw [List.takeWhile_append_of_pos (by simpa using ha)]
  cases r with
  | nil => simp
  | cons c r => simp [hr c rfl]

/-- Two texts that agree have the same first piece and the same rest. -/
theorem append_inj_of_ends (ha : ∀ c ∈ a, stop c = false) (hb : ∀ c ∈ b, stop c = false)
    (hr : Ends stop r) (hs : Ends stop s) (h : a ++ r = b ++ s) : a = b ∧ r = s := by
  have hPiece := takeWhile_append_of_ends ha hr
  rw [h, takeWhile_append_of_ends hb hs] at hPiece
  subst hPiece
  exact ⟨rfl, List.append_cancel_left h⟩

end

/-! ## Numerals -/

theorem isDigit_of_mem_natDigits {n : Nat} {c : Char} (h : c ∈ natDigits n) :
    c.isDigit = true :=
  Nat.isDigit_of_mem_toDigits (by decide) (by decide) h

theorem not_mem_natDigits {c : Char} (hc : c.isDigit = false) (n : Nat) : c ∉ natDigits n :=
  not_mem_of_forall (fun _ => isDigit_of_mem_natDigits) hc

theorem digitsValue_natDigits (n : Nat) : digitsValue (natDigits n) = n := by
  rw [digitsValue, ← Nat.ofDigitChars_eq_foldl]
  exact Nat.ofDigitChars_ten_toDigits

theorem natDigits_inj {m n : Nat} : natDigits m = natDigits n ↔ m = n :=
  ⟨fun h => by rw [← digitsValue_natDigits m, h, digitsValue_natDigits], congrArg _⟩

/-- The integer that a numeral stands for. -/
def readInt : List Char → Int
  | '-' :: digits => -digitsValue digits
  | digits => digitsValue digits

theorem readInt_intDigits (n : Int) : readInt (intDigits n) = n := by
  cases n with
  | ofNat n =>
    have hSign : ∀ ds, intDigits (Int.ofNat n) ≠ '-' :: ds := by
      intro ds h
      refine not_mem_natDigits (c := '-') rfl n ?_
      rw [show natDigits n = '-' :: ds from h]
      exact List.mem_cons_self
    rw [readInt]
    · exact congrArg Int.ofNat (digitsValue_natDigits n)
    · exact hSign
  | negSucc n =>
    rw [intDigits, readInt, digitsValue_natDigits]
    rfl

theorem of_mem_intDigits {n : Int} {c : Char} (h : c ∈ intDigits n) :
    c.isDigit = true ∨ c = '-' := by
  cases n with
  | ofNat n => exact .inl (isDigit_of_mem_natDigits h)
  | negSucc n =>
    rcases List.mem_cons.mp h with rfl | h
    · exact .inr rfl
    · exact .inl (isDigit_of_mem_natDigits h)

/-- The value of a hexadecimal digit. -/
def hexValue (c : Char) : Nat := if c.isDigit then c.toNat - '0'.toNat else c.toNat - 'a'.toNat + 10

def hexDigitsValue (digits : List Char) : Nat := digits.foldl (fun n c => 16 * n + hexValue c) 0

theorem hexValue_digitChar {n : Nat} (h : n < 16) : hexValue n.digitChar = n := by
  revert h
  revert n
  decide

theorem hexDigitsValue_hexDigits (n : Nat) : hexDigitsValue (hexDigits n) = n := by
  induction n using Nat.strongRecOn with
  | ind n ih =>
    rw [hexDigits, Nat.toDigits_eq_if (by decide)]
    split
    · next h => simpa [hexDigitsValue] using hexValue_digitChar h
    · next h =>
      have hLess : n / 16 < n := by omega
      have hRest := ih _ hLess
      rw [hexDigits, hexDigitsValue] at hRest
      rw [hexDigitsValue, List.foldl_append, hRest]
      simp only [List.foldl_cons, List.foldl_nil, hexValue_digitChar (Nat.mod_lt n (by decide))]
      omega

/-! ## Quoted texts -/

/-- The first character of an escaped text, and what follows it. -/
def unescapeChar? : List Char → Option (Char × List Char)
  | '\\' :: '0' :: cs => some ('\x00', cs)
  | '\\' :: 't' :: cs => some ('\t', cs)
  | '\\' :: 'r' :: cs => some ('\r', cs)
  | '\\' :: 'n' :: cs => some ('\n', cs)
  | '\\' :: 'u' :: '\x7b' :: cs =>
    let digits := cs.takeWhile fun c => !(c == '\x7d')
    some (Char.ofNat (hexDigitsValue digits), cs.drop (digits.length + 1))
  | '\\' :: c :: cs => some (c, cs)
  | c :: cs => some (c, cs)
  | [] => none

theorem isAlphanum_of_mem_hexDigits {n : Nat} {c : Char} (h : c ∈ hexDigits n) :
    c.isAlphanum = true := by
  have hDigit {n : Nat} (hn : n < 16) : n.digitChar.isAlphanum = true := by
    revert hn
    revert n
    decide
  induction n using Nat.strongRecOn with
  | ind n ih =>
    rw [hexDigits, Nat.toDigits_eq_if (by decide)] at h
    split at h
    · next hn =>
      rw [List.mem_singleton.mp h]
      exact hDigit hn
    · next hn =>
      rcases List.mem_append.mp h with h | h
      · exact ih (n / 16) (by omega) h
      · rw [List.mem_singleton.mp h]
        exact hDigit (Nat.mod_lt n (by decide))

theorem not_mem_hexDigits {c : Char} (hc : c.isAlphanum = false) (n : Nat) : c ∉ hexDigits n :=
  not_mem_of_forall (fun _ => isAlphanum_of_mem_hexDigits) hc

theorem unescapeChar?_escapeChar (c : Char) (r : List Char) :
    unescapeChar? (escapeChar '"' c ++ r) = some (c, r) := by
  rw [escapeChar]
  split_ifs with h₀ ht hr hn hBackslash hQuote hPlain
  · rw [h₀]
    rfl
  · rw [ht]
    rfl
  · rw [hr]
    rfl
  · rw [hn]
    rfl
  · rw [hBackslash]
    rfl
  · rw [hQuote]
    rfl
  · rw [List.singleton_append, unescapeChar?]
    all_goals simp [hBackslash]
  · have hDigits : (hexDigits c.toNat ++ '\x7d' :: r).takeWhile (fun c => !(c == '\x7d')) =
        hexDigits c.toNat :=
      takeWhile_append_of_ends (forall_beq_eq_false (not_mem_hexDigits rfl _)) (.cons rfl r)
    simp only [codePointEscape, List.append_assoc, List.cons_append, List.nil_append, unescapeChar?,
      hDigits, hexDigitsValue_hexDigits, Char.ofNat_toNat]
    rw [List.drop_append]
    simp

theorem head_escapeChar (c : Char) (r : List Char) :
    (escapeChar '"' c ++ r).head? ≠ some '"' := by
  rw [escapeChar]
  split_ifs with h₀ ht hr hn hBackslash hQuote hPlain
  all_goals simp_all [codePointEscape]

theorem escape_append_inj {a b r s : List Char}
    (h : escape '"' a ++ '"' :: r = escape '"' b ++ '"' :: s) : a = b ∧ r = s := by
  induction a generalizing b with
  | nil =>
    cases b with
    | nil => exact ⟨rfl, List.cons_inj_right _ |>.mp h⟩
    | cons d b =>
      have hHead := head_escapeChar d (escape '"' b ++ '"' :: s)
      rw [escape_cons, List.append_assoc] at h
      exact absurd (congrArg List.head? h.symm) hHead
  | cons c a ih =>
    rw [escape_cons, List.append_assoc] at h
    cases b with
    | nil => exact absurd (congrArg List.head? h) (head_escapeChar c _)
    | cons d b =>
      rw [escape_cons, List.append_assoc] at h
      have hRead := congrArg unescapeChar? h
      rw [unescapeChar?_escapeChar, unescapeChar?_escapeChar] at hRead
      obtain ⟨rfl, hRest⟩ := Prod.mk.inj (Option.some.inj hRead)
      obtain ⟨rfl, rfl⟩ := ih hRest
      exact ⟨rfl, rfl⟩

/-- A quoted text ends at its closing quote, whatever follows. -/
theorem quote_append_inj {a b : String} {r s : List Char}
    (h : (quote a).toList ++ r = (quote b).toList ++ s) : a = b ∧ r = s := by
  have hText : escape '"' a.toList ++ '"' :: r = escape '"' b.toList ++ '"' :: s := by
    simpa [quote] using h
  obtain ⟨hList, rfl⟩ := escape_append_inj hText
  exact ⟨String.toList_inj.mp hList, rfl⟩

theorem newline_not_mem_escapeChar (c : Char) : '\n' ∉ escapeChar '"' c := by
  rw [escapeChar]
  split_ifs with h₀ ht hr hn hBackslash hQuote hPlain
  · decide
  · decide
  · decide
  · decide
  · decide
  · simp [hQuote]
  · simpa using Ne.symm hn
  · simp [codePointEscape, not_mem_hexDigits (c := '\n') rfl]

/-- A quoted text is on one line. -/
theorem newline_not_mem_quote (text : String) : '\n' ∉ (quote text).toList := by
  simp [quote, escape, newline_not_mem_escapeChar]

end Text

namespace Binary32

/-- Whether a character other than a digit may stand in the text of a number. -/
def isMark (c : Char) : Bool := c ∈ ['-', '.', 'e', 'i', 'n', 'f', 'N', 'a']

theorem of_mem_positional {digits : List Char} (hDigits : ∀ c ∈ digits, c.isDigit = true)
    {exponent : Int} {c : Char} (h : c ∈ positional digits exponent) :
    c.isDigit = true ∨ isMark c = true := by
  simp only [positional] at h
  split_ifs at h
  · simp only [List.mem_append, List.mem_cons, List.mem_replicate, List.not_mem_nil, or_false] at h
    rcases h with ((rfl | rfl) | ⟨-, rfl⟩) | h
    · exact .inl rfl
    · exact .inr rfl
    · exact .inl rfl
    · exact .inl (hDigits c h)
  · simp only [List.mem_append, List.mem_cons, List.mem_replicate, List.not_mem_nil, or_false] at h
    rcases h with (h | ⟨-, rfl⟩) | rfl | rfl
    · exact .inl (hDigits c h)
    · exact .inl rfl
    · exact .inr rfl
    · exact .inl rfl
  · simp only [List.mem_append, List.mem_cons, List.not_mem_nil, or_false] at h
    rcases h with (h | rfl) | h
    · exact .inl (hDigits c (List.mem_of_mem_take h))
    · exact .inr rfl
    · exact .inl (hDigits c (List.mem_of_mem_drop h))

theorem of_mem_scientific {digits : List Char} (hDigits : ∀ c ∈ digits, c.isDigit = true)
    {exponent : Int} {c : Char} (h : c ∈ scientific digits exponent) :
    c.isDigit = true ∨ isMark c = true := by
  simp only [scientific, List.mem_append, List.mem_cons] at h
  rcases h with (h | h) | rfl | h
  · exact .inl (hDigits c (List.mem_of_mem_take h))
  · split_ifs at h
    · cases h
    · rcases List.mem_cons.mp h with rfl | h
      · exact .inr rfl
      · exact .inl (hDigits c (List.mem_of_mem_drop h))
  · exact .inr rfl
  · rcases Text.of_mem_intDigits h with h | rfl
    · exact .inl h
    · exact .inr rfl

theorem of_mem_magnitudeText {x : Binary32} {c : Char} (h : c ∈ x.magnitudeText) :
    c.isDigit = true ∨ isMark c = true := by
  have hDigits : ∀ c ∈ Text.natDigits x.shortest.digits, c.isDigit = true :=
    fun _ => Text.isDigit_of_mem_natDigits
  have hInfinity : ∀ c ∈ ['i', 'n', 'f'], c.isDigit = true ∨ isMark c = true := by
    simp [isMark]
  have hZero : ∀ c ∈ ['0', '.', '0'], c.isDigit = true ∨ isMark c = true := by
    simp [isMark, Char.isDigit]
  rw [magnitudeText, Decimal.text] at h
  split_ifs at h
  · exact hInfinity c h
  · exact hZero c h
  · exact of_mem_positional hDigits h
  · exact of_mem_scientific hDigits h

theorem of_mem_text {x : Binary32} {c : Char} (h : c ∈ x.text.toList) :
    c.isDigit = true ∨ isMark c = true := by
  rw [text, String.toList_ofList] at h
  split_ifs at h
  · have hNaN : ∀ c ∈ ['N', 'a', 'N'], isMark c = true := by simp [isMark]
    exact .inr (hNaN c h)
  · rcases List.mem_cons.mp h with rfl | h
    · exact .inr rfl
    · exact of_mem_magnitudeText h
  · exact of_mem_magnitudeText h

theorem point_mem_positional (digits : List Char) (exponent : Int) :
    '.' ∈ positional digits exponent := by
  simp only [positional]
  split_ifs <;> simp

/-- The text of a number is not one of an integer. -/
theorem exists_mem_text (x : Binary32) : ∃ c ∈ x.text.toList, c.isDigit = false ∧ c ≠ '-' := by
  have hMagnitude : ∃ c ∈ x.magnitudeText, c.isDigit = false ∧ c ≠ '-' := by
    rw [magnitudeText, Decimal.text]
    split_ifs
    · exact ⟨'i', by simp, by decide⟩
    · exact ⟨'.', by simp, by decide⟩
    · exact ⟨'.', point_mem_positional _ _, by decide⟩
    · exact ⟨'e', by simp [scientific], by decide⟩
  obtain ⟨c, hc, hMark⟩ := hMagnitude
  rw [text, String.toList_ofList]
  split_ifs
  · exact ⟨'N', by simp, by decide⟩
  · exact ⟨c, List.mem_cons_of_mem _ hc, hMark⟩
  · exact ⟨c, hc, hMark⟩

end Binary32

end MiniC
