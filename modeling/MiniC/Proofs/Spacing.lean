import MiniC.Proofs.Guarded.Scanning
import MiniC.Proofs.Printing.Words
import MiniC.Proofs.Relocation.Sources
import MiniC.Proofs.Strings.Scanning

/-! # Spacing tokens out

To see where a token ends the scanner looks at one or two characters behind it.  If these are blank,
or if there are none, they end every token.  So a token is read in the same way alone, and tokens
with blanks between them are read back one by one.
-/
namespace MiniC
set_option autoImplicit false

namespace Lexeme

/-! ## Looking ahead -/

theorem eq_false_of_isBlank {p : Char → Bool}
    (hp : [' ', '\t', '\n', '\x0c', '\r'].any p = false) {c : Char} (h : isBlank c = true) :
    p c = false := by
  have hMem : c ∈ [' ', '\t', '\n', '\x0c', '\r'] := by simpa [isBlank, or_assoc] using h
  simpa using List.any_eq_false.mp hp c hMem

theorem isWordChar_of_isBlank {c : Char} (h : isBlank c = true) : isWordChar c = false :=
  eq_false_of_isBlank (by decide) h

theorem isDigit_of_isBlank {c : Char} (h : isBlank c = true) : c.isDigit = false :=
  eq_false_of_isBlank (by decide) h

theorem ne_of_isBlank {c d : Char} (h : isBlank c = true) (hd : isBlank d = false) : c ≠ d := by
  rintro rfl
  rw [h] at hd
  cases hd

/-- A blank is not the second character of a symbol. -/
theorem ofPair?_of_isBlank (x : Char) {c : Char} (h : isBlank c = true) :
    Symbol.ofPair? x c = none := by
  rw [Symbol.ofPair?.eq_def]
  split
  all_goals first
    | rfl
    | cases h

theorem runLength_append {p : Char → Bool} {a r : List Char} (ha : ∀ c ∈ a, p c = true)
    (hr : Text.Ends (fun c => !p c) r) : runLength p (a ++ r) = a.length := by
  rw [runLength, List.takeWhile_append_of_pos ha]
  cases r with
  | nil => simp
  | cons c r =>
    have hc : p c = false := by simpa using hr c rfl
    simp [hc]

/-- The characters that the function takes settle its outcome if a blank, or nothing, follows. -/
structure Settled (f : List Char → Kind × Nat) (cs : List Char) : Prop where
  le : (f cs).2 ≤ cs.length
  eq {r : List Char} : Text.Ends isBlank r → f (cs.take (f cs).2 ++ r) = f cs

theorem runLength_take_append {p : Char → Bool} (hp : ∀ c, isBlank c = true → p c = false)
    (cs : List Char) {r : List Char} (hr : Text.Ends isBlank r) :
    runLength p (cs.take (runLength p cs) ++ r) = runLength p cs := by
  rw [take_runLength]
  refine runLength_append (fun c hc => List.all_eq_true.mp List.all_takeWhile c hc) fun c hc => ?_
  simp [hp c (hr c hc)]

theorem stringLength?_take_append {escaped : Bool} {cs : List Char} {n : Nat}
    (h : stringLength? escaped cs = some n) (r : List Char) :
    n ≤ cs.length ∧ stringLength? escaped (cs.take n ++ r) = some n := by
  fun_induction stringLength? escaped cs generalizing n with
  | case1 => cases h
  | case2 c cs ih =>
    obtain ⟨m, hm, rfl⟩ := Option.map_eq_some_iff.mp h
    obtain ⟨hLe, hEq⟩ := ih hm
    refine ⟨Nat.succ_le_succ hLe, ?_⟩
    rw [List.take_succ_cons, List.cons_append, stringLength?, hEq]
    rfl
  | case3 cs =>
    cases h
    exact ⟨Nat.succ_le_succ (Nat.zero_le _), rfl⟩
  | case4 c cs hc ih =>
    obtain ⟨m, hm, rfl⟩ := Option.map_eq_some_iff.mp h
    obtain ⟨hLe, hEq⟩ := ih hm
    refine ⟨Nat.succ_le_succ hLe, ?_⟩
    rw [List.take_succ_cons, List.cons_append, stringLength?, if_neg hc, hEq]
    rfl

theorem settled_stringExtent {cs : List Char} (h : (stringExtent cs).1.isFlaw = false) :
    Settled stringExtent cs := by
  cases hLength : stringLength? false cs with
  | none =>
    rw [stringExtent, hLength] at h
    cases h
  | some n =>
    have hExtent : stringExtent cs =
        (if '\\' ∈ cs.take n then .escapedString else .string, n) := by
      rw [stringExtent, hLength]
    have hLe := (stringLength?_take_append hLength []).1
    constructor
    · rw [hExtent]
      exact hLe
    · intro r _
      rw [hExtent, stringExtent, (stringLength?_take_append hLength r).2]
      simp only [List.take_left' (List.length_take_of_le hLe)]

theorem settled_wordExtent (c : Char) (cs : List Char) : Settled (wordExtent c) cs where
  le := runLength_le isWordChar cs
  eq {r} hr := by
    have hRun := runLength_take_append (fun _ => isWordChar_of_isBlank) cs hr
    change wordExtent c (cs.take (runLength isWordChar cs) ++ r) = _
    simp only [wordExtent, hRun,
      List.take_left' (List.length_take_of_le (runLength_le isWordChar cs))]

section

variable {a r : List Char} (ha : ∀ c ∈ a, c.isDigit = true)

include ha

theorem numberExtent_append (hr : Text.Ends isBlank r) :
    numberExtent (a ++ r) = (.number, a.length) := by
  have hRun : runLength Char.isDigit (a ++ r) = a.length :=
    runLength_append ha fun c hc => by simp [isDigit_of_isBlank (hr c hc)]
  simp only [numberExtent, hRun, List.drop_left]
  cases r with
  | nil => rfl
  | cons c r =>
    have hc : c ≠ '.' := ne_of_isBlank (hr c rfl) (by decide)
    split
    · next hPoint => exact absurd (List.cons.inj hPoint).1 hc
    · rfl

theorem numberExtent_append_decimals {d : Char} (hd : d.isDigit = true) :
    numberExtent (a ++ '.' :: d :: r) =
      (.decimal, a.length + 2 + runLength Char.isDigit r) := by
  have hRun : runLength Char.isDigit (a ++ '.' :: d :: r) = a.length :=
    runLength_append ha (.cons rfl _)
  simp only [numberExtent, hRun, List.drop_left, hd, if_true]

end

/-- A number is a run of digits, or two of them with a point between them. -/
theorem numberExtent_cases (cs : List Char) :
    ∃ a b, cs = a ++ b ∧ (∀ c ∈ a, c.isDigit = true) ∧
      (numberExtent cs = (.number, a.length) ∨
        ∃ d rest, b = '.' :: d :: rest ∧ d.isDigit = true) := by
  have hDigits : ∀ c ∈ cs.takeWhile Char.isDigit, c.isDigit = true :=
    fun c hc => List.all_eq_true.mp List.all_takeWhile c hc
  refine ⟨_, _, List.takeWhile_append_dropWhile.symm, hDigits, ?_⟩
  rw [← drop_runLength]
  simp only [numberExtent]
  split
  · next d rest hPoint =>
    split
    · next hd => exact .inr ⟨d, rest, hPoint, hd⟩
    · exact .inl rfl
  · exact .inl rfl

theorem settled_numberExtent (cs : List Char) : Settled numberExtent cs := by
  obtain ⟨a, b, rfl, ha, hPlain | ⟨d, rest, rfl, hd⟩⟩ := numberExtent_cases cs
  · constructor
    · rw [hPlain, List.length_append]
      exact Nat.le_add_right _ _
    · intro r hr
      rw [hPlain, List.take_left, numberExtent_append ha hr]
  · have hDecimal := numberExtent_append_decimals (r := rest) ha hd
    have hTake : (a ++ '.' :: d :: rest).take (a.length + 2 + runLength Char.isDigit rest) =
        a ++ '.' :: d :: rest.take (runLength Char.isDigit rest) := by
      rw [Nat.add_assoc, List.take_length_add_append, Nat.add_comm 2]
      rfl
    constructor
    · rw [hDecimal, List.length_append, List.length_cons, List.length_cons]
      have hLe := runLength_le Char.isDigit rest
      omega
    · intro r hr
      rw [hDecimal, hTake, List.append_assoc, List.cons_append, List.cons_append,
        numberExtent_append_decimals ha hd,
        runLength_take_append (fun _ => isDigit_of_isBlank) rest hr]

theorem symbolExtent_of_ends (c : Char) {r : List Char} (hr : Text.Ends isBlank r) :
    symbolExtent c r = symbolExtent c [] := by
  cases r with
  | nil => rfl
  | cons d r =>
    have hPair : Symbol.ofPair? c d = none := ofPair?_of_isBlank c (hr d rfl)
    simp [symbolExtent, hPair]

theorem settled_symbolExtent (c : Char) (cs : List Char) : Settled (symbolExtent c) cs := by
  cases hPair : cs.head?.bind (Symbol.ofPair? c) with
  | some s =>
    cases cs with
    | nil => cases hPair
    | cons d cs =>
      have hHere : Symbol.ofPair? c d = some s := hPair
      have hExtent (r : List Char) : symbolExtent c (d :: r) = (.symbol s, 1) := by
        simp [symbolExtent, hHere]
      constructor
      · rw [hExtent]
        exact Nat.succ_le_succ (Nat.zero_le _)
      · intro r _
        rw [hExtent]
        exact hExtent r
  | none =>
    have hExtent : symbolExtent c cs = symbolExtent c [] := by
      simp only [symbolExtent, hPair]
      rfl
    have hZero : (symbolExtent c []).2 = 0 := by
      cases h : Symbol.ofChar? c <;> simp [symbolExtent, h]
    constructor
    · rw [hExtent, hZero]
      exact Nat.zero_le _
    · intro r hr
      rw [hExtent, hZero]
      exact symbolExtent_of_ends c hr

theorem extent_slash_of_ends {r : List Char} (hr : Text.Ends isBlank r) :
    extent '/' r = (.symbol .slash, 0) := by
  rw [extent_slash]
  cases r with
  | nil => rfl
  | cons d r =>
    rw [List.headD_cons, if_neg (ne_of_isBlank (hr d rfl) (by decide)),
      if_neg (ne_of_isBlank (hr d rfl) (by decide))]

theorem settled_slash {cs : List Char} (hTrivia : (extent '/' cs).1.isTrivia = false)
    (hFlaw : (extent '/' cs).1.isFlaw = false) : Settled (extent '/') cs := by
  have hSymbol : extent '/' cs = (.symbol .slash, 0) := by
    rw [extent_slash] at hTrivia hFlaw ⊢
    by_cases hLine : cs.headD '\x00' = '/'
    · rw [if_pos hLine] at hTrivia
      cases hTrivia
    · rw [if_neg hLine] at hTrivia hFlaw ⊢
      by_cases hBlock : cs.headD '\x00' = '*'
      · rw [if_pos hBlock, commentExtent] at hTrivia hFlaw
        cases hLength : commentLength? (cs.drop 1) with
        | none =>
          rw [hLength] at hFlaw
          cases hFlaw
        | some n =>
          rw [hLength] at hTrivia
          cases hTrivia
      · rw [if_neg hBlock]
  constructor
  · rw [hSymbol]
    exact Nat.zero_le _
  · intro r hr
    rw [hSymbol]
    exact extent_slash_of_ends hr

theorem extent_of_isBlank {c : Char} (h : isBlank c = true) (cs : List Char) :
    extent c cs = (.whitespace, runLength isBlank cs) := by
  have hWord : isWordStart c = false := eq_false_of_isBlank (by decide) h
  rw [extent_of_ne (ne_of_isBlank h (by decide)) (ne_of_isBlank h (by decide)), hWord,
    isDigit_of_isBlank h, h]
  rfl

/-- What a token takes settles which token it is. -/
theorem settled_extent {c : Char} {cs : List Char} (hTrivia : (extent c cs).1.isTrivia = false)
    (hFlaw : (extent c cs).1.isFlaw = false) : Settled (extent c) cs := by
  by_cases hQuote : c = '"'
  · have hExtent : extent c = stringExtent := funext fun _ => if_pos hQuote
    rw [hExtent] at hFlaw ⊢
    exact settled_stringExtent hFlaw
  by_cases hSlash : c = '/'
  · subst hSlash
    exact settled_slash hTrivia hFlaw
  cases hBlank : isBlank c with
  | true =>
    rw [extent_of_isBlank hBlank] at hTrivia
    cases hTrivia
  | false =>
    have hExtent := funext (extent_of_ne hQuote hSlash)
    cases hWord : isWordStart c with
    | true =>
      simp only [hWord, if_true] at hExtent
      exact hExtent ▸ settled_wordExtent c cs
    | false =>
      cases hDigit : c.isDigit with
      | true =>
        simp only [hWord, hDigit, if_true, Bool.false_eq_true, if_false] at hExtent
        exact hExtent ▸ settled_numberExtent cs
      | false =>
        simp only [hWord, hDigit, hBlank, Bool.false_eq_true, if_false] at hExtent
        exact hExtent ▸ settled_symbolExtent c cs

/-! ## Reading back -/

/-- A lexeme that the parser reads is read in the same way wherever a blank, or nothing, is behind
it. -/
structure Stands (x : Lexeme) : Prop where
  isTrivia : x.kind.isTrivia = false
  starts : ∃ c cs, x.text = c :: cs ∧ isBlank c = false
  ofText {r : List Char} : Text.Ends isBlank r → ofText (x.text ++ r) = x :: ofText r

theorem stands_first {c : Char} {cs : List Char} (hTrivia : (first c cs).kind.isTrivia = false)
    (hFlaw : (first c cs).kind.isFlaw = false) : (first c cs).Stands where
  isTrivia := hTrivia
  starts := by
    refine ⟨c, _, rfl, ?_⟩
    cases hBlank : isBlank c with
    | false => rfl
    | true =>
      rw [first, extent_of_isBlank hBlank] at hTrivia
      cases hTrivia
  ofText {r} hr := by
    have hSettled := settled_extent hTrivia hFlaw
    have hLength := List.length_take_of_le hSettled.le
    rw [first, List.cons_append, ofText_cons, hSettled.eq hr, List.take_left' hLength,
      List.drop_left' hLength]

theorem stands_of_mem_ofText {cs : List Char} {x : Lexeme} (h : x ∈ ofText cs)
    (hTrivia : x.kind.isTrivia = false) (hFlaw : x.kind.isFlaw = false) : x.Stands := by
  induction cs using ofText.induct with
  | case1 => simp at h
  | case2 c cs ih =>
    rw [ofText_cons_first, List.mem_cons] at h
    rcases h with rfl | h
    · exact stands_first hTrivia hFlaw
    · exact ih h

theorem ofText_blanks_append {gap r : List Char} (hNe : gap ≠ [])
    (hBlank : ∀ c ∈ gap, isBlank c = true) (hr : Text.Ends (fun c => !isBlank c) r) :
    ofText (gap ++ r) = ⟨.whitespace, gap⟩ :: ofText r := by
  obtain ⟨c, gap, rfl⟩ := List.exists_cons_of_ne_nil hNe
  obtain ⟨hHere, hBlank⟩ := List.forall_mem_cons.mp hBlank
  rw [List.cons_append, ofText_cons, extent_of_isBlank hHere, runLength_append hBlank hr,
    List.take_left, List.drop_left]

/-- The text has the texts of the lexemes in their order, with blanks between any two of them. -/
inductive Spaced : List Lexeme → List Char → Prop
  | nil : Spaced [] []
  | cons {x : Lexeme} {xs : List Lexeme} {gap rest : List Char} :
    (∀ c ∈ gap, isBlank c = true) → (xs ≠ [] → gap ≠ []) → Spaced xs rest →
      Spaced (x :: xs) (x.text ++ (gap ++ rest))

namespace Spaced

variable {xs : List Lexeme} {text : List Char}

/-- Texts that are joined with blanks are spaced. -/
theorem intercalate {sep : List Char} (hNe : sep ≠ []) (hBlank : ∀ c ∈ sep, isBlank c = true) :
    (xs : List Lexeme) → Spaced xs (sep.intercalate (xs.map Lexeme.text))
  | [] => .nil
  | [x] => by
    have hLast : Spaced [x] (x.text ++ ([] ++ [])) := .cons nofun (fun h => absurd rfl h) .nil
    simpa using hLast
  | x :: y :: xs => by
    have hRest : Spaced (x :: y :: xs)
        (x.text ++ (sep ++ sep.intercalate ((y :: xs).map Lexeme.text))) :=
      .cons hBlank (fun _ => hNe) (intercalate hNe hBlank (y :: xs))
    simpa [List.intercalate] using hRest

theorem ends (h : Spaced xs text) (hStands : ∀ x ∈ xs, x.Stands) :
    Text.Ends (fun c => !isBlank c) text := by
  cases h with
  | nil => exact .nil
  | @cons x xs gap rest hBlank hGap h =>
    obtain ⟨c, cs, hText, hc⟩ := (hStands x List.mem_cons_self).starts
    rw [hText]
    exact .cons (by rw [hc]; rfl) _

/-- The lexemes of a spaced text are the given ones, and blanks between them. -/
theorem ofText (h : Spaced xs text) (hStands : ∀ x ∈ xs, x.Stands) :
    (Lexeme.ofText text).filter (fun x => !x.kind.isTrivia) = xs ∧
      ∀ x ∈ Lexeme.ofText text, x ∈ xs ∨ x.kind = .whitespace := by
  induction h with
  | nil => simp
  | @cons x xs gap rest hBlank hGap h ih =>
    obtain ⟨hHere, hStands⟩ := List.forall_mem_cons.mp hStands
    obtain ⟨hFilter, hKinds⟩ := ih hStands
    by_cases hEmpty : gap = []
    · obtain rfl : xs = [] := by
        by_cases hNil : xs = []
        · exact hNil
        · exact absurd hEmpty (hGap hNil)
      cases h
      rw [hEmpty, List.append_nil, hHere.ofText .nil]
      simp [hHere.isTrivia]
    · have hEnds : Text.Ends isBlank (gap ++ rest) := by
        obtain ⟨c, gap, rfl⟩ := List.exists_cons_of_ne_nil hEmpty
        exact .cons (hBlank c List.mem_cons_self) _
      rw [hHere.ofText hEnds, ofText_blanks_append hEmpty hBlank (h.ends hStands)]
      constructor
      · rw [List.filter_cons_of_pos (by rw [hHere.isTrivia]; rfl),
          List.filter_cons_of_neg Bool.false_ne_true, hFilter]
      · refine List.forall_mem_cons.mpr ⟨.inl List.mem_cons_self, ?_⟩
        refine List.forall_mem_cons.mpr ⟨.inr rfl, ?_⟩
        exact fun y hy => (hKinds y hy).imp_left (List.mem_cons_of_mem x)

end Spaced

/-- What the lexeme is, wherever it stands. -/
def form (x : Lexeme) : Kind × List Char := (x.kind, x.text)

/-- The lexeme gives one token, which is not faulty, wherever it stands. -/
structure Sound (x : Lexeme) : Prop where
  isFlaw : x.kind.isFlaw = false
  ofLexeme (p : Pos) : Token.ofLexeme p x = [Token.ofSound p x]

theorem sound_of_whitespace {x : Lexeme} (h : x.kind = .whitespace) : x.Sound := by
  constructor
  · rw [h]
    rfl
  · intro p
    simp [Token.ofLexeme, Token.ofSound, h, Token.isStringKind]

end Lexeme

namespace Token

/-- Whether a string has faulty line breaks does not depend on its place. -/
theorem breaksOf_eq_nil {p q : Pos} {x : Lexeme} (h : breaksOf p x = []) : breaksOf q x = [] := by
  rw [breaksOf] at h ⊢
  split at h
  · next hString =>
    rw [if_pos hString]
    have hHere := lineBreaks_eq (p.after (x.text.take 1)) [] (x.text.drop 1)
    have hThere := lineBreaks_eq (q.after (x.text.take 1)) [] (x.text.drop 1)
    have hNone := List.map_eq_nil_iff.mp (hHere.symm.trans h)
    rw [hNone] at hThere
    exact hThere
  · next hString => rw [if_neg hString]

theorem sound_of_flawless {p : Pos} {x : Lexeme}
    (h : ∀ t ∈ ofLexeme p x, t.kind.isFlaw = false) : x.Sound where
  isFlaw := h (ofSound p x) (by rw [ofLexeme_of_flawless h]; exact List.mem_singleton_self _)
  ofLexeme q := by
    have hBreaks : breaksOf p x = [] := by
      have hEq := ofLexeme_of_flawless h
      rw [ofLexeme_eq] at hEq
      exact List.append_left_eq_self.mp hEq
    rw [ofLexeme_eq, breaksOf_eq_nil hBreaks, List.nil_append]

theorem sound_of_place {p : Pos} {xs : List Lexeme}
    (h : ∀ t ∈ place p xs, t.kind.isFlaw = false) : ∀ x ∈ xs, x.Sound := by
  induction xs generalizing p with
  | nil => simp
  | cons x xs ih =>
    obtain ⟨hHere, hRest⟩ := List.forall_mem_append.mp h
    exact List.forall_mem_cons.mpr ⟨sound_of_flawless hHere, ih hRest⟩

/-- Sound lexemes give their own tokens, which are not faulty. -/
theorem place_of_sound {p : Pos} {xs : List Lexeme} (h : ∀ x ∈ xs, x.Sound) :
    (∀ t ∈ place p xs, t.kind.isFlaw = false) ∧
      ((place p xs).dropLast.filter fun t => !t.kind.isTrivia).map form =
        (xs.filter fun x => !x.kind.isTrivia).map Lexeme.form := by
  induction xs generalizing p with
  | nil => exact ⟨by simp [place, Kind.isFlaw], rfl⟩
  | cons x xs ih =>
    obtain ⟨hHere, h⟩ := List.forall_mem_cons.mp h
    obtain ⟨hFlaws, hForms⟩ := ih (p := p.after x.text) h
    have hNe : place (p.after x.text) xs ≠ [] := by
      obtain ⟨front, hFront⟩ := exists_place_eq (p.after x.text) xs
      rw [hFront]
      exact List.append_ne_nil_of_right_ne_nil _ (List.cons_ne_nil _ _)
    rw [place, hHere.ofLexeme, List.singleton_append]
    refine ⟨List.forall_mem_cons.mpr ⟨hHere.isFlaw, hFlaws⟩, ?_⟩
    rw [List.dropLast_cons_of_ne_nil hNe]
    cases hTrivia : x.kind.isTrivia with
    | true =>
      rw [List.filter_cons_of_neg (by simp [ofSound, hTrivia]),
        List.filter_cons_of_neg (by simp [hTrivia]), hForms]
    | false =>
      rw [List.filter_cons_of_pos (by simp [ofSound, hTrivia]),
        List.filter_cons_of_pos (by simp [hTrivia]), List.map_cons, List.map_cons, hForms]
      rfl

/-- The lexemes that the parser reads. -/
def solids (source : String) : List Lexeme :=
  (Lexeme.ofText source.toList).filter fun x => !x.kind.isTrivia

section

variable {source : String} (h : firstFlaw? (scan source) = none)

include h

theorem sound_of_mem_ofText : ∀ x ∈ Lexeme.ofText source.toList, x.Sound :=
  sound_of_place (firstFlaw?_eq_none_iff.mp h)

theorem forms_eq_solids : forms source = (solids source).map Lexeme.form :=
  (place_of_sound (sound_of_mem_ofText h)).2

theorem stands_of_mem_solids : ∀ x ∈ solids source, x.Sound ∧ x.Stands := by
  intro x hx
  obtain ⟨hMem, hTrivia⟩ := List.mem_filter.mp hx
  have hSound := sound_of_mem_ofText h x hMem
  exact ⟨hSound, Lexeme.stands_of_mem_ofText hMem (by simpa using hTrivia) hSound.isFlaw⟩

/-- A text with the same tokens, spaced out, is scanned to these tokens. -/
theorem forms_of_spaced {text : List Char} (hSpaced : Lexeme.Spaced (solids source) text) :
    firstFlaw? (scan (String.ofList text)) = none ∧
      forms (String.ofList text) = forms source := by
  have hSolids := stands_of_mem_solids h
  obtain ⟨hFilter, hKinds⟩ := hSpaced.ofText fun x hx => (hSolids x hx).2
  have hSound : ∀ x ∈ Lexeme.ofText text, x.Sound := by
    intro x hx
    rcases hKinds x hx with hMem | hBlank
    · exact (hSolids x hMem).1
    · exact Lexeme.sound_of_whitespace hBlank
  have hFlawless : firstFlaw? (scan (String.ofList text)) = none := by
    rw [scan_ofList]
    exact firstFlaw?_eq_none_iff.mpr (place_of_sound hSound).1
  refine ⟨hFlawless, ?_⟩
  rw [forms_eq_solids hFlawless, forms_eq_solids h, solids, String.toList_ofList, hFilter]

end

/-- Tokens can be spaced out.  Each token that the parser reads is scanned alone to itself, and if
these tokens are joined with blanks, they are scanned to the same tokens again. -/
theorem scan_respaced {source : String} (h : firstFlaw? (scan source) = none) :
    (∀ t ∈ significant source, scan (String.ofList t.text) =
      [⟨t.kind, Pos.start.spanOf t.text, t.text⟩, ⟨.eof, (Pos.start.after t.text).spanOf [], []⟩]) ∧
    ∀ sep : List Char, sep ≠ [] → (∀ c ∈ sep, Lexeme.isBlank c = true) →
      let joined := String.ofList (sep.intercalate ((significant source).map text))
      firstFlaw? (scan joined) = none ∧ forms joined = forms source := by
  have hForms := forms_eq_solids h
  constructor
  · intro t ht
    obtain ⟨x, hx, hForm⟩ : ∃ x ∈ solids source, x.form = t.form := by
      have hMem : t.form ∈ forms source := List.mem_map_of_mem ht
      rw [hForms] at hMem
      exact List.mem_map.mp hMem
    obtain ⟨hKind, hText⟩ := Prod.mk.inj hForm
    obtain ⟨hSound, hStands⟩ := stands_of_mem_solids h x hx
    have hAlone := hStands.ofText .nil
    rw [List.append_nil, Lexeme.ofText_nil] at hAlone
    rw [scan_ofList, ← hText, ← hKind, hAlone, place, hSound.ofLexeme]
    rfl
  · intro sep hNe hBlank
    have hTexts : (significant source).map text = (solids source).map Lexeme.text := by
      have hSecond := congrArg (List.map Prod.snd) hForms
      rwa [forms, List.map_map, List.map_map] at hSecond
    rw [hTexts]
    exact forms_of_spaced h (.intercalate hNe hBlank _)

/-- Tokens that would be others if they touched. -/
theorem scan_respaced_adjacent :
    let source := "int x=1.5;x++ + +y/*=*/==\"=\\\"\"- -1"
    firstFlaw? (scan source) = none ∧
      ∀ sep ∈ [[' '], ['\n']], sep ≠ [] ∧ (∀ c ∈ sep, Lexeme.isBlank c = true) ∧
        firstFlaw? (scan (String.ofList (sep.intercalate ((significant source).map text)))) = none ∧
        forms (String.ofList (sep.intercalate ((significant source).map text))) = forms source := by
  intro source
  have hFlawless : firstFlaw? (scan source) = none :=
    (congrArg firstFlaw? (scan_ofList _)).trans (by decide +kernel)
  have hSpaces : ∀ c ∈ [' '], Lexeme.isBlank c = true := List.forall_mem_singleton.mpr rfl
  have hFeeds : ∀ c ∈ ['\n'], Lexeme.isBlank c = true := List.forall_mem_singleton.mpr rfl
  obtain ⟨-, hJoined⟩ := scan_respaced hFlawless
  exact ⟨hFlawless, List.forall_mem_cons.mpr
    ⟨⟨nofun, hSpaces, hJoined _ nofun hSpaces⟩, List.forall_mem_singleton.mpr
      ⟨nofun, hFeeds, hJoined _ nofun hFeeds⟩⟩⟩

end Token

end MiniC
