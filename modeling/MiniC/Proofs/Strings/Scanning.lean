import MiniC.Proofs.Places.Tiling

/-! # Where string literals end

A backslash in a string literal escapes the character behind it, which may be a backslash too.  So a
quote or a line feed counts if an even number of backslashes stands right before it.  The first
quote that counts closes the literal, and every line feed that counts is a fault.
-/
namespace MiniC
set_option autoImplicit false

namespace Lexeme

/-- The number of backslashes at the end of a text. -/
def backslashes (front : List Char) : Nat := (front.reverse.takeWhile (· = '\\')).length

theorem backslashes_concat (front : List Char) (c : Char) :
    backslashes (front ++ [c]) = if c = '\\' then backslashes front + 1 else 0 := by
  by_cases hc : c = '\\' <;> simp [backslashes, hc]

/-- The positions of `c` in `text` with an even number of backslashes right before them; `front` is
what stands before the text. -/
def unescaped (c : Char) (front text : List Char) : List Nat :=
  (List.range text.length).filter fun i =>
    text[i]? = some c ∧ backslashes (front ++ text.take i) % 2 = 0

theorem unescaped_cons (c : Char) (front : List Char) (d : Char) (text : List Char) :
    unescaped c front (d :: text) =
      (if d = c ∧ backslashes front % 2 = 0 then [0] else []) ++
        (unescaped c (front ++ [d]) text).map (· + 1) := by
  have hLater : ((List.range text.length).map Nat.succ).filter (fun i =>
      decide ((d :: text)[i]? = some c ∧ backslashes (front ++ (d :: text).take i) % 2 = 0)) =
      (unescaped c (front ++ [d]) text).map (· + 1) := by
    rw [List.filter_map, unescaped]
    congr 1
    apply List.filter_congr
    intro i _
    exact decide_eq_decide.mpr (by simp)
  rw [unescaped, List.length_cons, List.range_succ_eq_map, List.filter_cons, hLater]
  by_cases hHere : d = c ∧ backslashes front % 2 = 0 <;> simp [hHere]

/-- Behind an escaped character no backslash is open; behind any other one it is if that character
is a backslash. -/
theorem odd_backslashes_concat (front : List Char) (c : Char) :
    (backslashes (front ++ [c]) % 2 = 1) ↔ (backslashes front % 2 = 0 ∧ c = '\\') := by
  rw [backslashes_concat]
  by_cases hc : c = '\\'
  · simp only [hc, if_true, and_true]
    omega
  · simp [hc]

/-- A string literal ends with the first quote that counts. -/
theorem stringLength?_eq (front cs : List Char) :
    stringLength? (backslashes front % 2 = 1) cs =
      (unescaped '"' front cs).head?.map (· + 1) := by
  induction cs generalizing front with
  | nil => cases h : decide (backslashes front % 2 = 1) <;> rfl
  | cons c cs ih =>
    have ih := ih (front ++ [c])
    simp only [odd_backslashes_concat] at ih
    rw [unescaped_cons]
    rcases Nat.mod_two_eq_zero_or_one (backslashes front) with hEven | hOdd
    · simp only [hEven, true_and] at ih
      by_cases hQuote : c = '"'
      · simp [stringLength?, hEven, hQuote]
      · simp [stringLength?, hEven, hQuote, ih]
    · simp only [hOdd, Nat.one_ne_zero, false_and, decide_false] at ih
      simp [stringLength?, hOdd, ih]

end Lexeme

namespace Token

open Lexeme (backslashes unescaped)

/-- The tokens for the line feeds of a string that count, where the text of the string behind its
opening quote is at `p`. -/
def countedBreaks (p : Pos) (text : List Char) : List Token :=
  (unescaped '\n' [] text).map fun i =>
    ⟨.flaw .unescapedLineBreak, (p.after (text.take i)).spanOf ['\n'], ['\n']⟩

theorem lineBreaks_eq (p : Pos) (front text : List Char) :
    lineBreaks p (backslashes front % 2 = 1) text = (unescaped '\n' front text).map fun i =>
      ⟨.flaw .unescapedLineBreak, (p.after (text.take i)).spanOf ['\n'], ['\n']⟩ := by
  induction text generalizing p front with
  | nil => cases h : decide (backslashes front % 2 = 1) <;> rfl
  | cons c text ih =>
    have ih := ih (p.next c) (front ++ [c])
    simp only [Lexeme.odd_backslashes_concat] at ih
    rw [Lexeme.unescaped_cons]
    rcases Nat.mod_two_eq_zero_or_one (backslashes front) with hEven | hOdd
    · simp only [hEven, true_and] at ih
      by_cases hFeed : c = '\n'
      · subst hFeed
        simp [lineBreaks, hEven, Function.comp_def, show ¬ '\n' = '\\' by decide] at ih ⊢
        exact ih
      · simp [lineBreaks, hEven, hFeed, ih, Function.comp_def]
    · simp only [hOdd, Nat.one_ne_zero, false_and, decide_false] at ih
      simp [lineBreaks, hOdd, ih, Function.comp_def]

/-- What becomes of a quote at `p` that no other lexeme contains, with `cs` behind it. -/
structure ScansString (p : Pos) (cs : List Char) (tokens : List Token) : Prop where
  /-- The literal goes up to the first quote that counts, and the scan goes on behind it. -/
  closed {i : Nat} : (unescaped '"' [] cs).head? = some i →
    tokens = countedBreaks (p.next '"') (cs.take (i + 1)) ++
      ⟨if '\\' ∈ cs.take i then .escapedString else .string, p.spanOf ('"' :: cs.take (i + 1)),
          '"' :: cs.take (i + 1)⟩ ::
        place (p.after ('"' :: cs.take (i + 1))) (Lexeme.ofText (cs.drop (i + 1)))
  /-- Without such a quote the faulty literal is all that is left of the source. -/
  unclosed : unescaped '"' [] cs = [] →
    tokens = countedBreaks (p.next '"') cs ++
      [⟨.flaw .unclosedString, p.spanOf ('"' :: cs), '"' :: cs⟩,
        ⟨.eof, (p.after ('"' :: cs)).spanOf [], []⟩]

theorem place_cons_string {p : Pos} {x : Lexeme} {xs : List Lexeme} {body : List Char}
    (hKind : isStringKind x.kind = true) (hText : x.text = '"' :: body) :
    place p (x :: xs) = countedBreaks (p.next '"') body ++
      ⟨x.kind, p.spanOf ('"' :: body), '"' :: body⟩ :: place (p.after ('"' :: body)) xs := by
  have hBreaks : lineBreaks (p.next '"') false body = countedBreaks (p.next '"') body :=
    lineBreaks_eq (p.next '"') [] body
  rw [place, ofLexeme_eq, breaksOf, if_pos hKind, ofSound, hText, ← hBreaks, List.append_assoc]
  rfl

theorem scansString (p : Pos) (cs : List Char) :
    ScansString p cs (place p (Lexeme.ofText ('"' :: cs))) := by
  have hLength : Lexeme.stringLength? false cs = (unescaped '"' [] cs).head?.map (· + 1) :=
    Lexeme.stringLength?_eq [] cs
  have hFirst : Lexeme.extent '"' cs = Lexeme.stringExtent cs := if_pos rfl
  rw [Lexeme.ofText_cons, hFirst, Lexeme.stringExtent, hLength]
  constructor
  · intro i hi
    -- the quote itself is no backslash
    have hQuote : cs[i]? = some '"' := by
      have hMem := List.mem_of_mem_head? hi
      rw [unescaped, List.mem_filter] at hMem
      exact (of_decide_eq_true hMem.2).1
    have hEscapes : '\\' ∈ cs.take (i + 1) ↔ '\\' ∈ cs.take i := by
      simp [List.take_add_one, hQuote]
    rw [hi, Option.map_some]
    simp only [hEscapes]
    apply place_cons_string _ rfl
    by_cases h : '\\' ∈ cs.take i <;> simp [h, isStringKind]
  · intro hNone
    rw [hNone, List.head?_nil, Option.map_none]
    simp only [List.take_length, List.drop_length, Lexeme.ofText_nil]
    exact place_cons_string rfl rfl

theorem exists_place_append (p : Pos) (xs ys : List Lexeme) :
    ∃ before, place p (xs ++ ys) = before ++ place (p.after (xs.flatMap Lexeme.text)) ys := by
  induction xs generalizing p with
  | nil => exact ⟨[], rfl⟩
  | cons x xs ih =>
    obtain ⟨before, hBefore⟩ := ih (p.after x.text)
    refine ⟨ofLexeme p x ++ before, ?_⟩
    rw [List.cons_append, place, hBefore, List.append_assoc, List.flatMap_cons, Pos.after_append]

theorem unescape_of_not_mem {text : List Char} (h : '\\' ∉ text) : unescape false text = text := by
  induction text with
  | nil => rfl
  | cons c text ih =>
    rw [List.mem_cons, not_or] at h
    rw [unescape, if_neg (Ne.symm h.1), ih h.2]

/-- A string token has no escapes to resolve. -/
theorem stringValue_eq_escapedStringValue {source : String} {t : Token} (h : t ∈ scan source)
    (hKind : t.kind = .string) : stringValue t.text = escapedStringValue t.text := by
  obtain ⟨c, cs, hFirst, hText⟩ := exists_first_of_mem_place h (by rw [hKind]; rfl)
  rw [hKind] at hFirst
  have hString : isStringKind (Lexeme.first c cs).kind = true := by
    rw [← hFirst]
    rfl
  obtain ⟨body, hBody, -⟩ := Lexeme.first_of_isStringKind hString
  obtain rfl : c = '"' := (List.cons.inj hBody).1
  have hPlain : '\\' ∉ interior t.text := by
    rw [Lexeme.first, Lexeme.extent, if_pos rfl, Lexeme.stringExtent] at hFirst hText
    cases hLength : Lexeme.stringLength? false cs with
    | none =>
      rw [hLength] at hFirst
      cases hFirst
    | some n =>
      simp only [hLength] at hFirst hText
      split at hFirst
      · cases hFirst
      · next hNot =>
        rw [hText]
        exact fun hMem => hNot (List.dropLast_subset _ hMem)
  rw [stringValue, escapedStringValue, unescape_of_not_mem hPlain]

end Token

end MiniC
