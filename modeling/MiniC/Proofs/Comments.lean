import Mathlib.Data.Nat.Find
import MiniC.Proofs.Guarded.Scanning
import MiniC.Proofs.Strings.Scanning

/-! # Where block comments end

A block comment ends with the first `*/` behind its two opening characters; the star of the opening
is not part of it.  A comment without one takes all that is left of the source and is faulty.  The
scanner with a cursor goes from star to star: it skips the stars behind one and then one character
more, which it does not look at again.  It finds the same end.
-/
namespace MiniC
set_option autoImplicit false

namespace Lexeme

/-- A closer stands behind the first `i` characters of the text. -/
def ClosesAt (cs : List Char) (i : Nat) : Prop := ['*', '/'] <+: cs.drop i

instance (cs : List Char) (i : Nat) : Decidable (ClosesAt cs i) :=
  inferInstanceAs (Decidable (['*', '/'] <+: cs.drop i))

/-- The first closer of the text stands behind its first `i` characters. -/
def FirstCloser (cs : List Char) (i : Nat) : Prop := ClosesAt cs i ∧ ∀ j < i, ¬ ClosesAt cs j

instance (cs : List Char) (i : Nat) : Decidable (FirstCloser cs i) :=
  inferInstanceAs (Decidable (ClosesAt cs i ∧ ∀ j < i, ¬ ClosesAt cs j))

theorem not_closesAt_nil (i : Nat) : ¬ ClosesAt [] i := by
  simp [ClosesAt]

theorem closesAt_cons_zero {c : Char} {cs : List Char} :
    ClosesAt (c :: cs) 0 ↔ c = '*' ∧ cs.head? = some '/' := by
  cases cs <;> simp [ClosesAt, List.cons_prefix_cons, eq_comm]

theorem firstCloser_cons_of_closesAt {c : Char} {cs : List Char} (h : ClosesAt (c :: cs) 0)
    {i : Nat} : FirstCloser (c :: cs) i ↔ i = 0 := by
  constructor
  · rintro ⟨-, hNone⟩
    exact Nat.eq_zero_of_not_pos fun hPos => hNone 0 hPos h
  · rintro rfl
    exact ⟨h, fun j hj => absurd hj (Nat.not_lt_zero j)⟩

theorem firstCloser_cons_of_not_closesAt {c : Char} {cs : List Char}
    (h : ¬ ClosesAt (c :: cs) 0) {i : Nat} :
    FirstCloser (c :: cs) i ↔ ∃ j, i = j + 1 ∧ FirstCloser cs j := by
  constructor
  · rintro ⟨hCloses, hNone⟩
    cases i with
    | zero => exact absurd hCloses h
    | succ j => exact ⟨j, rfl, hCloses, fun k hk => hNone (k + 1) (Nat.succ_lt_succ hk)⟩
  · rintro ⟨j, rfl, hCloses, hNone⟩
    refine ⟨hCloses, fun k hk => ?_⟩
    cases k with
    | zero => exact h
    | succ k => exact hNone k (Nat.lt_of_succ_lt_succ hk)

/-- A comment ends with the first closer. -/
theorem commentLength?_eq_some_iff {cs : List Char} {n : Nat} :
    commentLength? cs = some n ↔ ∃ i, FirstCloser cs i ∧ n = i + 2 := by
  induction cs generalizing n with
  | nil => simp [commentLength?, FirstCloser, not_closesAt_nil]
  | cons c cs ih =>
    by_cases hHere : ClosesAt (c :: cs) 0
    · rw [commentLength?, if_pos (closesAt_cons_zero.mp hHere)]
      simp [firstCloser_cons_of_closesAt hHere, eq_comm]
    · rw [commentLength?, if_neg (mt closesAt_cons_zero.mpr hHere), Option.map_eq_some_iff]
      simp only [ih, firstCloser_cons_of_not_closesAt hHere]
      constructor
      · rintro ⟨_, ⟨i, hFirst, rfl⟩, rfl⟩
        exact ⟨i + 1, ⟨i, rfl, hFirst⟩, rfl⟩
      · rintro ⟨_, ⟨i, rfl, hFirst⟩, rfl⟩
        exact ⟨i + 2, ⟨i, hFirst, rfl⟩, rfl⟩

theorem exists_firstCloser {cs : List Char} {i : Nat} (h : ClosesAt cs i) :
    ∃ j, FirstCloser cs j := by
  have hExists : ∃ j, ClosesAt cs j := ⟨i, h⟩
  exact ⟨Nat.find hExists, Nat.find_spec hExists, fun _ => Nat.find_min hExists⟩

theorem commentExtent_of_firstCloser {cs : List Char} {i : Nat} (h : FirstCloser cs i) :
    commentExtent cs = (.blockComment, i + 3) := by
  rw [commentExtent, commentLength?_eq_some_iff.mpr ⟨i, h, rfl⟩]

theorem commentExtent_of_not_closesAt {cs : List Char} (h : ∀ i, ¬ ClosesAt cs i) :
    commentExtent cs = (.flaw .unclosedComment, cs.length + 1) := by
  have hNone : commentLength? cs = none := by
    rw [Option.eq_none_iff_forall_ne_some]
    intro n hSome
    obtain ⟨i, hFirst, -⟩ := commentLength?_eq_some_iff.mp hSome
    exact h i hFirst.1
  rw [commentExtent, hNone]

theorem extent_comment (cs : List Char) : extent '/' ('*' :: cs) = commentExtent cs := by
  rw [extent_slash]
  rfl

end Lexeme

namespace Token

open Lexeme (ClosesAt FirstCloser)

/-- What becomes of `/*` at `p`, where a token starts, with `cs` behind it: the token and those that
come after it. -/
structure ScansComment (p : Pos) (cs : List Char) (t : Token) (after : List Token) : Prop where
  span : t.span = p.spanOf t.text
  closed_iff : t.kind = .blockComment ↔ ∃ i, ClosesAt cs i
  unclosed_iff : t.kind = .flaw .unclosedComment ↔ ∀ i, ¬ ClosesAt cs i
  /-- The comment ends behind the first closer, and the scan goes on there. -/
  closed {i : Nat} : FirstCloser cs i → t.text = '/' :: '*' :: cs.take (i + 2) ∧
    after = place (p.after t.text) (Lexeme.ofText (cs.drop (i + 2)))
  /-- Without a closer the comment is all that is left of the source. -/
  unclosed : (∀ i, ¬ ClosesAt cs i) → t.text = '/' :: '*' :: cs ∧
    after = [⟨.eof, (p.after t.text).spanOf [], []⟩]

theorem exists_scansComment (p : Pos) (cs : List Char) :
    ∃ t after, place p (Lexeme.ofText ('/' :: '*' :: cs)) = t :: after ∧
      ScansComment p cs t after := by
  have hFirst : place p (Lexeme.ofText ('/' :: '*' :: cs)) =
      ofSound p (.first '/' ('*' :: cs)) :: place (p.after (Lexeme.first '/' ('*' :: cs)).text)
        (Lexeme.ofText (('*' :: cs).drop (Lexeme.extent '/' ('*' :: cs)).2)) := by
    have hPlain : isStringKind (Lexeme.first '/' ('*' :: cs)).kind = false :=
      (Lexeme.extent_of_ne_quote (by decide) _).1
    rw [Lexeme.ofText_cons_first, place, ofLexeme_eq, breaksOf, hPlain]
    rfl
  have hOther : Kind.blockComment ≠ .flaw .unclosedComment := by decide
  refine ⟨_, _, hFirst, ?_⟩
  rw [Lexeme.first, Lexeme.extent_comment]
  by_cases hCloses : ∃ i, ClosesAt cs i
  · obtain ⟨i, hFirst⟩ := hCloses.elim fun _ => Lexeme.exists_firstCloser
    rw [Lexeme.commentExtent_of_firstCloser hFirst]
    have hNot : ¬ ∀ j, ¬ ClosesAt cs j := fun hNone => hNone i hFirst.1
    refine ⟨rfl, iff_of_true rfl hCloses, iff_of_false hOther hNot, fun {j} hj => ?_,
      fun hNone => ?_⟩
    · -- there is only one first closer
      have hLength := Lexeme.commentLength?_eq_some_iff.mpr ⟨j, hj, rfl⟩
      rw [Lexeme.commentLength?_eq_some_iff.mpr ⟨i, hFirst, rfl⟩] at hLength
      obtain rfl : i = j := Nat.add_right_cancel (Option.some.inj hLength)
      exact ⟨rfl, rfl⟩
    · exact absurd hNone hNot
  · have hNone : ∀ i, ¬ ClosesAt cs i := not_exists.mp hCloses
    rw [Lexeme.commentExtent_of_not_closesAt hNone]
    refine ⟨rfl, iff_of_false hOther.symm hCloses, iff_of_true rfl hNone, fun hFirst => ?_,
      fun _ => ?_⟩
    · exact absurd hFirst.1 (hNone _)
    · simp [ofSound, place]

end Token

namespace Scanner

open Guarded (Gives)
open Lexeme (ClosesAt FirstCloser)

/-- What the loop of the scanner does from a cursor behind a slash, with a star and `cs` left. -/
structure ClosesComment (checked : Bool) (cs : List Char) (c : Cursor) : Prop where
  closed {i : Nat} : FirstCloser cs i →
    Gives (blockComment checked) c .blockComment (c.skip (i + 3))
  unclosed : (∀ i, ¬ ClosesAt cs i) →
    Gives (blockComment checked) c (.flaw .unclosedComment) (c.skip (cs.length + 1))

theorem closesComment {checked : Bool} {cs : List Char} {c : Cursor} (hRoom : c.Roomy checked)
    (h : c.rest = '*' :: cs) : ClosesComment checked cs c := by
  have hGives := blockComment_gives hRoom h
  constructor
  · intro i hFirst
    rwa [Lexeme.commentExtent_of_firstCloser hFirst] at hGives
  · intro hNone
    rwa [Lexeme.commentExtent_of_not_closesAt hNone] at hGives

end Scanner

namespace Token

/-- Block comments end with the first closer.  Where a token of a source starts with `/*`, it is a
comment up to the end of the first `*/` behind these two characters, or, if there is none, a faulty
one up to the end of the source; and the loop of the scanner stops there, with checked sums as long as
the lines that are left can be counted. -/
theorem comments_end_at_first_closer :
    (∀ (source : String) (xs : List Lexeme) (cs : List Char),
      Lexeme.ofText source.toList = xs ++ Lexeme.ofText ('/' :: '*' :: cs) →
      ∃ before t after, scan source = before ++ t :: after ∧
        ScansComment (Pos.start.after (xs.flatMap Lexeme.text)) cs t after) ∧
    ∀ (checked : Bool) (cs : List Char) (c : Cursor), c.Roomy checked → c.rest = '*' :: cs →
      Scanner.ClosesComment checked cs c := by
  refine ⟨fun source xs cs hText => ?_, fun checked cs c => Scanner.closesComment⟩
  obtain ⟨before, hBefore⟩ := exists_place_append .start xs (Lexeme.ofText ('/' :: '*' :: cs))
  obtain ⟨t, after, hPlace, hScans⟩ :=
    exists_scansComment (Pos.start.after (xs.flatMap Lexeme.text)) cs
  refine ⟨before, t, after, ?_, hScans⟩
  rw [scan, hText, hBefore, hPlace]

/-- A name, a comment with a run of stars before its end, and what looks like another closer. -/
def starred : List Char := ['x', '/', '*', '/', '*', '*', '*', '/', '*', '/']

/-- The comment of `starred` starts with a slash, which does not close it, and ends behind its last
star; what is left of an unclosed one is read to its end. -/
theorem comments_end_at_first_closer_stars :
    (Lexeme.ofText starred =
        [⟨.identifier, ['x']⟩] ++ Lexeme.ofText ('/' :: '*' :: starred.drop 3) ∧
      ∃ before t after, scan (String.ofList starred) = before ++ t :: after ∧
        t.kind = .blockComment ∧ t.span = ⟨1, 7, 1⟩ ∧ after =
          [⟨.symbol .star, ⟨8, 1, 1⟩, ['*']⟩, ⟨.symbol .slash, ⟨9, 1, 1⟩, ['/']⟩,
            ⟨.eof, ⟨10, 0, 1⟩, []⟩]) ∧
    ((⟨['*', '/', '*'], .start, .start, []⟩ : Cursor).Roomy true ∧
      (⟨['*', '/', '*'], .start, .start, []⟩ : Cursor).rest = '*' :: ['/', '*'] ∧
      Guarded.Gives (Scanner.blockComment true) ⟨['*', '/', '*'], .start, .start, []⟩
        (.flaw .unclosedComment) ⟨[], ⟨3, 1⟩, .start, []⟩) := by
  obtain ⟨hScan, hLoop⟩ := comments_end_at_first_closer
  have hRoom : (⟨['*', '/', '*'], .start, .start, []⟩ : Cursor).Roomy true := fun _ => by decide
  refine ⟨?_, hRoom, rfl, ?_⟩
  · have hText : Lexeme.ofText starred =
        [⟨.identifier, ['x']⟩] ++ Lexeme.ofText ('/' :: '*' :: starred.drop 3) := by decide +kernel
    have hFirst : Lexeme.FirstCloser (starred.drop 3) 3 := by decide
    obtain ⟨before, t, after, hTokens, hT⟩ := hScan (String.ofList starred)
      [⟨.identifier, ['x']⟩] (starred.drop 3) (by rwa [String.toList_ofList])
    obtain ⟨hComment, hAfter⟩ := hT.closed hFirst
    refine ⟨hText, before, t, after, hTokens, hT.closed_iff.mpr ⟨3, hFirst.1⟩, ?_, ?_⟩
    · rw [hT.span, hComment]
      rfl
    · rw [hAfter, hComment]
      decide +kernel
  · have hNone : ∀ i, ¬ Lexeme.ClosesAt ['/', '*'] i := by
      intro i
      match i with
      | 0 => decide
      | 1 => decide
      | i + 2 => exact Lexeme.not_closesAt_nil i
    exact (hLoop true ['/', '*'] _ hRoom rfl).unclosed hNone

end Token

end MiniC
