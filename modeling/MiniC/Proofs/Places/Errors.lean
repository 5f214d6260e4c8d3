import MiniC.Proofs.Places.Lines
import MiniC.Proofs.Places.Trees
import MiniC.Proofs.Relocation.Code
import MiniC.Proofs.Relocation.Parser
import MiniC.Proofs.Sources

/-! # Where trees and errors stand

In a parsed program every span goes from the start of a token to the end of one, children lie inside
their parent, and what is in different branches does not meet.  An error of any stage stands at a
piece of the source.

That errors stand only where tokens or parts of the program do is read off the fact that moving the
input moves the error: the input does not change when every other place is moved.
-/
namespace MiniC
set_option autoImplicit false

namespace Span

/-- Leaves the given spans as they are, and no other. -/
def fixing (spans : List Span) (s : Span) : Span :=
  if s ∈ spans then s else ⟨s.lo, s.len + 1, s.line⟩

variable {spans : List Span} {s : Span}

theorem fixing_of_mem (h : s ∈ spans) : fixing spans s = s := if_pos h

theorem mem_of_fixing_eq (h : fixing spans s = s) : s ∈ spans := by
  rw [fixing] at h
  split at h
  · assumption
  · have hLen := congrArg Span.len h
    simp at hLen

@[simp] theorem lo_fixing (spans : List Span) (s : Span) : (fixing spans s).lo = s.lo := by
  rw [fixing]
  split <;> rfl

/-- From the start of one piece of the source to the end of another one. -/
theorem locates_of_ends {source : String} {t u : Span} (ht : t.Locates source)
    (hu : u.Locates source) (hLo : s.lo = t.lo) (hLine : s.line = t.line) (hHi : s.hi = u.hi)
    (hLe : t.hi ≤ u.hi) : s.Locates source := by
  obtain ⟨front, text, back, hSource, hFront, hText, hFeeds⟩ := ht
  obtain ⟨front', text', back', hSource', hFront', hText', -⟩ := hu
  simp only [Span.hi, hFront, hFront', hText, hText'] at hHi hLe hLo
  have hAll : front ++ (text ++ back) = (front' ++ text') ++ back' := by
    rw [← hSource, hSource', List.append_assoc]
  rcases List.append_eq_append_iff.mp hAll with ⟨between, hStart, hEnd⟩ | ⟨more, rfl, hEnd⟩
  · have hLength := congrArg Text.byteLength hStart
    simp only [Text.byteLength_append] at hLength
    refine ⟨front, between, back', ?_, hLo, by omega, by rw [hLine, hFeeds]⟩
    rw [hSource', ← List.append_assoc, hStart, List.append_assoc]
  · -- The first piece cannot start after the end of the second.
    simp only [Text.byteLength_append] at hLe hLo
    have hMore : more = [] := by
      by_cases hNe : more = []
      · exact hNe
      · have hPos := Text.byteLength_pos hNe
        omega
    subst hMore
    refine ⟨front' ++ text', [], back', by simpa using hSource', ?_, ?_, ?_⟩
    · simpa using hLo
    · simp only [Text.byteLength_nil, Nat.add_zero] at hLe hLo ⊢
      omega
    · simpa [hLine] using hFeeds

end Span

open MiniC.Span (fixing fixing_of_mem mem_of_fixing_eq)

/-- The parser complains about one of its tokens. -/
theorem Parser.exists_token_of_program_error {s : Stream} {e : Located ParseError}
    (h : Parser.program s = .error e) : ∃ t ∈ s.eof :: s.rest, e.span = t.span := by
  -- The tokens stay where they are and all other places move, so an error that stays is at a token.
  let M : Motion := ⟨id, fixing ((s.eof :: s.rest).map Token.span), fun _ _ => rfl⟩
  have hPlaces : M.PlacesAll s := fun t ht => fixing_of_mem (List.mem_map_of_mem ht)
  have hSame : s.mapSpan M.move = s := by
    change Stream.mk (s.rest.map id) _ _ = _
    rw [List.map_id]
    rfl
  have hMoved := Motion.program_moves.run_eq hPlaces
  rw [hSame, h] at hMoved
  have hSpan := (congrArg Located.span (Except.error.inj hMoved)).symm
  obtain ⟨t, ht, hEq⟩ := List.mem_map.mp (mem_of_fixing_eq hSpan)
  exact ⟨t, ht, hEq.symm⟩

namespace Program

variable {p : Program Unit} {p' : Program Ty}

theorem check_fixing (p : Program Unit) :
    p.check = relocate (fixing p.spans) (Program.mapSpan (fixing p.spans)) p.check := by
  rw [← Program.check_mapSpan, p.mapSpan_eq_self fun _ hs => fixing_of_mem hs]

/-- A type error stands at a part of the program. -/
theorem mem_spans_of_check_error {e : Located TypeError} (h : p.check = .error e) :
    e.span ∈ p.spans := by
  have hMoved := p.check_fixing
  rw [h] at hMoved
  exact mem_of_fixing_eq (congrArg Located.span (Except.error.inj hMoved)).symm

/-- Checking brings in no new place. -/
theorem mem_spans_of_check {s : Span} (h : p.check = .ok p') (hs : s ∈ p'.spans) : s ∈ p.spans := by
  have hMoved := p.check_fixing
  rw [h] at hMoved
  have hSpans : p'.spans.map (fixing p.spans) = p'.spans.map id := by
    rw [List.map_id, ← Program.spans_mapSpan, ← Except.ok.inj hMoved]
  exact mem_of_fixing_eq (List.map_inj_left.mp hSpans s hs)

/-- An error in making the module stands at a part of the program. -/
theorem mem_spans_of_emit_error {e : Located CodeError} (h : p'.emit = .error e) :
    e.span ∈ p'.spans := by
  let R : Relocation :=
    ⟨fixing p'.spans, id, fun _ => True, fun s => Span.lo_fixing _ s, fun _ _ h => h⟩
  have hMoved := p'.emit_mapSpan (R := R) fun _ _ => trivial
  rw [p'.mapSpan_eq_self fun _ hs => fixing_of_mem hs, h] at hMoved
  exact mem_of_fixing_eq (congrArg Located.span (Except.error.inj hMoved)).symm

end Program

section

variable {source : String} {p : Program Unit} (hLines : Text.LinesFit source.toList)

include hLines

theorem Program.locates_of_mem_spans (h : Program.parse source = .ok p) {s : Span}
    (hs : s ∈ p.spans) : s.Locates source := by
  obtain ⟨t, ht, u, hu, hLo, hLine, hHi, hLe⟩ := Program.exists_tokens_of_mem_spans h hs
  exact Span.locates_of_ends
    (Token.locates_of_mem_scan hLines (Token.mem_scan_of_mem_significant ht))
    (Token.locates_of_mem_scan hLines (Token.mem_scan_of_mem_significant hu)) hLo hLine hHi hLe

theorem Program.locates_of_parse_error {f : Failure} (h : Program.parse source = .error f) :
    f.span.Locates source := by
  cases hFlaw : Token.firstFlaw? (Token.scan source) with
  | some e =>
    simp only [Program.parse, hFlaw] at h
    cases h
    obtain ⟨t, ht, hFlaw⟩ := List.exists_of_findSome?_eq_some hFlaw
    have hSpan : e.span = t.span := by
      rw [Token.flaw?] at hFlaw
      split at hFlaw <;> cases hFlaw
      rfl
    rw [Failure.span, hSpan]
    exact Token.locates_of_mem_scan hLines ht
  | none =>
    rw [Program.parse_of_flawless hFlaw] at h
    cases hRun : Parser.program ⟨Token.significant source, Token.endOf source, .start⟩ with
    | ok r =>
      rw [hRun] at h
      cases h
    | error e =>
      rw [hRun] at h
      cases h
      obtain ⟨t, ht, hSpan⟩ := Parser.exists_token_of_program_error hRun
      rw [Failure.span, hSpan]
      rcases List.mem_cons.mp ht with rfl | ht
      · exact Token.locates_of_mem_scan hLines Token.endOf_mem_scan
      · exact Token.locates_of_mem_scan hLines (Token.mem_scan_of_mem_significant ht)

theorem locates_of_compile_error {f : Failure} (h : compile source = .error f) :
    f.span.Locates source := by
  rw [compile, checkSource] at h
  cases hParse : Program.parse source with
  | error f' =>
    rw [hParse] at h
    cases h
    exact Program.locates_of_parse_error hLines hParse
  | ok p =>
    simp only [hParse, bind, Except.bind] at h
    cases hCheck : p.check with
    | error e =>
      rw [hCheck] at h
      cases h
      exact Program.locates_of_mem_spans hLines hParse (Program.mem_spans_of_check_error hCheck)
    | ok p' =>
      rw [hCheck] at h
      change p'.moduleText = .error f at h
      rw [Program.moduleText] at h
      cases hEmit : p'.emit with
      | error e =>
        rw [hEmit] at h
        cases h
        exact Program.locates_of_mem_spans hLines hParse
          (Program.mem_spans_of_check hCheck (Program.mem_spans_of_emit_error hEmit))
      | ok m =>
        rw [hEmit] at h
        cases h

end

/-- If a source has too many lines, there is no part of a program in it. -/
theorem Program.linesFit_of_mem_spans {source : String} {p : Program Unit}
    (hSource : Text.byteLength source.toList < 0x100000000) (hParse : Program.parse source = .ok p)
    {s : Span} (hs : s ∈ p.spans) : Text.LinesFit source.toList := by
  refine Decidable.byContradiction fun hLines => ?_
  rw [Program.parse_of_lineFeeds ((Text.not_linesFit_iff hSource).mp hLines)] at hParse
  cases hParse
  cases hs

/-- If a source has too many lines, nothing is wrong with it. -/
theorem linesFit_of_compile_error {source : String} {f : Failure}
    (hSource : Text.byteLength source.toList < 0x100000000) (h : compile source = .error f) :
    Text.LinesFit source.toList := by
  refine Decidable.byContradiction fun hLines => ?_
  obtain ⟨text, hText⟩ := compile_of_lineFeeds ((Text.not_linesFit_iff hSource).mp hLines)
  rw [hText] at h
  cases h

/-- Locations are right in every tree and in every error: the spans of a parsed program are not
empty, start and end with tokens of the source and carry the line they start on; they are nested as
the tree is, and branches follow one another.  What is wrong with a source is wrong with a piece of
it. -/
theorem places_of_source (source : String)
    (hSource : Text.byteLength source.toList < 0x100000000) :
    (∀ p, Program.parse source = .ok p →
      (∀ s ∈ p.spans, s.lo < s.hi ∧ s.hi ≤ Text.byteLength source.toList ∧ s.Locates source ∧
        ∃ t ∈ Token.scan source, ∃ u ∈ Token.scan source,
          s.lo = t.span.lo ∧ s.hi = u.span.hi) ∧
      SpanTree.NestedAll p.spanTrees) ∧
    ∀ f, compile source = .error f → f.span.Locates source := by
  refine ⟨fun p hParse => ⟨fun s hs => ?_, Program.spanTrees_nested hParse⟩, fun f hError => ?_⟩
  · have hLines := Program.linesFit_of_mem_spans hSource hParse hs
    have hLocates := Program.locates_of_mem_spans hLines hParse hs
    obtain ⟨t, ht, u, hu, hLo, -, hHi, hLe⟩ := Program.exists_tokens_of_mem_spans hParse hs
    have hPos := Token.significant_lo_lt_hi (Program.firstFlaw?_of_parse hParse) ht
    exact ⟨by omega, hLocates.hi_le, hLocates, t, Token.mem_scan_of_mem_significant ht, u,
      Token.mem_scan_of_mem_significant hu, hLo, hHi⟩
  · exact locates_of_compile_error (linesFit_of_compile_error hSource hError) hError

/-- A jump on the third line, with no loop around it. -/
def strayJump : Failure := .emit ⟨⟨70, 6, 3⟩, .outsideLoop .break_⟩

/-- A source that parses, with a comment, parentheses, a loop that tests last and letters of two
bytes; what is wrong with it is the jump. -/
def jumpAfterLoop : { source : String //
    compile source = .error strayJump ∧ (Program.parse source).isOk = true ∧
      Text.byteLength source.toList < 0x100000000 } :=
  ⟨"char* a;\nvoid f() \x7b /* é */ a[(1)] = 2; do \x7b a = \"é\"; \x7d while (a);\n break; \x7d",
    (compile_ofList _).trans (eq_error_of_failsWith (by decide +kernel)),
    (congrArg Except.isOk (Program.parse_ofList _)).trans (by decide +kernel), by decide +kernel⟩

theorem places_of_source_jump :
    Text.byteLength jumpAfterLoop.1.toList < 0x100000000 ∧
    (∃ p, Program.parse jumpAfterLoop.1 = .ok p ∧ SpanTree.NestedAll p.spanTrees ∧
      ∀ s ∈ p.spans, s.Locates jumpAfterLoop.1) ∧
    compile jumpAfterLoop.1 = .error strayJump ∧ strayJump.span.Locates jumpAfterLoop.1 := by
  obtain ⟨hCompile, hOk, hSource⟩ := jumpAfterLoop.2
  obtain ⟨hTree, hError⟩ := places_of_source jumpAfterLoop.1 hSource
  refine ⟨hSource, ?_, hCompile, hError strayJump hCompile⟩
  cases hParse : Program.parse jumpAfterLoop.1 with
  | error f =>
    rw [hParse] at hOk
    cases hOk
  | ok p =>
    obtain ⟨hSpans, hNested⟩ := hTree p hParse
    exact ⟨p, rfl, hNested, fun s hs => (hSpans s hs).2.2.1⟩

end MiniC
