import MiniC.Proofs.Places.Lines

/-! # The tokens of a source tile it

Every lexeme gives one token, so that the tokens, those for line breaks in strings left out, stand
end to end from the start of the source to its end.  A token for a line break stands inside the
string that comes next: behind its opening quote and, if the string is closed, before its last byte.
The lines are right, except that the end of a source of 2³² - 1 line feeds is on line zero.
-/
namespace MiniC
set_option autoImplicit false

namespace Lexeme

/-- A string literal ends with the quote that closes it. -/
theorem exists_take_stringLength? {escaped : Bool} {cs : List Char} {n : Nat}
    (h : stringLength? escaped cs = some n) : ∃ body, cs.take n = body ++ ['"'] := by
  have hLater {c : Char} {cs : List Char} {m : Nat} (h : ∃ body, cs.take m = body ++ ['"']) :
      ∃ body, (c :: cs).take (m + 1) = body ++ ['"'] := by
    obtain ⟨body, hBody⟩ := h
    exact ⟨c :: body, by rw [List.take_succ_cons, hBody, List.cons_append]⟩
  fun_induction stringLength? escaped cs generalizing n with
  | case1 => cases h
  | case2 c cs ih =>
    obtain ⟨m, hm, rfl⟩ := Option.map_eq_some_iff.mp h
    exact hLater (ih hm)
  | case3 cs =>
    cases h
    exact ⟨[], rfl⟩
  | case4 c cs hc ih =>
    obtain ⟨m, hm, rfl⟩ := Option.map_eq_some_iff.mp h
    exact hLater (ih hm)

/-- The lexeme at the front of a text that starts with `c`. -/
def first (c : Char) (cs : List Char) : Lexeme := ⟨(extent c cs).1, c :: cs.take (extent c cs).2⟩

theorem ofText_cons_first (c : Char) (cs : List Char) :
    ofText (c :: cs) = first c cs :: ofText (cs.drop (extent c cs).2) := ofText_cons c cs

/-- A string is closed by a quote, or it is all that is left of the text. -/
theorem first_of_isStringKind {c : Char} {cs : List Char}
    (h : Token.isStringKind (first c cs).kind = true) :
    ∃ body, (first c cs).text = '"' :: body ∧ ((∃ front, body = front ++ ['"']) ∨
      ((first c cs).kind = .flaw .unclosedString ∧ (first c cs).text = c :: cs)) := by
  by_cases hc : c = '"'
  · subst hc
    refine ⟨_, rfl, ?_⟩
    rw [first, extent, if_pos rfl, stringExtent]
    cases hLength : stringLength? false cs with
    | none => exact .inr ⟨rfl, by simp⟩
    | some n => exact .inl (exists_take_stringLength? hLength)
  · rw [show Token.isStringKind (first c cs).kind = false from (extent_of_ne_quote hc cs).1] at h
    cases h

end Lexeme

namespace Token

/-- Whether the token marks a line break in a string. -/
def isLineBreak (t : Token) : Bool := t.kind = .flaw .unescapedLineBreak

/-- The tokens that stand for a lexeme or for the end of the file. -/
def pieces (ts : List Token) : List Token := ts.filter fun t => !t.isLineBreak

/-- Nonempty tokens that stand end to end from one offset to another. -/
def Tiles : Nat → List Token → Nat → Prop
  | lo, [], hi => lo = hi
  | lo, t :: ts, hi => t.span.lo = lo ∧ lo < t.span.hi ∧ Tiles t.span.hi ts hi

/-- The tokens of a source tile it, and the tokens for line breaks stand inside strings; `inside`
says how a line break lies in the string that comes next. -/
structure TileSource (inside : Token → Token → Prop) (source : String) : Prop where
  tiles : ∃ ts, pieces (scan source) = ts ++
      [⟨.eof, ⟨Text.byteLength source.toList, 0, 1 + source.toList.count '\n'⟩, []⟩] ∧
    Tiles 0 ts (Text.byteLength source.toList) ∧ ∀ t ∈ ts, t.kind ≠ .eof
  locates : ∀ t ∈ scan source, t.span.Locates source
  lineBreak : ∀ before b after, scan source = before ++ b :: after → b.isLineBreak = true →
    b.span.slice? source = some "\n" ∧
      ∃ t rest, pieces after = t :: rest ∧ isStringKind t.kind = true ∧ inside b t

/-- The first token lies between the ends of the second and touches neither. -/
def StrictlyInside (b t : Token) : Prop := t.span.lo < b.span.lo ∧ b.span.hi < t.span.hi

/-- The first token lies behind the start of the second and before its end, unless the second is a
string without a closing quote, which ends at `hi`. -/
def InsideString (hi : Nat) (b t : Token) : Prop :=
  t.span.lo < b.span.lo ∧
    (b.span.hi < t.span.hi ∨
      (t.kind = .flaw .unclosedString ∧ b.span.hi = t.span.hi ∧ t.span.hi = hi))

theorem isLineBreak_of_isLexical {t : Token} (h : t.kind.isLexical = true) :
    t.isLineBreak = false := by
  apply decide_eq_false
  intro hKind
  rw [hKind] at h
  cases h

theorem pieces_append (ts us : List Token) : pieces (ts ++ us) = pieces ts ++ pieces us :=
  List.filter_append ts us

theorem pieces_lineBreaks (p : Pos) (escaped : Bool) (text : List Char) :
    pieces (lineBreaks p escaped text) = [] := by
  apply List.filter_eq_nil_iff.mpr
  intro t ht
  simp [isLineBreak, isFlaw_of_mem_lineBreaks ht]

/-- The tokens for the line breaks of a lexeme. -/
def breaksOf (p : Pos) (x : Lexeme) : List Token :=
  if isStringKind x.kind then lineBreaks (p.after (x.text.take 1)) false (x.text.drop 1) else []

theorem ofLexeme_eq (p : Pos) (x : Lexeme) : ofLexeme p x = breaksOf p x ++ [ofSound p x] := rfl

theorem pieces_breaksOf (p : Pos) (x : Lexeme) : pieces (breaksOf p x) = [] := by
  rw [breaksOf]
  split
  · exact pieces_lineBreaks _ _ _
  · rfl

theorem pieces_cons_ofSound {p : Pos} {x : Lexeme} (h : x.kind.isLexical = true)
    (ts : List Token) : pieces (ofSound p x :: ts) = ofSound p x :: pieces ts := by
  have hPiece : (ofSound p x).isLineBreak = false := isLineBreak_of_isLexical h
  exact List.filter_cons_of_pos (by rw [hPiece]; rfl)

theorem tiles_place {p : Pos} {xs : List Lexeme} (hKinds : ∀ x ∈ xs, x.kind.isLexical = true)
    (hTexts : ∀ x ∈ xs, x.text ≠ []) :
    ∃ ts, pieces (place p xs) =
        ts ++ [⟨.eof, (p.after (xs.flatMap Lexeme.text)).spanOf [], []⟩] ∧
      Tiles p.offset ts (p.after (xs.flatMap Lexeme.text)).offset ∧ ∀ t ∈ ts, t.kind ≠ .eof := by
  induction xs generalizing p with
  | nil => exact ⟨[], rfl, rfl, by simp⟩
  | cons x xs ih =>
    obtain ⟨hKind, hKinds⟩ := List.forall_mem_cons.mp hKinds
    obtain ⟨hText, hTexts⟩ := List.forall_mem_cons.mp hTexts
    obtain ⟨ts, hPieces, hTiles, hNotEof⟩ := ih (p := p.after x.text) hKinds hTexts
    have hEnd : (ofSound p x).span.hi = (p.after x.text).offset := (Pos.offset_after p x.text).symm
    have hPos := Text.byteLength_pos hText
    rw [List.flatMap_cons, Pos.after_append]
    refine ⟨ofSound p x :: ts, ?_, ⟨rfl, ?_, hEnd ▸ hTiles⟩, List.forall_mem_cons.mpr ⟨?_, hNotEof⟩⟩
    · rw [place, ofLexeme_eq, List.append_assoc, pieces_append, pieces_breaksOf, List.nil_append,
        List.singleton_append, pieces_cons_ofSound hKind, hPieces, List.cons_append]
    · rw [hEnd, Pos.offset_after]
      omega
    · intro hEof
      rw [show x.kind = .eof from hEof] at hKind
      cases hKind

theorem text_of_mem_lineBreaks {p : Pos} {escaped : Bool} {text : List Char} {b : Token}
    (h : b ∈ lineBreaks p escaped text) : b.text = ['\n'] := by
  fun_induction lineBreaks p escaped text with
  | case1 => cases h
  | case2 p c text ih => exact ih h
  | case3 p text ih =>
    rcases List.mem_cons.mp h with rfl | h
    · rfl
    · exact ih h
  | case4 p c text hc ih => exact ih h

/-- A line feed of a text is one byte, and the last one only if nothing follows it. -/
theorem span_of_mem_lineBreaks {p : Pos} {escaped : Bool} {text : List Char} {b : Token}
    (h : b ∈ lineBreaks p escaped text) :
    p.offset ≤ b.span.lo ∧
      (b.span.hi < (p.after text).offset ∨
        (b.span.hi = (p.after text).offset ∧ ∃ front, text = front ++ ['\n'])) := by
  have hText := text_of_mem_lineBreaks h
  obtain ⟨front, back, rfl, hSpan⟩ := standsIn_of_mem_lineBreaks h
  rw [hText] at hSpan ⊢
  have hLo : b.span.lo = p.offset + Text.byteLength front := by
    rw [hSpan, Pos.spanOf, Pos.offset_after]
  have hHi : b.span.hi = p.offset + Text.byteLength front + 1 := by
    rw [Span.hi, hLo, hSpan]
    rfl
  refine ⟨by omega, ?_⟩
  rw [Pos.offset_after, Text.byteLength_append, Text.byteLength_append]
  cases back with
  | nil => exact .inr ⟨by rw [hHi]; rfl, front, rfl⟩
  | cons c back =>
    have hc := c.utf8Size_pos
    have hFeed : Text.byteLength ['\n'] = 1 := rfl
    rw [hFeed, Text.byteLength_cons]
    exact .inl (by omega)

theorem text_of_mem_breaksOf {p : Pos} {x : Lexeme} {b : Token} (h : b ∈ breaksOf p x) :
    b.text = ['\n'] := by
  rw [breaksOf] at h
  split at h
  · exact text_of_mem_lineBreaks h
  · cases h

theorem kind_of_mem_breaksOf {p : Pos} {x : Lexeme} {b : Token} (h : b ∈ breaksOf p x) :
    b.kind = .flaw .unescapedLineBreak := by
  rw [breaksOf] at h
  split at h
  · exact isFlaw_of_mem_lineBreaks h
  · cases h

/-- A token that stands for a lexeme has the kind and the text of the first lexeme of some text. -/
theorem exists_first_of_mem_place {p : Pos} {cs : List Char} {t : Token}
    (h : t ∈ place p (Lexeme.ofText cs)) (hKind : t.kind.isLexical = true) :
    ∃ c cs', t.kind = (Lexeme.first c cs').kind ∧ t.text = (Lexeme.first c cs').text := by
  induction cs using Lexeme.ofText.induct generalizing p with
  | case1 =>
    rw [Lexeme.ofText_nil, place, List.mem_singleton] at h
    rw [h] at hKind
    cases hKind
  | case2 c cs ih =>
    rw [Lexeme.ofText_cons_first, place, ofLexeme_eq, List.append_assoc, List.mem_append] at h
    rcases h with h | h
    · rw [kind_of_mem_breaksOf h] at hKind
      cases hKind
    · rcases List.mem_cons.mp h with rfl | h
      · exact ⟨c, cs, rfl, rfl⟩
      · exact ih h

/-- A line break of a string stands inside it. -/
theorem insideString_of_mem_breaksOf {p : Pos} {c : Char} {cs : List Char} {b : Token}
    (h : b ∈ breaksOf p (.first c cs)) :
    isStringKind (Lexeme.first c cs).kind = true ∧
      InsideString (p.after (c :: cs)).offset b (ofSound p (.first c cs)) := by
  rw [breaksOf] at h
  split at h
  · next hString =>
    obtain ⟨body, hText, hEnd⟩ := Lexeme.first_of_isStringKind hString
    have hTop : (ofSound p (.first c cs)).span.hi = (p.after ('"' :: body)).offset := by
      rw [← hText, Pos.offset_after]
      rfl
    rw [hText] at h
    obtain ⟨hLo, hHi⟩ := span_of_mem_lineBreaks h
    have hQuote : p.offset + 1 ≤ b.span.lo := hLo
    refine ⟨hString, hQuote, ?_⟩
    rw [hTop]
    rcases hHi with hHi | ⟨hHi, front, hFront⟩
    · exact .inl hHi
    · rcases hEnd with ⟨inner, hInner⟩ | ⟨hKind, hAll⟩
      · -- no character is a quote and a line feed
        have hLast := congrArg List.getLast? (hInner.symm.trans hFront)
        simp at hLast
      · rw [← hText, hAll] at hHi ⊢
        exact .inr ⟨hKind, hHi, rfl⟩
  · cases h

/-- A line break among the tokens of a lexeme and those behind it is one of the lexeme, which then
comes next, or one of those behind. -/
theorem lineBreak_cases {p : Pos} {x : Lexeme} {before after rest : List Token} {b : Token}
    (hKind : x.kind.isLexical = true) (hBreak : b.isLineBreak = true)
    (h : ofLexeme p x ++ rest = before ++ b :: after) :
    (b ∈ breaksOf p x ∧ pieces after = ofSound p x :: pieces rest) ∨
      ∃ front, rest = front ++ b :: after := by
  rw [ofLexeme_eq, List.append_assoc, List.singleton_append] at h
  have hNe : ofSound p x ≠ b := by
    rintro rfl
    rw [isLineBreak_of_isLexical hKind] at hBreak
    cases hBreak
  rcases List.append_eq_append_iff.mp h with ⟨front, -, hRest⟩ | ⟨front, hBreaks, hRest⟩
  · cases front with
    | nil => exact absurd (List.cons.inj hRest).1 hNe
    | cons t front => exact .inr ⟨front, (List.cons.inj hRest).2⟩
  · cases front with
    | nil => exact absurd (List.cons.inj hRest).1.symm hNe
    | cons t front =>
      obtain ⟨rfl, hAfter⟩ := List.cons.inj hRest
      have hPieces := pieces_breaksOf p x
      rw [hBreaks, List.append_cons, pieces_append, List.append_eq_nil_iff] at hPieces
      refine .inl ⟨hBreaks ▸ List.mem_append_right before List.mem_cons_self, ?_⟩
      rw [hAfter, List.append_eq, pieces_append, hPieces.2, pieces_cons_ofSound hKind,
        List.nil_append]

/-- The line breaks among the tokens of a text stand inside strings. -/
theorem insideString_of_place {p : Pos} {cs : List Char} {before after : List Token} {b : Token}
    (h : place p (Lexeme.ofText cs) = before ++ b :: after) (hBreak : b.isLineBreak = true) :
    b.text = ['\n'] ∧ ∃ t rest, pieces after = t :: rest ∧ isStringKind t.kind = true ∧
      InsideString (p.after cs).offset b t := by
  induction cs using Lexeme.ofText.induct generalizing p before with
  | case1 =>
    rw [Lexeme.ofText_nil, place] at h
    have hMem : b ∈ before ++ b :: after := by simp
    rw [← h, List.mem_singleton] at hMem
    rw [hMem] at hBreak
    cases hBreak
  | case2 c cs ih =>
    rw [Lexeme.ofText_cons_first, place] at h
    have hLexical := Lexeme.isLexical_extent c cs
    rcases lineBreak_cases hLexical hBreak h with ⟨hMem, hPieces⟩ | ⟨front, hRest⟩
    · obtain ⟨hString, hInside⟩ := insideString_of_mem_breaksOf hMem
      exact ⟨text_of_mem_breaksOf hMem, _, _, hPieces, hString, hInside⟩
    · obtain ⟨hText, t, rest, hPieces, hString, hInside⟩ := ih hRest
      refine ⟨hText, t, rest, hPieces, hString, ?_⟩
      rwa [← Pos.after_append, Lexeme.first, List.cons_append, List.take_append_drop] at hInside

theorem slice?_of_mem_scan {source : String} {t : Token} (h : t ∈ scan source) :
    t.span.slice? source = some (String.ofList t.text) := by
  obtain ⟨front, back, hText, hSpan⟩ := standsIn_of_mem_place h
  rw [Lexeme.flatMap_text_ofText] at hText
  apply Span.slice?_of_split hText <;> rw [hSpan] <;> simp [Pos.spanOf, Pos.start]

/-- The tokens of a source whose lines can be counted tile it. -/
theorem tileSource_of_linesFit {source : String} (hLines : Text.LinesFit source.toList) :
    TileSource (InsideString (Text.byteLength source.toList)) source := by
  have hOffset : (Pos.start.after source.toList).offset = Text.byteLength source.toList := by
    rw [Pos.offset_after, Pos.start, Nat.zero_add]
  refine ⟨?_, fun t => locates_of_mem_scan hLines, ?_⟩
  · have hTexts : ∀ x ∈ Lexeme.ofText source.toList, x.text ≠ [] :=
      fun x hx => Lexeme.text_ne_nil_of_mem_ofText hx
    obtain ⟨ts, hPieces, hTiles, hNotEof⟩ := tiles_place (p := .start)
      (fun x hx => Lexeme.isLexical_of_mem_ofText hx) hTexts
    rw [Lexeme.flatMap_text_ofText] at hPieces hTiles
    rw [Pos.spanOf, hOffset, hLines.line_after] at hPieces
    exact ⟨ts, hPieces, hOffset ▸ hTiles, hNotEof⟩
  · intro before b after hScan hBreak
    obtain ⟨hText, hInside⟩ := insideString_of_place hScan hBreak
    have hSlice := slice?_of_mem_scan (t := b) (by rw [hScan]; simp)
    rw [hText] at hSlice
    rw [hOffset] at hInside
    exact ⟨hSlice, hInside⟩

theorem scan_lineFeeds {source : String} (h : source.toList = List.replicate 0xffffffff '\n') :
    scan source = [⟨.whitespace, ⟨0, 0xffffffff, 1⟩, source.toList⟩,
      ⟨.eof, ⟨0xffffffff, 0, 0⟩, []⟩] :=
  scan_of_lineFeeds h

/-- The tokens of every source of fewer than 2³² bytes tile it, but for the source that has too many
lines: the line of its end is zero. -/
theorem tileSource (source : String) (hSource : Text.byteLength source.toList < 0x100000000) :
    (source.toList ≠ List.replicate 0xffffffff '\n' →
      TileSource (InsideString (Text.byteLength source.toList)) source) ∧
    (source.toList = List.replicate 0xffffffff '\n' →
      scan source = [⟨.whitespace, ⟨0, 0xffffffff, 1⟩, source.toList⟩,
        ⟨.eof, ⟨0xffffffff, 0, 0⟩, []⟩]) := by
  refine ⟨fun h => tileSource_of_linesFit (Decidable.byContradiction fun hLines => ?_),
    scan_lineFeeds⟩
  exact h ((Text.not_linesFit_iff hSource).mp hLines)

theorem tileSource_escapedBreak :
    TileSource (InsideString 4) (String.ofList ['"', '\\', '\n', '"']) := by
  have hText : (String.ofList ['"', '\\', '\n', '"']).toList = ['"', '\\', '\n', '"'] :=
    String.toList_ofList
  have hTiles := (tileSource (String.ofList ['"', '\\', '\n', '"']) (by rw [hText]; decide)).1
  rw [hText] at hTiles
  refine hTiles fun h => ?_
  exact absurd (List.eq_replicate_iff.mp h).1 (by decide)

/-- An unclosed string may end with the line feed, and a source may have too many lines. -/
theorem not_tileSource :
    ¬ TileSource StrictlyInside (String.ofList ['"', '\n']) ∧
      ¬ TileSource (InsideString 0xffffffff) (String.ofList (List.replicate 0xffffffff '\n')) := by
  constructor
  · intro h
    have hScan : scan (String.ofList ['"', '\n']) = [] ++
        ⟨.flaw .unescapedLineBreak, ⟨1, 1, 1⟩, ['\n']⟩ ::
          [⟨.flaw .unclosedString, ⟨0, 2, 1⟩, ['"', '\n']⟩, ⟨.eof, ⟨2, 0, 2⟩, []⟩] := by
      rw [scan_ofList]
      decide +kernel
    obtain ⟨-, t, rest, hPieces, -, -, hHi⟩ := h.lineBreak _ _ _ hScan rfl
    obtain ⟨rfl, -⟩ := List.cons.inj hPieces
    revert hHi
    decide
  · intro h
    have hScan := scan_lineFeeds (String.toList_ofList (l := List.replicate 0xffffffff '\n'))
    obtain ⟨front, -, -, -, -, -, hLine⟩ := h.locates ⟨.eof, ⟨0xffffffff, 0, 0⟩, []⟩ (by
      rw [hScan]
      exact List.mem_cons_of_mem _ (List.mem_singleton_self _))
    change 0 = 1 + front.count '\n' at hLine
    omega

end Token

end MiniC
