import MiniC.Proofs.Sources

/-! # Where tokens stand

Every token, a faulty one too, has the span of its own text.  In a source without faulty tokens the
tokens follow one another, none of them is empty except the last, and only the last one marks the
end of the file.
-/
namespace MiniC
set_option autoImplicit false

/-- The span of a piece of the source: it starts and ends between characters, inside the source, and
its line is one more than the number of line feeds before it. -/
def Span.Locates (source : String) (s : Span) : Prop :=
  ∃ front text back, source.toList = front ++ (text ++ back) ∧
    s.lo = Text.byteLength front ∧ s.len = Text.byteLength text ∧ s.line = 1 + front.count '\n'

theorem Span.Locates.hi_le {source : String} {s : Span} (h : s.Locates source) :
    s.hi ≤ Text.byteLength source.toList := by
  obtain ⟨front, text, back, hSource, hLo, hLen, -⟩ := h
  rw [hSource, Text.byteLength_append, Text.byteLength_append, Span.hi, hLo, hLen]
  omega

namespace Text

/-- The lines of a text can be counted with 32 bits. -/
def LinesFit (text : List Char) : Prop := text.count '\n' + 1 < 0x100000000

instance (text : List Char) : Decidable (LinesFit text) := inferInstanceAs (Decidable (_ < _))

theorem LinesFit.front {front back : List Char} (h : LinesFit (front ++ back)) :
    LinesFit front := by
  rw [LinesFit, List.count_append] at h
  rw [LinesFit]
  omega

theorem LinesFit.line_after {front : List Char} (h : LinesFit front) :
    (Pos.start.after front).line.toNat = 1 + front.count '\n' := by
  rw [LinesFit] at h
  rw [Pos.line_after, UInt32.toNat_add, UInt32.toNat_ofNat', Pos.start]
  change (1 + _) % _ = _
  omega

theorem byteLength_pos {text : List Char} (h : text ≠ []) : 0 < byteLength text := by
  cases text with
  | nil => cases h rfl
  | cons c text =>
    have hc := c.utf8Size_pos
    rw [byteLength_cons]
    omega

end Text

namespace Token

/-- The token is a piece of `text`, whose first character is at `p`. -/
def StandsIn (p : Pos) (text : List Char) (t : Token) : Prop :=
  ∃ front back, text = front ++ (t.text ++ back) ∧ t.span = (p.after front).spanOf t.text

theorem StandsIn.behind {p : Pos} {a text : List Char} {t : Token}
    (h : t.StandsIn (p.after a) text) : t.StandsIn p (a ++ text) := by
  obtain ⟨front, back, rfl, hSpan⟩ := h
  exact ⟨a ++ front, back, by simp, by rw [hSpan, Pos.after_append]⟩

theorem StandsIn.before {p : Pos} {text b : List Char} {t : Token} (h : t.StandsIn p text) :
    t.StandsIn p (text ++ b) := by
  obtain ⟨front, back, rfl, hSpan⟩ := h
  exact ⟨front, back ++ b, by simp, hSpan⟩

theorem standsIn_of_mem_lineBreaks {p : Pos} {escaped : Bool} {text : List Char} {t : Token}
    (h : t ∈ lineBreaks p escaped text) : t.StandsIn p text := by
  have hLater {p : Pos} {c : Char} {text : List Char} (h : t.StandsIn (p.next c) text) :
      t.StandsIn p (c :: text) := StandsIn.behind (a := [c]) h
  fun_induction lineBreaks p escaped text with
  | case1 => cases h
  | case2 p c text ih => exact hLater (ih h)
  | case3 p text ih =>
    rcases List.mem_cons.mp h with rfl | h
    · exact ⟨[], text, rfl, rfl⟩
    · exact hLater (ih h)
  | case4 p c text hc ih => exact hLater (ih h)

theorem standsIn_of_mem_ofLexeme {p : Pos} {x : Lexeme} {t : Token} (h : t ∈ ofLexeme p x) :
    t.StandsIn p x.text := by
  simp only [ofLexeme, List.mem_append, List.mem_singleton] at h
  rcases h with h | rfl
  · split at h
    · have hRest := (standsIn_of_mem_lineBreaks h).behind
      rwa [List.take_append_drop] at hRest
    · cases h
  · exact ⟨[], [], by simp, rfl⟩

theorem standsIn_of_mem_place {p : Pos} {xs : List Lexeme} {t : Token} (h : t ∈ place p xs) :
    t.StandsIn p (xs.flatMap Lexeme.text) := by
  induction xs generalizing p with
  | nil =>
    obtain rfl := List.mem_singleton.mp h
    exact ⟨[], [], rfl, rfl⟩
  | cons x xs ih =>
    rw [List.flatMap_cons]
    rcases List.mem_append.mp h with h | h
    · exact (standsIn_of_mem_ofLexeme h).before
    · exact (ih h).behind

theorem hi_le_of_mem_scan {source : String} {t : Token} (h : t ∈ scan source) :
    t.span.hi ≤ Text.byteLength source.toList := by
  obtain ⟨front, back, hText, hSpan⟩ := standsIn_of_mem_place h
  rw [Lexeme.flatMap_text_ofText] at hText
  have hLo : t.span.lo = Text.byteLength front := by
    rw [hSpan, Pos.spanOf, Pos.offset_after, Pos.start, Nat.zero_add]
  have hLen : t.span.len = Text.byteLength t.text := by rw [hSpan, Pos.spanOf]
  rw [hText, Span.hi, hLo, hLen, Text.byteLength_append, Text.byteLength_append]
  omega

theorem locates_of_mem_scan {source : String} (hLines : Text.LinesFit source.toList) {t : Token}
    (h : t ∈ scan source) : t.span.Locates source := by
  obtain ⟨front, back, hText, hSpan⟩ := standsIn_of_mem_place h
  rw [Lexeme.flatMap_text_ofText] at hText
  rw [hText] at hLines
  refine ⟨front, t.text, back, hText, ?_, ?_, ?_⟩
  · rw [hSpan]
    simp [Pos.spanOf, Pos.start]
  · rw [hSpan, Pos.spanOf]
  · rw [hSpan]
    exact hLines.front.line_after

/-- Each token ends before the next ones start. -/
def Ordered (ts : List Token) : Prop := ts.Pairwise fun t u => t.span.hi ≤ u.span.lo

/-- The token of a lexeme without a fault. -/
def ofSound (p : Pos) (x : Lexeme) : Token := ⟨x.kind, p.spanOf x.text, x.text⟩

theorem isFlaw_of_mem_lineBreaks {p : Pos} {escaped : Bool} {text : List Char} {t : Token}
    (h : t ∈ lineBreaks p escaped text) : t.kind = .flaw .unescapedLineBreak := by
  fun_induction lineBreaks p escaped text with
  | case1 => cases h
  | case2 p c text ih => exact ih h
  | case3 p text ih =>
    rcases List.mem_cons.mp h with rfl | h
    · rfl
    · exact ih h
  | case4 p c text hc ih => exact ih h

theorem ofLexeme_of_flawless {p : Pos} {x : Lexeme}
    (h : ∀ t ∈ ofLexeme p x, t.kind.isFlaw = false) : ofLexeme p x = [ofSound p x] := by
  have hBreaks : ∀ t ∈ lineBreaks (p.after (x.text.take 1)) false (x.text.drop 1),
      isStringKind x.kind = true → False := by
    intro t ht hString
    have hFlaw := h t (List.mem_append_left _ (by rwa [if_pos hString]))
    rw [isFlaw_of_mem_lineBreaks ht] at hFlaw
    cases hFlaw
  rw [ofLexeme]
  split
  · next hString =>
    rw [List.eq_nil_iff_forall_not_mem.mpr fun t ht => hBreaks t ht hString]
    rfl
  · rfl

theorem place_cons_of_flawless {p : Pos} {x : Lexeme} {xs : List Lexeme}
    (h : ∀ t ∈ place p (x :: xs), t.kind.isFlaw = false) :
    place p (x :: xs) = ofSound p x :: place (p.after x.text) xs := by
  rw [place, ofLexeme_of_flawless fun t ht => h t (List.mem_append_left _ ht)]
  rfl

theorem ordered_place {p : Pos} {xs : List Lexeme}
    (h : ∀ t ∈ place p xs, t.kind.isFlaw = false) :
    Ordered (place p xs) ∧ ∀ t ∈ place p xs, p.offset ≤ t.span.lo := by
  induction xs generalizing p with
  | nil => exact ⟨List.pairwise_singleton _ _, by simp [place, Pos.spanOf]⟩
  | cons x xs ih =>
    have hPlace := place_cons_of_flawless h
    rw [hPlace] at h ⊢
    obtain ⟨hOrdered, hAbove⟩ := ih fun t ht => h t (List.mem_cons_of_mem _ ht)
    have hNext : (p.after x.text).offset = (ofSound p x).span.hi := Pos.offset_after p x.text
    refine ⟨.cons (fun t ht => hNext ▸ hAbove t ht) hOrdered, fun t ht => ?_⟩
    rcases List.mem_cons.mp ht with rfl | ht
    · exact Nat.le_refl _
    · have hAbove := hAbove t ht
      rw [Pos.offset_after] at hAbove
      omega

theorem dropLast_place {p : Pos} {xs : List Lexeme}
    (h : ∀ t ∈ place p xs, t.kind.isFlaw = false) :
    ∀ t ∈ (place p xs).dropLast, ∃ x ∈ xs, t.kind = x.kind ∧ t.text = x.text := by
  induction xs generalizing p with
  | nil => simp [place]
  | cons x xs ih =>
    have hPlace := place_cons_of_flawless h
    rw [hPlace] at h ⊢
    intro t ht
    cases hRest : place (p.after x.text) xs with
    | nil =>
      rw [hRest] at ht
      cases ht
    | cons u us =>
      rw [hRest, List.dropLast_cons_cons, List.mem_cons] at ht
      rcases ht with rfl | ht
      · exact ⟨x, List.mem_cons_self, rfl, rfl⟩
      · obtain ⟨y, hy, hEq⟩ := ih (fun t ht => h t (List.mem_cons_of_mem _ ht)) t (hRest ▸ ht)
        exact ⟨y, List.mem_cons_of_mem _ hy, hEq⟩

theorem exists_place_eq (p : Pos) (xs : List Lexeme) :
    ∃ front, place p xs = front ++ [⟨.eof, (p.after (xs.flatMap Lexeme.text)).spanOf [], []⟩] := by
  induction xs generalizing p with
  | nil => exact ⟨[], rfl⟩
  | cons x xs ih =>
    obtain ⟨front, hFront⟩ := ih (p.after x.text)
    refine ⟨ofLexeme p x ++ front, ?_⟩
    rw [place, hFront, List.flatMap_cons, Pos.after_append, List.append_assoc]

end Token

/-- Whether tokens of this kind stand for a lexeme. -/
def Kind.isLexical : Kind → Bool
  | .eof | .flaw .unescapedLineBreak => false
  | _ => true

namespace Lexeme

/-- What starts with another character than a quote is no string. -/
theorem extent_of_ne_quote {c : Char} (hc : c ≠ '"') (cs : List Char) :
    Token.isStringKind (extent c cs).1 = false ∧ (extent c cs).1.isLexical = true := by
  rw [extent, if_neg hc]
  split
  · simp only [wordExtent]
    split <;> exact ⟨rfl, rfl⟩
  · split
    · simp only [numberExtent]
      split
      · split <;> exact ⟨rfl, rfl⟩
      · exact ⟨rfl, rfl⟩
    · split
      · exact ⟨rfl, rfl⟩
      · split
        · exact ⟨rfl, rfl⟩
        · split
          · rw [commentExtent]
            split <;> exact ⟨rfl, rfl⟩
          · rw [symbolExtent]
            split
            · exact ⟨rfl, rfl⟩
            · split <;> exact ⟨rfl, rfl⟩

theorem isLexical_extent (c : Char) (cs : List Char) : (extent c cs).1.isLexical = true := by
  by_cases hc : c = '"'
  · rw [extent, if_pos hc, stringExtent]
    split
    · rfl
    · split <;> rfl
  · exact (extent_of_ne_quote hc cs).2

theorem isLexical_of_mem_ofText {cs : List Char} {x : Lexeme} (h : x ∈ ofText cs) :
    x.kind.isLexical = true := by
  induction cs using ofText.induct with
  | case1 => simp at h
  | case2 c cs ih =>
    rw [ofText_cons, List.mem_cons] at h
    rcases h with rfl | h
    · exact isLexical_extent c cs
    · exact ih h

end Lexeme

/-- The tokens of a source that the parser reads, the end of the file excepted. -/
def Token.significant (source : String) : List Token :=
  (Token.scan source).dropLast.filter fun t => !t.kind.isTrivia

theorem Token.significant_ofList (text : List Char) :
    Token.significant (String.ofList text) =
      (Token.place .start (Lexeme.ofText text)).dropLast.filter fun t => !t.kind.isTrivia := by
  rw [Token.significant, Token.scan_ofList]

/-- The place of the end of the file. -/
def Token.endOf (source : String) : Token :=
  ⟨.eof, (Pos.start.after source.toList).spanOf [], []⟩

theorem Stream.ofTokens_scan (source : String) :
    Stream.ofTokens (Token.scan source) =
      ⟨Token.significant source, Token.endOf source, .start⟩ := by
  obtain ⟨front, hFront⟩ := Token.exists_place_eq .start (Lexeme.ofText source.toList)
  rw [Lexeme.flatMap_text_ofText] at hFront
  have hLast (d : Token) : (Token.scan source).getLastD d = Token.endOf source := by
    rw [Token.scan, hFront, List.getLastD_concat]
    rfl
  rw [Stream.ofTokens, hLast]
  rfl

namespace Token

variable {source : String}

theorem mem_scan_of_mem_significant {t : Token} (h : t ∈ significant source) : t ∈ scan source :=
  List.dropLast_subset _ (List.mem_filter.mp h).1

theorem endOf_mem_scan : endOf source ∈ scan source := by
  obtain ⟨front, hFront⟩ := exists_place_eq .start (Lexeme.ofText source.toList)
  rw [Lexeme.flatMap_text_ofText] at hFront
  rw [scan, hFront]
  exact List.mem_append_right _ (List.mem_singleton_self _)

theorem firstFlaw?_eq_none_iff {tokens : List Token} :
    firstFlaw? tokens = none ↔ ∀ t ∈ tokens, t.kind.isFlaw = false := by
  rw [firstFlaw?, List.findSome?_eq_none_iff]
  refine forall₂_congr fun t _ => ?_
  rw [flaw?]
  cases t.kind <;> simp [Kind.isFlaw]

section

variable (h : firstFlaw? (scan source) = none)

include h

theorem ordered_scan : Ordered (scan source) :=
  (ordered_place (firstFlaw?_eq_none_iff.mp h)).1

theorem ordered_significant : Ordered (significant source ++ [endOf source]) := by
  have hScan := ordered_scan h
  obtain ⟨front, hFront⟩ := exists_place_eq .start (Lexeme.ofText source.toList)
  rw [Lexeme.flatMap_text_ofText] at hFront
  have hEq : scan source = front ++ [endOf source] := hFront
  rw [hEq] at hScan
  rw [significant, hEq, List.dropLast_concat]
  exact hScan.sublist (List.filter_sublist.append_right _)

theorem significant_text_ne_nil {t : Token} (ht : t ∈ significant source) : t.text ≠ [] := by
  obtain ⟨x, hx, -, hText⟩ :=
    dropLast_place (firstFlaw?_eq_none_iff.mp h) t (List.mem_filter.mp ht).1
  rw [hText]
  exact Lexeme.text_ne_nil_of_mem_ofText hx

theorem significant_kind_ne_eof {t : Token} (ht : t ∈ significant source) : t.kind ≠ .eof := by
  obtain ⟨x, hx, hKind, -⟩ :=
    dropLast_place (firstFlaw?_eq_none_iff.mp h) t (List.mem_filter.mp ht).1
  have hLexical := Lexeme.isLexical_of_mem_ofText hx
  intro hEof
  rw [← hKind, hEof] at hLexical
  cases hLexical

theorem significant_lo_lt_hi {t : Token} (ht : t ∈ significant source) :
    t.span.lo < t.span.hi := by
  have hPos := Text.byteLength_pos (significant_text_ne_nil h ht)
  obtain ⟨front, back, -, hSpan⟩ := standsIn_of_mem_place (mem_scan_of_mem_significant ht)
  have hLen : t.span.len = Text.byteLength t.text := by rw [hSpan, Pos.spanOf]
  rw [Span.hi, hLen]
  omega

end

end Token

end MiniC
