import MiniC.Proofs.Literals.Trees
import MiniC.Proofs.Strings.Scanning

/-! # Texts written as string literals

Every text can be written between quotes: a quote, a backslash and a line feed are escaped, and for
a tab, a carriage return and a zero there are escapes too.  However that is done, the scan finds one
string, and its value is the text.
-/
namespace MiniC
set_option autoImplicit false

namespace Token

/-- The characters that may stand behind a backslash, each with the character that is meant. -/
def escapes : List (Char × Char) :=
  [('\\', '\\'), ('"', '"'), ('n', '\n'), ('\n', '\n'), ('t', '\t'), ('r', '\r'), ('0', '\x00')]

theorem escapedChar_of_mem_escapes : ∀ e ∈ escapes, escapedChar e.1 = e.2 := by
  simp [escapes, escapedChar]

/-- The second text is a way to write the first one between quotes. -/
inductive Spells : List Char → List Char → Prop
  | nil : Spells [] []
  | plain {c : Char} {s text : List Char} : c ∉ ['\\', '"', '\n'] → Spells s text →
      Spells (c :: s) (c :: text)
  | escaped {d c : Char} {s text : List Char} : (d, c) ∈ escapes → Spells s text →
      Spells (c :: s) ('\\' :: d :: text)

/-- Characters that have to be escaped can be. -/
theorem exists_spells (s : List Char) : ∃ text, Spells s text := by
  induction s with
  | nil => exact ⟨[], .nil⟩
  | cons c s ih =>
    obtain ⟨text, hText⟩ := ih
    by_cases hc : c ∈ ['\\', '"', '\n']
    · have hEscape : ∀ c ∈ ['\\', '"', '\n'], ∃ e ∈ escapes, e.2 = c := by
        simp [escapes]
      obtain ⟨⟨d, _⟩, hd, rfl⟩ := hEscape c hc
      exact ⟨_, hText.escaped hd⟩
    · exact ⟨_, hText.plain hc⟩

namespace Spells

variable {s text : List Char}

theorem unescape (h : Spells s text) : unescape false text = s := by
  induction h with
  | nil => rfl
  | plain hc _ ih =>
    rw [List.mem_cons, not_or] at hc
    rw [Token.unescape, if_neg hc.1, ih]
  | escaped hd _ ih =>
    rw [Token.unescape, if_pos rfl, Token.unescape, ih, escapedChar_of_mem_escapes _ hd]

/-- The quote behind the text is the first one that counts. -/
theorem stringLength? (h : Spells s text) :
    Lexeme.stringLength? false (text ++ ['"']) = some (text.length + 1) := by
  induction h with
  | nil => rfl
  | plain hc _ ih =>
    simp only [List.mem_cons, not_or] at hc
    simp [Lexeme.stringLength?, hc.1, hc.2.1, ih]
  | escaped hd _ ih => simp [Lexeme.stringLength?, ih]

theorem lineBreaks (h : Spells s text) (p : Pos) : lineBreaks p false (text ++ ['"']) = [] := by
  induction h generalizing p with
  | nil => rfl
  | plain hc _ ih =>
    simp only [List.mem_cons, not_or] at hc
    simp [Token.lineBreaks, hc.1, hc.2.2.1, ih]
  | escaped hd _ ih => simp [Token.lineBreaks, ih]

/-- The text between quotes is one string. -/
theorem scan (h : Spells s text) :
    scan (String.ofList ('"' :: (text ++ ['"']))) =
      [⟨if '\\' ∈ text then .escapedString else .string, Pos.start.spanOf ('"' :: (text ++ ['"'])),
          '"' :: (text ++ ['"'])⟩,
        ⟨.eof, (Pos.start.after ('"' :: (text ++ ['"']))).spanOf [], []⟩] := by
  have hFirst : (Lexeme.unescaped '"' [] (text ++ ['"'])).head? = some text.length := by
    have hLength := Lexeme.stringLength?_eq [] (text ++ ['"'])
    rw [show decide (Lexeme.backslashes [] % 2 = 1) = false from rfl, h.stringLength?] at hLength
    obtain ⟨i, hi, hEq⟩ := Option.map_eq_some_iff.mp hLength.symm
    rw [hi, Nat.succ.inj hEq]
  have hBreaks (p : Pos) : countedBreaks p (text ++ ['"']) = [] :=
    (lineBreaks_eq p [] (text ++ ['"'])).symm.trans (h.lineBreaks p)
  have hScan := (scansString .start (text ++ ['"'])).closed hFirst
  have hTake : (text ++ ['"']).take (text.length + 1) = text ++ ['"'] := by
    apply List.take_of_length_le
    simp
  have hDrop : (text ++ ['"']).drop (text.length + 1) = [] := by
    apply List.drop_of_length_le
    simp
  rw [hTake, hDrop, hBreaks, List.take_left, List.nil_append, Lexeme.ofText_nil] at hScan
  rw [scan_ofList]
  exact hScan

theorem value (h : Spells s text) (span : Span) :
    literal? ⟨if '\\' ∈ text then .escapedString else .string, span, '"' :: (text ++ ['"'])⟩ =
      some (String.ofList s) := by
  have hInterior : interior ('"' :: (text ++ ['"'])) = text := by
    rw [interior, List.drop_succ_cons, List.drop_zero, List.dropLast_concat]
  by_cases hEscapes : '\\' ∈ text
  · simp only [hEscapes, if_true, literal?, escapedStringValue, hInterior, h.unescape]
  · have hPlain := unescape_of_not_mem hEscapes
    rw [h.unescape] at hPlain
    simp only [hEscapes, if_false, literal?, stringValue, hInterior, hPlain]

end Spells

/-- String literals stand for texts.  Written between quotes, every text is scanned as one string
with the text as its value.  A scan that meets a quote goes on to the first quote behind it that an
even number of backslashes precedes, or to the end of the source, and the line feeds on the way that
an even number of backslashes precedes are faults.  Where there is no backslash, there is nothing to
resolve. -/
theorem strings_round_trip :
    (∀ s : String, (∃ text, Spells s.toList text) ∧ ∀ text, Spells s.toList text →
      ∃ t eof, scan (String.ofList ('"' :: (text ++ ['"']))) = [t, eof] ∧
        (t.kind = .string ∨ t.kind = .escapedString) ∧ eof.kind = .eof ∧ t.literal? = some s) ∧
    (∀ (source : String) (xs : List Lexeme) (cs : List Char),
      Lexeme.ofText source.toList = xs ++ Lexeme.ofText ('"' :: cs) →
      ∃ before tokens, scan source = before ++ tokens ∧
        ScansString (Pos.start.after (xs.flatMap Lexeme.text)) cs tokens) ∧
    ∀ source : String, ∀ t ∈ scan source, t.kind = .string →
      stringValue t.text = escapedStringValue t.text := by
  refine ⟨fun s => ⟨exists_spells s.toList, fun text hText => ?_⟩, fun source xs cs hText => ?_,
    fun source t => stringValue_eq_escapedStringValue⟩
  · refine ⟨_, _, hText.scan, ?_, rfl, ?_⟩
    · by_cases hEscapes : '\\' ∈ text <;> simp [hEscapes]
    · rw [hText.value, String.ofList_toList]
  · obtain ⟨before, hBefore⟩ := exists_place_append .start xs (Lexeme.ofText ('"' :: cs))
    refine ⟨before, _, ?_, scansString _ cs⟩
    rw [scan, hText, hBefore]

/-- A tab, an escaped quote and an escaped line feed. -/
def marks : List Char := ['\t', '\\', '"', '\\', '\n']

/-- A name, and a string with two backslashes before its last quote. -/
def afterName : List Char := ['x', '"', '\\', '\\', '"', ';']

theorem strings_round_trip_marks :
    (Spells ['\t', '"', '\n'] marks ∧
      ∃ t eof, scan (String.ofList ('"' :: (marks ++ ['"']))) = [t, eof] ∧
        t.literal? = some (String.ofList ['\t', '"', '\n'])) ∧
    (Lexeme.ofText afterName = [⟨.identifier, ['x']⟩] ++ Lexeme.ofText ('"' :: afterName.drop 2) ∧
      ∃ before, scan (String.ofList afterName) =
        before ++ ⟨.escapedString, ⟨1, 4, 1⟩, ['"', '\\', '\\', '"']⟩ ::
          place ⟨5, 1⟩ (Lexeme.ofText [';'])) ∧
    ∃ t ∈ scan (String.ofList ['"', 'n', '"']), t.kind = .string ∧
      stringValue t.text = escapedStringValue t.text := by
  obtain ⟨hRoundTrip, hScans, hPlain⟩ := strings_round_trip
  refine ⟨?_, ?_, ?_⟩
  · have hMarks : Spells ['\t', '"', '\n'] marks :=
      .plain (by decide) (.escaped (by decide) (.escaped (by decide) .nil))
    obtain ⟨-, hRead⟩ := hRoundTrip (String.ofList ['\t', '"', '\n'])
    obtain ⟨t, eof, hScan, -, -, hValue⟩ := hRead marks (by rwa [String.toList_ofList])
    exact ⟨hMarks, t, eof, hScan, hValue⟩
  · have hText : Lexeme.ofText afterName =
        [⟨.identifier, ['x']⟩] ++ Lexeme.ofText ('"' :: afterName.drop 2) := by decide +kernel
    obtain ⟨before, tokens, hScan, hTokens⟩ := hScans (String.ofList afterName)
      [⟨.identifier, ['x']⟩] (afterName.drop 2) (by rwa [String.toList_ofList])
    rw [hTokens.closed (i := 2) (by decide)] at hScan
    exact ⟨hText, before, hScan⟩
  · have hMem : ⟨.string, ⟨0, 3, 1⟩, ['"', 'n', '"']⟩ ∈ scan (String.ofList ['"', 'n', '"']) := by
      rw [scan_ofList]
      decide +kernel
    exact ⟨_, hMem, rfl, hPlain _ _ hMem rfl⟩

end Token

end MiniC
