import MiniC.Proofs.Places.Tokens

/-! # Sources with too many lines

A source of fewer than 2³² bytes has at most as many lines, and only one source has that many: it
consists of line feeds.  Its tokens are white space and the end of the file, whose line is counted as
zero, and there is nothing in it that could be a part of a program or an error.
-/
namespace MiniC
set_option autoImplicit false

namespace Text

theorem length_le_byteLength (text : List Char) : text.length ≤ byteLength text := by
  induction text with
  | nil => exact Nat.le_refl 0
  | cons c text ih =>
    have hc := c.utf8Size_pos
    rw [List.length_cons, byteLength_cons]
    omega

theorem byteLength_replicate_newline (n : Nat) :
    byteLength (List.replicate n '\n') = n := by
  induction n with
  | zero => rfl
  | succ n ih =>
    rw [List.replicate_succ, byteLength_cons, ih]
    exact Nat.add_comm 1 n

theorem linesFit_replicate_iff (n : Nat) :
    LinesFit (List.replicate n '\n') ↔ n + 1 < 0x100000000 := by
  rw [LinesFit, List.count_replicate_self]

/-- A short text has too many lines only if it consists of line feeds. -/
theorem not_linesFit_iff {text : List Char} (hSize : byteLength text < 0x100000000) :
    ¬ LinesFit text ↔ text = List.replicate 0xffffffff '\n' := by
  constructor
  · intro h
    have hLength := length_le_byteLength text
    have hCount := List.count_le_length (a := '\n') (l := text)
    rw [LinesFit] at h
    have hFeeds := List.count_eq_length.mp (show text.count '\n' = text.length by omega)
    exact List.eq_replicate_iff.mpr ⟨by omega, fun c hc => (hFeeds c hc).symm⟩
  · rintro rfl
    rw [linesFit_replicate_iff]
    omega

end Text

theorem Lexeme.ofText_replicate_newline (n : Nat) :
    ofText (List.replicate (n + 1) '\n') = [⟨.whitespace, List.replicate (n + 1) '\n'⟩] := by
  have hRun : (List.replicate n '\n').takeWhile isBlank = List.replicate n '\n' := by
    rw [List.takeWhile_replicate, if_pos (by decide)]
  have hExtent : extent '\n' (List.replicate n '\n') = (.whitespace, n) := by
    rw [extent, if_neg (by decide), if_neg (by decide), if_neg (by decide),
      if_pos (by decide), runLength,
      hRun, List.length_replicate]
  rw [List.replicate_succ, ofText_cons, hExtent, List.take_of_length_le (by simp),
    List.drop_of_length_le (by simp), ofText_nil]

section

variable {source : String} {n : Nat} (h : source.toList = List.replicate (n + 1) '\n')

include h

theorem Token.scan_of_lineFeeds :
    scan source = [⟨.whitespace, ⟨0, n + 1, 1⟩, source.toList⟩,
      ⟨.eof, ⟨n + 1, 0, (1 + UInt32.ofNat (n + 1)).toNat⟩, []⟩] := by
  have hSize : Text.byteLength source.toList = n + 1 := by
    rw [h, Text.byteLength_replicate_newline]
  have hEnd : Pos.start.after source.toList = ⟨n + 1, 1 + UInt32.ofNat (n + 1)⟩ := by
    have hOffset := Pos.offset_after .start source.toList
    have hLine := Pos.line_after .start source.toList
    rw [hSize] at hOffset
    rw [h, List.count_replicate_self, ← h] at hLine
    cases hPos : Pos.start.after source.toList with
    | mk offset line =>
      rw [hPos] at hOffset hLine
      rw [Pos.mk.injEq]
      exact ⟨hOffset.trans (Nat.zero_add _), hLine⟩
  have hScan : scan source = [⟨.whitespace, Pos.start.spanOf source.toList, source.toList⟩,
      ⟨.eof, (Pos.start.after source.toList).spanOf [], []⟩] := by
    rw [scan, h, Lexeme.ofText_replicate_newline]
    rfl
  rw [hScan, hEnd, Pos.spanOf, hSize]
  rfl

theorem Program.parse_of_lineFeeds : Program.parse source = .ok ⟨[]⟩ := by
  rw [Program.parse, Token.scan_of_lineFeeds h]
  rfl

theorem compile_of_lineFeeds : ∃ text, compile source = .ok text := by
  rw [compile, checkSource, Program.parse_of_lineFeeds h]
  exact ⟨_, rfl⟩

end

end MiniC
