import Mathlib.Data.List.Forall2
import MiniC.Proofs.Printing.Instructions

/-! # Reading modules back

The text of a module is read from its last line to its first.  The instructions of a function are
gathered until its first line is met, which tells everything else about it; a line of data tells a
segment.
-/
namespace MiniC.Wasm
set_option autoImplicit false

/-! ## Segments -/

namespace Segment

/-- The bytes of a quoted text that has been opened. -/
def readBytes : List Char → List UInt8
  | '\\' :: a :: b :: cs => UInt8.ofNat (16 * Text.hexValue a + Text.hexValue b) :: readBytes cs
  | '"' :: _ => []
  | c :: cs => UInt8.ofNat c.toNat :: readBytes cs
  | [] => []

/-- The segment of a line: its offset starts after seventeen characters, its bytes three characters
after the offset. -/
def read (line : List Char) : Segment :=
  let rest := line.drop 17
  let digits := rest.takeWhile Char.isDigit
  ⟨digitsValue digits, readBytes (rest.drop (digits.length + 3))⟩

theorem hexValue_hexDigit {n : Nat} (h : n < 16) : Text.hexValue (hexDigit n) = n := by
  revert h
  revert n
  decide

/-- A printable byte is read back, and it is none of the characters with a meaning of their own. -/
theorem ofNat_of_printable {n : Nat} (hHigh : n ≤ 0x7e) (hQuote : n ≠ '"'.toNat)
    (hBackslash : n ≠ '\\'.toNat) :
    (Char.ofNat n).toNat = n ∧ Char.ofNat n ≠ '"' ∧ Char.ofNat n ≠ '\\' := by
  have hAll : ∀ n < 0x7f, n ≠ '"'.toNat → n ≠ '\\'.toNat →
      (Char.ofNat n).toNat = n ∧ Char.ofNat n ≠ '"' ∧ Char.ofNat n ≠ '\\' := by decide
  exact hAll n (Nat.lt_succ_of_le hHigh) hQuote hBackslash

theorem readBytes_byteText (b : UInt8) (cs : List Char) :
    readBytes (byteText b ++ cs) = b :: readBytes cs := by
  have hLess : b.toNat < 256 := b.toNat_lt
  rw [byteText]
  split
  · next h =>
    obtain ⟨-, hHigh, hQuote, hBackslash⟩ := h
    obtain ⟨hChar, hNotQuote, hNotBackslash⟩ := ofNat_of_printable hHigh hQuote hBackslash
    rw [List.singleton_append, readBytes]
    · rw [hChar, UInt8.ofNat_toNat]
    · exact fun _ _ _ hBackslash _ => hNotBackslash hBackslash
    · exact hNotQuote
  · have hHigh : Text.hexValue (hexDigit (b.toNat / 16)) = b.toNat / 16 :=
      hexValue_hexDigit (by omega)
    have hLow : Text.hexValue (hexDigit (b.toNat % 16)) = b.toNat % 16 :=
      hexValue_hexDigit (Nat.mod_lt _ (by decide))
    simp only [List.cons_append, List.nil_append, readBytes, hHigh, hLow, Nat.div_add_mod,
      UInt8.ofNat_toNat]

theorem readBytes_flatMap (bytes : List UInt8) (cs : List Char) :
    readBytes (bytes.flatMap byteText ++ '"' :: cs) = bytes := by
  induction bytes with
  | nil => rfl
  | cons b bytes ih => rw [List.flatMap_cons, List.append_assoc, readBytes_byteText, ih]

/-- The digit after an escaped byte is a byte of its own. -/
example : readBytes (byteText 0x0a ++ byteText 0x30 ++ ['"']) = [0x0a, 0x30] := by decide

theorem toList_text (s : Segment) :
    s.text.toList = "(data".toList ++ ' ' :: ("(i32.const ".toList ++ (Text.natDigits s.offset ++
      ')' :: ' ' :: '"' :: (s.bytes.flatMap byteText ++ ['"', ')']))) := by
  unfold text
  simp

theorem words_text (s : Segment) : ∃ ws, Text.words s.text.toList = "(data" :: ws := by
  rw [Text.words, toList_text, List.splitOn_append_cons_self_of_not_mem (by decide), List.map_cons]
  exact ⟨_, rfl⟩

theorem newline_not_mem_byteText (b : UInt8) : '\n' ∉ byteText b := by
  have hDigit {n : Nat} (h : n < 16) : hexDigit n ≠ '\n' := by
    revert h
    revert n
    decide
  have hLess : b.toNat < 256 := b.toNat_lt
  rw [byteText]
  split
  · next h =>
    obtain ⟨hLow, hHigh, hQuote, hBackslash⟩ := h
    obtain ⟨hChar, -⟩ := ofNat_of_printable hHigh hQuote hBackslash
    intro hMem
    rw [← List.mem_singleton.mp hMem] at hChar
    rw [← hChar] at hLow
    exact absurd hLow (by decide)
  · have hHigh := hDigit (n := b.toNat / 16) (by omega)
    have hLow := hDigit (n := b.toNat % 16) (Nat.mod_lt _ (by decide))
    simp [hHigh.symm, hLow.symm]

theorem fits_text (s : Segment) : Line.Fits s.text := by
  constructor
  · simp [toList_text, Text.not_mem_natDigits (c := '\n') rfl, newline_not_mem_byteText]
  · simp [toList_text]

theorem read_text (s : Segment) : read s.text.toList = s := by
  have hDigits : (Text.natDigits s.offset ++ ')' :: ' ' :: '"' ::
      (s.bytes.flatMap byteText ++ ['"', ')'])).takeWhile Char.isDigit =
        Text.natDigits s.offset := by
    rw [List.takeWhile_append_of_pos fun c hc => Text.isDigit_of_mem_natDigits hc]
    simp
  have hRest : s.text.toList.drop 17 = Text.natDigits s.offset ++
      ')' :: ' ' :: '"' :: (s.bytes.flatMap byteText ++ ['"', ')']) := by
    rw [toList_text]
    rfl
  rw [read, hRest]
  simp only [hDigits, Text.digitsValue_natDigits, List.drop_length_add_append, List.drop_succ_cons,
    List.drop_zero]
  rw [readBytes_flatMap s.bytes [')']]

end Segment

/-! ## Functions -/

namespace ValType

/-- The last word of an attribute. -/
def word (t : ValType) : String := t.text ++ ")"

def ofWord (word : String) : ValType := if word = "i32)" then .i32 else .f32

theorem ofWord_word (t : ValType) : ofWord t.word = t := by
  cases t <;> decide

theorem isSolid_word (t : ValType) : Text.IsSolid t.word := by
  cases t <;> decide

end ValType

namespace Function

/-- The words for parameters, result and locals. -/
def attributes (f : Function) : List String :=
  (f.params.flatMap fun t => ["(param", t.word]) ++
    ((f.result.toList.flatMap fun t => ["(result", t.word]) ++
      f.locals.flatMap fun t => ["(local", t.word])

/-- The words of the first line. -/
def headerWords (f : Function) : List String :=
  "(func" :: ("$" ++ f.name) :: "(export" :: ("\"" ++ (f.name ++ "\")")) :: f.attributes

theorem toList_header (f : Function) : f.header.toList = Text.joined f.headerWords := by
  unfold header
  cases hResult : f.result <;>
    simp [headerWords, attributes, ValType.word, hResult, Text.joined_cons, String.toList_join,
      List.flatMap_assoc, List.flatMap_map]

theorem solid_headerWords {f : Function} (h : IsWord f.name) :
    ∀ w ∈ f.headerWords, Text.IsSolid w := by
  have hName := h.isSolid
  have hPair (word : String) (hWord : Text.IsSolid word) (ts : List ValType) :
      ∀ w ∈ ts.flatMap fun t => [word, t.word], Text.IsSolid w := by
    intro w hw
    obtain ⟨t, -, hMem⟩ := List.mem_flatMap.mp hw
    rcases List.mem_pair.mp hMem with rfl | rfl
    · exact hWord
    · exact t.isSolid_word
  simp only [headerWords, attributes, List.forall_mem_cons, List.forall_mem_append]
  exact ⟨by decide, Text.IsSolid.append (by decide) hName, by decide,
    Text.IsSolid.append (by decide) (Text.IsSolid.append hName (by decide)),
    hPair "(param" (by decide) _, hPair "(result" (by decide) _, hPair "(local" (by decide) _⟩

theorem words_header {f : Function} (h : IsWord f.name) :
    Text.words f.header.toList = f.headerWords := by
  rw [toList_header, Text.words_joined (solid_headerWords h) (List.cons_ne_nil _ _)]

theorem fits_header {f : Function} (h : IsWord f.name) : Line.Fits f.header :=
  Text.fits_of_joined (solid_headerWords h) (List.cons_ne_nil _ _) f.toList_header

/-- The function with the attributes that words tell. -/
def withAttributes (f : Function) : List String → Function
  | kind :: ty :: rest =>
    let g := f.withAttributes rest
    match kind with
    | "(param" => { g with params := .ofWord ty :: g.params }
    | "(result" => { g with result := some (.ofWord ty) }
    | "(local" => { g with locals := .ofWord ty :: g.locals }
    | _ => g
  | _ => f

theorem withAttributes_params (f : Function) (ts : List ValType) (rest : List String) :
    f.withAttributes ((ts.flatMap fun t => ["(param", t.word]) ++ rest) =
      { f.withAttributes rest with params := ts ++ (f.withAttributes rest).params } := by
  induction ts with
  | nil => rfl
  | cons t ts ih => simp [List.flatMap_cons, withAttributes, ValType.ofWord_word, ih]

theorem withAttributes_locals (f : Function) (ts : List ValType) :
    f.withAttributes (ts.flatMap fun t => ["(local", t.word]) =
      { f with locals := ts ++ f.locals } := by
  induction ts with
  | nil => rfl
  | cons t ts ih => simp [List.flatMap_cons, withAttributes, ValType.ofWord_word, ih]

theorem withAttributes_attributes (f : Function) (body : Code) :
    withAttributes ⟨f.name, [], none, [], body⟩ f.attributes = { f with body := body } := by
  obtain ⟨name, params, result, locals, body'⟩ := f
  rw [attributes, withAttributes_params]
  cases result with
  | none => simp [withAttributes_locals]
  | some t => simp [withAttributes, ValType.ofWord_word, withAttributes_locals]

end Function

/-! ## Lines -/

/-- What has been read of a module: its last functions and segments, and the last instructions of
the function whose lines are being read. -/
structure Draft where
  body : Code
  functions : List Function
  data : List Segment

namespace Draft

/-- Adds a line with the given words before the lines that have been read. -/
def addWords (d : Draft) (line : List Char) : List String → Option Draft
  | [""] | "(module" :: _ | "(import" :: _ => some d
  | [")"] => some { d with body := [] }
  | "(data" :: _ => some { d with data := .read line :: d.data }
  | "(func" :: name :: _ :: _ :: attributes =>
    let f : Function := ⟨String.ofList (name.toList.drop 1), [], none, [], d.body⟩
    some ⟨[], f.withAttributes attributes :: d.functions, d.data⟩
  | ws => (Instr.ofWords? ws).map fun i => { d with body := i :: d.body }

def add (d : Draft) (line : List Char) : Option Draft := d.addWords line (Text.words line)

/-- What lines tell, the last one first. -/
def ofLines? (lines : List Line) : Option Draft :=
  lines.foldr (fun l d? => d?.bind fun d => d.add l.text.toList) (some ⟨[], [], []⟩)

theorem ofLines?_cons {lines : List Line} {d : Draft} (h : ofLines? lines = some d) (l : Line) :
    ofLines? (l :: lines) = d.add l.text.toList := by
  rw [ofLines?, List.foldr_cons, ← ofLines?, h, Option.bind_some]

theorem add_instr {i : Instr} (h : i.Legible) (d : Draft) :
    d.add i.text.toList = some { d with body := i.reread :: d.body } := by
  have hWords : d.addWords i.text.toList i.words =
      (Instr.ofWords? i.words).map fun i => { d with body := i :: d.body } := by
    cases i with
    | numeric ty op => cases ty <;> cases op <;> rfl
    | load ty | store ty => cases ty <;> rfl
    | _ => rfl
  rw [add, Instr.words_text h, hWords, Instr.ofWords?_words h, Option.map_some]

theorem add_segment (s : Segment) (d : Draft) :
    d.add s.text.toList = some { d with data := s :: d.data } := by
  obtain ⟨ws, hWords⟩ := s.words_text
  rw [add, hWords, addWords, Segment.read_text]

theorem add_header {f : Function} (h : IsWord f.name) (d : Draft) :
    d.add f.header.toList = some ⟨[], { f with body := d.body } :: d.functions, d.data⟩ := by
  have hName : String.ofList (("$" ++ f.name).toList.drop 1) = f.name := by simp
  rw [add, Function.words_header h, Function.headerWords, addWords, hName]
  simp only [Function.withAttributes_attributes]

theorem add_close (d : Draft) : d.add ")".toList = some { d with body := [] } := by
  rfl

/-- Reading the lines of a body takes its instructions in. -/
theorem ofLines?_code {code : Code} (h : ∀ i ∈ code, i.Legible) (depth : Nat) {lines : List Line}
    {d : Draft} (hLines : ofLines? lines = some d) :
    ofLines? (codeLines depth code ++ lines) =
      some { d with body := code.map Instr.reread ++ d.body } := by
  induction code generalizing depth with
  | nil => exact hLines
  | cons i code ih =>
    rw [List.forall_mem_cons] at h
    rw [codeLines, List.cons_append, ofLines?_cons (ih h.2 _), add_instr h.1]
    rfl

end Draft

namespace Function

/-- Functions are named and called by words, and operations have a name of their own. -/
structure Legible (f : Function) : Prop where
  name : IsWord f.name
  body : ∀ i ∈ f.body, i.Legible

/-- The functions are equal but for floats with one text. -/
structure Alike (f g : Function) : Prop where
  name : f.name = g.name
  params : f.params = g.params
  result : f.result = g.result
  locals : f.locals = g.locals
  body : List.Forall₂ Instr.Alike f.body g.body

/-- The function as it is read back. -/
def reread (f : Function) : Function := { f with body := f.body.map Instr.reread }

theorem alike_reread (f : Function) : f.Alike f.reread :=
  ⟨rfl, rfl, rfl, rfl, List.forall₂_map_right_iff.mpr
    (List.forall₂_same.mpr fun i _ => i.alike_reread)⟩

end Function

theorem Draft.ofLines?_functions {fs : List Function} (h : ∀ f ∈ fs, f.Legible) {lines : List Line}
    {d : Draft} (hLines : ofLines? lines = some d) (hBody : d.body = []) :
    ofLines? (fs.flatMap Function.lines ++ lines) =
      some { d with functions := fs.map Function.reread ++ d.functions } := by
  induction fs with
  | nil => exact hLines
  | cons f fs ih =>
    rw [List.forall_mem_cons] at h
    have hClose := ofLines?_cons (ih h.2) ⟨1, ")"⟩
    have hCode := ofLines?_code h.1.body 2 (hClose.trans (add_close _))
    have hHeader := (ofLines?_cons hCode ⟨1, f.header⟩).trans (add_header h.1.name _)
    simpa [Function.lines, Function.reread, hBody] using hHeader

theorem Draft.ofLines?_data (segments : List Segment) {lines : List Line} {d : Draft}
    (hLines : ofLines? lines = some d) :
    ofLines? (segments.map (fun s => ⟨1, s.text⟩) ++ lines) =
      some { d with data := segments ++ d.data } := by
  induction segments with
  | nil => exact hLines
  | cons s segments ih =>
    rw [List.map_cons, List.cons_append, ofLines?_cons ih, add_segment]
    rfl

theorem Draft.ofLines?_header {lines : List Line} {d : Draft} (hLines : ofLines? lines = some d) :
    ofLines? (Module.header ++ lines) = some d := by
  have hSkip : ∀ l ∈ Module.header, d.add l.text.toList = some d := by
    simp only [Module.header, List.forall_mem_cons]
    exact ⟨rfl, rfl, rfl, rfl, rfl, by simp⟩
  generalize Module.header = header at hSkip
  induction header with
  | nil => exact hLines
  | cons l header ih =>
    rw [List.forall_mem_cons] at hSkip
    rw [List.cons_append, ofLines?_cons (ih hSkip.2), hSkip.1]

/-! ## Modules -/

namespace Module

/-- The functions of the module can be read. -/
def Legible (m : Module) : Prop := ∀ f ∈ m.functions, f.Legible

/-- The modules are equal but for floats with one text. -/
structure Alike (m m' : Module) : Prop where
  data : m.data = m'.data
  functions : List.Forall₂ Function.Alike m.functions m'.functions

/-- The module with the given text. -/
def ofText? (text : String) : Option Module :=
  (Draft.ofLines? (readLines text)).map fun d => ⟨d.data, d.functions⟩

theorem fits_of_mem_codeLines {code : Code} (h : ∀ i ∈ code, i.Legible) (depth : Nat) :
    ∀ l ∈ codeLines depth code, Line.Fits l.text := by
  induction code generalizing depth with
  | nil => simp [codeLines]
  | cons i code ih =>
    rw [List.forall_mem_cons] at h
    rw [codeLines, List.forall_mem_cons]
    exact ⟨Instr.fits_text h.1, ih h.2 _⟩

theorem fits_of_mem_lines {m : Module} (h : m.Legible) : ∀ l ∈ m.lines, Line.Fits l.text := by
  have hHeader : ∀ l ∈ header, Line.Fits l.text := by
    intro l hl
    exact ⟨by revert hl; revert l; decide, by revert hl; revert l; decide⟩
  have hClose : Line.Fits ")" := ⟨by decide, by decide⟩
  simp only [lines, List.forall_mem_append, List.forall_mem_map, List.forall_mem_singleton]
  refine ⟨⟨⟨hHeader, fun s _ => s.fits_text⟩, fun l hl => ?_⟩, hClose⟩
  obtain ⟨f, hf, hl⟩ := List.mem_flatMap.mp hl
  have hFunction : ∀ l ∈ f.lines, Line.Fits l.text := by
    simp only [Function.lines, List.forall_mem_append, List.forall_mem_cons]
    exact ⟨⟨Function.fits_header (h f hf).name, fits_of_mem_codeLines (h f hf).body 2⟩, hClose,
      by simp⟩
  exact hFunction l hl

/-- The module that is read from the text of a legible module. -/
theorem ofText?_text {m : Module} (h : m.Legible) :
    ofText? m.text = some ⟨m.data, m.functions.map Function.reread⟩ := by
  have hLast : Draft.ofLines? [⟨0, ")"⟩] = some ⟨[], [], []⟩ := rfl
  have hLines := Draft.ofLines?_header (Draft.ofLines?_data m.data
    (Draft.ofLines?_functions h hLast rfl))
  rw [ofText?, text, readLines_renderLines (fits_of_mem_lines h), lines]
  simp only [List.append_assoc]
  rw [hLines]
  simp

end Module

end MiniC.Wasm
