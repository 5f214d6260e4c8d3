import MiniC.Proofs.Printing.Names
import MiniC.Proofs.Printing.Outlines
import MiniC.Wasm.Text

/-! # Reading instructions back

The text of an instruction is its words with blanks between them: a mnemonic, and at most one
operand.  The words determine the instruction, except that a float is known only by its text.
-/
namespace MiniC
set_option autoImplicit false

namespace Text

/-- The pieces of a text between blanks. -/
def words (text : List Char) : List String := (text.splitOn ' ').map String.ofList

/-- A piece of a line that stands between blanks. -/
def IsSolid (word : String) : Prop := word.toList ≠ [] ∧ ∀ c ∈ word.toList, c ≠ ' ' ∧ c ≠ '\n'

instance (word : String) : Decidable (IsSolid word) :=
  have : Decidable (∀ c ∈ word.toList, c ≠ ' ' ∧ c ≠ '\n') := List.decidableBAll _ _
  inferInstanceAs (Decidable (_ ∧ _))

/-- The text of words with blanks between them. -/
def joined (ws : List String) : List Char := [' '].intercalate (ws.map String.toList)

theorem joined_cons (w : String) (ws : List String) :
    joined (w :: ws) = w.toList ++ ws.flatMap fun w => ' ' :: w.toList := by
  rw [joined, List.map_cons]
  induction ws generalizing w with
  | nil => simp [List.intercalate]
  | cons v ws ih => simpa [List.intercalate_cons_cons] using ih v

theorem words_joined {ws : List String} (h : ∀ w ∈ ws, IsSolid w) (hNe : ws ≠ []) :
    words (joined ws) = ws := by
  have hBlank : ∀ l ∈ ws.map String.toList, ' ' ∉ l := by
    intro l hl hMem
    obtain ⟨w, hw, rfl⟩ := List.mem_map.mp hl
    exact ((h w hw).2 ' ' hMem).1 rfl
  rw [words, joined, List.splitOn_intercalate ' ' hBlank (by simpa using hNe), List.map_map]
  simp [Function.comp_def]

theorem fits_of_joined {text : String} {ws : List String} (h : ∀ w ∈ ws, IsSolid w)
    (hNe : ws ≠ []) (hText : text.toList = joined ws) : Line.Fits text := by
  obtain ⟨w, ws, rfl⟩ := List.exists_cons_of_ne_nil hNe
  rw [List.forall_mem_cons] at h
  constructor
  · rw [hText, joined_cons, List.mem_append, List.mem_flatMap]
    rintro (hMem | ⟨v, hv, hMem⟩)
    · exact (h.1.2 _ hMem).2 rfl
    · rcases List.mem_cons.mp hMem with hMem | hMem
      · cases hMem
      · exact ((h.2 v hv).2 _ hMem).2 rfl
  · obtain ⟨c, cs, hw⟩ := List.exists_cons_of_ne_nil h.1.1
    have hc : c ≠ ' ' := (h.1.2 c (hw ▸ List.mem_cons_self)).1
    simpa [hText, joined_cons, hw] using hc

theorem isSolid_of_forall {text : String} {p : Char → Prop} (hNe : text.toList ≠ [])
    (h : ∀ c ∈ text.toList, p c) (hBlank : ¬ p ' ') (hBreak : ¬ p '\n') : IsSolid text := by
  refine ⟨hNe, fun c hc => ⟨?_, ?_⟩⟩
  · rintro rfl
    exact hBlank (h _ hc)
  · rintro rfl
    exact hBreak (h _ hc)

theorem isSolid_ofNat (n : Nat) : IsSolid (ofNat n) := by
  refine isSolid_of_forall (p := fun c => c.isDigit = true) ?_ ?_ (by decide) (by decide)
  · simp [natDigits]
  · simpa using fun c hc => isDigit_of_mem_natDigits hc

theorem isSolid_ofInt (n : Int) : IsSolid (ofInt n) := by
  refine isSolid_of_forall (p := fun c => c.isDigit = true ∨ c = '-') ?_ ?_ (by decide) (by decide)
  · cases n <;> simp [intDigits, natDigits]
  · simpa using fun c hc => of_mem_intDigits hc

theorem IsSolid.append {a b : String} (ha : IsSolid a) (hb : IsSolid b) : IsSolid (a ++ b) := by
  refine ⟨by simp [ha.1], ?_⟩
  rw [String.toList_append, List.forall_mem_append]
  exact ⟨ha.2, hb.2⟩

end Text

theorem IsWord.isSolid {name : String} (h : IsWord name) : Text.IsSolid name :=
  Text.isSolid_of_forall h.1 h.2 (by decide) (by decide)

namespace Binary32

theorem isSolid_text (x : Binary32) : Text.IsSolid x.text := by
  refine Text.isSolid_of_forall (p := fun c => c.isDigit = true ∨ isMark c = true) ?_
    (fun c => of_mem_text) (by decide) (by decide)
  obtain ⟨c, hc, -⟩ := x.exists_mem_text
  exact List.ne_nil_of_mem hc

/-- One of the first `n` numbers that has the text, if there is one. -/
def find? (text : String) : Nat → Option Binary32
  | 0 => none
  | n + 1 => if (ofNat n).text = text then some (ofNat n) else find? text n

theorem find?_text {text : String} {n : Nat} {x : Binary32} (h : find? text n = some x) :
    x.text = text := by
  induction n with
  | zero => cases h
  | succ n ih =>
    rw [find?] at h
    split at h
    · cases h
      assumption
    · exact ih h

theorem find?_isSome {x : Binary32} {n : Nat} (h : x.toNat < n) : (find? x.text n).isSome := by
  induction n with
  | zero => cases h
  | succ n ih =>
    rw [find?]
    split
    · rfl
    · next hText =>
      refine ih (Nat.lt_of_le_of_ne (Nat.le_of_lt_succ h) ?_)
      rintro rfl
      exact hText (congrArg text (by simp [ofNat, toNat]))

/-- The number of single-precision numbers. -/
def count : Nat := 0x100000000

/-- A number that has the text. -/
def ofText (text : String) : Binary32 := (find? text count).getD one

theorem text_ofText (x : Binary32) : (ofText x.text).text = x.text := by
  obtain ⟨y, hy⟩ := Option.isSome_iff_exists.mp (find?_isSome x.toNat_lt)
  rw [ofText, count, hy, Option.getD_some, find?_text hy]

end Binary32

namespace Wasm.Instr

/-- The instructions are equal, or they push floats with one text. -/
inductive Alike : Instr → Instr → Prop
  | refl (i : Instr) : Alike i i
  | f32Const {x y : Binary32} : x.text = y.text → Alike (f32Const x) (f32Const y)

/-- Functions are called by words, and operations have a name of their own. -/
def Legible : Instr → Prop
  | call name => IsWord name
  | numeric _ op => op ∈ Opcode.named
  | _ => True

/-- The instructions without an operand. -/
def plain : List Instr :=
  [load .i32, load .f32, store .i32, store .f32, load8S, store8, drop, block, loop, if_, else_,
    end_, return_, unreachable] ++ Opcode.named.map (numeric .i32) ++ Opcode.named.map (numeric .f32)

def words : Instr → List String
  | i32Const value => ["i32.const", Text.ofInt value.toInt]
  | f32Const value => ["f32.const", value.text]
  | localGet slot => ["local.get", Text.ofNat slot]
  | localSet slot => ["local.set", Text.ofNat slot]
  | localTee slot => ["local.tee", Text.ofNat slot]
  | call name => ["call", "$" ++ name]
  | br depth => ["br", Text.ofNat depth]
  | brIf depth => ["br_if", Text.ofNat depth]
  | i => [i.text]

/-- The instruction with the given words. -/
def ofWords? : List String → Option Instr
  | [word] => plain.find? fun i => decide (i.text = word)
  | ["i32.const", value] => some (i32Const (.ofInt (Text.readInt value.toList)))
  | ["f32.const", value] => some (f32Const (.ofText value))
  | ["local.get", slot] => some (localGet (digitsValue slot.toList))
  | ["local.set", slot] => some (localSet (digitsValue slot.toList))
  | ["local.tee", slot] => some (localTee (digitsValue slot.toList))
  | ["call", name] => some (call (String.ofList (name.toList.drop 1)))
  | ["br", depth] => some (br (digitsValue depth.toList))
  | ["br_if", depth] => some (brIf (digitsValue depth.toList))
  | _ => none

/-- The instruction as it is read back: another float may have the same text. -/
def reread : Instr → Instr
  | f32Const value => f32Const (.ofText value.text)
  | i => i

theorem alike_reread (i : Instr) : i.Alike i.reread := by
  cases i with
  | f32Const value => exact .f32Const (Binary32.text_ofText value).symm
  | _ => exact .refl _

theorem find?_plain : ∀ i ∈ plain, plain.find? (fun j => decide (j.text = i.text)) = some i := by
  decide +kernel

theorem solid_plain : ∀ i ∈ plain, Text.IsSolid i.text := by
  decide +kernel

theorem words_plain : ∀ i ∈ plain, i.words = [i.text] ∧ i.reread = i := by
  decide +kernel

theorem mem_plain {i : Instr} (h : i.Legible) : i ∈ plain ∨ i.words.length = 2 := by
  cases i with
  | numeric ty op =>
    have hOp : op ∈ Opcode.named := h
    cases ty <;> simp [plain, hOp]
  | load ty | store ty => cases ty <;> exact .inl (by decide)
  | _ => first | exact .inr rfl | exact .inl (by decide)

theorem toList_text (i : Instr) : i.text.toList = Text.joined i.words := by
  cases i <;> simp [text, words, Text.joined, List.intercalate_cons_cons]

theorem solid_words {i : Instr} (h : i.Legible) : ∀ w ∈ i.words, Text.IsSolid w := by
  rcases mem_plain h with hPlain | hOperand
  · rw [(words_plain i hPlain).1]
    simpa using solid_plain i hPlain
  · cases i with
    | i32Const value => simpa [words] using ⟨by decide, Text.isSolid_ofInt _⟩
    | f32Const value => simpa [words] using ⟨by decide, value.isSolid_text⟩
    | localGet n | localSet n | localTee n | br n | brIf n =>
      simpa [words] using ⟨by decide, Text.isSolid_ofNat n⟩
    | call name =>
      simpa [words] using ⟨by decide, Text.IsSolid.append (a := "$") (by decide) (IsWord.isSolid h)⟩
    | _ => cases hOperand

theorem words_ne_nil (i : Instr) : i.words ≠ [] := by
  cases i <;> simp [words]

theorem words_text {i : Instr} (h : i.Legible) : Text.words i.text.toList = i.words := by
  rw [toList_text, Text.words_joined (solid_words h) i.words_ne_nil]

theorem fits_text {i : Instr} (h : i.Legible) : Line.Fits i.text :=
  Text.fits_of_joined (solid_words h) i.words_ne_nil i.toList_text

theorem ofWords?_words {i : Instr} (h : i.Legible) : ofWords? i.words = some i.reread := by
  rcases mem_plain h with hPlain | hOperand
  · obtain ⟨hWords, hReread⟩ := words_plain i hPlain
    rw [hWords, hReread]
    exact find?_plain i hPlain
  · cases i with
    | i32Const value => simp [words, ofWords?, reread, Text.readInt_intDigits]
    | f32Const value => rfl
    | localGet n | localSet n | localTee n | br n | brIf n =>
      simp [words, ofWords?, reread, Text.digitsValue_natDigits]
    | call name => simp [words, ofWords?, reread]
    | _ => cases hOperand

end Wasm.Instr

end MiniC
