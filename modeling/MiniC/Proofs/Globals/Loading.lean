import MiniC.Proofs.Allocation.Ranges
import MiniC.Proofs.Arrays.Offsets
import MiniC.Proofs.Execution.World

/-! # Memory when a module is loaded

The host provides a page of zeros, and the segments of the module are written into it one after
another.  As no two of them share a byte, every segment is there in the end, and a load from a cell
gives the word whose bytes were put there.
-/
namespace MiniC
set_option autoImplicit false

namespace Wasm

namespace Segment

/-- Puts the bytes of the segment at its offset. -/
def writeTo (t : Segment) (memory : List UInt8) : List UInt8 :=
  memory.take t.offset ++ t.bytes ++ memory.drop t.stop

/-- The bytes of the segment are at its offset. -/
def Within (t : Segment) (memory : List UInt8) : Prop :=
  ∀ i < t.bytes.length, memory[t.offset + i]? = t.bytes[i]?

variable {t u : Segment} {memory : List UInt8}

theorem length_writeTo (h : t.stop ≤ memory.length) :
    (t.writeTo memory).length = memory.length := by
  rw [stop] at h
  rw [writeTo, stop, List.length_append, List.length_append, List.length_take, List.length_drop]
  omega

theorem getElem?_writeTo (h : t.stop ≤ memory.length) (i : Nat) :
    (t.writeTo memory)[i]? =
      if t.offset ≤ i ∧ i < t.stop then t.bytes[i - t.offset]? else memory[i]? := by
  rw [stop] at h ⊢
  have hFront : (memory.take t.offset).length = t.offset := by
    rw [List.length_take]
    omega
  rw [writeTo, stop, List.append_assoc]
  by_cases hLow : i < t.offset
  · rw [List.getElem?_append_left (by omega), List.getElem?_take_of_lt hLow, if_neg (by omega)]
  · rw [List.getElem?_append_right (by omega), hFront]
    by_cases hHigh : i < t.offset + t.bytes.length
    · rw [List.getElem?_append_left (by omega), if_pos (by omega)]
    · rw [List.getElem?_append_right (by omega), List.getElem?_drop, if_neg (by omega)]
      congr 1
      omega

theorem within_writeTo (h : t.stop ≤ memory.length) : t.Within (t.writeTo memory) := by
  intro i hi
  rw [getElem?_writeTo h, if_pos (by rw [stop]; omega), Nat.add_sub_cancel_left]

/-- A segment stays where it is when bytes are written elsewhere. -/
theorem Within.writeTo (h : t.Within memory) (hApart : u.Apart t) (hu : u.stop ≤ memory.length) :
    t.Within (u.writeTo memory) := by
  intro i hi
  have hOutside : ¬(u.offset ≤ t.offset + i ∧ t.offset + i < u.stop) := by
    rintro ⟨hLow, hHigh⟩
    rcases hApart with hBefore | hAfter
    · omega
    · rw [stop] at hAfter
      omega
  rw [getElem?_writeTo hu, if_neg hOutside]
  exact h i hi

theorem Within.read (h : t.Within memory) :
    (memory.drop t.offset).take t.bytes.length = t.bytes := by
  apply List.ext_getElem?
  intro i
  by_cases hi : i < t.bytes.length
  · rw [List.getElem?_take_of_lt hi, List.getElem?_drop]
    exact h i hi
  · rw [List.getElem?_eq_none (by rw [List.length_take]; omega),
      List.getElem?_eq_none (by omega)]

/-- Memory after the segments have been written. -/
def writeAll (segments : List Segment) (memory : List UInt8) : List UInt8 :=
  segments.foldl (fun memory t => t.writeTo memory) memory

variable {segments : List Segment}

theorem length_writeAll (h : ∀ t ∈ segments, t.stop ≤ memory.length) :
    (writeAll segments memory).length = memory.length := by
  induction segments generalizing memory with
  | nil => rfl
  | cons u rest ih =>
    obtain ⟨hu, hRest⟩ := List.forall_mem_cons.mp h
    have hLength := length_writeTo hu
    rw [writeAll, List.foldl_cons, ← writeAll, ih (by rwa [hLength]), hLength]

theorem Within.writeAll (h : t.Within memory) (hApart : ∀ u ∈ segments, u.Apart t)
    (hInside : ∀ u ∈ segments, u.stop ≤ memory.length) :
    t.Within (writeAll segments memory) := by
  induction segments generalizing memory with
  | nil => exact h
  | cons u rest ih =>
    obtain ⟨hu, hRest⟩ := List.forall_mem_cons.mp hInside
    obtain ⟨hFirst, hOthers⟩ := List.forall_mem_cons.mp hApart
    refine ih (h.writeTo hFirst hu) hOthers ?_
    rwa [length_writeTo hu]

/-- Among segments that share no byte each is there in the end. -/
theorem within_writeAll (hApart : segments.Pairwise Apart)
    (hInside : ∀ u ∈ segments, u.stop ≤ memory.length) (ht : t ∈ segments) :
    t.Within (writeAll segments memory) := by
  induction segments generalizing memory with
  | nil => cases ht
  | cons u rest ih =>
    obtain ⟨hFirst, hRest⟩ := List.pairwise_cons.mp hApart
    obtain ⟨hu, hInside⟩ := List.forall_mem_cons.mp hInside
    rw [← length_writeTo hu] at hInside
    rcases List.mem_cons.mp ht with rfl | ht
    · exact (within_writeTo hu).writeAll (fun v hv => (hFirst v hv).symm) hInside
    · exact ih hRest hInside ht

end Segment

/-- Memory when the module is loaded. -/
def Module.initialMemory (m : Module) : List UInt8 :=
  Segment.writeAll m.data (List.replicate pageSize 0)

end Wasm

namespace World

theorem wordOfBytes_wordBytes (w : UInt32) : wordOfBytes (wordBytes w) = w := by
  apply UInt32.toBitVec_inj.mp
  apply BitVec.eq_of_getLsbD_eq
  intro i hi
  have h8 : (8#32 % 32).toNat = 8 := rfl
  have h16 : (16#32 % 32).toNat = 16 := rfl
  have h24 : (24#32 % 32).toNat = 24 := rfl
  simp only [wordOfBytes, wordBytes, List.foldr_cons, List.foldr_nil, UInt32.toBitVec_or,
    UInt32.toBitVec_shiftLeft, UInt8.toBitVec_toUInt32, UInt32.toBitVec_toUInt8,
    UInt32.toBitVec_shiftRight, BitVec.getLsbD_or, BitVec.getLsbD_setWidth,
    UInt32.toBitVec_ofNat, BitVec.shiftLeft_eq', BitVec.ushiftRight_eq',
    BitVec.getLsbD_shiftLeft, BitVec.getLsbD_ushiftRight, h8, h16, h24, BitVec.getLsbD_zero]
  -- Each bit is in one of the four bytes.
  grind

/-- A load from a cell gives the word that is there. -/
theorem load_of_within {w : World} {cell : Nat} {word : UInt32} (ty : Wasm.ValType)
    (h : Wasm.Segment.Within ⟨cell, wordBytes word⟩ w.memory)
    (hInside : cell + 4 ≤ w.memory.length) (hPage : cell ≤ Wasm.pageSize) :
    load ty (wordOf cell) w = .ok (.ofWord ty word) w := by
  have hStart : (wordOf cell).toUInt32.toNat = cell := by
    have hSmall : cell < 2 ^ 32 := Nat.lt_of_le_of_lt hPage (by decide)
    rw [wordOf_of_le hPage]
    exact Nat.mod_eq_of_lt hSmall
  have hRead : read (wordOf cell) 4 w = .ok (wordBytes word) w := by
    rw [read]
    simp only [hStart]
    rw [if_pos hInside]
    congr 1
    exact h.read
  rw [load, Action.bind_of_ok hRead, wordOfBytes_wordBytes]
  rfl

end World

end MiniC
