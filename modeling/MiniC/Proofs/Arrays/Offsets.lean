import Mathlib.Algebra.Group.Nat.Defs
import MiniC.Code.Expr

/-! # Where the rows and elements of an array are

An array with the sizes `d₁, …, dₙ` takes `d₁ * … * dₙ` bytes.  Its rows lie one after another, and so
do the rows of a row: two rows of one depth have no byte in common, and those of an array that lies in
linear memory all lie within the array.
-/
namespace MiniC
set_option autoImplicit false

/-- Indices of an element, or of a row if there are fewer indices than sizes. -/
def Inside : List Nat → List Nat → Prop
  | _, [] => True
  | d :: sizes, i :: is => i < d ∧ Inside sizes is
  | [], _ :: _ => False

/-- How many bytes a row or an element has. -/
def rowLength (sizes is : List Nat) : Nat := (sizes.drop is.length).prod

/-- How many bytes there are before a row or an element. -/
def rowOffset : List Nat → List Nat → Nat
  | _ :: sizes, i :: is => i * sizes.prod + rowOffset sizes is
  | _, _ => 0

@[simp] theorem rowOffset_nil (sizes : List Nat) : rowOffset sizes [] = 0 := by
  cases sizes <;> rfl

namespace Inside

variable {sizes is js : List Nat} {i d : Nat}

/-- A row lies within the array. -/
theorem offset_add_length_le (h : Inside sizes is) :
    rowOffset sizes is + rowLength sizes is ≤ sizes.prod := by
  induction sizes generalizing is with
  | nil =>
    cases is with
    | nil => exact Nat.le_refl 1
    | cons i is => exact h.elim
  | cons d sizes ih =>
    cases is with
    | nil => simp [rowLength]
    | cons i is =>
      obtain ⟨hi, hRest⟩ := h
      calc
        i * sizes.prod + rowOffset sizes is + rowLength sizes is
          ≤ i * sizes.prod + sizes.prod := by
            rw [Nat.add_assoc]
            exact Nat.add_le_add_left (ih hRest) _
        _ = (i + 1) * sizes.prod := (Nat.succ_mul i _).symm
        _ ≤ d * sizes.prod := Nat.mul_le_mul_right _ hi
        _ = (d :: sizes).prod := List.prod_cons.symm

/-- Of two rows of one depth one ends before the other starts. -/
theorem apart (h : Inside sizes is) (h' : Inside sizes js) (hLength : is.length = js.length)
    (hNe : is ≠ js) :
    rowOffset sizes is + rowLength sizes is ≤ rowOffset sizes js ∨
      rowOffset sizes js + rowLength sizes js ≤ rowOffset sizes is := by
  induction sizes generalizing is js with
  | nil =>
    cases is with
    | nil => exact absurd (List.eq_nil_of_length_eq_zero hLength.symm).symm hNe
    | cons i is => exact h.elim
  | cons d sizes ih =>
    cases is with
    | nil => exact absurd (List.eq_nil_of_length_eq_zero hLength.symm).symm hNe
    | cons i is =>
      cases js with
      | nil => cases hLength
      | cons j js =>
        -- A row with a smaller first index ends before the next multiple of the stride.
        have hBefore {a b : Nat} {as : List Nat} (bs : List Nat) (hLt : a < b)
            (hInside : Inside sizes as) :
            a * sizes.prod + rowOffset sizes as + rowLength sizes as ≤
              b * sizes.prod + rowOffset sizes bs := by
          have hStep : (a + 1) * sizes.prod ≤ b * sizes.prod := Nat.mul_le_mul_right _ hLt
          have hEnd := hInside.offset_add_length_le
          rw [Nat.succ_mul] at hStep
          omega
        rcases Nat.lt_trichotomy i j with hLt | rfl | hLt
        · exact .inl (hBefore js hLt h.2)
        · have hTails := ih h.2 h'.2 (Nat.succ.inj hLength) fun hEq => hNe (hEq ▸ rfl)
          simp only [rowOffset, rowLength, List.length_cons, List.drop_succ_cons] at hTails ⊢
          omega
        · exact .inr (hBefore is hLt h'.2)

theorem of_append (h : Inside sizes (is ++ js)) : Inside sizes is := by
  induction sizes generalizing is with
  | nil =>
    cases is with
    | nil => trivial
    | cons i is => exact h.elim
  | cons d sizes ih =>
    cases is with
    | nil => trivial
    | cons i is => exact ⟨h.1, ih h.2⟩

end Inside

/-- One more index leads from a row to one of its own rows. -/
theorem rowOffset_concat {sizes rest : List Nat} {d : Nat} (is : List Nat) (i : Nat)
    (h : sizes.drop is.length = d :: rest) :
    rowOffset sizes (is ++ [i]) = rowOffset sizes is + i * rest.prod := by
  induction is generalizing sizes with
  | nil =>
    obtain rfl : sizes = d :: rest := h
    simp [rowOffset]
  | cons j is ih =>
    cases sizes with
    | nil => cases h
    | cons e sizes =>
      rw [List.cons_append, rowOffset, rowOffset, ih h, Nat.add_assoc]

/-- The bytes of an array in linear memory. -/
structure Storage where
  start : Nat
  /-- The sizes of the array, the outermost first. -/
  sizes : List Nat
  fits : start + sizes.prod ≤ Wasm.pageSize

namespace Storage

variable (A : Storage)

/-- The word that stands for the address of a row or an element. -/
def address (is : List Nat) : Int32 := Int32.ofNat (A.start + rowOffset A.sizes is)

/-- The rows and elements of the array are in its storage and apart from each other. -/
structure Tiled : Prop where
  /-- An element is one of the bytes of the storage. -/
  element : ∀ is, Inside A.sizes is → is.length = A.sizes.length →
    A.start ≤ (A.address is).toUInt32.toNat ∧
      (A.address is).toUInt32.toNat < A.start + A.sizes.prod
  /-- No two elements have one address. -/
  injective : ∀ is js, Inside A.sizes is → Inside A.sizes js → is.length = A.sizes.length →
    js.length = A.sizes.length → A.address is = A.address js → is = js
  /-- All bytes of a row are in the storage. -/
  row : ∀ is, Inside A.sizes is → A.start ≤ (A.address is).toUInt32.toNat ∧
    (A.address is).toUInt32.toNat + rowLength A.sizes is ≤ A.start + A.sizes.prod
  /-- No two rows of one depth have a byte in common. -/
  rowsApart : ∀ is js, Inside A.sizes is → Inside A.sizes js → is.length = js.length → is ≠ js →
    (A.address is).toUInt32.toNat + rowLength A.sizes is ≤ (A.address js).toUInt32.toNat ∨
      (A.address js).toUInt32.toNat + rowLength A.sizes js ≤ (A.address is).toUInt32.toNat

variable {A} {is : List Nat}

/-- Addresses do not wrap around. -/
theorem toNat_address (h : Inside A.sizes is) :
    (A.address is).toUInt32.toNat = A.start + rowOffset A.sizes is := by
  have hEnd := h.offset_add_length_le
  have hFits := A.fits
  have hSmall : A.start + rowOffset A.sizes is < 2 ^ 32 := by
    simp only [Wasm.pageSize] at hFits
    omega
  exact Nat.mod_eq_of_lt hSmall

variable (A)

theorem tiled : A.Tiled := by
  have hRow (is : List Nat) (h : Inside A.sizes is) : A.start ≤ (A.address is).toUInt32.toNat ∧
      (A.address is).toUInt32.toNat + rowLength A.sizes is ≤ A.start + A.sizes.prod := by
    have hEnd := h.offset_add_length_le
    rw [toNat_address h]
    omega
  have hOne {is : List Nat} (h : is.length = A.sizes.length) : rowLength A.sizes is = 1 := by
    rw [rowLength, h, List.drop_length, List.prod_nil]
  have hApart (is js : List Nat) (h : Inside A.sizes is) (h' : Inside A.sizes js)
      (hLength : is.length = js.length) (hNe : is ≠ js) :
      (A.address is).toUInt32.toNat + rowLength A.sizes is ≤ (A.address js).toUInt32.toNat ∨
        (A.address js).toUInt32.toNat + rowLength A.sizes js ≤ (A.address is).toUInt32.toNat := by
    have hOffsets := h.apart h' hLength hNe
    rw [toNat_address h, toNat_address h']
    omega
  refine ⟨fun is h hLength => ?_, fun is js h h' hLength hLength' hEq => ?_, hRow, hApart⟩
  · have hBytes := hRow is h
    rw [hOne hLength] at hBytes
    omega
  · refine Decidable.byContradiction fun hNe => ?_
    have hBytes := hApart is js h h' (hLength.trans hLength'.symm) hNe
    rw [hOne hLength, hOne hLength', hEq] at hBytes
    omega

end Storage

namespace Ty

/-- The length of an array is the product of its sizes, unless that is too great for a length. -/
theorem byteLength_arrayOf {t : Ty} (ht : t.isArray = false) {sizes : List Nat}
    (hNe : sizes ≠ []) (hSizes : ∀ d ∈ sizes, d ≤ maxByteLength) :
    (t.arrayOf sizes).byteLength = min sizes.prod maxByteLength := by
  induction sizes with
  | nil => exact absurd rfl hNe
  | cons d sizes ih =>
    obtain ⟨hd, hSizes⟩ := List.forall_mem_cons.mp hSizes
    cases sizes with
    | nil => simp [byteLength, ht, Nat.min_eq_left hd]
    | cons e sizes =>
      have hInner := ih (List.cons_ne_nil e sizes) hSizes
      have hArray : (t.arrayOf (e :: sizes)).isArray = true := rfl
      rw [arrayOf_cons, byteLength, if_pos hArray, hInner, List.prod_cons (a := d), Nat.mul_comm d]
      -- A product that has stopped stays where it is, unless it is taken zero times.
      rcases Nat.le_total (e :: sizes).prod maxByteLength with hLe | hGe
      · rw [Nat.min_eq_left hLe]
      · rw [Nat.min_eq_right hGe]
        rcases Nat.eq_zero_or_pos d with rfl | hPos
        · rfl
        · rw [Nat.min_eq_right (Nat.le_mul_of_pos_right _ hPos),
            Nat.min_eq_right (Nat.le_trans hGe (Nat.le_mul_of_pos_right _ hPos))]

/-- What is reached by `k` subscripts is an array as long as there are more sizes. -/
theorem isArray_arrayOf_drop {t : Ty} (ht : t.isArray = false) (sizes : List Nat) (k : Nat) :
    (t.arrayOf (sizes.drop k)).isArray = true ↔ k < sizes.length := by
  have hNil : k < sizes.length ↔ sizes.drop k ≠ [] := by
    rw [ne_eq, List.drop_eq_nil_iff, Nat.not_le]
  rw [hNil]
  cases sizes.drop k with
  | nil => simp [ht]
  | cons d rest => simp [isArray]

theorem isArray_pointerTo {t : Ty} (ht : t.isArray = false) (n : Nat) :
    (t.pointerTo n).isArray = false := by
  cases n with
  | zero => exact ht
  | succ n => rfl

end Ty

namespace Emit

/-- An offset into an array is scaled by the length of the array's rows. -/
theorem stride_arrayOf {t : Ty} (ht : t.isArray = false) {d : Nat} {sizes : List Nat}
    (hSizes : ∀ d ∈ sizes, d ≤ Ty.maxByteLength) :
    stride (t.arrayOf (d :: sizes)) = min sizes.prod Ty.maxByteLength := by
  cases sizes with
  | nil => simp [stride, Ty.element?, ht, Ty.maxByteLength]
  | cons e sizes =>
    rw [← Ty.byteLength_arrayOf ht (List.cons_ne_nil e sizes) hSizes]
    rfl

end Emit

/-- What lies in the page can be said in a word. -/
theorem wordOf_of_le {n : Nat} (h : n ≤ Wasm.pageSize) : wordOf n = Int32.ofNat n := by
  have hSmall : n ≤ 0x7FFFFFFF := Nat.le_trans h (by decide)
  rw [wordOf, Nat.min_eq_left hSmall]

end MiniC
