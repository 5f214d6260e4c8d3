import MiniC.Proofs.Arrays.Access
import MiniC.Proofs.Grammar.Soundness.Stmt
import MiniC.Proofs.Grammar.Unambiguity.Stmt

/-! # Declarations of arrays

Only declarations in functions can have sizes, as there is no syntax for those of a global.  An array
that is declared gets as many bytes as the product of its sizes, and its accesses stay within them.
-/
namespace MiniC
set_option autoImplicit false

open Grammar (Dimension Initial Name Simple TypeName)
open Wasm (Code Instr Runtime State)

namespace Grammar

theorem TypeName.isArray_ty (n : TypeName) : n.ty.isArray = false :=
  Ty.isArray_pointerTo (by cases n.base <;> rfl) _

theorem Dimension.value_le (d : Dimension) : d.value ≤ Ty.maxByteLength :=
  Nat.le_of_lt (Nat.lt_trans d.size.2.2 (by decide))

end Grammar

/-- Storage for an array is as long as the product of its sizes. -/
theorem Memory.reserveArray_arrayOf {t : Ty} (ht : t.isArray = false) {sizes : List Nat}
    (hNe : sizes ≠ []) (hSizes : ∀ d ∈ sizes, d ≤ Ty.maxByteLength) {s : Span} {m m' : Memory}
    {a : Nat} (h : reserveArray (t.arrayOf sizes) s m = .ok a m') :
    a = m.cursor ∧ m'.cursor = a + sizes.prod ∧ a + sizes.prod ≤ Wasm.pageSize := by
  rw [reserveArray] at h
  split at h
  · cases h
  · obtain ⟨hFits, rfl, rfl⟩ := (alloc_eq_ok_iff _ _ _ _ _).mp h
    rw [Ty.byteLength_arrayOf ht hNe hSizes] at hFits ⊢
    have hLe : sizes.prod ≤ Ty.maxByteLength := by
      rcases Nat.le_total sizes.prod Ty.maxByteLength with hLe | hGe
      · exact hLe
      · rw [Nat.min_eq_right hGe] at hFits
        simp only [Wasm.pageSize, Ty.maxByteLength] at hFits
        omega
    rw [Nat.min_eq_left hLe] at hFits ⊢
    exact ⟨rfl, rfl, hFits⟩

/-- The code of the declaration puts the start of the storage into the slot of the name. -/
theorem Emit.declareArray_arrayOf {t : Ty} (ht : t.isArray = false) {sizes : List Nat}
    (hNe : sizes ≠ []) (hSizes : ∀ d ∈ sizes, d ≤ Ty.maxByteLength) (globals : Globals) {s₀ : Span}
    {x : Ident} {init : Option (Expr Ty)} {s s' : Frame} {code : Code} (hs : s.Sound)
    (h : declareArray s₀ x (t.arrayOf sizes) init s = .ok code s') :
    ∃ (A : Storage) (slot : Nat), A.sizes = sizes ∧ A.start = s.memory.cursor ∧
      s'.memory.cursor = A.start + sizes.prod ∧ s'.place? globals x.name = some (.slot slot) ∧
      s'.Sound ∧ code = [pushAddress A.start, .localSet slot] := by
  cases init with
  | some e => cases h
  | none =>
    simp only [declareArray, Action.bind_eq_ok_iff, Action.pure_eq_ok_iff,
      inMemory_eq_ok_iff] at h
    obtain ⟨a, _, ⟨m, hReserve, rfl⟩, n, _, hDeclare, rfl, rfl⟩ := h
    obtain ⟨rfl, hCursor, hFits⟩ := Memory.reserveArray_arrayOf ht hNe hSizes hReserve
    have hSound : Frame.Sound { s with memory := m } := hs
    have hBelow := (declare_declares hDeclare).2.2.2.below
    rw [declare_eq] at hDeclare
    cases hDeclare
    refine ⟨⟨s.memory.cursor, sizes, hFits⟩, s.slots.length, rfl, rfl, hCursor, ?_,
      hSound.of_below hBelow, rfl⟩
    rw [Frame.place?, List.lookup_cons_self]

theorem Storage.exec_declare (A : Storage) (R : Runtime) {slot : Nat} {σ : State}
    (h : slot < σ.locals.length) :
    Code.exec R [pushAddress A.start, .localSet slot] σ =
      .ok () { σ with locals := σ.locals.set slot (.i32 (A.address [])) } := by
  have hStart : wordOf A.start = A.address [] := by
    rw [wordOf_of_le (Nat.le_trans (Nat.le_add_right _ _) A.fits), address, rowOffset_nil,
      Nat.add_zero]
  rw [← List.singleton_append (x := pushAddress A.start),
    Code.exec_append (.plain rfl) (.plain rfl),
    Action.bind_of_ok (Code.exec_pushAddress R A.start σ), hStart]
  exact Code.exec_localSet rfl h

/-- A declaration `T x[d₁]…[dₙ]` that is read, checked and lowered is given `d₁ * … * dₙ` bytes, the
first that were free.  Every row and every element has its bytes among these and shares them with no
other, and the code of an access to `x` computes the address of the row or element that it means. -/
theorem Storage.exists_of_declare {type : TypeName} {x : Name} {dims : List Dimension}
    {init : Initial} (hDims : dims ≠ []) {stream stream' : Stream} (hProper : stream.Proper)
    (hReads : stream.Reads (Simple.declare type x dims init).tokens stream')
    {form : Span → Stmt Unit} (hParse : Parser.simpleForm stream = .ok (form, stream'))
    {ctx : FunctionContext} {scope scope' : Scope} {s₀ : Span} {y : Stmt Ty}
    (hCheck : (form s₀).check ctx scope = .ok (y, scope')) {globals : Globals}
    {labels : List Label} {s s' : Frame} (hs : s.Sound) {code : Code}
    (hEmit : y.emit globals labels s = .ok code s') :
    ∃ (A : Storage) (slot : Nat), A.sizes = dims.map Dimension.value ∧
      A.start = s.memory.cursor ∧ s'.memory.cursor = A.start + A.sizes.prod ∧
      A.Named globals slot type.ty (Parser.identOf x.1).name scope' s' ∧
      (∀ (R : Runtime) (σ : State), slot < σ.locals.length → Code.exec R code σ =
        .ok () { σ with locals := σ.locals.set slot (.i32 (A.address [])) }) ∧
      A.Tiled ∧ A.Accessed globals slot type.ty (Parser.identOf x.1).name := by
  obtain ⟨d, hD, rfl⟩ := Parser.simpleForm_accepts hProper hParse
  have hTokens := List.append_cancel_right (hReads.rest.symm.trans hD.rest)
  obtain rfl : Simple.declare type x dims init = d := Simple.ext_tokens hTokens
  have ht := type.isArray_ty
  have hNe : dims.map Dimension.value ≠ [] := by simpa using hDims
  have hSizes : ∀ d ∈ dims.map Dimension.value, d ≤ Ty.maxByteLength := by
    intro d hd
    obtain ⟨dim, -, rfl⟩ := List.mem_map.mp hd
    exact dim.value_le
  simp only [Simple.form, Stmt.check, Checked.bind_eq_ok_iff, Checked.pure_eq_ok_iff] at hCheck
  obtain ⟨-, -, init', -, hEq⟩ := hCheck
  cases hEq
  have hArray : (type.ty.arrayOf (dims.map Dimension.value)).isArray = true :=
    (Ty.isArray_arrayOf_drop ht _ 0).mpr (List.length_pos_iff.mpr hNe)
  rw [Stmt.emit, if_pos hArray] at hEmit
  obtain ⟨A, slot, hA, hStart, hCursor, hPlace, hSound, rfl⟩ :=
    Emit.declareArray_arrayOf ht hNe hSizes globals hs hEmit
  rw [← hA] at hNe hSizes hCursor ⊢
  refine ⟨A, slot, rfl, hStart, hCursor, ⟨?_, hPlace, hSound⟩, ?_, A.tiled,
    A.accessed globals slot _ ht hNe hSizes⟩
  · exact List.lookup_cons_self
  · exact fun R σ h => A.exec_declare R h

namespace Grid

open Grammar (Mark)

/-- A symbol at the given offset. -/
def mark (s : Symbol) (lo : Nat) : Mark s := ⟨⟨.symbol s, ⟨lo, 1, 1⟩, s.spelling.toList⟩, rfl⟩

def type : TypeName := ⟨.char ⟨⟨.keyword .char, ⟨0, 4, 1⟩, ['c', 'h', 'a', 'r']⟩, rfl⟩, []⟩

def name : Name := ⟨⟨.identifier, ⟨5, 1, 1⟩, ['g']⟩, rfl⟩

def dims : List Dimension :=
  [⟨mark .lbracket 6, ⟨⟨.number, ⟨7, 1, 1⟩, ['2']⟩, rfl, by decide⟩, mark .rbracket 8⟩,
    ⟨mark .lbracket 9, ⟨⟨.number, ⟨10, 1, 1⟩, ['3']⟩, rfl, by decide⟩, mark .rbracket 11⟩]

/-- The declaration `char g[2][3]`. -/
def declaration : Simple := .declare type name dims .none

/-- What stands after the declaration. -/
def rest : Stream := ⟨[(mark .semicolon 12).1], ⟨.eof, ⟨13, 0, 1⟩, []⟩, ⟨11, 1, 1⟩⟩

def stream : Stream := ⟨declaration.tokens ++ rest.rest, rest.eof, .start⟩

def context : FunctionContext := ⟨.host, "main", .int⟩

def scope : Scope := [("g", .array (.array .char 3) 2)]

def before : Frame := ⟨.empty, [], []⟩

def after : Frame := ⟨⟨7, [], []⟩, [.i32], [("g", 0)]⟩

/-- The element `g[1][2]`. -/
def element : Expr Unit :=
  (Expr.var () .start (Parser.identOf name.1)).indexedBy
    [(.start, .const () .start (.int 1)), (.start, .const () .start (.int 2))]

end Grid

open Grid in
/-- The array is at the addresses from 1 to 6, and its last element has the last of them. -/
theorem Storage.exists_of_declare_grid :
    ∃ (y : Stmt Ty) (code : Code) (A : Storage) (slot : Nat), dims ≠ [] ∧ stream.Proper ∧
      stream.Reads declaration.tokens rest ∧
      Parser.simpleForm stream = .ok (declaration.form, rest) ∧
      (declaration.form .start).check context [] = .ok (y, scope) ∧ before.Sound ∧
      y.emit [] [] before = .ok code after ∧
      A.sizes = [2, 3] ∧ A.start = 1 ∧ after.memory.cursor = A.start + 6 ∧ A.Tiled ∧
      A.Named [] slot type.ty "g" scope after ∧ ∃ (e : Expr Ty) (address : Code),
        element.check context.signatures scope = .ok e ∧
        e.emit [] after = .ok (address ++ [Instr.load8S]) after ∧
        ∀ R : Runtime, Code.exec R address ⟨[], [.i32 1], ⟨[], []⟩⟩ =
          .ok () ⟨[.i32 6], [.i32 1], ⟨[], []⟩⟩ := by
  have hDims : dims ≠ [] := List.cons_ne_nil _ _
  have hOrdered : stream.rest.Pairwise fun t u => t.span.hi ≤ u.span.lo := by decide
  have hProper : stream.Proper := ⟨rfl, by decide, hOrdered⟩
  have hReads : stream.Reads declaration.tokens rest := ⟨rfl, rfl, rfl⟩
  have hParse : Parser.simpleForm stream = .ok (declaration.form, rest) := rfl
  have hSound : before.Sound := by simp [Frame.Sound, before]
  obtain ⟨y, hCheck⟩ : ∃ y, (declaration.form .start).check context [] = .ok (y, scope) := ⟨_, rfl⟩
  obtain ⟨code, hEmit⟩ : ∃ code, y.emit [] [] before = .ok code after := by
    cases hCheck
    exact ⟨_, rfl⟩
  obtain ⟨A, slot, hSizes, hStart, hCursor, hNamed, -, hTiled, hAccessed⟩ :=
    Storage.exists_of_declare hDims hProper hReads hParse hCheck hSound hEmit
  have hSizes : A.sizes = [2, 3] := hSizes
  have hStart : A.start = 1 := hStart
  rw [hSizes] at hCursor
  refine ⟨y, code, A, slot, hDims, hProper, hReads, hParse, hCheck, hSound, hEmit, hSizes, hStart,
    hCursor, hTiled, hNamed, ?_⟩
  obtain ⟨e, hElement⟩ : ∃ e, element.check context.signatures scope = .ok e := ⟨_, rfl⟩
  have hRead := hAccessed.read rfl hNamed (by rw [hSizes]; decide) hElement
  obtain ⟨all, hAll⟩ : ∃ all, e.emit [] after = .ok all after := by
    cases hElement
    exact ⟨_, rfl⟩
  obtain ⟨address, ⟨es, cs, hChecks, hEmits, hComputes⟩, rfl⟩ := hRead.code hAll
  rw [hSizes] at hAll
  refine ⟨e, address, hElement, hAll, fun R => ?_⟩
  cases hChecks
  cases hEmits
  have hInside : Inside A.sizes [1, 2] := by
    rw [hSizes]
    exact ⟨by decide, by decide, trivial⟩
  have hFirst : A.address [] = 1 := by
    rw [Storage.address, hStart, hSizes]
    rfl
  have hLast : A.address [1, 2] = 6 := by
    rw [Storage.address, hStart, hSizes]
    rfl
  obtain rfl : 0 = slot := Place.slot.inj (Option.some.inj hNamed.place)
  have hRun := hComputes R [1, 2] ⟨[], [.i32 1], ⟨[], []⟩⟩ _ hInside ⟨_, rfl, _, rfl, rfl⟩
    (by rw [hFirst]; rfl)
  rw [hLast] at hRun
  exact hRun

end MiniC
