import Mathlib.Data.List.Induction
import MiniC.Proofs.Arrays.Offsets
import MiniC.Proofs.Execution.Operands
import MiniC.Proofs.Structure.Nesting
import MiniC.Proofs.Typing.Stmt

/-! # The code of accesses to an array

The code of `x[e₁]…[eₖ]` computes the address of a row or an element from the indices that the codes
of the offsets leave, one after another; each offset is scaled by the length of the rows that it
counts.
-/
namespace MiniC
set_option autoImplicit false

open Wasm (Code Exec Instr Runtime State ValType)

/-- The expression with subscripts after it, each with the place of the whole up to there. -/
def Expr.indexedBy (base : Expr Unit) (subs : List (Span × Expr Unit)) : Expr Unit :=
  subs.foldl (fun e (s, offset) => .index () s e offset) base

theorem Expr.indexedBy_concat (base : Expr Unit) (subs : List (Span × Expr Unit)) (s : Span)
    (offset : Expr Unit) :
    base.indexedBy (subs ++ [(s, offset)]) = .index () s (base.indexedBy subs) offset := by
  simp [indexedBy]

theorem Wasm.Instr.Straight.isPlain {n : Nat} {i : Instr} (h : i.Straight n) :
    i.isPlain = true := by
  cases i <;> first | rfl | exact h.elim

/-- The code of an expression has no blocks. -/
theorem Expr.isPlain_of_emit {globals : Globals} {e : Expr Ty} {s s' : Frame} {code : Code}
    (hs : s.Sound) (h : e.emit globals s = .ok code s') : ∀ i ∈ code, i.isPlain = true := by
  have hRuns : Runs s s' s s' [] e.place _ := e.emit_runs hs h
  obtain ⟨u, -, hLowers⟩ := hRuns.placed
  exact fun i hi => ((hLowers (.refl _) (.refl _)).straight (Bindings.within_ofRun hs) e i hi).isPlain

theorem Expr.sound_of_emit {globals : Globals} {e : Expr Ty} {s s' : Frame} {code : Code}
    (hs : s.Sound) (h : e.emit globals s = .ok code s') : s'.Sound := by
  have hRuns : Runs s s' s s' [] e.place _ := e.emit_runs hs h
  exact hs.of_below hRuns.declares.below

namespace Wasm.Code

/-- With no operands on the stack the code leaves just the given index. -/
def LeavesIndex (R : Runtime) (code : Code) (i : Nat) (σ τ : State) : Prop :=
  exec R code { σ with stack := [] } = .ok () { τ with stack := [.i32 (.ofNat i)] }

theorem LeavesIndex.above {R : Runtime} {code : Code} {i : Nat} {σ τ : State}
    (h : LeavesIndex R code i σ τ) (hPlain : ∀ i ∈ code, i.isPlain = true) (vs : List Value) :
    exec R code { σ with stack := vs } = .ok () { τ with stack := .i32 (.ofNat i) :: vs } :=
  exec_keepsBelow R hPlain h vs

/-- One after another the codes leave the given indices. -/
def LeaveIndices (R : Runtime) : List Code → List Nat → State → State → Prop
  | [], [], σ, τ => σ = τ
  | c :: cs, i :: is, σ, τ => ∃ ρ, LeavesIndex R c i σ ρ ∧ LeaveIndices R cs is ρ τ
  | _, _, _, _ => False

namespace LeaveIndices

variable {R : Runtime} {cs : List Code} {c : Code} {is : List Nat} {σ τ : State}

theorem length_eq (h : LeaveIndices R cs is σ τ) : is.length = cs.length := by
  induction cs generalizing is σ with
  | nil =>
    cases is with
    | nil => rfl
    | cons i is => exact h.elim
  | cons c cs ih =>
    cases is with
    | nil => exact h.elim
    | cons i is =>
      obtain ⟨ρ, -, hRest⟩ := h
      exact congrArg (· + 1) (ih hRest)

theorem of_concat (h : LeaveIndices R (cs ++ [c]) is σ τ) :
    ∃ js j ρ, is = js ++ [j] ∧ LeaveIndices R cs js σ ρ ∧ LeavesIndex R c j ρ τ := by
  induction cs generalizing is σ with
  | nil =>
    cases is with
    | nil => exact h.elim
    | cons i is =>
      obtain ⟨ρ, hFirst, hRest⟩ := h
      cases is with
      | nil =>
        obtain rfl : ρ = τ := hRest
        exact ⟨[], i, σ, rfl, rfl, hFirst⟩
      | cons j is => exact hRest.elim
  | cons b cs ih =>
    cases is with
    | nil => exact h.elim
    | cons i is =>
      obtain ⟨ρ, hFirst, hRest⟩ := h
      obtain ⟨js, j, ρ', rfl, hAll, hLast⟩ := ih hRest
      exact ⟨i :: js, j, ρ', rfl, ⟨ρ, hFirst, hAll⟩, hLast⟩

end LeaveIndices

/-- Adds a scaled offset to an address. -/
theorem exec_scale {R : Runtime} {σ : State} {a o : Int32} {vs : List Value} (n : Nat)
    (h : σ.stack = .i32 o :: .i32 a :: vs) :
    exec R (Emit.scaleCode n ++ [Instr.numeric .i32 .add]) σ =
      .ok () { σ with stack := .i32 (a + o * wordOf n) :: vs } := by
  rw [Emit.scaleCode]
  split
  · next hOne =>
    rw [hOne, show wordOf 1 = 1 from rfl, Int32.mul_one]
    exact exec_pure (r := some (.i32 (a + o))) [.i32 a, .i32 o] rfl rfl h
  · have hScale : exec R [Instr.numeric .i32 .mul]
          { σ with stack := .i32 (wordOf n) :: .i32 o :: .i32 a :: vs } =
        .ok () { σ with stack := .i32 (o * wordOf n) :: .i32 a :: vs } :=
      exec_pure (r := some (.i32 (o * wordOf n))) [.i32 o, .i32 (wordOf n)] rfl rfl rfl
    rw [← List.singleton_append (x := pushAddress n), List.append_assoc,
      exec_append (.plain rfl) (.append (.plain rfl) (.plain rfl)),
      Action.bind_of_ok (exec_pushAddress R n σ), h, exec_append (.plain rfl) (.plain rfl),
      Action.bind_of_ok hScale]
    exact exec_pure (r := some (.i32 (a + o * wordOf n))) [.i32 a, .i32 (o * wordOf n)] rfl rfl rfl

end Wasm.Code

namespace Storage

/-- Where the slot holds the start of the storage, `code` leaves the address of the row or element
whose indices the given codes leave. -/
def Computes (A : Storage) (slot : Nat) (offsets : List Code) (code : Code) : Prop :=
  ∀ (R : Runtime) (is : List Nat) (σ τ : State), Inside A.sizes is →
    Code.LeaveIndices R offsets is σ τ → σ.locals[slot]? = some (.i32 (A.address [])) →
    Code.exec R code σ = .ok () { τ with stack := .i32 (A.address is) :: σ.stack }

variable {A : Storage} {slot : Nat}

theorem computes_localGet : A.Computes slot [] [.localGet slot] := by
  intro R is σ τ _ hIndices hSlot
  cases is with
  | nil =>
    obtain rfl : σ = τ := hIndices
    exact Code.exec_localGet hSlot
  | cons i is => exact hIndices.elim

theorem address_concat {is rest : List Nat} {d : Nat} (i : Nat)
    (h : A.sizes.drop is.length = d :: rest) :
    A.address (is ++ [i]) = A.address is + .ofNat i * .ofNat rest.prod := by
  rw [address, address, rowOffset_concat is i h, ← Nat.add_assoc, Int32.ofNat_add, Int32.ofNat_mul]

/-- One more offset, scaled by the length of the rows that it counts. -/
theorem Computes.index {cs : List Code} {code o : Code} (hCode : A.Computes slot cs code)
    (hPlain : ∀ i ∈ code, i.isPlain = true) (hOffset : ∀ i ∈ o, i.isPlain = true) {t : Ty}
    (ht : t.isArray = false) (hSizes : ∀ d ∈ A.sizes, d ≤ Ty.maxByteLength) {d : Nat}
    {rest : List Nat} (hDrop : A.sizes.drop cs.length = d :: rest) :
    A.Computes slot (cs ++ [o]) (addressCode (t.arrayOf (d :: rest)) code o) := by
  intro R js σ τ hInside hIndices hSlot
  obtain ⟨is, i, ρ, rfl, hRow, hLast⟩ := hIndices.of_concat
  have hDrop' : A.sizes.drop is.length = d :: rest := by rw [hRow.length_eq, hDrop]
  -- The rows counted by the offset lie in the page, so their length is a word.
  have hRest : rowLength A.sizes (is ++ [i]) = rest.prod := by
    rw [rowLength, List.length_append, List.length_singleton, ← List.drop_drop, hDrop']
    rfl
  have hPage : rest.prod ≤ Wasm.pageSize := by
    have hEnd := hInside.offset_add_length_le
    have hFits := A.fits
    omega
  have hSmall : rest.prod ≤ Ty.maxByteLength := Nat.le_trans hPage (by decide)
  have hStride : Emit.stride (t.arrayOf (d :: rest)) = rest.prod := by
    have hMem : ∀ e ∈ rest, e ≤ Ty.maxByteLength := fun e he =>
      hSizes e (List.mem_of_mem_drop (hDrop ▸ List.mem_cons_of_mem d he))
    rw [Emit.stride_arrayOf ht hMem, Nat.min_eq_left hSmall]
  have hBase := hCode R is σ ρ hInside.of_append hRow hSlot
  have hIndex := hLast.above hOffset (.i32 (A.address is) :: σ.stack)
  have hScale : ∀ i ∈ Emit.scaleCode rest.prod ++ [Instr.numeric .i32 .add], i.isPlain = true := by
    rw [Emit.scaleCode]
    split <;> simp [pushAddress, Instr.isPlain]
  rw [addressCode, hStride, List.append_assoc, List.append_assoc,
    Code.exec_append (Code.balanced_of_isPlain hPlain)
      ((Code.balanced_of_isPlain hOffset).append (Code.balanced_of_isPlain hScale)),
    Action.bind_of_ok hBase,
    Code.exec_append (Code.balanced_of_isPlain hOffset) (Code.balanced_of_isPlain hScale),
    Action.bind_of_ok hIndex, Code.exec_scale rest.prod rfl, wordOf_of_le hPage,
    ← address_concat i hDrop']

end Storage

theorem Checked.length_of_mapM {α β : Type} {f : α → Checked β} {as : List α} {bs : List β}
    (h : as.mapM f = .ok bs) : bs.length = as.length := by
  induction as generalizing bs with
  | nil =>
    cases h
    rfl
  | cons a as ih =>
    simp only [List.mapM_cons, Checked.bind_eq_ok_iff, Checked.pure_eq_ok_iff] at h
    obtain ⟨b, -, bs, hRest, rfl⟩ := h
    exact congrArg (· + 1) (ih hRest)

theorem Emit.length_of_mapM {α β : Type} {f : α → Emit β} {as : List α} {bs : List β}
    {s s' : Frame} (h : as.mapM f s = .ok bs s') : bs.length = as.length := by
  induction as generalizing bs s with
  | nil =>
    cases h
    rfl
  | cons a as ih =>
    simp only [List.mapM_cons, Action.bind_eq_ok_iff, Action.pure_eq_ok_iff] at h
    obtain ⟨b, _, -, bs, _, hRest, rfl, rfl⟩ := h
    exact congrArg (· + 1) (ih hRest)

namespace Storage

section

variable (A : Storage) (sigs : Signatures) (scope : Scope) (globals : Globals) (slot : Nat)

/-- Lowering an access leads from `s` to `s'`, and `address` is the part of its code that computes the
address from what the codes of the offsets leave. -/
def Locates (offsets : List (Expr Unit)) (s s' : Frame) (address : Code) : Prop :=
  ∃ (es : List (Expr Ty)) (cs : List Code), offsets.mapM (Expr.check sigs scope) = .ok es ∧
    es.mapM (Expr.emit globals) s = .ok cs s' ∧ A.Computes slot cs address

/-- The value of the expression is the element with the given offsets, or the address of a row if
there are fewer offsets than sizes. -/
structure Reads (t : Ty) (s : Frame) (offsets : List (Expr Unit)) (e : Expr Ty) : Prop where
  info : e.info = t.arrayOf (A.sizes.drop offsets.length)
  code {code : Code} {s' : Frame} : e.emit globals s = .ok code s' → ∃ address,
    A.Locates sigs scope globals slot offsets s s' address ∧
      code = address ++ if offsets.length = A.sizes.length then [Instr.load8S] else []

end

variable {A : Storage} {sigs : Signatures} {scope : Scope} {globals : Globals} {slot : Nat} {t : Ty}
  {offsets : List (Expr Unit)} {s s' : Frame}

theorem Locates.index {s₁ : Frame} {b c : Code}
    (hBase : A.Locates sigs scope globals slot offsets s s₁ b)
    (hPlain : ∀ i ∈ b, i.isPlain = true) (ht : t.isArray = false)
    (hSizes : ∀ d ∈ A.sizes, d ≤ Ty.maxByteLength) {d : Nat} {rest : List Nat}
    (hDrop : A.sizes.drop offsets.length = d :: rest) {offset : Expr Unit} {o : Expr Ty}
    (hCheck : offset.check sigs scope = .ok o) (hs : s₁.Sound)
    (hEmit : o.emit globals s₁ = .ok c s') :
    A.Locates sigs scope globals slot (offsets ++ [offset]) s s'
      (addressCode (t.arrayOf (d :: rest)) b c) := by
  obtain ⟨es, cs, hChecks, hEmits, hComputes⟩ := hBase
  refine ⟨es ++ [o], cs ++ [c], ?_, ?_, ?_⟩
  · simp only [List.mapM_append, List.mapM_cons, List.mapM_nil, Checked.bind_eq_ok_iff,
      Checked.pure_eq_ok_iff]
    exact ⟨es, hChecks, [o], ⟨o, hCheck, [], rfl, rfl⟩, rfl⟩
  · simp only [List.mapM_append, List.mapM_cons, List.mapM_nil, Action.bind_eq_ok_iff,
      Action.pure_eq_ok_iff]
    exact ⟨cs, s₁, hEmits, [c], s', ⟨c, s', hEmit, [], s', ⟨rfl, rfl⟩, rfl, rfl⟩, rfl, rfl⟩
  · refine hComputes.index hPlain (Expr.isPlain_of_emit hs hEmit) ht hSizes ?_
    rw [Emit.length_of_mapM hEmits, Checked.length_of_mapM hChecks, hDrop]

/-- One more subscript on what is not yet an element. -/
theorem Reads.index {base : Expr Ty} (hBase : A.Reads sigs scope globals slot t s offsets base)
    (ht : t.isArray = false) (hSizes : ∀ d ∈ A.sizes, d ≤ Ty.maxByteLength) (hs : s.Sound)
    (hLength : offsets.length < A.sizes.length) {ty : Ty} (hTy : base.info.element? = some ty)
    {offset : Expr Unit} {o : Expr Ty} (hOffset : offset.check sigs scope = .ok o) :
    ty = t.arrayOf (A.sizes.drop (offsets.length + 1)) ∧ ∀ {address : Code} {s' : Frame},
      Emit.elementAddress base (base.emit globals) (o.emit globals) s = .ok address s' →
        A.Locates sigs scope globals slot (offsets ++ [offset]) s s' address := by
  obtain ⟨d, rest, hDrop⟩ := List.exists_cons_of_length_pos
    (l := A.sizes.drop offsets.length) (by rw [List.length_drop]; omega)
  have hInfo : base.info = t.arrayOf (d :: rest) := by rw [hBase.info, hDrop]
  rw [hInfo] at hTy
  obtain rfl : t.arrayOf rest = ty := Option.some.inj hTy
  refine ⟨by rw [← List.drop_drop, hDrop]; rfl, fun {address s'} hAddress => ?_⟩
  obtain ⟨-, b, s₁, hB, c, hC, rfl⟩ := Emit.elementAddress_eq_ok hAddress
  obtain ⟨address, hLocates, hAll⟩ := hBase.code hB
  rw [if_neg (Nat.ne_of_lt hLength), List.append_nil] at hAll
  subst hAll
  rw [hInfo]
  exact hLocates.index (Expr.isPlain_of_emit hs hB) ht hSizes hDrop hOffset
    (Expr.sound_of_emit hs hB) hC

/-- In the scope and in the frame the name stands for the array in the slot. -/
structure Named (A : Storage) (globals : Globals) (slot : Nat) (t : Ty) (x : String) (scope : Scope)
    (s : Frame) : Prop where
  type : List.lookup x scope = some (t.arrayOf A.sizes)
  place : s.place? globals x = some (.slot slot)
  sound : s.Sound

section

variable {x : Ident} (hx : A.Named globals slot t x.name scope s) (ht : t.isArray = false)
  (hNe : A.sizes ≠ []) (hSizes : ∀ d ∈ A.sizes, d ≤ Ty.maxByteLength)

include hx ht hNe hSizes

/-- What checking makes of an access to the array. -/
theorem reads_of_check {s₀ : Span} {subs : List (Span × Expr Unit)}
    (hLength : subs.length ≤ A.sizes.length) {e : Expr Ty}
    (hCheck : ((Expr.var () s₀ x).indexedBy subs).check sigs scope = .ok e) :
    A.Reads sigs scope globals slot t s (subs.map Prod.snd) e := by
  induction subs using List.reverseRecOn generalizing e with
  | nil =>
    change (Expr.var () s₀ x).check sigs scope = .ok e at hCheck
    simp only [Expr.check, Checked.bind_eq_ok_iff, Checked.pure_eq_ok_iff,
      Scope.lookup_eq_ok_iff] at hCheck
    obtain ⟨ty, hTy, rfl⟩ := hCheck
    obtain rfl : t.arrayOf A.sizes = ty := Option.some.inj (hx.type.symm.trans hTy)
    refine ⟨rfl, fun {code s'} hEmit => ?_⟩
    obtain ⟨p, hp, rfl, rfl⟩ := Emit.readVariable_eq_ok_iff.mp hEmit
    obtain rfl : Place.slot slot = p := Option.some.inj (hx.place.symm.trans hp)
    refine ⟨[.localGet slot], ⟨[], [], rfl, rfl, computes_localGet⟩, ?_⟩
    have hZero : 0 ≠ A.sizes.length := fun h => hNe (List.eq_nil_of_length_eq_zero h.symm)
    rw [List.map_nil, List.length_nil, if_neg hZero]
    rfl
  | append_singleton subs sub ih =>
    obtain ⟨s₁, offset⟩ := sub
    rw [List.length_append, List.length_singleton] at hLength
    rw [Expr.indexedBy_concat] at hCheck
    simp only [Expr.check, Checked.bind_eq_ok_iff, Checked.pure_eq_ok_iff, elementTy_eq_ok_iff,
      ensureIndex_eq_ok_iff] at hCheck
    obtain ⟨base, hBase, ty, hTy, o, hOffset, -, -, rfl⟩ := hCheck
    have hRow := ih (Nat.le_of_succ_le hLength) hBase
    obtain ⟨rfl, hAddress⟩ :=
      hRow.index ht hSizes hx.sound (by rwa [List.length_map]) hTy hOffset
    rw [List.map_append, List.map_singleton]
    refine ⟨by rw [List.length_append]; rfl, fun {code s'} hEmit => ?_⟩
    simp only [Expr.emit, Action.bind_eq_ok_iff, Action.pure_eq_ok_iff] at hEmit
    obtain ⟨address, _, hEmit, rfl, rfl⟩ := hEmit
    refine ⟨address, hAddress hEmit, ?_⟩
    -- What the last subscript leads to is an array unless it was the last size.
    have hArray := Ty.isArray_arrayOf_drop ht A.sizes ((subs.map Prod.snd).length + 1)
    rw [List.length_append, List.length_singleton]
    rw [List.length_map] at hArray ⊢
    rcases Nat.eq_or_lt_of_le hLength with hLast | hMore
    · have hElement := mt hArray.mp (Nat.not_lt.mpr (Nat.le_of_eq hLast.symm))
      rw [if_pos hLast, if_neg hElement]
    · rw [if_neg (Nat.ne_of_lt hMore), if_pos (hArray.mpr hMore)]

/-- What checking and lowering make of a store into the array. -/
theorem locates_of_store {ctx : FunctionContext} {s₀ s₁ : Span}
    {subs : List (Span × Expr Unit)} (hLength : subs.length < A.sizes.length)
    {offset value : Expr Unit} {y : Stmt Ty} {scope' : Scope}
    (hCheck : (Stmt.store s₁ ((Expr.var () s₀ x).indexedBy subs) offset value).check ctx scope =
      .ok (y, scope')) {labels : List Label} {code : Code} {s' : Frame}
    (hEmit : y.emit globals labels s = .ok code s') :
    subs.length + 1 = A.sizes.length ∧ ∃ address v s₂,
      A.Locates ctx.signatures scope globals slot (subs.map Prod.snd ++ [offset]) s s₂ address ∧
      code = address ++ v ++ [Instr.store8] := by
  simp only [Stmt.check, Stmt.checkStore, Checked.bind_eq_ok_iff, Checked.pure_eq_ok_iff,
    elementTy_eq_ok_iff] at hCheck
  obtain ⟨_, ⟨base, hBase, ty, hTy, hCheck⟩, hEq⟩ := hCheck
  split at hCheck
  · cases hCheck
  · next hElement =>
    simp only [Checked.bind_eq_ok_iff, Checked.pure_eq_ok_iff] at hCheck
    obtain ⟨o, hOffset, _, -, v, -, rfl⟩ := hCheck
    cases hEq
    simp only [Stmt.emit, Action.bind_eq_ok_iff, Action.pure_eq_ok_iff] at hEmit
    obtain ⟨a, s₂, hEmit, w, _, -, rfl, rfl⟩ := hEmit
    have hRow := reads_of_check hx ht hNe hSizes (Nat.le_of_lt hLength) hBase
    obtain ⟨rfl, hAddress⟩ :=
      hRow.index ht hSizes hx.sound (by rwa [List.length_map]) hTy hOffset
    refine ⟨?_, a, w, s₂, hAddress hEmit, rfl⟩
    rw [Ty.isArray_arrayOf_drop ht, List.length_map, Nat.not_lt] at hElement
    exact Nat.le_antisymm hLength hElement

end

/-- Accesses to an array go through code that computes the addresses of its rows and elements,
wherever the name stands for the array. -/
structure Accessed (A : Storage) (globals : Globals) (slot : Nat) (t : Ty) (x : String) : Prop where
  /-- A subscript for every size reads an element; with fewer, the value is the address of a row. -/
  read {scope : Scope} {s : Frame} {y : Ident} : y.name = x →
    A.Named globals slot t x scope s → ∀ {sigs : Signatures} {s₀ : Span}
      {subs : List (Span × Expr Unit)} {e : Expr Ty}, subs.length ≤ A.sizes.length →
      ((Expr.var () s₀ y).indexedBy subs).check sigs scope = .ok e →
      A.Reads sigs scope globals slot t s (subs.map Prod.snd) e
  /-- A store is into an element. -/
  store {scope : Scope} {s : Frame} {y : Ident} : y.name = x →
    A.Named globals slot t x scope s → ∀ {ctx : FunctionContext} {s₀ s₁ : Span}
      {subs : List (Span × Expr Unit)} {offset value : Expr Unit} {z : Stmt Ty} {scope' : Scope}
      {labels : List Label} {code : Code} {s' : Frame}, subs.length < A.sizes.length →
      (Stmt.store s₁ ((Expr.var () s₀ y).indexedBy subs) offset value).check ctx scope =
        .ok (z, scope') →
      z.emit globals labels s = .ok code s' →
      subs.length + 1 = A.sizes.length ∧ ∃ address v s₂,
        A.Locates ctx.signatures scope globals slot (subs.map Prod.snd ++ [offset]) s s₂ address ∧
        code = address ++ v ++ [Instr.store8]

theorem accessed (A : Storage) (globals : Globals) (slot : Nat) {t : Ty} (x : String)
    (ht : t.isArray = false) (hNe : A.sizes ≠ [])
    (hSizes : ∀ d ∈ A.sizes, d ≤ Ty.maxByteLength) : A.Accessed globals slot t x where
  read := by
    rintro scope s y rfl hx sigs s₀ subs e hLength hCheck
    exact reads_of_check hx ht hNe hSizes hLength hCheck
  store := by
    rintro scope s y rfl hx ctx s₀ s₁ subs offset value z scope' labels code s' hLength hCheck hEmit
    exact locates_of_store hx ht hNe hSizes hLength hCheck hEmit

end Storage

end MiniC
