import MiniC.Proofs.Typing.Stmt

/-! # Well-typed programs

A program that passes the check is well-typed, its functions have different names, none of them that
of a function of the host, and its globals have different names.
-/
namespace MiniC
set_option autoImplicit false

namespace Function

/-- The name can be used in the function at the given type: the function declares it there, or it is
a global that no parameter hides. -/
def Occurs {α : Type} (f : Function α) (globals : Scope) (x : Ident) (ty : Ty) : Prop :=
  (x.name, ty) ∈ f.declarations ∨
    (x.name ∉ f.parameters.map Prod.fst ∧ (x.name, ty) ∈ globals)

def WellTyped (sigs : Signatures) (globals : Scope) (f : Function Ty) : Prop :=
  Stmt.WellTypedAll ⟨sigs, f.name.name, f.returnTy⟩ (f.Occurs globals) f.body

/-- The scope in which the body of a function is checked. -/
theorem foldl_declare (params : List Param) (globals : Scope) :
    params.foldl (fun scope p => scope.declare p.name p.ty) globals =
      (params.map fun p => (p.name.name, p.ty)).reverse ++ globals := by
  simp [Scope.declare]

theorem occurs_of_lookup {f : Function Ty} {globals added : Scope}
    (hAdded : ∀ d ∈ added, d ∈ f.locals) {x : Ident} {ty : Ty}
    (h : List.lookup x.name (added ++ (f.parameters.reverse ++ globals)) = some ty) :
    f.Occurs globals x ty := by
  rw [List.lookup_append, List.lookup_append] at h
  cases hLocal : List.lookup x.name added with
  | some t =>
    rw [hLocal] at h
    cases h
    exact .inl (List.mem_append_right _ (hAdded _ (Table.mem_of_lookup hLocal)))
  | none =>
    rw [hLocal] at h
    cases hParam : List.lookup x.name f.parameters.reverse with
    | some t =>
      rw [hParam] at h
      cases h
      exact .inl (List.mem_append_left _ (List.mem_reverse.mp (Table.mem_of_lookup hParam)))
    | none =>
      rw [hParam] at h
      refine .inr ⟨?_, Table.mem_of_lookup h⟩
      simpa using Table.lookup_eq_none_iff.mp hParam

theorem wellTyped_of_check {sigs : Signatures} {globals : Scope} {f : Function Unit}
    {f' : Function Ty} (h : f.check sigs globals = .ok f') :
    f'.name = f.name ∧ f'.returnTy = f.returnTy ∧ f'.params = f.params ∧
      f'.WellTyped sigs globals := by
  simp only [Function.check, Checked.bind_eq_ok_iff, Checked.pure_eq_ok_iff, Prod.exists] at h
  obtain ⟨body, scope', hBody, rfl⟩ := h
  refine ⟨rfl, rfl, rfl, ?_⟩
  rw [foldl_declare] at hBody
  obtain ⟨⟨added, hPerm, rfl⟩, hTyped⟩ := Stmt.passes_of_checkAll f.body hBody
  apply hTyped
  rintro _ ⟨before, rfl⟩ hHigh x ty hLookup
  have hBefore : before <:+ added := List.suffix_append_self_iff.mp hHigh
  apply occurs_of_lookup _ hLookup
  intro d hd
  exact hPerm.mem_iff.mp (hBefore.subset hd)

/-- The name of a function with its signature. -/
def entry {α : Type} (f : Function α) : String × Signature :=
  (f.name.name, ⟨f.params.map Param.ty, f.returnTy⟩)

end Function

/-- The signatures of the functions of a program and of the host. -/
def Program.signatures {α : Type} (p : Program α) : Signatures :=
  (p.functions.map Function.entry).reverse ++ Signatures.host

def Item.WellTyped (sigs : Signatures) (globals : Scope) : Item Ty → Prop
  | .global g =>
    g.ty ≠ .void ∧ g.name.name ∉ globals.map Prod.fst ∧
      ∀ e ∈ g.init, e.WellTypedAs sigs (fun x ty => (x.name, ty) ∈ globals) g.ty
  | .function f => f.WellTyped sigs globals

structure Program.WellTyped (p : Program Ty) (sigs : Signatures) : Prop where
  signatures : sigs = (p.functions.map Function.entry).reverse ++ Signatures.host
  distinct : (sigs.map Prod.fst).Nodup
  parameters : ∀ f ∈ p.functions, ∀ q ∈ f.params, q.ty ≠ .void
  items : EveryItem (Item.WellTyped sigs) [] p.items

theorem Signatures.ne_void_of_forM {params : List Param} {u : PUnit}
    (h : params.forM (fun p => ensureNotVoid p.name p.ty) = .ok u) :
    ∀ p ∈ params, p.ty ≠ .void := by
  induction params with
  | nil => simp
  | cons p params ih =>
    simp only [List.forM, Checked.bind_eq_ok_iff] at h
    obtain ⟨_, hVoid, h⟩ := h
    intro q hq
    rcases List.mem_cons.mp hq with rfl | hq
    · exact ensureNotVoid_eq_ok_iff.mp hVoid
    · exact ih h q hq

theorem Signatures.of_add {sigs sigs' : Signatures} {f : Function Unit}
    (h : sigs.add f = .ok sigs') :
    sigs' = f.entry :: sigs ∧ f.name.name ∉ sigs.map Prod.fst ∧
      ∀ p ∈ f.params, p.ty ≠ .void := by
  simp only [Signatures.add, Checked.bind_eq_ok_iff] at h
  obtain ⟨_, hParams, h⟩ := h
  split at h
  · cases h
  · rename_i hFresh
    cases h
    refine ⟨rfl, ?_, ?_⟩
    · exact Table.lookup_eq_none_iff.mp (Option.not_isSome_iff_eq_none.mp hFresh)
    · exact ne_void_of_forM hParams

theorem Signatures.of_foldlM {fs : List (Function Unit)} {sigs sigs' : Signatures}
    (h : fs.foldlM Signatures.add sigs = .ok sigs') (hNodup : (sigs.map Prod.fst).Nodup) :
    sigs' = (fs.map Function.entry).reverse ++ sigs ∧ (sigs'.map Prod.fst).Nodup ∧
      ∀ f ∈ fs, ∀ p ∈ f.params, p.ty ≠ .void := by
  induction fs generalizing sigs with
  | nil =>
    cases h
    exact ⟨rfl, hNodup, by simp⟩
  | cons f fs ih =>
    rw [List.foldlM_cons, Checked.bind_eq_ok_iff] at h
    obtain ⟨_, hAdd, h⟩ := h
    obtain ⟨rfl, hFresh, hParams⟩ := Signatures.of_add hAdd
    obtain ⟨rfl, hNodup', hRest⟩ := ih h (List.nodup_cons.mpr ⟨hFresh, hNodup⟩)
    refine ⟨by simp, hNodup', ?_⟩
    intro g hg
    rcases List.mem_cons.mp hg with rfl | hg
    · exact hParams
    · exact hRest g hg

theorem Global.wellTyped_of_check {sigs : Signatures} {globals : Scope} {g : Global Unit}
    {g' : Global Ty} (h : g.check sigs globals = .ok g') :
    g'.name = g.name ∧ g'.ty = g.ty ∧ g'.ty ≠ .void ∧ g'.name.name ∉ globals.map Prod.fst ∧
      ∀ e ∈ g'.init, e.WellTypedAs sigs (fun x ty => (x.name, ty) ∈ globals) g'.ty := by
  simp only [Global.check, Checked.bind_eq_ok_iff, ensureNotVoid_eq_ok_iff] at h
  obtain ⟨_, hVoid, h⟩ := h
  split at h
  · cases h
  · rename_i hFresh
    simp only [Checked.bind_eq_ok_iff, Checked.pure_eq_ok_iff] at h
    obtain ⟨init', hInit, rfl⟩ := h
    refine ⟨rfl, rfl, hVoid, ?_, ?_⟩
    · exact Table.lookup_eq_none_iff.mp (Option.not_isSome_iff_eq_none.mp hFresh)
    · exact Expr.wellTypedAs_of_checkOptionAs (fun _ _ => Table.mem_of_lookup) hInit

theorem wellTyped_of_checkItems {sigs : Signatures} {globals : Scope}
    {items : List (Item Unit)} {items' : List (Item Ty)}
    (h : checkItems sigs globals items = .ok items') :
    EveryItem (Item.WellTyped sigs) globals items' ∧
      (Program.mk items').functions.map Function.entry =
        (Program.mk items).functions.map Function.entry := by
  induction items generalizing globals items' with
  | nil =>
    cases h
    exact ⟨trivial, rfl⟩
  | cons item items ih =>
    cases item with
    | global g =>
      simp only [checkItems, Checked.bind_eq_ok_iff, Checked.pure_eq_ok_iff] at h
      obtain ⟨g', hG, rest, hRest, rfl⟩ := h
      obtain ⟨-, -, hVoid, hFresh, hInit⟩ := Global.wellTyped_of_check hG
      obtain ⟨hTyped, hEntries⟩ := ih hRest
      exact ⟨⟨⟨hVoid, hFresh, hInit⟩, hTyped⟩, hEntries⟩
    | function f =>
      simp only [checkItems, Checked.bind_eq_ok_iff, Checked.pure_eq_ok_iff] at h
      obtain ⟨f', hF, rest, hRest, rfl⟩ := h
      obtain ⟨hName, hReturn, hParams, hBody⟩ := Function.wellTyped_of_check hF
      obtain ⟨hTyped, hEntries⟩ := ih hRest
      refine ⟨⟨hBody, hTyped⟩, ?_⟩
      change f'.entry :: _ = f.entry :: _
      rw [Function.entry, hName, hReturn, hParams]
      exact congrArg _ hEntries

theorem Program.wellTyped_of_check {p : Program Unit} {p' : Program Ty} (h : p.check = .ok p') :
    ∃ sigs, p'.WellTyped sigs := by
  simp only [Program.check, Checked.bind_eq_ok_iff, Checked.pure_eq_ok_iff] at h
  obtain ⟨sigs, hSigs, items, hItems, rfl⟩ := h
  obtain ⟨rfl, hNodup, hParams⟩ := Signatures.of_foldlM hSigs (by decide)
  obtain ⟨hTyped, hEntries⟩ := wellTyped_of_checkItems hItems
  refine ⟨_, ?_, hNodup, ?_, hTyped⟩
  · rw [hEntries]
  · intro f hf q hq
    have hEntry : f.entry ∈ p.functions.map Function.entry := by
      rw [← hEntries]
      exact List.mem_map_of_mem hf
    obtain ⟨f₀, hf₀, hEq⟩ := List.mem_map.mp hEntry
    have hTys : f₀.params.map Param.ty = f.params.map Param.ty :=
      congrArg (fun e => e.2.params) hEq
    have hTy : q.ty ∈ f₀.params.map Param.ty := hTys ▸ List.mem_map_of_mem hq
    obtain ⟨q₀, hq₀, hTy⟩ := List.mem_map.mp hTy
    exact hTy ▸ hParams f₀ hf₀ q₀ hq₀

end MiniC
