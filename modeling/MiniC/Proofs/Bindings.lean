import MiniC.Proofs.Lowering.Program
import MiniC.Proofs.Typing.Program

/-! # Names have the machine types that the check saw

In a function that declares no name at two machine types, it does not matter which of the declarations
of a name is found: all places that the name may have hold values of one machine type.
-/
namespace MiniC
set_option autoImplicit false

open Wasm (Code ValType)

variable {α : Type}

namespace EveryItem

/-- What holds of the items and of the globals at all holds of each item with those before it. -/
theorem of_forall {Q : List (String × Ty) → Item α → Prop} {globals : List (String × Ty)}
    {items : List (Item α)}
    (h : ∀ before, ∀ item ∈ items, (∀ g ∈ before, g ∈ globals ∨ g ∈ (Program.mk items).globals) →
      Q before item) : EveryItem Q globals items := by
  induction items generalizing globals with
  | nil => trivial
  | cons item items ih =>
    cases item with
    | global g =>
      refine ⟨h _ _ List.mem_cons_self fun _ hg => .inl hg, ih ?_⟩
      intro before item hItem hBefore
      apply h before item (List.mem_cons_of_mem _ hItem)
      intro g' hg'
      rcases hBefore g' hg' with hg' | hg'
      · rcases List.mem_cons.mp hg' with rfl | hg'
        · exact .inr List.mem_cons_self
        · exact .inl hg'
      · exact .inr (List.mem_cons_of_mem _ hg')
    | function f =>
      refine ⟨h _ _ List.mem_cons_self fun _ hg => .inl hg, ih ?_⟩
      intro before item hItem hBefore
      exact h before item (List.mem_cons_of_mem _ hItem) hBefore

end EveryItem

namespace Stmt

variable {ctx : FunctionContext} {occurs : Ident → Ty → Prop}

mutual

theorem ne_void_of_mem_locals (x : Stmt Ty) (h : x.WellTyped ctx occurs) :
    ∀ d ∈ x.locals, d.2 ≠ .void := by
  cases x with
  | declare s name ty init => simpa [locals] using h.1
  | branch s cond thenBody elseBody =>
    intro d hd
    rcases List.mem_append.mp hd with hd | hd
    · exact ne_void_of_mem_localsAll thenBody h.2.1 d hd
    · exact ne_void_of_mem_localsAll elseBody h.2.2 d hd
  | loop s kind cond body => exact ne_void_of_mem_localsAll body h.2
  | forLoop s init cond update body =>
    intro d hd
    rcases List.mem_append.mp hd with hd | hd
    · rcases List.mem_append.mp hd with hd | hd
      · exact ne_void_of_mem_localsOption init h.1 d hd
      · exact ne_void_of_mem_localsOption update h.2.2.1 d hd
    · exact ne_void_of_mem_localsAll body h.2.2.2 d hd
  | _ => simp [locals]

theorem ne_void_of_mem_localsAll (xs : List (Stmt Ty)) (h : WellTypedAll ctx occurs xs) :
    ∀ d ∈ localsAll xs, d.2 ≠ .void := by
  cases xs with
  | nil => simp [localsAll]
  | cons x xs =>
    intro d hd
    rcases List.mem_append.mp hd with hd | hd
    · exact ne_void_of_mem_locals x h.1 d hd
    · exact ne_void_of_mem_localsAll xs h.2 d hd

theorem ne_void_of_mem_localsOption (x? : Option (Stmt Ty)) (h : WellTypedOption ctx occurs x?) :
    ∀ d ∈ localsOption x?, d.2 ≠ .void := by
  cases x? with
  | none => simp [localsOption]
  | some x => exact ne_void_of_mem_locals x h

end

end Stmt

theorem Function.WellTyped.ne_void_of_occurs {sigs : Signatures} {globals : Scope} {f : Function Ty}
    (h : f.WellTyped sigs globals) (hParams : ∀ q ∈ f.params, q.ty ≠ .void)
    (hGlobals : ∀ g ∈ globals, g.2 ≠ .void) : ∀ x ty, f.Occurs globals x ty → ty ≠ .void := by
  rintro x ty (hx | ⟨-, hx⟩)
  · rcases List.mem_append.mp hx with hx | hx
    · obtain ⟨q, hq, hEq⟩ := List.mem_map.mp hx
      obtain ⟨-, rfl⟩ := Prod.mk.inj hEq
      exact hParams q hq
    · exact Stmt.ne_void_of_mem_localsAll f.body h _ hx
  · exact hGlobals _ hx

/-- Globals as the check lets them pass. -/
structure Scope.Sound (globals : Scope) : Prop where
  distinct : (globals.map Prod.fst).Nodup
  nonvoid : ∀ g ∈ globals, g.2 ≠ .void

theorem EveryItem.sound {sigs : Signatures} {globals : Scope} {items : List (Item Ty)}
    (h : EveryItem (Item.WellTyped sigs) globals items) (hs : globals.Sound) :
    EveryItem (fun globals _ => Scope.Sound globals) globals items := by
  induction items generalizing globals with
  | nil => trivial
  | cons item items ih =>
    cases item with
    | global g =>
      obtain ⟨⟨hVoid, hFresh, -⟩, hRest⟩ := h
      refine ⟨hs, ih hRest ⟨List.nodup_cons.mpr ⟨hFresh, hs.distinct⟩, ?_⟩⟩
      intro g' hg'
      rcases List.mem_cons.mp hg' with rfl | hg'
      · exact hVoid
      · exact hs.nonvoid g' hg'
    | function f => exact ⟨hs, ih h.2 hs⟩

/-- What is known about a function whose program has been checked, together with the globals before
it. -/
structure Function.Regular (sigs : Signatures) (globals : Scope) (f : Function Ty) : Prop where
  typed : f.WellTyped sigs globals
  sound : globals.Sound
  nonvoid : ∀ x ty, f.Occurs globals x ty → ty ≠ .void
  voidFree : ∀ x ty, f.Occurs globals x ty → ty.reachesVoid = false
  oneMachineType : f.OneMachineType globals

def Item.Regular (sigs : Signatures) (globals : Scope) : Item Ty → Prop
  | .global _ => True
  | .function f => f.Regular sigs globals

namespace Program

theorem VoidFree.everyItem {p : Program Ty} (h : p.VoidFree) :
    EveryItem (fun globals item => (∀ g ∈ globals, g.2.reachesVoid = false) ∧
      ∀ f, item = .function f → ∀ d ∈ f.declarations, d.2.reachesVoid = false) [] p.items := by
  refine EveryItem.of_forall fun before item hItem hBefore => ⟨?_, ?_⟩
  · intro g hg
    rcases hBefore g hg with hg | hg
    · cases hg
    · exact h _ (List.mem_append_left _ (List.mem_map_of_mem hg))
  · rintro f rfl d hd
    refine h _ (List.mem_append_right _ (List.mem_flatMap.mpr ⟨f, mem_functions hItem, ?_⟩))
    exact List.mem_cons_of_mem _ (List.mem_map_of_mem hd)

theorem regular {p : Program Ty} {sigs : Signatures} (hTyped : p.WellTyped sigs)
    (hVoid : p.VoidFree) (hOne : p.OneMachineType) :
    EveryItem (Item.Regular sigs) [] p.items := by
  have hParams : EveryItem (fun _ item => ∀ f, item = .function f → ∀ q ∈ f.params, q.ty ≠ .void)
      [] p.items := by
    refine EveryItem.of_forall fun _ item hItem _ => ?_
    rintro f rfl
    exact hTyped.parameters f (mem_functions hItem)
  have hSound := hTyped.items.sound ⟨List.nodup_nil, by simp⟩
  refine ((((hTyped.items.and hSound).and hVoid.everyItem).and hOne).and hParams).imp ?_
  rintro globals (g | f) ⟨⟨⟨⟨hItem, hGlobals⟩, hVoidGlobals, hVoidLocals⟩, hOne⟩, hParams⟩
  · trivial
  · refine ⟨hItem, hGlobals, ?_, ?_, hOne⟩
    · exact Function.WellTyped.ne_void_of_occurs hItem (hParams f rfl) hGlobals.nonvoid
    · rintro x ty (hx | ⟨-, hx⟩)
      · exact hVoidLocals f rfl _ hx
      · exact hVoidGlobals _ hx

end Program

/-- Every place fits every type at which its name is used. -/
structure Bindings.Typed (B : Bindings) (slots : List ValType) (occurs : Ident → Ty → Prop) :
    Prop where
  place : ∀ {x : Ident} {p : Place} {ty : Ty}, B.place x.name p → occurs x ty →
    p.HasType slots ty.valType
  spare : ∀ {t : ValType} {n : Nat}, B.spare t n → slots[n]? = some t
  declared : ∀ {x : String} {ty : Ty} {n : Nat}, B.declared x ty n → slots[n]? = some ty.valType

namespace Function

variable {f : Function Ty} {fn : Wasm.Function} {cells : Globals} {m : Memory} {start fin : Frame}
  {code : Code} {arrays : List (String × Nat)}

/-- Every named slot belongs to a declaration. -/
theorem Lowered.declaration (h : f.Lowered fn cells m start fin code arrays) {x : String} {n : Nat}
    (hn : (x, n) ∈ fin.names) :
    ∃ ty, (x, ty) ∈ f.declarations ∧ fin.slots[n]? = some ty.valType := by
  obtain ⟨added, hPerm, hNames, -, hSlots⟩ := (h.begun.trans h.declares).names
  rw [hNames, List.append_nil] at hn
  obtain ⟨⟨⟨y, ty⟩, k⟩, hd, hEq⟩ := List.mem_map.mp hn
  cases hEq
  exact ⟨ty, hPerm.mem_iff.mp (List.mem_map_of_mem hd), (hSlots _ hd).2⟩

theorem Lowered.named_of_param (h : f.Lowered fn cells m start fin code arrays) {x : String}
    (hx : x ∈ f.parameters.map Prod.fst) : x ∈ start.names.map Prod.fst := by
  rw [h.paramNames, List.map_reverse, List.mem_reverse, List.zipIdx_map_fst]
  simpa [parameters] using hx

theorem Lowered.typed (h : f.Lowered fn cells m start fin code arrays) {sigs : Signatures}
    (hRegular : f.Regular sigs cells.scope) :
    (Bindings.ofRun cells start fin).Typed fin.slots (f.Occurs cells.scope) where
  spare := And.left
  declared := And.right
  place := by
    rintro x p ty ⟨s, hLow, hHigh, hPlace⟩ hOccurs
    obtain ⟨hOne, hOneGlobal⟩ := hRegular.oneMachineType
    rw [Frame.place?] at hPlace
    cases hSlot : List.lookup x.name s.names with
    | some n =>
      rw [hSlot] at hPlace
      cases hPlace
      have hName := Frame.mem_names_of_below hHigh (Table.mem_of_lookup hSlot)
      obtain ⟨ty', hDeclared, hTy'⟩ := h.declaration hName
      rw [Place.HasType, hTy']
      rcases hOccurs with hx | ⟨hParam, hx⟩
      · rw [hOne _ hDeclared _ hx rfl]
      · have hLocal : (x.name, ty') ∈ f.locals :=
          (List.mem_append.mp hDeclared).resolve_left fun hd => hParam (List.mem_map_of_mem hd)
        rw [hOneGlobal _ hLocal _ hx rfl]
    | none =>
      rw [hSlot] at hPlace
      obtain ⟨⟨address, ty'⟩, hCell, rfl⟩ := Option.map_eq_some_iff.mp hPlace
      have hGlobal : (x.name, ty') ∈ cells.scope :=
        List.mem_map.mpr ⟨_, Table.mem_of_lookup hCell, rfl⟩
      have hUnnamed : x.name ∉ f.parameters.map Prod.fst := by
        intro hParam
        obtain ⟨d, hd, hEq⟩ := List.mem_map.mp (h.named_of_param hParam)
        apply Table.lookup_eq_none_iff.mp hSlot
        exact hEq ▸ List.mem_map_of_mem (Frame.mem_names_of_below hLow hd)
      rw [Place.HasType]
      rcases hOccurs with hx | ⟨-, hx⟩
      · have hLocal : (x.name, ty) ∈ f.locals :=
          (List.mem_append.mp hx).resolve_left fun hd => hUnnamed (List.mem_map_of_mem hd)
        exact (hOneGlobal _ hLocal _ hGlobal rfl).symm
      · have hLookup := Table.lookup_of_mem hRegular.sound.distinct hGlobal
        rw [Table.lookup_of_mem hRegular.sound.distinct hx] at hLookup
        rw [Option.some.inj hLookup]

end Function

end MiniC
