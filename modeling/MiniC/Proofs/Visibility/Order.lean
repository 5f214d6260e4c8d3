import Mathlib.Data.List.Nodup
import Mathlib.Logic.Equiv.Basic
import MiniC.Proofs.Sources
import MiniC.Proofs.Visibility.Items

/-! # The order of functions

Functions may stand in any order between two globals.  The globals before each of them stay the same,
and so do the signatures of all functions, up to their order.
-/
namespace MiniC
set_option autoImplicit false

variable {α β : Type}

/-- The second list is the first one in another order: at `i` stands what stood at `σ i`. -/
def Permuted (σ : Equiv.Perm Nat) (l l' : List β) : Prop := ∀ i, l'[i]? = l[σ i]?

namespace Permuted

variable {σ : Equiv.Perm Nat} {l l' : List β}

theorem symm (h : Permuted σ l l') : Permuted σ.symm l' l := by
  intro i
  rw [h, σ.apply_symm_apply]

theorem lt_iff (h : Permuted σ l l') (i : Nat) : i < l'.length ↔ σ i < l.length := by
  rw [← Nat.not_le, ← Nat.not_le, ← List.getElem?_eq_none_iff, ← List.getElem?_eq_none_iff, h i]

theorem perm (h : Permuted σ l l') : l'.Perm l := by
  have hFilter : ∀ l : List β, (List.range l.length).filterMap (l[·]?) = l := by
    intro l
    have hMap : (List.range l.length).map (l[·]?) = l.map some :=
      List.ext_getElem? fun i => by by_cases hi : i < l.length <;> simp [hi]
    have hIds := congrArg (List.filterMap id) hMap
    simpa [List.filterMap_map, Function.comp_def] using hIds
  have hRange : ((List.range l'.length).map σ).Perm (List.range l.length) := by
    refine (List.perm_ext_iff_of_nodup (List.nodup_range.map σ.injective) List.nodup_range).mpr ?_
    intro j
    simp only [List.mem_map, List.mem_range, h.lt_iff]
    exact ⟨fun ⟨i, hi, hj⟩ => hj ▸ hi, fun hj => ⟨σ.symm j, by simpa using hj, by simp⟩⟩
  have hPerm := hRange.filterMap (l[·]?)
  rw [List.filterMap_map, hFilter l] at hPerm
  rw [← hFilter l']
  simpa only [h _, Function.comp_def] using hPerm

theorem length_eq (h : Permuted σ l l') : l'.length = l.length := h.perm.length_eq

/-- A list can be put into the order of another list of its length. -/
theorem exists_of_length_eq {γ : Type} (h : Permuted σ l l') {xs : List γ}
    (hLength : xs.length = l.length) : ∃ xs', Permuted σ xs xs' := by
  have hLt : ∀ i, i < xs.length ↔ σ i < xs.length := by
    intro i
    rw [hLength, ← h.lt_iff, h.length_eq]
  let at' : Fin xs.length → γ := fun i => xs.get ⟨σ i, (hLt i).mp i.isLt⟩
  refine ⟨List.ofFn at', fun i => ?_⟩
  by_cases hi : i < xs.length
  · rw [List.getElem?_ofFn, dif_pos hi, List.getElem?_eq_getElem ((hLt i).mp hi)]
    rfl
  · have hσ : ¬ σ i < xs.length := fun hσ => hi ((hLt i).mpr hσ)
    rw [List.getElem?_ofFn, dif_neg hi, List.getElem?_eq_none (Nat.le_of_not_lt hσ)]

end Permuted

namespace Item

theorem length_seen (items : List (Item α)) : (seen items).length = items.countP isGlobal := by
  rw [seen, List.length_reverse, Program.globals, List.length_filterMap_eq_countP]
  congr
  funext item
  cases item <;> rfl

/-- If there are as many globals among the first `a` items as among the first `b`, they are the
same. -/
theorem seen_take_of_countP {items : List (Item α)} {a b : Nat}
    (h : (items.take a).countP isGlobal = (items.take b).countP isGlobal) :
    seen (items.take a) = seen (items.take b) := by
  have hPrefix : ∀ {a b}, a ≤ b →
      (items.take a).countP isGlobal = (items.take b).countP isGlobal →
      seen (items.take a) = seen (items.take b) := by
    intro a b hLe hCount
    refine congrArg List.reverse (List.IsPrefix.eq_of_length ?_ ?_)
    · exact (List.take_prefix_take_left hLe).filterMap _
    · simpa only [← length_seen, seen, List.length_reverse] using hCount
  rcases Nat.le_total a b with hLe | hLe
  · exact hPrefix hLe h
  · exact (hPrefix hLe h.symm).symm

/-- The item with nothing in its body. -/
def hollow : Item α → Item α
  | .global g => .global g
  | .function f => .function { f with body := [] }

@[simp] theorem prototype_hollow (item : Item α) : item.hollow.prototype = item.prototype := by
  cases item <;> rfl

theorem erase_hollow (item : Item α) : item.hollow.erase = item.erase.hollow := by
  cases item <;> rfl

theorem Annotated.hollow {sigs : Signatures} {globals : Scope} {item : Item Ty}
    (h : item.Annotated sigs globals) : item.hollow.Annotated sigs globals := by
  cases item with
  | global g => exact h
  | function f => exact ⟨_, .nil⟩

end Item

namespace Program

/-- The program with nothing in the bodies of its functions, except for the item at `i`. -/
def isolate (p : Program α) (i : Nat) : Program α :=
  ⟨p.items.mapIdx fun j item => if j = i then item else item.hollow⟩

theorem getElem?_isolate (p : Program α) (i j : Nat) :
    (p.isolate i).items[j]? = p.items[j]?.map fun item => if j = i then item else item.hollow := by
  rw [isolate, List.getElem?_mapIdx]

theorem prototypes_isolate (p : Program α) (i : Nat) :
    (p.isolate i).items.map Item.prototype = p.items.map Item.prototype := by
  refine List.ext_getElem? fun j => ?_
  rw [List.getElem?_map, List.getElem?_map, getElem?_isolate, Option.map_map]
  congr
  funext item
  simp only [Function.comp_apply]
  split
  · rfl
  · exact item.prototype_hollow

theorem erase_isolate (q : Program α) (i : Nat) : (q.isolate i).erase = q.erase.isolate i := by
  refine congrArg Program.mk (List.ext_getElem? fun j => ?_)
  change (q.isolate i).erase.items[j]? = (q.erase.isolate i).items[j]?
  rw [getElem?_erase, getElem?_isolate, getElem?_isolate, getElem?_erase, Option.map_map,
    Option.map_map]
  refine congrArg (Option.map · _) (funext fun item => ?_)
  simp only [Function.comp_apply]
  split
  · rfl
  · exact item.erase_hollow

/-- The check looks at every item by itself: what it says about one of them stays the same if the
bodies of all the others are emptied. -/
theorem check_isolate_iff (p : Program Unit) (q : Program Ty) :
    p.check = .ok q ↔ q.items.length = p.items.length ∧
      ∀ i < p.items.length, (p.isolate i).check = .ok (q.isolate i) := by
  have hEntries : ∀ i, (p.isolate i).functions.map Function.entry = p.functions.map Function.entry :=
    fun i => entries_congr (p.prototypes_isolate i)
  have hSeen : ∀ i j, Item.seen ((q.isolate i).items.take j) = Item.seen (q.items.take j) :=
    fun i j => Item.seen_take_congr (q.prototypes_isolate i) j
  simp only [check_eq_ok_iff_everyItem, EveryItem.iff_getElem?, erase_isolate, hSeen,
    signatures_congr (hEntries _)]
  constructor
  · rintro ⟨hRegisters, rfl, hItems⟩
    refine ⟨(List.length_map _).symm, fun i _ => ⟨hRegisters.congr (hEntries i).symm, rfl, ?_⟩⟩
    intro j item hItem
    rw [getElem?_isolate] at hItem
    obtain ⟨item', hItem', rfl⟩ := Option.map_eq_some_iff.mp hItem
    split
    · exact hItems j item' hItem'
    · exact (hItems j item' hItem').hollow
  · rintro ⟨hLength, hItems⟩
    have hAt : ∀ i, i < p.items.length →
        p.Registers ∧ q.erase.items[i]? = p.items[i]? ∧ ∀ item, q.items[i]? = some item →
          item.Annotated p.signatures (Item.seen (q.items.take i) ++ []) := by
      intro i hi
      obtain ⟨hRegisters, hErase, hAnnotated⟩ := hItems i hi
      refine ⟨hRegisters.congr (hEntries i), ?_, fun item hItem => hAnnotated i item ?_⟩
      · have hGet := congrArg (fun r => r.items[i]?) hErase
        simpa only [getElem?_isolate, if_true, Option.map_id'] using hGet
      · rw [getElem?_isolate, hItem]
        simp
    refine ⟨?_, congrArg Program.mk (List.ext_getElem? fun i => ?_), fun i item hItem => ?_⟩
    · rcases Nat.eq_zero_or_pos p.items.length with hZero | hPos
      · obtain ⟨items⟩ := p
        obtain rfl := List.eq_nil_of_length_eq_zero hZero
        exact ⟨by decide, by simp [functions]⟩
      · exact (hAt 0 hPos).1
    · by_cases hi : i < p.items.length
      · exact (hAt i hi).2.1
      · have hLe : q.items.length ≤ i := by omega
        rw [List.getElem?_map, List.getElem?_eq_none hLe, List.getElem?_eq_none (by omega)]
        rfl
    · have hLt := (List.getElem?_eq_some_iff.mp hItem).1
      exact (hAt i (hLength ▸ hLt)).2.2 item hItem

/-- The second program is the first one in another order, in which only functions have moved, and
none of them over a global: as many globals stand before its new place as before its old one. -/
structure Reorders (σ : Equiv.Perm Nat) (p p' : Program α) : Prop where
  permuted : Permuted σ p.items p'.items
  fixed : ∀ i item, p.items[i]? = some item → item.isGlobal = true → σ i = i
  between : ∀ i < p.items.length,
    (p.items.take (σ i)).countP Item.isGlobal = (p.items.take i).countP Item.isGlobal

namespace Reorders

variable {σ : Equiv.Perm Nat} {p p' : Program α}

/-- The globals have kept their places. -/
theorem globals_eq (h : Reorders σ p p') :
    p'.items.map (fun item => item.prototype.getRight?) =
      p.items.map fun item => item.prototype.getRight? := by
  refine List.ext_getElem? fun i => ?_
  rw [List.getElem?_map, List.getElem?_map]
  cases hItem : p.items[i]? with
  | none =>
    have hLe : p'.items.length ≤ i := h.permuted.length_eq ▸ List.getElem?_eq_none_iff.mp hItem
    rw [List.getElem?_eq_none hLe]
  | some item =>
    cases item with
    | global g => rw [h.permuted i, h.fixed i _ hItem rfl, hItem]
    | function f =>
      have hLt : i < p'.items.length :=
        h.permuted.length_eq ▸ (List.getElem?_eq_some_iff.mp hItem).1
      have hMoved := List.getElem?_eq_getElem hLt
      cases hOther : p'.items[i] with
      | global g =>
        rw [hOther, h.permuted i] at hMoved
        have hFixed := σ.injective (h.fixed (σ i) _ hMoved rfl)
        rw [hFixed, hItem] at hMoved
        cases hMoved
      | function f' =>
        rw [hMoved, hOther]
        rfl

theorem seen_take (h : Reorders σ p p') (k : Nat) :
    Item.seen (p'.items.take k) = Item.seen (p.items.take k) := by
  have hEq := congrArg (fun l => (l.take k).filterMap id) h.globals_eq
  simp only [← List.map_take, List.filterMap_map, Function.id_comp] at hEq
  rw [Item.seen, Item.seen, Program.globals_eq, Program.globals_eq, List.filterMap_map,
    List.filterMap_map]
  exact congrArg List.reverse hEq

theorem seen_take_apply (h : Reorders σ p p') {i : Nat} (hi : i < p.items.length) :
    Item.seen (p.items.take (σ i)) = Item.seen (p'.items.take i) := by
  rw [h.seen_take, Item.seen_take_of_countP (h.between i hi)]

theorem symm (h : Reorders σ p p') : Reorders σ.symm p' p where
  permuted := h.permuted.symm
  fixed i item hItem hGlobal := by
    have hFixed := h.fixed (σ i) item (h.permuted i ▸ hItem) hGlobal
    rw [Equiv.symm_apply_eq, σ.injective hFixed]
  between i hi := by
    have hCount : ∀ k, (p'.items.take k).countP Item.isGlobal =
        (p.items.take k).countP Item.isGlobal := fun k => by
      rw [← Item.length_seen, ← Item.length_seen, h.seen_take]
    have hLt : σ.symm i < p.items.length := by
      rw [← h.permuted.length_eq, h.permuted.lt_iff, σ.apply_symm_apply, ← h.permuted.length_eq]
      exact hi
    have hBetween := h.between (σ.symm i) hLt
    rw [σ.apply_symm_apply] at hBetween
    rw [hCount, hCount, hBetween]

theorem entries_perm (h : Reorders σ p p') :
    (p'.functions.map Function.entry).Perm (p.functions.map Function.entry) := by
  rw [entries_eq, entries_eq]
  exact (h.permuted.perm.map Item.prototype).filterMap Sum.getLeft?

theorem signatures_perm (h : Reorders σ p p') : p'.signatures.Perm p.signatures :=
  ((List.reverse_perm _).trans (h.entries_perm.trans (List.reverse_perm _).symm)).append_right _

theorem registers (h : Reorders σ p p') (hp : p.Registers) : p'.Registers where
  distinct := (h.signatures_perm.map Prod.fst).nodup_iff.mpr hp.distinct
  parameters e he := hp.parameters e (h.entries_perm.mem_iff.mp he)

theorem signatures_sub (h : Reorders σ p p') (hp : p.Registers) :
    Table.Sub p.signatures p'.signatures := fun _ _ hSig =>
  Table.lookup_of_mem (h.registers hp).distinct
    (h.signatures_perm.mem_iff.mpr (Table.mem_of_lookup hSig))

/-- The typed items of the reordered program are those of the program, in the new order. -/
theorem check {p p' : Program Unit} (h : Reorders σ p p') {q : Program Ty} (hq : p.check = .ok q) :
    ∃ q', p'.check = .ok q' ∧ Permuted σ q.items q'.items := by
  obtain ⟨hRegisters, rfl, hItems⟩ := check_eq_ok_iff_everyItem.mp hq
  obtain ⟨items', hPermuted⟩ : ∃ items', Permuted σ q.items items' :=
    h.permuted.exists_of_length_eq (List.length_map _).symm
  have hErase : (Program.mk items').erase = p' := by
    refine congrArg Program.mk (List.ext_getElem? fun i => ?_)
    rw [List.getElem?_map, hPermuted i, h.permuted i, getElem?_erase]
  refine ⟨⟨items'⟩, check_eq_ok_iff_everyItem.mpr ⟨h.registers hRegisters, hErase, ?_⟩, hPermuted⟩
  rw [EveryItem.iff_getElem?] at hItems ⊢
  intro i item hItem
  rw [hPermuted i] at hItem
  have hAnnotated := (hItems (σ i) item hItem).of_sub (h.signatures_sub hRegisters)
  have hLt : i < q.erase.items.length := by
    rw [← h.permuted.length_eq, h.permuted.lt_iff]
    simpa [erase] using (List.getElem?_eq_some_iff.mp hItem).1
  rw [← Item.seen_take_erase, h.seen_take_apply hLt] at hAnnotated
  rwa [← Item.seen_take_erase, hErase]

end Reorders

/-- The order of functions does not matter: a program in which functions have changed places, but
not over a global, passes the check if the program does, and the typed items are the same up to that
change.  What one function declares has no effect on another: the check of a program says the same
about each item when the bodies of all the others are emptied. -/
theorem check_reorders {σ : Equiv.Perm Nat} {p p' : Program Unit} (h : Reorders σ p p') :
    ((∃ q, p.check = .ok q) ↔ ∃ q', p'.check = .ok q') ∧
      (∀ q q', p.check = .ok q → p'.check = .ok q' → Permuted σ q.items q'.items) ∧
      ∀ q, p.check = .ok q ↔ q.items.length = p.items.length ∧
        ∀ i < p.items.length, (p.isolate i).check = .ok (q.isolate i) := by
  refine ⟨⟨?_, ?_⟩, ?_, p.check_isolate_iff⟩
  · rintro ⟨q, hq⟩
    obtain ⟨q', hq', -⟩ := h.check hq
    exact ⟨q', hq'⟩
  · rintro ⟨q', hq'⟩
    obtain ⟨q, hq, -⟩ := h.symm.check hq'
    exact ⟨q, hq⟩
  · intro q q' hq hq'
    obtain ⟨q'', hq'', hPermuted⟩ := h.check hq
    obtain rfl := Except.ok.inj (hq''.symm.trans hq')
    exact hPermuted

/-- Two functions that call each other, and one behind a global. -/
def mutualCalls : String :=
  "int f(int n) \x7b int k = n; return g(k); \x7d int g(int n) \x7b return f(n - 1); \x7d
   int x; int h() \x7b return f(x); \x7d"

/-- The items are those of `mutualCalls` up to names and bodies: all functions but the third one. -/
def globalThird : List (Item Unit) → Bool
  | [.function _, .function _, .global _, .function _] => true
  | _ => false

theorem reorders_swap {α : Type} (a b c : Function α) (g : Global α) :
    Reorders (Equiv.swap 0 1) ⟨[.function a, .function b, .global g, .function c]⟩
      ⟨[.function b, .function a, .global g, .function c]⟩ where
  permuted i := by
    match i with
    | 0 | 1 | 2 | 3 => rfl
    | i + 4 =>
      rw [Equiv.swap_apply_of_ne_of_ne (by omega) (by omega)]
      rfl
  fixed i item hItem hGlobal := by
    match i with
    | 0 | 1 | 3 =>
      cases hItem
      cases hGlobal
    | 2 => rfl
    | i + 4 => cases hItem
  between i hi := by
    match i with
    | 0 | 1 | 2 | 3 => rfl
    | i + 4 =>
      have hLt : i + 4 < 4 := hi
      omega

theorem check_reorders_mutualCalls :
    ∃ (p p' : Program Unit) (q q' : Program Ty), Program.parse mutualCalls = .ok p ∧
      Reorders (Equiv.swap 0 1) p p' ∧ p.check = .ok q ∧ p'.check = .ok q' ∧
      Permuted (Equiv.swap 0 1) q.items q'.items := by
  have hChecks : checksTo (fun p _ => globalThird p.items) mutualCalls = true :=
    checksTo_ofList (by decide +kernel)
  obtain ⟨⟨items⟩, q, hParse, hCheck, hTest⟩ := exists_of_checksTo hChecks
  unfold globalThird at hTest
  split at hTest
  · next a b g c hItems =>
    obtain rfl : items = _ := hItems
    have h := reorders_swap a b c g
    obtain ⟨hAccepted, hTyped, -⟩ := check_reorders h
    obtain ⟨q', hq'⟩ := hAccepted.mp ⟨q, hCheck⟩
    exact ⟨_, _, q, q', hParse, h, hCheck, hq', hTyped q q' hCheck hq'⟩
  · cases hTest

end Program

end MiniC
