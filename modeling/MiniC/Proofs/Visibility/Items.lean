import MiniC.Proofs.Visibility.Bodies

/-! # What the items of a program know about each other

An item is checked by itself, once the signatures of all functions and the globals before it are
known.  Both are read off the prototypes of the items: the signature of a function, the type of a
global.  Bodies and initial values have no part in that.
-/
namespace MiniC
set_option autoImplicit false

variable {α β : Type}

namespace Item

/-- What the rest of a program knows about an item: the signature of a function or the type of a
global. -/
def prototype : Item α → (String × Signature) ⊕ (String × Ty)
  | .function f => .inl f.entry
  | .global g => .inr (g.name.name, g.ty)

def isGlobal : Item α → Bool
  | .global _ => true
  | .function _ => false

@[simp] theorem prototype_erase (item : Item α) : item.erase.prototype = item.prototype := by
  cases item <;> rfl

/-- The globals that are seen after the given items. -/
def seen (items : List (Item α)) : Scope := (Program.mk items).globals.reverse

end Item

namespace Program

/-- The functions of the program can be made known: they have new names and no parameter of type
`void`. -/
structure Registers (p : Program α) : Prop where
  distinct : (p.signatures.map Prod.fst).Nodup
  parameters : ∀ e ∈ p.functions.map Function.entry, Ty.void ∉ e.2.params

theorem getElem?_erase (q : Program α) (j : Nat) :
    q.erase.items[j]? = q.items[j]?.map Item.erase := List.getElem?_map

theorem globals_eq (p : Program α) :
    p.globals = (p.items.map Item.prototype).filterMap Sum.getRight? := by
  rw [List.filterMap_map, globals]
  congr
  funext item
  cases item <;> rfl

theorem entries_eq (p : Program α) :
    p.functions.map Function.entry = (p.items.map Item.prototype).filterMap Sum.getLeft? := by
  rw [List.filterMap_map, functions, List.map_filterMap]
  congr
  funext item
  cases item <;> rfl

variable {p : Program α} {q : Program β}

theorem signatures_congr (h : p.functions.map Function.entry = q.functions.map Function.entry) :
    p.signatures = q.signatures := by
  rw [signatures, signatures, h]

theorem Registers.congr (h : p.functions.map Function.entry = q.functions.map Function.entry)
    (hp : p.Registers) : q.Registers :=
  ⟨signatures_congr h ▸ hp.distinct, h ▸ hp.parameters⟩

theorem entries_congr (h : p.items.map Item.prototype = q.items.map Item.prototype) :
    p.functions.map Function.entry = q.functions.map Function.entry := by
  rw [entries_eq, entries_eq, h]

end Program

theorem Item.seen_take_congr {xs : List (Item α)} {ys : List (Item β)}
    (h : xs.map Item.prototype = ys.map Item.prototype) (k : Nat) :
    seen (xs.take k) = seen (ys.take k) := by
  rw [seen, seen, Program.globals_eq, Program.globals_eq, List.map_take, List.map_take, h]

theorem Item.seen_take_erase (p : Program α) (k : Nat) :
    seen (p.erase.items.take k) = seen (p.items.take k) :=
  seen_take_congr (by simp [Program.erase]) k

theorem Item.seen_cons (item : Item α) (items : List (Item α)) :
    seen (item :: items) = seen items ++ seen [item] := by
  cases item <;> simp [seen, Program.globals]

theorem Item.seen_erase (item : Item α) : seen [item.erase] = seen [item] := by
  cases item <;> rfl

namespace EveryItem

variable {Q : List (String × Ty) → Item α → Prop} {globals : Scope}

theorem cons_iff {item : Item α} {items : List (Item α)} :
    EveryItem Q globals (item :: items) ↔
      Q globals item ∧ EveryItem Q (Item.seen [item] ++ globals) items := by
  cases item <;> rfl

/-- Items are looked at one by one, each with the globals before it. -/
theorem iff_getElem? {items : List (Item α)} :
    EveryItem Q globals items ↔
      ∀ i item, items[i]? = some item → Q (Item.seen (items.take i) ++ globals) item := by
  induction items generalizing globals with
  | nil => simp [EveryItem]
  | cons item items ih =>
    rw [cons_iff, ih]
    constructor
    · rintro ⟨hFirst, hRest⟩ i x hx
      cases i with
      | zero =>
        cases hx
        exact hFirst
      | succ i =>
        rw [List.take_succ_cons, Item.seen_cons, List.append_assoc]
        exact hRest i x hx
    · intro h
      refine ⟨h 0 item rfl, fun i x hx => ?_⟩
      rw [← List.append_assoc, ← Item.seen_cons]
      exact h (i + 1) x hx

end EveryItem

namespace Item

variable {sigs sigs' : Signatures} {globals : Scope}

/-- There are annotations by the rules for the item. -/
def Accepted (sigs : Signatures) (globals : Scope) (item : Item Unit) : Prop :=
  ∃ item' : Item Ty, item'.erase = item ∧ item'.Annotated sigs globals

theorem Annotated.of_sub (hSigs : Table.Sub sigs sigs') {item : Item Ty}
    (h : item.Annotated sigs globals) : item.Annotated sigs' globals := by
  cases item with
  | global g =>
    obtain ⟨hVoid, hFresh, hInit⟩ := h
    exact ⟨hVoid, hFresh, Expr.optionAs_transport hSigs (.refl _ _) hInit⟩
  | function f => exact Function.annotated_transport hSigs (.refl _ _) h

/-- If all items can be annotated, then so can the list of them. -/
theorem exists_annotated_iff {items : List (Item Unit)} :
    (∃ items' : List (Item Ty), items'.map erase = items ∧
      EveryItem (Annotated sigs) globals items') ↔ EveryItem (Accepted sigs) globals items := by
  induction items generalizing globals with
  | nil => simp [EveryItem]
  | cons item items ih =>
    constructor
    · rintro ⟨_ | ⟨item', items'⟩, hErase, hEvery⟩
      · cases hErase
      · obtain ⟨rfl, rfl⟩ := List.cons.inj hErase
        obtain ⟨hItem, hRest⟩ := EveryItem.cons_iff.mp hEvery
        rw [EveryItem.cons_iff, seen_erase]
        exact ⟨⟨item', rfl, hItem⟩, ih.mp ⟨items', rfl, hRest⟩⟩
    · intro h
      obtain ⟨⟨item', rfl, hItem⟩, hRest⟩ := EveryItem.cons_iff.mp h
      rw [seen_erase] at hRest
      obtain ⟨items', rfl, hEvery⟩ := ih.mpr hRest
      exact ⟨item' :: items', rfl, EveryItem.cons_iff.mpr ⟨hItem, hEvery⟩⟩

end Item

namespace Program

theorem void_notMem_params_iff {f : Function α} :
    Ty.void ∉ f.entry.2.params ↔ ∀ q ∈ f.params, q.ty ≠ .void := by
  simp [Function.entry, eq_comm]

/-- The check registers the functions and then annotates the items. -/
theorem check_eq_ok_iff_everyItem {p : Program Unit} {q : Program Ty} :
    p.check = .ok q ↔
      p.Registers ∧ q.erase = p ∧ EveryItem (Item.Annotated p.signatures) [] q.items := by
  obtain ⟨items⟩ := p
  simp only [check, Checked.bind_eq_ok_iff, Checked.pure_eq_ok_iff, checkItems_eq_ok_iff]
  constructor
  · rintro ⟨sigs, hSigs, items', ⟨rfl, hItems⟩, rfl⟩
    obtain ⟨rfl, hDistinct, hParams⟩ := Signatures.of_foldlM hSigs (by decide)
    refine ⟨⟨hDistinct, ?_⟩, rfl, hItems⟩
    rw [List.forall_mem_map]
    exact fun f hf => void_notMem_params_iff.mpr (hParams f hf)
  · rintro ⟨⟨hDistinct, hParams⟩, hErase, hItems⟩
    rw [List.forall_mem_map] at hParams
    refine ⟨_, Signatures.foldlM_add hDistinct fun f hf => ?_, q.items, ⟨?_, hItems⟩, rfl⟩
    · exact void_notMem_params_iff.mp (hParams f hf)
    · exact congrArg Program.items hErase

/-- The check succeeds if the functions can be registered and every item can be annotated. -/
theorem exists_check_iff {p : Program Unit} :
    (∃ q, p.check = .ok q) ↔
      p.Registers ∧ EveryItem (Item.Accepted p.signatures) [] p.items := by
  rw [← Item.exists_annotated_iff]
  constructor
  · rintro ⟨q, hq⟩
    obtain ⟨hRegisters, rfl, hItems⟩ := check_eq_ok_iff_everyItem.mp hq
    exact ⟨hRegisters, q.items, rfl, hItems⟩
  · rintro ⟨hRegisters, items, hErase, hItems⟩
    refine ⟨⟨items⟩, check_eq_ok_iff_everyItem.mpr ⟨hRegisters, ?_, hItems⟩⟩
    rw [erase, hErase]

end Program

end MiniC
