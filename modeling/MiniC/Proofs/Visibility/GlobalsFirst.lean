import MiniC.Proofs.Sources
import MiniC.Proofs.Visibility.Items

/-! # Globals in front of the functions

A function sees the globals that stand before it.  If all globals are moved in front of the
functions, every function sees more of them and finds the same types as before, so that a program
that passes the check still does.  The other way around it fails exactly if a function uses a global
that stands behind it.
-/
namespace MiniC
set_option autoImplicit false

variable {α : Type}

namespace Item

theorem seen_append (xs ys : List (Item α)) : seen (xs ++ ys) = seen ys ++ seen xs := by
  simp only [seen, Program.globals, List.filterMap_append, List.reverse_append]

theorem seen_drop_append_take (items : List (Item α)) (i : Nat) :
    seen (items.drop i) ++ seen (items.take i) = seen items := by
  rw [← seen_append, List.take_append_drop]

theorem seen_drop_erase (p : Program α) (i : Nat) :
    seen (p.erase.items.drop i) = seen (p.items.drop i) := by
  rw [seen, seen, Program.globals_eq, Program.globals_eq, Program.erase, List.map_drop,
    List.map_drop, List.map_map]
  congr
  funext item
  exact item.prototype_erase

theorem seen_filter_isGlobal (items : List (Item α)) : seen (items.filter isGlobal) = seen items := by
  refine congrArg List.reverse ?_
  simp only [Program.globals, List.filterMap_filter]
  congr
  funext item
  cases item <;> rfl

end Item

namespace EveryItem

variable {Q : List (String × Ty) → Item α → Prop} {globals : Scope}

theorem append_iff {xs ys : List (Item α)} :
    EveryItem Q globals (xs ++ ys) ↔
      EveryItem Q globals xs ∧ EveryItem Q (Item.seen xs ++ globals) ys := by
  induction xs generalizing globals with
  | nil => simp [EveryItem, Item.seen, Program.globals]
  | cons x xs ih =>
    rw [List.cons_append, cons_iff, cons_iff, ih, Item.seen_cons x xs, List.append_assoc, and_assoc]

theorem filter_isGlobal_iff {items : List (Item α)} :
    EveryItem Q globals (items.filter Item.isGlobal) ↔
      EveryItem (fun globals item => item.isGlobal = true → Q globals item) globals items := by
  induction items generalizing globals with
  | nil => rfl
  | cons item items ih =>
    cases item with
    | global g =>
      rw [List.filter_cons_of_pos rfl, cons_iff, cons_iff, ih]
      simp [Item.isGlobal]
    | function f =>
      rw [List.filter_cons_of_neg (by simp [Item.isGlobal]), cons_iff, ih]
      simp [Item.isGlobal, Item.seen, Program.globals]

theorem filter_not_isGlobal_iff {items : List (Item α)} :
    EveryItem Q globals (items.filter fun item => !item.isGlobal) ↔
      ∀ f, .function f ∈ items → Q globals (.function f) := by
  induction items with
  | nil => simp [EveryItem]
  | cons item items ih =>
    cases item with
    | global g =>
      rw [List.filter_cons_of_neg (by simp [Item.isGlobal]), ih]
      simp
    | function f =>
      rw [List.filter_cons_of_pos rfl, cons_iff]
      simp [Item.seen, Program.globals, ih]

/-- If no global has a name that is seen where it stands, then all names are different. -/
theorem nodup_seen (hQ : ∀ globals g, Q globals (.global g) → g.name.name ∉ globals.map Prod.fst)
    {items : List (Item α)} (h : EveryItem Q globals items) (hGlobals : (globals.map Prod.fst).Nodup) :
    ((Item.seen items ++ globals).map Prod.fst).Nodup := by
  induction items generalizing globals with
  | nil => simpa [Item.seen, Program.globals] using hGlobals
  | cons item items ih =>
    obtain ⟨hItem, hRest⟩ := cons_iff.mp h
    rw [Item.seen_cons, List.append_assoc]
    refine ih hRest ?_
    cases item with
    | global g => exact List.nodup_cons.mpr ⟨hQ _ _ hItem, hGlobals⟩
    | function f => exact hGlobals

end EveryItem

namespace Program

/-- The program with all globals in front of the functions. -/
def globalsFirst (p : Program α) : Program α :=
  ⟨p.items.filter Item.isGlobal ++ p.items.filter fun item => !item.isGlobal⟩

/-- No function uses a global that stands behind it. -/
def LooksBack (p : Program α) : Prop :=
  ∀ i f, p.items[i]? = some (.function f) →
    ∀ x ∈ f.free, x.name ∉ (Item.seen (p.items.drop i)).map Prod.fst

theorem functions_globalsFirst (p : Program α) : p.globalsFirst.functions = p.functions := by
  have hGlobals : (Program.mk (p.items.filter Item.isGlobal)).functions = [] := by
    refine List.filterMap_eq_nil_iff.mpr fun item hItem => ?_
    cases item with
    | global g => rfl
    | function f => simp [Item.isGlobal] at hItem
  have hFunctions :
      (Program.mk (p.items.filter fun item => !item.isGlobal)).functions = p.functions := by
    rw [functions, functions, List.filterMap_filter]
    congr
    funext item
    cases item <;> rfl
  rw [functions, globalsFirst, List.filterMap_append]
  change (Program.mk _).functions ++ (Program.mk _).functions = _
  rw [hGlobals, hFunctions, List.nil_append]

theorem erase_globalsFirst (q : Program α) : q.globalsFirst.erase = q.erase.globalsFirst := by
  have hGlobal : ∀ item : Item α, item.erase.isGlobal = item.isGlobal := by
    intro item
    cases item <;> rfl
  simp only [erase, globalsFirst, List.map_append, List.filter_map, Function.comp_def, hGlobal]

theorem everyItem_globalsFirst_iff {Q : List (String × Ty) → Item α → Prop} {p : Program α} :
    EveryItem Q [] p.globalsFirst.items ↔
      EveryItem (fun globals item => item.isGlobal = true → Q globals item) [] p.items ∧
        ∀ f, .function f ∈ p.items → Q (Item.seen p.items) (.function f) := by
  rw [globalsFirst, EveryItem.append_iff, EveryItem.filter_isGlobal_iff,
    EveryItem.filter_not_isGlobal_iff, Item.seen_filter_isGlobal, List.append_nil]

/-- The names of globals that can be annotated are different. -/
theorem nodup_seen {q : Program Ty} {sigs : Signatures}
    (h : EveryItem (Item.Annotated sigs) [] q.items) (i : Nat) :
    ((Item.seen (q.items.drop i) ++ Item.seen (q.items.take i)).map Prod.fst).Nodup := by
  rw [Item.seen_drop_append_take]
  simpa using EveryItem.nodup_seen (fun _ _ hItem => hItem.2.1) h List.nodup_nil

/-- A name of a global before an item is not the name of a global behind it. -/
theorem not_mem_drop_of_mem_take {q : Program Ty} {sigs : Signatures}
    (h : EveryItem (Item.Annotated sigs) [] q.items) {i : Nat} {x : String}
    (hx : x ∈ (Item.seen (q.items.take i)).map Prod.fst) :
    x ∉ (Item.seen (q.items.drop i)).map Prod.fst := by
  intro hx'
  have hNodup := nodup_seen h i
  rw [List.map_append] at hNodup
  exact (List.nodup_append.mp hNodup).2.2 x hx' x hx rfl

theorem check_globalsFirst_of_check {p : Program Unit} {q : Program Ty} (h : p.check = .ok q) :
    p.globalsFirst.check = .ok q.globalsFirst := by
  obtain ⟨hRegisters, rfl, hItems⟩ := check_eq_ok_iff_everyItem.mp h
  have hEntries : q.erase.globalsFirst.functions.map Function.entry =
      q.erase.functions.map Function.entry := by
    rw [functions_globalsFirst]
  refine check_eq_ok_iff_everyItem.mpr
    ⟨hRegisters.congr hEntries.symm, q.erase_globalsFirst, ?_⟩
  rw [signatures_congr hEntries, everyItem_globalsFirst_iff]
  refine ⟨hItems.imp fun _ _ hItem _ => hItem, fun f hf => ?_⟩
  obtain ⟨i, hi⟩ := List.getElem?_of_mem hf
  have hAnnotated := EveryItem.iff_getElem?.mp hItems i _ hi
  rw [List.append_nil] at hAnnotated
  refine Function.annotated_transport (.refl _) ?_ hAnnotated
  intro x _ ty hSees
  have hBefore : x.name ∈ (Item.seen (q.items.take i)).map Prod.fst :=
    List.mem_map_of_mem (Table.mem_of_lookup hSees)
  rw [← Item.seen_drop_append_take q.items i, Scope.Sees, List.lookup_append,
    Table.lookup_eq_none_iff.mpr (not_mem_drop_of_mem_take hItems hBefore)]
  exact hSees

theorem looksBack_of_check {p : Program Unit} {q : Program Ty} (h : p.check = .ok q) :
    p.LooksBack := by
  obtain ⟨-, rfl, hItems⟩ := check_eq_ok_iff_everyItem.mp h
  intro i f hf x hx
  rw [getElem?_erase] at hf
  obtain ⟨item, hItem, hErase⟩ := Option.map_eq_some_iff.mp hf
  cases item with
  | global g => cases hErase
  | function f' =>
    cases hErase
    have hAnnotated := EveryItem.iff_getElem?.mp hItems i _ hItem
    rw [List.append_nil] at hAnnotated
    rw [Function.free_erase] at hx
    have hAfter := not_mem_drop_of_mem_take hItems (Function.free_known hAnnotated x hx)
    rwa [← Item.seen_drop_erase] at hAfter

theorem check_of_globalsFirst {p : Program Unit} {q : Program Ty}
    (h : p.globalsFirst.check = .ok q) (hBack : p.LooksBack) : ∃ q', p.check = .ok q' := by
  have hEntries : p.globalsFirst.functions.map Function.entry = p.functions.map Function.entry := by
    rw [functions_globalsFirst]
  obtain ⟨hRegisters, hItems⟩ := exists_check_iff.mp ⟨q, h⟩
  rw [signatures_congr hEntries, everyItem_globalsFirst_iff] at hItems
  obtain ⟨hGlobals, hFunctions⟩ := hItems
  refine exists_check_iff.mpr ⟨hRegisters.congr hEntries, EveryItem.iff_getElem?.mpr ?_⟩
  intro i item hItem
  cases item with
  | global g => exact EveryItem.iff_getElem?.mp hGlobals i _ hItem rfl
  | function f =>
    obtain ⟨item', hErase, hAnnotated⟩ := hFunctions f (List.mem_of_getElem? hItem)
    cases item' with
    | global g => cases hErase
    | function f' =>
      cases hErase
      refine ⟨.function f', rfl, Function.annotated_transport (.refl _) ?_ hAnnotated⟩
      intro x hx ty hSees
      rw [← Function.free_erase] at hx
      rw [← Item.seen_drop_append_take p.items i, Scope.Sees, List.lookup_append,
        Table.lookup_eq_none_iff.mpr (hBack i _ hItem x hx)] at hSees
      rw [List.append_nil]
      exact hSees

/-- Moving the globals in front of the functions has no effect on a program that passes the check,
apart from the order of its typed items.  A program passes the check if it does so after the move and
no function uses a global that stands behind it. -/
theorem check_globalsFirst (p : Program Unit) :
    (∀ q, p.check = .ok q → p.globalsFirst.check = .ok q.globalsFirst) ∧
      ((∃ q, p.check = .ok q) ↔ (∃ q, p.globalsFirst.check = .ok q) ∧ p.LooksBack) := by
  refine ⟨fun q => check_globalsFirst_of_check, ?_, ?_⟩
  · rintro ⟨q, hq⟩
    exact ⟨⟨_, check_globalsFirst_of_check hq⟩, looksBack_of_check hq⟩
  · rintro ⟨⟨q, hq⟩, hBack⟩
    exact check_of_globalsFirst hq hBack

/-- A function uses a global that stands behind it. -/
def laterGlobal : String := "int f() \x7b return x; \x7d int x;"

/-- The check fails, since it has not found the name. -/
def misses (name : String) (p : Program Unit) : Bool :=
  match p.check with
  | .error e => decide (e.value = .undefinedName name)
  | .ok _ => false

/-- A global is not known before the check gets to it. -/
theorem check_laterGlobal :
    ∃ (p : Program Unit) (s : Span) (q : Program Ty), Program.parse laterGlobal = .ok p ∧
      p.check = .error ⟨s, .undefinedName "x"⟩ ∧ p.globalsFirst.check = .ok q := by
  have hTest : (match Program.parse laterGlobal with
      | .ok p => p.misses "x" && p.globalsFirst.check.isOk
      | .error _ => false) = true := by
    rw [show Program.parse laterGlobal = _ from Program.parse_ofList _]
    decide +kernel
  cases hParse : Program.parse laterGlobal with
  | error e =>
    rw [hParse] at hTest
    cases hTest
  | ok p =>
    rw [hParse] at hTest
    obtain ⟨hMisses, hOk⟩ := Bool.and_eq_true_iff.mp hTest
    cases hFirst : p.globalsFirst.check with
    | error e =>
      rw [hFirst] at hOk
      cases hOk
    | ok q =>
      rw [misses] at hMisses
      split at hMisses
      · next e hCheck =>
        obtain ⟨s, value⟩ := e
        cases of_decide_eq_true hMisses
        exact ⟨p, s, q, rfl, hCheck, hFirst⟩
      · cases hMisses

end Program

end MiniC
