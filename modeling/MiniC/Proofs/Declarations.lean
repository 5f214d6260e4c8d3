import MiniC.Code.Frame

/-! # The names that a program declares

Blocks do not open a scope, so what counts for a function is only which names its parameters and the
declarations anywhere in its body introduce, and at which types.
-/
namespace MiniC
set_option autoImplicit false

namespace Table

variable {κ β : Type} [DecidableEq κ]

theorem mem_of_lookup {k : κ} {b : β} {l : List (κ × β)} (h : l.lookup k = some b) :
    (k, b) ∈ l := by
  obtain ⟨l₁, l₂, rfl, _⟩ := List.lookup_eq_some_iff.mp h
  simp

theorem lookup_eq_none_iff {k : κ} {l : List (κ × β)} :
    l.lookup k = none ↔ k ∉ l.map Prod.fst := by
  rw [List.lookup_eq_none_iff]
  constructor
  · intro h hk
    obtain ⟨d, hd, rfl⟩ := List.mem_map.mp hk
    simpa using h d hd
  · intro h d hd
    have hne : k ≠ d.1 := fun he => h (he ▸ List.mem_map_of_mem hd)
    simpa using hne

theorem lookup_of_mem {k : κ} {b : β} {l : List (κ × β)} (hNodup : (l.map Prod.fst).Nodup)
    (h : (k, b) ∈ l) : l.lookup k = some b := by
  induction l with
  | nil => cases h
  | cons d l ih =>
    obtain ⟨hFresh, hNodup⟩ := List.nodup_cons.mp hNodup
    rw [List.lookup_cons]
    rcases List.mem_cons.mp h with rfl | h
    · simp
    · have hne : k ≠ d.1 := by
        rintro rfl
        exact hFresh (List.mem_map.mpr ⟨_, h, rfl⟩)
      rw [beq_eq_false_iff_ne.mpr hne]
      exact ih hNodup h

/-- A key is found under its new name if no other key has got that name. -/
theorem lookup_map_fst {κ' : Type} [DecidableEq κ'] {f : κ → κ'} {k : κ} {l : List (κ × β)}
    (h : ∀ d ∈ l, f k = f d.1 → k = d.1) :
    (l.map (Prod.map f id)).lookup (f k) = l.lookup k := by
  induction l with
  | nil => rfl
  | cons d l ih =>
    obtain ⟨hd, hl⟩ := List.forall_mem_cons.mp h
    rw [List.map_cons, List.lookup_cons, List.lookup_cons, ih hl, Prod.map_fst]
    by_cases hk : k = d.1
    · simp [hk]
    · rw [beq_eq_false_iff_ne.mpr hk, beq_eq_false_iff_ne.mpr fun he => hk (hd he)]

end Table

variable {α : Type}

namespace Stmt

mutual

/-- The declarations in a statement. -/
def locals : Stmt α → List (String × Ty)
  | declare _ x ty _ => [(x.name, ty)]
  | branch _ _ thenBody elseBody => localsAll thenBody ++ localsAll elseBody
  | loop _ _ _ body => localsAll body
  | forLoop _ init _ update body => localsOption init ++ localsOption update ++ localsAll body
  | _ => []

def localsAll : List (Stmt α) → List (String × Ty)
  | [] => []
  | x :: xs => x.locals ++ localsAll xs

def localsOption : Option (Stmt α) → List (String × Ty)
  | none => []
  | some x => x.locals

end

end Stmt

namespace Function

def parameters (f : Function α) : List (String × Ty) := f.params.map fun p => (p.name.name, p.ty)

def locals (f : Function α) : List (String × Ty) := Stmt.localsAll f.body

/-- Everything that a function declares. -/
def declarations (f : Function α) : List (String × Ty) := f.parameters ++ f.locals

end Function

namespace Program

theorem mem_functions {p : Program α} {f : Function α} (h : .function f ∈ p.items) :
    f ∈ p.functions :=
  List.mem_filterMap.mpr ⟨_, h, rfl⟩

theorem mem_items {p : Program α} {f : Function α} (h : f ∈ p.functions) :
    .function f ∈ p.items := by
  obtain ⟨item, hItem, hEq⟩ := List.mem_filterMap.mp h
  cases item with
  | global g => cases hEq
  | function g =>
    cases hEq
    exact hItem

def globals (p : Program α) : List (String × Ty) :=
  p.items.filterMap fun
    | .global g => some (g.name.name, g.ty)
    | .function _ => none

/-- The types of the globals, of the parameters and local variables and of the results. -/
def declaredTypes (p : Program α) : List Ty :=
  p.globals.map Prod.snd ++ p.functions.flatMap fun f => f.returnTy :: f.declarations.map Prod.snd

end Program

/-- A pointer or an array at whose end there is nothing. -/
def Ty.reachesVoid (t : Ty) : Bool := t.isIndexable && t.base = .void

/-- No declared type is a pointer or an array whose base type is `void`. -/
def Program.VoidFree (p : Program α) : Prop := ∀ t ∈ p.declaredTypes, t.reachesVoid = false

instance (p : Program α) : Decidable p.VoidFree := inferInstanceAs (Decidable (∀ _ ∈ _, _))

/-- Every name that a function declares is declared there once, and no global has it. -/
def Program.NamesApart (p : Program α) : Prop :=
  ∀ f ∈ p.functions, (f.declarations.map Prod.fst).Nodup ∧
    ∀ x ∈ f.declarations.map Prod.fst, x ∉ p.globals.map Prod.fst

instance (p : Program α) : Decidable p.NamesApart := inferInstanceAs (Decidable (∀ _ ∈ _, _ ∧ _))

/-- The two declarations may share their name as far as the machine is concerned. -/
def SameMachineType (a b : String × Ty) : Prop := a.1 = b.1 → a.2.valType = b.2.valType

instance (a b : String × Ty) : Decidable (SameMachineType a b) :=
  inferInstanceAs (Decidable (_ → _))

/-- No name is declared at two types with different machine types, neither twice in the function nor
in its body and by a global.  A parameter may hide any global. -/
def Function.OneMachineType (f : Function α) (globals : List (String × Ty)) : Prop :=
  (∀ a ∈ f.declarations, ∀ b ∈ f.declarations, SameMachineType a b) ∧
    ∀ a ∈ f.locals, ∀ g ∈ globals, SameMachineType a g

instance (f : Function α) (globals : List (String × Ty)) : Decidable (f.OneMachineType globals) :=
  inferInstanceAs (Decidable (_ ∧ _))

/-- Every item has the property together with the globals that stand before it. -/
def EveryItem (Q : List (String × Ty) → Item α → Prop) :
    List (String × Ty) → List (Item α) → Prop
  | _, [] => True
  | globals, .global g :: items =>
    Q globals (.global g) ∧ EveryItem Q ((g.name.name, g.ty) :: globals) items
  | globals, .function f :: items => Q globals (.function f) ∧ EveryItem Q globals items

instance decidableEveryItem (Q : List (String × Ty) → Item α → Prop)
    [∀ globals item, Decidable (Q globals item)] :
    (globals : List (String × Ty)) → (items : List (Item α)) → Decidable (EveryItem Q globals items)
  | _, [] => inferInstanceAs (Decidable True)
  | globals, .global g :: items =>
    have := decidableEveryItem Q ((g.name.name, g.ty) :: globals) items
    inferInstanceAs (Decidable (_ ∧ _))
  | globals, .function _ :: items =>
    have := decidableEveryItem Q globals items
    inferInstanceAs (Decidable (_ ∧ _))

theorem EveryItem.and {Q R : List (String × Ty) → Item α → Prop} {globals : List (String × Ty)}
    {items : List (Item α)} (hQ : EveryItem Q globals items) (hR : EveryItem R globals items) :
    EveryItem (fun globals item => Q globals item ∧ R globals item) globals items := by
  induction items generalizing globals with
  | nil => trivial
  | cons item items ih =>
    cases item with
    | global g => exact ⟨⟨hQ.1, hR.1⟩, ih hQ.2 hR.2⟩
    | function f => exact ⟨⟨hQ.1, hR.1⟩, ih hQ.2 hR.2⟩

theorem EveryItem.imp {Q R : List (String × Ty) → Item α → Prop} {globals : List (String × Ty)}
    {items : List (Item α)} (h : EveryItem Q globals items)
    (hImp : ∀ globals item, Q globals item → R globals item) : EveryItem R globals items := by
  induction items generalizing globals with
  | nil => trivial
  | cons item items ih =>
    cases item with
    | global g => exact ⟨hImp _ _ h.1, ih h.2⟩
    | function f => exact ⟨hImp _ _ h.1, ih h.2⟩

def Item.OneMachineType (globals : List (String × Ty)) : Item α → Prop
  | .global _ => True
  | .function f => f.OneMachineType globals

instance (globals : List (String × Ty)) : (item : Item α) → Decidable (item.OneMachineType globals)
  | .global _ => inferInstanceAs (Decidable True)
  | .function f => inferInstanceAs (Decidable (f.OneMachineType globals))

/-- Every function keeps to one machine type for each name. -/
def Program.OneMachineType (p : Program α) : Prop := EveryItem Item.OneMachineType [] p.items

instance (p : Program α) : Decidable p.OneMachineType :=
  inferInstanceAs (Decidable (EveryItem _ _ _))

namespace Ty

theorem reachesVoid_eq_false_iff (t : Ty) :
    t.reachesVoid = false ↔ (t.isIndexable = true → t.base ≠ .void) := by
  rw [reachesVoid, Bool.and_eq_false_imp]
  simp only [decide_eq_false_iff_not, ne_eq]

theorem base_of_element {t e : Ty} (h : t.element? = some e) : t.base = e.base := by
  cases t <;> cases h <;> rfl

theorem isIndexable_of_element {t e : Ty} (h : t.element? = some e) : t.isIndexable = true := by
  cases t <;> first | rfl | cases h

theorem reachesVoid_of_element {t e : Ty} (h : t.element? = some e) (ht : t.reachesVoid = false) :
    e ≠ .void ∧ e.reachesVoid = false := by
  have hBase : e.base ≠ .void := by
    rw [← base_of_element h]
    exact (reachesVoid_eq_false_iff t).mp ht (isIndexable_of_element h)
  refine ⟨?_, (reachesVoid_eq_false_iff e).mpr fun _ => hBase⟩
  rintro rfl
  exact hBase rfl

theorem valType_of_isIntegral {t : Ty} (h : t.isIntegral = true) : t.valType = .i32 := by
  cases t <;> first | rfl | cases h

theorem valType_of_isIndexable {t : Ty} (h : t.isIndexable = true) : t.valType = .i32 := by
  cases t <;> first | rfl | cases h

theorem valType_of_element {t e : Ty} (h : t.element? = some e) : t.valType = .i32 :=
  valType_of_isIndexable (isIndexable_of_element h)

theorem valType_of_ne_float {t : Ty} (h : t ≠ .float) : t.valType = .i32 := by
  cases t <;> first | rfl | cases h rfl

theorem valType_of_isArray {t : Ty} (h : t.isArray = true) : t.valType = .i32 := by
  cases t <;> first | rfl | cases h

/-- What can be stored has the machine type of its target. -/
theorem valType_of_isAssignable {target value : Ty} (h : target.isAssignable value = true) :
    target.valType = value.valType := by
  rcases (isAssignable_iff target value).mp h with rfl | ⟨ht, hv⟩ | ⟨t, n, rfl, rfl⟩
  · rfl
  · rw [valType_of_isIntegral ht, valType_of_isIntegral hv]
  · rfl

/-- Nothing can be stored where `void` is expected, and `void` nowhere else. -/
theorem isAssignable_void_iff {target value : Ty} (h : target.isAssignable value = true) :
    target = .void ↔ value = .void := by
  rcases (isAssignable_iff target value).mp h with rfl | ⟨ht, hv⟩ | ⟨t, n, rfl, rfl⟩
  · rfl
  · constructor <;> rintro rfl <;> simp_all [isIntegral]
  · simp

end Ty

end MiniC
