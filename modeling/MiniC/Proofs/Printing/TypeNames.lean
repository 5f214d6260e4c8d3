import MiniC.Proofs.Printing.Checked
import MiniC.Proofs.Printing.Names

/-! # What the name of a type tells

The name of a type has a star for each pointer, the name of the innermost type and the size of each
array.  It does not tell how pointers and arrays are nested in each other.  In the types that can be
declared no pointer leads to an array, and these are known by their names; a checked program has no
other types.
-/
namespace MiniC
set_option autoImplicit false

namespace Ty

/-- The number of pointers in the type. -/
def pointers : Ty → Nat
  | pointer t => t.pointers + 1
  | array t _ => t.pointers
  | _ => 0

/-- The sizes of the arrays in the type, the innermost one first. -/
def sizes : Ty → List Nat
  | pointer t => t.sizes
  | array t n => t.sizes ++ [n]
  | _ => []

/-- The types differ at most in how pointers and arrays are nested in each other. -/
structure SameParts (a b : Ty) : Prop where
  base : a.base = b.base
  pointers : a.pointers = b.pointers
  sizes : a.sizes = b.sizes

namespace SameParts

variable {a b c : Ty}

theorem refl (a : Ty) : a.SameParts a := ⟨rfl, rfl, rfl⟩

theorem symm (h : a.SameParts b) : b.SameParts a := ⟨h.1.symm, h.2.symm, h.3.symm⟩

theorem trans (h : a.SameParts b) (h' : b.SameParts c) : a.SameParts c :=
  ⟨h.1.trans h'.1, h.2.trans h'.2, h.3.trans h'.3⟩

theorem pointer (h : a.SameParts b) : a.pointer.SameParts b.pointer :=
  ⟨h.base, congrArg (· + 1) h.pointers, h.sizes⟩

theorem array (h : a.SameParts b) (n : Nat) : (a.array n).SameParts (b.array n) :=
  ⟨h.base, h.pointers, congrArg (· ++ [n]) h.sizes⟩

/-- A pointer may go outside of arrays. -/
theorem pointer_arrayOf (t : Ty) (sizes : List Nat) :
    (t.pointer.arrayOf sizes).SameParts (t.arrayOf sizes).pointer := by
  induction sizes with
  | nil => exact .refl _
  | cons n sizes ih =>
    have hExchange : ((t.arrayOf sizes).pointer.array n).SameParts
        ((t.arrayOf sizes).array n).pointer := ⟨rfl, rfl, rfl⟩
    exact (ih.array n).trans hExchange

end SameParts

/-- The declarable type with the same parts, all arrays being outside of the pointers. -/
def declared (t : Ty) : Ty := (t.base.pointerTo t.pointers).arrayOf t.sizes.reverse

theorem declared_pointer (t : Ty) :
    t.pointer.declared = (t.base.pointerTo t.pointers).pointer.arrayOf t.sizes.reverse := rfl

theorem declared_array (t : Ty) (n : Nat) : (t.array n).declared = t.declared.array n := by
  rw [declared, sizes, List.reverse_concat]
  rfl

theorem isDeclarable_declared (t : Ty) : t.declared.isDeclarable = true := by
  have hBase : t.base.isFlat = true := by
    induction t with
    | pointer t ih | array t n ih => exact ih
    | _ => rfl
  exact isDeclarable_arrayOf (isDeclarable_of_isFlat (isFlat_pointerTo hBase _)) _

theorem sameParts_declared (t : Ty) : t.declared.SameParts t := by
  induction t with
  | pointer t ih =>
    rw [declared_pointer]
    exact (SameParts.pointer_arrayOf _ _).trans ih.pointer
  | array t n ih =>
    rw [declared_array]
    exact ih.array n
  | _ => exact .refl _

theorem nameChars_pointer_arrayOf (t : Ty) (sizes : List Nat) :
    (t.pointer.arrayOf sizes).nameChars = '*' :: (t.arrayOf sizes).nameChars := by
  induction sizes with
  | nil => rfl
  | cons n sizes ih =>
    rw [arrayOf_cons, nameChars, ih, arrayOf_cons, nameChars]
    rfl

theorem nameChars_declared (t : Ty) : t.declared.nameChars = t.nameChars := by
  induction t with
  | pointer t ih =>
    rw [declared_pointer, nameChars_pointer_arrayOf, nameChars]
    exact congrArg _ ih
  | array t n ih => rw [declared_array, nameChars, ih, nameChars]
  | _ => rfl

theorem name_declared (t : Ty) : t.declared.name = t.name :=
  congrArg String.ofList t.nameChars_declared

theorem name_eq_iff_sameParts {a b : Ty} : a.name = b.name ↔ a.SameParts b := by
  constructor
  · intro h
    have hDeclared : a.declared = b.declared := by
      refine name_inj a.isDeclarable_declared b.isDeclarable_declared ?_
      rw [name_declared, name_declared, h]
    exact (hDeclared ▸ a.sameParts_declared).symm.trans b.sameParts_declared
  · intro h
    have hDeclared : a.declared = b.declared := by
      rw [declared, declared, h.base, h.pointers, h.sizes]
    rw [← name_declared a, hDeclared, name_declared]

end Ty

/-! ## The types of a program -/

namespace Expr

mutual

/-- The types of the expression and of the expressions in it. -/
def types : Expr Ty → List Ty
  | const ty _ _ => [ty]
  | string ty _ _ => [ty]
  | var ty _ _ => [ty]
  | call ty _ _ args => ty :: typesAll args
  | binary ty _ _ lhs rhs => ty :: (lhs.types ++ rhs.types)
  | unary ty _ _ _ operand => ty :: operand.types
  | index ty _ base offset => ty :: (base.types ++ offset.types)

def typesAll : List (Expr Ty) → List Ty
  | [] => []
  | e :: es => e.types ++ typesAll es

end

def optionTypes : Option (Expr Ty) → List Ty
  | none => []
  | some e => e.types

mutual

theorem isDeclarable_of_mem_types (e : Expr Ty) (h : e.Legible declarable) :
    ∀ ty ∈ e.types, ty.isDeclarable = true := by
  cases e with
  | const ty s value | string ty s text => exact List.forall_mem_singleton.mpr h
  | var ty s x => exact List.forall_mem_singleton.mpr h.1
  | call ty s callee args =>
    exact List.forall_mem_cons.mpr ⟨h.1, isDeclarable_of_mem_typesAll args h.2.2⟩
  | binary ty s op lhs rhs =>
    refine List.forall_mem_cons.mpr ⟨h.1, List.forall_mem_append.mpr ⟨?_, ?_⟩⟩
    · exact isDeclarable_of_mem_types lhs h.2.1
    · exact isDeclarable_of_mem_types rhs h.2.2
  | unary ty s op fixity operand =>
    exact List.forall_mem_cons.mpr ⟨h.1, isDeclarable_of_mem_types operand h.2⟩
  | index ty s base offset =>
    refine List.forall_mem_cons.mpr ⟨h.1, List.forall_mem_append.mpr ⟨?_, ?_⟩⟩
    · exact isDeclarable_of_mem_types base h.2.1
    · exact isDeclarable_of_mem_types offset h.2.2

theorem isDeclarable_of_mem_typesAll (es : List (Expr Ty)) (h : LegibleAll declarable es) :
    ∀ ty ∈ typesAll es, ty.isDeclarable = true := by
  cases es with
  | nil => exact List.forall_mem_nil _
  | cons e es =>
    exact List.forall_mem_append.mpr
      ⟨isDeclarable_of_mem_types e h.1, isDeclarable_of_mem_typesAll es h.2⟩

end

theorem isDeclarable_of_mem_optionTypes (e? : Option (Expr Ty))
    (h : LegibleOption declarable e?) : ∀ ty ∈ optionTypes e?, ty.isDeclarable = true := by
  cases e? with
  | none => exact List.forall_mem_nil _
  | some e => exact isDeclarable_of_mem_types e (h e rfl)

end Expr

namespace Stmt

mutual

/-- The types that are declared in the statement, and those of the expressions in it. -/
def types : Stmt Ty → List Ty
  | ret _ value => Expr.optionTypes value
  | assign _ _ value => value.types
  | declare _ _ ty init => ty :: Expr.optionTypes init
  | store _ base offset value => base.types ++ (offset.types ++ value.types)
  | branch _ cond thenBody elseBody => cond.types ++ (typesAll thenBody ++ typesAll elseBody)
  | loop _ _ cond body => cond.types ++ typesAll body
  | forLoop _ init cond update body =>
    optionTypes init ++ (Expr.optionTypes cond ++ (optionTypes update ++ typesAll body))
  | jump _ _ => []
  | expr _ value => value.types

def typesAll : List (Stmt Ty) → List Ty
  | [] => []
  | x :: xs => x.types ++ typesAll xs

def optionTypes : Option (Stmt Ty) → List Ty
  | none => []
  | some x => x.types

end

mutual

theorem isDeclarable_of_mem_types (x : Stmt Ty) (h : x.Legible declarable) :
    ∀ ty ∈ x.types, ty.isDeclarable = true := by
  cases x with
  | ret s value => exact Expr.isDeclarable_of_mem_optionTypes value h
  | assign s target value => exact value.isDeclarable_of_mem_types h.2
  | declare s name ty init =>
    exact List.forall_mem_cons.mpr ⟨h.2.1, Expr.isDeclarable_of_mem_optionTypes init h.2.2⟩
  | store s base offset value =>
    refine List.forall_mem_append.mpr ⟨?_, List.forall_mem_append.mpr ⟨?_, ?_⟩⟩
    · exact base.isDeclarable_of_mem_types h.1
    · exact offset.isDeclarable_of_mem_types h.2.1
    · exact value.isDeclarable_of_mem_types h.2.2
  | branch s cond thenBody elseBody =>
    refine List.forall_mem_append.mpr ⟨?_, List.forall_mem_append.mpr ⟨?_, ?_⟩⟩
    · exact cond.isDeclarable_of_mem_types h.1
    · exact isDeclarable_of_mem_typesAll thenBody h.2.1
    · exact isDeclarable_of_mem_typesAll elseBody h.2.2
  | loop s kind cond body =>
    exact List.forall_mem_append.mpr
      ⟨cond.isDeclarable_of_mem_types h.1, isDeclarable_of_mem_typesAll body h.2⟩
  | forLoop s init cond update body =>
    refine List.forall_mem_append.mpr ⟨?_, List.forall_mem_append.mpr
      ⟨?_, List.forall_mem_append.mpr ⟨?_, ?_⟩⟩⟩
    · exact isDeclarable_of_mem_optionTypes init h.1
    · exact Expr.isDeclarable_of_mem_optionTypes cond h.2.1
    · exact isDeclarable_of_mem_optionTypes update h.2.2.1
    · exact isDeclarable_of_mem_typesAll body h.2.2.2
  | jump s j => exact List.forall_mem_nil _
  | expr s value => exact value.isDeclarable_of_mem_types h

theorem isDeclarable_of_mem_typesAll (xs : List (Stmt Ty)) (h : LegibleAll declarable xs) :
    ∀ ty ∈ typesAll xs, ty.isDeclarable = true := by
  cases xs with
  | nil => exact List.forall_mem_nil _
  | cons x xs =>
    exact List.forall_mem_append.mpr
      ⟨isDeclarable_of_mem_types x h.1, isDeclarable_of_mem_typesAll xs h.2⟩

theorem isDeclarable_of_mem_optionTypes (x? : Option (Stmt Ty))
    (h : LegibleOption declarable x?) : ∀ ty ∈ optionTypes x?, ty.isDeclarable = true := by
  cases x? with
  | none => exact List.forall_mem_nil _
  | some x => exact isDeclarable_of_mem_types x h

end

end Stmt

def Item.types : Item Ty → List Ty
  | .global g => g.ty :: Expr.optionTypes g.init
  | .function f => f.returnTy :: (f.params.map Param.ty ++ Stmt.typesAll f.body)

/-- All types in the program, the declared ones and those of its expressions. -/
def Program.types (p : Program Ty) : List Ty := p.items.flatMap Item.types

theorem Item.isDeclarable_of_mem_types {item : Item Ty} (h : item.Legible declarable) :
    ∀ ty ∈ item.types, ty.isDeclarable = true := by
  cases item with
  | global g =>
    exact List.forall_mem_cons.mpr ⟨h.2.1, Expr.isDeclarable_of_mem_optionTypes g.init h.2.2⟩
  | function f =>
    obtain ⟨-, hReturn, hParams, hBody⟩ := h
    refine List.forall_mem_cons.mpr ⟨hReturn, List.forall_mem_append.mpr ⟨?_, ?_⟩⟩
    · intro ty hTy
      obtain ⟨p, hp, rfl⟩ := List.mem_map.mp hTy
      exact (hParams p hp).2
    · exact Stmt.isDeclarable_of_mem_typesAll f.body hBody

theorem Program.isDeclarable_of_mem_types {source : String} {p : Program Ty}
    (h : checkSource source = .ok p) : ∀ ty ∈ p.types, ty.isDeclarable = true := by
  intro ty hTy
  obtain ⟨item, hItem, hTy⟩ := List.mem_flatMap.mp hTy
  exact item.isDeclarable_of_mem_types (legible_of_checkSource h item hItem) ty hTy

/-- A pointer to an array and an array of pointers may have one name. -/
theorem Ty.not_name_identifies :
    ¬ ∀ a b : Ty, a = b ↔ a.name = b.name := by
  intro h
  have hName : (pointer (array int 3)).name = (array (pointer int) 3).name := rfl
  exact absurd ((h _ _).mpr hName) (by decide)

/-- The name of a type tells its innermost type, the number of its pointers and the sizes of its
arrays in their order, and nothing else.  So it identifies the types in which no pointer leads to an
array, and all types in a program that passes the check are of this kind. -/
theorem Ty.name_identifies :
    (∀ a b : Ty, a.name = b.name ↔ a.SameParts b) ∧
    (∀ a b : Ty, a.isDeclarable = true → b.isDeclarable = true → (a = b ↔ a.name = b.name)) ∧
    ∀ (source : String) (p : Program Ty), checkSource source = .ok p →
      ∀ a ∈ p.types, ∀ b ∈ p.types, (a = b ↔ a.name = b.name) := by
  have hDeclarable (a b : Ty) (ha : a.isDeclarable = true) (hb : b.isDeclarable = true) :
      a = b ↔ a.name = b.name := ⟨congrArg name, name_inj ha hb⟩
  refine ⟨fun _ _ => name_eq_iff_sameParts, hDeclarable, fun source p hCheck a ha b hb => ?_⟩
  have hTypes := Program.isDeclarable_of_mem_types hCheck
  exact hDeclarable a b (hTypes a ha) (hTypes b hb)

/-- Matrices whose sizes come in the other order, by themselves and in a program. -/
theorem Ty.name_identifies_matrices :
    ((array (array int 3) 2).isDeclarable = true ∧ (array (array int 2) 3).isDeclarable = true ∧
      (array (array int 3) 2 = array (array int 2) 3 ↔
        (array (array int 3) 2).name = (array (array int 2) 3).name)) ∧
    ∃ p, checkSource "void f() { int m[2][3]; int* t[3]; logInt(m[1][2]); }" = .ok p ∧
      array (array int 3) 2 ∈ p.types ∧ array (pointer int) 3 ∈ p.types ∧
        (array (array int 3) 2 = array (pointer int) 3 ↔
          (array (array int 3) 2).name = (array (pointer int) 3).name) := by
  obtain ⟨-, hDeclarable, hProgram⟩ := Ty.name_identifies
  refine ⟨⟨rfl, rfl, hDeclarable _ _ rfl rfl⟩, ?_⟩
  have hChecks : checksTo
      (fun _ p => decide (array (array int 3) 2 ∈ p.types ∧ array (pointer int) 3 ∈ p.types))
      "void f() { int m[2][3]; int* t[3]; logInt(m[1][2]); }" = true :=
    checksTo_ofList (by decide +kernel)
  obtain ⟨tree, p, hParse, hCheck, hTypes⟩ := exists_of_checksTo hChecks
  have hSource := checkSource_eq_ok_iff.mpr ⟨tree, hParse, hCheck⟩
  obtain ⟨hMatrix, hPointers⟩ := of_decide_eq_true hTypes
  exact ⟨p, hSource, hMatrix, hPointers, hProgram _ p hSource _ hMatrix _ hPointers⟩

end MiniC
