import MiniC.Proofs.Resolution.Visits

/-! # Renaming the variables of a program

`rename` changes the names of variables, where they are declared and where they are used; the names
of functions are not touched.  Two renamings have the same effect on a tree exactly if they agree on
its identifiers.
-/
namespace MiniC
set_option autoImplicit false

variable {α : Type}

def Ident.rename (r : String → String) (x : Ident) : Ident := ⟨r x.name, x.span⟩

theorem Ident.rename_eq_rename_iff {r r' : String → String} {x : Ident} :
    x.rename r = x.rename r' ↔ r x.name = r' x.name := by
  simp [Ident.rename]

namespace Expr

section

variable (r : String → String)

mutual

def rename : Expr α → Expr α
  | const i s value => const i s value
  | string i s text => string i s text
  | var i s x => var i s (x.rename r)
  | call i s callee args => call i s callee (renameAll args)
  | binary i s op lhs rhs => binary i s op lhs.rename rhs.rename
  | unary i s op fixity operand => unary i s op fixity operand.rename
  | index i s base offset => index i s base.rename offset.rename

def renameAll : List (Expr α) → List (Expr α)
  | [] => []
  | e :: es => e.rename :: renameAll es

end

@[simp] theorem span_rename (e : Expr α) : (e.rename r).span = e.span := by
  cases e <;> rfl

@[simp] theorem info_rename (e : Expr α) : (e.rename r).info = e.info := by
  cases e <;> rfl

@[simp] theorem isVariable_rename (e : Expr α) : (e.rename r).isVariable = e.isVariable := by
  cases e <;> rfl

@[simp] theorem length_renameAll (es : List (Expr α)) : (renameAll r es).length = es.length := by
  induction es with
  | nil => rfl
  | cons e es ih => rw [renameAll, List.length_cons, List.length_cons, ih]

end

mutual

theorem rename_id : (e : Expr α) → e.rename id = e
  | const .. | string .. | var .. => rfl
  | call _ _ _ args => by rw [rename, renameAll_id args]
  | binary _ _ _ lhs rhs => by rw [rename, lhs.rename_id, rhs.rename_id]
  | unary _ _ _ _ operand => by rw [rename, operand.rename_id]
  | index _ _ base offset => by rw [rename, base.rename_id, offset.rename_id]

theorem renameAll_id : (es : List (Expr α)) → renameAll id es = es
  | [] => rfl
  | e :: es => by rw [renameAll, e.rename_id, renameAll_id es]

end

variable {r r' : String → String}

mutual

theorem rename_eq_rename_iff : (e : Expr α) →
    (e.rename r = e.rename r' ↔ ∀ x ∈ e.idents, r x.name = r' x.name)
  | const .. | string .. => by simp [rename, idents]
  | var .. => by simp [rename, idents, Ident.rename_eq_rename_iff]
  | call _ _ _ args => by simp [rename, idents, renameAll_eq_renameAll_iff args]
  | binary _ _ _ lhs rhs => by
    simp [rename, idents, lhs.rename_eq_rename_iff, rhs.rename_eq_rename_iff, or_imp, forall_and]
  | unary _ _ _ _ operand => by simp [rename, idents, operand.rename_eq_rename_iff]
  | index _ _ base offset => by
    simp [rename, idents, base.rename_eq_rename_iff, offset.rename_eq_rename_iff, or_imp,
      forall_and]

theorem renameAll_eq_renameAll_iff : (es : List (Expr α)) →
    (renameAll r es = renameAll r' es ↔ ∀ x ∈ identsAll es, r x.name = r' x.name)
  | [] => by simp [renameAll, identsAll]
  | e :: es => by
    simp [renameAll, identsAll, e.rename_eq_rename_iff, renameAll_eq_renameAll_iff es, or_imp,
      forall_and]

end

theorem map_rename_id (e? : Option (Expr α)) : e?.map (rename id) = e? := by
  cases e? with
  | none => rfl
  | some e => rw [Option.map_some, e.rename_id]

theorem map_rename_eq_iff (e? : Option (Expr α)) :
    e?.map (rename r) = e?.map (rename r') ↔ ∀ x ∈ identsOption e?, r x.name = r' x.name := by
  cases e? with
  | none => simp [identsOption]
  | some e => simp [identsOption, e.rename_eq_rename_iff]

end Expr

namespace Stmt

mutual

/-- The variables of a statement, declared or used. -/
def idents : Stmt α → List Ident
  | ret _ value => Expr.identsOption value
  | assign _ target value => target :: value.idents
  | declare _ x _ init => x :: Expr.identsOption init
  | store _ base offset value => base.idents ++ offset.idents ++ value.idents
  | branch _ cond thenBody elseBody => cond.idents ++ identsAll thenBody ++ identsAll elseBody
  | loop _ _ cond body => cond.idents ++ identsAll body
  | forLoop _ init cond update body =>
    identsOption init ++ Expr.identsOption cond ++ identsOption update ++ identsAll body
  | jump .. => []
  | expr _ value => value.idents

def identsAll : List (Stmt α) → List Ident
  | [] => []
  | x :: xs => x.idents ++ identsAll xs

def identsOption : Option (Stmt α) → List Ident
  | none => []
  | some x => x.idents

end

section

variable (r : String → String)

mutual

def rename : Stmt α → Stmt α
  | ret s value => ret s (value.map (Expr.rename r))
  | assign s target value => assign s (target.rename r) (value.rename r)
  | declare s x ty init => declare s (x.rename r) ty (init.map (Expr.rename r))
  | store s base offset value => store s (base.rename r) (offset.rename r) (value.rename r)
  | branch s cond thenBody elseBody =>
    branch s (cond.rename r) (renameAll thenBody) (renameAll elseBody)
  | loop s kind cond body => loop s kind (cond.rename r) (renameAll body)
  | forLoop s init cond update body =>
    forLoop s (renameOption init) (cond.map (Expr.rename r)) (renameOption update) (renameAll body)
  | jump s j => jump s j
  | expr s value => expr s (value.rename r)

def renameAll : List (Stmt α) → List (Stmt α)
  | [] => []
  | x :: xs => x.rename :: renameAll xs

def renameOption : Option (Stmt α) → Option (Stmt α)
  | none => none
  | some x => some x.rename

end

theorem renameAll_eq_map (xs : List (Stmt α)) : renameAll r xs = xs.map (rename r) := by
  induction xs with
  | nil => rfl
  | cons x xs ih => rw [renameAll, ih, List.map_cons]

@[simp] theorem isEmpty_renameAll (xs : List (Stmt α)) :
    (renameAll r xs).isEmpty = xs.isEmpty := by
  cases xs <;> rfl

@[simp] theorem isReturn_rename (x : Stmt α) : (x.rename r).isReturn = x.isReturn := by
  cases x <;> rfl

mutual

@[simp] theorem jumps_rename (j : Jump) : (x : Stmt α) → (x.rename r).jumps j = x.jumps j
  | jump .. => rfl
  | branch _ _ thenBody elseBody => by
    simp [rename, jumps, jumpsAny_renameAll j thenBody, jumpsAny_renameAll j elseBody]
  | ret .. | assign .. | declare .. | store .. | loop .. | forLoop .. | expr .. => by
    simp [rename, jumps]

@[simp] theorem jumpsAny_renameAll (j : Jump) : (xs : List (Stmt α)) →
    jumpsAny j (renameAll r xs) = jumpsAny j xs
  | [] => rfl
  | x :: xs => by simp [renameAll, jumpsAny, x.jumps_rename j, jumpsAny_renameAll j xs]

end

end

mutual

theorem rename_id : (x : Stmt α) → x.rename id = x
  | ret _ value => by rw [rename, Expr.map_rename_id]
  | assign _ target value => by
    rw [rename, value.rename_id]
    rfl
  | declare _ x _ init => by
    rw [rename, Expr.map_rename_id]
    rfl
  | store _ base offset value => by rw [rename, base.rename_id, offset.rename_id, value.rename_id]
  | branch _ cond thenBody elseBody => by
    rw [rename, cond.rename_id, renameAll_id thenBody, renameAll_id elseBody]
  | loop _ _ cond body => by rw [rename, cond.rename_id, renameAll_id body]
  | forLoop _ init cond update body => by
    rw [rename, renameOption_id init, Expr.map_rename_id, renameOption_id update, renameAll_id body]
  | jump .. => rfl
  | expr _ value => by rw [rename, value.rename_id]

theorem renameAll_id : (xs : List (Stmt α)) → renameAll id xs = xs
  | [] => rfl
  | x :: xs => by rw [renameAll, x.rename_id, renameAll_id xs]

theorem renameOption_id : (x? : Option (Stmt α)) → renameOption id x? = x?
  | none => rfl
  | some x => by rw [renameOption, x.rename_id]

end

variable {r r' : String → String}

mutual

theorem rename_eq_rename_iff : (x : Stmt α) →
    (x.rename r = x.rename r' ↔ ∀ y ∈ x.idents, r y.name = r' y.name)
  | ret _ value => by simp [rename, idents, Expr.map_rename_eq_iff]
  | assign _ target value => by
    simp [rename, idents, Ident.rename_eq_rename_iff, value.rename_eq_rename_iff]
  | declare _ x _ init => by
    simp [rename, idents, Ident.rename_eq_rename_iff, Expr.map_rename_eq_iff]
  | store _ base offset value => by
    simp [rename, idents, base.rename_eq_rename_iff, offset.rename_eq_rename_iff,
      value.rename_eq_rename_iff, or_imp, forall_and]
  | branch _ cond thenBody elseBody => by
    simp [rename, idents, cond.rename_eq_rename_iff, renameAll_eq_renameAll_iff thenBody,
      renameAll_eq_renameAll_iff elseBody, or_imp, forall_and]
  | loop _ _ cond body => by
    simp [rename, idents, cond.rename_eq_rename_iff, renameAll_eq_renameAll_iff body, or_imp,
      forall_and]
  | forLoop _ init cond update body => by
    simp [rename, idents, renameOption_eq_renameOption_iff init, Expr.map_rename_eq_iff,
      renameOption_eq_renameOption_iff update, renameAll_eq_renameAll_iff body, or_imp, forall_and]
  | jump .. => by simp [rename, idents]
  | expr _ value => by simp [rename, idents, value.rename_eq_rename_iff]

theorem renameAll_eq_renameAll_iff : (xs : List (Stmt α)) →
    (renameAll r xs = renameAll r' xs ↔ ∀ y ∈ identsAll xs, r y.name = r' y.name)
  | [] => by simp [renameAll, identsAll]
  | x :: xs => by
    simp [renameAll, identsAll, x.rename_eq_rename_iff, renameAll_eq_renameAll_iff xs, or_imp,
      forall_and]

theorem renameOption_eq_renameOption_iff : (x? : Option (Stmt α)) →
    (renameOption r x? = renameOption r' x? ↔ ∀ y ∈ identsOption x?, r y.name = r' y.name)
  | none => by simp [renameOption, identsOption]
  | some x => by simp [renameOption, identsOption, x.rename_eq_rename_iff]

end

end Stmt

section

variable (r : String → String)

def Param.rename (p : Param) : Param := ⟨p.name.rename r, p.ty⟩

def Global.rename (g : Global α) : Global α :=
  ⟨g.name.rename r, g.ty, g.init.map (Expr.rename r)⟩

def Function.rename (f : Function α) : Function α :=
  ⟨f.name, f.returnTy, f.params.map (Param.rename r), Stmt.renameAll r f.body⟩

def Item.rename : Item α → Item α
  | .global g => .global (g.rename r)
  | .function f => .function (f.rename r)

def Program.rename (p : Program α) : Program α := ⟨p.items.map (Item.rename r)⟩

theorem Program.functions_rename (p : Program α) :
    (p.rename r).functions = p.functions.map (Function.rename r) := by
  obtain ⟨items⟩ := p
  simp only [Program.rename, Program.functions, List.filterMap_map, List.map_filterMap]
  congr
  funext item
  cases item <;> rfl

end

/-- The variables of an item; the name of a function is none. -/
def Item.idents : Item α → List Ident
  | .global g => g.name :: Expr.identsOption g.init
  | .function f => f.params.map Param.name ++ Stmt.identsAll f.body

/-- The names of the variables of a program, declared or used. -/
def Program.variables (p : Program α) : List String :=
  (p.items.flatMap Item.idents).map Ident.name

theorem Item.rename_id (item : Item α) : item.rename id = item := by
  cases item with
  | global g =>
    rw [Item.rename, Global.rename, Expr.map_rename_id]
    rfl
  | function f =>
    have hParams : f.params.map (Param.rename id) = f.params := List.map_id f.params
    rw [Item.rename, Function.rename, hParams, Stmt.renameAll_id]

theorem Program.rename_id (p : Program α) : p.rename id = p := by
  obtain ⟨items⟩ := p
  have hItems : items.map (Item.rename id) = items.map id :=
    List.map_congr_left fun item _ => item.rename_id
  rw [Program.rename, hItems, List.map_id]

variable {r r' : String → String}

theorem Item.rename_eq_rename_iff (item : Item α) :
    item.rename r = item.rename r' ↔ ∀ x ∈ item.idents, r x.name = r' x.name := by
  cases item with
  | global g =>
    simp [Item.rename, Global.rename, Item.idents, Ident.rename_eq_rename_iff,
      Expr.map_rename_eq_iff]
  | function f =>
    simp [Item.rename, Function.rename, Item.idents, Stmt.renameAll_eq_renameAll_iff,
      Param.rename, Ident.rename_eq_rename_iff, or_imp, forall_and]

theorem Program.rename_eq_rename_iff (p : Program α) :
    p.rename r = p.rename r' ↔ ∀ x ∈ p.variables, r x = r' x := by
  simp only [Program.rename, Program.mk.injEq, List.map_inj_left, Item.rename_eq_rename_iff,
    Program.variables, List.forall_mem_map, List.mem_flatMap]
  constructor
  · rintro h x ⟨item, hItem, hx⟩
    exact h item hItem x hx
  · intro h item hItem x hx
    exact h x ⟨item, hItem, hx⟩

end MiniC
