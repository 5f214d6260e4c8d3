import MiniC.Proofs.Resolution.Expr
import MiniC.Proofs.Typing.Annotation

/-! # What a body sees of the rest of the program

A body is checked in a scope that consists of its own declarations and, behind them, of the globals.
Only its free variables are looked up among the globals: those that are used where the body has not
yet declared them.  So other globals with the same types for the free variables do as well, and so
do other functions beside those that are called.
-/
namespace MiniC
set_option autoImplicit false

variable {α : Type}

namespace Table

variable {κ β : Type} [DecidableEq κ]

/-- What the first table knows the second one knows, too. -/
def Sub (l l' : List (κ × β)) : Prop := ∀ k b, l.lookup k = some b → l'.lookup k = some b

theorem Sub.refl (l : List (κ × β)) : Sub l l := fun _ _ h => h

end Table

/-- The second scope gives the variables `xs` the types that the first one gives them. -/
def Scope.Keeps (scope scope' : Scope) (xs : List Ident) : Prop :=
  ∀ x ∈ xs, ∀ ty, scope.Sees x ty → scope'.Sees x ty

theorem Scope.Keeps.refl (scope : Scope) (xs : List Ident) : scope.Keeps scope xs :=
  fun _ _ _ h => h

theorem Scope.Keeps.append_iff {scope scope' : Scope} {xs ys : List Ident} :
    scope.Keeps scope' (xs ++ ys) ↔ scope.Keeps scope' xs ∧ scope.Keeps scope' ys :=
  List.forall_mem_append

/-- The identifiers that are not declared in `own`. -/
def Scope.unknown (own : Scope) (xs : List Ident) : List Ident :=
  xs.filter fun x => x.name ∉ own.map Prod.fst

/-- Behind own declarations, only the variables that they do not declare count. -/
theorem Scope.Keeps.behind {own globals globals' : Scope} {xs : List Ident}
    (h : globals.Keeps globals' (own.unknown xs)) : Keeps (own ++ globals) (own ++ globals') xs := by
  intro x hx ty hSees
  rw [Sees, List.lookup_append] at hSees ⊢
  cases hOwn : List.lookup x.name own with
  | some t =>
    rw [hOwn] at hSees
    exact hSees
  | none =>
    rw [hOwn] at hSees
    refine h x (List.mem_filter.mpr ⟨hx, ?_⟩) ty hSees
    exact decide_eq_true (Table.lookup_eq_none_iff.mp hOwn)

namespace Expr

variable {sigs sigs' : Signatures} {scope scope' : Scope}

mutual

/-- An expression stays well-typed if its variables keep their types and its functions their
signatures. -/
theorem wellTyped_transport (hSigs : Table.Sub sigs sigs') : (e : Expr Ty) →
    scope.Keeps scope' e.idents → e.WellTyped sigs scope.Sees → e.WellTyped sigs' scope'.Sees
  | const .., _, h => h
  | string .., _, h => h
  | var ty _ x, hKeeps, h => hKeeps x List.mem_cons_self ty h
  | call _ _ _ args, hKeeps, ⟨sig, hSig, hTy, hArgs⟩ =>
    ⟨sig, hSigs _ _ hSig, hTy, wellTypedArgs_transport hSigs args _ hKeeps hArgs⟩
  | binary _ _ _ lhs rhs, hKeeps, ⟨hLhs, hRhs, hTy⟩ =>
    ⟨lhs.wellTyped_transport hSigs (Scope.Keeps.append_iff.mp hKeeps).1 hLhs,
      rhs.wellTyped_transport hSigs (Scope.Keeps.append_iff.mp hKeeps).2 hRhs, hTy⟩
  | unary _ _ _ _ operand, hKeeps, ⟨hOperand, hTy⟩ =>
    ⟨operand.wellTyped_transport hSigs hKeeps hOperand, hTy⟩
  | index _ _ base offset, hKeeps, ⟨hBase, hOffset, hTy, hIndex⟩ =>
    ⟨base.wellTyped_transport hSigs (Scope.Keeps.append_iff.mp hKeeps).1 hBase,
      offset.wellTyped_transport hSigs (Scope.Keeps.append_iff.mp hKeeps).2 hOffset, hTy, hIndex⟩

theorem wellTypedArgs_transport (hSigs : Table.Sub sigs sigs') : (es : List (Expr Ty)) →
    (tys : List Ty) → scope.Keeps scope' (identsAll es) →
    WellTypedArgs sigs scope.Sees es tys → WellTypedArgs sigs' scope'.Sees es tys
  | [], [], _, _ => trivial
  | e :: es, _ :: tys, hKeeps, ⟨hE, hTy, hEs⟩ =>
    ⟨e.wellTyped_transport hSigs (Scope.Keeps.append_iff.mp hKeeps).1 hE, hTy,
      wellTypedArgs_transport hSigs es tys (Scope.Keeps.append_iff.mp hKeeps).2 hEs⟩

end

theorem wellTypedAs_transport (hSigs : Table.Sub sigs sigs') {ty : Ty} {e : Expr Ty}
    (hKeeps : scope.Keeps scope' e.idents) (h : e.WellTypedAs sigs scope.Sees ty) :
    e.WellTypedAs sigs' scope'.Sees ty :=
  ⟨e.wellTyped_transport hSigs hKeeps h.1, h.2⟩

theorem wellTypedCondition_transport (hSigs : Table.Sub sigs sigs') {e : Expr Ty}
    (hKeeps : scope.Keeps scope' e.idents) (h : e.WellTypedCondition sigs scope.Sees) :
    e.WellTypedCondition sigs' scope'.Sees :=
  ⟨e.wellTyped_transport hSigs hKeeps h.1, h.2⟩

theorem optionAs_transport (hSigs : Table.Sub sigs sigs') {ty : Ty} {e? : Option (Expr Ty)}
    (hKeeps : scope.Keeps scope' (identsOption e?))
    (h : ∀ e ∈ e?, e.WellTypedAs sigs scope.Sees ty) :
    ∀ e ∈ e?, e.WellTypedAs sigs' scope'.Sees ty := by
  rintro e rfl
  exact wellTypedAs_transport hSigs hKeeps (h e rfl)

theorem optionCondition_transport (hSigs : Table.Sub sigs sigs') {e? : Option (Expr Ty)}
    (hKeeps : scope.Keeps scope' (identsOption e?))
    (h : ∀ e ∈ e?, e.WellTypedCondition sigs scope.Sees) :
    ∀ e ∈ e?, e.WellTypedCondition sigs' scope'.Sees := by
  rintro e rfl
  exact wellTypedCondition_transport hSigs hKeeps (h e rfl)

theorem Known.behind {own globals : Scope} {xs : List Ident} (h : Known (own ++ globals) xs) :
    Known globals (own.unknown xs) := by
  intro x hx
  obtain ⟨hMem, hOwn⟩ := List.mem_filter.mp hx
  have hName := h x hMem
  rw [List.map_append] at hName
  exact (List.mem_append.mp hName).resolve_left (of_decide_eq_true hOwn)

theorem known_of_wellTyped {e : Expr Ty} (h : e.WellTyped sigs scope.Sees) :
    Known scope e.idents :=
  (idents_of_check e.erase (check_erase e h)).2

theorem known_of_option {e? : Option (Expr Ty)} (h : ∀ e ∈ e?, e.WellTyped sigs scope.Sees) :
    Known scope (identsOption e?) := by
  cases e? with
  | none => exact List.forall_mem_nil _
  | some e => exact known_of_wellTyped (h e rfl)

mutual

theorem idents_erase : (e : Expr α) → e.erase.idents = e.idents
  | const .. | string .. | var .. => rfl
  | call _ _ _ args => identsAll_eraseAll args
  | binary _ _ _ lhs rhs => by rw [erase, idents, idents, lhs.idents_erase, rhs.idents_erase]
  | unary _ _ _ _ operand => operand.idents_erase
  | index _ _ base offset => by rw [erase, idents, idents, base.idents_erase, offset.idents_erase]

theorem identsAll_eraseAll : (es : List (Expr α)) → identsAll (eraseAll es) = identsAll es
  | [] => rfl
  | e :: es => by rw [eraseAll, identsAll, identsAll, e.idents_erase, identsAll_eraseAll es]

end

theorem identsOption_erase (e? : Option (Expr α)) :
    identsOption (e?.map erase) = identsOption e? := by
  cases e? with
  | none => rfl
  | some e => exact e.idents_erase

end Expr

namespace Stmt

mutual

/-- The free variables of a statement, if the declarations of `own` stand before it. -/
def free (own : Scope) : Stmt α → List Ident
  | ret _ value => own.unknown (Expr.identsOption value)
  | assign _ target value => own.unknown (target :: value.idents)
  | declare _ x ty init => (own.declare x ty).unknown (Expr.identsOption init)
  | store _ base offset value => own.unknown (base.idents ++ offset.idents ++ value.idents)
  | branch _ cond thenBody elseBody =>
    own.unknown cond.idents ++ freeAll own thenBody ++ freeAll (afterAll .check own thenBody) elseBody
  | loop _ _ cond body => own.unknown cond.idents ++ freeAll own body
  | forLoop _ init cond update body =>
    let own₁ := afterOption .check own init
    freeOption own init ++ own₁.unknown (Expr.identsOption cond) ++ freeOption own₁ update ++
      freeAll (afterOption .check own₁ update) body
  | jump .. => []
  | expr _ value => own.unknown value.idents

def freeAll (own : Scope) : List (Stmt α) → List Ident
  | [] => []
  | x :: xs => x.free own ++ freeAll (x.after .check own) xs

def freeOption (own : Scope) : Option (Stmt α) → List Ident
  | none => []
  | some x => x.free own

end

variable {ctx : FunctionContext} {sigs : Signatures} {globals globals' : Scope}

mutual

/-- A statement stays well-typed if the globals behind it give its free variables the same types, and
what it declares is the same. -/
theorem typed_transport (hSigs : Table.Sub ctx.signatures sigs) {own scope : Scope} (x : Stmt Ty)
    (hKeeps : globals.Keeps globals' (x.free own)) (h : StmtTyped ctx (own ++ globals) x scope) :
    scope = x.after .check own ++ globals ∧
      StmtTyped { ctx with signatures := sigs } (own ++ globals') x
        (x.after .check own ++ globals') := by
  cases h with
  | retNone hVoid => exact ⟨rfl, .retNone hVoid⟩
  | retSome hVoid hValue =>
    exact ⟨rfl, .retSome hVoid (Expr.wellTypedAs_transport hSigs hKeeps.behind hValue)⟩
  | @assign _ _ x ty value hTy hValue =>
    have hBehind : Scope.Keeps (own ++ globals) (own ++ globals') (x :: value.idents) :=
      hKeeps.behind
    obtain ⟨hTarget, hIdents⟩ := List.forall_mem_cons.mp hBehind
    exact ⟨rfl, .assign (hTarget ty hTy) (Expr.wellTypedAs_transport hSigs hIdents hValue)⟩
  | declare hVoid hInit =>
    exact ⟨rfl, .declare hVoid (Expr.optionAs_transport hSigs
      (Scope.Keeps.behind hKeeps) hInit)⟩
  | store hBase hElement hArray hOffset hIndex hValue =>
    obtain ⟨hBaseOffset, hValueKeeps⟩ := Scope.Keeps.append_iff.mp hKeeps.behind
    obtain ⟨hBaseKeeps, hOffsetKeeps⟩ := Scope.Keeps.append_iff.mp hBaseOffset
    exact ⟨rfl, .store (Expr.wellTyped_transport hSigs _ hBaseKeeps hBase) hElement hArray
      (Expr.wellTyped_transport hSigs _ hOffsetKeeps hOffset) hIndex
      (Expr.wellTypedAs_transport hSigs hValueKeeps hValue)⟩
  | branch hCond hThen hElse =>
    simp only [free, Scope.Keeps.append_iff] at hKeeps
    obtain ⟨⟨hCondKeeps, hThenKeeps⟩, hElseKeeps⟩ := hKeeps
    obtain ⟨rfl, hThen'⟩ := typed_transportAll hSigs _ hThenKeeps hThen
    obtain ⟨rfl, hElse'⟩ := typed_transportAll hSigs _ hElseKeeps hElse
    exact ⟨rfl, .branch (Expr.wellTypedCondition_transport hSigs hCondKeeps.behind hCond) hThen'
      hElse'⟩
  | loop hCond hBody =>
    simp only [free, Scope.Keeps.append_iff] at hKeeps
    obtain ⟨hCondKeeps, hBodyKeeps⟩ := hKeeps
    obtain ⟨rfl, hBody'⟩ := typed_transportAll hSigs _ hBodyKeeps hBody
    exact ⟨rfl, .loop (Expr.wellTypedCondition_transport hSigs hCondKeeps.behind hCond) hBody'⟩
  | forLoop hInit hCond hUpdate hBody =>
    simp only [free, Scope.Keeps.append_iff] at hKeeps
    obtain ⟨⟨⟨hInitKeeps, hCondKeeps⟩, hUpdateKeeps⟩, hBodyKeeps⟩ := hKeeps
    obtain ⟨rfl, hInit'⟩ := typed_transportOption hSigs _ hInitKeeps hInit
    obtain ⟨rfl, hUpdate'⟩ := typed_transportOption hSigs _ hUpdateKeeps hUpdate
    obtain ⟨rfl, hBody'⟩ := typed_transportAll hSigs _ hBodyKeeps hBody
    exact ⟨rfl, .forLoop hInit' (Expr.optionCondition_transport hSigs hCondKeeps.behind hCond)
      hUpdate' hBody'⟩
  | jump => exact ⟨rfl, .jump⟩
  | expr hValue => exact ⟨rfl, .expr (Expr.wellTyped_transport hSigs _ hKeeps.behind hValue)⟩

theorem typed_transportAll (hSigs : Table.Sub ctx.signatures sigs) {own scope : Scope}
    (xs : List (Stmt Ty)) (hKeeps : globals.Keeps globals' (freeAll own xs))
    (h : BodyTyped ctx (own ++ globals) xs scope) :
    scope = afterAll .check own xs ++ globals ∧
      BodyTyped { ctx with signatures := sigs } (own ++ globals') xs
        (afterAll .check own xs ++ globals') := by
  cases h with
  | nil => exact ⟨rfl, .nil⟩
  | cons hX hXs =>
    obtain ⟨hXKeeps, hXsKeeps⟩ := Scope.Keeps.append_iff.mp hKeeps
    obtain ⟨rfl, hX'⟩ := typed_transport hSigs _ hXKeeps hX
    obtain ⟨rfl, hXs'⟩ := typed_transportAll hSigs _ hXsKeeps hXs
    exact ⟨rfl, .cons hX' hXs'⟩

theorem typed_transportOption (hSigs : Table.Sub ctx.signatures sigs) {own scope : Scope}
    (x? : Option (Stmt Ty)) (hKeeps : globals.Keeps globals' (freeOption own x?))
    (h : OptionTyped ctx (own ++ globals) x? scope) :
    scope = afterOption .check own x? ++ globals ∧
      OptionTyped { ctx with signatures := sigs } (own ++ globals') x?
        (afterOption .check own x? ++ globals') := by
  cases h with
  | none => exact ⟨rfl, .none⟩
  | some hX =>
    obtain ⟨rfl, hX'⟩ := typed_transport hSigs _ hKeeps hX
    exact ⟨rfl, .some hX'⟩

end

theorem scope_of_typed {own scope : Scope} {x : Stmt Ty}
    (h : StmtTyped ctx (own ++ globals) x scope) : scope = x.after .check own ++ globals :=
  (typed_transport (.refl _) x (.refl _ _) h).1

theorem scope_of_typedAll {own scope : Scope} {xs : List (Stmt Ty)}
    (h : BodyTyped ctx (own ++ globals) xs scope) : scope = afterAll .check own xs ++ globals :=
  (typed_transportAll (.refl _) xs (.refl _ _) h).1

theorem scope_of_typedOption {own scope : Scope} {x? : Option (Stmt Ty)}
    (h : OptionTyped ctx (own ++ globals) x? scope) :
    scope = afterOption .check own x? ++ globals :=
  (typed_transportOption (.refl _) x? (.refl _ _) h).1

mutual

/-- The free variables are found among the globals. -/
theorem free_known {own scope : Scope} (x : Stmt Ty)
    (h : StmtTyped ctx (own ++ globals) x scope) : Expr.Known globals (x.free own) := by
  cases h with
  | retNone => exact List.forall_mem_nil _
  | retSome _ hValue => exact (Expr.known_of_wellTyped hValue.1).behind
  | assign hTy hValue =>
    refine Expr.Known.behind (List.forall_mem_cons.mpr ⟨?_, Expr.known_of_wellTyped hValue.1⟩)
    exact List.mem_map_of_mem (Table.mem_of_lookup hTy)
  | declare _ hInit =>
    exact Expr.Known.behind (Expr.known_of_option fun e he => (hInit e he).1)
  | store hBase _ _ hOffset _ hValue =>
    exact (((Expr.known_of_wellTyped hBase).append (Expr.known_of_wellTyped hOffset)).append
      (Expr.known_of_wellTyped hValue.1)).behind
  | branch hCond hThen hElse =>
    obtain rfl := scope_of_typedAll hThen
    exact ((Expr.known_of_wellTyped hCond.1).behind.append (freeAll_known _ hThen)).append
      (freeAll_known _ hElse)
  | loop hCond hBody => exact (Expr.known_of_wellTyped hCond.1).behind.append (freeAll_known _ hBody)
  | forLoop hInit hCond hUpdate hBody =>
    obtain rfl := scope_of_typedOption hInit
    obtain rfl := scope_of_typedOption hUpdate
    exact (((freeOption_known _ hInit).append
      (Expr.known_of_option fun e he => (hCond e he).1).behind).append
      (freeOption_known _ hUpdate)).append (freeAll_known _ hBody)
  | jump => exact List.forall_mem_nil _
  | expr hValue => exact (Expr.known_of_wellTyped hValue).behind

theorem freeAll_known {own scope : Scope} (xs : List (Stmt Ty))
    (h : BodyTyped ctx (own ++ globals) xs scope) : Expr.Known globals (freeAll own xs) := by
  cases h with
  | nil => exact List.forall_mem_nil _
  | cons hX hXs =>
    obtain rfl := scope_of_typed hX
    exact (free_known _ hX).append (freeAll_known _ hXs)

theorem freeOption_known {own scope : Scope} (x? : Option (Stmt Ty))
    (h : OptionTyped ctx (own ++ globals) x? scope) :
    Expr.Known globals (freeOption own x?) := by
  cases h with
  | none => exact List.forall_mem_nil _
  | some hX => exact free_known _ hX

end

mutual

theorem after_erase (stage : Stage) (own : Scope) : (x : Stmt α) →
    x.erase.after stage own = x.after stage own
  | branch _ _ thenBody elseBody => by
    rw [erase, after, after, afterAll_eraseAll stage _ thenBody, afterAll_eraseAll stage _ elseBody]
  | loop _ _ _ body => by rw [erase, after, after, afterAll_eraseAll stage _ body]
  | forLoop _ init _ update body => by
    simp only [erase, after, afterOption_eraseOption stage _ init,
      afterOption_eraseOption stage _ update, afterAll_eraseAll stage _ body]
  | ret .. | assign .. | declare .. | store .. | jump .. | expr .. => rfl

theorem afterAll_eraseAll (stage : Stage) (own : Scope) : (xs : List (Stmt α)) →
    afterAll stage own (eraseAll xs) = afterAll stage own xs
  | [] => rfl
  | x :: xs => by rw [eraseAll, afterAll, afterAll, x.after_erase, afterAll_eraseAll stage _ xs]

theorem afterOption_eraseOption (stage : Stage) (own : Scope) : (x? : Option (Stmt α)) →
    afterOption stage own (eraseOption x?) = afterOption stage own x?
  | none => rfl
  | some x => x.after_erase stage own

end

mutual

theorem free_erase (own : Scope) : (x : Stmt α) → x.erase.free own = x.free own
  | ret .. => by rw [erase, free, free, Expr.identsOption_erase]
  | assign .. => by rw [erase, free, free, Expr.idents_erase]
  | declare .. => by rw [erase, free, free, Expr.identsOption_erase]
  | store .. => by simp only [erase, free, Expr.idents_erase]
  | branch _ _ thenBody elseBody => by
    simp only [erase, free, Expr.idents_erase, freeAll_eraseAll _ thenBody, afterAll_eraseAll,
      freeAll_eraseAll _ elseBody]
  | loop _ _ _ body => by simp only [erase, free, Expr.idents_erase, freeAll_eraseAll _ body]
  | forLoop _ init _ update body => by
    simp only [erase, free, Expr.identsOption_erase, freeOption_eraseOption _ init,
      afterOption_eraseOption, freeOption_eraseOption _ update, freeAll_eraseAll _ body]
  | jump .. => rfl
  | expr .. => by rw [erase, free, free, Expr.idents_erase]

theorem freeAll_eraseAll (own : Scope) : (xs : List (Stmt α)) →
    freeAll own (eraseAll xs) = freeAll own xs
  | [] => rfl
  | x :: xs => by rw [eraseAll, freeAll, freeAll, x.free_erase, after_erase, freeAll_eraseAll _ xs]

theorem freeOption_eraseOption (own : Scope) : (x? : Option (Stmt α)) →
    freeOption own (eraseOption x?) = freeOption own x?
  | none => rfl
  | some x => x.free_erase own

end

end Stmt

namespace Function

/-- The free variables of a function, none of them a parameter. -/
def free (f : Function α) : List Ident := Stmt.freeAll f.parameters.reverse f.body

theorem free_erase (f : Function α) : f.erase.free = f.free :=
  Stmt.freeAll_eraseAll f.parameters.reverse f.body

variable {f : Function Ty} {sigs sigs' : Signatures} {globals globals' : Scope}

theorem annotated_transport (hSigs : Table.Sub sigs sigs') (hKeeps : globals.Keeps globals' f.free)
    (h : (Item.function f).Annotated sigs globals) : (Item.function f).Annotated sigs' globals' := by
  obtain ⟨scope, hBody⟩ := h
  exact ⟨_, (Stmt.typed_transportAll hSigs f.body hKeeps hBody).2⟩

theorem free_known (h : (Item.function f).Annotated sigs globals) : Expr.Known globals f.free := by
  obtain ⟨scope, hBody⟩ := h
  exact Stmt.freeAll_known f.body hBody

end Function

end MiniC
