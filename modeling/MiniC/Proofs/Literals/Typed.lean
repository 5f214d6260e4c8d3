import MiniC.Proofs.Allocation.Ranges
import MiniC.Proofs.Literals.Trees
import MiniC.Proofs.Lowering.Program
import MiniC.Proofs.Typing.Stmt

/-! # Literals on the way to the module

Checking keeps the literals of a program.  Lowering asks memory only for literals of the tree, and
for every one of them: the code of a tree exists only if each of its literals has an address.
-/
namespace MiniC
set_option autoImplicit false

open Wasm (Code)

namespace Expr

variable {sigs : Signatures} {scope : Scope}

mutual

theorem literals_of_check (e : Expr Unit) {e' : Expr Ty} (h : e.check sigs scope = .ok e') :
    e'.literals = e.literals := by
  cases e with
  | const _ s value =>
    cases h
    rfl
  | string _ s text =>
    cases h
    rfl
  | var _ s x =>
    simp only [check, Checked.bind_eq_ok_iff, Checked.pure_eq_ok_iff] at h
    obtain ⟨ty, -, rfl⟩ := h
    rfl
  | call _ s callee args =>
    rw [check] at h
    split at h
    · cases h
    · rename_i sig _
      split at h
      · cases h
      · rename_i hLength
        simp only [Checked.bind_eq_ok_iff, Checked.pure_eq_ok_iff] at h
        obtain ⟨args', hArgs, rfl⟩ := h
        exact literals_of_checkArgs args hArgs (Decidable.not_not.mp hLength).symm
  | binary _ s op lhs rhs =>
    simp only [check, Checked.bind_eq_ok_iff, Checked.pure_eq_ok_iff] at h
    obtain ⟨lhs', hLhs, rhs', hRhs, ty, -, rfl⟩ := h
    rw [literals, literals, literals_of_check lhs hLhs, literals_of_check rhs hRhs]
  | unary _ s op fixity operand =>
    simp only [check, Checked.bind_eq_ok_iff, Checked.pure_eq_ok_iff] at h
    obtain ⟨operand', hOperand, ty, -, rfl⟩ := h
    rw [literals, literals, literals_of_check operand hOperand]
  | index _ s base offset =>
    simp only [check, Checked.bind_eq_ok_iff, Checked.pure_eq_ok_iff] at h
    obtain ⟨base', hBase, ty, -, offset', hOffset, _, -, rfl⟩ := h
    rw [literals, literals, literals_of_check base hBase, literals_of_check offset hOffset]

theorem literals_of_checkArgs (es : List (Expr Unit)) {tys : List Ty} {es' : List (Expr Ty)}
    (h : checkArgs sigs scope es tys = .ok es') (hLength : es.length = tys.length) :
    literalsAll es' = literalsAll es := by
  cases es with
  | nil => cases tys <;> cases h <;> rfl
  | cons e es =>
    cases tys with
    | nil => cases hLength
    | cons ty tys =>
      simp only [checkArgs, Checked.bind_eq_ok_iff, Checked.pure_eq_ok_iff] at h
      obtain ⟨e', hE, _, -, es', hEs, rfl⟩ := h
      rw [literalsAll, literalsAll, literals_of_check e hE,
        literals_of_checkArgs es hEs (Nat.succ.inj hLength)]

end

theorem optionLiterals_of_checkOptionAs {target : Ty} {e? : Option (Expr Unit)}
    {e?' : Option (Expr Ty)} (h : checkOptionAs sigs scope target e? = .ok e?') :
    optionLiterals e?' = optionLiterals e? := by
  cases e? with
  | none =>
    cases h
    rfl
  | some e =>
    simp only [checkOptionAs, Checked.map_eq_ok_iff] at h
    obtain ⟨e', hE, rfl⟩ := h
    exact literals_of_check e (checkAs_eq_ok_iff.mp hE).1

theorem optionLiterals_of_checkOptionCondition {e? : Option (Expr Unit)} {e?' : Option (Expr Ty)}
    (h : checkOptionCondition sigs scope e? = .ok e?') :
    optionLiterals e?' = optionLiterals e? := by
  cases e? with
  | none =>
    cases h
    rfl
  | some e =>
    simp only [checkOptionCondition, Checked.map_eq_ok_iff] at h
    obtain ⟨e', hE, rfl⟩ := h
    exact literals_of_check e (checkCondition_eq_ok_iff.mp hE).1

end Expr

namespace Stmt

variable {ctx : FunctionContext}

mutual

theorem literals_of_check (x : Stmt Unit) {scope scope' : Scope} {x' : Stmt Ty}
    (h : x.check ctx scope = .ok (x', scope')) : x'.literals = x.literals := by
  cases x with
  | ret s value =>
    simp only [check, Checked.bind_eq_ok_iff, Checked.pure_eq_ok_iff, Prod.mk.injEq] at h
    obtain ⟨_, hReturn, rfl, -⟩ := h
    obtain ⟨value', rfl, hValue⟩ := checkReturn_eq_ok hReturn
    exact Expr.optionLiterals_of_checkOptionAs hValue
  | assign s target value =>
    simp only [check, Checked.bind_eq_ok_iff, Checked.pure_eq_ok_iff, Prod.mk.injEq] at h
    obtain ⟨ty, -, value', hValue, rfl, -⟩ := h
    exact Expr.literals_of_check value (Expr.checkAs_eq_ok_iff.mp hValue).1
  | declare s name ty init =>
    simp only [check, Checked.bind_eq_ok_iff, Checked.pure_eq_ok_iff, Prod.mk.injEq] at h
    obtain ⟨_, -, init', hInit, rfl, -⟩ := h
    exact Expr.optionLiterals_of_checkOptionAs hInit
  | store s base offset value =>
    simp only [check, Checked.bind_eq_ok_iff, Checked.pure_eq_ok_iff, Prod.mk.injEq] at h
    obtain ⟨_, hStore, rfl, -⟩ := h
    obtain ⟨base', offset', value', ty, rfl, hBase, hOffset, hValue⟩ := checkStore_eq_ok hStore
    rw [literals, literals, Expr.literals_of_check base hBase,
      Expr.literals_of_check offset hOffset,
      Expr.literals_of_check value (Expr.checkAs_eq_ok_iff.mp hValue).1]
  | branch s cond thenBody elseBody =>
    simp only [check, Checked.bind_eq_ok_iff, Checked.pure_eq_ok_iff, Prod.exists,
      Prod.mk.injEq] at h
    obtain ⟨cond', hCond, thenBody', _, hThen, elseBody', _, hElse, rfl, -⟩ := h
    rw [literals, literals, Expr.literals_of_check cond (Expr.checkCondition_eq_ok_iff.mp hCond).1,
      literals_of_checkAll thenBody hThen, literals_of_checkAll elseBody hElse]
  | loop s kind cond body =>
    simp only [check, Checked.bind_eq_ok_iff, Checked.pure_eq_ok_iff, Prod.exists,
      Prod.mk.injEq] at h
    obtain ⟨cond', hCond, body', _, hBody, rfl, -⟩ := h
    have hCond := Expr.literals_of_check cond (Expr.checkCondition_eq_ok_iff.mp hCond).1
    cases kind <;> rw [literals, literals, hCond, literals_of_checkAll body hBody]
  | forLoop s init cond update body =>
    simp only [check, Checked.bind_eq_ok_iff, Checked.pure_eq_ok_iff, Prod.exists,
      Prod.mk.injEq] at h
    obtain ⟨init', _, hInit, cond', hCond, update', _, hUpdate, body', _, hBody, rfl, -⟩ := h
    rw [literals, literals, optionLiterals_of_checkOption init hInit,
      Expr.optionLiterals_of_checkOptionCondition hCond,
      optionLiterals_of_checkOption update hUpdate, literals_of_checkAll body hBody]
  | jump s j =>
    cases h
    rfl
  | expr s value =>
    simp only [check, Checked.bind_eq_ok_iff, Checked.pure_eq_ok_iff, Prod.mk.injEq] at h
    obtain ⟨value', hValue, rfl, -⟩ := h
    exact Expr.literals_of_check value hValue

theorem literals_of_checkAll (xs : List (Stmt Unit)) {scope scope' : Scope} {xs' : List (Stmt Ty)}
    (h : checkAll ctx scope xs = .ok (xs', scope')) : literalsAll xs' = literalsAll xs := by
  cases xs with
  | nil =>
    cases h
    rfl
  | cons x xs =>
    simp only [checkAll, Checked.bind_eq_ok_iff, Checked.pure_eq_ok_iff, Prod.exists,
      Prod.mk.injEq] at h
    obtain ⟨x', _, hX, xs', _, hXs, rfl, -⟩ := h
    rw [literalsAll, literalsAll, literals_of_check x hX, literals_of_checkAll xs hXs]

theorem optionLiterals_of_checkOption (x? : Option (Stmt Unit)) {scope scope' : Scope}
    {x?' : Option (Stmt Ty)} (h : checkOption ctx scope x? = .ok (x?', scope')) :
    optionLiterals x?' = optionLiterals x? := by
  cases x? with
  | none =>
    cases h
    rfl
  | some x =>
    simp only [checkOption, Checked.bind_eq_ok_iff, Checked.pure_eq_ok_iff, Prod.exists,
      Prod.mk.injEq] at h
    obtain ⟨x', _, hX, rfl, -⟩ := h
    exact literals_of_check x hX

end

end Stmt

theorem literals_of_checkItems {sigs : Signatures} {globals : Scope} {items : List (Item Unit)}
    {items' : List (Item Ty)} (h : checkItems sigs globals items = .ok items') :
    (Program.mk items').literals = (Program.mk items).literals := by
  induction items generalizing globals items' with
  | nil =>
    cases h
    rfl
  | cons item items ih =>
    cases item with
    | global g =>
      simp only [checkItems, Checked.bind_eq_ok_iff, Checked.pure_eq_ok_iff] at h
      obtain ⟨g', hGlobal, items', hNext, rfl⟩ := h
      simp only [Global.check, Checked.bind_eq_ok_iff] at hGlobal
      obtain ⟨_, -, hGlobal⟩ := hGlobal
      split at hGlobal
      · cases hGlobal
      · simp only [Checked.bind_eq_ok_iff, Checked.pure_eq_ok_iff] at hGlobal
        obtain ⟨init', hInit, rfl⟩ := hGlobal
        have hFirst := Expr.optionLiterals_of_checkOptionAs hInit
        simp only [Program.literals, List.flatMap_cons, Item.literals, hFirst]
        exact congrArg (_ ++ ·) (ih hNext)
    | function f =>
      simp only [checkItems, Function.check, Checked.bind_eq_ok_iff, Checked.pure_eq_ok_iff,
        Prod.exists] at h
      obtain ⟨_, ⟨body', _, hBody, rfl⟩, items', hNext, rfl⟩ := h
      have hFirst := Stmt.literals_of_checkAll f.body hBody
      simp only [Program.literals, List.flatMap_cons, Item.literals, hFirst]
      exact congrArg (_ ++ ·) (ih hNext)

theorem Program.literals_of_check {p : Program Unit} {p' : Program Ty} (h : p.check = .ok p') :
    p'.literals = p.literals := by
  simp only [Program.check, Checked.bind_eq_ok_iff, Checked.pure_eq_ok_iff] at h
  obtain ⟨sigs, -, items, hItems, rfl⟩ := h
  exact literals_of_checkItems hItems

section

variable {s : Span} {text : String}

mutual

theorem Expr.mem_literals_of_mem_requests : (e : Expr Ty) → .string s text ∈ e.requests →
    ⟨s, text⟩ ∈ e.literals
  | .const .., h => by simp [Expr.requests] at h
  | .string .., h => by
    cases List.mem_singleton.mp h
    exact List.mem_singleton_self _
  | .var .., h => by simp [Expr.requests] at h
  | .call _ _ _ args, h => Expr.mem_literalsAll_of_mem_requestsAll args h
  | .binary _ _ _ lhs rhs, h =>
    List.mem_append.mpr ((List.mem_append.mp h).imp lhs.mem_literals_of_mem_requests
      rhs.mem_literals_of_mem_requests)
  | .unary _ _ _ _ operand, h => operand.mem_literals_of_mem_requests h
  | .index _ _ base offset, h =>
    List.mem_append.mpr ((List.mem_append.mp h).imp base.mem_literals_of_mem_requests
      offset.mem_literals_of_mem_requests)

theorem Expr.mem_literalsAll_of_mem_requestsAll : (es : List (Expr Ty)) →
    .string s text ∈ Expr.requestsAll es → ⟨s, text⟩ ∈ Expr.literalsAll es
  | [], h => by simp [Expr.requestsAll] at h
  | e :: es, h =>
    List.mem_append.mpr ((List.mem_append.mp h).imp e.mem_literals_of_mem_requests
      (Expr.mem_literalsAll_of_mem_requestsAll es))

end

theorem Expr.mem_optionLiterals_of_mem_requestsOption (e : Option (Expr Ty))
    (h : .string s text ∈ Expr.requestsOption e) : ⟨s, text⟩ ∈ Expr.optionLiterals e := by
  cases e with
  | none => simp [Expr.requestsOption] at h
  | some e => exact e.mem_literals_of_mem_requests h

mutual

theorem Stmt.mem_literals_of_mem_requests : (x : Stmt Ty) → .string s text ∈ x.requests →
    ⟨s, text⟩ ∈ x.literals
  | .ret _ value, h => Expr.mem_optionLiterals_of_mem_requestsOption value h
  | .assign _ _ value, h => value.mem_literals_of_mem_requests h
  | .declare _ _ ty init, h => by
    rw [Stmt.requests] at h
    split at h
    · simp at h
    · exact Expr.mem_optionLiterals_of_mem_requestsOption init h
  | .store _ base offset value, h => by
    simp only [Stmt.requests, Stmt.literals, List.mem_append] at h ⊢
    rcases h with (h | h) | h
    · exact .inl (base.mem_literals_of_mem_requests h)
    · exact .inr (.inl (offset.mem_literals_of_mem_requests h))
    · exact .inr (.inr (value.mem_literals_of_mem_requests h))
  | .branch _ cond thenBody elseBody, h => by
    simp only [Stmt.requests, Stmt.literals, List.mem_append] at h ⊢
    rcases h with h | h | h
    · exact .inl (cond.mem_literals_of_mem_requests h)
    · exact .inr (.inl (Stmt.mem_literalsAll_of_mem_requestsAll thenBody h))
    · exact .inr (.inr (Stmt.mem_literalsAll_of_mem_requestsAll elseBody h))
  | .loop _ .whileDo cond body, h => by
    simp only [Stmt.requests, Stmt.literals, List.mem_append] at h ⊢
    rcases h with h | h | h
    · exact .inl (cond.mem_literals_of_mem_requests h)
    · exact .inr (Stmt.mem_literalsAll_of_mem_requestsAll body h)
    · exact .inl (cond.mem_literals_of_mem_requests h)
  | .loop _ .doWhile cond body, h => by
    simp only [Stmt.requests, Stmt.literals, List.mem_append] at h ⊢
    rcases h with h | h
    · exact .inl (Stmt.mem_literalsAll_of_mem_requestsAll body h)
    · exact .inr (cond.mem_literals_of_mem_requests h)
  | .forLoop _ init cond update body, h => by
    simp only [Stmt.requests, Stmt.literals, List.mem_append] at h ⊢
    rcases h with h | h | h | h | h
    · exact .inl (Stmt.mem_optionLiterals_of_mem_requestsOption init h)
    · exact .inr (.inl (Expr.mem_optionLiterals_of_mem_requestsOption cond h))
    · exact .inr (.inr (.inr (Stmt.mem_literalsAll_of_mem_requestsAll body h)))
    · exact .inr (.inr (.inl (Stmt.mem_optionLiterals_of_mem_requestsOption update h)))
    · exact .inr (.inl (Expr.mem_optionLiterals_of_mem_requestsOption cond h))
  | .jump .., h => by simp [Stmt.requests] at h
  | .expr _ value, h => value.mem_literals_of_mem_requests h

theorem Stmt.mem_literalsAll_of_mem_requestsAll : (xs : List (Stmt Ty)) →
    .string s text ∈ Stmt.requestsAll xs → ⟨s, text⟩ ∈ Stmt.literalsAll xs
  | [], h => by simp [Stmt.requestsAll] at h
  | x :: xs, h =>
    List.mem_append.mpr ((List.mem_append.mp h).imp x.mem_literals_of_mem_requests
      (Stmt.mem_literalsAll_of_mem_requestsAll xs))

theorem Stmt.mem_optionLiterals_of_mem_requestsOption : (x : Option (Stmt Ty)) →
    .string s text ∈ Stmt.requestsOption x → ⟨s, text⟩ ∈ Stmt.optionLiterals x
  | none, h => by simp [Stmt.requestsOption] at h
  | some x, h => x.mem_literals_of_mem_requests h

end

/-- Memory is asked only for literals of the program. -/
theorem Item.mem_literals_of_mem_requests (item : Item Ty)
    (h : .string s text ∈ item.requests) : ⟨s, text⟩ ∈ item.literals := by
  cases item with
  | global g =>
    simp only [Item.requests, Global.requests, List.mem_cons, reduceCtorEq, false_or] at h
    split at h
    · simp at h
    · split at h
      · next hInit =>
        cases List.mem_singleton.mp h
        rw [Item.literals, hInit]
        exact List.mem_singleton_self _
      · cases h
  | function f => exact Stmt.mem_literalsAll_of_mem_requestsAll f.body h

end

section

variable {B : Bindings}

mutual

/-- Whatever has code has addresses for its literals. -/
theorem ExprLowers.literals_placed (e : Expr Ty) {code : Code} (h : ExprLowers B e code) :
    ∀ l ∈ e.literals, ∃ a, B.text l.span.lo a := by
  cases h with
  | const => simp [Expr.literals]
  | @string ty s text address hText => simpa [Expr.literals] using ⟨address, hText⟩
  | var => simp [Expr.literals]
  | @call ty s callee args code hArgs => exact ArgsLower.literals_placed args hArgs
  | @binary ty s op lhs rhs a b opcode hLhs hRhs hOpcode =>
    exact List.forall_mem_append.mpr
      ⟨ExprLowers.literals_placed lhs hLhs, ExprLowers.literals_placed rhs hRhs⟩
  | step hOp hStep => simp [Expr.literals]
  | @row ty t s fixity e code _ _ hE | @not ty s fixity e code _ hE
  | @deref ty t s fixity e code _ _ _ hE | @negateInt ty s fixity e code _ hE
  | @negateFloat ty s fixity e code _ hE => exact ExprLowers.literals_placed e hE
  | @index ty s base offset b o hFloat hBase hOffset =>
    exact List.forall_mem_append.mpr
      ⟨ExprLowers.literals_placed base hBase, ExprLowers.literals_placed offset hOffset⟩

theorem ArgsLower.literals_placed (es : List (Expr Ty)) {code : Code} (h : ArgsLower B es code) :
    ∀ l ∈ Expr.literalsAll es, ∃ a, B.text l.span.lo a := by
  cases h with
  | nil => simp [Expr.literalsAll]
  | @cons e es a b hE hEs =>
    exact List.forall_mem_append.mpr
      ⟨ExprLowers.literals_placed e hE, ArgsLower.literals_placed es hEs⟩

end

theorem CondLowers.literals_placed {e? : Option (Expr Ty)} {code : Code}
    (h : CondLowers B e? code) : ∀ l ∈ Expr.optionLiterals e?, ∃ a, B.text l.span.lo a := by
  cases h with
  | none => simp [Expr.optionLiterals]
  | some hE => exact hE.literals_placed

theorem EffectLowers.literals_placed {e : Expr Ty} {code : Code} (h : EffectLowers B e code) :
    ∀ l ∈ e.literals, ∃ a, B.text l.span.lo a := by
  cases h with
  | step hOp hStep => simp [Expr.literals]
  | plain hE => exact hE.literals_placed

mutual

theorem StmtLowers.literals_placed (x : Stmt Ty) {labels : List Label} {code : Code}
    {arrays : List (String × Nat)} (h : StmtLowers B labels x code arrays) :
    ∀ l ∈ x.literals, ∃ a, B.text l.span.lo a := by
  cases h with
  | retNone => simp [Stmt.literals, Expr.optionLiterals]
  | retSome hE => exact hE.literals_placed
  | assign hPlace hE => exact hE.literals_placed
  | array => simp [Stmt.literals, Expr.optionLiterals]
  | scalar => simp [Stmt.literals, Expr.optionLiterals]
  | scalarInit _ _ hE => exact hE.literals_placed
  | store _ hBase hOffset hValue =>
    exact List.forall_mem_append.mpr ⟨hBase.literals_placed,
      List.forall_mem_append.mpr ⟨hOffset.literals_placed, hValue.literals_placed⟩⟩
  | @branch labels s cond thenBody elseBody c t e as bs hCond hThen hElse =>
    exact List.forall_mem_append.mpr ⟨hCond.literals_placed, List.forall_mem_append.mpr
      ⟨BodyLowers.literals_placed thenBody hThen, BodyLowers.literals_placed elseBody hElse⟩⟩
  | @whileDo labels s cond body c b c' as hCond hBody hAgain =>
    exact List.forall_mem_append.mpr
      ⟨hCond.literals_placed, BodyLowers.literals_placed body hBody⟩
  | @doWhile labels s cond body b c as hBody hCond =>
    exact List.forall_mem_append.mpr
      ⟨BodyLowers.literals_placed body hBody, hCond.literals_placed⟩
  | @forLoop labels s init update cond body i c b u c' as bs cs hInit hCond hBody hUpdate hAgain =>
    exact List.forall_mem_append.mpr ⟨OptionLowers.literals_placed init hInit,
      List.forall_mem_append.mpr ⟨hCond.literals_placed, List.forall_mem_append.mpr
        ⟨OptionLowers.literals_placed update hUpdate, BodyLowers.literals_placed body hBody⟩⟩⟩
  | jump => simp [Stmt.literals]
  | expr hEffect => exact hEffect.literals_placed

theorem BodyLowers.literals_placed (xs : List (Stmt Ty)) {labels : List Label} {code : Code}
    {arrays : List (String × Nat)} (h : BodyLowers B labels xs code arrays) :
    ∀ l ∈ Stmt.literalsAll xs, ∃ a, B.text l.span.lo a := by
  cases h with
  | nil => simp [Stmt.literalsAll]
  | @cons labels x xs a b as bs hX hXs =>
    exact List.forall_mem_append.mpr
      ⟨StmtLowers.literals_placed x hX, BodyLowers.literals_placed xs hXs⟩

theorem OptionLowers.literals_placed (x? : Option (Stmt Ty)) {labels : List Label} {code : Code}
    {arrays : List (String × Nat)} (h : OptionLowers B labels x? code arrays) :
    ∀ l ∈ Stmt.optionLiterals x?, ∃ a, B.text l.span.lo a := by
  cases h with
  | none => simp [Stmt.optionLiterals]
  | @some labels x a as hX => exact StmtLowers.literals_placed x hX

end

end

end MiniC
