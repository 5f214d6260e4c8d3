import Mathlib.Data.List.Forall2
import MiniC.Proofs.Resolution.Expr
import MiniC.Proofs.Typing.Stmt

/-! # Visits and uses of a statement

The visits are the uses, as far as lowering gets: each name is looked up in a frame whose names are
the declarations that lowering has met.
-/
namespace MiniC
set_option autoImplicit false

open Wasm (Code Instr ValType)

variable {α β σ : Type}

/-- The frame has a place for every declared name and for no other, and the place is for values of
the machine type of the latest declaration. -/
def Frame.Shows (globals : Globals) (s : Frame) (scope : Scope) : Prop :=
  ∀ x, match List.lookup x scope with
    | none => s.place? globals x = none
    | some ty => ∃ p, s.place? globals x = some p ∧ p.HasType s.slots ty.valType

theorem Place.HasType.of_prefix {slots slots' : List ValType} (h : slots <+: slots') {t : ValType}
    {p : Place} (hp : p.HasType slots t) : p.HasType slots' t := by
  cases p with
  | slot n => exact Frame.getElem?_of_prefix h hp
  | cell address t' => exact hp

namespace Frame.Shows

variable {globals : Globals} {s s' : Frame} {scope : Scope}

theorem place?_eq_none_iff (h : s.Shows globals scope) {x : String} :
    s.place? globals x = none ↔ x ∉ scope.map Prod.fst := by
  have hx := h x
  rw [← Table.lookup_eq_none_iff]
  cases hLookup : List.lookup x scope with
  | none =>
    rw [hLookup] at hx
    simp only [hx]
  | some ty =>
    rw [hLookup] at hx
    obtain ⟨p, hp, -⟩ := hx
    simp [hp]

theorem of_names_eq (h : s.Shows globals scope) (hNames : s'.names = s.names)
    (hSlots : s.slots <+: s'.slots) : s'.Shows globals scope := by
  intro x
  have hx := h x
  rw [place?_of_names_eq hNames]
  cases hLookup : List.lookup x scope with
  | none =>
    rw [hLookup] at hx
    exact hx
  | some ty =>
    rw [hLookup] at hx
    obtain ⟨p, hp, hType⟩ := hx
    exact ⟨p, hp, hType.of_prefix hSlots⟩

theorem declare (h : s.Shows globals scope) {x : Ident} {ty : Ty} {n : Nat}
    (hDeclare : Emit.declare x ty s = .ok n s') : s'.Shows globals (scope.declare x ty) := by
  rw [Emit.declare_eq] at hDeclare
  cases hDeclare
  intro y
  rw [Scope.declare, place?, List.lookup_cons, List.lookup_cons]
  by_cases hy : y = x.name
  · rw [hy, beq_self_eq_true]
    exact ⟨.slot s.slots.length, rfl, List.getElem?_concat_length⟩
  · rw [beq_eq_false_iff_ne.mpr hy]
    have hSlots : Frame.Shows globals { s with slots := s.slots ++ [ty.valType] } scope :=
      h.of_names_eq rfl (List.prefix_append _ _)
    exact hSlots y

end Frame.Shows

/-- The use for which a name is looked up; the check has found the name. -/
structure Visit.Matches (v : Visit) (u : Use) : Prop where
  ident : v.ident = u.ident
  scope : v.scope = u.checked
  known : v.ident.name ∈ v.scope.map Prod.fst
  frame : v.frame.Shows v.globals u.lowered

/-- The visits on the way to a result are the uses, in their order; after an error they are the first
of the uses, and the reason for an unresolved name is one of them. -/
def Traced (Q : σ → Prop) (r : EStateM.Result (Located CodeError) σ α) (vs : List Visit)
    (us : List Use) : Prop :=
  match r with
  | .ok _ s => List.Forall₂ Visit.Matches vs us ∧ (∀ v ∈ vs, v.place? ≠ none) ∧ Q s
  | .error e _ => (∃ us₁, us₁ <+: us ∧ List.Forall₂ Visit.Matches vs us₁) ∧
    ∀ n, e.value = .unresolved n → ∃ v ∈ vs, v.ident.name = n ∧ v.place? = none

namespace Traced

variable {Q Q' : σ → Prop} {vs : List Visit} {us us' : List Use}

theorem bind {x : EStateM (Located CodeError) σ α} {k : α → EStateM (Located CodeError) σ β}
    {s : σ} {ws : σ → List Visit} (hx : Traced Q (x s) vs us)
    (hk : ∀ a s₁, x s = .ok a s₁ → Q s₁ → Traced Q' (k a s₁) (ws s₁) us') :
    Traced Q' ((x >>= k) s) (vs ++ onOk (x s) ws) (us ++ us') := by
  cases hRun : x s with
  | error e s₁ =>
    rw [hRun] at hx
    obtain ⟨⟨us₁, hPrefix, hMatches⟩, hReason⟩ := hx
    rw [Action.bind_of_error hRun, onOk, List.append_nil]
    exact ⟨⟨us₁, hPrefix.trans (List.prefix_append _ _), hMatches⟩, hReason⟩
  | ok a s₁ =>
    rw [hRun] at hx
    obtain ⟨hMatches, hFound, hQ⟩ := hx
    have hNext := hk a s₁ hRun hQ
    rw [Action.bind_of_ok hRun, onOk]
    cases hRun₁ : k a s₁ with
    | error e s₂ =>
      rw [hRun₁] at hNext
      obtain ⟨⟨us₁, hPrefix, hMatches₁⟩, hReason⟩ := hNext
      refine ⟨⟨us ++ us₁, (List.prefix_append_right_inj us).mpr hPrefix,
        List.rel_append hMatches hMatches₁⟩, ?_⟩
      intro n hn
      obtain ⟨v, hv, hNone⟩ := hReason n hn
      exact ⟨v, List.mem_append_right _ hv, hNone⟩
    | ok b s₂ =>
      rw [hRun₁] at hNext
      obtain ⟨hMatches₁, hFound₁, hQ'⟩ := hNext
      exact ⟨List.rel_append hMatches hMatches₁, List.forall_mem_append.mpr ⟨hFound, hFound₁⟩, hQ'⟩

theorem pure {a : α} {s : σ} (h : Q s) :
    Traced Q ((Pure.pure a : EStateM (Located CodeError) σ α) s) [] [] :=
  ⟨.nil, by simp, h⟩

theorem andThen {x : EStateM (Located CodeError) σ α} {k : α → EStateM (Located CodeError) σ β}
    {s : σ} (hx : Traced Q (x s) vs us)
    (hk : ∀ a s₁, x s = .ok a s₁ → Q s₁ → Traced Q' (k a s₁) [] []) :
    Traced Q' ((x >>= k) s) vs us := by
  have h := @bind _ _ _ Q Q' vs us [] x k s (fun _ => []) hx hk
  cases hRun : x s <;> simpa [hRun, onOk] using h

theorem map {x : EStateM (Located CodeError) σ α} {f : α → β} {s : σ} (h : Traced Q (x s) vs us) :
    Traced Q ((x >>= fun a => Pure.pure (f a)) s) vs us :=
  h.andThen fun _ _ _ hQ => pure hQ

theorem of_alwaysResolved {x : EStateM (Located CodeError) σ α} (hx : AlwaysResolved x) {s : σ}
    (h : ∀ a s', x s = .ok a s' → Q s') : Traced Q (x s) [] [] := by
  cases hRun : x s with
  | error e s₁ =>
    exact ⟨⟨[], List.prefix_refl _, .nil⟩, fun n hn => absurd hn (hx s e s₁ hRun n)⟩
  | ok a s₁ => exact ⟨.nil, by simp, h a s₁ hRun⟩

end Traced

/-- An expression is lowered in the frame in which its variables are looked up. -/
theorem Finds.traced {globals : Globals} {s : Frame} {xs : List Ident}
    {r : EStateM.Result (Located CodeError) Frame α} (h : Finds globals s xs r) {c l : Scope}
    (hKnown : Expr.Known c xs) (hs : s.Shows globals l) :
    Traced (Frame.Shows globals · l) r (Stmt.visit globals xs c s) (Stmt.use xs c l) := by
  have hMatches : List.Forall₂ Visit.Matches (Stmt.visit globals xs c s) (Stmt.use xs c l) := by
    rw [Stmt.visit, Stmt.use, List.forall₂_map_left_iff, List.forall₂_map_right_iff,
      List.forall₂_same]
    exact fun x hx => ⟨rfl, rfl, hKnown x hx, hs⟩
  cases r with
  | error e s₁ =>
    refine ⟨⟨_, List.prefix_refl _, hMatches⟩, ?_⟩
    intro n hn
    obtain ⟨x, hx, hName⟩ := h n hn
    exact ⟨⟨x, c, globals, s⟩, List.mem_map_of_mem hx, hName⟩
  | ok a s₁ =>
    obtain ⟨hFound, hNames, hSlots⟩ := h
    refine ⟨hMatches, ?_, hs.of_names_eq hNames hSlots⟩
    intro v hv
    obtain ⟨x, hx, rfl⟩ := List.mem_map.mp hv
    exact hFound x hx

namespace Emit

variable {globals : Globals}

theorem declareArray_traced {s₀ : Span} {x : Ident} {ty : Ty} {init : Option (Expr Ty)} {s : Frame}
    {l : Scope} (hs : s.Shows globals l) :
    Traced (Frame.Shows globals · (l.declare x ty)) (declareArray s₀ x ty init s) [] [] := by
  cases init with
  | some e => exact .of_alwaysResolved (.throw (by simp)) fun _ _ h => by cases h
  | none =>
    have hDeclare : AlwaysResolved (declare x ty) := by
      intro s e s' h
      cases h
    refine .of_alwaysResolved ((AlwaysResolved.reserveArray ty s₀).inMemory.bind fun _ =>
      hDeclare.bind fun _ => .pure) ?_
    intro code s' hRun
    simp only [Action.bind_eq_ok_iff, Action.pure_eq_ok_iff, inMemory_eq_ok_iff] at hRun
    obtain ⟨a, _, ⟨m, -, rfl⟩, n, _, hRun, -, rfl⟩ := hRun
    have hMemory : Frame.Shows globals { s with memory := m } l :=
      hs.of_names_eq rfl (List.prefix_refl _)
    exact hMemory.declare hRun

theorem declareScalar_traced {x : Ident} {ty : Ty} {init : Option (Expr Unit)}
    {init' : Option (Expr Ty)} (hInit : Expr.identsOption init' = Expr.identsOption init)
    {s : Frame} {c l : Scope} (hKnown : Expr.Known c (Expr.identsOption init')) (hs : s.Shows globals l) :
    Traced (Frame.Shows globals · (l.declare x ty)) (declareScalar globals x ty init' s)
      (onOk (declare x ty s) fun s₁ => Stmt.visit globals (Expr.identsOption init) c s₁)
      (Stmt.use (Expr.identsOption init) c (l.declare x ty)) := by
  have hFirst : Traced (Frame.Shows globals · (l.declare x ty)) (declare x ty s) [] [] :=
    ⟨.nil, by simp, hs.declare rfl⟩
  rw [declareScalar, ← List.nil_append (onOk _ _), ← List.nil_append (Stmt.use _ _ _), ← hInit]
  refine hFirst.bind fun n s₁ _ hs₁ => ?_
  cases init' with
  | none => exact .pure hs₁
  | some e => exact ((e.emit_finds s₁).traced hKnown hs₁).map

theorem jump_traced {labels : List Label} {s₀ : Span} {j : Jump} {s : Frame} {l : Scope}
    (hs : s.Shows globals l) :
    Traced (Frame.Shows globals · l) (jump labels s₀ j s) [] [] := by
  rw [jump]
  cases labels.findIdx? fun l => decide (l = some j) with
  | some depth => exact .pure hs
  | none => exact .of_alwaysResolved (.throw (by simp)) fun _ _ h => by cases h

end Emit

namespace Stmt

variable {ctx : FunctionContext} {globals : Globals}

mutual

theorem traced_of_check (x : Stmt Unit) {c c' : Scope} {y : Stmt Ty}
    (h : x.check ctx c = .ok (y, c')) :
    c' = x.after .check c ∧ ∀ (labels : List Label) (s : Frame) (l : Scope), s.Shows globals l →
      Traced (Frame.Shows globals · (x.after .lower l)) (y.emit globals labels s)
        (x.visits ctx globals labels c s) (x.uses c l) := by
  cases x with
  | ret s₀ value =>
    simp only [check, Checked.bind_eq_ok_iff, Checked.pure_eq_ok_iff, Prod.mk.injEq] at h
    obtain ⟨_, hReturn, rfl, rfl⟩ := h
    obtain ⟨value', rfl, hValue⟩ := checkReturn_eq_ok hReturn
    obtain ⟨hIdents, hKnown⟩ := Expr.identsOption_of_checkOptionAs hValue
    refine ⟨rfl, fun labels s l hs => ?_⟩
    rw [visits, uses, ← hIdents]
    exact ((Emit.optionExpr_finds value' s).traced hKnown hs).map
  | assign s₀ target value =>
    simp only [check, Checked.bind_eq_ok_iff, Checked.pure_eq_ok_iff, Prod.mk.injEq] at h
    obtain ⟨ty, hTarget, value', hValue, rfl, rfl⟩ := h
    obtain ⟨hIdents, hKnown⟩ := Expr.idents_of_checkAs hValue
    refine ⟨rfl, fun labels s l hs => ?_⟩
    rw [visits, uses, ← hIdents]
    exact (Emit.assign_finds target value' s).traced ((Expr.Known.of_lookup hTarget).append hKnown) hs
  | declare s₀ name ty init =>
    simp only [check, Checked.bind_eq_ok_iff, Checked.pure_eq_ok_iff, Prod.mk.injEq] at h
    obtain ⟨_, -, init', hInit, rfl, rfl⟩ := h
    obtain ⟨hIdents, hKnown⟩ := Expr.identsOption_of_checkOptionAs hInit
    refine ⟨rfl, fun labels s l hs => ?_⟩
    rw [visits, uses, emit]
    split
    · exact Emit.declareArray_traced hs
    · exact Emit.declareScalar_traced hIdents hKnown hs
  | store s₀ base offset value =>
    simp only [check, Checked.bind_eq_ok_iff, Checked.pure_eq_ok_iff, Prod.mk.injEq] at h
    obtain ⟨_, hStore, rfl, rfl⟩ := h
    obtain ⟨base', offset', value', ty, rfl, hBase, hOffset, hValue⟩ := checkStore_eq_ok hStore
    obtain ⟨hIdents₁, hKnown₁⟩ := Expr.idents_of_check base hBase
    obtain ⟨hIdents₂, hKnown₂⟩ := Expr.idents_of_check offset hOffset
    obtain ⟨hIdents₃, hKnown₃⟩ := Expr.idents_of_checkAs hValue
    refine ⟨rfl, fun labels s l hs => ?_⟩
    rw [visits, uses, ← hIdents₁, ← hIdents₂, ← hIdents₃]
    exact ((Emit.elementAddress_finds (fun s => base'.emit_finds s) (fun s => offset'.emit_finds s)
      s).bind fun _ s₁ => (value'.emit_finds s₁).map).traced
        ((hKnown₁.append hKnown₂).append hKnown₃) hs
  | branch s₀ cond thenBody elseBody =>
    simp only [check, Checked.bind_eq_ok_iff, Checked.pure_eq_ok_iff, Prod.mk.injEq,
      Prod.exists] at h
    obtain ⟨cond', hCond, thenBody', c₁, hThen, elseBody', c₂, hElse, rfl, rfl⟩ := h
    obtain ⟨rfl, hTraced₁⟩ := traced_of_checkAll thenBody hThen
    obtain ⟨rfl, hTraced₂⟩ := traced_of_checkAll elseBody hElse
    obtain ⟨hIdents, hKnown⟩ := Expr.idents_of_checkCondition hCond
    refine ⟨rfl, fun labels s l hs => ?_⟩
    simp only [visits, hCond, hThen, onChecked]
    rw [uses, ← hIdents]
    refine ((cond'.emit_finds s).traced hKnown hs).bind fun _ s₁ _ hs₁ => ?_
    refine (hTraced₁ _ s₁ l hs₁).bind fun _ s₂ _ hs₂ => ?_
    exact (hTraced₂ _ s₂ _ hs₂).map
  | loop s₀ kind cond body =>
    simp only [check, Checked.bind_eq_ok_iff, Checked.pure_eq_ok_iff, Prod.mk.injEq,
      Prod.exists] at h
    obtain ⟨cond', hCond, body', c₁, hBody, rfl, rfl⟩ := h
    obtain ⟨rfl, hTraced⟩ := traced_of_checkAll body hBody
    obtain ⟨hIdents, hKnown⟩ := Expr.idents_of_checkCondition hCond
    refine ⟨rfl, fun labels s l hs => ?_⟩
    cases kind with
    | whileDo =>
      simp only [visits, hCond, hBody, onChecked, emit, Emit.guarded, Emit.repeatLoop, bind_assoc,
        pure_bind]
      rw [uses, ← hIdents]
      refine ((cond'.emit_finds s).traced hKnown hs).bind fun _ s₁ _ hs₁ => ?_
      refine (hTraced _ s₁ l hs₁).bind fun _ s₂ _ hs₂ => ?_
      exact ((cond'.emit_finds s₂).traced hKnown hs₂).map
    | doWhile =>
      simp only [visits, hBody, onChecked, emit, Emit.repeatLoop, bind_assoc, pure_bind]
      rw [uses, ← hIdents]
      refine (hTraced _ s l hs).bind fun _ s₁ _ hs₁ => ?_
      exact ((cond'.emit_finds s₁).traced hKnown hs₁).map
  | forLoop s₀ init cond update body =>
    simp only [check, Checked.bind_eq_ok_iff, Checked.pure_eq_ok_iff, Prod.mk.injEq,
      Prod.exists] at h
    obtain ⟨init', c₁, hInit, cond', hCond, update', c₂, hUpdate, body', c₃, hBody, rfl, rfl⟩ := h
    obtain ⟨rfl, hTraced₁⟩ := traced_of_checkOption init hInit
    obtain ⟨rfl, hTraced₂⟩ := traced_of_checkOption update hUpdate
    obtain ⟨rfl, hTraced₃⟩ := traced_of_checkAll body hBody
    obtain ⟨hIdents, hKnown⟩ := Expr.identsOption_of_checkOptionCondition hCond
    refine ⟨rfl, fun labels s l hs => ?_⟩
    simp only [visits, hInit, hCond, hUpdate, hBody, onChecked, emit, Emit.guarded,
      Emit.repeatLoop, bind_assoc, pure_bind]
    rw [uses, ← hIdents]
    refine (hTraced₁ _ s l hs).bind fun _ s₁ _ hs₁ => ?_
    refine ((Emit.condition_finds cond' s₁).traced hKnown hs₁).bind fun _ s₂ _ hs₂ => ?_
    refine (hTraced₃ _ s₂ _ hs₂).bind fun _ s₃ _ hs₃ => ?_
    refine (hTraced₂ _ s₃ _ hs₃).bind fun _ s₄ _ hs₄ => ?_
    exact ((Emit.condition_finds cond' s₄).traced hKnown hs₄).map
  | jump s₀ j =>
    cases h
    exact ⟨rfl, fun labels s l hs => Emit.jump_traced hs⟩
  | expr s₀ value =>
    simp only [check, Checked.bind_eq_ok_iff, Checked.pure_eq_ok_iff, Prod.mk.injEq] at h
    obtain ⟨value', hValue, rfl, rfl⟩ := h
    obtain ⟨hIdents, hKnown⟩ := Expr.idents_of_check value hValue
    refine ⟨rfl, fun labels s l hs => ?_⟩
    rw [visits, uses, ← hIdents]
    exact (Emit.effect_finds value' s).traced hKnown hs

theorem traced_of_checkAll (xs : List (Stmt Unit)) {c c' : Scope} {ys : List (Stmt Ty)}
    (h : checkAll ctx c xs = .ok (ys, c')) :
    c' = afterAll .check c xs ∧ ∀ (labels : List Label) (s : Frame) (l : Scope),
      s.Shows globals l → Traced (Frame.Shows globals · (afterAll .lower l xs))
        (emitAll globals labels ys s) (visitsAll ctx globals labels c s xs) (usesAll c l xs) := by
  cases xs with
  | nil =>
    cases h
    exact ⟨rfl, fun labels s l hs => .pure hs⟩
  | cons x xs =>
    simp only [checkAll, Checked.bind_eq_ok_iff, Checked.pure_eq_ok_iff, Prod.mk.injEq,
      Prod.exists] at h
    obtain ⟨y, c₁, hX, ys, c₂, hXs, rfl, rfl⟩ := h
    obtain ⟨rfl, hTraced₁⟩ := traced_of_check x hX
    obtain ⟨rfl, hTraced₂⟩ := traced_of_checkAll xs hXs
    refine ⟨rfl, fun labels s l hs => ?_⟩
    simp only [visitsAll, hX, onChecked]
    exact (hTraced₁ labels s l hs).bind fun _ s₁ _ hs₁ => (hTraced₂ labels s₁ _ hs₁).map

theorem traced_of_checkOption (x? : Option (Stmt Unit)) {c c' : Scope} {y? : Option (Stmt Ty)}
    (h : checkOption ctx c x? = .ok (y?, c')) :
    c' = afterOption .check c x? ∧ ∀ (labels : List Label) (s : Frame) (l : Scope),
      s.Shows globals l → Traced (Frame.Shows globals · (afterOption .lower l x?))
        (emitOption globals labels y? s) (visitsOption ctx globals labels c s x?)
        (usesOption c l x?) := by
  cases x? with
  | none =>
    cases h
    exact ⟨rfl, fun labels s l hs => .pure hs⟩
  | some x =>
    simp only [checkOption, Checked.bind_eq_ok_iff, Checked.pure_eq_ok_iff, Prod.mk.injEq,
      Prod.exists] at h
    obtain ⟨y, c₁, hX, rfl, rfl⟩ := h
    exact traced_of_check x hX

end

end Stmt

end MiniC
