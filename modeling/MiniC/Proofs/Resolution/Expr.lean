import MiniC.Proofs.Layout
import MiniC.Proofs.Resolution.Visits
import MiniC.Proofs.Typing.Expr

/-! # Looking up the variables of an expression

The names of a frame stay as they are while an expression is lowered.  Lowering gets to the end only
if every variable of the expression has a place, and it ends with an unresolved name only if one of
the variables has none.
-/
namespace MiniC
set_option autoImplicit false

open Wasm (Code Instr ValType)

variable {α β σ : Type}

/-- No run ends with an unresolved name. -/
def AlwaysResolved (x : EStateM (Located CodeError) σ α) : Prop :=
  ∀ s e s', x s = .error e s' → ∀ n, e.value ≠ .unresolved n

namespace AlwaysResolved

theorem pure {a : α} : AlwaysResolved (Pure.pure a : EStateM (Located CodeError) σ α) := by
  intro s e s' h
  cases h

theorem throw {e : Located CodeError} (he : ∀ n, e.value ≠ .unresolved n) :
    AlwaysResolved (MonadExcept.throw e : EStateM (Located CodeError) σ α) := by
  intro s e' s' h
  cases h
  exact he

theorem bind {x : EStateM (Located CodeError) σ α} {f : α → EStateM (Located CodeError) σ β}
    (hx : AlwaysResolved x) (hf : ∀ a, AlwaysResolved (f a)) : AlwaysResolved (x >>= f) := by
  intro s e s' h
  cases hRun : x s with
  | ok a s₁ =>
    rw [Action.bind_of_ok hRun] at h
    exact hf a s₁ e s' h
  | error e₁ s₁ =>
    rw [Action.bind_of_error hRun] at h
    cases h
    exact hx s e s' hRun

theorem alloc (len : Nat) (span : Span) : AlwaysResolved (Memory.alloc len span) := by
  intro m e m' h
  rw [Memory.alloc] at h
  split at h
  · cases h
  · cases h
    simp

theorem modify {f : σ → σ} : AlwaysResolved (modify f : EStateM (Located CodeError) σ PUnit) := by
  intro s e s' h
  cases h

theorem placeString (text : String) (span : Span) :
    AlwaysResolved (Memory.placeString text span) := by
  intro m e m' h
  rw [Memory.placeString, Memory.get_bind] at h
  cases hFound : List.lookup span.lo m.strings with
  | some address =>
    rw [hFound] at h
    cases h
  | none =>
    rw [hFound] at h
    exact ((alloc _ span).bind fun _ => modify.bind fun _ => modify.bind fun _ => pure) m e m' h

theorem reserveArray (ty : Ty) (span : Span) : AlwaysResolved (Memory.reserveArray ty span) := by
  rw [Memory.reserveArray]
  split
  · exact throw (by simp)
  · exact alloc _ _

theorem inMemory {x : Alloc α} (hx : AlwaysResolved x) : AlwaysResolved (Emit.inMemory x) := by
  intro s e s' h
  rw [Emit.inMemory] at h
  cases hRun : x s.memory with
  | ok a m =>
    rw [hRun] at h
    cases h
  | error e₁ m =>
    rw [hRun] at h
    cases h
    exact hx _ _ _ hRun

end AlwaysResolved

/-- The result of lowering something with the given variables in the frame `s`. -/
def Finds (globals : Globals) (s : Frame) (xs : List Ident)
    (r : EStateM.Result (Located CodeError) Frame α) : Prop :=
  match r with
  | .ok _ s' =>
    (∀ x ∈ xs, s.place? globals x.name ≠ none) ∧ s'.names = s.names ∧ s.slots <+: s'.slots
  | .error e _ =>
    ∀ n, e.value = .unresolved n → ∃ x ∈ xs, x.name = n ∧ s.place? globals x.name = none

theorem Frame.place?_of_names_eq {globals : Globals} {s s' : Frame} (h : s'.names = s.names)
    (x : String) : s'.place? globals x = s.place? globals x := by
  rw [place?, place?, h]

namespace Finds

variable {globals : Globals} {s : Frame} {xs ys : List Ident}

theorem pure {a : α} : Finds globals s [] ((Pure.pure a : Emit α) s) :=
  ⟨by simp, rfl, List.prefix_refl _⟩

theorem fail {span : Span} {e : CodeError} (he : ∀ n, e ≠ .unresolved n) :
    Finds globals s xs ((Emit.fail span e : Emit α) s) :=
  fun n hn => absurd hn (he n)

theorem bind {x : Emit α} {k : α → Emit β} (hx : Finds globals s xs (x s))
    (hk : ∀ a s₁, Finds globals s₁ ys (k a s₁)) : Finds globals s (xs ++ ys) ((x >>= k) s) := by
  cases hRun : x s with
  | error e s₁ =>
    rw [hRun] at hx
    rw [Action.bind_of_error hRun]
    intro n hn
    obtain ⟨y, hy, hName⟩ := hx n hn
    exact ⟨y, List.mem_append_left _ hy, hName⟩
  | ok a s₁ =>
    rw [hRun] at hx
    obtain ⟨hFound, hNames, hSlots⟩ := hx
    have hNext := hk a s₁
    rw [Action.bind_of_ok hRun]
    cases hRun₁ : k a s₁ with
    | error e s₂ =>
      rw [hRun₁] at hNext
      intro n hn
      obtain ⟨y, hy, hName, hNone⟩ := hNext n hn
      rw [Frame.place?_of_names_eq hNames] at hNone
      exact ⟨y, List.mem_append_right _ hy, hName, hNone⟩
    | ok b s₂ =>
      rw [hRun₁] at hNext
      obtain ⟨hFound₁, hNames₁, hSlots₁⟩ := hNext
      refine ⟨?_, hNames₁.trans hNames, hSlots.trans hSlots₁⟩
      intro y hy
      rcases List.mem_append.mp hy with hy | hy
      · exact hFound y hy
      · rw [← Frame.place?_of_names_eq hNames]
        exact hFound₁ y hy

theorem map {x : Emit α} {f : α → β} (hx : Finds globals s xs (x s)) :
    Finds globals s xs ((x >>= fun a => Pure.pure (f a)) s) := by
  have hBind : Finds globals s (xs ++ []) ((x >>= fun a => Pure.pure (f a)) s) :=
    hx.bind fun _ _ => pure
  rwa [List.append_nil] at hBind

theorem resolve (x : Ident) : Finds globals s [x] (Emit.resolve globals x s) := by
  rw [Emit.resolve_eq]
  cases hPlace : s.place? globals x.name with
  | some p => exact ⟨by simp [hPlace], rfl, List.prefix_refl _⟩
  | none =>
    intro n hn
    cases hn
    exact ⟨x, List.mem_cons_self, rfl, hPlace⟩

theorem newSlot (ty : ValType) : Finds globals s [] (Emit.newSlot ty s) :=
  ⟨by simp, rfl, List.prefix_append _ _⟩

theorem inMemory {x : Alloc α} (hx : AlwaysResolved x) :
    Finds globals s [] (Emit.inMemory x s) := by
  cases hRun : Emit.inMemory x s with
  | ok a s' =>
    obtain ⟨m, -, rfl⟩ := Emit.inMemory_eq_ok_iff.mp hRun
    exact ⟨by simp, rfl, List.prefix_refl _⟩
  | error e s' => exact fun n hn => absurd hn (hx.inMemory s e s' hRun n)

end Finds

namespace Emit

variable {globals : Globals}

theorem step_finds (op : UnaryOp) (fixity : Fixity) (used : Bool) (operand : Expr Ty) (s : Frame) :
    Finds globals s operand.idents (step globals op fixity used operand s) := by
  cases operand with
  | var ty s₀ x =>
    have hCell (address : Nat) (t : ValType) (s : Frame) : Finds globals s []
        (stepCell address t (stepCode op ty.valType) fixity used s) := by
      rw [stepCell]
      split
      · exact (Finds.newSlot t).map
      · exact .pure
    have hAll : Finds globals s ([x] ++ []) (step globals op fixity used (.var ty s₀ x) s) := by
      refine (Finds.resolve x).bind fun p s₁ => ?_
      cases p with
      | slot n => exact .pure
      | cell address t => exact hCell address t s₁
    exact hAll
  | _ => exact .fail (by simp)

theorem unary_finds (s₀ : Span) (op : UnaryOp) (fixity : Fixity) (operand : Expr Ty)
    {inner : Emit Code} (hInner : ∀ s, Finds globals s operand.idents (inner s)) (s : Frame) :
    Finds globals s operand.idents (unary globals s₀ op fixity operand inner s) := by
  cases op with
  | increment => exact step_finds .increment fixity true operand s
  | decrement => exact step_finds .decrement fixity true operand s
  | not =>
    rw [unary]
    split
    · exact (hInner s).map
    · exact .fail (by simp)
  | deref =>
    simp only [unary]
    cases operand.info.element? with
    | none => exact .fail (by simp)
    | some t =>
      simp only
      split
      · exact .fail (by simp)
      · split
        · exact hInner s
        · exact (hInner s).map
  | negate =>
    simp only [unary]
    cases operand.info.valType with
    | i32 => exact (hInner s).map
    | f32 => exact (hInner s).map

theorem elementAddress_finds {base offset : Expr Ty} {b o : Emit Code}
    (hb : ∀ s, Finds globals s base.idents (b s)) (ho : ∀ s, Finds globals s offset.idents (o s))
    (s : Frame) :
    Finds globals s (base.idents ++ offset.idents) (elementAddress base b o s) := by
  rw [elementAddress]
  split
  · exact .fail (by simp)
  · exact (hb s).bind fun _ s₁ => (ho s₁).map

end Emit

namespace Expr

variable {globals : Globals}

mutual

theorem emit_finds (e : Expr Ty) (s : Frame) : Finds globals s e.idents (e.emit globals s) := by
  cases e with
  | const ty s₀ value => exact .pure
  | string ty s₀ text => exact (Finds.inMemory (.placeString text s₀)).map
  | var ty s₀ x =>
    have hAll : Finds globals s ([x] ++ []) (Emit.readVariable globals x s) :=
      (Finds.resolve x).bind fun p _ => by cases p <;> exact .pure
    exact hAll
  | call ty s₀ callee args => exact (emitAll_finds args s).map
  | binary ty s₀ op lhs rhs =>
    have hRest (a : Code) (s : Frame) : Finds globals s (rhs.idents ++ [])
        ((rhs.emit globals >>= fun b => match op.opcode? lhs.info.valType with
          | some opcode => return a ++ b ++ [Instr.numeric lhs.info.valType opcode]
          | none => Emit.fail s₀ (.unsupportedBinary op.symbol lhs.info)) s) := by
      refine (emit_finds rhs s).bind fun b s₁ => ?_
      cases op.opcode? lhs.info.valType with
      | some opcode => exact .pure
      | none => exact .fail (by simp)
    have hAll := (emit_finds lhs s).bind hRest
    rw [List.append_nil] at hAll
    exact hAll
  | unary ty s₀ op fixity operand =>
    exact Emit.unary_finds s₀ op fixity operand (fun s => emit_finds operand s) s
  | index ty s₀ base offset =>
    exact (Emit.elementAddress_finds (fun s => emit_finds base s) (fun s => emit_finds offset s)
      s).map

theorem emitAll_finds (es : List (Expr Ty)) (s : Frame) :
    Finds globals s (identsAll es) (emitAll globals es s) := by
  cases es with
  | nil => exact .pure
  | cons e es => exact (emit_finds e s).bind fun _ s₁ => (emitAll_finds es s₁).map

end

variable {sigs : Signatures} {scope : Scope}

/-- The check has found all of the variables. -/
def Known (scope : Scope) (xs : List Ident) : Prop := ∀ x ∈ xs, x.name ∈ scope.map Prod.fst

theorem Known.append {xs ys : List Ident} (hxs : Known scope xs) (hys : Known scope ys) :
    Known scope (xs ++ ys) :=
  List.forall_mem_append.mpr ⟨hxs, hys⟩

theorem Known.of_lookup {x : Ident} {ty : Ty} (h : scope.lookup x = .ok ty) : Known scope [x] := by
  intro y hy
  rw [List.mem_singleton.mp hy]
  exact List.mem_map_of_mem (Table.mem_of_lookup (Scope.lookup_eq_ok_iff.mp h))

mutual

/-- Checking an expression keeps its variables. -/
theorem idents_of_check (e : Expr Unit) {e' : Expr Ty} (h : e.check sigs scope = .ok e') :
    e'.idents = e.idents ∧ Known scope e'.idents := by
  cases e with
  | const _ s value =>
    cases h
    exact ⟨rfl, by simp [Known, idents]⟩
  | string _ s text =>
    cases h
    exact ⟨rfl, by simp [Known, idents]⟩
  | var _ s x =>
    simp only [check, Checked.bind_eq_ok_iff, Checked.pure_eq_ok_iff] at h
    obtain ⟨ty, hLookup, rfl⟩ := h
    exact ⟨rfl, .of_lookup hLookup⟩
  | call _ s callee args =>
    rw [check] at h
    split at h
    · cases h
    · rename_i sig hSig
      split at h
      · cases h
      · rename_i hLength
        simp only [Checked.bind_eq_ok_iff, Checked.pure_eq_ok_iff] at h
        obtain ⟨args', hArgs, rfl⟩ := h
        exact idents_of_checkArgs args hArgs (Decidable.not_not.mp hLength).symm
  | binary _ s op lhs rhs =>
    simp only [check, Checked.bind_eq_ok_iff, Checked.pure_eq_ok_iff] at h
    obtain ⟨lhs', hLhs, rhs', hRhs, ty, -, rfl⟩ := h
    obtain ⟨hIdents₁, hKnown₁⟩ := idents_of_check lhs hLhs
    obtain ⟨hIdents₂, hKnown₂⟩ := idents_of_check rhs hRhs
    exact ⟨by rw [idents, idents, hIdents₁, hIdents₂], hKnown₁.append hKnown₂⟩
  | unary _ s op fixity operand =>
    simp only [check, Checked.bind_eq_ok_iff, Checked.pure_eq_ok_iff] at h
    obtain ⟨operand', hOperand, ty, -, rfl⟩ := h
    have hIdents := idents_of_check operand hOperand
    exact hIdents
  | index _ s base offset =>
    simp only [check, Checked.bind_eq_ok_iff, Checked.pure_eq_ok_iff] at h
    obtain ⟨base', hBase, ty, -, offset', hOffset, _, -, rfl⟩ := h
    obtain ⟨hIdents₁, hKnown₁⟩ := idents_of_check base hBase
    obtain ⟨hIdents₂, hKnown₂⟩ := idents_of_check offset hOffset
    exact ⟨by rw [idents, idents, hIdents₁, hIdents₂], hKnown₁.append hKnown₂⟩

theorem idents_of_checkArgs (es : List (Expr Unit)) {tys : List Ty} {es' : List (Expr Ty)}
    (h : checkArgs sigs scope es tys = .ok es') (hLength : es.length = tys.length) :
    identsAll es' = identsAll es ∧ Known scope (identsAll es') := by
  cases es with
  | nil => cases tys <;> cases h <;> exact ⟨rfl, by simp [Known, identsAll]⟩
  | cons e es =>
    cases tys with
    | nil => cases hLength
    | cons ty tys =>
      simp only [checkArgs, Checked.bind_eq_ok_iff, Checked.pure_eq_ok_iff] at h
      obtain ⟨e', hE, _, -, es', hEs, rfl⟩ := h
      obtain ⟨hIdents₁, hKnown₁⟩ := idents_of_check e hE
      obtain ⟨hIdents₂, hKnown₂⟩ := idents_of_checkArgs es hEs (Nat.succ.inj hLength)
      exact ⟨by rw [identsAll, identsAll, hIdents₁, hIdents₂], hKnown₁.append hKnown₂⟩

end

theorem idents_of_checkAs {target : Ty} {e : Expr Unit} {e' : Expr Ty}
    (h : e.checkAs sigs scope target = .ok e') : e'.idents = e.idents ∧ Known scope e'.idents :=
  idents_of_check e (checkAs_eq_ok_iff.mp h).1

theorem idents_of_checkCondition {e : Expr Unit} {e' : Expr Ty}
    (h : e.checkCondition sigs scope = .ok e') : e'.idents = e.idents ∧ Known scope e'.idents :=
  idents_of_check e (checkCondition_eq_ok_iff.mp h).1

theorem identsOption_of_checkOptionAs {target : Ty} {e? : Option (Expr Unit)}
    {e?' : Option (Expr Ty)} (h : checkOptionAs sigs scope target e? = .ok e?') :
    identsOption e?' = identsOption e? ∧ Known scope (identsOption e?') := by
  cases e? with
  | none =>
    cases h
    exact ⟨rfl, by simp [Known, identsOption]⟩
  | some e =>
    simp only [checkOptionAs, Checked.map_eq_ok_iff] at h
    obtain ⟨e', hE, rfl⟩ := h
    exact idents_of_checkAs hE

theorem identsOption_of_checkOptionCondition {e? : Option (Expr Unit)} {e?' : Option (Expr Ty)}
    (h : checkOptionCondition sigs scope e? = .ok e?') :
    identsOption e?' = identsOption e? ∧ Known scope (identsOption e?') := by
  cases e? with
  | none =>
    cases h
    exact ⟨rfl, by simp [Known, identsOption]⟩
  | some e =>
    simp only [checkOptionCondition, Checked.map_eq_ok_iff] at h
    obtain ⟨e', hE, rfl⟩ := h
    exact idents_of_checkCondition hE

end Expr

namespace Emit

variable {globals : Globals}

theorem optionExpr_finds (e? : Option (Expr Ty)) (s : Frame) :
    Finds globals s (Expr.identsOption e?) (optionExpr globals e? s) := by
  cases e? with
  | none => exact .pure
  | some e => exact e.emit_finds s

theorem condition_finds (e? : Option (Expr Ty)) (s : Frame) :
    Finds globals s (Expr.identsOption e?) (condition globals e? s) := by
  cases e? with
  | none => exact .pure
  | some e => exact e.emit_finds s

theorem assign_finds (x : Ident) (e : Expr Ty) (s : Frame) :
    Finds globals s (x :: e.idents) (assign globals x e s) := by
  refine Finds.bind (Finds.resolve x) fun p s₁ => ?_
  cases p with
  | slot n => exact (e.emit_finds s₁).map
  | cell address t => exact (e.emit_finds s₁).map

theorem effect_finds (e : Expr Ty) (s : Frame) :
    Finds globals s e.idents (effect globals e s) := by
  have hPlain : Finds globals s e.idents
      ((do return (← e.emit globals) ++ if e.info = .void then [] else [Instr.drop] : Emit Code) s) :=
    (e.emit_finds s).map
  cases e with
  | unary ty s₀ op fixity operand =>
    simp only [effect]
    split
    · exact step_finds op fixity false operand s
    · exact hPlain
  | _ => exact hPlain

end Emit

end MiniC
