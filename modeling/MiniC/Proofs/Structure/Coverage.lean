import MiniC.Proofs.Structure.Points

/-! # Where branches and failed jumps come from

Only jumps become branches, and only jumps fail for want of a loop: each branch in the code of a
function, and each such error, belongs to a jump that lowering reaches.
-/
namespace MiniC
set_option autoImplicit false

open Wasm (Code Instr)

theorem Action.bind_eq_error_iff {ε σ α β : Type} {x : EStateM ε σ α} {f : α → EStateM ε σ β}
    {s s'' : σ} {e : ε} :
    (x >>= f) s = .error e s'' ↔
      x s = .error e s'' ∨ ∃ a s', x s = .ok a s' ∧ f a s' = .error e s'' := by
  cases hRun : x s with
  | ok a s' =>
    rw [Action.bind_of_ok hRun]
    simp
  | error e' s' =>
    rw [Action.bind_of_error hRun]
    simp

/-- No run of the action fails because of a jump. -/
def NeverJumps {σ α : Type} (x : EStateM (Located CodeError) σ α) : Prop :=
  ∀ s e s', x s = .error e s' → ∀ j, e.value ≠ .outsideLoop j

namespace NeverJumps

variable {σ α β : Type}

theorem pure {a : α} : NeverJumps (Pure.pure a : EStateM (Located CodeError) σ α) := by
  intro s e s' h
  cases h

theorem throw {e : Located CodeError} (he : ∀ j, e.value ≠ .outsideLoop j) :
    NeverJumps (MonadExcept.throw e : EStateM (Located CodeError) σ α) := by
  intro s e' s' h
  cases h
  exact he

theorem modify {f : σ → σ} : NeverJumps (modify f : EStateM (Located CodeError) σ PUnit) := by
  intro s e s' h
  cases h

theorem bind {x : EStateM (Located CodeError) σ α} {f : α → EStateM (Located CodeError) σ β}
    (hx : NeverJumps x) (hf : ∀ a, NeverJumps (f a)) : NeverJumps (x >>= f) := by
  intro s e s' h
  obtain h | ⟨a, s₁, -, h⟩ := Action.bind_eq_error_iff.mp h
  · exact hx s e s' h
  · exact hf a s₁ e s' h

theorem map {x : EStateM (Located CodeError) σ α} {f : α → β} (hx : NeverJumps x) :
    NeverJumps (x >>= fun a => Pure.pure (f a)) :=
  hx.bind fun _ => pure

theorem alloc (len : Nat) (span : Span) : NeverJumps (Memory.alloc len span) := by
  intro m e m' h
  rw [Memory.alloc] at h
  split at h
  · cases h
  · cases h
    simp

theorem placeString (text : String) (span : Span) : NeverJumps (Memory.placeString text span) := by
  intro m e m' h
  rw [Memory.placeString, Memory.get_bind] at h
  cases hFound : List.lookup span.lo m.strings with
  | some address =>
    rw [hFound] at h
    cases h
  | none =>
    rw [hFound] at h
    exact ((alloc _ span).bind fun _ => modify.bind fun _ => modify.bind fun _ => pure) m e m' h

theorem reserveArray (ty : Ty) (span : Span) : NeverJumps (Memory.reserveArray ty span) := by
  rw [Memory.reserveArray]
  split
  · exact throw (by simp)
  · exact alloc _ _

theorem inMemory {x : Alloc α} (hx : NeverJumps x) : NeverJumps (Emit.inMemory x) := by
  intro s e s' h
  rw [Emit.inMemory] at h
  cases hRun : x s.memory with
  | ok a m =>
    rw [hRun] at h
    cases h
  | error e₁ m =>
    rw [hRun] at h
    cases h
    exact hx _ _ _ hRun

theorem resolve (globals : Globals) (x : Ident) : NeverJumps (Emit.resolve globals x) := by
  intro s e s' h
  rw [Emit.resolve_eq] at h
  cases hPlace : s.place? globals x.name with
  | some p =>
    rw [hPlace] at h
    cases h
  | none =>
    rw [hPlace] at h
    cases h
    simp

theorem newSlot (ty : Wasm.ValType) : NeverJumps (Emit.newSlot ty) := by
  intro s e s' h
  cases h

theorem declare (x : Ident) (ty : Ty) : NeverJumps (Emit.declare x ty) := by
  intro s e s' h
  cases h

end NeverJumps

namespace Emit

variable (globals : Globals)

theorem step_neverJumps (op : UnaryOp) (fixity : Fixity) (used : Bool) (operand : Expr Ty) :
    NeverJumps (step globals op fixity used operand) := by
  cases operand with
  | var ty s₀ x =>
    refine (NeverJumps.resolve globals x).bind fun p => ?_
    cases p with
    | slot n => exact .pure
    | cell address t =>
      simp only [stepCell]
      split
      · exact (NeverJumps.newSlot t).map
      · exact .pure
  | _ => exact .throw (by simp)

theorem unary_neverJumps (s₀ : Span) (op : UnaryOp) (fixity : Fixity) (operand : Expr Ty)
    {inner : Emit Code} (hInner : NeverJumps inner) :
    NeverJumps (unary globals s₀ op fixity operand inner) := by
  cases op with
  | increment => exact step_neverJumps globals .increment fixity true operand
  | decrement => exact step_neverJumps globals .decrement fixity true operand
  | not =>
    simp only [unary]
    split
    · exact hInner.map
    · exact .throw (by simp)
  | deref =>
    simp only [unary]
    split
    · exact .throw (by simp)
    · split
      · exact .throw (by simp)
      · split
        · exact hInner
        · exact hInner.map
  | negate =>
    simp only [unary]
    split
    · exact hInner.map
    · exact hInner.map

theorem elementAddress_neverJumps {base : Expr Ty} {b o : Emit Code} (hb : NeverJumps b)
    (ho : NeverJumps o) : NeverJumps (elementAddress base b o) := by
  rw [elementAddress]
  split
  · exact .throw (by simp)
  · exact hb.bind fun _ => ho.map

end Emit

namespace Expr

variable (globals : Globals)

mutual

theorem emit_neverJumps (e : Expr Ty) : NeverJumps (e.emit globals) := by
  cases e with
  | const ty s₀ value => exact .pure
  | string ty s₀ text => exact (NeverJumps.placeString text s₀).inMemory.map
  | var ty s₀ x =>
    refine (NeverJumps.resolve globals x).bind fun p => ?_
    cases p <;> exact .pure
  | call ty s₀ callee args => exact (emitAll_neverJumps args).map
  | binary ty s₀ op lhs rhs =>
    refine (emit_neverJumps lhs).bind fun _ => (emit_neverJumps rhs).bind fun _ => ?_
    simp only
    split
    · exact .pure
    · exact .throw (by simp)
  | unary ty s₀ op fixity operand =>
    exact Emit.unary_neverJumps globals s₀ op fixity operand (emit_neverJumps operand)
  | index ty s₀ base offset =>
    exact (Emit.elementAddress_neverJumps (emit_neverJumps base) (emit_neverJumps offset)).map

theorem emitAll_neverJumps (es : List (Expr Ty)) : NeverJumps (emitAll globals es) := by
  cases es with
  | nil => exact .pure
  | cons e es => exact (emit_neverJumps e).bind fun _ => (emitAll_neverJumps es).map

end

theorem condition_neverJumps (e? : Option (Expr Ty)) : NeverJumps (Emit.condition globals e?) := by
  cases e? with
  | none => exact .pure
  | some e => exact e.emit_neverJumps globals

end Expr

namespace Stmt

variable {globals : Globals}

/-- Whether the statement has no other statement in it and does not jump. -/
def isLeaf : Stmt Ty → Bool
  | ret .. | assign .. | declare .. | store .. | expr .. => true
  | branch .. | loop .. | forLoop .. | jump .. => false

theorem leaf_neverJumps {x : Stmt Ty} (hLeaf : x.isLeaf = true) (labels : List Label) :
    NeverJumps (x.emit globals labels) := by
  cases x with
  | ret s₀ value =>
    cases value with
    | none => exact NeverJumps.pure.map
    | some e => exact (e.emit_neverJumps globals).map
  | assign s₀ target value =>
    refine (NeverJumps.resolve globals target).bind fun p => ?_
    cases p <;> exact (value.emit_neverJumps globals).map
  | declare s₀ name ty init =>
    rw [emit]
    split
    · cases init with
      | some e => exact .throw (by simp)
      | none =>
        exact (NeverJumps.reserveArray ty s₀).inMemory.bind fun _ => (NeverJumps.declare name ty).map
    · refine (NeverJumps.declare name ty).bind fun n => ?_
      cases init with
      | none => exact .pure
      | some e => exact (e.emit_neverJumps globals).map
  | store s₀ base offset value =>
    exact (Emit.elementAddress_neverJumps (base.emit_neverJumps globals)
      (offset.emit_neverJumps globals)).bind fun _ => (value.emit_neverJumps globals).map
  | expr s₀ value =>
    have hPlain : NeverJumps (do
        return (← value.emit globals) ++ if value.info = .void then [] else [Instr.drop] : Emit Code) :=
      (value.emit_neverJumps globals).map
    rw [emit]
    cases value with
    | unary ty s₁ op fixity operand =>
      simp only [Emit.effect]
      split
      · exact Emit.step_neverJumps globals op fixity false operand
      · exact hPlain
    | _ => exact hPlain
  | _ => cases hLeaf

end Stmt

namespace Point

variable {globals : Globals} {p q : Point}

/-- From the point a jump is reached that has `k` instructions before it. -/
def JumpsAt (globals : Globals) (p : Point) (k : Nat) : Prop :=
  ∃ q s j rest, p.Reaches globals q ∧ q.rest = .jump s j :: rest ∧ q.before.length = k

/-- From the point a jump is reached that cannot be lowered. -/
def FailsAt (globals : Globals) (p : Point) (s₀ : Span) (j : Jump) (s : Frame) : Prop :=
  ∃ q rest, p.Reaches globals q ∧ q.rest = .jump s₀ j :: rest ∧
    (Stmt.jump s₀ j).emit globals q.labels q.frame = .error ⟨s₀, .outsideLoop j⟩ s

theorem Steps.jumpsAt (h : Steps globals p q) {k : Nat} (hq : q.JumpsAt globals k) :
    p.JumpsAt globals k := by
  obtain ⟨r, s, j, rest, hReaches, hJump⟩ := hq
  exact ⟨r, s, j, rest, .head h hReaches, hJump⟩

theorem Steps.failsAt (h : Steps globals p q) {s₀ : Span} {j : Jump} {s : Frame}
    (hq : q.FailsAt globals s₀ j s) : p.FailsAt globals s₀ j s := by
  obtain ⟨r, rest, hReaches, hJump⟩ := hq
  exact ⟨r, rest, .head h hReaches, hJump⟩

end Point

/-- Every branch in the code, which stands after `pre`, is at a position with the property. -/
def Branches (P : Nat → Prop) (pre code : Code) : Prop :=
  ∀ i d, code[i]? = some (.br d) → P (pre.length + i)

namespace Branches

variable {P : Nat → Prop} {pre a b c u : Code} {n : Nat} {wrapped : Bool}

theorem of_step {globals : Globals} {p q : Point} (hStep : p.Steps globals q)
    (h : Branches (q.JumpsAt globals) q.before a) : Branches (p.JumpsAt globals) q.before a :=
  fun i d hi => hStep.jumpsAt (h i d hi)

theorem of_not_mem (h : ∀ d, .br d ∉ a) : Branches P pre a :=
  fun _ d hi => absurd (List.mem_of_getElem? hi) (h d)

theorem of_straight (h : ∀ x ∈ a, x.Straight n) : Branches P pre a :=
  of_not_mem fun _ hMem => h _ hMem

theorem append (ha : Branches P pre a) (hb : Branches P (pre ++ a) b) :
    Branches P pre (a ++ b) := by
  intro i d hi
  rw [List.getElem?_append] at hi
  split at hi
  · exact ha i d hi
  · have hPlace := hb _ d hi
    have hSum : pre.length + a.length + (i - a.length) = pre.length + i := by omega
    rwa [List.length_append, hSum] at hPlace

theorem andThen (ha : Branches P pre a) (hb : ∀ d, .br d ∉ b) : Branches P pre (a ++ b) :=
  ha.append (of_not_mem hb)

theorem after (hb : ∀ d, .br d ∉ b) (ha : Branches P (pre ++ b) a) : Branches P pre (b ++ a) :=
  (of_not_mem hb).append ha

theorem guarded (hc : ∀ x ∈ c, x.Straight n) (h : Branches P (pre ++ c ++ [Instr.if_]) a) :
    Branches P pre (c ++ [Instr.if_] ++ a ++ [Instr.end_]) := by
  rw [List.append_assoc c]
  exact ((of_straight hc).append (.after (by simp) h)).andThen (by simp)

theorem branch {e : Code} {empty : Bool} (hc : ∀ x ∈ c, x.Straight n)
    (h : Branches P (pre ++ c ++ [Instr.if_]) a)
    (h' : empty = false → Branches P (pre ++ c ++ [Instr.if_] ++ a ++ [Instr.else_]) e) :
    Branches P pre
      (c ++ [Instr.if_] ++ a ++ (if empty then [] else [Instr.else_] ++ e) ++ [Instr.end_]) := by
  cases empty with
  | true => simpa using guarded hc h
  | false =>
    have hBoth : Branches P (pre ++ c ++ [Instr.if_]) (a ++ ([Instr.else_] ++ e)) :=
      h.append (.after (by simp) (h' rfl))
    simpa using guarded hc hBoth

theorem blockIf (h : Branches P (pre ++ if wrapped then [Instr.block] else []) a) :
    Branches P pre (Emit.blockIf wrapped a) := by
  cases wrapped with
  | false => simpa [Emit.blockIf] using h
  | true => exact (after (by simp) h).andThen (by simp)

theorem repeatLoop (hBody : Branches P (pre ++ loopHead wrapped) b)
    (hUpdate : Branches P (pre ++ [Instr.loop] ++ Emit.blockIf wrapped b) u)
    (hc : ∀ x ∈ c, x.Straight n) :
    Branches P pre ([Instr.loop] ++ Emit.blockIf wrapped b ++ u ++ c ++ [Instr.brIf 0, .end_]) := by
  have hLoop : Branches P (pre ++ [Instr.loop]) (Emit.blockIf wrapped b) := by
    apply blockIf
    rw [loopHead, ← List.append_assoc] at hBody
    exact hBody
  have hTail : Branches P (pre ++ [Instr.loop]) (Emit.blockIf wrapped b ++ u) := hLoop.append hUpdate
  exact ((after (by simp) hTail).append (of_straight hc)).andThen (by simp)

end Branches

namespace Stmt

variable {globals : Globals}

theorem leaf_branches {x : Stmt Ty} (hLeaf : x.isLeaf = true) {labels : List Label} {s s' : Frame}
    {c : Code} (hs : s.Sound) (h : x.emit globals labels s = .ok c s') {P : Nat → Prop}
    {pre : Code} : Branches P pre c := by
  obtain ⟨⟨arrays, hLowers⟩, -⟩ := emit_lowers hs h
  have hB : (Bindings.ofRun globals s s').Within s'.slots.length := Bindings.within_ofRun hs
  cases hLowers with
  | retNone => exact .of_not_mem (by simp)
  | retSome hE => exact (Branches.of_straight (hE.straight hB)).andThen (by simp)
  | assign hPlace hE => exact .of_straight (Place.write_straight hB hPlace (hE.straight hB))
  | array hArray hDeclared => exact .of_not_mem (by simp [pushAddress])
  | scalar hArray hDeclared => exact .of_not_mem (by simp)
  | scalarInit hArray hDeclared hE =>
    exact (Branches.of_straight (hE.straight hB)).andThen (by simp)
  | store hFloat hBase hOffset hValue =>
    exact ((Branches.of_straight (addressCode_straight _ (hBase.straight hB)
      (hOffset.straight hB))).append (.of_straight (hValue.straight hB))).andThen (by simp)
  | expr hE => exact .of_straight (hE.straight hB)
  | _ => cases hLeaf

mutual

theorem emit_branches (x : Stmt Ty) (xs : List (Stmt Ty)) {labels : List Label} {s s' : Frame}
    {c : Code} (before : Code) (loops : List Enclosing) (hs : s.Sound)
    (h : x.emit globals labels s = .ok c s') :
    Branches (Point.JumpsAt globals ⟨x :: xs, labels, s, before, loops⟩) before c := by
  cases x with
  | ret | assign | declare | store | expr => exact leaf_branches rfl hs h
  | branch s₀ cond thenBody elseBody =>
    obtain ⟨a, s₁, t, s₂, e, hCond, hThen, hElse, rfl⟩ := emit_branch_eq_ok h
    obtain ⟨hStraight, hs₁⟩ := Expr.emit_straight hs hCond
    obtain ⟨-, hs₂⟩ := emitAll_nested hs₁ hThen
    exact .branch hStraight (.of_step (.thenBody hCond) (emitAll_branches thenBody _ _ hs₁ hThen))
      fun hSome =>
        .of_step (.elseBody hCond hThen hSome) (emitAll_branches elseBody _ _ hs₂ hElse)
  | loop s₀ kind cond body =>
    cases kind with
    | whileDo =>
      obtain ⟨a, s₁, b, s₂, a', hCond, hBody, hCond', rfl⟩ := emit_whileDo_eq_ok h
      obtain ⟨hStraight, hs₁⟩ := Expr.emit_straight hs hCond
      obtain ⟨-, hs₂⟩ := emitAll_nested hs₁ hBody
      exact .guarded hStraight (.repeatLoop
        (.of_step (.whileBody hCond) (emitAll_branches body _ _ hs₁ hBody))
        (.of_not_mem (by simp)) (Expr.emit_straight hs₂ hCond').1)
    | doWhile =>
      obtain ⟨b, s₁, a, hBody, hCond, rfl⟩ := emit_doWhile_eq_ok h
      obtain ⟨-, hs₁⟩ := emitAll_nested hs hBody
      exact .blockIf (.repeatLoop (.of_step .doBody (emitAll_branches body _ _ hs hBody))
        (.of_not_mem (by simp)) (Expr.emit_straight hs₁ hCond).1)
  | forLoop s₀ init cond update body =>
    obtain ⟨i, s₁, a, s₂, b, s₃, u, s₄, a', hInit, hCond, hBody, hUpdate, hCond', rfl⟩ :=
      emit_forLoop_eq_ok h
    obtain ⟨-, hs₁⟩ := emitOption_nested hs hInit
    obtain ⟨hStraight, hs₂⟩ := Emit.condition_straight hs₁ hCond
    obtain ⟨-, hs₃⟩ := emitAll_nested hs₂ hBody
    obtain ⟨-, hs₄⟩ := emitOption_nested hs₃ hUpdate
    refine .append ?_ (.guarded hStraight (.repeatLoop
      (.of_step (.forBody hInit hCond) (emitAll_branches body _ _ hs₂ hBody)) ?_
      (Emit.condition_straight hs₄ hCond').1))
    · cases init with
      | none =>
        cases hInit
        exact .of_not_mem (by simp)
      | some x => exact .of_step .forInit (emit_branches x [] _ _ hs hInit)
    · cases update with
      | none =>
        cases hUpdate
        exact .of_not_mem (by simp)
      | some x =>
        exact .of_step (.forUpdate hInit hCond hBody) (emit_branches x [] _ _ hs₃ hUpdate)
  | jump s₀ j =>
    obtain ⟨depth, -, rfl, -⟩ := Emit.jump_eq_ok h
    intro i d hi
    cases i with
    | zero => exact ⟨_, s₀, j, xs, .refl, rfl, rfl⟩
    | succ i => cases hi

theorem emitAll_branches (xs : List (Stmt Ty)) {labels : List Label} {s s' : Frame} {c : Code}
    (before : Code) (loops : List Enclosing) (hs : s.Sound)
    (h : emitAll globals labels xs s = .ok c s') :
    Branches (Point.JumpsAt globals ⟨xs, labels, s, before, loops⟩) before c := by
  cases xs with
  | nil =>
    obtain ⟨rfl, rfl⟩ := Action.pure_eq_ok_iff.mp h
    exact .of_not_mem (by simp)
  | cons x xs =>
    obtain ⟨a, s₁, b, hX, hXs, rfl⟩ := emitAll_cons_eq_ok h
    obtain ⟨-, hs₁⟩ := emit_nested hs hX
    exact (emit_branches x xs before loops hs hX).append
      (.of_step (.next hX) (emitAll_branches xs _ _ hs₁ hXs))

end

mutual

theorem emit_fails (x : Stmt Ty) (xs : List (Stmt Ty)) {labels : List Label} {s s' : Frame}
    {s₀ : Span} {j : Jump} (before : Code) (loops : List Enclosing)
    (h : x.emit globals labels s = .error ⟨s₀, .outsideLoop j⟩ s') :
    Point.FailsAt globals ⟨x :: xs, labels, s, before, loops⟩ s₀ j s' := by
  cases x with
  | ret | assign | declare | store | expr => exact absurd rfl (leaf_neverJumps rfl labels _ _ _ h j)
  | branch s₁ cond thenBody elseBody =>
    obtain h | ⟨a, s₂, hCond, h⟩ := Action.bind_eq_error_iff.mp h
    · exact absurd rfl (cond.emit_neverJumps globals _ _ _ h j)
    · obtain h | ⟨t, s₃, hThen, h⟩ := Action.bind_eq_error_iff.mp h
      · exact (Point.Steps.thenBody hCond).failsAt (emitAll_fails thenBody _ _ h)
      · obtain h | ⟨e, s₄, -, h⟩ := Action.bind_eq_error_iff.mp h
        · cases hEmpty : elseBody.isEmpty with
          | true =>
            rw [List.isEmpty_iff.mp hEmpty] at h
            cases h
          | false =>
            exact (Point.Steps.elseBody hCond hThen hEmpty).failsAt (emitAll_fails elseBody _ _ h)
        · cases h
  | loop s₁ kind cond body =>
    cases kind with
    | whileDo =>
      simp only [emit, Emit.guarded, Emit.repeatLoop, bind_assoc, pure_bind] at h
      obtain h | ⟨a, s₂, hCond, h⟩ := Action.bind_eq_error_iff.mp h
      · exact absurd rfl (cond.emit_neverJumps globals _ _ _ h j)
      · obtain h | ⟨b, s₃, hBody, h⟩ := Action.bind_eq_error_iff.mp h
        · exact (Point.Steps.whileBody hCond).failsAt (emitAll_fails body _ _ h)
        · exact absurd rfl ((cond.emit_neverJumps globals).map _ _ _ h j)
    | doWhile =>
      simp only [emit, Emit.repeatLoop, bind_assoc, pure_bind] at h
      obtain h | ⟨b, s₃, hBody, h⟩ := Action.bind_eq_error_iff.mp h
      · exact Point.Steps.doBody.failsAt (emitAll_fails body _ _ h)
      · exact absurd rfl ((cond.emit_neverJumps globals).map _ _ _ h j)
  | forLoop s₁ init cond update body =>
    simp only [emit, Emit.guarded, Emit.repeatLoop, bind_assoc, pure_bind] at h
    obtain h | ⟨i, s₂, hInit, h⟩ := Action.bind_eq_error_iff.mp h
    · cases init with
      | none => cases h
      | some x => exact Point.Steps.forInit.failsAt (emit_fails x [] _ _ h)
    · obtain h | ⟨a, s₃, hCond, h⟩ := Action.bind_eq_error_iff.mp h
      · exact absurd rfl (Expr.condition_neverJumps globals cond _ _ _ h j)
      · obtain h | ⟨b, s₄, hBody, h⟩ := Action.bind_eq_error_iff.mp h
        · exact (Point.Steps.forBody hInit hCond).failsAt (emitAll_fails body _ _ h)
        · obtain h | ⟨u, s₅, -, h⟩ := Action.bind_eq_error_iff.mp h
          · cases update with
            | none => cases h
            | some x =>
              exact (Point.Steps.forUpdate hInit hCond hBody).failsAt (emit_fails x [] _ _ h)
          · exact absurd rfl ((Expr.condition_neverJumps globals cond).map _ _ _ h j)
  | jump s₁ k =>
    have hSame : s₁ = s₀ ∧ k = j := by
      rw [emit, Emit.jump] at h
      cases hDepth : labels.findIdx? fun l => decide (l = some k) with
      | some depth =>
        rw [hDepth] at h
        cases h
      | none =>
        rw [hDepth] at h
        cases h
        exact ⟨rfl, rfl⟩
    obtain ⟨rfl, rfl⟩ := hSame
    exact ⟨_, xs, .refl, rfl, h⟩

theorem emitAll_fails (xs : List (Stmt Ty)) {labels : List Label} {s s' : Frame} {s₀ : Span}
    {j : Jump} (before : Code) (loops : List Enclosing)
    (h : emitAll globals labels xs s = .error ⟨s₀, .outsideLoop j⟩ s') :
    Point.FailsAt globals ⟨xs, labels, s, before, loops⟩ s₀ j s' := by
  cases xs with
  | nil => cases h
  | cons x xs =>
    obtain h | ⟨a, s₁, hX, h⟩ := Action.bind_eq_error_iff.mp h
    · exact emit_fails x xs before loops h
    · obtain h | ⟨b, s₂, -, h⟩ := Action.bind_eq_error_iff.mp h
      · exact (Point.Steps.next hX).failsAt (emitAll_fails xs _ _ h)
      · cases h

end

end Stmt

end MiniC
