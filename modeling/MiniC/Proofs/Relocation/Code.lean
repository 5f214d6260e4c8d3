import MiniC.Proofs.Layout
import MiniC.Proofs.Relocation.Check

/-! # The module of a moved program

Code generation uses a span for two things: to place an error, and to find the address of a string
literal by the offset at which it starts.  So a program may be moved without any effect on its
module, if offsets that were different stay different.
-/
namespace MiniC
set_option autoImplicit false

open Wasm (Code)

/-- A way to move spans that keeps the `known` offsets apart. -/
structure Relocation where
  move : Span → Span
  offset : Nat → Nat
  known : Nat → Prop
  lo_move : ∀ s, (move s).lo = offset s.lo
  offset_inj : ∀ {a b}, known a → known b → offset a = offset b → a = b

/-- The same memory, with other offsets for the string literals. -/
def Memory.mapOffsets (f : Nat → Nat) (m : Memory) : Memory :=
  { m with strings := m.strings.map (Prod.map f id) }

namespace Relocation

variable {α β σ : Type} (R : Relocation)

/-- The spans start at known offsets. -/
def Knows (spans : List Span) : Prop := ∀ s ∈ spans, R.known s.lo

/-- The two actions do the same, one of them with everything moved: the state by `f`.  `inv` is kept
by the other. -/
def Moves (f : σ → σ) (inv : σ → Prop) (x x' : EStateM (Located CodeError) σ α) : Prop :=
  ∀ s, inv s →
    match x s with
    | .ok a s' => inv s' ∧ x' (f s) = .ok a (f s')
    | .error e s' => x' (f s) = .error (e.mapSpan R.move) (f s')

theorem moves_iff_tracks {f : σ → σ} {inv : σ → Prop} {x x' : EStateM (Located CodeError) σ α} :
    R.Moves f inv x x' ↔ Tracks (Located.mapSpan R.move) f inv x x' := by
  refine forall_congr' fun s => imp_congr_right fun _ => ?_
  cases x s <;> rfl

namespace Moves

variable {R} {f : σ → σ} {inv : σ → Prop}

theorem pure {a : α} : R.Moves f inv (Pure.pure a) (Pure.pure a) := fun _ h => ⟨h, rfl⟩

theorem throw {s : Span} {e : CodeError} :
    R.Moves f inv (MonadExcept.throw ⟨s, e⟩ : EStateM _ σ α) (MonadExcept.throw ⟨R.move s, e⟩) :=
  fun _ _ => rfl

theorem bind {x x' : EStateM (Located CodeError) σ α}
    {k k' : α → EStateM (Located CodeError) σ β} (hx : R.Moves f inv x x')
    (hk : ∀ a, R.Moves f inv (k a) (k' a)) : R.Moves f inv (x >>= k) (x' >>= k') :=
  R.moves_iff_tracks.mpr
    ((R.moves_iff_tracks.mp hx).bind fun a => R.moves_iff_tracks.mp (hk a))

theorem map {x x' : EStateM (Located CodeError) σ α} {g : α → β} (hx : R.Moves f inv x x') :
    R.Moves f inv (x >>= fun a => Pure.pure (g a)) (x' >>= fun a => Pure.pure (g a)) :=
  hx.bind fun _ => pure

theorem ite {c : Prop} [Decidable c] {x x' y y' : EStateM (Located CodeError) σ α}
    (hx : R.Moves f inv x x') (hy : R.Moves f inv y y') :
    R.Moves f inv (if c then x else y) (if c then x' else y') :=
  R.moves_iff_tracks.mpr (.ite (R.moves_iff_tracks.mp hx) (R.moves_iff_tracks.mp hy))

theorem modify {g : σ → σ} (hInv : ∀ s, inv s → inv (g s)) (hf : ∀ s, f (g s) = g (f s)) :
    R.Moves f inv (modify g) (modify g) :=
  R.moves_iff_tracks.mpr (.modify hInv hf)

end Moves

/-- The string literals of the memory start at known offsets. -/
def KnowsMemory (m : Memory) : Prop := ∀ p ∈ m.strings, R.known p.1

def moveMemory (m : Memory) : Memory := m.mapOffsets R.offset

def moveFrame (s : Frame) : Frame := { s with memory := R.moveMemory s.memory }

def moveBuilder (b : Builder) : Builder := { b with memory := R.moveMemory b.memory }

abbrev MovesAlloc (x x' : Alloc α) : Prop := R.Moves R.moveMemory R.KnowsMemory x x'

abbrev MovesEmit (x x' : Emit α) : Prop :=
  R.Moves R.moveFrame (fun s => R.KnowsMemory s.memory) x x'

variable {R}

theorem lookup_offset {strings : List (Nat × Nat)} (h : ∀ p ∈ strings, R.known p.1) {lo : Nat}
    (hLo : R.known lo) :
    List.lookup (R.offset lo) (strings.map (Prod.map R.offset id)) = List.lookup lo strings :=
  Table.lookup_map_fst fun p hp hEq => R.offset_inj hLo (h p hp) hEq

theorem alloc_moves (len : Nat) (s : Span) :
    R.MovesAlloc (Memory.alloc len s) (Memory.alloc len (R.move s)) := by
  intro m hm
  by_cases hFits : m.cursor + len ≤ Wasm.pageSize
  · simp only [Memory.alloc, if_pos hFits]
    exact ⟨hm, if_pos hFits⟩
  · simp only [Memory.alloc, if_neg hFits]
    exact if_neg hFits

theorem fill_moves (address : Nat) (bytes : List UInt8) :
    R.MovesAlloc (Memory.fill address bytes) (Memory.fill address bytes) :=
  .modify (fun _ h => h) fun _ => rfl

theorem remember_moves {lo : Nat} (hLo : R.known lo) (address : Nat) :
    R.MovesAlloc (modify fun m => { m with strings := (lo, address) :: m.strings })
      (modify fun m => { m with strings := (R.offset lo, address) :: m.strings }) :=
  fun _ hm => ⟨List.forall_mem_cons.mpr ⟨hLo, hm⟩, rfl⟩

theorem placeString_moves (text : String) {s : Span} (h : R.known s.lo) :
    R.MovesAlloc (Memory.placeString text s) (Memory.placeString text (R.move s)) := by
  intro m hm
  have hLookup :
      List.lookup (R.move s).lo (R.moveMemory m).strings = List.lookup s.lo m.strings := by
    rw [R.lo_move]
    exact lookup_offset hm h
  simp only [Memory.placeString, Memory.get_bind, hLookup]
  cases List.lookup s.lo m.strings with
  | some address => exact ⟨hm, rfl⟩
  | none =>
    rw [R.lo_move]
    exact ((alloc_moves _ s).bind fun a => (fill_moves a _).bind fun _ =>
      (remember_moves h a).bind fun _ => .pure) m hm

theorem reserveArray_moves (ty : Ty) (s : Span) :
    R.MovesAlloc (Memory.reserveArray ty s) (Memory.reserveArray ty (R.move s)) :=
  .ite .throw (alloc_moves _ s)

theorem inMemory_moves {x x' : Alloc α} (h : R.MovesAlloc x x') :
    R.MovesEmit (Emit.inMemory x) (Emit.inMemory x') := by
  intro s hs
  have hRun := h s.memory hs
  simp only [Emit.inMemory, moveFrame]
  cases hx : x s.memory with
  | ok a m =>
    rw [hx] at hRun
    exact ⟨hRun.1, by rw [hRun.2]⟩
  | error e m =>
    rw [hx] at hRun
    rw [hRun]

theorem newSlot_moves (ty : Wasm.ValType) : R.MovesEmit (Emit.newSlot ty) (Emit.newSlot ty) :=
  fun _ hs => ⟨hs, rfl⟩

theorem declare_moves (x : Ident) (ty : Ty) :
    R.MovesEmit (Emit.declare x ty) (Emit.declare (x.mapSpan R.move) ty) :=
  fun _ hs => ⟨hs, rfl⟩

theorem resolve_moves (globals : Globals) (x : Ident) :
    R.MovesEmit (Emit.resolve globals x) (Emit.resolve globals (x.mapSpan R.move)) := by
  intro s hs
  have hPlace : (R.moveFrame s).place? globals (x.mapSpan R.move).name =
    s.place? globals x.name := rfl
  simp only [Emit.resolve_eq, hPlace]
  cases s.place? globals x.name with
  | some p => exact ⟨hs, rfl⟩
  | none => rfl

variable (globals : Globals)

theorem stepCell_moves (address : Nat) (ty : Wasm.ValType) (change : Code) (fixity : Fixity)
    (used : Bool) : R.MovesEmit (Emit.stepCell address ty change fixity used)
      (Emit.stepCell address ty change fixity used) :=
  .ite (newSlot_moves ty).map .pure

theorem step_moves (op : UnaryOp) (fixity : Fixity) (used : Bool) (e : Expr Ty) :
    R.MovesEmit (Emit.step globals op fixity used e)
      (Emit.step globals op fixity used (e.mapSpan R.move)) := by
  cases e with
  | var ty s x =>
    refine (resolve_moves globals x).bind fun p => ?_
    cases p with
    | slot n => exact .pure
    | cell address t => exact stepCell_moves _ _ _ _ _
  | _ => exact .throw

theorem unary_moves (s : Span) (op : UnaryOp) (fixity : Fixity) (operand : Expr Ty)
    {inner inner' : Emit Code} (h : R.MovesEmit inner inner') :
    R.MovesEmit (Emit.unary globals s op fixity operand inner)
      (Emit.unary globals (R.move s) op fixity (operand.mapSpan R.move) inner') := by
  cases op with
  | increment => exact step_moves globals .increment fixity true operand
  | decrement => exact step_moves globals .decrement fixity true operand
  | not =>
    simp only [Emit.unary, Expr.info_mapSpan]
    exact .ite h.map .throw
  | deref =>
    simp only [Emit.unary, Expr.info_mapSpan]
    split
    · exact .throw
    · exact .ite .throw (.ite h h.map)
  | negate =>
    simp only [Emit.unary, Expr.info_mapSpan]
    split
    · exact h.map
    · exact h.map

theorem elementAddress_moves (base : Expr Ty) {b b' o o' : Emit Code} (hb : R.MovesEmit b b')
    (ho : R.MovesEmit o o') :
    R.MovesEmit (Emit.elementAddress base b o)
      (Emit.elementAddress (base.mapSpan R.move) b' o') := by
  simp only [Emit.elementAddress, Expr.info_mapSpan, Expr.span_mapSpan]
  exact .ite .throw (hb.bind fun _ => ho.map)

end Relocation

open Relocation

variable {R : Relocation} {globals : Globals}

namespace Expr

mutual

theorem emit_moves : (e : Expr Ty) → R.Knows e.spans →
    R.MovesEmit (e.emit globals) ((e.mapSpan R.move).emit globals)
  | const .., _ => .pure
  | string _ s text, h => (inMemory_moves (placeString_moves text (h s List.mem_cons_self))).map
  | var _ _ x, _ => by
    refine (resolve_moves globals x).bind fun p => ?_
    cases p <;> exact .pure
  | call _ _ _ args, h => by
    simp only [Relocation.Knows, spans, List.forall_mem_cons] at h
    exact (emitAll_moves args h.2.2).map
  | binary _ s op lhs rhs, h => by
    simp only [Relocation.Knows, spans, List.forall_mem_cons, List.forall_mem_append] at h
    refine (lhs.emit_moves h.2.1).bind fun _ => (rhs.emit_moves h.2.2).bind fun _ => ?_
    simp only [info_mapSpan]
    split
    · exact .pure
    · exact .throw
  | unary _ s op fixity operand, h => by
    simp only [Relocation.Knows, spans, List.forall_mem_cons] at h
    exact unary_moves globals s op fixity operand (operand.emit_moves h.2)
  | index _ _ base offset, h => by
    simp only [Relocation.Knows, spans, List.forall_mem_cons, List.forall_mem_append] at h
    exact (elementAddress_moves base (base.emit_moves h.2.1) (offset.emit_moves h.2.2)).map

theorem emitAll_moves : (es : List (Expr Ty)) → R.Knows (spansAll es) →
    R.MovesEmit (emitAll globals es) (emitAll globals (mapSpanAll R.move es))
  | [], _ => .pure
  | e :: es, h => by
    simp only [Relocation.Knows, spansAll, List.forall_mem_append] at h
    exact (e.emit_moves h.1).bind fun _ => (emitAll_moves es h.2).map

end

theorem optionExpr_moves (e? : Option (Expr Ty)) (h : R.Knows (optionSpans e?)) :
    R.MovesEmit (Emit.optionExpr globals e?)
      (Emit.optionExpr globals (e?.map (mapSpan R.move))) := by
  cases e? with
  | none => exact .pure
  | some e => exact e.emit_moves h

theorem condition_moves (e? : Option (Expr Ty)) (h : R.Knows (optionSpans e?)) :
    R.MovesEmit (Emit.condition globals e?) (Emit.condition globals (e?.map (mapSpan R.move))) := by
  cases e? with
  | none => exact .pure
  | some e => exact e.emit_moves h

end Expr

namespace Emit

theorem assign_moves (x : Ident) (value : Expr Ty) (h : R.Knows value.spans) :
    R.MovesEmit (assign globals x value)
      (assign globals (x.mapSpan R.move) (value.mapSpan R.move)) := by
  refine (resolve_moves globals x).bind fun p => ?_
  cases p <;> exact (value.emit_moves h).map

theorem declareArray_moves (s : Span) (x : Ident) (ty : Ty) (init : Option (Expr Ty)) :
    R.MovesEmit (declareArray s x ty init)
      (declareArray (R.move s) (x.mapSpan R.move) ty (init.map (Expr.mapSpan R.move))) := by
  cases init with
  | some e =>
    simp only [Option.map_some, declareArray, Expr.span_mapSpan]
    exact .throw
  | none =>
    exact (inMemory_moves (reserveArray_moves ty s)).bind fun _ => (declare_moves x ty).map

theorem declareScalar_moves (x : Ident) (ty : Ty) (init : Option (Expr Ty))
    (h : R.Knows (Expr.optionSpans init)) :
    R.MovesEmit (declareScalar globals x ty init)
      (declareScalar globals (x.mapSpan R.move) ty (init.map (Expr.mapSpan R.move))) := by
  refine (declare_moves x ty).bind fun n => ?_
  cases init with
  | none => exact .pure
  | some e => exact (e.emit_moves h).map

theorem effect_moves (e : Expr Ty) (h : R.Knows e.spans) :
    R.MovesEmit (effect globals e) (effect globals (e.mapSpan R.move)) := by
  have hPlain : R.MovesEmit
      (do return (← e.emit globals) ++ if e.info = .void then [] else [Wasm.Instr.drop])
      (do return (← (e.mapSpan R.move).emit globals) ++
        if (e.mapSpan R.move).info = .void then [] else [Wasm.Instr.drop]) := by
    rw [Expr.info_mapSpan]
    exact (e.emit_moves h).map
  cases e with
  | unary _ _ op fixity operand =>
    exact .ite (step_moves globals op fixity false operand) hPlain
  | _ => exact hPlain

theorem jump_moves (labels : List Label) (s : Span) (j : Jump) :
    R.MovesEmit (jump labels s j) (jump labels (R.move s) j) := by
  rw [jump, jump]
  split
  · exact .pure
  · exact .throw

theorem repeatLoop_moves (wrapped : Bool) {body body' update update' cond cond' : Emit Code}
    (hBody : R.MovesEmit body body') (hUpdate : R.MovesEmit update update')
    (hCond : R.MovesEmit cond cond') :
    R.MovesEmit (repeatLoop wrapped body update cond) (repeatLoop wrapped body' update' cond') :=
  hBody.bind fun _ => hUpdate.bind fun _ => hCond.map

theorem guarded_moves {cond cond' inner inner' : Emit Code} (hCond : R.MovesEmit cond cond')
    (hInner : R.MovesEmit inner inner') :
    R.MovesEmit (guarded cond inner) (guarded cond' inner') :=
  hCond.bind fun _ => hInner.map

end Emit

namespace Stmt

mutual

theorem emit_moves (labels : List Label) : (x : Stmt Ty) → R.Knows x.spans →
    R.MovesEmit (x.emit globals labels) ((x.mapSpan R.move).emit globals labels)
  | ret _ value, h => by
    simp only [Relocation.Knows, spans, List.forall_mem_cons] at h
    exact (Expr.optionExpr_moves value h.2).map
  | assign _ target value, h => by
    simp only [Relocation.Knows, spans, List.forall_mem_cons] at h
    exact Emit.assign_moves target value h.2.2
  | declare s name ty init, h => by
    simp only [Relocation.Knows, spans, List.forall_mem_cons] at h
    exact .ite (Emit.declareArray_moves s name ty init)
      (Emit.declareScalar_moves name ty init h.2.2)
  | store _ base offset value, h => by
    simp only [Relocation.Knows, spans, List.forall_mem_cons, List.forall_mem_append] at h
    exact (elementAddress_moves base (base.emit_moves h.2.1.1) (offset.emit_moves h.2.1.2)).bind
      fun _ => (value.emit_moves h.2.2).map
  | branch _ cond thenBody elseBody, h => by
    simp only [Relocation.Knows, spans, List.forall_mem_cons, List.forall_mem_append] at h
    simp only [mapSpan, emit, isEmpty_mapSpanAll]
    exact (cond.emit_moves h.2.1.1).bind fun _ => (emitAll_moves _ thenBody h.2.1.2).bind fun _ =>
      (emitAll_moves _ elseBody h.2.2).map
  | loop _ .whileDo cond body, h => by
    simp only [Relocation.Knows, spans, List.forall_mem_cons, List.forall_mem_append] at h
    have hCond : R.MovesEmit (cond.emit globals) ((cond.mapSpan R.move).emit globals) :=
      cond.emit_moves h.2.1
    simp only [mapSpan, emit, jumpsAny_mapSpanAll]
    exact Emit.guarded_moves hCond
      (Emit.repeatLoop_moves _ (emitAll_moves _ body h.2.2) .pure hCond)
  | loop _ .doWhile cond body, h => by
    simp only [Relocation.Knows, spans, List.forall_mem_cons, List.forall_mem_append] at h
    simp only [mapSpan, emit, jumpsAny_mapSpanAll]
    exact (Emit.repeatLoop_moves _ (emitAll_moves _ body h.2.2) .pure (cond.emit_moves h.2.1)).map
  | forLoop _ init cond update body, h => by
    simp only [Relocation.Knows, spans, List.forall_mem_cons, List.forall_mem_append] at h
    have hCond : R.MovesEmit (Emit.condition globals cond) _ := Expr.condition_moves cond h.2.1.1.2
    simp only [mapSpan, emit, jumpsAny_mapSpanAll]
    exact (emitOption_moves labels init h.2.1.1.1).bind fun _ =>
      (Emit.guarded_moves hCond (Emit.repeatLoop_moves _ (emitAll_moves _ body h.2.2)
        (emitOption_moves _ update h.2.1.2) hCond)).map
  | jump s j, _ => Emit.jump_moves labels s j
  | expr _ value, h => by
    simp only [Relocation.Knows, spans, List.forall_mem_cons] at h
    exact Emit.effect_moves value h.2

theorem emitAll_moves (labels : List Label) : (xs : List (Stmt Ty)) → R.Knows (spansAll xs) →
    R.MovesEmit (emitAll globals labels xs) (emitAll globals labels (mapSpanAll R.move xs))
  | [], _ => .pure
  | x :: xs, h => by
    simp only [Relocation.Knows, spansAll, List.forall_mem_append] at h
    exact (x.emit_moves labels h.1).bind fun _ => (emitAll_moves labels xs h.2).map

theorem emitOption_moves (labels : List Label) : (x : Option (Stmt Ty)) →
    R.Knows (optionSpans x) →
    R.MovesEmit (emitOption globals labels x) (emitOption globals labels (mapSpanOption R.move x))
  | none, _ => .pure
  | some x, h => x.emit_moves labels h

end

end Stmt

theorem Function.close_moves (f : Function Ty) (code : Code) :
    R.MovesEmit (f.close code) ((f.mapSpan R.move).close code) := by
  have hLast : ((f.mapSpan R.move).body.getLast?.map Stmt.isReturn).getD false =
      (f.body.getLast?.map Stmt.isReturn).getD false := by
    simp only [Function.mapSpan, Stmt.mapSpanAll_eq_map, List.getLast?_map, Option.map_map]
    congr 2
    funext x
    exact Stmt.isReturn_mapSpan R.move x
  simp only [Function.close, hLast]
  exact .ite .pure (.ite .throw (.ite .pure .pure))

theorem Function.declareParams_moves (params : List Param) :
    R.MovesEmit (params.forM fun p => discard (Emit.declare p.name p.ty))
      ((params.map (Param.mapSpan R.move)).forM fun p => discard (Emit.declare p.name p.ty)) := by
  induction params with
  | nil => exact .pure
  | cons p params ih => exact (declare_moves p.name p.ty).map.bind fun _ => ih

theorem Function.emit_moves (f : Function Ty) (h : R.Knows (Stmt.spansAll f.body)) :
    R.MovesEmit (f.emit globals) ((f.mapSpan R.move).emit globals) := by
  have hLength : (f.params.map (Param.mapSpan R.move)).length = f.params.length := List.length_map _
  refine (Function.declareParams_moves f.params).bind fun _ =>
    (Stmt.emitAll_moves [] f.body h).bind fun code => (f.close_moves code).bind fun body => ?_
  simp only [Function.mapSpan, hLength]
  exact fun s hs => ⟨hs, rfl⟩

theorem initialWord_moves (x : Ident) (e : Expr Ty) (h : R.Knows e.spans) :
    R.MovesAlloc (initialWord x e) (initialWord (x.mapSpan R.move) (e.mapSpan R.move)) := by
  cases e with
  | const => exact .pure
  | string _ s text => exact (placeString_moves text (h s List.mem_cons_self)).map
  | unary _ _ op _ operand =>
    cases op <;> cases operand <;> first | exact .throw | exact .pure
  | _ => exact .throw

theorem Global.cellWord?_moves (g : Global Ty) (h : R.Knows (Expr.optionSpans g.init)) :
    R.MovesAlloc g.cellWord? (g.mapSpan R.move).cellWord? := by
  obtain ⟨name, ty, init⟩ := g
  refine .ite ?_ ?_
  · cases init with
    | none => exact (reserveArray_moves ty name.span).map
    | some e =>
      simp only [Global.mapSpan, Option.map_some, Expr.span_mapSpan]
      exact .throw
  · cases init with
    | none => exact .pure
    | some e => exact (initialWord_moves name e h).map

theorem Global.place_moves (g : Global Ty) (h : R.Knows (Expr.optionSpans g.init)) :
    R.MovesAlloc g.place (g.mapSpan R.move).place := by
  refine (alloc_moves 4 g.name.span).bind fun cell => (g.cellWord?_moves h).bind fun w => ?_
  cases w with
  | none => exact .pure
  | some w => exact (fill_moves cell (wordBytes w)).map

theorem Builder.addItem_moves (item : Item Ty) (h : R.Knows item.spans) :
    R.Moves R.moveBuilder (fun b => R.KnowsMemory b.memory) (addItem item)
      (addItem (item.mapSpan R.move)) := by
  intro b hb
  cases item with
  | global g =>
    have hRun := g.place_moves (List.forall_mem_cons.mp h).2 b.memory hb
    simp only [addItem, Item.mapSpan, addGlobal, moveBuilder]
    cases hPlace : g.place b.memory with
    | ok cell m =>
      rw [hPlace] at hRun
      exact ⟨hRun.1, by rw [hRun.2]; rfl⟩
    | error e m =>
      rw [hPlace] at hRun
      rw [hRun]
  | function f =>
    have hBody : R.Knows (Stmt.spansAll f.body) := by
      simp only [Relocation.Knows, Item.spans, List.forall_mem_cons, List.forall_mem_append] at h
      exact h.2.2
    have hMoves : R.MovesEmit (f.emit b.globals) _ := f.emit_moves hBody
    have hRun := hMoves ⟨b.memory, [], []⟩ hb
    simp only [addItem, Item.mapSpan, addFunction, moveBuilder]
    cases hEmit : f.emit b.globals ⟨b.memory, [], []⟩ with
    | ok fn s =>
      rw [hEmit] at hRun
      obtain ⟨hKnows, hMoved⟩ := hRun
      refine ⟨hKnows, ?_⟩
      simp only [moveFrame] at hMoved
      rw [hMoved]
    | error e s =>
      rw [hEmit] at hRun
      simp only [moveFrame] at hRun
      rw [hRun]

theorem Builder.addItems_moves (items : List (Item Ty)) (h : ∀ item ∈ items, R.Knows item.spans) :
    R.Moves R.moveBuilder (fun b => R.KnowsMemory b.memory) (items.forM addItem)
      ((items.map (Item.mapSpan R.move)).forM addItem) := by
  induction items with
  | nil => exact .pure
  | cons item items ih =>
    obtain ⟨hItem, hItems⟩ := List.forall_mem_cons.mp h
    exact (addItem_moves item hItem).bind fun _ => ih hItems

theorem Program.emit_mapSpan (p : Program Ty) (h : R.Knows p.spans) :
    (p.mapSpan R.move).emit = relocate R.move id p.emit := by
  have hItems : ∀ item ∈ p.items, R.Knows item.spans := fun item hItem s hs =>
    h s (List.mem_flatMap.mpr ⟨item, hItem, hs⟩)
  have hRun := Builder.addItems_moves p.items hItems .empty (by intro p hp; cases hp)
  have hEmpty : R.moveBuilder .empty = .empty := rfl
  rw [hEmpty] at hRun
  simp only [Program.emit, Program.mapSpan]
  cases hAdd : p.items.forM Builder.addItem .empty with
  | ok _ b =>
    rw [hAdd] at hRun
    rw [hRun.2]
    rfl
  | error e b =>
    rw [hAdd] at hRun
    rw [hRun]
    rfl

end MiniC
