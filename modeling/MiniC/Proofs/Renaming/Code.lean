import MiniC.Proofs.Layout
import MiniC.Proofs.Renaming.Check

/-! # The module of a renamed program

The code of a function keeps the names of variables in its frame and the names of globals beside
it, and only looks them up there.  So an injective renaming of the variables has no effect on slots,
addresses and instructions, and the module is the same.
-/
namespace MiniC
set_option autoImplicit false

open Wasm (Code)

variable {α : Type}

/-- Renames the variable that an error is about, if there is one. -/
def CodeError.rename (r : String → String) : CodeError → CodeError
  | unresolved x => unresolved (r x)
  | nonConstantGlobal x => nonConstantGlobal (r x)
  | e => e

def Globals.rename (r : String → String) (globals : Globals) : Globals :=
  globals.map (Prod.map r id)

def Frame.rename (r : String → String) (s : Frame) : Frame :=
  { s with names := s.names.map (Prod.map r id) }

def Builder.rename (r : String → String) (b : Builder) : Builder :=
  { b with globals := b.globals.rename r }

section

variable (r : String → String)

/-- No names are kept in memory. -/
abbrev RenamesAlloc (x x' : Alloc α) : Prop :=
  Tracks (Located.map (CodeError.rename r)) id (fun _ => True) x x'

abbrev RenamesEmit (x x' : Emit α) : Prop :=
  Tracks (Located.map (CodeError.rename r)) (Frame.rename r) (fun _ => True) x x'

abbrev RenamesBuild (x x' : EStateM (Located CodeError) Builder α) : Prop :=
  Tracks (Located.map (CodeError.rename r)) (Builder.rename r) (fun _ => True) x x'

theorem alloc_renames (len : Nat) (s : Span) :
    RenamesAlloc r (Memory.alloc len s) (Memory.alloc len s) := by
  intro m _
  by_cases hFits : m.cursor + len ≤ Wasm.pageSize
  · simp only [Memory.alloc, if_pos hFits]
    exact ⟨trivial, if_pos hFits⟩
  · simp only [Memory.alloc, if_neg hFits]
    exact if_neg hFits

theorem modify_renames (f : Memory → Memory) : RenamesAlloc r (modify f) (modify f) :=
  .modify (fun _ h => h) fun _ => rfl

theorem placeString_renames (text : String) (s : Span) :
    RenamesAlloc r (Memory.placeString text s) (Memory.placeString text s) := by
  intro m _
  simp only [Memory.placeString, Memory.get_bind, id]
  cases List.lookup s.lo m.strings with
  | some address => exact ⟨trivial, rfl⟩
  | none =>
    exact ((alloc_renames r _ s).bind fun _ => (modify_renames r _).bind fun _ =>
      (modify_renames r _).bind fun _ => .pure) m trivial

theorem reserveArray_renames (ty : Ty) (s : Span) :
    RenamesAlloc r (Memory.reserveArray ty s) (Memory.reserveArray ty s) :=
  .ite (.throw rfl) (alloc_renames r _ s)

theorem inMemory_renames {x x' : Alloc α} (h : RenamesAlloc r x x') :
    RenamesEmit r (Emit.inMemory x) (Emit.inMemory x') := by
  intro s _
  have hRun := h s.memory trivial
  simp only [Emit.inMemory, Frame.rename]
  cases hx : x s.memory with
  | ok a m =>
    rw [hx] at hRun
    exact ⟨trivial, by rw [show x' s.memory = .ok a m from hRun.2]⟩
  | error e m =>
    rw [hx] at hRun
    rw [show x' s.memory = .error (e.map (CodeError.rename r)) m from hRun]

theorem newSlot_renames (ty : Wasm.ValType) : RenamesEmit r (Emit.newSlot ty) (Emit.newSlot ty) :=
  fun _ _ => ⟨trivial, rfl⟩

theorem declare_renames (x : Ident) (ty : Ty) :
    RenamesEmit r (Emit.declare x ty) (Emit.declare (x.rename r) ty) :=
  fun _ _ => ⟨trivial, rfl⟩

end

section

variable (r : String ↪ String)

theorem Frame.place?_rename (globals : Globals) (s : Frame) (x : String) :
    (s.rename r).place? (globals.rename r) (r x) = s.place? globals x := by
  have hNames : List.lookup (r x) (s.rename r).names = List.lookup x s.names :=
    Table.lookup_map_fst fun _ _ h => r.injective h
  have hGlobals : List.lookup (r x) (globals.rename r) = List.lookup x globals :=
    Table.lookup_map_fst fun _ _ h => r.injective h
  rw [Frame.place?, Frame.place?, hNames, hGlobals]

variable (globals : Globals)

theorem resolve_renames (x : Ident) :
    RenamesEmit r (Emit.resolve globals x) (Emit.resolve (globals.rename r) (x.rename r)) := by
  intro s _
  simp only [Emit.resolve_eq, Ident.rename, Frame.place?_rename]
  cases s.place? globals x.name with
  | some p => exact ⟨trivial, rfl⟩
  | none => rfl

theorem stepCell_renames (address : Nat) (ty : Wasm.ValType) (change : Code) (fixity : Fixity)
    (used : Bool) : RenamesEmit r (Emit.stepCell address ty change fixity used)
      (Emit.stepCell address ty change fixity used) :=
  .ite (newSlot_renames r ty).map .pure

theorem step_renames (op : UnaryOp) (fixity : Fixity) (used : Bool) (e : Expr Ty) :
    RenamesEmit r (Emit.step globals op fixity used e)
      (Emit.step (globals.rename r) op fixity used (e.rename r)) := by
  cases e with
  | var ty s x =>
    refine (resolve_renames r globals x).bind fun p => ?_
    cases p with
    | slot n => exact .pure
    | cell address t => exact stepCell_renames r _ _ _ _ _
  | _ => exact .throw rfl

theorem unary_renames (s : Span) (op : UnaryOp) (fixity : Fixity) (operand : Expr Ty)
    {inner inner' : Emit Code} (h : RenamesEmit r inner inner') :
    RenamesEmit r (Emit.unary globals s op fixity operand inner)
      (Emit.unary (globals.rename r) s op fixity (operand.rename r) inner') := by
  cases op with
  | increment => exact step_renames r globals .increment fixity true operand
  | decrement => exact step_renames r globals .decrement fixity true operand
  | not =>
    simp only [Emit.unary, Expr.info_rename]
    exact .ite h.map (.throw rfl)
  | deref =>
    simp only [Emit.unary, Expr.info_rename]
    split
    · exact .throw rfl
    · exact .ite (.throw rfl) (.ite h h.map)
  | negate =>
    simp only [Emit.unary, Expr.info_rename]
    split
    · exact h.map
    · exact h.map

theorem elementAddress_renames (base : Expr Ty) {b b' o o' : Emit Code} (hb : RenamesEmit r b b')
    (ho : RenamesEmit r o o') :
    RenamesEmit r (Emit.elementAddress base b o) (Emit.elementAddress (base.rename r) b' o') := by
  simp only [Emit.elementAddress, Expr.info_rename, Expr.span_rename]
  exact .ite (.throw rfl) (hb.bind fun _ => ho.map)

end

variable {r : String ↪ String} {globals : Globals}

namespace Expr

mutual

theorem emit_renames : (e : Expr Ty) →
    RenamesEmit r (e.emit globals) ((e.rename r).emit (globals.rename r))
  | const .. => .pure
  | string _ s text => (inMemory_renames r (placeString_renames r text s)).map
  | var _ _ x => by
    refine (resolve_renames r globals x).bind fun p => ?_
    cases p <;> exact .pure
  | call _ _ _ args => (emitAll_renames args).map
  | binary _ s op lhs rhs => by
    refine lhs.emit_renames.bind fun _ => rhs.emit_renames.bind fun _ => ?_
    simp only [info_rename]
    split
    · exact .pure
    · exact .throw rfl
  | unary _ s op fixity operand => unary_renames r globals s op fixity operand operand.emit_renames
  | index _ _ base offset => (elementAddress_renames r base base.emit_renames offset.emit_renames).map

theorem emitAll_renames : (es : List (Expr Ty)) →
    RenamesEmit r (emitAll globals es) (emitAll (globals.rename r) (renameAll r es))
  | [] => .pure
  | e :: es => e.emit_renames.bind fun _ => (emitAll_renames es).map

end

theorem optionExpr_renames (e? : Option (Expr Ty)) :
    RenamesEmit r (Emit.optionExpr globals e?)
      (Emit.optionExpr (globals.rename r) (e?.map (rename r))) := by
  cases e? with
  | none => exact .pure
  | some e => exact e.emit_renames

theorem condition_renames (e? : Option (Expr Ty)) :
    RenamesEmit r (Emit.condition globals e?)
      (Emit.condition (globals.rename r) (e?.map (rename r))) := by
  cases e? with
  | none => exact .pure
  | some e => exact e.emit_renames

end Expr

namespace Emit

theorem assign_renames (x : Ident) (value : Expr Ty) :
    RenamesEmit r (assign globals x value)
      (assign (globals.rename r) (x.rename r) (value.rename r)) := by
  refine (resolve_renames r globals x).bind fun p => ?_
  cases p <;> exact value.emit_renames.map

theorem declareArray_renames (s : Span) (x : Ident) (ty : Ty) (init : Option (Expr Ty)) :
    RenamesEmit r (declareArray s x ty init)
      (declareArray s (x.rename r) ty (init.map (Expr.rename r))) := by
  cases init with
  | some e =>
    simp only [Option.map_some, declareArray, Expr.span_rename]
    exact .throw rfl
  | none =>
    exact (inMemory_renames r (reserveArray_renames r ty s)).bind fun _ =>
      (declare_renames r x ty).map

theorem declareScalar_renames (x : Ident) (ty : Ty) (init : Option (Expr Ty)) :
    RenamesEmit r (declareScalar globals x ty init)
      (declareScalar (globals.rename r) (x.rename r) ty (init.map (Expr.rename r))) := by
  refine (declare_renames r x ty).bind fun n => ?_
  cases init with
  | none => exact .pure
  | some e => exact e.emit_renames.map

theorem effect_renames (e : Expr Ty) :
    RenamesEmit r (effect globals e) (effect (globals.rename r) (e.rename r)) := by
  have hPlain : RenamesEmit r
      (do return (← e.emit globals) ++ if e.info = .void then [] else [Wasm.Instr.drop])
      (do return (← (e.rename r).emit (globals.rename r)) ++
        if (e.rename r).info = .void then [] else [Wasm.Instr.drop]) := by
    rw [Expr.info_rename]
    exact e.emit_renames.map
  cases e with
  | unary _ _ op fixity operand =>
    exact .ite (step_renames r globals op fixity false operand) hPlain
  | _ => exact hPlain

theorem jump_renames (labels : List Label) (s : Span) (j : Jump) :
    RenamesEmit r (jump labels s j) (jump labels s j) := by
  rw [jump]
  split
  · exact .pure
  · exact .throw rfl

theorem repeatLoop_renames (wrapped : Bool) {body body' update update' cond cond' : Emit Code}
    (hBody : RenamesEmit r body body') (hUpdate : RenamesEmit r update update')
    (hCond : RenamesEmit r cond cond') :
    RenamesEmit r (repeatLoop wrapped body update cond) (repeatLoop wrapped body' update' cond') :=
  hBody.bind fun _ => hUpdate.bind fun _ => hCond.map

theorem guarded_renames {cond cond' inner inner' : Emit Code} (hCond : RenamesEmit r cond cond')
    (hInner : RenamesEmit r inner inner') :
    RenamesEmit r (guarded cond inner) (guarded cond' inner') :=
  hCond.bind fun _ => hInner.map

end Emit

namespace Stmt

mutual

theorem emit_renames (labels : List Label) : (x : Stmt Ty) →
    RenamesEmit r (x.emit globals labels) ((x.rename r).emit (globals.rename r) labels)
  | ret _ value => (Expr.optionExpr_renames value).map
  | assign _ target value => Emit.assign_renames target value
  | declare s x ty init =>
    .ite (Emit.declareArray_renames s x ty init) (Emit.declareScalar_renames x ty init)
  | store _ base offset value =>
    (elementAddress_renames r base base.emit_renames offset.emit_renames).bind fun _ =>
      value.emit_renames.map
  | branch _ cond thenBody elseBody => by
    simp only [rename, emit, isEmpty_renameAll]
    exact cond.emit_renames.bind fun _ => (emitAll_renames _ thenBody).bind fun _ =>
      (emitAll_renames _ elseBody).map
  | loop _ .whileDo cond body => by
    simp only [rename, emit, jumpsAny_renameAll]
    exact Emit.guarded_renames cond.emit_renames
      (Emit.repeatLoop_renames _ (emitAll_renames _ body) .pure cond.emit_renames)
  | loop _ .doWhile cond body => by
    simp only [rename, emit, jumpsAny_renameAll]
    exact (Emit.repeatLoop_renames _ (emitAll_renames _ body) .pure cond.emit_renames).map
  | forLoop _ init cond update body => by
    simp only [rename, emit, jumpsAny_renameAll]
    exact (emitOption_renames labels init).bind fun _ =>
      (Emit.guarded_renames (Expr.condition_renames cond)
        (Emit.repeatLoop_renames _ (emitAll_renames _ body) (emitOption_renames _ update)
          (Expr.condition_renames cond))).map
  | jump s j => Emit.jump_renames labels s j
  | expr _ value => Emit.effect_renames value

theorem emitAll_renames (labels : List Label) : (xs : List (Stmt Ty)) →
    RenamesEmit r (emitAll globals labels xs)
      (emitAll (globals.rename r) labels (renameAll r xs))
  | [] => .pure
  | x :: xs => (x.emit_renames labels).bind fun _ => (emitAll_renames labels xs).map

theorem emitOption_renames (labels : List Label) : (x? : Option (Stmt Ty)) →
    RenamesEmit r (emitOption globals labels x?)
      (emitOption (globals.rename r) labels (renameOption r x?))
  | none => .pure
  | some x => x.emit_renames labels

end

end Stmt

namespace Function

theorem close_renames (f : Function Ty) (code : Code) :
    RenamesEmit r (f.close code) ((f.rename r).close code) := by
  have hLast : ((f.rename r).body.getLast?.map Stmt.isReturn).getD false =
      (f.body.getLast?.map Stmt.isReturn).getD false := by
    simp only [Function.rename, Stmt.renameAll_eq_map, List.getLast?_map, Option.map_map]
    congr 2
    funext x
    exact Stmt.isReturn_rename r x
  simp only [Function.close, hLast]
  exact .ite .pure (.ite (.throw rfl) (.ite .pure .pure))

theorem declareParams_renames (params : List Param) :
    RenamesEmit r (params.forM fun p => discard (Emit.declare p.name p.ty))
      ((params.map (Param.rename r)).forM fun p => discard (Emit.declare p.name p.ty)) := by
  induction params with
  | nil => exact .pure
  | cons p params ih => exact (declare_renames r p.name p.ty).map.bind fun _ => ih

theorem emit_renames (f : Function Ty) :
    RenamesEmit r (f.emit globals) ((f.rename r).emit (globals.rename r)) := by
  have hLength : (f.params.map (Param.rename r)).length = f.params.length := List.length_map _
  refine (declareParams_renames f.params).bind fun _ =>
    (Stmt.emitAll_renames [] f.body).bind fun code => (f.close_renames code).bind fun body => ?_
  simp only [Function.rename, hLength]
  exact fun _ _ => ⟨trivial, rfl⟩

end Function

theorem initialWord_renames (x : Ident) (e : Expr Ty) :
    RenamesAlloc r (initialWord x e) (initialWord (x.rename r) (e.rename r)) := by
  cases e with
  | const => exact .pure
  | string _ s text => exact (placeString_renames r text s).map
  | unary _ _ op _ operand =>
    cases op <;> cases operand <;> first | exact .throw rfl | exact .pure
  | _ => exact .throw rfl

theorem Global.cellWord?_renames (g : Global Ty) :
    RenamesAlloc r g.cellWord? (g.rename r).cellWord? := by
  obtain ⟨name, ty, init⟩ := g
  refine .ite ?_ ?_
  · cases init with
    | none => exact (reserveArray_renames r ty name.span).map
    | some e =>
      simp only [Global.rename, Option.map_some, Expr.span_rename]
      exact .throw rfl
  · cases init with
    | none => exact .pure
    | some e => exact (initialWord_renames name e).map

theorem Global.place_renames (g : Global Ty) : RenamesAlloc r g.place (g.rename r).place := by
  refine (alloc_renames r 4 g.name.span).bind fun cell => g.cellWord?_renames.bind fun w => ?_
  cases w with
  | none => exact .pure
  | some w => exact (modify_renames r _).map

namespace Builder

theorem addItem_renames (item : Item Ty) :
    RenamesBuild r (addItem item) (addItem (item.rename r)) := by
  intro b _
  cases item with
  | global g =>
    have hRun := g.place_renames (r := r) b.memory trivial
    simp only [addItem, Item.rename, addGlobal, Builder.rename]
    cases hPlace : g.place b.memory with
    | ok cell m =>
      rw [hPlace] at hRun
      simp only [id] at hRun
      exact ⟨trivial, by rw [hRun.2]; rfl⟩
    | error e m =>
      rw [hPlace] at hRun
      simp only [id] at hRun
      rw [hRun]
  | function f =>
    have hRenames : RenamesEmit r (f.emit b.globals) _ := f.emit_renames
    have hRun := hRenames ⟨b.memory, [], []⟩ trivial
    simp only [addItem, Item.rename, addFunction, Builder.rename]
    cases hEmit : f.emit b.globals ⟨b.memory, [], []⟩ with
    | ok fn s =>
      rw [hEmit] at hRun
      simp only [Frame.rename, List.map_nil] at hRun
      exact ⟨trivial, by rw [hRun.2]⟩
    | error e s =>
      rw [hEmit] at hRun
      simp only [Frame.rename, List.map_nil] at hRun
      rw [hRun]

theorem addItems_renames (items : List (Item Ty)) :
    RenamesBuild r (items.forM addItem) ((items.map (Item.rename r)).forM addItem) := by
  induction items with
  | nil => exact .pure
  | cons item items ih => exact (addItem_renames item).bind fun _ => ih

end Builder

theorem Program.emit_rename (r : String ↪ String) (p : Program Ty) :
    (p.rename r).emit = transfer (Located.map (CodeError.rename r)) id p.emit := by
  have hRun := Builder.addItems_renames (r := r) p.items .empty trivial
  have hEmpty : Builder.empty.rename r = .empty := rfl
  rw [hEmpty] at hRun
  simp only [Program.emit, Program.rename]
  cases hAdd : p.items.forM Builder.addItem .empty with
  | ok _ b =>
    rw [hAdd] at hRun
    rw [hRun.2]
    rfl
  | error e b =>
    rw [hAdd] at hRun
    rw [hRun]
    rfl

end MiniC
