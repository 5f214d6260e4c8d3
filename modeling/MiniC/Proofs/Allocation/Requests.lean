import MiniC.Proofs.Layout

/-! # What is asked of memory

Memory is asked for the cells of globals, for string literals and for arrays.  The requests of a tree
are listed in the order in which its code is made, the condition of a loop once before and once after
the body.  Lowering serves them one by one; a run that ends with an error has served the first of them
and has done nothing else to memory.
-/
namespace MiniC
set_option autoImplicit false

open Wasm (Code ValType)

/-- Something that memory is asked for. -/
inductive Request where
  | cell (span : Span)
  | string (span : Span) (text : String)
  | array (span : Span) (ty : Ty)
  deriving DecidableEq, Repr

/-- A range of bytes that has been handed out. -/
structure Block where
  request : Request
  start : Nat
  deriving DecidableEq, Repr

namespace Request

def serve : Request → Alloc Nat
  | cell s => Memory.alloc 4 s
  | string s text => Memory.placeString text s
  | array s ty => Memory.reserveArray ty s

def length : Request → Nat
  | cell _ => 4
  | string _ text => (Memory.stringBytes text).length
  | array _ ty => ty.byteLength

/-- Whether this is a literal that has its place already; no bytes are handed out for it. -/
def isPlaced (m : Memory) : Request → Bool
  | string s _ => (List.lookup s.lo m.strings).isSome
  | _ => false

def isArray : Request → Bool
  | array .. => true
  | _ => false

/-- Serves requests one after another; the result lists the ranges that are handed out. -/
def serveAll : List Request → Alloc (List Block)
  | [] => return []
  | r :: rs => do
    let placed := r.isPlaced (← get)
    let start ← r.serve
    let blocks ← serveAll rs
    return if placed then blocks else ⟨r, start⟩ :: blocks

theorem serveAll_cons_eq_ok_iff {r : Request} {rs : List Request} {m m' : Memory}
    {blocks : List Block} :
    serveAll (r :: rs) m = .ok blocks m' ↔ ∃ start m₁ rest, r.serve m = .ok start m₁ ∧
      serveAll rs m₁ = .ok rest m' ∧
      blocks = (if r.isPlaced m then [] else [⟨r, start⟩]) ++ rest := by
  simp only [serveAll, Memory.get_bind, Action.bind_eq_ok_iff, Action.pure_eq_ok_iff]
  constructor
  · rintro ⟨start, m₁, hServe, rest, m₂, hRest, rfl, rfl⟩
    exact ⟨start, m₁, rest, hServe, hRest, by split <;> rfl⟩
  · rintro ⟨start, m₁, rest, hServe, hRest, rfl⟩
    exact ⟨start, m₁, hServe, rest, m', hRest, by split <;> rfl, rfl⟩

theorem serveAll_append {rs rs' : List Request} {m m₁ m₂ : Memory} {a b : List Block}
    (h : serveAll rs m = .ok a m₁) (h' : serveAll rs' m₁ = .ok b m₂) :
    serveAll (rs ++ rs') m = .ok (a ++ b) m₂ := by
  induction rs generalizing m a with
  | nil =>
    cases h
    exact h'
  | cons r rs ih =>
    obtain ⟨start, m₃, rest, hServe, hRest, rfl⟩ := serveAll_cons_eq_ok_iff.mp h
    exact serveAll_cons_eq_ok_iff.mpr
      ⟨start, m₃, rest ++ b, hServe, ih hRest, List.append_assoc _ _ _⟩

theorem serveAll_singleton {r : Request} {m m' : Memory} {start : Nat}
    (h : r.serve m = .ok start m') :
    serveAll [r] m = .ok (if r.isPlaced m then [] else [⟨r, start⟩]) m' :=
  serveAll_cons_eq_ok_iff.mpr ⟨start, m', [], h, rfl, (List.append_nil _).symm⟩

end Request

namespace Memory

theorem alloc_eq_error {len : Nat} {s : Span} {m m' : Memory} {e : Located CodeError}
    (h : alloc len s m = .error e m') : m' = m := by
  rw [alloc] at h
  split at h
  · cases h
  · cases h
    rfl

end Memory

theorem Request.serve_eq_error {r : Request} {m m' : Memory} {e : Located CodeError}
    (h : r.serve m = .error e m') : m' = m := by
  cases r with
  | cell s => exact Memory.alloc_eq_error h
  | string s text =>
    rw [serve, Memory.placeString, Memory.get_bind] at h
    cases hFound : List.lookup s.lo m.strings with
    | some address =>
      rw [hFound] at h
      cases h
    | none =>
      rw [hFound] at h
      simp only at h
      cases hAlloc : Memory.alloc (Memory.stringBytes text).length s m with
      | error e₁ m₁ =>
        rw [Action.bind_of_error hAlloc] at h
        cases h
        exact Memory.alloc_eq_error hAlloc
      | ok address m₁ =>
        rw [Action.bind_of_ok hAlloc] at h
        cases h
  | array s ty =>
    rw [serve, Memory.reserveArray] at h
    split at h
    · cases h
      rfl
    · exact Memory.alloc_eq_error h

namespace Expr

mutual

def requests : Expr Ty → List Request
  | string _ s text => [.string s text]
  | call _ _ _ args => requestsAll args
  | binary _ _ _ lhs rhs => lhs.requests ++ rhs.requests
  | unary _ _ _ _ operand => operand.requests
  | index _ _ base offset => base.requests ++ offset.requests
  | const .. | var .. => []

def requestsAll : List (Expr Ty) → List Request
  | [] => []
  | e :: es => e.requests ++ requestsAll es

end

def requestsOption : Option (Expr Ty) → List Request
  | none => []
  | some e => e.requests

end Expr

namespace Stmt

mutual

def requests : Stmt Ty → List Request
  | ret _ value => Expr.requestsOption value
  | assign _ _ value => value.requests
  | declare s _ ty init => if ty.isArray then [.array s ty] else Expr.requestsOption init
  | store _ base offset value => base.requests ++ offset.requests ++ value.requests
  | branch _ cond thenBody elseBody =>
    cond.requests ++ (requestsAll thenBody ++ requestsAll elseBody)
  | loop _ .whileDo cond body => cond.requests ++ (requestsAll body ++ cond.requests)
  | loop _ .doWhile cond body => requestsAll body ++ cond.requests
  | forLoop _ init cond update body =>
    requestsOption init ++ (Expr.requestsOption cond ++ (requestsAll body ++
      (requestsOption update ++ Expr.requestsOption cond)))
  | jump .. => []
  | expr _ value => value.requests

def requestsAll : List (Stmt Ty) → List Request
  | [] => []
  | x :: xs => x.requests ++ requestsAll xs

def requestsOption : Option (Stmt Ty) → List Request
  | none => []
  | some x => x.requests

end

end Stmt

/-- The cell, and after it what the initial value or the storage of an array needs. -/
def Global.requests (g : Global Ty) : List Request :=
  .cell g.name.span :: if g.ty.isArray then [.array g.name.span g.ty]
    else match g.init with
      | some (.string _ s text) => [.string s text]
      | _ => []

def Item.requests : Item Ty → List Request
  | .global g => g.requests
  | .function f => Stmt.requestsAll f.body

/-- How memory is left by a run that begins in `m` and has the given requests. -/
def Serves {α : Type} (rs : List Request) (m : Memory)
    (r : EStateM.Result (Located CodeError) Frame α) : Prop :=
  match r with
  | .ok _ s => ∃ blocks, Request.serveAll rs m = .ok blocks s.memory
  | .error _ s => ∃ served blocks, served <+: rs ∧
    Request.serveAll served m = .ok blocks s.memory

namespace Serves

variable {α β : Type} {rs rs' : List Request} {s : Frame}

theorem pure {a : α} : Serves [] s.memory ((Pure.pure a : Emit α) s) := ⟨[], rfl⟩

theorem fail {span : Span} {e : CodeError} :
    Serves rs s.memory ((Emit.fail span e : Emit α) s) :=
  ⟨[], [], List.nil_prefix, rfl⟩

theorem bind {x : Emit α} {k : α → Emit β} (hx : Serves rs s.memory (x s))
    (hk : ∀ a s₁, Serves rs' s₁.memory (k a s₁)) :
    Serves (rs ++ rs') s.memory ((x >>= k) s) := by
  cases hRun : x s with
  | error e s₁ =>
    rw [hRun] at hx
    obtain ⟨served, blocks, hPrefix, hServed⟩ := hx
    rw [Action.bind_of_error hRun]
    exact ⟨served, blocks, hPrefix.trans (List.prefix_append _ _), hServed⟩
  | ok a s₁ =>
    rw [hRun] at hx
    obtain ⟨blocks, hServed⟩ := hx
    have hNext := hk a s₁
    rw [Action.bind_of_ok hRun]
    cases hRun₁ : k a s₁ with
    | error e s₂ =>
      rw [hRun₁] at hNext
      obtain ⟨served, blocks₁, hPrefix, hServed₁⟩ := hNext
      exact ⟨rs ++ served, blocks ++ blocks₁, (List.prefix_append_right_inj rs).mpr hPrefix,
        Request.serveAll_append hServed hServed₁⟩
    | ok b s₂ =>
      rw [hRun₁] at hNext
      obtain ⟨blocks₁, hServed₁⟩ := hNext
      exact ⟨blocks ++ blocks₁, Request.serveAll_append hServed hServed₁⟩

theorem silent {x : Emit α} {k : α → Emit β} (hx : Serves [] s.memory (x s))
    (hk : ∀ a s₁, Serves rs s₁.memory (k a s₁)) : Serves rs s.memory ((x >>= k) s) :=
  hx.bind hk

theorem andThen {x : Emit α} {k : α → Emit β} (hx : Serves rs s.memory (x s))
    (hk : ∀ a s₁, Serves [] s₁.memory (k a s₁)) : Serves rs s.memory ((x >>= k) s) := by
  have h := hx.bind hk
  rwa [List.append_nil] at h

theorem map {x : Emit α} {f : α → β} (hx : Serves rs s.memory (x s)) :
    Serves rs s.memory ((x >>= fun a => Pure.pure (f a)) s) :=
  hx.andThen fun _ _ => pure

theorem resolve {globals : Globals} (x : Ident) :
    Serves [] s.memory (Emit.resolve globals x s) := by
  rw [Emit.resolve_eq]
  cases s.place? globals x.name with
  | some p => exact ⟨[], rfl⟩
  | none => exact ⟨[], [], List.nil_prefix, rfl⟩

theorem newSlot (ty : ValType) : Serves [] s.memory (Emit.newSlot ty s) := ⟨[], rfl⟩

theorem declare (x : Ident) (ty : Ty) : Serves [] s.memory (Emit.declare x ty s) := ⟨[], rfl⟩

theorem request (r : Request) : Serves [r] s.memory (Emit.inMemory r.serve s) := by
  rw [Emit.inMemory]
  cases hRun : r.serve s.memory with
  | ok start m => exact ⟨_, Request.serveAll_singleton hRun⟩
  | error e m =>
    obtain rfl := Request.serve_eq_error hRun
    exact ⟨[], [], List.nil_prefix, rfl⟩

end Serves

namespace Emit

variable {globals : Globals}

theorem step_serves (op : UnaryOp) (fixity : Fixity) (used : Bool) (operand : Expr Ty)
    (s : Frame) : Serves operand.requests s.memory (step globals op fixity used operand s) := by
  cases operand with
  | var ty s₀ x =>
    refine (Serves.resolve x).andThen fun p s₁ => ?_
    cases p with
    | slot n => exact .pure
    | cell address t =>
      simp only [stepCell]
      split
      · exact (Serves.newSlot t).map
      · exact .pure
  | _ => exact .fail

theorem unary_serves (s₀ : Span) (op : UnaryOp) (fixity : Fixity) (operand : Expr Ty)
    {inner : Emit Code} (hInner : ∀ s : Frame, Serves operand.requests s.memory (inner s))
    (s : Frame) :
    Serves operand.requests s.memory (unary globals s₀ op fixity operand inner s) := by
  cases op with
  | increment => exact step_serves .increment fixity true operand s
  | decrement => exact step_serves .decrement fixity true operand s
  | not =>
    simp only [unary]
    split
    · exact (hInner s).map
    · exact .fail
  | deref =>
    simp only [unary]
    cases operand.info.element? with
    | none => exact .fail
    | some t =>
      simp only
      split
      · exact .fail
      · split
        · exact hInner s
        · exact (hInner s).map
  | negate =>
    simp only [unary]
    cases operand.info.valType with
    | i32 => exact (hInner s).map
    | f32 => exact (hInner s).map

theorem elementAddress_serves {base offset : Expr Ty} {b o : Emit Code}
    (hb : ∀ s : Frame, Serves base.requests s.memory (b s))
    (ho : ∀ s : Frame, Serves offset.requests s.memory (o s)) (s : Frame) :
    Serves (base.requests ++ offset.requests) s.memory (elementAddress base b o s) := by
  rw [elementAddress]
  split
  · exact .fail
  · exact (hb s).bind fun _ s₁ => (ho s₁).map

end Emit

namespace Expr

variable {globals : Globals}

mutual

theorem emit_serves (e : Expr Ty) (s : Frame) :
    Serves e.requests s.memory (e.emit globals s) := by
  cases e with
  | const ty s₀ value => exact .pure
  | string ty s₀ text => exact (Serves.request (.string s₀ text)).map
  | var ty s₀ x =>
    exact (Serves.resolve x).andThen fun p _ => by cases p <;> exact .pure
  | call ty s₀ callee args => exact (emitAll_serves args s).map
  | binary ty s₀ op lhs rhs =>
    refine (emit_serves lhs s).bind fun a s₁ => (emit_serves rhs s₁).andThen fun b s₂ => ?_
    cases op.opcode? lhs.info.valType with
    | some opcode => exact .pure
    | none => exact .fail
  | unary ty s₀ op fixity operand =>
    exact Emit.unary_serves s₀ op fixity operand (fun s => emit_serves operand s) s
  | index ty s₀ base offset =>
    exact (Emit.elementAddress_serves (fun s => emit_serves base s)
      (fun s => emit_serves offset s) s).map

theorem emitAll_serves (es : List (Expr Ty)) (s : Frame) :
    Serves (requestsAll es) s.memory (emitAll globals es s) := by
  cases es with
  | nil => exact .pure
  | cons e es => exact (emit_serves e s).bind fun _ s₁ => (emitAll_serves es s₁).map

end

end Expr

namespace Emit

variable {globals : Globals}

theorem optionExpr_serves (e? : Option (Expr Ty)) (s : Frame) :
    Serves (Expr.requestsOption e?) s.memory (optionExpr globals e? s) := by
  cases e? with
  | none => exact .pure
  | some e => exact e.emit_serves s

theorem condition_serves (e? : Option (Expr Ty)) (s : Frame) :
    Serves (Expr.requestsOption e?) s.memory (condition globals e? s) := by
  cases e? with
  | none => exact .pure
  | some e => exact e.emit_serves s

theorem assign_serves (x : Ident) (e : Expr Ty) (s : Frame) :
    Serves e.requests s.memory (assign globals x e s) := by
  refine (Serves.resolve x).silent fun p s₁ => ?_
  cases p with
  | slot n => exact (e.emit_serves s₁).map
  | cell address t => exact (e.emit_serves s₁).map

theorem declareArray_serves (s₀ : Span) (x : Ident) (ty : Ty) (init : Option (Expr Ty))
    (s : Frame) : Serves [.array s₀ ty] s.memory (declareArray s₀ x ty init s) := by
  cases init with
  | some e => exact .fail
  | none =>
    exact (Serves.request (.array s₀ ty)).andThen fun _ _ => (Serves.declare x ty).map

theorem declareScalar_serves (x : Ident) (ty : Ty) (init : Option (Expr Ty)) (s : Frame) :
    Serves (Expr.requestsOption init) s.memory (declareScalar globals x ty init s) := by
  refine (Serves.declare x ty).silent fun n s₁ => ?_
  cases init with
  | none => exact .pure
  | some e => exact (e.emit_serves s₁).map

theorem effect_serves (e : Expr Ty) (s : Frame) :
    Serves e.requests s.memory (effect globals e s) := by
  have hPlain : Serves e.requests s.memory
      ((do return (← e.emit globals) ++ if e.info = .void then [] else [Wasm.Instr.drop] : Emit Code) s) :=
    (e.emit_serves s).map
  cases e with
  | unary ty s₀ op fixity operand =>
    simp only [effect]
    split
    · exact step_serves op fixity false operand s
    · exact hPlain
  | _ => exact hPlain

theorem jump_serves (labels : List Label) (s₀ : Span) (j : Jump) (s : Frame) :
    Serves [] s.memory (jump labels s₀ j s) := by
  rw [jump]
  cases labels.findIdx? fun l => decide (l = some j) with
  | some depth => exact .pure
  | none => exact .fail

end Emit

namespace Stmt

variable {globals : Globals}

mutual

theorem emit_serves (x : Stmt Ty) (labels : List Label) (s : Frame) :
    Serves x.requests s.memory (x.emit globals labels s) := by
  cases x with
  | ret s₀ value => exact (Emit.optionExpr_serves value s).map
  | assign s₀ target value => exact Emit.assign_serves target value s
  | declare s₀ name ty init =>
    rw [requests, emit]
    split
    · exact Emit.declareArray_serves s₀ name ty init s
    · exact Emit.declareScalar_serves name ty init s
  | store s₀ base offset value =>
    exact (Emit.elementAddress_serves (fun s => base.emit_serves s)
      (fun s => offset.emit_serves s) s).bind fun _ s₁ => (value.emit_serves s₁).map
  | branch s₀ cond thenBody elseBody =>
    exact (cond.emit_serves s).bind fun _ s₁ => (emitAll_serves thenBody _ s₁).bind
      fun _ s₂ => (emitAll_serves elseBody _ s₂).map
  | loop s₀ kind cond body =>
    cases kind with
    | whileDo =>
      simp only [emit, Emit.guarded, Emit.repeatLoop, bind_assoc, pure_bind]
      exact (cond.emit_serves s).bind fun _ s₁ => (emitAll_serves body _ s₁).bind
        fun _ s₂ => (cond.emit_serves s₂).map
    | doWhile =>
      simp only [emit, Emit.repeatLoop, bind_assoc, pure_bind]
      exact (emitAll_serves body _ s).bind fun _ s₁ => (cond.emit_serves s₁).map
  | forLoop s₀ init cond update body =>
    simp only [emit, Emit.guarded, Emit.repeatLoop, bind_assoc, pure_bind]
    exact (emitOption_serves init labels s).bind fun _ s₁ => (Emit.condition_serves cond s₁).bind
      fun _ s₂ => (emitAll_serves body _ s₂).bind fun _ s₃ => (emitOption_serves update _ s₃).bind
        fun _ s₄ => (Emit.condition_serves cond s₄).map
  | jump s₀ j => exact Emit.jump_serves labels s₀ j s
  | expr s₀ value => exact Emit.effect_serves value s

theorem emitAll_serves (xs : List (Stmt Ty)) (labels : List Label) (s : Frame) :
    Serves (requestsAll xs) s.memory (emitAll globals labels xs s) := by
  cases xs with
  | nil => exact .pure
  | cons x xs => exact (emit_serves x labels s).bind fun _ s₁ => (emitAll_serves xs labels s₁).map

theorem emitOption_serves (x? : Option (Stmt Ty)) (labels : List Label) (s : Frame) :
    Serves (requestsOption x?) s.memory (emitOption globals labels x? s) := by
  cases x? with
  | none => exact .pure
  | some x => exact emit_serves x labels s

end

end Stmt

theorem Function.emit_serves {globals : Globals} (f : Function Ty) (s : Frame) :
    Serves (Stmt.requestsAll f.body) s.memory (f.emit globals s) := by
  have hParams (params : List Param) (s : Frame) :
      Serves [] s.memory (params.forM (fun p => discard (Emit.declare p.name p.ty)) s) := by
    induction params generalizing s with
    | nil => exact .pure
    | cons p params ih => exact .silent (Serves.declare p.name p.ty).map fun _ s₁ => ih s₁
  have hClose (code : Code) (s : Frame) : Serves [] s.memory (f.close code s) := by
    rw [close]
    split
    · exact .pure
    · split
      · exact .fail
      · split <;> exact .pure
  refine (hParams f.params s).silent fun _ s₁ => ?_
  refine (Stmt.emitAll_serves f.body [] s₁).andThen fun code s₂ => ?_
  exact (hClose code s₂).andThen fun body s₃ => ⟨[], rfl⟩

end MiniC
