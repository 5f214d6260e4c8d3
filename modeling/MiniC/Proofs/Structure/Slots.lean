import MiniC.Proofs.Resolution.Expr
import MiniC.Proofs.Resolution.Uses
import MiniC.Proofs.Structure.Nesting

/-! # The shape of a function

Whatever tree a function is made from, the blocks of its code are nested, every branch ends at an
open block and every slot exists.  Parameters have the first slots, in their order; each declaration
that is lowered gets a slot after those of the declarations lowered before it.
-/
namespace MiniC
set_option autoImplicit false

open Wasm (Code Instr ValType Nested)

namespace Frame

/-- The names of the frame are the given declarations, the newest first, each with a slot of its
machine type. -/
structure Holds (s : Frame) (slots : List ((String × Ty) × Nat)) : Prop where
  names : s.names = slots.map fun d => (d.1.1, d.2)
  apart : (slots.map Prod.snd).Pairwise (· > ·)
  typed : ∀ d ∈ slots, s.slots[d.2]? = some d.1.2.valType

/-- On the way from `s` to `s'` declarations are added, which `after` adds to those before. -/
def Adds (s : Frame) (after : Scope → Scope) (s' : Frame) : Prop :=
  ∀ slots, s.Holds slots →
    ∃ added, s'.Holds (added ++ slots) ∧
      (added ++ slots).map Prod.fst = after (slots.map Prod.fst)

namespace Adds

variable {s s₁ s₂ : Frame} {after after' : Scope → Scope}

theorem none (hNames : s₁.names = s.names) (hSlots : s.slots <+: s₁.slots) : s.Adds id s₁ := by
  intro slots h
  refine ⟨[], ⟨hNames.trans h.names, h.apart, fun d hd => ?_⟩, rfl⟩
  exact getElem?_of_prefix hSlots (h.typed d hd)

theorem of_finds {α : Type} {globals : Globals} {xs : List Ident} {a : α}
    {r : EStateM.Result (Located CodeError) Frame α} (h : Finds globals s xs r)
    (hRun : r = .ok a s₁) : s.Adds id s₁ := by
  rw [hRun] at h
  exact none h.2.1 h.2.2

theorem trans (h : s.Adds after s₁) (h' : s₁.Adds after' s₂) : s.Adds (after' ∘ after) s₂ := by
  intro slots hs
  obtain ⟨added, hs₁, hAfter⟩ := h slots hs
  obtain ⟨added', hs₂, hAfter'⟩ := h' _ hs₁
  refine ⟨added' ++ added, by rwa [List.append_assoc], ?_⟩
  rw [List.append_assoc, hAfter', hAfter, Function.comp_apply]

theorem declare {x : Ident} {ty : Ty} {n : Nat} (h : Emit.declare x ty s = .ok n s₁) :
    s.Adds (Scope.declare · x ty) s₁ := by
  intro slots hs
  rw [Emit.declare_eq] at h
  cases h
  have hOld : ∀ d ∈ slots, (s.slots ++ [ty.valType])[d.2]? = some d.1.2.valType := fun d hd =>
    getElem?_of_prefix (List.prefix_append _ _) (hs.typed d hd)
  refine ⟨[((x.name, ty), s.slots.length)], ⟨?_, ?_, ?_⟩, rfl⟩
  · rw [hs.names]
    rfl
  · refine .cons (fun n hn => ?_) hs.apart
    obtain ⟨d, hd, rfl⟩ := List.mem_map.mp hn
    exact (List.getElem?_eq_some_iff.mp (hs.typed d hd)).1
  · exact List.forall_mem_cons.mpr ⟨List.getElem?_concat_length, hOld⟩

end Adds

end Frame

namespace Stmt

variable {globals : Globals} {labels : List Label} {s s' : Frame} {c : Code}

theorem emitAll_singleton (x : Stmt Ty) :
    emitAll globals labels [x] = x.emit globals labels := by
  simp [emitAll]

theorem emitAll_cons_eq_ok {x : Stmt Ty} {xs : List (Stmt Ty)}
    (h : emitAll globals labels (x :: xs) s = .ok c s') :
    ∃ a s₁ b, x.emit globals labels s = .ok a s₁ ∧ emitAll globals labels xs s₁ = .ok b s' ∧
      c = a ++ b := by
  simp only [emitAll, Action.bind_eq_ok_iff, Action.pure_eq_ok_iff] at h
  obtain ⟨a, s₁, hX, b, _, hXs, rfl, rfl⟩ := h
  exact ⟨a, s₁, b, hX, hXs, rfl⟩

theorem emit_branch_eq_ok {s₀ : Span} {cond : Expr Ty} {thenBody elseBody : List (Stmt Ty)}
    (h : (Stmt.branch s₀ cond thenBody elseBody).emit globals labels s = .ok c s') :
    ∃ a s₁ t s₂ e, cond.emit globals s = .ok a s₁ ∧
      emitAll globals (none :: labels) thenBody s₁ = .ok t s₂ ∧
      emitAll globals (none :: labels) elseBody s₂ = .ok e s' ∧
      c = a ++ [Instr.if_] ++ t ++ (if elseBody.isEmpty then [] else [Instr.else_] ++ e) ++
        [Instr.end_] := by
  simp only [emit, Action.bind_eq_ok_iff, Action.pure_eq_ok_iff] at h
  obtain ⟨a, s₁, hCond, t, s₂, hThen, e, _, hElse, rfl, rfl⟩ := h
  exact ⟨a, s₁, t, s₂, e, hCond, hThen, hElse, rfl⟩

theorem emit_whileDo_eq_ok {s₀ : Span} {cond : Expr Ty} {body : List (Stmt Ty)}
    (h : (Stmt.loop s₀ .whileDo cond body).emit globals labels s = .ok c s') :
    ∃ a s₁ b s₂ a', cond.emit globals s = .ok a s₁ ∧
      emitAll globals (Emit.bodyLabels (jumpsAny .continue_ body) (some .break_ :: labels)) body s₁ =
        .ok b s₂ ∧
      cond.emit globals s₂ = .ok a' s' ∧
      c = a ++ [Instr.if_] ++ ([Instr.loop] ++ Emit.blockIf (jumpsAny .continue_ body) b ++ [] ++
        a' ++ [Instr.brIf 0, .end_]) ++ [Instr.end_] := by
  simp only [emit, Emit.guarded, Emit.repeatLoop, Action.bind_eq_ok_iff, Action.pure_eq_ok_iff] at h
  obtain ⟨a, s₁, hCond, _, s₂, ⟨b, s₃, hBody, _, _, ⟨rfl, rfl⟩, a', _, hCond', rfl, rfl⟩, rfl,
    rfl⟩ := h
  exact ⟨a, s₁, b, _, a', hCond, hBody, hCond', rfl⟩

theorem emit_doWhile_eq_ok {s₀ : Span} {cond : Expr Ty} {body : List (Stmt Ty)}
    (h : (Stmt.loop s₀ .doWhile cond body).emit globals labels s = .ok c s') :
    ∃ b s₁ a,
      emitAll globals (Emit.bodyLabels (jumpsAny .continue_ body)
        (if jumpsAny .break_ body then some .break_ :: labels else labels)) body s = .ok b s₁ ∧
      cond.emit globals s₁ = .ok a s' ∧
      c = Emit.blockIf (jumpsAny .break_ body)
        ([Instr.loop] ++ Emit.blockIf (jumpsAny .continue_ body) b ++ [] ++ a ++
          [Instr.brIf 0, .end_]) := by
  simp only [emit, Emit.repeatLoop, Action.bind_eq_ok_iff, Action.pure_eq_ok_iff] at h
  obtain ⟨_, _, ⟨b, s₁, hBody, _, _, ⟨rfl, rfl⟩, a, _, hCond, rfl, rfl⟩, rfl, rfl⟩ := h
  exact ⟨b, _, a, hBody, hCond, rfl⟩

theorem emit_forLoop_eq_ok {s₀ : Span} {init update : Option (Stmt Ty)} {cond : Option (Expr Ty)}
    {body : List (Stmt Ty)}
    (h : (Stmt.forLoop s₀ init cond update body).emit globals labels s = .ok c s') :
    ∃ i s₁ a s₂ b s₃ u s₄ a', emitOption globals labels init s = .ok i s₁ ∧
      Emit.condition globals cond s₁ = .ok a s₂ ∧
      emitAll globals (Emit.bodyLabels (jumpsAny .continue_ body) (some .break_ :: labels)) body s₂ =
        .ok b s₃ ∧
      emitOption globals (none :: some .break_ :: labels) update s₃ = .ok u s₄ ∧
      Emit.condition globals cond s₄ = .ok a' s' ∧
      c = i ++ (a ++ [Instr.if_] ++ ([Instr.loop] ++ Emit.blockIf (jumpsAny .continue_ body) b ++ u ++
        a' ++ [Instr.brIf 0, .end_]) ++ [Instr.end_]) := by
  simp only [emit, Emit.guarded, Emit.repeatLoop, Action.bind_eq_ok_iff, Action.pure_eq_ok_iff] at h
  obtain ⟨i, s₁, hInit, _, _, ⟨a, s₂, hCond, _, _, ⟨b, s₃, hBody, u, s₄, hUpdate, a', s₅, hCond',
    rfl, rfl⟩, rfl, rfl⟩, rfl, rfl⟩ := h
  exact ⟨i, s₁, a, s₂, b, s₃, u, s₄, a', hInit, hCond, hBody, hUpdate, hCond', rfl⟩

theorem declare_adds {s₀ : Span} {x : Ident} {ty : Ty} {init : Option (Expr Ty)}
    (h : (Stmt.declare s₀ x ty init).emit globals labels s = .ok c s') :
    s.Adds (Scope.declare · x ty) s' := by
  rw [emit] at h
  split at h
  · cases init with
    | some e => cases h
    | none =>
      simp only [Emit.declareArray, Action.bind_eq_ok_iff, Action.pure_eq_ok_iff,
        Emit.inMemory_eq_ok_iff] at h
      obtain ⟨a, _, ⟨m, -, rfl⟩, n, _, hDeclare, rfl, rfl⟩ := h
      have hMemory : s.Adds id { s with memory := m } := .none rfl (List.prefix_refl _)
      exact hMemory.trans (.declare hDeclare)
  · simp only [Emit.declareScalar, Action.bind_eq_ok_iff] at h
    obtain ⟨n, s₁, hDeclare, h⟩ := h
    cases init with
    | none =>
      obtain ⟨rfl, rfl⟩ := Action.pure_eq_ok_iff.mp h
      exact .declare hDeclare
    | some e =>
      simp only [Action.bind_eq_ok_iff, Action.pure_eq_ok_iff] at h
      obtain ⟨code, _, hE, rfl, rfl⟩ := h
      exact (Frame.Adds.declare hDeclare).trans (.of_finds (e.emit_finds s₁) hE)

mutual

theorem emit_adds (x : Stmt Ty) {labels : List Label} {s s' : Frame} {c : Code}
    (h : x.emit globals labels s = .ok c s') : s.Adds (x.after .lower ·) s' := by
  cases x with
  | ret s₀ value =>
    simp only [emit, Action.bind_eq_ok_iff, Action.pure_eq_ok_iff] at h
    obtain ⟨code, _, hValue, rfl, rfl⟩ := h
    exact .of_finds (Emit.optionExpr_finds value s) hValue
  | assign s₀ target value => exact .of_finds (Emit.assign_finds target value s) h
  | declare s₀ name ty init => exact declare_adds h
  | store s₀ base offset value =>
    simp only [emit, Action.bind_eq_ok_iff, Action.pure_eq_ok_iff] at h
    obtain ⟨a, s₁, hAddress, v, _, hValue, rfl, rfl⟩ := h
    exact (Frame.Adds.of_finds (Emit.elementAddress_finds (fun s => base.emit_finds s)
      (fun s => offset.emit_finds s) s) hAddress).trans (.of_finds (value.emit_finds s₁) hValue)
  | branch s₀ cond thenBody elseBody =>
    obtain ⟨a, s₁, t, s₂, e, hCond, hThen, hElse, -⟩ := emit_branch_eq_ok h
    exact ((Frame.Adds.of_finds (cond.emit_finds s) hCond).trans (emitAll_adds thenBody hThen)).trans
      (emitAll_adds elseBody hElse)
  | loop s₀ kind cond body =>
    cases kind with
    | whileDo =>
      obtain ⟨a, s₁, b, s₂, a', hCond, hBody, hCond', -⟩ := emit_whileDo_eq_ok h
      exact ((Frame.Adds.of_finds (cond.emit_finds s) hCond).trans (emitAll_adds body hBody)).trans
        (.of_finds (cond.emit_finds s₂) hCond')
    | doWhile =>
      obtain ⟨b, s₁, a, hBody, hCond, -⟩ := emit_doWhile_eq_ok h
      exact (emitAll_adds body hBody).trans (.of_finds (cond.emit_finds s₁) hCond)
  | forLoop s₀ init cond update body =>
    obtain ⟨i, s₁, a, s₂, b, s₃, u, s₄, a', hInit, hCond, hBody, hUpdate, hCond', -⟩ :=
      emit_forLoop_eq_ok h
    exact ((((emitOption_adds init hInit).trans
      (.of_finds (Emit.condition_finds cond s₁) hCond)).trans (emitAll_adds body hBody)).trans
        (emitOption_adds update hUpdate)).trans (.of_finds (Emit.condition_finds cond s₄) hCond')
  | jump s₀ j =>
    obtain ⟨depth, -, -, rfl⟩ := Emit.jump_eq_ok h
    exact .none rfl (List.prefix_refl _)
  | expr s₀ value => exact .of_finds (Emit.effect_finds value s) h

theorem emitAll_adds (xs : List (Stmt Ty)) {labels : List Label} {s s' : Frame} {c : Code}
    (h : emitAll globals labels xs s = .ok c s') : s.Adds (afterAll .lower · xs) s' := by
  cases xs with
  | nil =>
    obtain ⟨rfl, rfl⟩ := Action.pure_eq_ok_iff.mp h
    exact .none rfl (List.prefix_refl _)
  | cons x xs =>
    obtain ⟨a, s₁, b, hX, hXs, -⟩ := emitAll_cons_eq_ok h
    exact (emit_adds x hX).trans (emitAll_adds xs hXs)

theorem emitOption_adds (x? : Option (Stmt Ty)) {labels : List Label} {s s' : Frame} {c : Code}
    (h : emitOption globals labels x? s = .ok c s') : s.Adds (afterOption .lower · x?) s' := by
  cases x? with
  | none =>
    obtain ⟨rfl, rfl⟩ := Action.pure_eq_ok_iff.mp h
    exact .none rfl (List.prefix_refl _)
  | some x => exact emit_adds x h

end

end Stmt

namespace Function

/-- The frame in which the body of a function is lowered: the parameters have their slots. -/
def start (f : Function Ty) (m : Memory) : Frame where
  memory := m
  slots := f.params.map fun p => p.ty.valType
  names := (f.params.map fun p => p.name.name).zipIdx.reverse

theorem declareParams_eq (f : Function Ty) (m : Memory) :
    f.params.forM (fun p => discard (Emit.declare p.name p.ty)) ⟨m, [], []⟩ =
      .ok ⟨⟩ (f.start m) := by
  obtain ⟨s, hRun, -, hMemory, hSlots, hNames⟩ := Emit.declareParams f.params ⟨m, [], []⟩
  rw [hRun, start]
  congr
  obtain ⟨memory, slots, names⟩ := s
  simp only [List.nil_append, List.append_nil, List.length_nil] at hMemory hSlots hNames
  rw [hMemory, hSlots, hNames]

theorem emit_eq_ok {f : Function Ty} {globals : Globals} {m : Memory} {fin : Frame}
    {fn : Wasm.Function} (h : f.emit globals ⟨m, [], []⟩ = .ok fn fin) :
    ∃ code, Stmt.emitAll globals [] f.body (f.start m) = .ok code fin ∧
      f.close code fin = .ok fn.body fin ∧ fn.params ++ fn.locals = fin.slots := by
  simp only [emit, Action.bind_eq_ok_iff, Action.pure_eq_ok_iff] at h
  obtain ⟨_, s₁, hParams, code, s₂, hBody, body, s₃, hClose, s₄, _, hGet, rfl, rfl⟩ := h
  cases (f.declareParams_eq m).symm.trans hParams
  cases hGet
  obtain ⟨rfl, -⟩ := close_eq_ok hClose
  exact ⟨code, hBody, hClose, List.take_append_drop _ _⟩

theorem start_sound (f : Function Ty) (m : Memory) : (f.start m).Sound := by
  intro d hd
  simp only [start, List.mem_reverse, List.mem_zipIdx_iff_getElem?] at hd
  have hLt := (List.getElem?_eq_some_iff.mp hd).1
  simpa [start] using hLt

theorem start_holds (f : Function Ty) (m : Memory) :
    (f.start m).Holds f.parameters.zipIdx.reverse where
  names := by simp [start, parameters, List.zipIdx_map]
  apart := by
    rw [List.map_reverse, List.pairwise_reverse, List.zipIdx_map_snd]
    exact List.pairwise_lt_range'
  typed := by
    intro d hd
    rw [List.mem_reverse, List.mem_zipIdx_iff_getElem?, parameters, List.getElem?_map] at hd
    obtain ⟨p, hp, hd⟩ := Option.map_eq_some_iff.mp hd
    rw [start, List.getElem?_map, hp, ← hd]
    rfl

/-- What a function declares, in the order in which it is lowered. -/
def declared (f : Function Ty) : List (String × Ty) :=
  (Stmt.afterAll .lower f.parameters.reverse f.body).reverse

theorem declared_perm (f : Function Ty) : f.declared.Perm f.declarations := by
  obtain ⟨added, hPerm, hAfter⟩ := Stmt.passes_afterAll .lower f.body f.parameters.reverse
  rw [declared, hAfter, List.reverse_append, List.reverse_reverse, declarations, locals]
  exact (added.reverse_perm.trans hPerm).append_left _

/-- The slots of a finished function: `slots` lists what is declared with the slot that it has. -/
structure Slotted (f : Function Ty) (fin : Frame) (fn : Wasm.Function)
    (slots : List ((String × Ty) × Nat)) : Prop where
  declared : slots.map Prod.fst = f.declared
  params : slots.take f.params.length = f.parameters.zipIdx
  names : fin.names = (slots.map fun d => (d.1.1, d.2)).reverse
  apart : (slots.map Prod.snd).Pairwise (· < ·)
  typed : ∀ d ∈ slots, (fn.params ++ fn.locals)[d.2]? = some d.1.2.valType

theorem exists_slotted {f : Function Ty} {globals : Globals} {m : Memory} {fin : Frame}
    {fn : Wasm.Function} (h : f.emit globals ⟨m, [], []⟩ = .ok fn fin) :
    ∃ slots, f.Slotted fin fn slots := by
  obtain ⟨code, hBody, -, hSlots⟩ := emit_eq_ok h
  obtain ⟨added, hHolds, hAfter⟩ := Stmt.emitAll_adds f.body hBody _ (f.start_holds m)
  have hFirst : (f.parameters.zipIdx.reverse.map Prod.fst) = f.parameters.reverse := by
    rw [List.map_reverse, List.zipIdx_map_fst]
  refine ⟨(added ++ f.parameters.zipIdx.reverse).reverse, ?_, ?_, ?_, ?_, ?_⟩
  · rw [List.map_reverse, hAfter, hFirst, declared]
  · have hLength : f.params.length = f.parameters.zipIdx.length := by simp [parameters]
    rw [List.reverse_append, List.reverse_reverse, hLength, List.take_left]
  · rw [hHolds.names, List.map_reverse, List.reverse_reverse]
  · rw [List.map_reverse, List.pairwise_reverse]
    exact hHolds.apart
  · intro d hd
    rw [hSlots]
    exact hHolds.typed d (List.mem_reverse.mp hd)

theorem close_nested {f : Function Ty} {n : Nat} {code body : Code} {s s' : Frame}
    (h : f.close code s = .ok body s') (hCode : Nested n 0 code) : Nested n 0 body := by
  obtain ⟨-, ⟨-, rfl⟩ | ⟨-, -, rfl⟩⟩ := close_eq_ok h
  · exact hCode
  · refine hCode.append ?_
    split
    · exact .nil
    · exact .plain (by simp [Instr.Fits, Instr.slot?])

theorem emit_nested {f : Function Ty} {globals : Globals} {m : Memory} {fin : Frame}
    {fn : Wasm.Function} (h : f.emit globals ⟨m, [], []⟩ = .ok fn fin) :
    Nested (fn.params.length + fn.locals.length) 0 fn.body := by
  obtain ⟨code, hBody, hClose, hSlots⟩ := emit_eq_ok h
  have hRuns : Runs (f.start m) fin _ _ _ _ _ := Stmt.emitAll_runs (f.start_sound m) f.body hBody
  obtain ⟨arrays, -, hLowers⟩ := hRuns.placed
  have hNested := BodyLowers.nested (Bindings.within_ofRun (f.start_sound m)) f.body
    (hLowers (.refl _) (.refl _))
  rw [← List.length_append, hSlots]
  exact close_nested hClose hNested

end Function

/-- The shape of a function that is added to a module, from any tree and after any other items. -/
theorem Builder.addFunction_shape {f : Function Ty} {b b' : Builder} {u : Unit}
    (h : addFunction f b = .ok u b') :
    ∃ fn fin, f.emit b.globals ⟨b.memory, [], []⟩ = .ok fn fin ∧
      b'.functions = b.functions ++ [fn] ∧ fn.body.scan 0 [] = some [] ∧
      (∀ x ∈ fn.body, ∀ k ∈ x.slot?, k < fn.params.length + fn.locals.length) ∧
      f.declared.Perm f.declarations ∧ ∃ slots, f.Slotted fin fn slots := by
  obtain ⟨fn, fin, hEmit, rfl⟩ := addFunction_eq_ok h
  have hNested := Function.emit_nested hEmit
  exact ⟨fn, fin, hEmit, rfl, hNested.scan_eq 0 [] rfl, hNested.slot_lt, f.declared_perm,
    Function.exists_slotted hEmit⟩

/-- A tree that no check makes: two parameters and a variable have one name, and the type that is
written at its uses is none of theirs. -/
def Function.illTyped : Function Ty :=
  let x : Expr Ty := .var .void .start ⟨"x", .start⟩
  { name := ⟨"f", .start⟩
    returnTy := .void
    params := [⟨⟨"x", .start⟩, .int⟩, ⟨⟨"x", .start⟩, .float⟩]
    body := [.forLoop .start none (some x) (some (.declare .start ⟨"i", .start⟩ .int (some x)))
      [.declare .start ⟨"x", .start⟩ .float none,
        .branch .start x [.jump .start .continue_] [.jump .start .break_]]] }

theorem Builder.addFunction_shape_illTyped :
    ∃ b' fn fin slots, addFunction .illTyped .empty = .ok () b' ∧ b'.functions = [fn] ∧
      fn.body.length = 17 ∧ fn.body.scan 0 [] = some [] ∧
      (∀ x ∈ fn.body, ∀ k ∈ x.slot?, k < fn.params.length + fn.locals.length) ∧
      Function.Slotted .illTyped fin fn slots ∧ slots.length = 4 := by
  obtain ⟨b', hAdd⟩ : ∃ b', addFunction .illTyped .empty = .ok () b' := ⟨_, rfl⟩
  obtain ⟨fn, fin, hEmit, hFns, hScan, hSlots, -, slots, hSlotted⟩ := addFunction_shape hAdd
  cases hEmit
  refine ⟨b', _, _, slots, hAdd, hFns, rfl, hScan, hSlots, hSlotted, ?_⟩
  rw [← List.length_map Prod.fst, hSlotted.declared]
  rfl

end MiniC
