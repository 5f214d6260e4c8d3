import MiniC.Proofs.Heights.Program
import MiniC.Proofs.Outcomes

/-! # Operators of checked programs

The typing rules and the choice of operations agree: an operator that the check accepts has an
operation on the machine type of its operands, which is the same for both.  So lowering a checked
program never fails because of an operator, and every operation in its code exists.
-/
namespace MiniC
set_option autoImplicit false

open Wasm (Code Instr ValType Opcode)

/-- Whether the error says that an operator has no operation. -/
def CodeError.AboutOperator : CodeError → Prop
  | unsupportedUnary .. | unsupportedBinary .. => True
  | _ => False

/-- Whether an operation exists on its machine type. -/
def Wasm.Instr.isAvailable : Instr → Bool
  | .numeric ty op => (op.type? ty).isSome
  | _ => true

/-- All operations of the code exist. -/
def Available (code : Code) : Prop := ∀ i ∈ code, i.isAvailable = true

/-- Every run makes code whose operations exist, or fails for another reason than an operator. -/
abbrev Supported (x : Emit Code) : Prop := Ends CodeError.AboutOperator Available x

theorem BinaryOp.exists_opcode {op : BinaryOp} {lhs rhs ty : Ty} (h : op.type lhs rhs = .ok ty) :
    ∃ opcode, op.opcode? lhs.valType = some opcode := by
  obtain ⟨hLhs, -, -, -⟩ := type_eq_ok_iff.mp h
  simp only [acceptsOperand, Bool.and_eq_true, Bool.or_eq_true, decide_eq_true_eq] at hLhs
  obtain ⟨-, hFloat⟩ := hLhs
  cases hTy : lhs.valType with
  | i32 => cases op <;> exact ⟨_, rfl⟩
  | f32 =>
    obtain rfl : lhs = .float := by
      cases lhs <;> first | rfl | cases hTy
    have hAccepts : op.acceptsFloat = true := hFloat.resolve_left (by simp)
    cases op <;> first | exact ⟨_, rfl⟩ | cases hAccepts

namespace Available

variable {a b : Code}

theorem append (ha : Available a) (hb : Available b) : Available (a ++ b) :=
  List.forall_mem_append.mpr ⟨ha, hb⟩

theorem nil : Available [] := by simp [Available]

theorem single {i : Instr} (h : i.isAvailable = true) : Available [i] := by
  simpa [Available] using h

theorem blockIf (wrapped : Bool) (ha : Available a) : Available (Emit.blockIf wrapped a) := by
  rw [Emit.blockIf]
  split
  · exact ((single rfl).append ha).append (single rfl)
  · exact ha

theorem stepCode (op : UnaryOp) (ty : ValType) : Available (Emit.stepCode op ty) := by
  have hOne : (pushOne ty).isAvailable = true := by cases ty <;> rfl
  have hStep : (Instr.numeric ty (if op = .increment then .add else .sub)).isAvailable = true := by
    cases ty <;> split <;> rfl
  exact (single hOne).append (single hStep)

theorem scaleCode (n : Nat) : Available (Emit.scaleCode n) := by
  rw [Emit.scaleCode]
  split
  · exact nil
  · exact (single rfl).append (single rfl)

end Available

namespace Emit

variable {globals : Globals}

theorem resolve_supported (x : Ident) {f : Place → Emit Code} (h : ∀ p, Supported (f p)) :
    Supported (resolve globals x >>= f) :=
  (Ends.resolve (fun _ h => h) globals x).bind fun p _ => h p

theorem step_supported (op : UnaryOp) (fixity : Fixity) (used : Bool) (ty : Ty) (s : Span)
    (x : Ident) : Supported (step globals op fixity used (.var ty s x)) := by
  have hChange := Available.stepCode op ty.valType
  refine resolve_supported x fun p => ?_
  cases p with
  | slot n =>
    refine .pure ?_
    rw [stepSlot]
    refine (((Available.single rfl).append ?_).append hChange).append (.single ?_)
    · split
      · exact .single rfl
      · exact .nil
    · split <;> rfl
  | cell address t =>
    have hLoad : Available [pushAddress address, pushAddress address, .load t] := by
      simp [Available, pushAddress, Instr.isAvailable]
    have hStore (n : Nat) : Available [.store t, .localGet n] := by
      simp [Available, Instr.isAvailable]
    simp only [stepCell]
    split
    · refine (Ends.newSlot t).map fun n _ => ?_
      cases fixity with
      | after => exact (hLoad.append ((Available.single rfl).append hChange)).append (hStore n)
      | before => exact (hLoad.append (hChange.append (.single rfl))).append (hStore n)
    · exact .pure ((hLoad.append hChange).append (.single rfl))

theorem exists_var_of_isVariable {e : Expr Ty} (h : e.isVariable = true) :
    ∃ ty s x, e = .var ty s x := by
  cases e with
  | var ty s x => exact ⟨ty, s, x, rfl⟩
  | _ => cases h

theorem unary_supported {s : Span} {op : UnaryOp} {fixity : Fixity} {operand : Expr Ty} {ty : Ty}
    {inner : Emit Code} (hTy : op.type operand.isVariable operand.info = .ok ty)
    (hInner : Supported inner) : Supported (unary globals s op fixity operand inner) := by
  cases op with
  | increment =>
    obtain ⟨hVar, -, -⟩ := (UnaryOp.type_step_eq_ok_iff (.inl rfl)).mp hTy
    obtain ⟨t, s', x, rfl⟩ := exists_var_of_isVariable hVar
    exact step_supported .increment fixity true t s' x
  | decrement =>
    obtain ⟨hVar, -, -⟩ := (UnaryOp.type_step_eq_ok_iff (.inr rfl)).mp hTy
    obtain ⟨t, s', x, rfl⟩ := exists_var_of_isVariable hVar
    exact step_supported .decrement fixity true t s' x
  | not =>
    obtain ⟨hFloat, -, -⟩ := UnaryOp.type_not_eq_ok_iff.mp hTy
    simp only [unary, if_pos (Ty.valType_of_ne_float hFloat)]
    exact hInner.map fun _ hCode => hCode.append (.single rfl)
  | deref =>
    simp only [unary, UnaryOp.type_deref_eq_ok_iff.mp hTy]
    split
    · exact .throw fun h => h
    · split
      · exact hInner
      · exact hInner.map fun _ hCode => hCode.append (.single rfl)
  | negate =>
    simp only [unary]
    split
    · exact hInner.map fun _ hCode => ((Available.single rfl).append hCode).append (.single rfl)
    · exact hInner.map fun _ hCode => hCode.append (.single rfl)

theorem elementAddress_supported {base : Expr Ty} {b o : Emit Code} (hb : Supported b)
    (ho : Supported o) : Supported (elementAddress base b o) := by
  rw [elementAddress]
  split
  · exact .throw fun h => h
  · exact hb.bind fun _ hCode => ho.map fun _ hCode' =>
      ((hCode.append hCode').append (.scaleCode _)).append (.single rfl)

end Emit

namespace Expr

variable {globals : Globals} {sigs : Signatures} {occurs : Ident → Ty → Prop}

mutual

theorem emit_supported (e : Expr Ty) (h : e.WellTyped sigs occurs) :
    Supported (e.emit globals) := by
  cases e with
  | const ty s value =>
    refine .pure (.single ?_)
    cases value <;> rfl
  | string ty s text =>
    exact (Ends.placeString (fun _ _ h => h) text s).inMemory.map fun _ _ => .single rfl
  | var ty s x =>
    refine Emit.resolve_supported x fun p => ?_
    cases p with
    | slot n => exact .pure (.single rfl)
    | cell address t => exact .pure ((Available.single rfl).append (.single rfl))
  | call ty s callee args =>
    obtain ⟨sig, -, -, hArgs⟩ := h
    exact (emitAll_supported args hArgs).map fun _ hCode => hCode.append (.single rfl)
  | binary ty s op lhs rhs =>
    obtain ⟨hLhs, hRhs, hTy⟩ := h
    obtain ⟨opcode, hOpcode⟩ := BinaryOp.exists_opcode hTy
    refine (emit_supported lhs hLhs).bind fun a ha => (emit_supported rhs hRhs).bind fun b hb => ?_
    simp only [hOpcode]
    refine .pure ((ha.append hb).append (.single ?_))
    rw [Instr.isAvailable, BinaryOp.opcode_type hTy hOpcode]
    rfl
  | unary ty s op fixity operand => exact Emit.unary_supported h.2 (emit_supported operand h.1)
  | index ty s base offset =>
    obtain ⟨hBase, hOffset, -, -⟩ := h
    refine (Emit.elementAddress_supported (emit_supported base hBase)
      (emit_supported offset hOffset)).map fun _ hCode => hCode.append ?_
    split
    · exact .nil
    · exact .single rfl

theorem emitAll_supported (es : List (Expr Ty)) {tys : List Ty}
    (h : WellTypedArgs sigs occurs es tys) : Supported (emitAll globals es) := by
  cases es with
  | nil => exact .pure .nil
  | cons e es =>
    cases tys with
    | nil => cases h
    | cons ty tys =>
      exact (emit_supported e h.1).bind fun _ ha =>
        (emitAll_supported es h.2.2).map fun _ hb => ha.append hb

end

theorem condition_supported {e? : Option (Expr Ty)}
    (h : ∀ e ∈ e?, e.WellTypedCondition sigs occurs) : Supported (Emit.condition globals e?) := by
  cases e? with
  | none => exact .pure (.single rfl)
  | some e => exact e.emit_supported (h e rfl).1

theorem effect_supported {e : Expr Ty} (h : e.WellTyped sigs occurs) :
    Supported (Emit.effect globals e) := by
  have hPlain : Supported (do
      return (← e.emit globals) ++ if e.info = .void then [] else [Instr.drop]) := by
    refine (e.emit_supported h).map fun _ hCode => hCode.append ?_
    split
    · exact .nil
    · exact .single rfl
  cases e with
  | unary ty s op fixity operand =>
    simp only [Emit.effect]
    split
    · next hOp =>
      obtain ⟨hVar, -, -⟩ := (UnaryOp.type_step_eq_ok_iff hOp).mp h.2
      obtain ⟨t, s', x, rfl⟩ := Emit.exists_var_of_isVariable hVar
      exact Emit.step_supported op fixity false t s' x
    · exact hPlain
  | _ => exact hPlain

end Expr

namespace Emit

theorem guarded_supported {cond inner : Emit Code} (hCond : Supported cond)
    (hInner : Supported inner) : Supported (guarded cond inner) :=
  hCond.bind fun _ hc => hInner.map fun _ hi =>
    ((hc.append (.single rfl)).append hi).append (.single rfl)

theorem repeatLoop_supported {wrapped : Bool} {body update cond : Emit Code}
    (hBody : Supported body) (hUpdate : Supported update) (hCond : Supported cond) :
    Supported (repeatLoop wrapped body update cond) :=
  hBody.bind fun _ hb => hUpdate.bind fun _ hu => hCond.map fun _ hc =>
    ((((Available.single rfl).append (hb.blockIf wrapped)).append hu).append hc).append
      ((Available.single rfl).append (.single rfl))

end Emit

namespace Stmt

variable {globals : Globals} {ctx : FunctionContext} {occurs : Ident → Ty → Prop}

mutual

theorem emit_supported (x : Stmt Ty) (labels : List Label) (h : x.WellTyped ctx occurs) :
    Supported (x.emit globals labels) := by
  cases x with
  | ret s value =>
    cases value with
    | none => exact (Ends.pure Available.nil).map fun _ hCode => hCode.append (.single rfl)
    | some e => exact (e.emit_supported h.2.1).map fun _ hCode => hCode.append (.single rfl)
  | assign s target value =>
    obtain ⟨ty, -, hValue, -⟩ := h
    refine Emit.resolve_supported target fun p => ?_
    cases p with
    | slot n => exact (value.emit_supported hValue).map fun _ hCode => hCode.append (.single rfl)
    | cell address t =>
      exact (value.emit_supported hValue).map fun _ hCode =>
        ((Available.single rfl).append hCode).append (.single rfl)
  | declare s name ty init =>
    rw [emit]
    split
    · cases init with
      | some e => exact .throw fun h => h
      | none =>
        exact (Ends.reserveArray (fun _ _ h => h) (fun h => h) ty s).inMemory.bind fun _ _ =>
          (Ends.declare name ty).map fun _ _ => (Available.single rfl).append (.single rfl)
    · refine (Ends.declare name ty).bind fun n _ => ?_
      cases init with
      | none => exact .pure .nil
      | some e =>
        exact (e.emit_supported (h.2 e rfl).1).map fun _ hCode => hCode.append (.single rfl)
  | store s base offset value =>
    obtain ⟨hBase, hOffset, -, ty, -, -, hValue, -⟩ := h
    exact (Emit.elementAddress_supported (base.emit_supported hBase)
      (offset.emit_supported hOffset)).bind fun _ ha =>
        (value.emit_supported hValue).map fun _ hv => (ha.append hv).append (.single rfl)
  | branch s cond thenBody elseBody =>
    obtain ⟨hCond, hThen, hElse⟩ := h
    refine (cond.emit_supported hCond.1).bind fun _ hc =>
      (emitAll_supported thenBody _ hThen).bind fun _ ht =>
        (emitAll_supported elseBody _ hElse).map fun _ he =>
          (((hc.append (.single rfl)).append ht).append ?_).append (.single rfl)
    split
    · exact .nil
    · exact (Available.single rfl).append he
  | loop s kind cond body =>
    obtain ⟨hCond, hBody⟩ := h
    have hC : Supported (cond.emit globals) := cond.emit_supported hCond.1
    have hNone : Supported (pure []) := .pure .nil
    cases kind with
    | whileDo =>
      exact Emit.guarded_supported hC
        (Emit.repeatLoop_supported (emitAll_supported body _ hBody) hNone hC)
    | doWhile =>
      exact (Emit.repeatLoop_supported (emitAll_supported body _ hBody) hNone hC).map
        fun _ hCode => hCode.blockIf _
  | forLoop s init cond update body =>
    obtain ⟨hInit, hCond, hUpdate, hBody⟩ := h
    have hC : Supported (Emit.condition globals cond) := Expr.condition_supported hCond
    exact (emitOption_supported init labels hInit).bind fun _ hStart =>
      (Emit.guarded_supported hC (Emit.repeatLoop_supported (emitAll_supported body _ hBody)
        (emitOption_supported update _ hUpdate) hC)).map fun _ hCode => hStart.append hCode
  | jump s j =>
    rw [emit, Emit.jump]
    split
    · exact .pure (.single rfl)
    · exact .throw fun h => h
  | expr s value => exact Expr.effect_supported h

theorem emitAll_supported (xs : List (Stmt Ty)) (labels : List Label)
    (h : WellTypedAll ctx occurs xs) : Supported (emitAll globals labels xs) := by
  cases xs with
  | nil => exact .pure .nil
  | cons x xs =>
    exact (emit_supported x labels h.1).bind fun _ ha =>
      (emitAll_supported xs labels h.2).map fun _ hb => ha.append hb

theorem emitOption_supported (x? : Option (Stmt Ty)) (labels : List Label)
    (h : WellTypedOption ctx occurs x?) : Supported (emitOption globals labels x?) := by
  cases x? with
  | none => exact .pure .nil
  | some x => exact emit_supported x labels h

end

end Stmt

/-- All operations in the functions exist. -/
def AllAvailable (fns : List Wasm.Function) : Prop := ∀ fn ∈ fns, Available fn.body

theorem Function.close_supported (f : Function Ty) {code : Code} (h : Available code) :
    Supported (f.close code) := by
  rw [Function.close]
  split
  · exact .pure h
  · split
    · exact .throw fun h => h
    · split
      · exact .pure h
      · exact .pure (h.append (.single rfl))

theorem Function.emit_supported {globals : Globals} {f : Function Ty} {sigs : Signatures}
    {scope : Scope} (h : f.WellTyped sigs scope) :
    Ends CodeError.AboutOperator (fun fn => Available fn.body) (f.emit globals) := by
  have hParams : Ends CodeError.AboutOperator (fun _ => True)
      (f.params.forM fun p => discard (Emit.declare p.name p.ty)) := by
    intro s
    obtain ⟨s', hRun, -⟩ := Emit.declareParams f.params s
    rw [hRun]
    trivial
  have hGet : Ends CodeError.AboutOperator (fun _ => True) (get : Emit Frame) := fun _ => trivial
  exact hParams.bind fun _ _ => (Stmt.emitAll_supported f.body [] h).bind fun _ hCode =>
    (f.close_supported hCode).bind fun _ hBody => hGet.map fun _ _ => hBody

theorem initialWord_supported (x : Ident) (e : Expr Ty) :
    Ends CodeError.AboutOperator (fun _ => True) (initialWord x e) := by
  unfold initialWord
  split
  · exact .pure trivial
  · exact (Ends.placeString (fun _ _ h => h) _ _).map fun _ _ => trivial
  · exact .pure trivial
  · exact .throw fun h => h

theorem Global.place_supported (g : Global Ty) :
    Ends CodeError.AboutOperator (fun _ => True) g.place := by
  have hWord : Ends CodeError.AboutOperator (fun _ => True) g.cellWord? := by
    rw [Global.cellWord?]
    cases g.init with
    | some init =>
      split
      · exact .throw fun h => h
      · simp only [map_eq_pure_bind]
        exact (initialWord_supported g.name init).map fun _ _ => trivial
    | none =>
      split
      · exact (Ends.reserveArray (fun _ _ h => h) (fun h => h) g.ty g.name.span).map
          fun _ _ => trivial
      · exact .pure trivial
  refine (Ends.alloc (fun _ _ h => h) 4 g.name.span).bind fun cell _ => hWord.bind fun w? _ => ?_
  cases w? with
  | some w => exact Ends.modify.map fun _ _ => trivial
  | none => exact .pure trivial

namespace Builder

/-- What is added to a module whose operations all exist keeps it so, or it fails for another reason
than an operator. -/
def AddsSupported (x : EStateM (Located CodeError) Builder PUnit) : Prop :=
  ∀ b, AllAvailable b.functions → match x b with
    | .ok _ b' => AllAvailable b'.functions
    | .error e _ => ¬ e.value.AboutOperator

theorem addItem_supported {sigs : Signatures} {scope : Scope} {item : Item Ty}
    (h : item.WellTyped sigs scope) : AddsSupported (addItem item) := by
  intro b hb
  cases item with
  | global g =>
    rw [addItem, addGlobal]
    cases hRun : g.place b.memory with
    | ok cell m => exact hb
    | error e m => exact g.place_supported.error hRun
  | function f =>
    have hEmit : Ends CodeError.AboutOperator (fun fn => Available fn.body) (f.emit b.globals) :=
      f.emit_supported h
    rw [addItem, addFunction]
    cases hRun : f.emit b.globals ⟨b.memory, [], []⟩ with
    | ok fn s =>
      refine List.forall_mem_append.mpr ⟨hb, ?_⟩
      simpa using hEmit.ok hRun
    | error e s => exact hEmit.error hRun

theorem addItems_supported {sigs : Signatures} {scope : Scope} {items : List (Item Ty)}
    (h : EveryItem (Item.WellTyped sigs) scope items) : AddsSupported (items.forM addItem) := by
  induction items generalizing scope with
  | nil => exact fun b hb => hb
  | cons item items ih =>
    have hItem : ∃ before after, item.WellTyped sigs before ∧
        EveryItem (Item.WellTyped sigs) after items := by
      cases item <;> exact ⟨_, _, h.1, h.2⟩
    obtain ⟨before, after, hFirst, hRest⟩ := hItem
    intro b hb
    have hStep := addItem_supported hFirst b hb
    simp only [List.forM]
    cases hRun : addItem item b with
    | ok u b₁ =>
      rw [hRun] at hStep
      rw [Action.bind_of_ok hRun]
      exact ih hRest b₁ hStep
    | error e b₁ =>
      rw [hRun] at hStep
      rw [Action.bind_of_error hRun]
      exact hStep

end Builder

namespace Program

variable {p : Program Ty}

theorem WellTyped.emit_supported {sigs : Signatures} (h : p.WellTyped sigs) :
    match p.emit with
    | .ok m => AllAvailable m.functions
    | .error e => ¬ e.value.AboutOperator := by
  have hItems := Builder.addItems_supported h.items .empty (by simp [AllAvailable, Builder.empty])
  rw [emit]
  cases hRun : p.items.forM Builder.addItem .empty with
  | ok u b =>
    rw [hRun] at hItems
    exact hItems
  | error e b =>
    rw [hRun] at hItems
    exact hItems

/-- What the typing rules promise about a binary operation: its operands have one machine type, and
the operation that stands after their code exists there. -/
structure BinaryAgrees (ty : Ty) (s : Span) (op : BinaryOp) (lhs rhs : Expr Ty)
    (opcode : Opcode) : Prop where
  valType : rhs.info.valType = lhs.info.valType
  chosen : op.opcode? lhs.info.valType = some opcode
  available : opcode.type? lhs.info.valType =
    some ⟨[lhs.info.valType, rhs.info.valType], some ty.valType⟩
  code : ∀ globals frame code frame',
    (Expr.binary ty s op lhs rhs).emit globals frame = .ok code frame' ↔
      ∃ a frame₁ b, lhs.emit globals frame = .ok a frame₁ ∧
        rhs.emit globals frame₁ = .ok b frame' ∧
        a ++ b ++ [Instr.numeric lhs.info.valType opcode] = code

theorem binaryAgrees_of_wellTyped {sigs : Signatures} {occurs : Ident → Ty → Prop} {ty : Ty}
    {s : Span} {op : BinaryOp} {lhs rhs : Expr Ty}
    (h : (Expr.binary ty s op lhs rhs).WellTyped sigs occurs) :
    ∃ opcode, BinaryAgrees ty s op lhs rhs opcode := by
  obtain ⟨-, -, hTy⟩ := h
  obtain ⟨opcode, hOpcode⟩ := BinaryOp.exists_opcode hTy
  have hValType := BinaryOp.valType_eq hTy
  refine ⟨opcode, hValType, hOpcode, ?_, fun globals frame code frame' => ?_⟩
  · rw [hValType]
    exact BinaryOp.opcode_type hTy hOpcode
  · simp only [Expr.emit, hOpcode, Action.bind_eq_ok_iff, Action.pure_eq_ok_iff]
    constructor
    · rintro ⟨a, frame₁, hLhs, b, frame₂, hRhs, rfl, rfl⟩
      exact ⟨a, frame₁, b, hLhs, hRhs, rfl⟩
    · rintro ⟨a, frame₁, b, hLhs, hRhs, rfl⟩
      exact ⟨a, frame₁, hLhs, b, frame', hRhs, rfl, rfl⟩

/-- Lowering a checked program never fails because of an operator, all operations in its code exist,
and each binary operation of its functions becomes one on the machine type of both operands. -/
theorem operators_supported {source : Program Unit} (hCheck : source.check = .ok p) :
    (∀ s op ty, p.emit ≠ .error ⟨s, .unsupportedBinary op ty⟩ ∧
      p.emit ≠ .error ⟨s, .unsupportedUnary op ty⟩) ∧
    (∀ m, p.emit = .ok m → ∀ fn ∈ m.functions, ∀ ty op, .numeric ty op ∈ fn.body →
      (op.type? ty).isSome = true) ∧
    ∀ f ∈ p.functions, ∀ ty s op lhs rhs, .binary ty s op lhs rhs ∈ f.exprs →
      ∃ opcode, BinaryAgrees ty s op lhs rhs opcode := by
  obtain ⟨sigs, hTyped⟩ := wellTyped_of_check hCheck
  have hEmit := hTyped.emit_supported
  refine ⟨fun s op ty => ⟨?_, ?_⟩, ?_, ?_⟩
  · intro hRun
    rw [hRun] at hEmit
    exact hEmit trivial
  · intro hRun
    rw [hRun] at hEmit
    exact hEmit trivial
  · intro m hRun fn hfn ty op hOp
    rw [hRun] at hEmit
    exact hEmit fn hfn _ hOp
  · intro f hf ty s op lhs rhs hMem
    obtain ⟨scope, hBody, -⟩ := hTyped.function hf
    exact binaryAgrees_of_wellTyped (hBody.exprs _ hMem)

/-- A source with operators on integers, floats and pointers. -/
def mixedOperators : String :=
  "float f(float x, char* p, int n) \x7b n = !n && ((p + 1) != p); n++; return -x / 2.0 * x; \x7d"

def isBinary (e : Expr Ty) : Bool :=
  match e with
  | .binary .. => true
  | _ => false

/-- The program is one function with the given number of binary operations, and its code can be
made. -/
def emitsBinary (count : Nat) (p : Program Ty) : Bool :=
  match p.functions, p.emit with
  | [f], .ok m => (f.exprs.filter isBinary).length = count && m.functions.length = 1
  | _, _ => false

theorem operators_supported_mixed :
    ∃ (source : Program Unit) (p : Program Ty) (f : Function Ty) (m : Wasm.Module),
      Program.parse mixedOperators = .ok source ∧ source.check = .ok p ∧ p.functions = [f] ∧
      p.emit = .ok m ∧
      (f.exprs.filter isBinary).length = 5 ∧
      (∀ fn ∈ m.functions, ∀ ty op, .numeric ty op ∈ fn.body → (op.type? ty).isSome = true) ∧
      ∀ ty s op lhs rhs, .binary ty s op lhs rhs ∈ f.exprs →
        ∃ opcode, BinaryAgrees ty s op lhs rhs opcode := by
  have hChecks : checksTo (fun _ p => p.emitsBinary 5) mixedOperators = true :=
    checksTo_ofList (by decide +kernel)
  obtain ⟨tree, p, hParse, hCheck, hTest⟩ := exists_of_checksTo hChecks
  rw [emitsBinary] at hTest
  split at hTest
  · rename_i f m hFns hEmit
    simp only [Bool.and_eq_true, decide_eq_true_eq] at hTest
    obtain ⟨-, hAvailable, hBinary⟩ := operators_supported hCheck
    exact ⟨tree, p, f, m, hParse, hCheck, hFns, hEmit, hTest.1, hAvailable m hEmit,
      hBinary f (by simp [hFns])⟩
  · cases hTest

end Program

end MiniC
