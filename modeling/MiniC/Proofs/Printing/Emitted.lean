import MiniC.Proofs.Bindings
import MiniC.Proofs.Printing.Checked
import MiniC.Proofs.Printing.Modules

/-! # The module text determines the module

The code of a program calls functions by their names, which are words, and has only operations with
a name of their own.  So its module can be read back from its text.
-/
namespace MiniC
set_option autoImplicit false

open Wasm (Code Instr ValType Opcode)

/-- All instructions of the code can be read. -/
def LegibleCode (code : Code) : Prop := ∀ i ∈ code, i.Legible

section

variable {a b : Code}

@[simp] theorem legibleCode_nil : LegibleCode [] := by
  simp [LegibleCode]

@[simp] theorem legibleCode_cons {i : Instr} : LegibleCode (i :: a) ↔ i.Legible ∧ LegibleCode a :=
  List.forall_mem_cons

@[simp] theorem legibleCode_append : LegibleCode (a ++ b) ↔ LegibleCode a ∧ LegibleCode b :=
  List.forall_mem_append

@[simp] theorem legibleCode_blockIf {wrapped : Bool} :
    LegibleCode (Emit.blockIf wrapped a) ↔ LegibleCode a := by
  cases wrapped <;> simp [Emit.blockIf, Instr.Legible]

@[simp] theorem legibleCode_stepCode (op : UnaryOp) (ty : ValType) :
    LegibleCode (Emit.stepCode op ty) := by
  have hPush : (pushOne ty).Legible := by cases ty <;> trivial
  have hStep : (Instr.numeric ty (if op = .increment then .add else .sub)).Legible := by
    split <;> simp [Instr.Legible, Opcode.named]
  simp [Emit.stepCode, hPush, hStep]

theorem legibleCode_addressCode (base : Ty) (ha : LegibleCode a) (hb : LegibleCode b) :
    LegibleCode (addressCode base a b) := by
  have hScale (n : Nat) : LegibleCode (Emit.scaleCode n) := by
    rw [Emit.scaleCode]
    split <;> simp [pushAddress, Instr.Legible, Opcode.named]
  simp [addressCode, ha, hb, hScale, Instr.Legible, Opcode.named]

theorem legibleCode_read (p : Place) : LegibleCode p.read := by
  cases p <;> simp [Place.read, pushAddress, Instr.Legible]

theorem legibleCode_write (p : Place) (ha : LegibleCode a) : LegibleCode (p.write a) := by
  cases p <;> simp [Place.write, pushAddress, Instr.Legible, ha]

end

variable {B : Bindings} {P : Ty → Prop}

theorem BinaryOp.legible_opcode {op : BinaryOp} {ty : ValType} {opcode : Opcode}
    (h : op.opcode? ty = some opcode) : (Instr.numeric ty opcode).Legible := by
  cases ty <;> cases op <;> cases h <;> simp [Instr.Legible, Opcode.named]

theorem StepLowers.legible {op : UnaryOp} {fixity : Fixity} {ty : Ty} {x : Ident} {used : Bool}
    {code : Code} (h : StepLowers B op fixity ty x used code) : LegibleCode code := by
  cases h with
  | slot hPlace =>
    simp only [Emit.stepSlot, legibleCode_append, legibleCode_stepCode]
    refine ⟨⟨⟨by simp [Instr.Legible], ?_⟩, trivial⟩, ?_⟩ <;> split <;> simp [Instr.Legible]
  | cell hPlace => simp [stepCellCode, pushAddress, Instr.Legible]
  | usedCell hPlace hSpare => cases fixity <;> simp [stepCellCode, pushAddress, Instr.Legible]

mutual

theorem ExprLowers.legible (e : Expr Ty) {code : Code} (h : ExprLowers B e code)
    (he : e.Legible P) : LegibleCode code := by
  cases h with
  | const ty s value => cases value <;> simp [Constant.push, Instr.Legible]
  | string hText => simp [pushAddress, Instr.Legible]
  | var hPlace => exact legibleCode_read _
  | @call ty s callee args code hArgs =>
    have hName : (Instr.call callee.name).Legible := he.2.1
    simp [ArgsLower.legible args hArgs he.2.2, hName]
  | @binary ty s op lhs rhs a b opcode hLhs hRhs hOpcode =>
    simp [ExprLowers.legible lhs hLhs he.2.1, ExprLowers.legible rhs hRhs he.2.2,
      BinaryOp.legible_opcode hOpcode]
  | step hOp hStep => exact hStep.legible
  | @row ty t s fixity e code hElement hArray hE => exact ExprLowers.legible e hE he.2
  | @not ty s fixity e code hTy hE | @deref ty t s fixity e code hElement hArray hFloat hE
  | @negateInt ty s fixity e code hTy hE | @negateFloat ty s fixity e code hTy hE =>
    simp [ExprLowers.legible e hE he.2, Instr.Legible, Opcode.named]
  | @index ty s base offset b o hFloat hBase hOffset =>
    have hAddress := legibleCode_addressCode base.info (ExprLowers.legible base hBase he.2.1)
      (ExprLowers.legible offset hOffset he.2.2)
    rw [legibleCode_append]
    refine ⟨hAddress, ?_⟩
    split <;> simp [Instr.Legible]

theorem ArgsLower.legible (es : List (Expr Ty)) {code : Code} (h : ArgsLower B es code)
    (hes : Expr.LegibleAll P es) : LegibleCode code := by
  cases h with
  | nil => simp
  | @cons e es a b hE hEs =>
    simp [ExprLowers.legible e hE hes.1, ArgsLower.legible es hEs hes.2]

end

theorem CondLowers.legible {e? : Option (Expr Ty)} {code : Code} (h : CondLowers B e? code)
    (he : Expr.LegibleOption P e?) : LegibleCode code := by
  cases h with
  | none => simp [Instr.Legible]
  | @some e code hE => exact hE.legible e (he e rfl)

theorem EffectLowers.legible {e : Expr Ty} {code : Code} (h : EffectLowers B e code)
    (he : e.Legible P) : LegibleCode code := by
  cases h with
  | step hOp hStep => exact hStep.legible
  | plain hE =>
    rw [legibleCode_append]
    refine ⟨hE.legible e he, ?_⟩
    split <;> simp [Instr.Legible]

mutual

theorem StmtLowers.legible (x : Stmt Ty) {labels : List Label} {code : Code}
    {arrays : List (String × Nat)} (h : StmtLowers B labels x code arrays) (hx : x.Legible P) :
    LegibleCode code := by
  cases h with
  | retNone => simp [Instr.Legible]
  | @retSome _ s e code hE => simp [hE.legible e (hx e rfl), Instr.Legible]
  | assign hPlace hE => exact legibleCode_write _ (hE.legible _ hx.2)
  | array hArray hDeclared => simp [pushAddress, Instr.Legible]
  | scalar hArray hDeclared => simp
  | @scalarInit _ s x ty n e code hArray hDeclared hE =>
    simp [hE.legible e (hx.2.2 e rfl), Instr.Legible]
  | @store _ s base offset value b o v hFloat hBase hOffset hValue =>
    have hAddress := legibleCode_addressCode base.info (hBase.legible base hx.1)
      (hOffset.legible offset hx.2.1)
    simp [hAddress, hValue.legible value hx.2.2, Instr.Legible]
  | @branch _ s cond thenBody elseBody c t e as bs hCond hThen hElse =>
    have hOtherwise : LegibleCode (if elseBody.isEmpty then [] else [Instr.else_] ++ e) := by
      split
      · simp
      · simp [BodyLowers.legible elseBody hElse hx.2.2, Instr.Legible]
    simp only [legibleCode_append, legibleCode_cons, legibleCode_nil]
    exact ⟨⟨⟨⟨hCond.legible cond hx.1, trivial, trivial⟩,
      BodyLowers.legible thenBody hThen hx.2.1⟩, hOtherwise⟩, trivial, trivial⟩
  | @whileDo _ s cond body c b c' as hCond hBody hCond' =>
    simp [hCond.legible cond hx.1, hCond'.legible cond hx.1, BodyLowers.legible body hBody hx.2,
      Instr.Legible]
  | @doWhile _ s cond body b c as hBody hCond =>
    simp [hCond.legible cond hx.1, BodyLowers.legible body hBody hx.2, Instr.Legible]
  | @forLoop _ s init update cond body i c b u c' as bs cs hInit hCond hBody hUpdate hCond' =>
    simp [OptionLowers.legible init hInit hx.1, hCond.legible hx.2.1, hCond'.legible hx.2.1,
      OptionLowers.legible update hUpdate hx.2.2.1, BodyLowers.legible body hBody hx.2.2.2,
      Instr.Legible]
  | jump hDepth => simp [Instr.Legible]
  | expr hE => exact hE.legible hx

theorem BodyLowers.legible (xs : List (Stmt Ty)) {labels : List Label} {code : Code}
    {arrays : List (String × Nat)} (h : BodyLowers B labels xs code arrays)
    (hxs : Stmt.LegibleAll P xs) : LegibleCode code := by
  cases h with
  | nil => simp
  | @cons _ x xs a b as bs hX hXs =>
    simp [StmtLowers.legible x hX hxs.1, BodyLowers.legible xs hXs hxs.2]

theorem OptionLowers.legible (x? : Option (Stmt Ty)) {labels : List Label} {code : Code}
    {arrays : List (String × Nat)} (h : OptionLowers B labels x? code arrays)
    (hx : Stmt.LegibleOption P x?) : LegibleCode code := by
  cases h with
  | none => simp
  | @some _ x code as hX => exact StmtLowers.legible x hX hx

end

theorem Function.Lowered.legible {f : Function Ty} {fn : Wasm.Function} {globals : Globals}
    {m : Memory} {start fin : Frame} {code : Code} {arrays : List (String × Nat)}
    (h : f.Lowered fn globals m start fin code arrays) (hf : f.Legible P) : fn.Legible where
  name := h.name ▸ hf.1
  body := by
    have hCode : LegibleCode code := h.lowers.legible f.body hf.2.2.2
    rcases h.closed with ⟨-, hBody⟩ | ⟨-, -, hBody⟩
    · exact hBody ▸ hCode
    · rw [hBody]
      refine legibleCode_append.mpr ⟨hCode, ?_⟩
      split <;> simp [Instr.Legible]

namespace Program

theorem legible_of_emit {p : Program Ty} {m : Wasm.Module} (h : p.emit = .ok m)
    (hp : p.Legible P) : m.Legible := by
  have hItems : EveryItem (fun _ item => item.Legible P) [] p.items :=
    EveryItem.of_forall fun _ item hItem _ => hp item hItem
  obtain ⟨b, -, -, hHolds⟩ := holds_of_emit h hItems
  rw [Wasm.Module.Legible]
  generalize p.functions = fs, m.functions = fns at hHolds ⊢
  induction hHolds with
  | nil => simp
  | cons hFn _ ih =>
    obtain ⟨_, _, _, _, _, _, hLowered, hLegible, -⟩ := hFn
    exact List.forall_mem_cons.mpr ⟨hLowered.legible hLegible, ih⟩

/-- The text of the module of a checked program is read back to the module, but for floats with one
text. -/
theorem module_reads_back (source : String) (p : Program Ty) (m : Wasm.Module)
    (hCheck : checkSource source = .ok p) (hEmit : p.emit = .ok m) :
    ∃ m', Wasm.Module.ofText? m.text = some m' ∧ m.Alike m' := by
  have hLegible := legible_of_emit hEmit (legible_of_checkSource hCheck)
  exact ⟨_, Wasm.Module.ofText?_text hLegible, rfl, List.forall₂_map_right_iff.mpr
    (List.forall₂_same.mpr fun f _ => f.alike_reread)⟩

/-- A text whose first byte is escaped, with a digit after it, and a function with a float. -/
def escapedLine : String := "char* s = \"\\n0\"; float half(float x) \x7b return x / 2.0; \x7d"

theorem module_reads_back_escapedLine :
    ∃ (p : Program Ty) (m : Wasm.Module), checkSource escapedLine = .ok p ∧ p.emit = .ok m ∧
      (m.data.any fun s => [0x0a, 0x30].isPrefixOf s.bytes) = true ∧
      ∃ m', Wasm.Module.ofText? m.text = some m' ∧ m.Alike m' := by
  have hCompiles : compilesTo (fun _ m => m.data.any fun s => [0x0a, 0x30].isPrefixOf s.bytes)
      escapedLine = true := compilesTo_ofList (by decide +kernel)
  obtain ⟨p, m, hCheck, hEmit, hData⟩ := exists_of_compilesTo hCompiles
  exact ⟨p, m, hCheck, hEmit, hData, module_reads_back escapedLine p m hCheck hEmit⟩

end Program

end MiniC
