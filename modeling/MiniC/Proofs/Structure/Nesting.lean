import MiniC.Proofs.Lowering.Program

/-! # How blocks are nested

A scan of code keeps the blocks that are open, innermost first, each with the place in the code where
it was opened.  It stops at an `else` that belongs to no open `if` or to one that has its `else`
already, at an `end` that closes nothing, and at a branch that leads out of all blocks.  The code of
every tree, well typed or not, is scanned to its end and leaves open what was open.
-/
namespace MiniC
set_option autoImplicit false

namespace Wasm

inductive Opener where
  | block | loop | if_ | else_
  deriving DecidableEq, Repr

/-- An open block and where it was opened; an `if` is still there when its `else` has been met. -/
structure Opened where
  position : Nat
  opener : Opener
  deriving DecidableEq, Repr

namespace Instr

/-- The open blocks after the instruction at the given position. -/
def scan (position : Nat) (opens : List Opened) : Instr → Option (List Opened)
  | block => some (⟨position, .block⟩ :: opens)
  | loop => some (⟨position, .loop⟩ :: opens)
  | if_ => some (⟨position, .if_⟩ :: opens)
  | else_ =>
    match opens with
    | ⟨start, .if_⟩ :: outer => some (⟨start, .else_⟩ :: outer)
    | _ => none
  | end_ =>
    match opens with
    | _ :: outer => some outer
    | [] => none
  | br depth | brIf depth => if depth < opens.length then some opens else none
  | _ => some opens

def slot? : Instr → Option Nat
  | localGet n | localSet n | localTee n => some n
  | _ => none

/-- An instruction that computes: it opens and closes nothing and goes nowhere.  Its slot, if it has
one, is one of the first `n`. -/
def Straight (n : Nat) : Instr → Prop
  | block | loop | if_ | else_ | end_ | br _ | brIf _ | return_ | unreachable => False
  | x => ∀ k ∈ x.slot?, k < n

/-- An instruction that may stand alone inside of `depth` blocks. -/
def Fits (n depth : Nat) : Instr → Prop
  | block | loop | if_ | else_ | end_ => False
  | br k | brIf k => k < depth
  | x => ∀ k ∈ x.slot?, k < n

theorem Straight.fits {n : Nat} {x : Instr} (h : x.Straight n) (depth : Nat) : x.Fits n depth := by
  cases x <;> first | exact h | exact h.elim

theorem Fits.scan {n depth : Nat} {x : Instr} (h : x.Fits n depth) {opens : List Opened}
    (hDepth : opens.length = depth) (i : Nat) : x.scan i opens = some opens := by
  cases x <;> first | rfl | exact h.elim | exact if_pos (hDepth ▸ h)

theorem Fits.slot_lt {n depth : Nat} {x : Instr} (h : x.Fits n depth) : ∀ k ∈ x.slot?, k < n := by
  cases x <;> first | exact h | exact h.elim | simp [slot?]

end Instr

namespace Code

/-- The open blocks after code that begins at the given position. -/
def scan : Nat → List Opened → Code → Option (List Opened)
  | _, opens, [] => some opens
  | i, opens, x :: code => (x.scan i opens).bind fun opens => scan (i + 1) opens code

theorem scan_append (i : Nat) (opens : List Opened) (a b : Code) :
    scan i opens (a ++ b) = (scan i opens a).bind fun opens => scan (i + a.length) opens b := by
  induction a generalizing i opens with
  | nil => rfl
  | cons x a ih =>
    have hNext : i + (a.length + 1) = i + 1 + a.length := by omega
    simp only [List.cons_append, scan, Option.bind_assoc, ih, List.length_cons, hNext]

theorem scan_singleton (i : Nat) (opens : List Opened) (x : Instr) :
    scan i opens [x] = x.scan i opens := by
  rw [scan]
  cases x.scan i opens <;> rfl

end Code

/-- Code inside of `depth` blocks that uses the first `n` slots: whatever it opens, it closes. -/
inductive Nested (n : Nat) : Nat → Code → Prop
  | nil {depth} : Nested n depth []
  | plain {depth x} : x.Fits n depth → Nested n depth [x]
  | append {depth a b} : Nested n depth a → Nested n depth b → Nested n depth (a ++ b)
  | block {depth code} : Nested n (depth + 1) code →
      Nested n depth ([Instr.block] ++ code ++ [Instr.end_])
  | loop {depth code} : Nested n (depth + 1) code →
      Nested n depth ([Instr.loop] ++ code ++ [Instr.end_])
  | if_ {depth code} : Nested n (depth + 1) code →
      Nested n depth ([Instr.if_] ++ code ++ [Instr.end_])
  | ifElse {depth a b} : Nested n (depth + 1) a → Nested n (depth + 1) b →
      Nested n depth ([Instr.if_] ++ a ++ [Instr.else_] ++ b ++ [Instr.end_])

namespace Nested

variable {n depth : Nat} {a b c code : Code}

theorem of_straight (h : ∀ x ∈ code, x.Straight n) : Nested n depth code := by
  induction code with
  | nil => exact .nil
  | cons x code ih =>
    obtain ⟨hx, hCode⟩ := List.forall_mem_cons.mp h
    exact .append (a := [x]) (.plain (hx.fits depth)) (ih hCode)

theorem scan_eq (h : Nested n depth code) :
    ∀ (i : Nat) (opens : List Opened), opens.length = depth → code.scan i opens = some opens := by
  induction h with
  | nil => exact fun i opens _ => rfl
  | plain h =>
    intro i opens hDepth
    rw [Code.scan_singleton, h.scan hDepth]
  | append hA hB ihA ihB =>
    intro i opens hDepth
    rw [Code.scan_append, ihA i opens hDepth, Option.bind_some, ihB _ opens hDepth]
  | block h ih | loop h ih | if_ h ih =>
    intro i opens hDepth
    rw [Code.scan_append, Code.scan_append, Code.scan_singleton]
    simp only [Instr.scan, Option.bind_some]
    rw [ih _ _ (congrArg (· + 1) hDepth), Option.bind_some, Code.scan_singleton]
    rfl
  | ifElse hA hB ihA ihB =>
    intro i opens hDepth
    rw [Code.scan_append, Code.scan_append, Code.scan_append, Code.scan_append,
      Code.scan_singleton]
    simp only [Instr.scan, Option.bind_some]
    rw [ihA _ _ (congrArg (· + 1) hDepth), Option.bind_some, Code.scan_singleton]
    simp only [Instr.scan, Option.bind_some]
    rw [ihB _ _ (congrArg (· + 1) hDepth), Option.bind_some, Code.scan_singleton]
    rfl

theorem slot_lt (h : Nested n depth code) : ∀ x ∈ code, ∀ k ∈ x.slot?, k < n := by
  induction h with
  | nil => simp
  | plain h => simpa using h.slot_lt
  | append hA hB ihA ihB => exact List.forall_mem_append.mpr ⟨ihA, ihB⟩
  | block h ih | loop h ih | if_ h ih => simpa [Instr.slot?, or_imp, forall_and] using ih
  | ifElse hA hB ihA ihB =>
    simpa [Instr.slot?, or_imp, forall_and] using And.intro ihA ihB

theorem blockIf (wrapped : Bool) (h : Nested n (if wrapped then depth + 1 else depth) b) :
    Nested n depth (Emit.blockIf wrapped b) := by
  cases wrapped with
  | false => exact h
  | true => exact h.block

theorem guarded (hC : Nested n depth c) (h : Nested n (depth + 1) code) :
    Nested n depth (c ++ [Instr.if_] ++ code ++ [Instr.end_]) := by
  rw [List.append_assoc, List.append_assoc]
  exact hC.append h.if_

theorem branch {t e : Code} (hC : Nested n depth c) (ht : Nested n (depth + 1) t)
    (he : Nested n (depth + 1) e) (empty : Bool) :
    Nested n depth
      (c ++ [Instr.if_] ++ t ++ (if empty then [] else [Instr.else_] ++ e) ++ [Instr.end_]) := by
  cases empty with
  | true => simpa using hC.guarded ht
  | false => simpa using hC.append (ht.ifElse he)

theorem repeatLoop {u : Code} (hB : Nested n (depth + 1) b) (hU : Nested n (depth + 1) u)
    (hC : Nested n (depth + 1) c) :
    Nested n depth ([Instr.loop] ++ b ++ u ++ c ++ [Instr.brIf 0, .end_]) := by
  have hAgain : Nested n (depth + 1) [.brIf 0] := .plain (Nat.succ_pos depth)
  simpa using ((hB.append (hU.append hC)).append hAgain).loop

end Nested

end Wasm

open Wasm (Code Instr ValType Nested)

structure Bindings.Within (B : Bindings) (n : Nat) : Prop where
  place {x k} : B.place x (.slot k) → k < n
  spare {ty k} : B.spare ty k → k < n
  declared {x ty k} : B.declared x ty k → k < n

theorem Bindings.within_ofRun {globals : Globals} {start fin : Frame} (hStart : start.Sound) :
    (Bindings.ofRun globals start fin).Within fin.slots.length where
  place := by
    rintro x k ⟨s, hLow, hHigh, hPlace⟩
    rw [Frame.place?] at hPlace
    cases hLookup : List.lookup x s.names with
    | some k' =>
      rw [hLookup] at hPlace
      cases hPlace
      have hSlot := hStart.of_below hLow _ (Table.mem_of_lookup hLookup)
      obtain ⟨d, hHigh⟩ := hHigh
      exact Nat.lt_of_lt_of_le hSlot hHigh.slots.length_le
    | none =>
      rw [hLookup] at hPlace
      cases hCell : List.lookup x globals <;> simp [hCell] at hPlace
  spare h := (List.getElem?_eq_some_iff.mp h.1).1
  declared h := (List.getElem?_eq_some_iff.mp h.2).1

section

variable {B : Bindings} {n : Nat}

theorem Place.read_straight (hB : B.Within n) {x : String} {p : Place} (h : B.place x p) :
    ∀ i ∈ p.read, i.Straight n := by
  cases p with
  | slot k => simpa [read, Instr.Straight, Instr.slot?] using hB.place h
  | cell a t => simp [read, pushAddress, Instr.Straight, Instr.slot?]

theorem scaleCode_straight (k : Nat) : ∀ i ∈ Emit.scaleCode k, i.Straight n := by
  rw [Emit.scaleCode]
  split <;> simp [pushAddress, Instr.Straight, Instr.slot?]

theorem addressCode_straight (base : Ty) {b o : Code} (hb : ∀ i ∈ b, i.Straight n)
    (ho : ∀ i ∈ o, i.Straight n) : ∀ i ∈ addressCode base b o, i.Straight n := by
  have hAdd : ∀ i ∈ [.numeric .i32 .add], Instr.Straight n i := by simp [Instr.Straight, Instr.slot?]
  simp only [addressCode, List.forall_mem_append]
  exact ⟨⟨⟨hb, ho⟩, scaleCode_straight _⟩, hAdd⟩

theorem StepLowers.straight (hB : B.Within n) {op : UnaryOp} {fixity : Fixity} {ty : Ty}
    {x : Ident} {used : Bool} {code : Code} (h : StepLowers B op fixity ty x used code) :
    ∀ i ∈ code, i.Straight n := by
  have hChange : ∀ i ∈ Emit.stepCode op ty.valType, i.Straight n := by
    cases ty.valType <;> simp [Emit.stepCode, pushOne, Instr.Straight, Instr.slot?]
  cases h with
  | @slot k used hPlace =>
    have hk := hB.place hPlace
    simp only [Emit.stepSlot, List.forall_mem_append]
    refine ⟨⟨⟨?_, ?_⟩, hChange⟩, ?_⟩
    · simpa [Instr.Straight, Instr.slot?] using hk
    · split
      · simpa [Instr.Straight, Instr.slot?] using hk
      · simp
    · split <;> simpa [Instr.Straight, Instr.slot?] using hk
  | cell hPlace =>
    simp only [stepCellCode, List.forall_mem_append]
    exact ⟨⟨by simp [pushAddress, Instr.Straight, Instr.slot?], hChange⟩,
      by simp [Instr.Straight, Instr.slot?]⟩
  | @usedCell a k t hPlace hSpare =>
    have hk := hB.spare hSpare
    cases fixity <;>
      simpa [stepCellCode, pushAddress, Instr.Straight, Instr.slot?, or_imp, forall_and, hk]
        using hChange

mutual

theorem ExprLowers.straight (hB : B.Within n) (e : Expr Ty) {code : Code}
    (h : ExprLowers B e code) : ∀ i ∈ code, i.Straight n := by
  cases h with
  | const ty s value => cases value <;> simp [Constant.push, Instr.Straight, Instr.slot?]
  | string hText => simp [pushAddress, Instr.Straight, Instr.slot?]
  | var hPlace => exact Place.read_straight hB hPlace
  | @call ty s callee args code hArgs =>
    refine List.forall_mem_append.mpr ⟨ArgsLower.straight hB args hArgs, ?_⟩
    simp [Instr.Straight, Instr.slot?]
  | @binary ty s op lhs rhs a b opcode hLhs hRhs hOpcode =>
    simp only [List.forall_mem_append]
    refine ⟨⟨ExprLowers.straight hB lhs hLhs, ExprLowers.straight hB rhs hRhs⟩, ?_⟩
    simp [Instr.Straight, Instr.slot?]
  | step hOp hStep => exact hStep.straight hB
  | @row ty t s fixity e code hElement hArray hE => exact ExprLowers.straight hB e hE
  | @not ty s fixity e code hTy hE =>
    refine List.forall_mem_append.mpr ⟨ExprLowers.straight hB e hE, ?_⟩
    simp [Instr.Straight, Instr.slot?]
  | @deref ty t s fixity e code hElement hArray hFloat hE =>
    refine List.forall_mem_append.mpr ⟨ExprLowers.straight hB e hE, ?_⟩
    simp [Instr.Straight, Instr.slot?]
  | @negateInt ty s fixity e code hTy hE =>
    simp only [List.forall_mem_append]
    refine ⟨⟨?_, ExprLowers.straight hB e hE⟩, ?_⟩ <;> simp [Instr.Straight, Instr.slot?]
  | @negateFloat ty s fixity e code hTy hE =>
    refine List.forall_mem_append.mpr ⟨ExprLowers.straight hB e hE, ?_⟩
    simp [Instr.Straight, Instr.slot?]
  | @index ty s base offset b o hFloat hBase hOffset =>
    refine List.forall_mem_append.mpr ⟨addressCode_straight base.info
      (ExprLowers.straight hB base hBase) (ExprLowers.straight hB offset hOffset), ?_⟩
    split <;> simp [Instr.Straight, Instr.slot?]

theorem ArgsLower.straight (hB : B.Within n) (es : List (Expr Ty)) {code : Code}
    (h : ArgsLower B es code) : ∀ i ∈ code, i.Straight n := by
  cases h with
  | nil => simp
  | @cons e es a b hE hEs =>
    exact List.forall_mem_append.mpr ⟨ExprLowers.straight hB e hE, ArgsLower.straight hB es hEs⟩

end

theorem CondLowers.straight (hB : B.Within n) {e? : Option (Expr Ty)} {code : Code}
    (h : CondLowers B e? code) : ∀ i ∈ code, i.Straight n := by
  cases h with
  | none => simp [Instr.Straight, Instr.slot?]
  | some hE => exact hE.straight hB

theorem EffectLowers.straight (hB : B.Within n) {e : Expr Ty} {code : Code}
    (h : EffectLowers B e code) : ∀ i ∈ code, i.Straight n := by
  cases h with
  | step hOp hStep => exact hStep.straight hB
  | plain hE =>
    refine List.forall_mem_append.mpr ⟨hE.straight hB, ?_⟩
    split <;> simp [Instr.Straight, Instr.slot?]

theorem Place.write_straight (hB : B.Within n) {x : String} {p : Place} (h : B.place x p)
    {code : Code} (hCode : ∀ i ∈ code, i.Straight n) : ∀ i ∈ p.write code, i.Straight n := by
  cases p with
  | slot k =>
    refine List.forall_mem_append.mpr ⟨hCode, ?_⟩
    simpa [Instr.Straight, Instr.slot?] using hB.place h
  | cell a t =>
    simp only [write, List.forall_mem_append]
    refine ⟨⟨?_, hCode⟩, ?_⟩ <;> simp [pushAddress, Instr.Straight, Instr.slot?]

theorem bodyLabels_length (wrapped : Bool) (labels : List Label) :
    (Emit.bodyLabels wrapped labels).length =
      if wrapped then labels.length + 2 else labels.length + 1 := by
  cases wrapped <;> rfl

theorem loop_nested {labels : List Label} {wrapped : Bool} {b u c : Code}
    (hBody : Nested n (Emit.bodyLabels wrapped labels).length b)
    (hUpdate : Nested n (labels.length + 1) u) (hCond : Nested n (labels.length + 1) c) :
    Nested n labels.length
      ([Instr.loop] ++ Emit.blockIf wrapped b ++ u ++ c ++ [Instr.brIf 0, .end_]) := by
  rw [bodyLabels_length] at hBody
  exact (Nested.blockIf wrapped hBody).repeatLoop hUpdate hCond

mutual

theorem StmtLowers.nested (hB : B.Within n) (x : Stmt Ty) {labels : List Label} {code : Code}
    {arrays : List (String × Nat)} (h : StmtLowers B labels x code arrays) :
    Nested n labels.length code := by
  cases h with
  | retNone => exact .plain (by simp [Instr.Fits, Instr.slot?])
  | retSome hE =>
    exact (Nested.of_straight (hE.straight hB)).append (.plain (by simp [Instr.Fits, Instr.slot?]))
  | assign hPlace hE => exact .of_straight (Place.write_straight hB hPlace (hE.straight hB))
  | array hArray hDeclared =>
    refine .of_straight ?_
    simpa [pushAddress, Instr.Straight, Instr.slot?] using hB.declared hDeclared
  | scalar hArray hDeclared => exact .nil
  | scalarInit hArray hDeclared hE =>
    refine .of_straight (List.forall_mem_append.mpr ⟨hE.straight hB, ?_⟩)
    simpa [Instr.Straight, Instr.slot?] using hB.declared hDeclared
  | store hFloat hBase hOffset hValue =>
    refine .of_straight ?_
    simp only [List.forall_mem_append]
    refine ⟨⟨addressCode_straight _ (hBase.straight hB) (hOffset.straight hB),
      hValue.straight hB⟩, ?_⟩
    simp [Instr.Straight, Instr.slot?]
  | @branch _ s cond thenBody elseBody c t e as bs hCond hThen hElse =>
    exact (Nested.of_straight (hCond.straight hB)).branch (BodyLowers.nested hB thenBody hThen)
      (BodyLowers.nested hB elseBody hElse) _
  | @whileDo _ s cond body c b c' as hCond hBody hCond' =>
    exact (Nested.of_straight (hCond.straight hB)).guarded
      (loop_nested (BodyLowers.nested hB body hBody) .nil (.of_straight (hCond'.straight hB)))
  | @doWhile _ s cond body b c as hBody hCond =>
    refine .blockIf _ ?_
    have hLoop := loop_nested (BodyLowers.nested hB body hBody) .nil
      (.of_straight (hCond.straight hB))
    cases hBreak : Stmt.jumpsAny .break_ body with
    | false =>
      rw [hBreak] at hLoop
      exact hLoop
    | true =>
      rw [hBreak] at hLoop
      exact hLoop
  | @forLoop _ s init update cond body i c b u c' as bs cs hInit hCond hBody hUpdate hCond' =>
    exact (OptionLowers.nested hB init hInit).append
      ((Nested.of_straight (hCond.straight hB)).guarded (loop_nested
        (BodyLowers.nested hB body hBody) (OptionLowers.nested hB update hUpdate)
        (.of_straight (hCond'.straight hB))))
  | @jump _ s j depth hDepth =>
    exact .plain (List.findIdx?_eq_some_iff_getElem.mp hDepth).1
  | expr hE => exact .of_straight (hE.straight hB)

theorem BodyLowers.nested (hB : B.Within n) (xs : List (Stmt Ty)) {labels : List Label}
    {code : Code} {arrays : List (String × Nat)} (h : BodyLowers B labels xs code arrays) :
    Nested n labels.length code := by
  cases h with
  | nil => exact .nil
  | @cons _ x xs a b as bs hX hXs =>
    exact (StmtLowers.nested hB x hX).append (BodyLowers.nested hB xs hXs)

theorem OptionLowers.nested (hB : B.Within n) (x? : Option (Stmt Ty)) {labels : List Label}
    {code : Code} {arrays : List (String × Nat)} (h : OptionLowers B labels x? code arrays) :
    Nested n labels.length code := by
  cases h with
  | none => exact .nil
  | @some _ x code as hX => exact StmtLowers.nested hB x hX

end

end

end MiniC
