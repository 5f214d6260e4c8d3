import MiniC.Proofs.Layout

/-! # What lowering can produce

The code of a tree, said without frames: a name stands for one of the places that it may have, and a
value of a global that is used while the global is stepped goes through one of the spare slots.  Every
successful run of the lowering produces such code; what is proved about the code of a program rests
on these rules alone.
-/
namespace MiniC
set_option autoImplicit false

open Wasm (Code Instr ValType)

/-- What lowering a function finds out about names, literals and slots. -/
structure Bindings where
  place : String → Place → Prop
  text : Nat → Nat → Prop
  spare : ValType → Nat → Prop
  declared : String → Ty → Nat → Prop

namespace Place

def read : Place → Code
  | slot n => [.localGet n]
  | cell address ty => [pushAddress address, .load ty]

/-- Assigns the value of `code`. -/
def write (code : Code) : Place → Code
  | slot n => code ++ [Instr.localSet n]
  | cell address ty => [pushAddress address] ++ code ++ [Instr.store ty]

end Place

/-- The code that steps a global of the given type, with a spare slot if the value is used. -/
def stepCellCode (address : Nat) (ty : ValType) (change : Code) (fixity : Fixity)
    (spare : Option Nat) : Code :=
  let load := [pushAddress address, pushAddress address, .load ty]
  match spare, fixity with
  | none, _ => load ++ change ++ [Instr.store ty]
  | some n, .after => load ++ (.localTee n :: change) ++ [Instr.store ty, .localGet n]
  | some n, .before => load ++ (change ++ [Instr.localTee n]) ++ [Instr.store ty, .localGet n]

section

variable (B : Bindings)

/-- The code of a step up or down of a variable. -/
inductive StepLowers (op : UnaryOp) (fixity : Fixity) (ty : Ty) (x : Ident) : Bool → Code → Prop
  | slot {n : Nat} {used : Bool} : B.place x.name (.slot n) →
      StepLowers op fixity ty x used (Emit.stepSlot n (Emit.stepCode op ty.valType) fixity used)
  | cell {address : Nat} {t : ValType} : B.place x.name (.cell address t) →
      StepLowers op fixity ty x false
        (stepCellCode address t (Emit.stepCode op ty.valType) fixity none)
  | usedCell {address n : Nat} {t : ValType} : B.place x.name (.cell address t) → B.spare t n →
      StepLowers op fixity ty x true
        (stepCellCode address t (Emit.stepCode op ty.valType) fixity (some n))

/-- The code for the address of an element. -/
def addressCode (base : Ty) (b o : Code) : Code :=
  b ++ o ++ Emit.scaleCode (Emit.stride base) ++ [Instr.numeric .i32 .add]

mutual

inductive ExprLowers : Expr Ty → Code → Prop
  | const (ty : Ty) (s : Span) (value : Constant) : ExprLowers (.const ty s value) [value.push]
  | string {ty : Ty} {s : Span} {text : String} {address : Nat} : B.text s.lo address →
      ExprLowers (.string ty s text) [pushAddress address]
  | var {ty : Ty} {s : Span} {x : Ident} {p : Place} : B.place x.name p →
      ExprLowers (.var ty s x) p.read
  | call {ty : Ty} {s : Span} {callee : Ident} {args : List (Expr Ty)} {code : Code} :
      ArgsLower args code → ExprLowers (.call ty s callee args) (code ++ [Instr.call callee.name])
  | binary {ty : Ty} {s : Span} {op : BinaryOp} {lhs rhs : Expr Ty} {a b : Code}
      {opcode : Wasm.Opcode} : ExprLowers lhs a → ExprLowers rhs b →
      op.opcode? lhs.info.valType = some opcode →
      ExprLowers (.binary ty s op lhs rhs) (a ++ b ++ [Instr.numeric lhs.info.valType opcode])
  | step {ty t : Ty} {s s' : Span} {op : UnaryOp} {fixity : Fixity} {x : Ident} {code : Code} :
      op = .increment ∨ op = .decrement → StepLowers B op fixity t x true code →
      ExprLowers (.unary ty s op fixity (.var t s' x)) code
  | not {ty : Ty} {s : Span} {fixity : Fixity} {e : Expr Ty} {code : Code} :
      e.info.valType = .i32 → ExprLowers e code →
      ExprLowers (.unary ty s .not fixity e) (code ++ [Instr.numeric .i32 .eqz])
  | row {ty t : Ty} {s : Span} {fixity : Fixity} {e : Expr Ty} {code : Code} :
      e.info.element? = some t → t.isArray = true → ExprLowers e code →
      ExprLowers (.unary ty s .deref fixity e) code
  | deref {ty t : Ty} {s : Span} {fixity : Fixity} {e : Expr Ty} {code : Code} :
      e.info.element? = some t → t.isArray = false → t ≠ .float → ExprLowers e code →
      ExprLowers (.unary ty s .deref fixity e) (code ++ [Instr.load8S])
  | negateInt {ty : Ty} {s : Span} {fixity : Fixity} {e : Expr Ty} {code : Code} :
      e.info.valType = .i32 → ExprLowers e code →
      ExprLowers (.unary ty s .negate fixity e)
        ([Instr.i32Const 0] ++ code ++ [Instr.numeric .i32 .sub])
  | negateFloat {ty : Ty} {s : Span} {fixity : Fixity} {e : Expr Ty} {code : Code} :
      e.info.valType = .f32 → ExprLowers e code →
      ExprLowers (.unary ty s .negate fixity e) (code ++ [Instr.numeric .f32 .neg])
  | index {ty : Ty} {s : Span} {base offset : Expr Ty} {b o : Code} :
      base.info.element? ≠ some .float → ExprLowers base b → ExprLowers offset o →
      ExprLowers (.index ty s base offset)
        (addressCode base.info b o ++ if ty.isArray then [] else [Instr.load8S])

inductive ArgsLower : List (Expr Ty) → Code → Prop
  | nil : ArgsLower [] []
  | cons {e : Expr Ty} {es : List (Expr Ty)} {a b : Code} : ExprLowers e a → ArgsLower es b →
      ArgsLower (e :: es) (a ++ b)

end

/-- The code of a condition; a missing one always holds. -/
inductive CondLowers : Option (Expr Ty) → Code → Prop
  | none : CondLowers none [.i32Const 1]
  | some {e : Expr Ty} {code : Code} : ExprLowers B e code → CondLowers (some e) code

/-- The code of an expression that stands for its effect. -/
inductive EffectLowers : Expr Ty → Code → Prop
  | step {ty t : Ty} {s s' : Span} {op : UnaryOp} {fixity : Fixity} {x : Ident} {code : Code} :
      op = .increment ∨ op = .decrement → StepLowers B op fixity t x false code →
      EffectLowers (.unary ty s op fixity (.var t s' x)) code
  | plain {e : Expr Ty} {code : Code} : ExprLowers B e code →
      EffectLowers e (code ++ if e.info = .void then [] else [Instr.drop])

mutual

/-- The code of a statement under the given labels, and where the statement's arrays are. -/
inductive StmtLowers : List Label → Stmt Ty → Code → List (String × Nat) → Prop
  | retNone {labels : List Label} {s : Span} : StmtLowers labels (.ret s none) [.return_] []
  | retSome {labels : List Label} {s : Span} {e : Expr Ty} {code : Code} : ExprLowers B e code →
      StmtLowers labels (.ret s (some e)) (code ++ [Instr.return_]) []
  | assign {labels : List Label} {s : Span} {x : Ident} {e : Expr Ty} {code : Code} {p : Place} :
      B.place x.name p → ExprLowers B e code →
      StmtLowers labels (.assign s x e) (p.write code) []
  | array {labels : List Label} {s : Span} {x : Ident} {ty : Ty} {n address : Nat} :
      ty.isArray = true → B.declared x.name ty n →
      StmtLowers labels (.declare s x ty none) [pushAddress address, .localSet n]
        [(x.name, address)]
  | scalar {labels : List Label} {s : Span} {x : Ident} {ty : Ty} {n : Nat} :
      ty.isArray = false → B.declared x.name ty n →
      StmtLowers labels (.declare s x ty none) [] []
  | scalarInit {labels : List Label} {s : Span} {x : Ident} {ty : Ty} {n : Nat} {e : Expr Ty}
      {code : Code} : ty.isArray = false → B.declared x.name ty n → ExprLowers B e code →
      StmtLowers labels (.declare s x ty (some e)) (code ++ [Instr.localSet n]) []
  | store {labels : List Label} {s : Span} {base offset value : Expr Ty} {b o v : Code} :
      base.info.element? ≠ some .float → ExprLowers B base b → ExprLowers B offset o →
      ExprLowers B value v →
      StmtLowers labels (.store s base offset value)
        (addressCode base.info b o ++ v ++ [Instr.store8]) []
  | branch {labels : List Label} {s : Span} {cond : Expr Ty} {thenBody elseBody : List (Stmt Ty)}
      {c t e : Code} {as bs : List (String × Nat)} : ExprLowers B cond c →
      BodyLowers (none :: labels) thenBody t as → BodyLowers (none :: labels) elseBody e bs →
      StmtLowers labels (.branch s cond thenBody elseBody)
        (c ++ [Instr.if_] ++ t ++ (if elseBody.isEmpty then [] else [Instr.else_] ++ e) ++
          [Instr.end_]) (as ++ bs)
  | whileDo {labels : List Label} {s : Span} {cond : Expr Ty} {body : List (Stmt Ty)}
      {c b c' : Code} {as : List (String × Nat)} : ExprLowers B cond c →
      BodyLowers (Emit.bodyLabels (Stmt.jumpsAny .continue_ body) (some .break_ :: labels)) body b
        as → ExprLowers B cond c' →
      StmtLowers labels (.loop s .whileDo cond body)
        (c ++ [Instr.if_] ++ ([Instr.loop] ++ Emit.blockIf (Stmt.jumpsAny .continue_ body) b ++ [] ++
          c' ++ [Instr.brIf 0, .end_]) ++ [Instr.end_]) as
  | doWhile {labels : List Label} {s : Span} {cond : Expr Ty} {body : List (Stmt Ty)}
      {b c : Code} {as : List (String × Nat)} :
      BodyLowers (Emit.bodyLabels (Stmt.jumpsAny .continue_ body)
        (if Stmt.jumpsAny .break_ body then some .break_ :: labels else labels)) body b as →
      ExprLowers B cond c →
      StmtLowers labels (.loop s .doWhile cond body)
        (Emit.blockIf (Stmt.jumpsAny .break_ body)
          ([Instr.loop] ++ Emit.blockIf (Stmt.jumpsAny .continue_ body) b ++ [] ++ c ++
            [Instr.brIf 0, .end_])) as
  | forLoop {labels : List Label} {s : Span} {init update : Option (Stmt Ty)}
      {cond : Option (Expr Ty)} {body : List (Stmt Ty)} {i c b u c' : Code}
      {as bs cs : List (String × Nat)} : OptionLowers labels init i as → CondLowers B cond c →
      BodyLowers (Emit.bodyLabels (Stmt.jumpsAny .continue_ body) (some .break_ :: labels)) body b
        bs → OptionLowers (none :: some .break_ :: labels) update u cs → CondLowers B cond c' →
      StmtLowers labels (.forLoop s init cond update body)
        (i ++ (c ++ [Instr.if_] ++ ([Instr.loop] ++ Emit.blockIf (Stmt.jumpsAny .continue_ body) b ++
          u ++ c' ++ [Instr.brIf 0, .end_]) ++ [Instr.end_])) (as ++ bs ++ cs)
  | jump {labels : List Label} {s : Span} {j : Jump} {depth : Nat} :
      labels.findIdx? (fun l => decide (l = some j)) = some depth →
      StmtLowers labels (.jump s j) [.br depth] []
  | expr {labels : List Label} {s : Span} {e : Expr Ty} {code : Code} : EffectLowers B e code →
      StmtLowers labels (.expr s e) code []

inductive BodyLowers : List Label → List (Stmt Ty) → Code → List (String × Nat) → Prop
  | nil {labels : List Label} : BodyLowers labels [] [] []
  | cons {labels : List Label} {x : Stmt Ty} {xs : List (Stmt Ty)} {a b : Code}
      {as bs : List (String × Nat)} : StmtLowers labels x a as → BodyLowers labels xs b bs →
      BodyLowers labels (x :: xs) (a ++ b) (as ++ bs)

inductive OptionLowers : List Label → Option (Stmt Ty) → Code → List (String × Nat) → Prop
  | none {labels : List Label} : OptionLowers labels none [] []
  | some {labels : List Label} {x : Stmt Ty} {a : Code} {as : List (String × Nat)} :
      StmtLowers labels x a as → OptionLowers labels (some x) a as

end

end

end MiniC
