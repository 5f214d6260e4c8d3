import MiniC.Proofs.Declarations
import MiniC.Proofs.Frames
import MiniC.Typing.Program

/-! # Where names are looked up

A name is looked up by the check and each time that the code of its place in the source is made.  The
check visits the update of a `for` loop before the body, lowering after it; and lowering visits the
condition of a loop once more at its end.  The visits of a program are found by running both stages.
The uses follow the same orders, but only keep account of the declarations that have been met.
-/
namespace MiniC
set_option autoImplicit false

variable {α β ε σ : Type}

namespace Expr

mutual

/-- The variables of an expression. -/
def idents : Expr α → List Ident
  | var _ _ x => [x]
  | call _ _ _ args => identsAll args
  | binary _ _ _ lhs rhs => lhs.idents ++ rhs.idents
  | unary _ _ _ _ operand => operand.idents
  | index _ _ base offset => base.idents ++ offset.idents
  | const .. | string .. => []

def identsAll : List (Expr α) → List Ident
  | [] => []
  | e :: es => e.idents ++ identsAll es

end

def identsOption : Option (Expr α) → List Ident
  | none => []
  | some e => e.idents

end Expr

/-- A name is looked up: by the check in `scope`, by lowering in `frame`. -/
structure Visit where
  ident : Ident
  scope : Scope
  globals : Globals
  frame : Frame

namespace Visit

def place? (v : Visit) : Option Place := v.frame.place? v.globals v.ident.name

/-- The place that is found is for values of the machine type that the check has found. -/
def Agrees (v : Visit) : Prop :=
  ∀ ty ∈ List.lookup v.ident.name v.scope, ∀ p ∈ v.place?, p.HasType v.frame.slots ty.valType

instance (v : Visit) : Decidable v.Agrees := inferInstanceAs (Decidable (∀ _ ∈ _, _))

end Visit

def onChecked (r : Checked α) (k : α → List β) : List β :=
  match r with
  | .ok a => k a
  | .error _ => []

def onOk (r : EStateM.Result ε σ α) (k : σ → List β) : List β :=
  match r with
  | .ok _ s => k s
  | .error _ _ => []

namespace Stmt

variable (ctx : FunctionContext) (globals : Globals)

/-- Names do not change while an expression is lowered. -/
def visit (xs : List Ident) (scope : Scope) (s : Frame) : List Visit :=
  xs.map fun x => ⟨x, scope, globals, s⟩

mutual

def visits (labels : List Label) (scope : Scope) (s : Frame) : Stmt Unit → List Visit
  | ret _ value => visit globals (Expr.identsOption value) scope s
  | assign _ target value => visit globals (target :: value.idents) scope s
  | declare _ x ty init =>
    if ty.isArray then []
    else
      onOk (Emit.declare x ty s) fun s₁ =>
      visit globals (Expr.identsOption init) (scope.declare x ty) s₁
  | store _ base offset value =>
    visit globals (base.idents ++ offset.idents ++ value.idents) scope s
  | branch _ cond thenBody elseBody =>
    onChecked (cond.checkCondition ctx.signatures scope) fun cond' =>
    onChecked (checkAll ctx scope thenBody) fun (thenBody', scope₁) =>
    visit globals cond.idents scope s ++ onOk (cond'.emit globals s) fun s₁ =>
    visitsAll (none :: labels) scope s₁ thenBody ++
      onOk (emitAll globals (none :: labels) thenBody' s₁) fun s₂ =>
    visitsAll (none :: labels) scope₁ s₂ elseBody
  | loop _ .whileDo cond body =>
    onChecked (cond.checkCondition ctx.signatures scope) fun cond' =>
    onChecked (checkAll ctx scope body) fun (body', _) =>
    let inner := Emit.bodyLabels (jumpsAny .continue_ body') (some .break_ :: labels)
    visit globals cond.idents scope s ++ onOk (cond'.emit globals s) fun s₁ =>
    visitsAll inner scope s₁ body ++ onOk (emitAll globals inner body' s₁) fun s₂ =>
    visit globals cond.idents scope s₂
  | loop _ .doWhile cond body =>
    onChecked (checkAll ctx scope body) fun (body', _) =>
    let inner := Emit.bodyLabels (jumpsAny .continue_ body')
      (if jumpsAny .break_ body' then some .break_ :: labels else labels)
    visitsAll inner scope s body ++ onOk (emitAll globals inner body' s) fun s₁ =>
    visit globals cond.idents scope s₁
  | forLoop _ init cond update body =>
    onChecked (checkOption ctx scope init) fun (init', scope₁) =>
    onChecked (Expr.checkOptionCondition ctx.signatures scope₁ cond) fun cond' =>
    onChecked (checkOption ctx scope₁ update) fun (update', scope₂) =>
    onChecked (checkAll ctx scope₂ body) fun (body', _) =>
    let inner := Emit.bodyLabels (jumpsAny .continue_ body') (some .break_ :: labels)
    visitsOption labels scope s init ++ onOk (emitOption globals labels init' s) fun s₁ =>
    visit globals (Expr.identsOption cond) scope₁ s₁ ++
      onOk (Emit.condition globals cond' s₁) fun s₂ =>
    visitsAll inner scope₂ s₂ body ++ onOk (emitAll globals inner body' s₂) fun s₃ =>
    visitsOption (none :: some .break_ :: labels) scope₁ s₃ update ++
      onOk (emitOption globals (none :: some .break_ :: labels) update' s₃) fun s₄ =>
    visit globals (Expr.identsOption cond) scope₁ s₄
  | jump .. => []
  | expr _ value => visit globals value.idents scope s

def visitsAll (labels : List Label) (scope : Scope) (s : Frame) : List (Stmt Unit) → List Visit
  | [] => []
  | x :: xs =>
    onChecked (x.check ctx scope) fun (x', scope₁) =>
    visits labels scope s x ++ onOk (x'.emit globals labels s) fun s₁ =>
    visitsAll labels scope₁ s₁ xs

def visitsOption (labels : List Label) (scope : Scope) (s : Frame) : Option (Stmt Unit) → List Visit
  | none => []
  | some x => visits labels scope s x

end

end Stmt

/-- The names that a function looks up when it is checked in `scope` and added to a module. -/
def Function.visits (sigs : Signatures) (scope : Scope) (b : Builder) (f : Function Unit) :
    List Visit :=
  onOk (f.params.forM (fun p => discard (Emit.declare p.name p.ty)) ⟨b.memory, [], []⟩) fun s =>
  Stmt.visitsAll ⟨sigs, f.name.name, f.returnTy⟩ b.globals []
    (f.params.foldl (fun scope p => scope.declare p.name p.ty) scope) s f.body

def Item.visitsAll (sigs : Signatures) (scope : Scope) (b : Builder) : List (Item Unit) → List Visit
  | [] => []
  | .global g :: items =>
    onChecked (g.check sigs scope) fun g' =>
    onOk (Builder.addGlobal g' b) fun b₁ =>
    visitsAll sigs (scope.declare g'.name g'.ty) b₁ items
  | .function f :: items =>
    onChecked (f.check sigs scope) fun f' =>
    f.visits sigs scope b ++ onOk (Builder.addFunction f' b) fun b₁ =>
    visitsAll sigs scope b₁ items

/-- All visits while a program is compiled, up to the first error. -/
def Program.visits (p : Program Unit) : List Visit :=
  onChecked (Signatures.ofFunctions p.functions) fun sigs => Item.visitsAll sigs [] .empty p.items

/-- A name is used when the check has met the declarations `checked` and lowering the declarations
`lowered`. -/
structure Use where
  ident : Ident
  checked : Scope
  lowered : Scope

namespace Use

/-- If both stages find a declaration, they are of one machine type. -/
def Agrees (u : Use) : Prop :=
  ∀ ty ∈ List.lookup u.ident.name u.checked, ∀ ty' ∈ List.lookup u.ident.name u.lowered,
    ty'.valType = ty.valType

instance (u : Use) : Decidable u.Agrees := inferInstanceAs (Decidable (∀ _ ∈ _, _))

/-- Lowering finds a declaration. -/
def Bound (u : Use) : Prop := u.ident.name ∈ u.lowered.map Prod.fst

instance (u : Use) : Decidable u.Bound := inferInstanceAs (Decidable (_ ∈ _))

end Use

/-- The two stages that look up names. -/
inductive Stage where
  | check | lower

namespace Stmt

mutual

/-- The declarations that a stage has met after a statement, if it has met those of `scope` before. -/
def after (stage : Stage) (scope : Scope) : Stmt α → Scope
  | declare _ x ty _ => scope.declare x ty
  | branch _ _ thenBody elseBody => afterAll stage (afterAll stage scope thenBody) elseBody
  | loop _ _ _ body => afterAll stage scope body
  | forLoop _ init _ update body =>
    let scope := afterOption stage scope init
    match stage with
    | .check => afterAll stage (afterOption stage scope update) body
    | .lower => afterOption stage (afterAll stage scope body) update
  | _ => scope

def afterAll (stage : Stage) (scope : Scope) : List (Stmt α) → Scope
  | [] => scope
  | x :: xs => afterAll stage (after stage scope x) xs

def afterOption (stage : Stage) (scope : Scope) : Option (Stmt α) → Scope
  | none => scope
  | some x => after stage scope x

end

def use (xs : List Ident) (c l : Scope) : List Use := xs.map fun x => ⟨x, c, l⟩

mutual

def uses (c l : Scope) : Stmt α → List Use
  | ret _ value => use (Expr.identsOption value) c l
  | assign _ target value => use (target :: value.idents) c l
  | declare _ x ty init =>
    if ty.isArray then []
    else use (Expr.identsOption init) (c.declare x ty) (l.declare x ty)
  | store _ base offset value => use (base.idents ++ offset.idents ++ value.idents) c l
  | branch _ cond thenBody elseBody =>
    use cond.idents c l ++ (usesAll c l thenBody ++
      usesAll (afterAll .check c thenBody) (afterAll .lower l thenBody) elseBody)
  | loop _ .whileDo cond body =>
    use cond.idents c l ++ (usesAll c l body ++ use cond.idents c (afterAll .lower l body))
  | loop _ .doWhile cond body =>
    usesAll c l body ++ use cond.idents c (afterAll .lower l body)
  | forLoop _ init cond update body =>
    let c₁ := afterOption .check c init
    let c₂ := afterOption .check c₁ update
    let l₁ := afterOption .lower l init
    let l₂ := afterAll .lower l₁ body
    usesOption c l init ++ (use (Expr.identsOption cond) c₁ l₁ ++ (usesAll c₂ l₁ body ++
      (usesOption c₁ l₂ update ++ use (Expr.identsOption cond) c₁ (afterOption .lower l₂ update))))
  | jump .. => []
  | expr _ value => use value.idents c l

def usesAll (c l : Scope) : List (Stmt α) → List Use
  | [] => []
  | x :: xs => uses c l x ++ usesAll (after .check c x) (after .lower l x) xs

def usesOption (c l : Scope) : Option (Stmt α) → List Use
  | none => []
  | some x => uses c l x

end

end Stmt

/-- The uses in a function after the given globals. -/
def Function.uses (globals : Scope) (f : Function α) : List Use :=
  let scope := f.parameters.reverse ++ globals
  Stmt.usesAll scope scope f.body

def Item.usesAll (globals : Scope) : List (Item α) → List Use
  | [] => []
  | .global g :: items => usesAll (globals.declare g.name g.ty) items
  | .function f :: items => f.uses globals ++ usesAll globals items

/-- All uses in a program. -/
def Program.uses (p : Program α) : List Use := Item.usesAll [] p.items

end MiniC
