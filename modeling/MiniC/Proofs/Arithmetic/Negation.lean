import MiniC.Proofs.Arithmetic.Exact
import MiniC.Proofs.Grammar.Completeness.Expr
import MiniC.Proofs.Lowering.Expr
import MiniC.Proofs.Operators
import MiniC.Proofs.Preservation.Expr

/-! # Negated operations on a literal

What follows a minus sign is negated as a whole, so `-N op x` is `-(N op x)`.  The number above the
greatest integer may be written after a minus sign, and is then read as the least integer, which has
the same 32 bits.  Where an operator tells the two apart, the operation is not the one that is
written.
-/
namespace MiniC
set_option autoImplicit false

open Grammar (Expression Mark Name Terminal)
open Wasm (Code Instr Runtime State)

namespace BinaryOp

theorem type_int (op : BinaryOp) : op.type .int .int = .ok .int := by
  cases op <;> rfl

end BinaryOp

/-- The variable in this place has the given value. -/
def Place.Holds (p : Place) (σ : State) (v : Value) : Prop :=
  match p with
  | .slot n => σ.locals[n]? = some v
  | .cell address ty => World.load ty (wordOf address) σ.world = .ok v σ.world

theorem Place.Holds.exec_read {p : Place} {σ : State} {v : Value} (h : p.Holds σ v) (R : Runtime) :
    Code.exec R p.read σ = .ok () { σ with stack := v :: σ.stack } := by
  cases p with
  | slot n => exact Code.exec_localGet h
  | cell address ty =>
    rw [Place.read, ← List.singleton_append (x := pushAddress address),
      Code.exec_append (.plain rfl) (.plain rfl),
      Action.bind_of_ok (Code.exec_pushAddress R address σ)]
    refine Code.exec_ok (r := some v) [.i32 (wordOf address)] rfl ?_ rfl
    exact Action.map_eq_ok_iff.mpr ⟨v, h, rfl⟩

namespace Grammar

/-- The derivation of `-N op x`. -/
theorem exists_negated (minus : Mark .minus) {literal : Terminal .number}
    (hLiteral : digitsValue literal.1.text ≤ 0x80000000) {op : BinaryOp} (sign : Terminal op.kind)
    (x : Name) :
    ∃ d : Expression, d.tokens = [minus.1, literal.1, sign.1, x.1] ∧
      ∃ s s', d.tree = .unary () s .negate .before (.binary () s' op
        (.const () literal.1.span (.int (.ofNat (digitsValue literal.1.text))))
        (Parser.variableOf (Parser.identOf x.1))) := by
  rcases Nat.lt_or_eq_of_le hLiteral with hLess | hLeast
  · exact ⟨.before .negate minus (.chain (.number ⟨literal.1, literal.2, hLess⟩)
      (.operator op sign (.chain (.name x) .none))), rfl, _, _, rfl⟩
  · rw [hLeast]
    exact ⟨.least minus ⟨literal.1, literal.2, hLeast⟩
      (.operator op sign (.chain (.name x) .none)), rfl, _, _, rfl⟩

end Grammar

/-- The code of `-(a op x)`, where the variable is in the place `p`. -/
def negatedCode (a : Int32) (p : Place) (opcode : Wasm.Opcode) : Code :=
  [.i32Const 0] ++ ([.i32Const a] ++ p.read ++ [.numeric .i32 opcode]) ++ [.numeric .i32 .sub]

/-- The instruction of an operator traps where the exact operation has no 32 bits, and leaves the
bits of its result otherwise. -/
theorem exec_opcode {op : BinaryOp} {opcode : Wasm.Opcode} (hOpcode : op.opcode? .i32 = some opcode)
    (R : Runtime) (a d : Int32) (σ : State) :
    Code.exec R [.numeric .i32 opcode] { σ with stack := .i32 d :: .i32 a :: σ.stack } =
      if op.Traps a d then .error (.halt .trap) σ
      else .ok () { σ with stack := .i32 (.ofInt (op.exact a.toInt d.toInt)) :: σ.stack } := by
  have hArity : (Instr.numeric .i32 opcode).arity? R = some [Value.i32 a, Value.i32 d].length :=
    Instr.arity?_numeric (BinaryOp.opcode_type op.type_int hOpcode)
  have hAct : (Instr.numeric .i32 opcode).act R [.i32 a, .i32 d] = some <$> op.evalInt a d := by
    rw [BinaryOp.evalInt_eq hOpcode]
    rfl
  let τ : State := { σ with stack := .i32 d :: .i32 a :: σ.stack }
  by_cases hTraps : op.Traps a d
  · have hRun : (Instr.numeric .i32 opcode).act R [.i32 a, .i32 d] τ.world =
        .error .trap τ.world := by
      rw [hAct, BinaryOp.evalInt_exact, if_pos hTraps]
      rfl
    rw [if_pos hTraps]
    exact Code.exec_error _ hArity hRun rfl
  · have hRun : (Instr.numeric .i32 opcode).act R [.i32 a, .i32 d] τ.world =
        .ok (some (.i32 (.ofInt (op.exact a.toInt d.toInt)))) τ.world := by
      rw [hAct, BinaryOp.evalInt_exact, if_neg hTraps]
      rfl
    rw [if_neg hTraps]
    exact Code.exec_ok _ hArity hRun rfl

/-- Zero less a number. -/
theorem Wasm.Code.exec_zero_sub (R : Runtime) (a : Int32) (σ : State) :
    Code.exec R [.numeric .i32 .sub] { σ with stack := .i32 a :: .i32 0 :: σ.stack } =
      .ok () { σ with stack := .i32 (-a) :: σ.stack } := by
  rw [← Int32.zero_sub]
  exact Code.exec_pure (r := some (.i32 (0 - a))) [.i32 0, .i32 a] rfl rfl rfl

theorem exec_negatedCode {op : BinaryOp} {opcode : Wasm.Opcode}
    (hOpcode : op.opcode? .i32 = some opcode) (a : Int32) {p : Place} {σ : State} {d : Int32}
    (h : p.Holds σ (.i32 d)) (R : Runtime) :
    Code.exec R (negatedCode a p opcode) σ =
      if op.Traps a d then .error (.halt .trap) { σ with stack := .i32 0 :: σ.stack }
      else .ok ()
        { σ with stack := .i32 (-.ofInt (op.exact a.toInt d.toInt)) :: σ.stack } := by
  have hRead : p.Holds { σ with stack := .i32 a :: .i32 0 :: σ.stack } (.i32 d) := by
    cases p <;> exact h
  have hBalanced : Wasm.Balanced ([Instr.i32Const a] ++ p.read ++ [.numeric .i32 opcode]) :=
    ((Wasm.Balanced.plain rfl).append p.read_balanced).append (.plain rfl)
  rw [negatedCode, Code.exec_append ((Wasm.Balanced.plain rfl).append hBalanced) (.plain rfl),
    Code.exec_append (.plain rfl) hBalanced,
    Code.exec_append ((Wasm.Balanced.plain rfl).append p.read_balanced) (.plain rfl),
    Code.exec_append (.plain rfl) p.read_balanced]
  simp only [bind_assoc]
  rw [Action.bind_of_ok (Code.exec_i32Const R 0 σ), Action.bind_of_ok (Code.exec_i32Const R a _),
    Action.bind_of_ok (hRead.exec_read R)]
  have hStep := exec_opcode hOpcode R a d { σ with stack := .i32 0 :: σ.stack }
  by_cases hTraps : op.Traps a d
  · rw [if_pos hTraps] at hStep ⊢
    exact Action.bind_of_error hStep
  · rw [if_neg hTraps] at hStep ⊢
    exact (Action.bind_of_ok hStep).trans (Code.exec_zero_sub R _ σ)

theorem Expr.emit_negated {op : BinaryOp} {opcode : Wasm.Opcode}
    (hOpcode : op.opcode? .i32 = some opcode) {s₁ s₂ s₃ s₄ : Span} {a : Int32} {x : Ident}
    {globals : Globals} {s : Frame} {p : Place} (hPlace : s.place? globals x.name = some p) :
    (Expr.unary .int s₁ .negate .before (.binary .int s₂ op (.const .int s₃ (.int a))
      (.var .int s₄ x))).emit globals s = .ok (negatedCode a p opcode) s := by
  have hRead : Emit.readVariable globals x s = .ok p.read s :=
    Emit.readVariable_eq_ok_iff.mpr ⟨p, hPlace, rfl, rfl⟩
  have hBinary :
      (Expr.binary .int s₂ op (.const .int s₃ (.int a)) (.var .int s₄ x)).emit globals s =
        .ok ([.i32Const a] ++ p.read ++ [.numeric .i32 opcode]) s := by
    simp only [Expr.emit, Action.bind_eq_ok_iff]
    have hTy : op.opcode? (Expr.const Ty.int s₃ (.int a)).info.valType = some opcode := hOpcode
    refine ⟨[.i32Const a], s, rfl, p.read, s, hRead, ?_⟩
    rw [hTy]
    rfl
  rw [Expr.emit]
  exact Action.bind_eq_ok_iff.mpr ⟨_, s, hBinary, rfl⟩

/-- Wherever `-N op x` stands in a source, with an integer variable `x`, it is read, checked and
lowered.  When the code is run it traps if there is no quotient, or a too large one.  Otherwise it
leaves the 32 bits of `-(N op d)` for the value `d` of `x`, if `N` is one of the integers; if it is
the number above them, the code does so only for some operators and values. -/
theorem exec_negated_literal (minus : Mark .minus) {literal : Terminal .number}
    (hLiteral : digitsValue literal.1.text ≤ 0x80000000) {op : BinaryOp} (sign : Terminal op.kind)
    (x : Name) {rest : List Token} {eof : Token}
    (hFollow : (rest.headD eof).kind.closesExpr = true) (prev : Span) (sigs : Signatures)
    {scope : Scope} (hType : List.lookup (Parser.identOf x.1).name scope = some .int) :
    ∃ e t, Parser.expr ⟨[minus.1, literal.1, sign.1, x.1] ++ rest, eof, prev⟩ =
        .ok (e, ⟨rest, eof, x.1.span⟩) ∧
      e.check sigs scope = .ok t ∧ t.info = .int ∧
      ∀ (globals : Globals) (s : Frame) (p : Place),
        s.place? globals (Parser.identOf x.1).name = some p →
        ∃ code, t.emit globals s = .ok code s ∧
          ∀ (R : Runtime) (σ : State) (d : Int32), p.Holds σ (.i32 d) →
            if op.Traps (.ofNat (digitsValue literal.1.text)) d then
              ∃ σ', Code.exec R code σ = .error (.halt .trap) σ'
            else ∃ v, Code.exec R code σ = .ok () { σ with stack := .i32 v :: σ.stack } ∧
              (v = .ofInt (-op.exact (digitsValue literal.1.text) d.toInt) ↔
                digitsValue literal.1.text < 0x80000000 ∨ op.SameAtLeast d) := by
  obtain ⟨d, hTokens, s₁, s₂, hTree⟩ := Grammar.exists_negated minus hLiteral sign x
  have hParse := Parser.expr_parses d rest eof prev hFollow
  rw [hTokens] at hParse
  obtain ⟨opcode, hOpcode⟩ := BinaryOp.exists_opcode op.type_int
  refine ⟨d.tree, .unary .int s₁ .negate .before (.binary .int s₂ op
    (.const .int literal.1.span (.int (.ofNat (digitsValue literal.1.text))))
    (.var .int x.1.span (Parser.identOf x.1))), hParse, ?_, rfl, ?_⟩
  · simp only [hTree, Expr.check, Parser.variableOf, Checked.bind_eq_ok_iff,
      Checked.pure_eq_ok_iff, Scope.lookup_eq_ok_iff]
    have hOp : Checked.locate s₂ (op.type .int .int) = .ok .int := by
      rw [op.type_int]
      rfl
    exact ⟨_, ⟨_, rfl, _, ⟨_, hType, rfl⟩, _, hOp, rfl⟩, _, rfl, rfl⟩
  intro globals s p hPlace
  refine ⟨_, Expr.emit_negated hOpcode hPlace, fun R σ d hHolds => ?_⟩
  rw [exec_negatedCode hOpcode _ hHolds R]
  split
  · exact ⟨_, rfl⟩
  · next hTraps => exact ⟨_, rfl, BinaryOp.neg_exact_eq_iff hLiteral hTraps⟩

namespace Halving

def minus : Mark .minus := ⟨⟨.symbol .minus, ⟨0, 1, 1⟩, ['-']⟩, rfl⟩

def seven : Terminal .number := ⟨⟨.number, ⟨1, 1, 1⟩, ['7']⟩, rfl⟩

def least : Terminal .number := ⟨⟨.number, ⟨1, 10, 1⟩, "2147483648".toList⟩, rfl⟩

def sign : Terminal BinaryOp.div.kind := ⟨⟨.symbol .slash, ⟨12, 1, 1⟩, ['/']⟩, rfl⟩

def name : Name := ⟨⟨.identifier, ⟨14, 1, 1⟩, ['x']⟩, rfl⟩

def semicolon : Token := ⟨.symbol .semicolon, ⟨15, 1, 1⟩, [';']⟩

def eof : Token := ⟨.eof, ⟨16, 0, 1⟩, []⟩

/-- The tokens of `-N / x;`. -/
def stream (literal : Terminal .number) : Stream :=
  ⟨[minus.1, literal.1, sign.1, name.1] ++ [semicolon], eof, .start⟩

def scope : Scope := [("x", .int)]

def frame : Frame := ⟨.empty, [.i32], [("x", 0)]⟩

/-- The stack holds `stack`, and the variable is two. -/
def state (stack : List Value) : State := ⟨stack, [.i32 2], ⟨[], []⟩⟩

end Halving

open Halving in
/-- The quotient of seven and two is three, and the code of `-7 / x` leaves its negative. -/
theorem exec_negated_literal_seven :
    (digitsValue seven.1.text ≤ 0x80000000 ∧ semicolon.kind.closesExpr = true ∧
      List.lookup (Parser.identOf name.1).name scope = some .int) ∧
    ∃ e t code, Parser.expr (stream seven) = .ok (e, ⟨[semicolon], eof, name.1.span⟩) ∧
      e.check [] scope = .ok t ∧ t.emit [] frame = .ok code frame ∧
      ∀ R : Runtime, Code.exec R code (state []) = .ok () (state [.i32 (-3)]) := by
  have hLiteral : digitsValue seven.1.text ≤ 0x80000000 := by decide
  have hFollow : ([semicolon].headD eof).kind.closesExpr = true := rfl
  have hType : List.lookup (Parser.identOf name.1).name scope = some .int := by decide
  obtain ⟨e, t, hParse, hCheck, -, hEmits⟩ :=
    exec_negated_literal minus hLiteral sign name hFollow .start [] hType
  obtain ⟨code, hEmit, hRuns⟩ := hEmits [] frame (.slot 0) (by decide)
  refine ⟨⟨hLiteral, hFollow, hType⟩, e, t, code, hParse, hCheck, hEmit, fun R => ?_⟩
  have hRun := hRuns R (state []) 2 rfl
  rw [if_neg (by decide)] at hRun
  obtain ⟨v, hRun, hValue⟩ := hRun
  obtain rfl : v = -3 := hValue.mpr (.inl (by decide))
  exact hRun

open Halving in
/-- The quotient of `2147483648` and two is `1073741824`, but the code of `-2147483648 / x` leaves
this number itself and not its negative. -/
theorem negated_least_quotient :
    ∃ e t code, Parser.expr (stream least) = .ok (e, ⟨[semicolon], eof, name.1.span⟩) ∧
      e.check [] scope = .ok t ∧ t.emit [] frame = .ok code frame ∧
      ∀ R : Runtime, ∃ v, Code.exec R code (state []) = .ok () (state [.i32 v]) ∧
        v ≠ .ofInt (-BinaryOp.div.exact (digitsValue least.1.text) 2) := by
  refine ⟨_, _, _, rfl, rfl, rfl, fun R => ⟨0x40000000, ?_, by decide⟩⟩
  rfl

end MiniC
