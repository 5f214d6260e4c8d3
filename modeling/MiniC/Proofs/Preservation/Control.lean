import MiniC.Proofs.Preservation.Expr

/-! # Blocks and loops

A test leaves its value for an `if` or for the branch at the end of a loop.  The body of a loop may be
left by `continue` and the loop by `break`; whether or not a block has been put there for the jump,
the code does what the program does.
-/
namespace MiniC
set_option autoImplicit false

open Wasm (Code Exec Instr Runtime ValType)

section

variable {b c e i t u : Code}

theorem blockIf_balanced (wrapped : Bool) (h : Wasm.Balanced b) :
    Wasm.Balanced (Emit.blockIf wrapped b) := by
  cases wrapped with
  | false => exact h
  | true => exact h.block

theorem repeatLoop_eq (b u c : Code) :
    [Instr.loop] ++ b ++ u ++ c ++ [Instr.brIf 0, .end_] =
      [Instr.loop] ++ (b ++ (u ++ c) ++ [Instr.brIf 0]) ++ [Instr.end_] := by
  simp

theorem repeatLoop_balanced (hb : Wasm.Balanced b) (hu : Wasm.Balanced u) (hc : Wasm.Balanced c) :
    Wasm.Balanced ([Instr.loop] ++ b ++ u ++ c ++ [Instr.brIf 0, .end_]) := by
  rw [repeatLoop_eq]
  exact ((hb.append (hu.append hc)).append (.plain rfl)).loop

theorem guarded_eq (c i : Code) :
    c ++ [Instr.if_] ++ i ++ [Instr.end_] = c ++ ([Instr.if_] ++ i ++ [Instr.end_]) := by
  simp

theorem guarded_balanced (hc : Wasm.Balanced c) (hi : Wasm.Balanced i) :
    Wasm.Balanced (c ++ [Instr.if_] ++ i ++ [Instr.end_]) := by
  rw [guarded_eq]
  exact hc.append hi.if_

theorem branch_eq (c t e : Code) :
    c ++ [Instr.if_] ++ t ++ ([Instr.else_] ++ e) ++ [Instr.end_] =
      c ++ ([Instr.if_] ++ t ++ ([Instr.else_] ++ e ++ [Instr.end_])) := by
  simp

theorem branch_balanced (hc : Wasm.Balanced c) (ht : Wasm.Balanced t) (he : Wasm.Balanced e)
    (empty : Bool) :
    Wasm.Balanced
      (c ++ [Instr.if_] ++ t ++ (if empty then [] else [Instr.else_] ++ e) ++ [Instr.end_]) := by
  cases empty with
  | true =>
    rw [if_pos rfl, List.append_nil]
    exact guarded_balanced hc ht
  | false =>
    rw [if_neg (by simp), branch_eq]
    exact hc.append (ht.ifElse he)

end

variable {B : Bindings}

theorem CondLowers.balanced {e? : Option (Expr Ty)} {code : Code} (h : CondLowers B e? code) :
    Wasm.Balanced code := by
  cases h with
  | none => exact .plain rfl
  | some h => exact h.balanced

theorem EffectLowers.balanced {e : Expr Ty} {code : Code} (h : EffectLowers B e code) :
    Wasm.Balanced code := by
  cases h with
  | step hOp hStep => exact hStep.balanced
  | plain h =>
    refine h.balanced.append ?_
    split
    · exact .nil
    · exact .plain rfl

theorem Place.write_balanced (p : Place) {code : Code} (h : Wasm.Balanced code) :
    Wasm.Balanced (p.write code) := by
  cases p with
  | slot n => exact h.append (.plain rfl)
  | cell a t => exact ((Wasm.Balanced.plain rfl).append h).append (.plain rfl)

mutual

theorem StmtLowers.balanced (x : Stmt Ty) {labels : List Label} {code : Code}
    {arrays : List (String × Nat)} (h : StmtLowers B labels x code arrays) :
    Wasm.Balanced code := by
  cases h with
  | retNone => exact .plain rfl
  | retSome hE => exact hE.balanced.append (.plain rfl)
  | @assign _ s x e code p hPlace hE => exact p.write_balanced hE.balanced
  | @array _ s x ty n address hArray hDeclared =>
    exact .append (a := [pushAddress address]) (.plain rfl) (.plain rfl)
  | scalar hArray hDeclared => exact .nil
  | scalarInit hArray hDeclared hE => exact hE.balanced.append (.plain rfl)
  | store hFloat hBase hOffset hValue =>
    exact ((addressCode_balanced _ hBase.balanced hOffset.balanced).append
      hValue.balanced).append (.plain rfl)
  | @branch _ s cond thenBody elseBody c t e as bs hCond hThen hElse =>
    exact branch_balanced hCond.balanced (BodyLowers.balanced thenBody hThen)
      (BodyLowers.balanced elseBody hElse) _
  | @whileDo _ s cond body c b c' as hCond hBody hCond' =>
    exact guarded_balanced hCond.balanced (repeatLoop_balanced
      (blockIf_balanced _ (BodyLowers.balanced body hBody)) .nil hCond'.balanced)
  | @doWhile _ s cond body b c as hBody hCond =>
    exact blockIf_balanced _ (repeatLoop_balanced
      (blockIf_balanced _ (BodyLowers.balanced body hBody)) .nil hCond.balanced)
  | @forLoop _ s init update cond body i c b u c' as bs cs hInit hCond hBody hUpdate hCond' =>
    exact (OptionLowers.balanced init hInit).append (guarded_balanced hCond.balanced
      (repeatLoop_balanced (blockIf_balanced _ (BodyLowers.balanced body hBody))
        (OptionLowers.balanced update hUpdate) hCond'.balanced))
  | jump hDepth => exact .plain rfl
  | expr hE => exact hE.balanced

theorem BodyLowers.balanced (xs : List (Stmt Ty)) {labels : List Label} {code : Code}
    {arrays : List (String × Nat)} (h : BodyLowers B labels xs code arrays) :
    Wasm.Balanced code := by
  cases h with
  | nil => exact .nil
  | @cons _ x xs a b as bs hX hXs =>
    exact (StmtLowers.balanced x hX).append (BodyLowers.balanced xs hXs)

theorem OptionLowers.balanced (x? : Option (Stmt Ty)) {labels : List Label} {code : Code}
    {arrays : List (String × Nat)} (h : OptionLowers B labels x? code arrays) :
    Wasm.Balanced code := by
  cases h with
  | none => exact .nil
  | @some _ x code as hX => exact StmtLowers.balanced x hX

end

variable {F : Frame} {result : Option ValType} {T T' : Jump → Nat → Prop} {S : Setting} {R : Runtime}
  {sigs : Signatures} {occurs : Ident → Ty → Prop} {pre : List Value}

theorem discard_eq {ε σ α : Type} (x : EStateM ε σ α) : discard x = x >>= fun _ => pure ⟨⟩ := by
  funext s
  change EStateM.map _ x s = EStateM.bind x _ s
  rw [EStateM.map, EStateM.bind]
  cases x s <;> rfl

theorem Eval.discard_catching_none (x : Eval Unit) : discard (Eval.catching none x) = x := by
  funext s
  rw [discard_eq]
  change EStateM.bind _ _ s = _
  rw [EStateM.bind, Eval.catching]
  cases x s with
  | ok a s' => rfl
  | error e s' => cases e <;> rfl

theorem Eval.upTo_apply (j : Jump) (x : Eval Unit) (s : Store) :
    Eval.upTo j x s = match x s with
      | .ok _ s' => .ok () s'
      | .error (.jump j') s' => if some j = some j' then .ok () s' else .error (.jump j') s'
      | .error e s' => .error e s' := by
  rw [Eval.upTo, discard_eq]
  change EStateM.bind _ _ s = _
  rw [EStateM.bind, Eval.catching]
  cases x s with
  | ok a s' => rfl
  | error e s' =>
    cases e with
    | jump j' =>
      by_cases hj : some j = some j'
      · simp only [hj, if_true]
        rfl
      · simp only [hj, if_false]
    | _ => rfl

/-- The value of a test is on the stack. -/
def Tests (pre : List Value) (b : Bool) (_ : Unit) (vs : List Value) : Prop :=
  ∃ k, vs = .i32 k :: pre ∧ b = decide (k ≠ 0)

namespace Sim

theorem ignore {α β : Type} {x : Eval α} {y : Exec β}
    (h : Sim F result T pre x y fun _ _ vs => vs = pre) :
    Sim F result T pre (discard x) (discard y) fun _ _ vs => vs = pre := by
  rw [discard_eq, discard_eq]
  exact h.bind fun _ _ _ hStack => .pure hStack

/-- A block for jumps of the given kind. -/
theorem upTo {j : Jump} {x : Eval Unit} {y : Exec Unit} {post : Unit → Unit → List Value → Prop}
    (hT : ∀ j' d, T' j' d → if some j = some j' then d = 0 else ∃ d', d = d' + 1 ∧ T j' d')
    (h : Sim F result T' [] x y post) :
    Sim F result T pre (Eval.upTo j x) (discard (Exec.enter y)) fun _ _ vs => vs = pre :=
  ((enter hT h).imp fun _ _ _ => And.right).ignore

/-- A block that no jump leaves. -/
theorem plainBlock {x : Eval Unit} {y : Exec Unit} {post : Unit → Unit → List Value → Prop}
    (hT : ∀ j d, T' j d → ∃ d', d = d' + 1 ∧ T j d') (h : Sim F result T' [] x y post) :
    Sim F result T pre x (discard (Exec.enter y)) fun _ _ vs => vs = pre := by
  rw [← Eval.discard_catching_none x]
  refine ((enter ?_ h).imp fun _ _ _ => And.right).ignore
  intro j d hTarget
  rw [if_neg (by simp)]
  exact hT j d hTarget

/-- What comes first and does not jump may stand before the block. -/
theorem upTo_bind {α β : Type} {j : Jump} {x : Eval α} {y : Exec β} {f : α → Eval Unit}
    {g : β → Exec Unit} {mid : α → β → List Value → Prop} {post : Unit → Unit → List Value → Prop}
    (hx : Sim F result (fun _ _ => False) pre x y mid)
    (hf : ∀ a b vs, mid a b vs → Sim F result T vs (Eval.upTo j (f a)) (g b) post) :
    Sim F result T pre (Eval.upTo j (x >>= f)) (y >>= g) post := by
  intro s σ stack hRelated hStack
  have hFirst := hx s σ stack hRelated hStack
  rw [Eval.upTo_apply]
  change Agree F result T post stack (match EStateM.bind x f s with
    | .ok _ s' => .ok () s'
    | .error (.jump j') s' => if some j = some j' then .ok () s' else .error (.jump j') s'
    | .error e s' => .error e s') (EStateM.bind y g σ)
  rw [EStateM.bind, EStateM.bind]
  generalize x s = r at hFirst ⊢
  generalize y σ = r' at hFirst ⊢
  cases hFirst with
  | @ok a b vs s' σ' hRelated' hStack' hMid =>
    have hRest := hf a b vs hMid s' σ' stack hRelated' hStack'
    rw [Eval.upTo_apply] at hRest
    exact hRest
  | jump hTarget hRelated' => exact hTarget.elim
  | return_ hStack' hType hWorld => exact .return_ hStack' hType hWorld
  | halt hStuck hWorld => exact .halt hStuck hWorld

/-- An `if` takes the value of the test. -/
theorem popInt {k : Int32} {x x' : Eval Unit} {y y' : Exec Unit}
    {post : Unit → Unit → List Value → Prop} (h : Sim F result T pre x y post)
    (h' : Sim F result T pre x' y' post) :
    Sim F result T (.i32 k :: pre) (if decide (k ≠ 0) then x else x')
      (Exec.popInt >>= fun k => if k ≠ 0 then y else y') post := by
  intro s σ stack hRelated hStack
  have hRelated' : Related F s { σ with stack := pre ++ stack } :=
    ⟨hRelated.world, hRelated.vars, hRelated.typed⟩
  rw [Action.bind_of_ok (Exec.popInt_eq hStack)]
  by_cases hk : k = 0
  · simp only [hk, ne_eq, not_true_eq_false, decide_false, if_false]
    exact h' s _ stack hRelated' rfl
  · simp only [hk, ne_eq, not_false_eq_true, decide_true, if_true]
    exact h s _ stack hRelated' rfl

end Sim

section

variable {b c e i t u : Code}

theorem exec_guarded (hc : Wasm.Balanced c) (hi : Wasm.Balanced i) :
    Wasm.Code.exec R (c ++ [Instr.if_] ++ i ++ [Instr.end_]) = Wasm.Code.exec R c >>= fun _ =>
      Exec.popInt >>= fun k => if k ≠ 0 then discard (Exec.enter (Wasm.Code.exec R i))
        else discard (Exec.enter (Wasm.Code.exec R [])) := by
  rw [guarded_eq, Wasm.Code.exec_append hc hi.if_, Wasm.Code.exec_if hi]

theorem exec_branch (hc : Wasm.Balanced c) (ht : Wasm.Balanced t) (he : Wasm.Balanced e) :
    Wasm.Code.exec R (c ++ [Instr.if_] ++ t ++ ([Instr.else_] ++ e) ++ [Instr.end_]) =
      Wasm.Code.exec R c >>= fun _ => Exec.popInt >>= fun k =>
        if k ≠ 0 then discard (Exec.enter (Wasm.Code.exec R t))
        else discard (Exec.enter (Wasm.Code.exec R e)) := by
  rw [branch_eq, Wasm.Code.exec_append hc (ht.ifElse he), Wasm.Code.exec_ifElse ht he]

theorem exec_repeatLoop (hb : Wasm.Balanced b) (hu : Wasm.Balanced u) (hc : Wasm.Balanced c) :
    Wasm.Code.exec R ([Instr.loop] ++ b ++ u ++ c ++ [Instr.brIf 0, .end_]) =
      Exec.iterate (Exec.enter ((Wasm.Code.exec R b >>= fun _ => Wasm.Code.exec R u >>= fun _ =>
        Wasm.Code.exec R c) >>= fun _ => (Instr.brIf 0).exec R)) R.passes := by
  have hAll := hb.append (hu.append hc)
  rw [repeatLoop_eq, Wasm.Code.exec_loop (hAll.append (.plain rfl)),
    Wasm.Code.exec_append hAll (.plain rfl), Wasm.Code.exec_append hb (hu.append hc),
    Wasm.Code.exec_append hu hc, Wasm.Code.exec_plain rfl]

end

/-- The branches by which code may be left that is under the given labels and has the given jumps. -/
def Targets (labels : List Label) (jumps : Jump → Bool) (j : Jump) (d : Nat) : Prop :=
  jumps j = true ∧ labels.findIdx? (fun l => decide (l = some j)) = some d

namespace Targets

variable {labels : List Label} {jumps jumps' : Jump → Bool} {j : Jump} {d : Nat}

theorem mono (h : Targets labels jumps j d) (hJumps : ∀ j, jumps j = true → jumps' j = true) :
    Targets labels jumps' j d := ⟨hJumps j h.1, h.2⟩

theorem outside {l : Label} (h : Targets (l :: labels) jumps j d) :
    if l = some j then d = 0 else ∃ d', d = d' + 1 ∧ Targets labels jumps j d' := by
  obtain ⟨hJumps, hDepth⟩ := h
  rw [List.findIdx?_cons] at hDepth
  by_cases hl : l = some j
  · rw [if_pos hl]
    simpa [hl] using hDepth.symm
  · rw [if_neg hl]
    simp only [hl, decide_false, Bool.false_eq_true, if_false, Option.map_eq_some_iff] at hDepth
    obtain ⟨d', hd', rfl⟩ := hDepth
    exact ⟨d', rfl, hJumps, hd'⟩

theorem outside_none (h : Targets (none :: labels) jumps j d) :
    ∃ d', d = d' + 1 ∧ Targets labels jumps j d' := by
  simpa using h.outside

/-- A loop keeps every `continue` to itself. -/
def breakOnly (jumps : Jump → Bool) (j : Jump) : Bool := jumps j && decide (j = .break_)

theorem eq_break (h : Targets labels (breakOnly jumps) j d) : jumps .break_ = true ∧ j = .break_ := by
  obtain ⟨hJumps, hj⟩ := Bool.and_eq_true_iff.mp h.1
  obtain rfl := of_decide_eq_true hj
  exact ⟨hJumps, rfl⟩

theorem breakOnly_of_ne (h : Targets labels jumps j d) (hj : some Jump.continue_ ≠ some j) :
    Targets labels (breakOnly jumps) j d := by
  have hBreak : j = .break_ := by
    cases j with
    | break_ => rfl
    | continue_ => exact absurd rfl hj
  exact ⟨Bool.and_eq_true_iff.mpr ⟨h.1, decide_eq_true hBreak⟩, h.2⟩

end Targets

theorem Sim.upTo_of_none {j : Jump} {x : Eval Unit} {y : Exec Unit}
    (hT : ∀ j' d, T j' d → some j ≠ some j') (h : Sim F result T pre x y fun _ _ vs => vs = pre) :
    Sim F result T pre (Eval.upTo j x) y fun _ _ vs => vs = pre := by
  rw [Eval.upTo, discard_eq]
  exact (Sim.catching hT h).map fun _ _ _ hStack => hStack

section

variable {labels : List Label} {jumps : Jump → Bool} {test : Eval Bool} {b c i u : Code}

theorem guard_sim {j : Jump} {x : Eval Unit} (hc : Wasm.Balanced c) (hi : Wasm.Balanced i)
    (hTest : Sim F result (fun _ _ => False) pre test (Wasm.Code.exec R c) (Tests pre))
    (hT : ∀ j' d, T' j' d → if some j = some j' then d = 0 else ∃ d', d = d' + 1 ∧ T j' d')
    (h : Sim F result T' [] x (Wasm.Code.exec R i) fun _ _ vs => vs = []) :
    Sim F result T pre (Eval.upTo j (test >>= fun b => if b then x else pure ()))
      (Wasm.Code.exec R (c ++ [Instr.if_] ++ i ++ [Instr.end_])) fun _ _ vs => vs = pre := by
  rw [exec_guarded hc hi]
  refine hTest.upTo_bind ?_
  rintro _ _ _ ⟨k, rfl, rfl⟩
  rw [apply_ite (Eval.upTo j)]
  have hEmpty : Sim F result T' [] (pure ()) (Wasm.Code.exec R []) fun _ _ vs => vs = [] := .pure rfl
  exact .popInt (.upTo hT h) (.upTo hT hEmpty)

theorem branch_sim {x x' : Eval Unit} {e t : Code} {T₁ T₂ : Jump → Nat → Prop} {empty : Bool}
    (hc : Wasm.Balanced c) (ht : Wasm.Balanced t) (he : Wasm.Balanced e)
    (hTest : Sim F result T pre test (Wasm.Code.exec R c) (Tests pre))
    (hT₁ : ∀ j d, T₁ j d → ∃ d', d = d' + 1 ∧ T j d') (hT₂ : ∀ j d, T₂ j d → ∃ d', d = d' + 1 ∧ T j d')
    (h : Sim F result T₁ [] x (Wasm.Code.exec R t) fun _ _ vs => vs = [])
    (h' : Sim F result T₂ [] x' (Wasm.Code.exec R e) fun _ _ vs => vs = [])
    (hEmpty : empty = true → e = []) :
    Sim F result T pre (test >>= fun b => if b then x else x')
      (Wasm.Code.exec R
        (c ++ [Instr.if_] ++ t ++ (if empty then [] else [Instr.else_] ++ e) ++ [Instr.end_]))
      fun _ _ vs => vs = pre := by
  have hExec : Wasm.Code.exec R (c ++ [Instr.if_] ++ t ++
      (if empty then [] else [Instr.else_] ++ e) ++ [Instr.end_]) = Wasm.Code.exec R c >>= fun _ => Exec.popInt >>= fun k =>
        if k ≠ 0 then discard (Exec.enter (Wasm.Code.exec R t))
        else discard (Exec.enter (Wasm.Code.exec R e)) := by
    cases empty with
    | true => rw [if_pos rfl, List.append_nil, exec_guarded hc ht, hEmpty rfl]
    | false => rw [if_neg (by simp), exec_branch hc ht he]
  rw [hExec]
  refine hTest.bind ?_
  rintro _ _ _ ⟨k, rfl, rfl⟩
  exact .popInt (.plainBlock hT₁ h) (.plainBlock hT₂ h')

/-- The body of a loop, with a block around it if it has a `continue`. -/
theorem loopBody_sim {x : Eval Unit} (hb : Wasm.Balanced b)
    (h : Sim F result (Targets (Emit.bodyLabels (jumps .continue_) labels) jumps) [] x
      (Wasm.Code.exec R b) fun _ _ vs => vs = []) :
    Sim F result (Targets (none :: labels) (Targets.breakOnly jumps)) []
      (Eval.upTo .continue_ x) (Wasm.Code.exec R (Emit.blockIf (jumps .continue_) b))
      fun _ _ vs => vs = [] := by
  cases hContinue : jumps .continue_ with
  | true =>
    rw [hContinue] at h
    rw [Emit.blockIf, if_pos rfl, Wasm.Code.exec_block hb]
    refine .upTo ?_ h
    intro j d (hTarget : Targets (some .continue_ :: none :: labels) jumps j d)
    have hOutside := hTarget.outside
    split at hOutside
    · rename_i hj
      rw [if_pos hj]
      exact hOutside
    · rename_i hj
      rw [if_neg hj]
      obtain ⟨d', rfl, hTarget'⟩ := hOutside
      exact ⟨d', rfl, hTarget'.breakOnly_of_ne hj⟩
  | false =>
    rw [hContinue] at h
    have hNone (j : Jump) (d : Nat) (hTarget : Targets (none :: labels) jumps j d) :
        some Jump.continue_ ≠ some j := by
      rintro ⟨⟩
      exact Bool.noConfusion (hContinue.symm.trans hTarget.1)
    refine .retarget (fun j d hTarget => ?_) (Sim.upTo_of_none hNone h)
    exact hTarget.breakOnly_of_ne (hNone j d hTarget)

/-- All passes through a loop. -/
theorem repeatLoop_sim {x update : Eval Unit} (hb : Wasm.Balanced b) (hu : Wasm.Balanced u)
    (hc : Wasm.Balanced c)
    (h : Sim F result (Targets (Emit.bodyLabels (jumps .continue_) labels) jumps) [] x
      (Wasm.Code.exec R b) fun _ _ vs => vs = [])
    (hUpdate : Sim F result (fun _ _ => False) [] update (Wasm.Code.exec R u) fun _ _ vs => vs = [])
    (hTest : Sim F result (fun _ _ => False) [] test (Wasm.Code.exec R c) (Tests [])) :
    Sim F result (Targets labels (Targets.breakOnly jumps)) pre
      (Eval.repeatWhile ((Eval.upTo .continue_ x >>= fun _ => update) >>= fun _ => test) R.passes)
      (Wasm.Code.exec R ([Instr.loop] ++ Emit.blockIf (jumps .continue_) b ++ u ++ c ++
        [Instr.brIf 0, .end_])) fun _ _ vs => vs = pre := by
  rw [exec_repeatLoop (blockIf_balanced _ hb) hu hc]
  have hOutside (j : Jump) (d : Nat)
      (hTarget : Targets (none :: labels) (Targets.breakOnly jumps) j d) := hTarget.outside_none
  refine Sim.iterate (Sim.pass hOutside ?_) _
  rw [bind_assoc]
  refine (loopBody_sim hb h).bind ?_
  rintro _ _ _ rfl
  refine (hUpdate.retarget fun _ _ => False.elim).bind ?_
  rintro _ _ _ rfl
  exact hTest.retarget fun _ _ => False.elim

theorem whileLoop_sim (jumps : Jump → Bool) {x update : Eval Unit} {c' : Code} (hb : Wasm.Balanced b)
    (hu : Wasm.Balanced u) (hc : Wasm.Balanced c) (hc' : Wasm.Balanced c')
    (h : Sim F result (Targets (Emit.bodyLabels (jumps .continue_) (some .break_ :: labels)) jumps)
      [] x (Wasm.Code.exec R b) fun _ _ vs => vs = [])
    (hUpdate : Sim F result (fun _ _ => False) [] update (Wasm.Code.exec R u) fun _ _ vs => vs = [])
    (hTest : Sim F result (fun _ _ => False) pre test (Wasm.Code.exec R c) (Tests pre))
    (hTest' : Sim F result (fun _ _ => False) [] test (Wasm.Code.exec R c') (Tests [])) :
    Sim F result T pre
      (Eval.upTo .break_ (Eval.whileLoop test (Eval.upTo .continue_ x >>= fun _ => update) R.passes))
      (Wasm.Code.exec R (c ++ [Instr.if_] ++ ([Instr.loop] ++ Emit.blockIf (jumps .continue_) b ++ u ++
        c' ++ [Instr.brIf 0, .end_]) ++ [Instr.end_])) fun _ _ vs => vs = pre := by
  rw [Eval.whileLoop_eq]
  refine guard_sim hc (repeatLoop_balanced (blockIf_balanced _ hb) hu hc') hTest ?_
    (repeatLoop_sim hb hu hc' h hUpdate hTest')
  intro j d hTarget
  obtain ⟨-, rfl⟩ := hTarget.eq_break
  rw [if_pos rfl]
  simpa using hTarget.outside

theorem doLoop_sim (jumps : Jump → Bool) {x update : Eval Unit} (hb : Wasm.Balanced b) (hu : Wasm.Balanced u)
    (hc : Wasm.Balanced c)
    (h : Sim F result (Targets (Emit.bodyLabels (jumps .continue_)
      (if jumps .break_ then some .break_ :: labels else labels)) jumps) [] x
      (Wasm.Code.exec R b) fun _ _ vs => vs = [])
    (hUpdate : Sim F result (fun _ _ => False) [] update (Wasm.Code.exec R u) fun _ _ vs => vs = [])
    (hTest : Sim F result (fun _ _ => False) [] test (Wasm.Code.exec R c) (Tests [])) :
    Sim F result T pre
      (Eval.upTo .break_ (Eval.doLoop test (Eval.upTo .continue_ x >>= fun _ => update) R.passes))
      (Wasm.Code.exec R (Emit.blockIf (jumps .break_) ([Instr.loop] ++
        Emit.blockIf (jumps .continue_) b ++ u ++ c ++ [Instr.brIf 0, .end_])))
      fun _ _ vs => vs = pre := by
  have hLoop := repeatLoop_balanced (blockIf_balanced (jumps .continue_) hb) hu hc
  rw [Eval.doLoop_eq]
  cases hBreak : jumps .break_ with
  | true =>
    rw [hBreak] at h
    rw [Emit.blockIf, if_pos rfl, Wasm.Code.exec_block hLoop]
    refine .upTo ?_ (repeatLoop_sim hb hu hc h hUpdate hTest)
    intro j d hTarget
    obtain ⟨-, rfl⟩ := hTarget.eq_break
    rw [if_pos rfl]
    simpa using hTarget.outside
  | false =>
    rw [hBreak] at h
    have hNone (j : Jump) (d : Nat) (hTarget : Targets labels (Targets.breakOnly jumps) j d) :
        False := Bool.noConfusion (hBreak.symm.trans hTarget.eq_break.1)
    refine .retarget (fun j d hTarget => (hNone j d hTarget).elim) (Sim.upTo_of_none
      (fun j d hTarget => (hNone j d hTarget).elim) (repeatLoop_sim hb hu hc h hUpdate hTest))

end

end MiniC
