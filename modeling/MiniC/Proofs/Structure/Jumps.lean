import MiniC.Proofs.Structure.Coverage

/-! # Where jumps lead

A jump branches to the block that was opened for it: a `break` to the `if` or the block around the
innermost loop, a `continue` to the block just inside that loop, after which come the update and the
condition.  The labels say the same in fewer words, and the two agree at every point that lowering
reaches, if no header of a `for` loop has a jump of its own.
-/
namespace MiniC
set_option autoImplicit false

open Wasm (Code Instr Opened Opener Nested)

namespace Stmt

mutual

/-- Whether no header of a `for` loop in the statement has a jump outside of its loops. -/
def headersStill : Stmt Ty → Bool
  | branch _ _ thenBody elseBody => headersStillAll thenBody && headersStillAll elseBody
  | loop _ _ _ body => headersStillAll body
  | forLoop _ init _ update body =>
    headerStill init && headerStill update && headersStillAll body
  | _ => true

def headersStillAll : List (Stmt Ty) → Bool
  | [] => true
  | x :: xs => x.headersStill && headersStillAll xs

def headerStill : Option (Stmt Ty) → Bool
  | none => true
  | some x => !x.jumps .break_ && !x.jumps .continue_ && x.headersStill

end

theorem headerStill_some {x : Stmt Ty} (h : headerStill (some x) = true) :
    headersStillAll [x] = true ∧ ∀ j, jumpsAny j [x] = false := by
  simp only [headerStill, Bool.and_eq_true, Bool.not_eq_true'] at h
  obtain ⟨⟨hBreak, hContinue⟩, hStill⟩ := h
  refine ⟨by simp [headersStillAll, hStill], fun j => ?_⟩
  cases j with
  | break_ => simp [jumpsAny, hBreak]
  | continue_ => simp [jumpsAny, hContinue]

def body : Stmt Ty → List (Stmt Ty)
  | loop _ _ _ body | forLoop _ _ _ _ body => body
  | _ => []

def update? : Stmt Ty → Option (Stmt Ty)
  | forLoop _ _ _ update _ => update
  | _ => none

def condition? : Stmt Ty → Option (Expr Ty)
  | loop _ _ cond _ => some cond
  | forLoop _ _ cond _ _ => cond
  | _ => none

/-- What a `break` leaves: the `if` around a loop that tests first, the block around another. -/
def guard : Stmt Ty → Opener
  | loop _ .doWhile _ _ => .block
  | _ => .if_

end Stmt

def Function.headersStill (f : Function Ty) : Bool := Stmt.headersStillAll f.body

namespace Enclosing

/-- The block that a jump leaves if this is the innermost loop around it. -/
def target (L : Enclosing) : Jump → Opened
  | .break_ => ⟨L.start - 1, L.stmt.guard⟩
  | .continue_ => ⟨L.start + 1, .block⟩

/-- In the given code the body of the loop stands in a block, after the end of which come the update,
the condition and the branch to the next pass. -/
def Continues (globals : Globals) (L : Enclosing) (code : Code) : Prop :=
  ∃ (pre inner u c post : Code) (outer : List Opened) (s₁ s₂ s₃ : Frame),
    code = pre ++ [Instr.loop, .block] ++ inner ++ [Instr.end_] ++
      (u ++ c ++ [Instr.brIf 0, .end_]) ++ post ∧
    pre.length = L.start ∧
    Wasm.Code.scan 0 [] (pre ++ [Instr.loop, .block] ++ inner) =
      some (⟨L.start + 1, .block⟩ :: ⟨L.start, .loop⟩ :: outer) ∧
    Stmt.emitOption globals (none :: some .break_ :: L.labels) L.stmt.update? s₁ = .ok u s₂ ∧
    Emit.condition globals L.stmt.condition? s₂ = .ok c s₃

theorem Continues.mono {globals : Globals} {L : Enclosing} {code code' : Code}
    (h : L.Continues globals code) (hPrefix : code <+: code') : L.Continues globals code' := by
  obtain ⟨pre, inner, u, c, post, outer, s₁, s₂, s₃, rfl, hRest⟩ := h
  obtain ⟨more, rfl⟩ := hPrefix
  exact ⟨pre, inner, u, c, post ++ more, outer, s₁, s₂, s₃, by rw [List.append_assoc], hRest⟩

end Enclosing

section

variable {a b : Code} {opens : List Opened} {n : Nat}

theorem scan_then (h : a.scan 0 [] = some opens) (hb : Nested n opens.length b) :
    Wasm.Code.scan 0 [] (a ++ b) = some opens := by
  rw [Wasm.Code.scan_append, h, Option.bind_some, hb.scan_eq _ _ rfl]

theorem scan_concat (h : a.scan 0 [] = some opens) (x : Instr) :
    Wasm.Code.scan 0 [] (a ++ [x]) = x.scan a.length opens := by
  rw [Wasm.Code.scan_append, h, Option.bind_some, Wasm.Code.scan_singleton, Nat.zero_add]

def loopOpens (wrapped : Bool) (start : Nat) : List Opened :=
  if wrapped then [⟨start + 1, .block⟩, ⟨start, .loop⟩] else [⟨start, .loop⟩]

theorem scan_loopHead (h : a.scan 0 [] = some opens) (wrapped : Bool) :
    Wasm.Code.scan 0 [] (a ++ loopHead wrapped) =
      some (loopOpens wrapped a.length ++ opens) := by
  have hLoop : Wasm.Code.scan 0 [] (a ++ [Instr.loop]) = some (⟨a.length, .loop⟩ :: opens) :=
    scan_concat h .loop
  cases wrapped with
  | false => exact hLoop
  | true =>
    have hBlock := scan_concat hLoop .block
    rw [List.append_assoc] at hBlock
    simpa [loopHead, loopOpens, Instr.scan] using hBlock

end

namespace Point

/-- The labels of a point agree with the blocks that are open there. -/
structure Aligned (p : Point) (opens : List Opened) : Prop where
  scan : p.before.scan 0 [] = some opens
  length : opens.length = p.labels.length
  sound : p.frame.Sound
  still : Stmt.headersStillAll p.rest = true
  outside : p.loops = [] → ∀ j, some j ∉ p.labels
  inside : ∀ L outer, p.loops = L :: outer → ∀ j, Stmt.jumpsAny j p.rest = true →
    Stmt.jumpsAny j L.stmt.body = true ∧
      ∃ d, p.labels.findIdx? (fun l => decide (l = some j)) = some d ∧ opens[d]? = some (L.target j)

namespace Aligned

/-- A block that no jump leaves is opened. -/
theorem plainBlock {xs ys : List (Stmt Ty)} {labels : List Label} {s s' : Frame}
    {before before' : Code} {loops : List Enclosing} {opens : List Opened} {o : Opened}
    (h : Aligned ⟨xs, labels, s, before, loops⟩ opens)
    (hScan : before'.scan 0 [] = some (o :: opens)) (hSound : s'.Sound)
    (hStill : Stmt.headersStillAll ys = true)
    (hJumps : ∀ j, Stmt.jumpsAny j ys = true → Stmt.jumpsAny j xs = true) :
    Aligned ⟨ys, none :: labels, s', before', loops⟩ (o :: opens) where
  scan := hScan
  length := congrArg (· + 1) h.length
  sound := hSound
  still := hStill
  outside hLoops j := by simpa using h.outside hLoops j
  inside L outer hLoops j hj := by
    obtain ⟨hBody, d, hDepth, hTarget⟩ := h.inside L outer hLoops j (hJumps j hj)
    simp only at hDepth
    exact ⟨hBody, d + 1, by simp [List.findIdx?_cons, hDepth], hTarget⟩

/-- The body of a loop is entered: a block stands there for each kind of jump that the body has. -/
theorem loopBody {body : List (Stmt Ty)} {labels : List Label} {s : Frame} {pre : Code}
    {L : Enclosing} {loops : List Enclosing} {opens : List Opened}
    (hScan : pre.scan 0 [] = some opens) (hLength : opens.length = labels.length)
    (hSound : s.Sound) (hStill : Stmt.headersStillAll body = true) (hBody : L.stmt.body = body)
    (hStart : pre.length = L.start)
    (hBreak : Stmt.jumpsAny .break_ body = true → ∃ labels' opens',
      labels = some .break_ :: labels' ∧ opens = ⟨L.start - 1, L.stmt.guard⟩ :: opens') :
    Aligned ⟨body, Emit.bodyLabels (Stmt.jumpsAny .continue_ body) labels, s,
      pre ++ loopHead (Stmt.jumpsAny .continue_ body), L :: loops⟩
      (loopOpens (Stmt.jumpsAny .continue_ body) L.start ++ opens) where
  scan := hStart ▸ scan_loopHead hScan _
  length := by cases Stmt.jumpsAny .continue_ body <;> simp [loopOpens, Emit.bodyLabels, hLength]
  sound := hSound
  still := hStill
  outside hLoops := by cases hLoops
  inside := by
    rintro _ _ ⟨⟩ j hj
    refine ⟨hBody ▸ hj, ?_⟩
    cases j with
    | break_ =>
      obtain ⟨labels', opens', rfl, rfl⟩ := hBreak hj
      cases Stmt.jumpsAny .continue_ body with
      | true => exact ⟨2, by simp [Emit.bodyLabels, List.findIdx?_cons], rfl⟩
      | false => exact ⟨1, by simp [Emit.bodyLabels, List.findIdx?_cons], rfl⟩
    | continue_ =>
      rw [show Stmt.jumpsAny .continue_ body = true from hj]
      exact ⟨0, by simp [Emit.bodyLabels, List.findIdx?_cons], rfl⟩

theorem header {x : Stmt Ty} {labels : List Label} {s : Frame} {before : Code}
    {loops : List Enclosing} {opens : List Opened} (hScan : before.scan 0 [] = some opens)
    (hLength : opens.length = labels.length) (hSound : s.Sound)
    (hStill : Stmt.headerStill (some x) = true) (hOutside : loops = [] → ∀ j, some j ∉ labels) :
    Aligned ⟨[x], labels, s, before, loops⟩ opens where
  scan := hScan
  length := hLength
  sound := hSound
  still := (Stmt.headerStill_some hStill).1
  outside := hOutside
  inside L outer hLoops j hj := by
    rw [(Stmt.headerStill_some hStill).2 j] at hj
    cases hj

theorem step {globals : Globals} {p q : Point} {opens : List Opened} (h : p.Aligned opens)
    (hStep : p.Steps globals q) : ∃ opens', q.Aligned opens' := by
  have hStill := h.still
  cases hStep with
  | @next x xs labels s s₁ before loops a hX =>
    obtain ⟨hNested, hSound⟩ := Stmt.emit_nested h.sound hX
    rw [← h.length] at hNested
    simp only [Stmt.headersStillAll, Bool.and_eq_true] at hStill
    refine ⟨opens, scan_then h.scan hNested, h.length, hSound, hStill.2, h.outside, ?_⟩
    intro L outer hLoops j hj
    exact h.inside L outer hLoops j (by simp only [Stmt.jumpsAny, hj, Bool.or_true])
  | @thenBody s₀ cond thenBody elseBody xs labels s s₁ before loops c hCond =>
    obtain ⟨hStraight, hSound⟩ := Expr.emit_straight h.sound hCond
    simp only [Stmt.headersStillAll, Stmt.headersStill, Bool.and_eq_true] at hStill
    have hScan := scan_concat (scan_then h.scan (.of_straight hStraight)) .if_
    refine ⟨_, h.plainBlock hScan hSound hStill.1.1 fun j hj => ?_⟩
    simp only [Stmt.jumpsAny, Stmt.jumps, hj, Bool.true_or]
  | @elseBody s₀ cond thenBody elseBody xs labels s s₁ s₂ before loops c t hCond hThen hSome =>
    obtain ⟨hStraight, hSound₁⟩ := Expr.emit_straight h.sound hCond
    obtain ⟨hNested, hSound⟩ := Stmt.emitAll_nested hSound₁ hThen
    simp only [Stmt.headersStillAll, Stmt.headersStill, Bool.and_eq_true] at hStill
    have hIf := scan_concat (scan_then h.scan (.of_straight hStraight)) .if_
    have hThenScan := scan_then hIf (by simpa [h.length] using hNested)
    refine ⟨_, h.plainBlock (scan_concat hThenScan .else_) hSound hStill.1.2 fun j hj => ?_⟩
    simp only [Stmt.jumpsAny, Stmt.jumps, hj, Bool.or_true, Bool.true_or]
  | @whileBody s₀ cond body xs labels s s₁ before loops c hCond =>
    obtain ⟨hStraight, hSound⟩ := Expr.emit_straight h.sound hCond
    simp only [Stmt.headersStillAll, Stmt.headersStill, Bool.and_eq_true] at hStill
    have hIf := scan_concat (scan_then h.scan (.of_straight hStraight)) .if_
    exact ⟨_, .loopBody hIf (by simp [h.length]) hSound hStill.1 rfl rfl
      fun _ => ⟨labels, opens, rfl, by simp [Stmt.guard]⟩⟩
  | @doBody s₀ cond body xs labels s before loops =>
    simp only [Stmt.headersStillAll, Stmt.headersStill, Bool.and_eq_true] at hStill
    -- the loop stands in a block only if its body has a `break`
    cases hBreak : Stmt.jumpsAny .break_ body with
    | false =>
      have hScan : Wasm.Code.scan 0 [] (before ++ []) = some opens := by
        rw [List.append_nil]
        exact h.scan
      refine ⟨_, .loopBody hScan h.length h.sound hStill.1 rfl rfl fun hj => ?_⟩
      rw [hBreak] at hj
      cases hj
    | true =>
      exact ⟨_, .loopBody (scan_concat h.scan .block) (congrArg (· + 1) h.length) h.sound hStill.1
        rfl rfl fun _ => ⟨labels, opens, rfl, by simp [Stmt.guard]⟩⟩
  | @forInit s₀ init cond update body xs labels s before loops =>
    simp only [Stmt.headersStillAll, Stmt.headersStill, Bool.and_eq_true] at hStill
    exact ⟨opens, .header h.scan h.length h.sound hStill.1.1.1 h.outside⟩
  | @forBody s₀ init cond update body xs labels s s₁ s₂ before loops i c hInit hCond =>
    obtain ⟨hNested, hSound₁⟩ := Stmt.emitOption_nested h.sound hInit
    obtain ⟨hStraight, hSound⟩ := Emit.condition_straight hSound₁ hCond
    rw [← h.length] at hNested
    simp only [Stmt.headersStillAll, Stmt.headersStill, Bool.and_eq_true] at hStill
    have hIf := scan_concat (scan_then (scan_then h.scan hNested) (.of_straight hStraight)) .if_
    exact ⟨_, .loopBody hIf (by simp [h.length]) hSound hStill.1.2 rfl rfl
      fun _ => ⟨labels, opens, rfl, by simp [Stmt.guard]; omega⟩⟩
  | @forUpdate s₀ init cond update body xs labels s s₁ s₂ s₃ before loops i c b hInit hCond hBody =>
    obtain ⟨hNested, hSound₁⟩ := Stmt.emitOption_nested h.sound hInit
    obtain ⟨hStraight, hSound₂⟩ := Emit.condition_straight hSound₁ hCond
    obtain ⟨hNestedBody, hSound⟩ := Stmt.emitAll_nested hSound₂ hBody
    rw [← h.length] at hNested
    rw [bodyLabels_length] at hNestedBody
    simp only [Stmt.headersStillAll, Stmt.headersStill, Bool.and_eq_true] at hStill
    have hIf := scan_concat (scan_then (scan_then h.scan hNested) (.of_straight hStraight)) .if_
    have hLoop := scan_concat hIf .loop
    have hScan := scan_then hLoop (.blockIf _ (by simpa [h.length] using hNestedBody))
    -- the labels here are not those of the body, but the update has no jump to look for one
    exact ⟨_, .header hScan (by simp [h.length]) hSound hStill.1.1.2 (by simp)⟩

end Aligned

end Point

theorem Enclosing.continues_of_scan {globals : Globals} {L : Enclosing} {pre b u c code : Code}
    {opens : List Opened} {n : Nat} {s₁ s₂ s₃ : Frame} (hScan : pre.scan 0 [] = some opens)
    (hStart : pre.length = L.start) (hBody : Nested n (opens.length + 2) b)
    (hUpdate : Stmt.emitOption globals (none :: some .break_ :: L.labels) L.stmt.update? s₁ =
      .ok u s₂) (hCond : Emit.condition globals L.stmt.condition? s₂ = .ok c s₃) (post : Code)
    (hCode : code = pre ++ ([Instr.loop] ++ Emit.blockIf true b ++ u ++ c ++
      [Instr.brIf 0, .end_]) ++ post) :
    L.Continues globals code := by
  refine ⟨pre, b, u, c, post, opens, s₁, s₂, s₃, by simp [hCode, Emit.blockIf], hStart, ?_,
    hUpdate, hCond⟩
  rw [← hStart]
  exact scan_then (scan_loopHead hScan true) hBody

namespace Point

variable {globals : Globals} {p q : Point}

section

variable {s₀ : Span} {xs body : List (Stmt Ty)} {labels : List Label} {s s₁ s₂ s' : Frame}
  {before i c code : Code} {loops : List Enclosing} {opens : List Opened}

theorem Aligned.whileDo_continues {cond : Expr Ty}
    (h : Aligned ⟨.loop s₀ .whileDo cond body :: xs, labels, s, before, loops⟩ opens)
    (hCode : Stmt.emitAll globals labels (.loop s₀ .whileDo cond body :: xs) s = .ok code s')
    (hCond : cond.emit globals s = .ok c s₁) (hContinue : Stmt.jumpsAny .continue_ body = true) :
    Enclosing.Continues globals
      ⟨.loop s₀ .whileDo cond body, labels, (before ++ c ++ [Instr.if_]).length⟩
      (before ++ code) := by
  obtain ⟨_, s₂, rest, hX, -, rfl⟩ := Stmt.emitAll_cons_eq_ok hCode
  obtain ⟨_, _, b, s₃, c', hCond', hBody, hLast, rfl⟩ := Stmt.emit_whileDo_eq_ok hX
  cases hCond.symm.trans hCond'
  obtain ⟨hStraight, hSound⟩ := Expr.emit_straight h.sound hCond
  obtain ⟨hNested, -⟩ := Stmt.emitAll_nested hSound hBody
  have hIf := scan_concat (scan_then h.scan (.of_straight hStraight)) .if_
  rw [bodyLabels_length, hContinue] at hNested
  refine Enclosing.continues_of_scan hIf rfl (by simpa [h.length] using hNested) rfl hLast
    ([Instr.end_] ++ rest) ?_
  rw [hContinue]
  simp

theorem Aligned.doWhile_continues {cond : Expr Ty}
    (h : Aligned ⟨.loop s₀ .doWhile cond body :: xs, labels, s, before, loops⟩ opens)
    (hCode : Stmt.emitAll globals labels (.loop s₀ .doWhile cond body :: xs) s = .ok code s')
    (hContinue : Stmt.jumpsAny .continue_ body = true) :
    Enclosing.Continues globals ⟨.loop s₀ .doWhile cond body, labels,
      (before ++ if Stmt.jumpsAny .break_ body then [Instr.block] else []).length⟩
      (before ++ code) := by
  obtain ⟨_, s₂, rest, hX, -, rfl⟩ := Stmt.emitAll_cons_eq_ok hCode
  obtain ⟨b, s₃, c, hBody, hCond, rfl⟩ := Stmt.emit_doWhile_eq_ok hX
  obtain ⟨hNested, -⟩ := Stmt.emitAll_nested h.sound hBody
  rw [bodyLabels_length, hContinue] at hNested
  cases hBreak : Stmt.jumpsAny .break_ body with
  | false =>
    have hScan : Wasm.Code.scan 0 [] (before ++ []) = some opens := by
      rw [List.append_nil]
      exact h.scan
    rw [hBreak] at hNested
    refine Enclosing.continues_of_scan hScan rfl (by simpa [h.length] using hNested) rfl hCond
      rest ?_
    rw [hContinue]
    simp [Emit.blockIf]
  | true =>
    rw [hBreak] at hNested
    refine Enclosing.continues_of_scan (scan_concat h.scan .block) rfl
      (by simpa [h.length] using hNested) rfl hCond ([Instr.end_] ++ rest) ?_
    rw [hContinue]
    simp [Emit.blockIf]

theorem Aligned.forLoop_continues {init update : Option (Stmt Ty)} {cond : Option (Expr Ty)}
    (h : Aligned ⟨.forLoop s₀ init cond update body :: xs, labels, s, before, loops⟩ opens)
    (hCode : Stmt.emitAll globals labels (.forLoop s₀ init cond update body :: xs) s = .ok code s')
    (hInit : Stmt.emitOption globals labels init s = .ok i s₁)
    (hCond : Emit.condition globals cond s₁ = .ok c s₂)
    (hContinue : Stmt.jumpsAny .continue_ body = true) :
    Enclosing.Continues globals ⟨.forLoop s₀ init cond update body, labels,
      (before ++ i ++ c ++ [Instr.if_]).length⟩ (before ++ code) := by
  obtain ⟨_, _, rest, hX, -, rfl⟩ := Stmt.emitAll_cons_eq_ok hCode
  obtain ⟨_, _, _, _, b, s₃, u, s₄, c', hInit', hCond', hBody, hUpdate, hLast, rfl⟩ :=
    Stmt.emit_forLoop_eq_ok hX
  cases hInit.symm.trans hInit'
  cases hCond.symm.trans hCond'
  obtain ⟨hNested, hSound₁⟩ := Stmt.emitOption_nested h.sound hInit
  obtain ⟨hStraight, hSound₂⟩ := Emit.condition_straight hSound₁ hCond
  obtain ⟨hNestedBody, -⟩ := Stmt.emitAll_nested hSound₂ hBody
  rw [← h.length] at hNested
  have hIf := scan_concat (scan_then (scan_then h.scan hNested) (.of_straight hStraight)) .if_
  rw [bodyLabels_length, hContinue] at hNestedBody
  refine Enclosing.continues_of_scan hIf rfl (by simpa [h.length] using hNestedBody) hUpdate hLast
    ([Instr.end_] ++ rest) ?_
  rw [hContinue]
  simp

end

theorem Aligned.loops_of_step {opens : List Opened} (h : p.Aligned opens)
    (hStep : p.Steps globals q) {code : Code} {s : Frame} (hp : p.emit globals = .ok code s) :
    q.loops = p.loops ∨ ∃ L, q.loops = L :: p.loops ∧
      (Stmt.jumpsAny .continue_ L.stmt.body = true → L.Continues globals (p.before ++ code)) := by
  cases hStep with
  | next | thenBody | elseBody | forInit => exact .inl rfl
  | whileBody hCond => exact .inr ⟨_, rfl, h.whileDo_continues hp hCond⟩
  | doBody => exact .inr ⟨_, rfl, h.doWhile_continues hp⟩
  | forBody hInit hCond => exact .inr ⟨_, rfl, h.forLoop_continues hp hInit hCond⟩
  | forUpdate hInit hCond hBody => exact .inr ⟨_, rfl, h.forLoop_continues hp hInit hCond⟩

theorem Aligned.reaches {opens : List Opened} (h : p.Aligned opens) (hReaches : p.Reaches globals q) :
    ∃ opens', q.Aligned opens' := by
  induction hReaches with
  | refl => exact ⟨opens, h⟩
  | tail _ hStep ih =>
    obtain ⟨opens', hAligned⟩ := ih
    exact hAligned.step hStep

theorem Reaches.emit_error (hReaches : p.Reaches globals q) {e : Located CodeError} {s : Frame}
    (hq : q.emit globals = .error e s) : p.emit globals = .error e s := by
  induction hReaches with
  | refl => exact hq
  | tail _ hStep ih => exact ih (hStep.emit_error hq)

theorem Reaches.emit_ok (hReaches : p.Reaches globals q) {code : Code} {s : Frame}
    (hp : p.emit globals = .ok code s) :
    ∃ code' s', q.emit globals = .ok code' s' ∧ q.before ++ code' <+: p.before ++ code := by
  induction hReaches with
  | refl => exact ⟨code, s, hp, List.prefix_refl _⟩
  | tail _ hStep ih =>
    obtain ⟨code₁, s₁, hOk, hPrefix⟩ := ih
    obtain ⟨code₂, s₂, hOk', hPrefix'⟩ := hStep.emit_ok hOk
    exact ⟨code₂, s₂, hOk', hPrefix'.trans hPrefix⟩

theorem Aligned.continues_of_reaches {opens : List Opened} (h : p.Aligned opens)
    (hLoops : p.loops = []) (hReaches : p.Reaches globals q) {code : Code} {s : Frame}
    (hp : p.emit globals = .ok code s) :
    ∀ L ∈ q.loops, Stmt.jumpsAny .continue_ L.stmt.body = true →
      L.Continues globals (p.before ++ code) := by
  induction hReaches with
  | refl => simp [hLoops]
  | tail hReaches hStep ih =>
    obtain ⟨opens', hAligned⟩ := h.reaches hReaches
    obtain ⟨code₁, s₁, hOk, hPrefix⟩ := Reaches.emit_ok hReaches hp
    obtain hSame | ⟨L, hInto, hContinues⟩ := hAligned.loops_of_step hStep hOk
    · rw [hSame]
      exact ih
    · rw [hInto]
      exact List.forall_mem_cons.mpr
        ⟨fun hContinue => (hContinues hContinue).mono hPrefix, ih⟩

end Point

namespace Function

variable {f : Function Ty} {globals : Globals} {m : Memory}

def entryPoint (f : Function Ty) (m : Memory) : Point := ⟨f.body, [], f.start m, [], []⟩

/-- Lowering reaches a jump at the point. -/
def MeetsJump (f : Function Ty) (globals : Globals) (m : Memory) (q : Point) (s : Span) (j : Jump) :
    Prop :=
  (f.entryPoint m).Reaches globals q ∧ ∃ rest, q.rest = .jump s j :: rest

theorem entryPoint_aligned (hStill : f.headersStill = true) : (f.entryPoint m).Aligned [] where
  scan := rfl
  length := rfl
  sound := f.start_sound m
  still := hStill
  outside _ _ := by simp [entryPoint]
  inside _ _ hLoops := by cases hLoops

theorem emit_outsideLoop_iff {s : Span} {j : Jump} {fin : Frame} :
    f.emit globals ⟨m, [], []⟩ = .error ⟨s, .outsideLoop j⟩ fin ↔
      (f.entryPoint m).emit globals = .error ⟨s, .outsideLoop j⟩ fin := by
  rw [emit, Action.bind_of_ok (f.declareParams_eq m)]
  constructor
  · intro h
    obtain h | ⟨code, s₁, -, h⟩ := Action.bind_eq_error_iff.mp h
    · exact h
    · obtain h | ⟨body, s₂, -, h⟩ := Action.bind_eq_error_iff.mp h
      · rw [close] at h
        split at h
        · cases h
        · split at h
          · cases h
          · split at h <;> cases h
      · cases h
  · exact fun h => Action.bind_of_error h

theorem entryPoint_emit_of_ok {fn : Wasm.Function} {fin : Frame}
    (h : f.emit globals ⟨m, [], []⟩ = .ok fn fin) :
    ∃ code, (f.entryPoint m).emit globals = .ok code fin ∧ code <+: fn.body ∧
      ∀ (i d : Nat), fn.body[i]? = some (.br d) → code[i]? = some (.br d) := by
  obtain ⟨code, hBody, hClose, -⟩ := emit_eq_ok h
  have hClosed : ∃ tail, fn.body = code ++ tail ∧ ∀ d, .br d ∉ tail := by
    obtain ⟨-, ⟨-, hSame⟩ | ⟨-, -, hSame⟩⟩ := close_eq_ok hClose
    · exact ⟨[], by rw [hSame, List.append_nil], by simp⟩
    · refine ⟨_, hSame, fun d => ?_⟩
      split <;> simp
  obtain ⟨tail, hSame, hTail⟩ := hClosed
  refine ⟨code, hBody, hSame ▸ List.prefix_append _ _, fun i d hi => ?_⟩
  rw [hSame, List.getElem?_append] at hi
  split at hi
  · exact hi
  · exact absurd (List.mem_of_getElem? hi) (hTail d)

theorem MeetsJump.error_of_outside (hStill : f.headersStill = true) {q : Point} {s : Span} {j : Jump}
    (h : f.MeetsJump globals m q s j) (hLoops : q.loops = []) :
    (Stmt.jump s j).emit globals q.labels q.frame = .error ⟨s, .outsideLoop j⟩ q.frame ∧
      f.emit globals ⟨m, [], []⟩ = .error ⟨s, .outsideLoop j⟩ q.frame := by
  obtain ⟨hReaches, rest, hRest⟩ := h
  obtain ⟨opens, hAligned⟩ := (entryPoint_aligned hStill).reaches hReaches
  have hNone : q.labels.findIdx? (fun l => decide (l = some j)) = none := by
    rw [List.findIdx?_eq_none_iff]
    intro l hl
    rw [decide_eq_false_iff_not]
    rintro rfl
    exact hAligned.outside hLoops j hl
  have hJump : (Stmt.jump s j).emit globals q.labels q.frame =
      .error ⟨s, .outsideLoop j⟩ q.frame := by
    rw [Stmt.emit, Emit.jump, hNone]
    rfl
  refine ⟨hJump, emit_outsideLoop_iff.mpr (Point.Reaches.emit_error hReaches ?_)⟩
  rw [Point.emit, hRest]
  exact Stmt.emitAll_cons_of_error rest hJump

theorem MeetsJump.lands (hStill : f.headersStill = true) {q : Point} {s : Span} {j : Jump}
    (h : f.MeetsJump globals m q s j) {L : Enclosing} {outer : List Enclosing}
    (hLoops : q.loops = L :: outer) :
    ∃ d opens, (Stmt.jump s j).emit globals q.labels q.frame = .ok [.br d] q.frame ∧
      q.before.scan 0 [] = some opens ∧ opens[d]? = some (L.target j) ∧
      ∀ fn fin, f.emit globals ⟨m, [], []⟩ = .ok fn fin →
        q.before ++ [Instr.br d] <+: fn.body ∧ (j = .continue_ → L.Continues globals fn.body) := by
  obtain ⟨hReaches, rest, hRest⟩ := h
  obtain ⟨opens, hAligned⟩ := (entryPoint_aligned hStill).reaches hReaches
  obtain ⟨hOwn, d, hDepth, hTarget⟩ := hAligned.inside L outer hLoops j (by
    simp [hRest, Stmt.jumpsAny, Stmt.jumps])
  have hJump : (Stmt.jump s j).emit globals q.labels q.frame = .ok [.br d] q.frame := by
    rw [Stmt.emit, Emit.jump, hDepth]
    rfl
  refine ⟨d, opens, hJump, hAligned.scan, hTarget, fun fn fin hEmit => ?_⟩
  obtain ⟨code, hBody, hPrefix, -⟩ := entryPoint_emit_of_ok hEmit
  obtain ⟨code', s', hCode, hHere⟩ := Point.Reaches.emit_ok hReaches hBody
  rw [Point.emit, hRest] at hCode
  obtain ⟨a, s₁, b, hA, -, rfl⟩ := Stmt.emitAll_cons_eq_ok hCode
  cases hJump.symm.trans hA
  constructor
  · rw [← List.append_assoc] at hHere
    exact ((List.prefix_append _ b).trans hHere).trans hPrefix
  · rintro rfl
    have hMem : L ∈ q.loops := by
      rw [hLoops]
      exact List.mem_cons_self
    have hContinues := (entryPoint_aligned hStill).continues_of_reaches rfl hReaches hBody
    exact (hContinues L hMem hOwn).mono hPrefix

/-- Every jump that lowering reaches leads to the right place: without a loop around it, it fails, and
so does the function; with one, it becomes a branch to the block that was opened for it.  There are no
other branches, and no other jump fails. -/
theorem jumps_land (hStill : f.headersStill = true) (globals : Globals) (m : Memory) :
    (∀ q s j, f.MeetsJump globals m q s j →
      (q.loops = [] →
        (Stmt.jump s j).emit globals q.labels q.frame = .error ⟨s, .outsideLoop j⟩ q.frame ∧
        f.emit globals ⟨m, [], []⟩ = .error ⟨s, .outsideLoop j⟩ q.frame) ∧
      ∀ L outer, q.loops = L :: outer → ∃ d opens,
        (Stmt.jump s j).emit globals q.labels q.frame = .ok [.br d] q.frame ∧
        q.before.scan 0 [] = some opens ∧ opens[d]? = some (L.target j) ∧
        ∀ fn fin, f.emit globals ⟨m, [], []⟩ = .ok fn fin →
          q.before ++ [Instr.br d] <+: fn.body ∧ (j = .continue_ → L.Continues globals fn.body)) ∧
    (∀ s j fin, f.emit globals ⟨m, [], []⟩ = .error ⟨s, .outsideLoop j⟩ fin →
      ∃ q, f.MeetsJump globals m q s j ∧ q.loops = []) ∧
    ∀ fn fin, f.emit globals ⟨m, [], []⟩ = .ok fn fin → ∀ (i d : Nat), fn.body[i]? = some (.br d) →
      ∃ q s j, f.MeetsJump globals m q s j ∧ q.before.length = i := by
  refine ⟨fun q s j h => ⟨h.error_of_outside hStill, fun L outer => h.lands hStill⟩, ?_, ?_⟩
  · intro s j fin hEmit
    obtain ⟨q, rest, hReaches, hRest, hError⟩ :=
      Stmt.emitAll_fails f.body [] [] (emit_outsideLoop_iff.mp hEmit)
    have hMeets : f.MeetsJump globals m q s j := ⟨hReaches, rest, hRest⟩
    refine ⟨q, hMeets, ?_⟩
    cases hLoops : q.loops with
    | nil => rfl
    | cons L outer =>
      obtain ⟨d, opens, hJump, -⟩ := hMeets.lands hStill hLoops
      cases hJump.symm.trans hError
  · intro fn fin hEmit i d hi
    obtain ⟨code, hBody, -, hBranch⟩ := entryPoint_emit_of_ok hEmit
    obtain ⟨q, s, j, rest, hReaches, hRest, hLength⟩ :=
      Stmt.emitAll_branches f.body [] [] (f.start_sound m) hBody i d (hBranch i d hi)
    exact ⟨q, s, j, ⟨hReaches, rest, hRest⟩, by simpa using hLength⟩

/-- Three jumps in two loops: a `continue` and a `break` of the inner loop, and a `break` of the
outer one. -/
def nestedLoops : Function Ty :=
  let n : Expr Ty := .var .int .start ⟨"n", .start⟩
  { name := ⟨"f", .start⟩
    returnTy := .void
    params := [⟨⟨"n", .start⟩, .int⟩]
    body := [.loop .start .whileDo n
      [.loop .start .doWhile n
          [.branch .start n [.jump .start .continue_] [.jump .start .break_]],
        .jump .start .break_]] }

theorem jumps_land_nestedLoops :
    ∃ fn fin, nestedLoops.headersStill = true ∧
      nestedLoops.emit [] ⟨.empty, [], []⟩ = .ok fn fin ∧
      ∀ i d o,
        (i, d, o) ∈ [(8, 1, (⟨5, .block⟩ : Opened)), (10, 3, ⟨3, .block⟩), (17, 1, ⟨1, .if_⟩)] →
        fn.body[i]? = some (.br d) ∧
        ∃ q s j L outer, nestedLoops.MeetsJump [] .empty q s j ∧ q.before = fn.body.take i ∧
          q.loops = L :: outer ∧ L.target j = o := by
  obtain ⟨fn, fin, hEmit, hPlaces⟩ : ∃ fn fin,
      nestedLoops.emit [] ⟨.empty, [], []⟩ = .ok fn fin ∧
      ∀ x ∈ [(8, 1, (⟨5, .block⟩ : Opened)), (10, 3, ⟨3, .block⟩), (17, 1, ⟨1, .if_⟩)],
        fn.body[x.1]? = some (.br x.2.1) ∧
        (Wasm.Code.scan 0 [] (fn.body.take x.1)).bind (·[x.2.1]?) = some x.2.2 :=
    ⟨_, _, rfl, by decide⟩
  obtain ⟨hEach, -, hAll⟩ := jumps_land (f := nestedLoops) rfl [] .empty
  refine ⟨fn, fin, rfl, hEmit, fun i d o hMem => ?_⟩
  obtain ⟨hBranch, hOpen⟩ := hPlaces _ hMem
  obtain ⟨q, s, j, hMeets, hLength⟩ := hAll fn fin hEmit i d hBranch
  obtain ⟨hOutside, hInside⟩ := hEach q s j hMeets
  cases hLoops : q.loops with
  | nil => cases hEmit.symm.trans (hOutside hLoops).2
  | cons L outer =>
    obtain ⟨d', opens, -, hScan, hTarget, hPlace⟩ := hInside L outer hLoops
    obtain ⟨more, hBody⟩ := (hPlace fn fin hEmit).1
    have hBefore : q.before = fn.body.take i := by simp [← hBody, ← hLength]
    have hDepth : d' = d := by simpa [← hBody, ← hLength] using hBranch
    rw [← hBefore, hScan, ← hDepth, Option.bind_some, hTarget] at hOpen
    exact ⟨hBranch, q, s, j, L, outer, hMeets, hBefore, hLoops, Option.some.inj hOpen⟩

end Function

end MiniC
