import MiniC.Proofs.Sources
import MiniC.Proofs.Typing.Stmt

/-! # The heads of `for` loops

What starts a `for` loop and what ends each of its passes are simple statements, in every program that
comes from a source: they contain no other statements, and no jumps.
-/
namespace MiniC
set_option autoImplicit false

variable {α β : Type}

namespace Stmt

def isSimple : Stmt α → Bool
  | assign .. | declare .. | store .. | expr .. => true
  | _ => false

mutual

/-- Only simple statements stand in the heads of the loops. -/
def HeadsSimple : Stmt α → Prop
  | branch _ _ thenBody elseBody => HeadsSimpleAll thenBody ∧ HeadsSimpleAll elseBody
  | loop _ _ _ body => HeadsSimpleAll body
  | forLoop _ init _ update body =>
    (∀ x ∈ init, x.isSimple = true) ∧ (∀ x ∈ update, x.isSimple = true) ∧ HeadsSimpleAll body
  | _ => True

def HeadsSimpleAll : List (Stmt α) → Prop
  | [] => True
  | x :: xs => x.HeadsSimple ∧ HeadsSimpleAll xs

end

theorem headsSimple_of_isSimple {x : Stmt α} (h : x.isSimple = true) : x.HeadsSimple := by
  cases x <;> trivial

theorem headsSimpleAll_iff {xs : List (Stmt α)} :
    HeadsSimpleAll xs ↔ ∀ x ∈ xs, x.HeadsSimple := by
  induction xs with
  | nil => simp [HeadsSimpleAll]
  | cons x xs ih => simp [HeadsSimpleAll, ih]

end Stmt

namespace Parser

/-- Whatever the parser reads has the property. -/
def Yields (p : Parser α) (P : α → Prop) : Prop := ∀ s a s', p s = .ok (a, s') → P a

namespace Yields

variable {P : α → Prop} {Q : β → Prop} {p : Parser α}

theorem pure {a : α} (h : P a) : Yields (Pure.pure a) P := by
  intro s b s' hRun
  cases hRun
  exact h

theorem fail {span : Span} {e : ParseError} : Yields (Parser.fail span e) P := by
  intro s a s' hRun
  cases hRun

theorem bind {f : α → Parser β} (hp : Yields p P) (hf : ∀ a, P a → Yields (f a) Q) :
    Yields (p >>= f) Q := by
  intro s b s' hRun
  change Except.bind (p s) (fun r => f r.1 r.2) = .ok (b, s') at hRun
  cases hFirst : p s with
  | error e =>
    rw [hFirst] at hRun
    cases hRun
  | ok r =>
    rw [hFirst] at hRun
    exact hf r.1 (hp s r.1 r.2 hFirst) r.2 b s' hRun

theorem after {f : α → Parser β} (hf : ∀ a, Yields (f a) Q) : Yields (p >>= f) Q :=
  bind (P := fun _ => True) (fun _ _ _ _ => trivial) fun a _ => hf a

theorem ite {c : Prop} [Decidable c] {p q : Parser α} (hp : Yields p P) (hq : Yields q P) :
    Yields (if c then p else q) P := by
  split
  · exact hp
  · exact hq

theorem exhausted : Yields Parser.exhausted P := after fun _ => fail

theorem budgeted {p : Nat → Parser α} (h : ∀ n, Yields (p n) P) : Yields (Parser.budgeted p) P :=
  fun s a s' hRun => h _ s a s' hRun

theorem spanned {p : Parser (Span → α)} (h : Yields p fun build => ∀ s, P (build s)) :
    Yields (Parser.spanned p) P :=
  after fun _ => h.bind fun _ hBuild => after fun _ => pure (hBuild _)

theorem unlessSees {k : Kind} (h : Yields p P) :
    Yields (Parser.unlessSees k p) fun a? => ∀ a ∈ a?, P a := by
  refine after fun seen => ite (pure (by simp)) (h.bind fun a ha => pure ?_)
  rintro _ ⟨⟩
  exact ha

theorem many {stop : Kind} (h : Yields p P) (n : Nat) :
    Yields (Parser.many stop p n) fun as => ∀ a ∈ as, P a := by
  induction n with
  | zero => exact exhausted
  | succ n ih =>
    refine after fun _ => ite (pure (by simp)) (h.bind fun a ha => ih.bind fun as has => pure ?_)
    exact List.forall_mem_cons.mpr ⟨ha, has⟩

end Yields

theorem afterIdent_yields (x : Ident) :
    Yields (afterIdent x) fun build => ∀ s, (build s).isSimple = true := by
  refine .after fun _ => .ite (.after fun _ => .pure fun _ => rfl) (.after fun _ => .ite ?_ ?_)
  · exact .after fun _ => .after fun _ => .ite (.after fun _ => .pure fun _ => rfl)
      (.after fun _ => .after fun _ => .pure fun _ => rfl)
  · exact .after fun _ => .after fun _ => .pure fun _ => rfl

theorem simpleForm_yields : Yields simpleForm fun build => ∀ s, (build s).isSimple = true := by
  refine .after fun _ => .ite ?_ (.ite (.after fun x => afterIdent_yields x) ?_)
  · exact .after fun _ => .after fun _ => .after fun _ => .after fun _ => .pure fun _ => rfl
  · exact .after fun _ => .pure fun _ => rfl

section

variable {stmt : Parser (Stmt Unit)} (h : Yields stmt Stmt.HeadsSimple)

include h

theorem block_yields : Yields (block stmt) Stmt.HeadsSimpleAll :=
  .after fun _ => (Yields.budgeted h.many).bind fun _ hBody =>
    .after fun _ => .pure (Stmt.headsSimpleAll_iff.mpr hBody)

theorem elseBody_yields : Yields (elseBody stmt) Stmt.HeadsSimpleAll := by
  refine .after fun _ => .ite (.after fun _ => .ite ?_ (block_yields h)) (.pure trivial)
  exact h.bind fun _ hX => .pure ⟨hX, trivial⟩

theorem forForm_yields : Yields (forForm stmt) fun build => ∀ s, (build s).HeadsSimple := by
  have hSimple : Yields simple fun x => x.isSimple = true := .spanned simpleForm_yields
  refine .after fun _ => hSimple.unlessSees.bind fun init hInit => ?_
  refine .after fun _ => .after fun _ => .after fun _ => ?_
  refine hSimple.unlessSees.bind fun update hUpdate => .after fun _ => ?_
  exact (block_yields h).bind fun body hBody => .pure fun _ => ⟨hInit, hUpdate, hBody⟩

theorem stmtForm_yields : Yields (stmtForm stmt) fun build => ∀ s, (build s).HeadsSimple := by
  refine .after fun k => ?_
  split
  · exact .after fun _ => .after fun _ => .after fun _ => .pure fun _ => trivial
  · refine .after fun _ => .after fun _ => (block_yields h).bind fun _ hThen => ?_
    exact (elseBody_yields h).bind fun _ hElse => .pure fun _ => ⟨hThen, hElse⟩
  · exact .after fun _ => .after fun _ => (block_yields h).bind fun _ hBody =>
      .pure fun _ => hBody
  · exact .after fun _ => (block_yields h).bind fun _ hBody =>
      .after fun _ => .after fun _ => .after fun _ => .pure fun _ => hBody
  · exact .after fun _ => forForm_yields h
  · exact .after fun _ => .after fun _ => .pure fun _ => trivial
  · exact .after fun _ => .after fun _ => .pure fun _ => trivial
  · exact simpleForm_yields.bind fun _ hBuild =>
      .after fun _ => .pure fun s => Stmt.headsSimple_of_isSimple (hBuild s)

end

theorem stmtWithin_yields (n : Nat) : Yields (stmtWithin n) Stmt.HeadsSimple := by
  induction n with
  | zero => exact .exhausted
  | succ n ih => exact .spanned (stmtForm_yields ih)

theorem item_yields : Yields item fun i => ∀ f, i = .function f → Stmt.HeadsSimpleAll f.body := by
  have hStmt : Yields stmt Stmt.HeadsSimple := .budgeted stmtWithin_yields
  refine .after fun _ => .after fun _ => .after fun _ => .ite ?_ ?_
  · refine .after fun _ => .after fun _ => (block_yields hStmt).bind fun _ hBody => .pure ?_
    rintro _ ⟨⟩
    exact hBody
  · refine .after fun _ => .after fun _ => .pure ?_
    rintro _ ⟨⟩

end Parser

/-- Only simple statements stand in the heads of the loops of the functions. -/
def Program.HeadsSimple (p : Program α) : Prop :=
  ∀ f, .function f ∈ p.items → Stmt.HeadsSimpleAll f.body

namespace Program

theorem headsSimple_of_ofTokens {tokens : List Token} {p : Program Unit}
    (h : Program.ofTokens tokens = .ok p) : p.HeadsSimple := by
  have hProgram : Parser.Yields Parser.program HeadsSimple :=
    (Parser.Yields.budgeted (Parser.Yields.many Parser.item_yields)).bind fun _ hItems =>
      .after fun _ => .pure fun f hf => hItems _ hf f rfl
  rw [Program.ofTokens] at h
  cases hRun : Parser.program (Stream.ofTokens tokens) with
  | error e =>
    rw [hRun] at h
    cases h
  | ok r =>
    rw [hRun] at h
    cases h
    exact hProgram _ _ _ hRun

theorem headsSimple_of_parse {source : String} {p : Program Unit}
    (h : Program.parse source = .ok p) : p.HeadsSimple := by
  simp only [Program.parse] at h
  split at h
  · cases h
  · cases hTokens : Program.ofTokens (Token.scan source) with
    | error e =>
      rw [hTokens] at h
      cases h
    | ok tree =>
      rw [hTokens] at h
      cases h
      exact headsSimple_of_ofTokens hTokens

end Program

namespace Stmt

variable {ctx : FunctionContext}

theorem isSimple_of_check {scope scope' : Scope} {x : Stmt Unit} {y : Stmt Ty}
    (h : x.check ctx scope = .ok (y, scope')) (hx : x.isSimple = true) : y.isSimple = true := by
  cases x with
  | assign s target value =>
    simp only [check, Checked.bind_eq_ok_iff, Checked.pure_eq_ok_iff, Prod.mk.injEq] at h
    obtain ⟨_, _, _, _, rfl, _⟩ := h
    rfl
  | declare s name ty init =>
    simp only [check, Checked.bind_eq_ok_iff, Checked.pure_eq_ok_iff, Prod.mk.injEq] at h
    obtain ⟨_, _, _, _, rfl, _⟩ := h
    rfl
  | store s base offset value =>
    simp only [check, Checked.bind_eq_ok_iff, Checked.pure_eq_ok_iff, Prod.mk.injEq] at h
    obtain ⟨y, hStore, rfl, _⟩ := h
    obtain ⟨_, _, _, _, rfl, -⟩ := checkStore_eq_ok hStore
    rfl
  | expr s value =>
    simp only [check, Checked.bind_eq_ok_iff, Checked.pure_eq_ok_iff, Prod.mk.injEq] at h
    obtain ⟨_, _, rfl, _⟩ := h
    rfl
  | _ => cases hx

theorem isSimple_of_checkOption {scope scope' : Scope} {x? : Option (Stmt Unit)}
    {y? : Option (Stmt Ty)} (h : checkOption ctx scope x? = .ok (y?, scope'))
    (hx : ∀ x ∈ x?, x.isSimple = true) : ∀ y ∈ y?, y.isSimple = true := by
  cases x? with
  | none =>
    cases h
    simp
  | some x =>
    simp only [checkOption, Checked.bind_eq_ok_iff, Checked.pure_eq_ok_iff, Prod.mk.injEq,
      Prod.exists] at h
    obtain ⟨y, scope₁, hX, rfl, rfl⟩ := h
    rintro _ ⟨⟩
    exact isSimple_of_check hX (hx x rfl)

mutual

theorem headsSimple_of_check {scope scope' : Scope} (x : Stmt Unit) {y : Stmt Ty}
    (h : x.check ctx scope = .ok (y, scope')) (hx : x.HeadsSimple) : y.HeadsSimple := by
  cases x with
  | ret s value =>
    simp only [check, Checked.bind_eq_ok_iff, Checked.pure_eq_ok_iff, Prod.mk.injEq] at h
    obtain ⟨_, hReturn, rfl, rfl⟩ := h
    obtain ⟨_, rfl, -⟩ := checkReturn_eq_ok hReturn
    trivial
  | branch s cond thenBody elseBody =>
    simp only [check, Checked.bind_eq_ok_iff, Checked.pure_eq_ok_iff, Prod.mk.injEq,
      Prod.exists] at h
    obtain ⟨_, _, _, _, hThen, _, _, hElse, rfl, rfl⟩ := h
    exact ⟨headsSimple_of_checkAll thenBody hThen hx.1,
      headsSimple_of_checkAll elseBody hElse hx.2⟩
  | loop s kind cond body =>
    simp only [check, Checked.bind_eq_ok_iff, Checked.pure_eq_ok_iff, Prod.mk.injEq,
      Prod.exists] at h
    obtain ⟨_, _, _, _, hBody, rfl, rfl⟩ := h
    exact headsSimple_of_checkAll body hBody hx
  | forLoop s init cond update body =>
    simp only [check, Checked.bind_eq_ok_iff, Checked.pure_eq_ok_iff, Prod.mk.injEq,
      Prod.exists] at h
    obtain ⟨_, _, hInit, _, _, _, _, hUpdate, _, _, hBody, rfl, rfl⟩ := h
    exact ⟨isSimple_of_checkOption hInit hx.1, isSimple_of_checkOption hUpdate hx.2.1,
      headsSimple_of_checkAll body hBody hx.2.2⟩
  | jump s j =>
    cases h
    trivial
  | _ => exact headsSimple_of_isSimple (isSimple_of_check h rfl)

theorem headsSimple_of_checkAll {scope scope' : Scope} (xs : List (Stmt Unit))
    {ys : List (Stmt Ty)} (h : checkAll ctx scope xs = .ok (ys, scope'))
    (hxs : HeadsSimpleAll xs) : HeadsSimpleAll ys := by
  cases xs with
  | nil =>
    cases h
    trivial
  | cons x xs =>
    simp only [checkAll, Checked.bind_eq_ok_iff, Checked.pure_eq_ok_iff, Prod.mk.injEq,
      Prod.exists] at h
    obtain ⟨y, scope₁, hX, ys, scope₂, hXs, rfl, rfl⟩ := h
    exact ⟨headsSimple_of_check x hX hxs.1, headsSimple_of_checkAll xs hXs hxs.2⟩

end

end Stmt

theorem headsSimple_of_checkItems {sigs : Signatures} {globals : Scope} {items : List (Item Unit)}
    {items' : List (Item Ty)} (h : checkItems sigs globals items = .ok items')
    (hItems : (Program.mk items).HeadsSimple) : (Program.mk items').HeadsSimple := by
  induction items generalizing globals items' with
  | nil =>
    cases h
    simp [Program.HeadsSimple]
  | cons item items ih =>
    have hRest : (Program.mk items).HeadsSimple := fun f hf => hItems f (List.mem_cons_of_mem _ hf)
    cases item with
    | global g =>
      simp only [checkItems, Checked.bind_eq_ok_iff, Checked.pure_eq_ok_iff] at h
      obtain ⟨g', -, items', hNext, rfl⟩ := h
      intro f hf
      exact ih hNext hRest f ((List.mem_cons.mp hf).resolve_left (by simp))
    | function f₀ =>
      simp only [checkItems, Function.check, Checked.bind_eq_ok_iff, Checked.pure_eq_ok_iff,
        Prod.exists] at h
      obtain ⟨_, ⟨body, _, hBody, rfl⟩, items', hNext, rfl⟩ := h
      intro f hf
      rcases List.mem_cons.mp hf with hf | hf
      · cases hf
        exact Stmt.headsSimple_of_checkAll f₀.body hBody (hItems f₀ List.mem_cons_self)
      · exact ih hNext hRest f hf

theorem Program.headsSimple_of_checkSource {source : String} {p : Program Ty}
    (h : checkSource source = .ok p) : p.HeadsSimple := by
  obtain ⟨tree, hParse, hCheck⟩ := checkSource_eq_ok_iff.mp h
  simp only [Program.check, Checked.bind_eq_ok_iff, Checked.pure_eq_ok_iff] at hCheck
  obtain ⟨sigs, -, items, hItems, rfl⟩ := hCheck
  exact headsSimple_of_checkItems hItems (headsSimple_of_parse hParse)

end MiniC
