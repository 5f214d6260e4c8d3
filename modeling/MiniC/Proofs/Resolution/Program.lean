import MiniC.Proofs.Resolution.Stmt
import MiniC.Proofs.Resolution.Uses
import MiniC.Proofs.Sources
import MiniC.Proofs.Validation.Algorithm

/-! # Visits and uses of a program

Both stages meet the globals before a function and its parameters in the same order.  So the visits of
a program are its uses, and whether a name is resolved, and to a place of the right machine type, can
be read off the declarations.  It is not always: the condition of a loop is looked up a second time
after the declarations of the body, and the body before those of the update.
-/
namespace MiniC
set_option autoImplicit false

open Wasm (Code Instr ValType)

variable {α : Type}

theorem Emit.declareParams_shows {globals : Globals} (params : List Param) {s s' : Frame}
    {scope : Scope} {u : PUnit} (hs : s.Shows globals scope)
    (h : params.forM (fun p => discard (declare p.name p.ty)) s = .ok u s') :
    s'.Shows globals (params.foldl (fun scope p => scope.declare p.name p.ty) scope) := by
  induction params generalizing s scope with
  | nil =>
    cases h
    exact hs
  | cons p params ih =>
    simp only [List.forM] at h
    have hNext : (declare p.name p.ty s) = .ok s.slots.length _ := declare_eq ..
    exact ih (hs.declare hNext) ((Action.bind_of_ok (Action.map_of_ok hNext)).symm.trans h)

/-- A function starts with the names of the globals. -/
theorem Frame.shows_globals (globals : Globals) (m : Memory) :
    (Frame.mk m [] []).Shows globals globals.scope := by
  intro x
  have hLookup : List.lookup x globals.scope = (List.lookup x globals).map Prod.snd := by
    induction globals with
    | nil => rfl
    | cons g globals ih =>
      rw [Globals.scope, List.map_cons, List.lookup_cons, List.lookup_cons]
      by_cases hx : x == g.1
      · rw [hx]
        rfl
      · rw [Bool.eq_false_iff.mpr hx]
        exact ih
  rw [hLookup, place?]
  cases List.lookup x globals with
  | none => rfl
  | some d => exact ⟨.cell d.1 d.2.valType, rfl, rfl⟩

theorem AlwaysResolved.close (f : Function Ty) (code : Code) : AlwaysResolved (f.close code) := by
  rw [Function.close]
  split
  · exact pure
  · split
    · exact throw (by simp)
    · split <;> exact pure

namespace Function

theorem traced_of_check {sigs : Signatures} {f : Function Unit} {f' : Function Ty} {b : Builder}
    (h : f.check sigs b.globals.scope = .ok f') :
    Traced (fun _ => True) (f'.emit b.globals ⟨b.memory, [], []⟩)
      (f.visits sigs b.globals.scope b) (f.uses b.globals.scope) := by
  simp only [Function.check, Checked.bind_eq_ok_iff, Checked.pure_eq_ok_iff, Prod.exists] at h
  obtain ⟨body, c', hBody, rfl⟩ := h
  obtain ⟨-, hTraced⟩ := Stmt.traced_of_checkAll f.body hBody
  obtain ⟨s₁, hRun, -⟩ := Emit.declareParams f.params ⟨b.memory, [], []⟩
  have hs₁ := Emit.declareParams_shows f.params (Frame.shows_globals b.globals b.memory) hRun
  rw [uses, parameters, ← foldl_declare, visits, hRun, emit, Action.bind_of_ok hRun]
  refine (hTraced [] s₁ _ hs₁).andThen fun code s₂ _ _ => ?_
  have hGet : AlwaysResolved (get : Emit Frame) := fun _ _ _ h => by cases h
  exact .of_alwaysResolved ((AlwaysResolved.close _ code).bind fun _ =>
    hGet.bind fun _ => .pure) fun _ _ _ => trivial

end Function

namespace AlwaysResolved

theorem initialWord (x : Ident) (e : Expr Ty) : AlwaysResolved (initialWord x e) := by
  unfold MiniC.initialWord
  split
  · exact pure
  · exact (placeString _ _).bind fun _ => pure
  · exact pure
  · exact throw (by simp)

theorem cellWord? (g : Global Ty) : AlwaysResolved g.cellWord? := by
  rw [Global.cellWord?]
  cases g.init with
  | some init =>
    split
    · exact throw (by simp)
    · simp only [map_eq_pure_bind]
      exact (initialWord g.name init).bind fun _ => pure
  | none =>
    split
    · exact (reserveArray g.ty g.name.span).bind fun _ => pure
    · exact pure

theorem place (g : Global Ty) : AlwaysResolved g.place := by
  refine (alloc 4 g.name.span).bind fun cell => (cellWord? g).bind fun w? => ?_
  cases w? with
  | some w => exact modify.bind fun _ => pure
  | none => exact pure

theorem addGlobal (g : Global Ty) : AlwaysResolved (Builder.addGlobal g) := by
  intro b e b' h
  rw [Builder.addGlobal] at h
  cases hPlace : g.place b.memory with
  | ok cell m =>
    rw [hPlace] at h
    cases h
  | error e₁ m =>
    rw [hPlace] at h
    cases h
    exact place g _ _ _ hPlace

end AlwaysResolved

theorem Traced.addFunction {Q : Frame → Prop} {f : Function Ty} {b : Builder} {vs : List Visit}
    {us : List Use} (h : Traced Q (f.emit b.globals ⟨b.memory, [], []⟩) vs us) :
    Traced (fun b' => b'.globals.scope = b.globals.scope) (Builder.addFunction f b) vs us := by
  rw [Builder.addFunction]
  cases hEmit : f.emit b.globals ⟨b.memory, [], []⟩ with
  | ok fn s =>
    rw [hEmit] at h
    exact ⟨h.1, h.2.1, rfl⟩
  | error e s =>
    rw [hEmit] at h
    exact h

theorem Item.traced_of_checkItems {sigs : Signatures} {items : List (Item Unit)}
    {items' : List (Item Ty)} {b : Builder}
    (h : checkItems sigs b.globals.scope items = .ok items') :
    Traced (fun _ => True) (items'.forM Builder.addItem b) (visitsAll sigs b.globals.scope b items)
      (usesAll b.globals.scope items) := by
  induction items generalizing items' b with
  | nil =>
    cases h
    exact .pure trivial
  | cons item items ih =>
    cases item with
    | global g =>
      simp only [checkItems, Checked.bind_eq_ok_iff, Checked.pure_eq_ok_iff] at h
      obtain ⟨g', hG, rest, hRest, rfl⟩ := h
      obtain ⟨hName, hTy, -⟩ := Global.wellTyped_of_check hG
      simp only [visitsAll, hG, onChecked]
      have hAdd : Traced (fun b' => b'.globals.scope = Scope.declare b.globals.scope g'.name g'.ty)
          (Builder.addGlobal g' b) [] [] := by
        refine .of_alwaysResolved (.addGlobal g') fun _ b' h => ?_
        obtain ⟨cell, m, -, rfl⟩ := Builder.addGlobal_eq_ok h
        rfl
      refine hAdd.bind fun _ b₁ _ hb₁ => ?_
      rw [← hName, ← hTy, ← hb₁]
      exact ih (hb₁ ▸ hRest)
    | function f =>
      simp only [checkItems, Checked.bind_eq_ok_iff, Checked.pure_eq_ok_iff] at h
      obtain ⟨f', hF, rest, hRest, rfl⟩ := h
      simp only [visitsAll, hF, onChecked]
      refine (Function.traced_of_check hF).addFunction.bind fun _ b₁ _ hb₁ => ?_
      rw [← hb₁]
      exact ih (hb₁ ▸ hRest)

theorem Place.hasType_iff {slots : List ValType} {t t' : ValType} {p : Place}
    (h : p.HasType slots t') : p.HasType slots t ↔ t' = t := by
  cases p with
  | slot n => rw [HasType, show slots[n]? = some t' from h, Option.some.injEq]
  | cell address t₁ => rw [HasType, show t₁ = t' from h]

namespace Visit.Matches

variable {v : Visit} {u : Use}

theorem agrees_iff (h : v.Matches u) : v.Agrees ↔ u.Agrees := by
  have hPlace := h.frame u.ident.name
  rw [Agrees, Use.Agrees, h.scope, place?, h.ident]
  cases hLookup : List.lookup u.ident.name u.lowered with
  | none =>
    rw [hLookup] at hPlace
    simp [hPlace]
  | some ty' =>
    rw [hLookup] at hPlace
    obtain ⟨p, hp, hType⟩ := hPlace
    simp [hp, Place.hasType_iff hType]

theorem place?_ne_none_iff (h : v.Matches u) : v.place? ≠ none ↔ u.Bound := by
  rw [place?, h.ident, ne_eq, h.frame.place?_eq_none_iff, Use.Bound, not_not]

end Visit.Matches

namespace Program

/-- The visits are the uses, in their order, up to an error. -/
theorem exists_matches {tree : Program Unit} {p : Program Ty} (h : tree.check = .ok p) :
    ∃ us, us <+: tree.uses ∧ List.Forall₂ Visit.Matches tree.visits us ∧
      (∀ m, p.emit = .ok m → us = tree.uses ∧ ∀ v ∈ tree.visits, v.place? ≠ none) ∧
      ∀ s n, p.emit = .error ⟨s, .unresolved n⟩ →
        ∃ v ∈ tree.visits, v.ident.name = n ∧ v.place? = none := by
  simp only [Program.check, Checked.bind_eq_ok_iff, Checked.pure_eq_ok_iff] at h
  obtain ⟨sigs, hSigs, items, hItems, rfl⟩ := h
  have hTraced : Traced (fun _ => True) (items.forM Builder.addItem .empty)
      (Item.visitsAll sigs [] .empty tree.items) tree.uses :=
    Item.traced_of_checkItems hItems
  rw [visits, hSigs, onChecked, emit]
  cases hRun : items.forM Builder.addItem .empty with
  | ok _ b =>
    rw [hRun] at hTraced
    exact ⟨tree.uses, List.prefix_refl _, hTraced.1, fun _ _ => ⟨rfl, hTraced.2.1⟩, by simp⟩
  | error e b =>
    rw [hRun] at hTraced
    obtain ⟨⟨us, hPrefix, hMatches⟩, hReason⟩ := hTraced
    refine ⟨us, hPrefix, hMatches, by simp, ?_⟩
    intro s n hEq
    exact hReason n (congrArg Located.value (Except.error.inj hEq))

/-- A visit agrees exactly if its use does.  In a module that has been made every use was visited, so
all visits agree exactly if all uses do; they do if no name is declared at two machine types. -/
theorem visits_agree_iff {tree : Program Unit} {p : Program Ty} (hCheck : tree.check = .ok p) :
    (∃ us, us <+: tree.uses ∧ List.Forall₂ (fun v u => v.ident = u.ident ∧ v.scope = u.checked ∧
      v.ident.name ∈ v.scope.map Prod.fst ∧ (v.Agrees ↔ u.Agrees)) tree.visits us) ∧
    (∀ m, p.emit = .ok m → ((∀ v ∈ tree.visits, v.Agrees) ↔ ∀ u ∈ tree.uses, u.Agrees)) ∧
    (tree.OneMachineType → ∀ v ∈ tree.visits, v.Agrees) := by
  obtain ⟨us, hPrefix, hMatches, hDone, -⟩ := exists_matches hCheck
  have hAgree (h : ∀ u ∈ tree.uses, u.Agrees) : ∀ v ∈ tree.visits, v.Agrees := by
    intro v hv
    obtain ⟨u, hu, hVisit⟩ := exists_of_forall₂ hMatches.flip hv
    exact (Visit.Matches.agrees_iff hVisit).mpr (h u (hPrefix.subset hu))
  refine ⟨⟨us, hPrefix, hMatches.imp ?_⟩, ?_, fun hOne => hAgree hOne.agrees⟩
  · exact fun v u h => ⟨h.ident, h.scope, h.known, h.agrees_iff⟩
  · intro m hEmit
    obtain ⟨rfl, -⟩ := hDone m hEmit
    refine ⟨fun h u hu => ?_, hAgree⟩
    obtain ⟨v, hv, hVisit⟩ := exists_of_forall₂ hMatches hu
    exact hVisit.agrees_iff.mp (h v hv)

def redeclaredInBranch : String := "float f(int x) \x7b if (x) \x7b float x = 2.0; \x7d return x; \x7d"

/-- The second declaration of `x` is met only by what comes after the branch. -/
theorem visits_agree_iff_redeclared :
    ∃ (tree : Program Unit) (p : Program Ty) (m : Wasm.Module),
      Program.parse redeclaredInBranch = .ok tree ∧ tree.check = .ok p ∧ p.emit = .ok m ∧
      ¬tree.OneMachineType ∧ tree.visits.length = 2 ∧ ∀ v ∈ tree.visits, v.Agrees := by
  have hCompiles : checksTo (fun tree p => decide (¬tree.OneMachineType ∧
      tree.visits.length = 2 ∧ ∀ u ∈ tree.uses, u.Agrees) && p.emit.isOk)
      redeclaredInBranch = true :=
    checksTo_ofList (by decide +kernel)
  obtain ⟨tree, p, hParse, hCheck, hTest⟩ := exists_of_checksTo hCompiles
  obtain ⟨hTree, hOk⟩ := Bool.and_eq_true_iff.mp hTest
  obtain ⟨hTwo, hLength, hUses⟩ := of_decide_eq_true hTree
  cases hEmit : p.emit with
  | error e =>
    rw [hEmit] at hOk
    cases hOk
  | ok m =>
    have hVisits := ((visits_agree_iff hCheck).2.1 m hEmit).mpr hUses
    exact ⟨tree, p, m, hParse, hCheck, hEmit, hTwo, hLength, hVisits⟩

def redeclaredInLoop : String := "void f() \x7b int x = 1; while (x) \x7b float x = 2.0; \x7d \x7d"

/-- A module is made, and a function in it is not valid. -/
def emitsInvalid (p : Program Ty) : Bool :=
  match p.emit with
  | .error _ => false
  | .ok m => decide (∃ fn ∈ m.functions, fn.validates m = false)

/-- The condition is lowered a second time when lowering has met the declaration in the body. -/
theorem visits_disagree_in_condition :
    ∃ (tree : Program Unit) (p : Program Ty) (m : Wasm.Module),
      Program.parse redeclaredInLoop = .ok tree ∧ tree.check = .ok p ∧ p.emit = .ok m ∧
      (∃ v ∈ tree.visits, ¬v.Agrees) ∧ ∃ fn ∈ m.functions, fn.validates m = false := by
  have hCompiles : checksTo (fun tree p => decide (∃ v ∈ tree.visits, ¬v.Agrees) && p.emitsInvalid)
      redeclaredInLoop = true :=
    checksTo_ofList (by decide +kernel)
  obtain ⟨tree, p, hParse, hCheck, hTest⟩ := exists_of_checksTo hCompiles
  obtain ⟨hVisits, hModule⟩ := Bool.and_eq_true_iff.mp hTest
  rw [emitsInvalid] at hModule
  cases hEmit : p.emit with
  | error e =>
    rw [hEmit] at hModule
    cases hModule
  | ok m =>
    rw [hEmit] at hModule
    exact ⟨tree, p, m, hParse, hCheck, hEmit, of_decide_eq_true hVisits, of_decide_eq_true hModule⟩

/-- A visit finds a place exactly if its use is bound.  If all uses are bound, then no name is
unresolved; if one is not, then no module is made; and only a name that the update of a loop declares
can be unresolved. -/
theorem resolved_iff_bound {tree : Program Unit} {p : Program Ty} (hCheck : tree.check = .ok p) :
    (∃ us, us <+: tree.uses ∧ List.Forall₂ (fun v u => v.ident = u.ident ∧
      (v.place? ≠ none ↔ u.Bound)) tree.visits us) ∧
    ((∀ u ∈ tree.uses, u.Bound) → ∀ s n, p.emit ≠ .error ⟨s, .unresolved n⟩) ∧
    ((∃ u ∈ tree.uses, ¬u.Bound) → ∀ m, p.emit ≠ .ok m) ∧
    ∀ s n, p.emit = .error ⟨s, .unresolved n⟩ → n ∈ tree.updates.map Prod.fst := by
  obtain ⟨us, hPrefix, hMatches, hDone, hReason⟩ := exists_matches hCheck
  have hUnbound {s : Span} {n : String} (h : p.emit = .error ⟨s, .unresolved n⟩) :
      ∃ (v : Visit) (u : Use), u ∈ tree.uses ∧ v.Matches u ∧ v.ident.name = n ∧ ¬u.Bound := by
    obtain ⟨v, hv, hName, hNone⟩ := hReason s n h
    obtain ⟨u, hu, hVisit⟩ := exists_of_forall₂ hMatches.flip hv
    exact ⟨v, u, hPrefix.subset hu, hVisit, hName,
      fun hBound => (Visit.Matches.place?_ne_none_iff hVisit).mpr hBound hNone⟩
  refine ⟨⟨us, hPrefix, hMatches.imp fun v u h => ⟨h.ident, h.place?_ne_none_iff⟩⟩, ?_, ?_, ?_⟩
  · intro hBound s n hEmit
    obtain ⟨v, u, hu, -, -, hNot⟩ := hUnbound hEmit
    exact hNot (hBound u hu)
  · rintro ⟨u, hu, hNot⟩ m hEmit
    obtain ⟨rfl, hFound⟩ := hDone m hEmit
    obtain ⟨v, hv, hVisit⟩ := exists_of_forall₂ hMatches hu
    exact hNot (hVisit.place?_ne_none_iff.mp (hFound v hv))
  · intro s n hEmit
    obtain ⟨v, u, hu, hVisit, rfl, hNot⟩ := hUnbound hEmit
    have hKnown := hVisit.known
    rw [hVisit.scope] at hKnown
    refine (tree.coveredBy_updates u hu _ hKnown).resolve_left ?_
    rw [hVisit.ident]
    exact hNot

def redeclaredInUpdate : String :=
  "void f() \x7b for (int j = 0; j < 3; int j = j + 1) \x7b logInt(j); \x7d \x7d"

/-- The update declares a name that the start of the loop has declared before. -/
theorem resolved_iff_bound_counter :
    ∃ (tree : Program Unit) (p : Program Ty),
      Program.parse redeclaredInUpdate = .ok tree ∧ tree.check = .ok p ∧
      tree.updates = [("j", .int)] ∧ tree.uses.length = 4 ∧
      ∀ s n, p.emit ≠ .error ⟨s, .unresolved n⟩ := by
  have hChecks : checksTo (fun tree _ => decide (tree.updates = [("j", .int)] ∧
      tree.uses.length = 4 ∧ ∀ u ∈ tree.uses, u.Bound)) redeclaredInUpdate = true :=
    checksTo_ofList (by decide +kernel)
  obtain ⟨tree, p, hParse, hCheck, hTest⟩ := exists_of_checksTo hChecks
  obtain ⟨hUpdates, hLength, hBound⟩ := of_decide_eq_true hTest
  exact ⟨tree, p, hParse, hCheck, hUpdates, hLength, (resolved_iff_bound hCheck).2.1 hBound⟩

def declaredInUpdate : String := "void f() \x7b for (;; int j = 1) \x7b j = 2; \x7d \x7d"

/-- No module is made, since the name is unresolved. -/
def leavesUnresolved (name : String) (p : Program Ty) : Bool :=
  match p.emit with
  | .error e => decide (e.value = .unresolved name)
  | .ok _ => false

/-- The body is lowered when lowering has not met the declaration in the update. -/
theorem unresolved_in_body :
    ∃ (tree : Program Unit) (p : Program Ty) (s : Span),
      Program.parse declaredInUpdate = .ok tree ∧ tree.check = .ok p ∧
      p.emit = .error ⟨s, .unresolved "j"⟩ := by
  have hChecks : checksTo (fun _ p => p.leavesUnresolved "j") declaredInUpdate = true :=
    checksTo_ofList (by decide +kernel)
  obtain ⟨tree, p, hParse, hCheck, hTest⟩ := exists_of_checksTo hChecks
  rw [leavesUnresolved] at hTest
  cases hEmit : p.emit with
  | ok m =>
    rw [hEmit] at hTest
    cases hTest
  | error e =>
    rw [hEmit] at hTest
    obtain ⟨s, value⟩ := e
    cases of_decide_eq_true hTest
    exact ⟨tree, p, s, hParse, hCheck, hEmit⟩

end Program

end MiniC
