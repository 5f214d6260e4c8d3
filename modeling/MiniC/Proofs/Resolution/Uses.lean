import MiniC.Proofs.Bindings
import MiniC.Proofs.Resolution.Visits

/-! # The declarations that both stages have met

After a statement both stages have met its declarations, though not in the same order.  Inside a `for`
loop they are apart: the check has met the update before the body, and in a second visit to a condition
lowering has met the whole loop.
-/
namespace MiniC
set_option autoImplicit false

variable {α : Type}

namespace Stmt

theorem Passes.perm {scope scope' : Scope} {a b : List (String × Ty)} (h : Passes scope a scope')
    (hPerm : a.Perm b) : Passes scope b scope' := by
  obtain ⟨added, hAdded, rfl⟩ := h
  exact ⟨added, hAdded.trans hPerm, rfl⟩

mutual

theorem passes_after (stage : Stage) (x : Stmt α) (scope : Scope) :
    Passes scope x.locals (x.after stage scope) := by
  cases x with
  | declare s name ty init => exact .declare scope name ty
  | branch s cond thenBody elseBody =>
    exact (passes_afterAll stage thenBody scope).trans (passes_afterAll stage elseBody _)
  | loop s kind cond body => exact passes_afterAll stage body scope
  | forLoop s init cond update body =>
    have hInit := passes_afterOption stage init scope
    cases stage with
    | check =>
      exact (hInit.trans (passes_afterOption .check update _)).trans (passes_afterAll .check body _)
    | lower =>
      have hAll := (hInit.trans (passes_afterAll .lower body _)).trans
        (passes_afterOption .lower update _)
      apply hAll.perm
      rw [locals, List.append_assoc, List.append_assoc]
      exact List.perm_append_comm.append_left _
  | ret | assign | store | jump | expr => exact .refl scope

theorem passes_afterAll (stage : Stage) (xs : List (Stmt α)) (scope : Scope) :
    Passes scope (localsAll xs) (afterAll stage scope xs) := by
  cases xs with
  | nil => exact .refl scope
  | cons x xs => exact (passes_after stage x scope).trans (passes_afterAll stage xs _)

theorem passes_afterOption (stage : Stage) (x? : Option (Stmt α)) (scope : Scope) :
    Passes scope (localsOption x?) (afterOption stage scope x?) := by
  cases x? with
  | none => exact .refl scope
  | some x => exact passes_after stage x scope

end

mutual

/-- The declarations in the updates of loops. -/
def updates : Stmt α → List (String × Ty)
  | branch _ _ thenBody elseBody => updatesAll thenBody ++ updatesAll elseBody
  | loop _ _ _ body => updatesAll body
  | forLoop _ init _ update body =>
    updatesOption init ++ (localsOption update ++ updatesOption update) ++ updatesAll body
  | _ => []

def updatesAll : List (Stmt α) → List (String × Ty)
  | [] => []
  | x :: xs => x.updates ++ updatesAll xs

def updatesOption : Option (Stmt α) → List (String × Ty)
  | none => []
  | some x => x.updates

end

end Stmt

/-- What the stages have met stays related: when both meet declarations with the property `D`, when
lowering alone meets such declarations, and when the check alone meets those of an update, with the
property `U`. -/
structure Use.Invariant (D U : String × Ty → Prop) (P : Scope → Scope → Prop) : Prop where
  both : ∀ {c l c' l' : Scope} {ds : List (String × Ty)}, (∀ d ∈ ds, D d) → P c l →
    Stmt.Passes c ds c' → Stmt.Passes l ds l' → P c' l'
  lowered : ∀ {c l l' : Scope} {ds : List (String × Ty)}, (∀ d ∈ ds, D d) → P c l →
    Stmt.Passes l ds l' → P c l'
  checked : ∀ {c c' l : Scope} {ds : List (String × Ty)}, (∀ d ∈ ds, D d ∧ U d) → P c l →
    Stmt.Passes c ds c' → P c' l

namespace Stmt

variable {D U : String × Ty → Prop} {P : Scope → Scope → Prop}

theorem forall_use {xs : List Ident} {c l : Scope} (hP : P c l) :
    ∀ u ∈ use xs c l, P u.checked u.lowered := by
  intro u hu
  obtain ⟨x, -, rfl⟩ := List.mem_map.mp hu
  exact hP

mutual

theorem forall_uses (h : Use.Invariant D U P) (x : Stmt α) (hD : ∀ d ∈ x.locals, D d)
    (hU : ∀ d ∈ x.updates, U d) {c l : Scope} (hP : P c l) :
    ∀ u ∈ x.uses c l, P u.checked u.lowered := by
  cases x with
  | declare s name ty init =>
    rw [uses]
    split
    · simp
    · exact forall_use (h.both hD hP (.declare c name ty) (.declare l name ty))
  | branch s cond thenBody elseBody =>
    rw [locals, List.forall_mem_append] at hD
    rw [updates, List.forall_mem_append] at hU
    have hThen := h.both hD.1 hP (passes_afterAll .check thenBody c)
      (passes_afterAll .lower thenBody l)
    simp only [uses, List.forall_mem_append]
    exact ⟨forall_use hP, forall_usesAll h thenBody hD.1 hU.1 hP,
      forall_usesAll h elseBody hD.2 hU.2 hThen⟩
  | loop s kind cond body =>
    have hBody := forall_usesAll h body hD hU hP
    have hAgain := h.lowered hD hP (passes_afterAll .lower body l)
    cases kind with
    | whileDo =>
      simp only [uses, List.forall_mem_append]
      exact ⟨forall_use hP, hBody, forall_use hAgain⟩
    | doWhile =>
      simp only [uses, List.forall_mem_append]
      exact ⟨hBody, forall_use hAgain⟩
  | forLoop s init cond update body =>
    simp only [locals, List.forall_mem_append] at hD
    simp only [updates, List.forall_mem_append] at hU
    obtain ⟨⟨hDInit, hDUpdate⟩, hDBody⟩ := hD
    obtain ⟨⟨hUInit, hUUpdate, hUNested⟩, hUBody⟩ := hU
    have hInit := h.both hDInit hP (passes_afterOption .check init c)
      (passes_afterOption .lower init l)
    have hBefore := h.checked (fun d hd => ⟨hDUpdate d hd, hUUpdate d hd⟩) hInit
      (passes_afterOption .check update _)
    have hAfter := h.lowered hDBody hInit (passes_afterAll .lower body _)
    have hAgain := h.lowered hDUpdate hAfter (passes_afterOption .lower update _)
    simp only [uses, List.forall_mem_append]
    exact ⟨forall_usesOption h init hDInit hUInit hP, forall_use hInit,
      forall_usesAll h body hDBody hUBody hBefore,
      forall_usesOption h update hDUpdate hUNested hAfter, forall_use hAgain⟩
  | jump s j => simp [uses]
  | ret | assign | store | expr => exact forall_use hP

theorem forall_usesAll (h : Use.Invariant D U P) (xs : List (Stmt α))
    (hD : ∀ d ∈ localsAll xs, D d) (hU : ∀ d ∈ updatesAll xs, U d) {c l : Scope} (hP : P c l) :
    ∀ u ∈ usesAll c l xs, P u.checked u.lowered := by
  cases xs with
  | nil => simp [usesAll]
  | cons x xs =>
    rw [localsAll, List.forall_mem_append] at hD
    rw [updatesAll, List.forall_mem_append] at hU
    rw [usesAll, List.forall_mem_append]
    exact ⟨forall_uses h x hD.1 hU.1 hP, forall_usesAll h xs hD.2 hU.2
      (h.both hD.1 hP (passes_after .check x c) (passes_after .lower x l))⟩

theorem forall_usesOption (h : Use.Invariant D U P) (x? : Option (Stmt α))
    (hD : ∀ d ∈ localsOption x?, D d) (hU : ∀ d ∈ updatesOption x?, U d) {c l : Scope}
    (hP : P c l) : ∀ u ∈ usesOption c l x?, P u.checked u.lowered := by
  cases x? with
  | none => simp [usesOption]
  | some x => exact forall_uses h x hD hU hP

end

end Stmt

theorem Stmt.Passes.mem_names_iff {scope scope' : Scope} {ds : List (String × Ty)}
    (h : Passes scope ds scope') {n : String} :
    n ∈ scope'.map Prod.fst ↔ n ∈ ds.map Prod.fst ∨ n ∈ scope.map Prod.fst := by
  obtain ⟨added, hPerm, rfl⟩ := h
  rw [List.map_append, List.mem_append, (hPerm.map Prod.fst).mem_iff]

/-- Lowering has met every name that the check has met, up to those that updates declare. -/
def Scope.CoveredBy (updates : List (String × Ty)) (c l : Scope) : Prop :=
  ∀ n ∈ c.map Prod.fst, n ∈ l.map Prod.fst ∨ n ∈ updates.map Prod.fst

theorem Scope.coveredBy_invariant (updates : List (String × Ty)) :
    Use.Invariant (fun _ => True) (· ∈ updates) (CoveredBy updates) where
  both := by
    intro c l c' l' ds _ hP hc hl n hn
    rw [hl.mem_names_iff]
    rcases hc.mem_names_iff.mp hn with hn | hn
    · exact .inl (.inl hn)
    · exact (hP n hn).imp_left .inr
  lowered := by
    intro c l l' ds _ hP hl n hn
    rw [hl.mem_names_iff]
    exact (hP n hn).imp_left .inr
  checked := by
    intro c c' l ds hU hP hc n hn
    rcases hc.mem_names_iff.mp hn with hn | hn
    · exact .inr (List.map_subset _ (fun d hd => (hU d hd).2) hn)
    · exact hP n hn

/-- Both stages have met only declarations of the function after the scope in which it starts. -/
def Function.Within (f : Function α) (scope c l : Scope) : Prop :=
  ∃ a b : Scope, (∀ d ∈ a, d ∈ f.locals) ∧ (∀ d ∈ b, d ∈ f.locals) ∧ c = a ++ scope ∧ l = b ++ scope

theorem Function.within_invariant (f : Function α) (scope : Scope) :
    Use.Invariant (· ∈ f.locals) (fun _ => True) (f.Within scope) where
  both := by
    rintro _ _ _ _ ds hD ⟨a, b, ha, hb, rfl, rfl⟩ ⟨a', hPerm, rfl⟩ ⟨b', hPerm', rfl⟩
    refine ⟨a' ++ a, b' ++ b, ?_, ?_, by rw [List.append_assoc], by rw [List.append_assoc]⟩
    · exact List.forall_mem_append.mpr ⟨fun d hd => hD d (hPerm.mem_iff.mp hd), ha⟩
    · exact List.forall_mem_append.mpr ⟨fun d hd => hD d (hPerm'.mem_iff.mp hd), hb⟩
  lowered := by
    rintro _ _ _ ds hD ⟨a, b, ha, hb, rfl, rfl⟩ ⟨b', hPerm', rfl⟩
    refine ⟨a, b' ++ b, ha, ?_, rfl, by rw [List.append_assoc]⟩
    exact List.forall_mem_append.mpr ⟨fun d hd => hD d (hPerm'.mem_iff.mp hd), hb⟩
  checked := by
    rintro _ _ _ ds hD ⟨a, b, ha, hb, rfl, rfl⟩ ⟨a', hPerm, rfl⟩
    refine ⟨a' ++ a, b, ?_, hb, by rw [List.append_assoc], rfl⟩
    exact List.forall_mem_append.mpr ⟨fun d hd => (hD d (hPerm.mem_iff.mp hd)).1, ha⟩

namespace Function

variable {f : Function α} {globals : Scope}

/-- A declaration of the function and what is found where it starts. -/
theorem OneMachineType.valType_eq_of_lookup (h : f.OneMachineType globals) {x : String} {ty ty' : Ty}
    (hLocal : (x, ty) ∈ f.locals)
    (hLookup : List.lookup x (f.parameters.reverse ++ globals) = some ty') :
    ty.valType = ty'.valType := by
  have hVariable := List.mem_append_right f.parameters hLocal
  rcases List.mem_append.mp (Table.mem_of_lookup hLookup) with hParam | hGlobal
  · exact h.1 _ hVariable _ (List.mem_append_left _ (List.mem_reverse.mp hParam)) rfl
  · exact h.2 _ hLocal _ hGlobal rfl

theorem OneMachineType.agrees (h : f.OneMachineType globals) :
    ∀ u ∈ f.uses globals, u.Agrees := by
  intro u hu
  have hWithin : f.Within (f.parameters.reverse ++ globals) u.checked u.lowered :=
    Stmt.forall_usesAll (f.within_invariant _) f.body (fun _ hd => hd) (fun _ _ => trivial)
      ⟨[], [], by simp, by simp, rfl, rfl⟩ u hu
  obtain ⟨a, b, ha, hb, hChecked, hLowered⟩ := hWithin
  intro ty hTy ty' hTy'
  rw [hChecked, Option.mem_def, List.lookup_append] at hTy
  rw [hLowered, Option.mem_def, List.lookup_append] at hTy'
  cases hA : List.lookup u.ident.name a with
  | some t =>
    have hLocal := ha _ (Table.mem_of_lookup hA)
    rw [hA] at hTy
    cases hTy
    cases hB : List.lookup u.ident.name b with
    | some t' =>
      rw [hB] at hTy'
      cases hTy'
      exact h.1 _ (List.mem_append_right _ (hb _ (Table.mem_of_lookup hB))) _
        (List.mem_append_right _ hLocal) rfl
    | none =>
      rw [hB] at hTy'
      exact (h.valType_eq_of_lookup hLocal hTy').symm
  | none =>
    rw [hA] at hTy
    cases hB : List.lookup u.ident.name b with
    | some t' =>
      rw [hB] at hTy'
      cases hTy'
      exact h.valType_eq_of_lookup (hb _ (Table.mem_of_lookup hB)) hTy
    | none =>
      rw [hB] at hTy'
      exact congrArg Ty.valType (Option.some.inj (hTy'.symm.trans hTy))

theorem coveredBy_updates (f : Function α) (globals : Scope) :
    ∀ u ∈ f.uses globals, Scope.CoveredBy (Stmt.updatesAll f.body) u.checked u.lowered :=
  Stmt.forall_usesAll (Scope.coveredBy_invariant _) f.body (fun _ _ => trivial) (fun _ hd => hd)
    fun _ hn => .inl hn

end Function

theorem Item.forall_usesAll {Q : Use → Prop} {globals : Scope} {items : List (Item α)}
    (h : EveryItem (fun globals item => ∀ f, item = .function f → ∀ u ∈ f.uses globals, Q u)
      globals items) : ∀ u ∈ usesAll globals items, Q u := by
  induction items generalizing globals with
  | nil => simp [usesAll]
  | cons item items ih =>
    cases item with
    | global g => exact ih h.2
    | function f =>
      rw [usesAll, List.forall_mem_append]
      exact ⟨h.1 f rfl, ih h.2⟩

namespace Program

/-- The declarations in the updates of the loops of a program. -/
def updates (p : Program α) : List (String × Ty) :=
  p.functions.flatMap fun f => Stmt.updatesAll f.body

theorem OneMachineType.agrees {p : Program α} (h : p.OneMachineType) : ∀ u ∈ p.uses, u.Agrees := by
  apply Item.forall_usesAll
  apply EveryItem.imp h
  rintro globals _ hItem f rfl
  exact Function.OneMachineType.agrees hItem

theorem coveredBy_updates (p : Program α) :
    ∀ u ∈ p.uses, Scope.CoveredBy p.updates u.checked u.lowered := by
  apply Item.forall_usesAll
  apply EveryItem.of_forall
  rintro globals _ hItem - f rfl u hu n hn
  refine (f.coveredBy_updates globals u hu n hn).imp_right ?_
  apply List.map_subset
  exact fun d hd => List.mem_flatMap.mpr ⟨f, mem_functions hItem, hd⟩

end Program

end MiniC
