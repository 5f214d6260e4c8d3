import Mathlib.Data.Finset.Lattice.Fold
import Mathlib.Data.Set.Function
import MiniC.Proofs.Renaming.Code
import MiniC.Proofs.Sources

/-! # Names of variables have no meaning

A renaming that keeps the variables of a program apart may still send another name to the name of
one of them.  It can be replaced by a renaming that is injective everywhere and has the same effect
on the program.  No error is about a variable that is not in the program: otherwise a renaming of
that variable alone would change the error, but not the program.
-/
namespace MiniC
set_option autoImplicit false

/-- A renaming that keeps some names apart can be continued injectively, so that no other name stays
what it is. -/
theorem exists_embedding (names : List String) {r : String → String}
    (h : Set.InjOn r {x | x ∈ names}) :
    ∃ e : String ↪ String, (∀ x ∈ names, e x = r x) ∧ ∀ x, e x = x → x ∈ names := by
  obtain ⟨n, hn⟩ : ∃ n, ∀ x ∈ names, (r x).length ≤ n :=
    ⟨names.toFinset.sup fun x => (r x).length, fun x hx =>
      Finset.le_sup (f := fun x => (r x).length) (List.mem_toFinset.mpr hx)⟩
  -- The other names become longer than they are and than everything that the given ones become.
  let pad := String.ofList (List.replicate (n + 1) '_')
  have hPad : ∀ x, (pad ++ x).length = n + 1 + x.length := fun x => by
    rw [String.length_append, String.length_ofList, List.length_replicate]
  let e : String → String := fun x => if x ∈ names then r x else pad ++ x
  have hMem : ∀ {x}, x ∈ names → e x = r x := fun hx => if_pos hx
  have hNotMem : ∀ {x}, x ∉ names → e x = pad ++ x := fun hx => if_neg hx
  have hApart : ∀ {x y}, x ∈ names → y ∉ names → e x ≠ e y := by
    intro x y hx hy hEq
    have hLength := congrArg String.length hEq
    rw [hMem hx, hNotMem hy, hPad] at hLength
    have := hn x hx
    omega
  refine ⟨⟨e, ?_⟩, fun x hx => hMem hx, ?_⟩
  · intro x y hEq
    by_cases hx : x ∈ names <;> by_cases hy : y ∈ names
    · rw [hMem hx, hMem hy] at hEq
      exact h hx hy hEq
    · exact absurd hEq (hApart hx hy)
    · exact absurd hEq.symm (hApart hy hx)
    · rw [hNotMem hx, hNotMem hy] at hEq
      exact (String.append_right_inj pad).mp hEq
  · intro x hFixed
    by_contra hx
    have hLength := congrArg String.length (hNotMem hx)
    rw [show e x = x from hFixed, hPad] at hLength
    omega

/-- The variable that an error is about. -/
def TypeError.subject? : TypeError → Option String
  | undefinedName x | duplicateGlobal x | voidVariable x => some x
  | _ => none

/-- The variable that an error is about. -/
def CodeError.subject? : CodeError → Option String
  | unresolved x | nonConstantGlobal x => some x
  | _ => none

theorem TypeError.rename_eq_rename_iff {r r' : String → String} (e : TypeError) :
    e.rename r = e.rename r' ↔ ∀ x ∈ e.subject?, r x = r' x := by
  cases e <;> simp [rename, subject?]

theorem CodeError.rename_eq_rename_iff {r r' : String → String} (e : CodeError) :
    e.rename r = e.rename r' ↔ ∀ x ∈ e.subject?, r x = r' x := by
  cases e <;> simp [rename, subject?]

theorem TypeError.rename_id (e : TypeError) : e.rename id = e := by
  cases e <;> rfl

theorem CodeError.rename_id (e : CodeError) : e.rename id = e := by
  cases e <;> rfl

namespace Program

variable {α : Type} {r : String → String}

/-- There is a renaming that has no effect on the program, but on every other name. -/
theorem exists_fixing (p : Program α) :
    ∃ e : String ↪ String, p.rename e = p ∧ ∀ x, e x = x → x ∈ p.variables := by
  obtain ⟨e, hNames, hFixed⟩ := exists_embedding p.variables (Set.injOn_id _)
  exact ⟨e, (p.rename_eq_rename_iff.mpr hNames).trans p.rename_id, hFixed⟩

/-- The check adds no variables. -/
theorem variables_of_check {p : Program Unit} {q : Program Ty} (h : p.check = .ok q) :
    ∀ x ∈ q.variables, x ∈ p.variables := by
  obtain ⟨e, hp, hFixed⟩ := p.exists_fixing
  have hCheck := p.check_rename e
  rw [hp, h] at hCheck
  have hq : q.rename e = q.rename id := (Except.ok.inj hCheck).symm.trans q.rename_id.symm
  exact fun x hx => hFixed x (q.rename_eq_rename_iff.mp hq x hx)

theorem subject_of_check_error {p : Program Unit} {err : Located TypeError}
    (h : p.check = .error err) : ∀ x ∈ err.value.subject?, x ∈ p.variables := by
  obtain ⟨e, hp, hFixed⟩ := p.exists_fixing
  have hCheck := p.check_rename e
  rw [hp, h] at hCheck
  have hErr : err.value.rename e = err.value.rename id :=
    (congrArg Located.value (Except.error.inj hCheck)).symm.trans err.value.rename_id.symm
  exact fun x hx => hFixed x (err.value.rename_eq_rename_iff.mp hErr x hx)

theorem subject_of_emit_error {q : Program Ty} {err : Located CodeError}
    (h : q.emit = .error err) : ∀ x ∈ err.value.subject?, x ∈ q.variables := by
  obtain ⟨e, hq, hFixed⟩ := q.exists_fixing
  have hEmit := q.emit_rename e
  rw [hq, h] at hEmit
  have hErr : err.value.rename e = err.value.rename id :=
    (congrArg Located.value (Except.error.inj hEmit)).symm.trans err.value.rename_id.symm
  exact fun x hx => hFixed x (err.value.rename_eq_rename_iff.mp hErr x hx)

theorem check_rename_of_injOn (p : Program Unit) (h : Set.InjOn r {x | x ∈ p.variables}) :
    (p.rename r).check = transfer (Located.map (TypeError.rename r)) (Program.rename r) p.check := by
  obtain ⟨e, hNames, -⟩ := exists_embedding p.variables h
  rw [← p.rename_eq_rename_iff.mpr hNames, p.check_rename e]
  cases hCheck : p.check with
  | ok q =>
    have hq : q.rename e = q.rename r :=
      q.rename_eq_rename_iff.mpr fun x hx => hNames x (variables_of_check hCheck x hx)
    simp only [transfer, hq]
  | error err =>
    have hErr : err.value.rename e = err.value.rename r :=
      err.value.rename_eq_rename_iff.mpr fun x hx =>
        hNames x (subject_of_check_error hCheck x hx)
    simp only [transfer, Located.map, hErr]

theorem emit_rename_of_injOn (q : Program Ty) (h : Set.InjOn r {x | x ∈ q.variables}) :
    (q.rename r).emit = transfer (Located.map (CodeError.rename r)) id q.emit := by
  obtain ⟨e, hNames, -⟩ := exists_embedding q.variables h
  rw [← q.rename_eq_rename_iff.mpr hNames, q.emit_rename e]
  cases hEmit : q.emit with
  | ok m => rfl
  | error err =>
    have hErr : err.value.rename e = err.value.rename r :=
      err.value.rename_eq_rename_iff.mpr fun x hx => hNames x (subject_of_emit_error hEmit x hx)
    simp only [transfer, Located.map, hErr]

/-- Names of variables have no meaning: if a renaming keeps the variables of a program apart, the
check of the renamed program has the same outcome with the variables renamed, in the tree or in the
error, and the module of the checked program is the same, or the error is, with its variable
renamed. -/
theorem outcomes_rename (p : Program Unit) (h : Set.InjOn r {x | x ∈ p.variables}) :
    (p.rename r).check =
        transfer (Located.map (TypeError.rename r)) (Program.rename r) p.check ∧
      ∀ q, p.check = .ok q →
        (q.rename r).emit = transfer (Located.map (CodeError.rename r)) id q.emit := by
  refine ⟨p.check_rename_of_injOn h, fun q hq => q.emit_rename_of_injOn ?_⟩
  exact h.mono fun x hx => variables_of_check hq x hx

/-- Exchanges two names. -/
def exchange (a b x : String) : String := if x = a then b else if x = b then a else x

/-- A parameter and a local variable hide globals that another function uses. -/
def shadows : String :=
  "int x; char* y = \"x\"; int f(int y) \x7b int x = y; y = x + 1; return y; \x7d
   int y2() \x7b log(y); return x; \x7d"

theorem outcomes_rename_shadows :
    ∃ (p : Program Unit) (q : Program Ty) (m : Wasm.Module),
      Program.parse shadows = .ok p ∧ p.check = .ok q ∧ q.emit = .ok m ∧
      Set.InjOn (exchange "x" "y") {x | x ∈ p.variables} ∧
      (p.rename (exchange "x" "y")).check = .ok (q.rename (exchange "x" "y")) ∧
      (q.rename (exchange "x" "y")).emit = .ok m := by
  have hChecks : checksTo (fun p q => decide (∀ a ∈ p.variables, ∀ b ∈ p.variables,
      exchange "x" "y" a = exchange "x" "y" b → a = b) && q.emit.isOk) shadows = true :=
    checksTo_ofList (by decide +kernel)
  obtain ⟨p, q, hParse, hCheck, hTest⟩ := exists_of_checksTo hChecks
  obtain ⟨hInj, hOk⟩ := Bool.and_eq_true_iff.mp hTest
  have hInj : Set.InjOn (exchange "x" "y") {x | x ∈ p.variables} :=
    fun a ha b hb => of_decide_eq_true hInj a ha b hb
  obtain ⟨hRenamed, hModule⟩ := outcomes_rename p hInj
  cases hEmit : q.emit with
  | error e =>
    rw [hEmit] at hOk
    cases hOk
  | ok m =>
    refine ⟨p, q, m, hParse, hCheck, hEmit, hInj, ?_, ?_⟩
    · rw [hRenamed, hCheck, transfer]
    · rw [hModule q hCheck, hEmit, transfer, id]

end Program

end MiniC
