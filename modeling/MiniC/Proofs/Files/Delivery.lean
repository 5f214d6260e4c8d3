import MiniC.CommandLine.Run
import MiniC.Proofs.Files.Locations

/-! # What a run leaves behind

A run that succeeds has put its output where the options ask for it, and has changed no other file
than that and the intermediate text.  The intermediate text is removed after the output is written,
so an output that is to have its place is lost.
-/
namespace MiniC.CommandLine
set_option autoImplicit false

variable {start : FileTree → String → Except FileError Tool} {o : Options} {t u : FileTree}

theorem FileTree.run_bind {α β : Type} (x : StateM FileTree α) (f : α → StateM FileTree β)
    (t : FileTree) : (x >>= f) t = f (x t).1 (x t).2 := rfl

open FileTree (run_bind)

theorem FileTree.change_eq_ok {f : FileTree → Except FileError FileTree}
    (h : FileTree.change f t = (.ok (), u)) : f t = .ok u := by
  rw [FileTree.change] at h
  cases hChange : f t with
  | error e =>
    rw [hChange] at h
    cases h
  | ok v =>
    rw [hChange] at h
    cases h
    rfl

theorem Host.write_eq_ok {path text : String}
    (h : (onTree start).write path text t = (.ok (), u)) : t.write path text = .ok u :=
  FileTree.change_eq_ok (f := fun t => t.write path text) h

theorem Host.remove_eq_ok {path : String}
    (h : (onTree start).remove path t = (.ok (), u)) : t.remove path = .ok u :=
  FileTree.change_eq_ok (f := fun t => t.remove path) h

theorem Host.assemble_eq_ok {command input output : String} {r : Report}
    (h : (onTree start).assemble command input output t = (.ok r, u)) :
    ∃ a, start t command = .ok a ∧ a.run t input output = (r, u) := by
  cases hProgram : start t command with
  | error e =>
    simp only [onTree, hProgram] at h
    cases h
  | ok a =>
    simp only [onTree, hProgram] at h
    cases h
    exact ⟨a, rfl, rfl⟩

theorem writeText_eq_ok {path text : String}
    (h : writeText (.onTree start) path text t = (.ok (), u)) :
    t.write path text = .ok u := by
  rw [writeText, run_bind] at h
  cases hWrite : (Host.onTree start).write path text t with
  | mk r v =>
    rw [hWrite] at h
    cases r with
    | error e => cases h
    | ok x =>
      cases h
      exact Host.write_eq_ok hWrite

theorem assemble_eq_ok {command input output : String} {c : Course}
    (h : assemble (.onTree start) command input output t = (c, u)) (hResult : c.result = .ok ()) :
    ∃ a r, start t command = .ok a ∧ a.run t input output = (r, u) ∧ r.status = 0 := by
  rw [assemble, run_bind] at h
  cases hRun : (Host.onTree start).assemble command input output t with
  | mk r v =>
    rw [hRun] at h
    cases r with
    | error e =>
      cases h
      cases hResult
    | ok r =>
      obtain ⟨a, hStart, hTool⟩ := Host.assemble_eq_ok hRun
      by_cases hStatus : r.status = 0
      · simp only [hStatus, if_true] at h
        cases h
        exact ⟨a, r, hStart, hTool, hStatus⟩
      · simp only [hStatus, if_false] at h
        cases h
        cases hResult

theorem assembleText_eq_ok {text : String} {c : Course}
    (h : assembleText (.onTree start) o text t = (c, u)) (hResult : c.result = .ok ()) :
    ∃ t₁ a r t₂, t.write textPath text = .ok t₁ ∧ start t₁ o.assembler = .ok a ∧
      a.run t₁ textPath o.outputPath = (r, t₂) ∧ r.status = 0 ∧
      if o.keepText then u = t₂ else t₂.remove textPath = .ok u := by
  rw [assembleText, run_bind] at h
  cases hWrite : writeText (.onTree start) textPath text t with
  | mk r t₁ =>
    rw [hWrite] at h
    cases r with
    | error e =>
      cases h
      cases hResult
    | ok x =>
      simp only [run_bind] at h
      cases hRun : assemble (.onTree start) o.assembler textPath o.outputPath t₁ with
      | mk c' t₂ =>
        obtain ⟨hResult', hEnd⟩ : c'.result = .ok () ∧
            if o.keepText then u = t₂ else t₂.remove textPath = .ok u := by
          simp only [hRun] at h
          cases hKeep : o.keepText with
          | true =>
            rw [hKeep, if_pos rfl] at h
            cases h
            exact ⟨hResult, rfl⟩
          | false =>
            rw [hKeep, if_neg Bool.false_ne_true, run_bind] at h
            cases hRemove : (Host.onTree start).remove textPath t₂ with
            | mk r' v =>
              rw [hRemove] at h
              cases r' with
              | error e =>
                cases h
                cases hResult
              | ok x =>
                cases h
                exact ⟨hResult, Host.remove_eq_ok hRemove⟩
        obtain ⟨a, r, hStart, hTool, hStatus⟩ := assemble_eq_ok hRun hResult'
        exact ⟨t₁, a, r, t₂, writeText_eq_ok hWrite, hStart, hTool, hStatus, hEnd⟩

theorem deliver_text_eq_ok {text : String} {c : Course} (hOnly : o.textOnly = true)
    (h : deliver (.onTree start) o text t = (c, u)) (hResult : c.result = .ok ()) :
    t.write o.outputPath text = .ok u := by
  rw [deliver, hOnly, if_pos rfl, run_bind] at h
  cases hWrite : writeText (.onTree start) o.outputPath text t with
  | mk r v =>
    rw [hWrite] at h
    cases h
    obtain rfl : r = .ok () := hResult
    exact writeText_eq_ok hWrite

theorem compileInput_eq_ok {c : Course} (h : compileInput (.onTree start) o t = (c, u))
    (hResult : c.result = .ok ()) :
    ∃ source p text c', t.read o.input = .ok source ∧ checkSource source = .ok p ∧
      p.moduleText = .ok text ∧ deliver (.onTree start) o text t = (c', u) ∧
      c'.result = .ok () := by
  have hInput : (Host.onTree start).read o.input t = (t.read o.input, t) := rfl
  rw [compileInput, run_bind, hInput] at h
  cases hRead : t.read o.input with
  | error e =>
    rw [hRead] at h
    cases h
    cases hResult
  | ok source =>
    simp only [hRead] at h
    cases hCheck : checkSource source with
    | error e =>
      rw [hCheck] at h
      cases h
      cases hResult
    | ok p =>
      simp only [hCheck] at h
      cases hText : p.moduleText with
      | error e =>
        rw [hText] at h
        cases h
        cases hResult
      | ok text =>
        simp only [hText, run_bind] at h
        cases hDeliver : deliver (.onTree start) o text t with
        | mk c' v =>
          rw [hDeliver] at h
          cases h
          exact ⟨source, p, text, c', rfl, hCheck, hText, hDeliver, hResult⟩

theorem run_eq_zero {args : List String} (hArgs : Options.ofArguments args = .ok o) {report : Report}
    (hRun : run (.onTree start) args t = (report, u)) (hStatus : report.status = 0) :
    ∃ c, compileInput (.onTree start) o t = (c, u) ∧ c.result = .ok () := by
  rw [run, hArgs] at hRun
  simp only [run_bind] at hRun
  cases hCompile : compileInput (.onTree start) o t with
  | mk c v =>
    rw [hCompile] at hRun
    cases hRun
    rw [Course.report] at hStatus
    cases hResult : c.result with
    | ok x => exact ⟨c, rfl, hResult⟩
    | error e =>
      rw [hResult] at hStatus
      cases hStatus

/-- The content that a run is asked to put at the output path: the module text of the input, or what
the assembler makes of it once it is written. -/
def Options.Yields (o : Options) (start : FileTree → String → Except FileError Tool)
    (t : FileTree) (content : String) : Prop :=
  ∃ source text, t.read o.input = .ok source ∧ compile source = .ok text ∧
    if o.textOnly then content = text
    else ∃ t' a, t.write textPath text = .ok t' ∧ start t' o.assembler = .ok a ∧
      a.product text = some content

/-- The output is to stand where the intermediate text does, which is removed in the end. -/
def Options.Collides (o : Options) (t : FileTree) : Prop :=
  o.textOnly = false ∧ o.keepText = false ∧
    ∃ l, t.locate o.outputPath = .ok l ∧ t.locate textPath = .ok l

/-- The assembled product is at the output path unless the intermediate text was there. -/
theorem assembleText_leaves {text : String} {c : Course}
    (h : assembleText (.onTree start) o text t = (c, u)) (hResult : c.result = .ok ()) :
    ∃ t' a product l k, t.write textPath text = .ok t' ∧ start t' o.assembler = .ok a ∧
      a.product text = some product ∧ t.locate o.outputPath = .ok l ∧ t.locate textPath = .ok k ∧
      t.SameFolders u ∧ (∀ i, i ≠ l → i ≠ k → u.text? i = t.text? i) ∧
      u.text? l = if o.keepText = false ∧ l = k then none else some product := by
  obtain ⟨t₁, a, r, t₂, hWrite, hProgram, hTool, hStatus, hEnd⟩ := assembleText_eq_ok h hResult
  obtain ⟨k, hText, rfl⟩ := FileTree.write_eq_ok_iff.mp hWrite
  have hPut := FileTree.SameFolders.put t k text
  have hRead : (t.put k text).read textPath = .ok text := by
    rw [FileTree.read_of_locate (hPut.locate hText), FileTree.text?_put, if_pos rfl]
  obtain ⟨text', product, hText', hProduct, hOutput⟩ := a.delivers hTool hStatus
  obtain rfl : text = text' := Except.ok.inj (hRead.symm.trans hText')
  obtain ⟨l, hLocate, rfl⟩ := FileTree.write_eq_ok_iff.mp hOutput
  have hBoth := hPut.trans (.put (t.put k text) l product)
  refine ⟨_, a, product, l, k, hWrite, hProgram, hProduct, hPut.symm.locate hLocate, hText, ?_⟩
  cases hKeep : o.keepText with
  | true =>
    rw [hKeep, if_pos rfl] at hEnd
    subst hEnd
    refine ⟨hBoth, fun i hl hk => ?_, ?_⟩
    · rw [FileTree.text?_put, if_neg hl, FileTree.text?_put, if_neg hk]
    · simp [FileTree.text?_put]
  | false =>
    rw [hKeep, if_neg Bool.false_ne_true, FileTree.remove_of_locate (hBoth.locate hText)] at hEnd
    obtain rfl : ((t.put k text).put l product).erase k = u := by
      split at hEnd
      · exact Except.ok.inj hEnd
      · cases hEnd
    refine ⟨hBoth.trans (.erase _ k), fun i hl hk => ?_, ?_⟩
    · rw [FileTree.text?_erase, if_neg hk, FileTree.text?_put, if_neg hl, FileTree.text?_put,
        if_neg hk]
    · simp [FileTree.text?_erase, FileTree.text?_put]

/-- A run that ends with the status zero leaves its output at the output path, except that an output
in the place of the intermediate text is lost when that is removed.  No other file is changed, and no
folder. -/
theorem run_leaves_output {args : List String} (hArgs : Options.ofArguments args = .ok o)
    {report : Report} (hRun : run (.onTree start) args t = (report, u)) (hStatus : report.status = 0) :
    ∃ content l, o.Yields start t content ∧ t.locate o.outputPath = .ok l ∧
      (¬ o.Collides t → u.read o.outputPath = .ok content) ∧
      (o.Collides t → u.read o.outputPath = .error .notFound) ∧
      t.SameFolders u ∧
      ∀ k, k ≠ l → (o.textOnly = false → t.locate textPath ≠ .ok k) → u.text? k = t.text? k := by
  obtain ⟨c, hCompile, hResult⟩ := run_eq_zero hArgs hRun hStatus
  obtain ⟨source, p, text, c', hSource, hCheck, hText, hDeliver, hResult'⟩ :=
    compileInput_eq_ok hCompile hResult
  have hCompiles : compile source = .ok text := by
    rw [compile, hCheck]
    exact hText
  cases hOnly : o.textOnly with
  | true =>
    have hWrite := deliver_text_eq_ok hOnly hDeliver hResult'
    obtain ⟨l, hLocate, rfl⟩ := FileTree.write_eq_ok_iff.mp hWrite
    have hFolders := FileTree.SameFolders.put t l text
    refine ⟨text, l, ⟨source, text, hSource, hCompiles, by simp [hOnly]⟩, hLocate, fun _ => ?_,
      fun hCollides => ?_, hFolders, fun k hk _ => ?_⟩
    · rw [FileTree.read_of_locate (hFolders.locate hLocate), FileTree.text?_put, if_pos rfl]
    · exact absurd hCollides.1 (by simp [hOnly])
    · rw [FileTree.text?_put, if_neg hk]
  | false =>
    rw [deliver, hOnly, if_neg Bool.false_ne_true] at hDeliver
    obtain ⟨t', a, product, l, k, hWrite, hProgram, hProduct, hOutput, hPlace, hFolders, hOthers,
      hLeft⟩ := assembleText_leaves hDeliver hResult'
    refine ⟨product, l, ⟨source, text, hSource, hCompiles, ?_⟩, hOutput, fun hApart => ?_,
      fun hCollides => ?_, hFolders, fun i hl hk => ?_⟩
    · rw [hOnly, if_neg Bool.false_ne_true]
      exact ⟨t', a, hWrite, hProgram, hProduct⟩
    · have hNot : ¬ (o.keepText = false ∧ l = k) := by
        rintro ⟨hKeep, rfl⟩
        exact hApart ⟨hOnly, hKeep, l, hOutput, hPlace⟩
      rw [FileTree.read_of_locate (hFolders.locate hOutput), hLeft, if_neg hNot]
    · obtain ⟨-, hKeep, i, hi, hi'⟩ := hCollides
      obtain rfl : l = i := Except.ok.inj (hOutput.symm.trans hi)
      obtain rfl : k = l := Except.ok.inj (hPlace.symm.trans hi')
      rw [FileTree.read_of_locate (hFolders.locate hOutput), hLeft, if_pos ⟨hKeep, rfl⟩]
    · refine hOthers i hl ?_
      rintro rfl
      exact hk rfl hPlace

/-- The tree of one source file. -/
def oneSource : FileTree := .ofFiles ["work"] [(["work", "m.c"], "int f() { return 1; }")]

/-- The arguments that ask for the lines of the module text to be sorted into a path, and the options
they stand for. -/
def sortArguments (output : String) : List String := ["m.c", "-o", output, "--assembler", "sort"]

def sortOptions (output : String) : Options := ⟨"m.c", some output, false, false, false, "sort"⟩

/-- What such a run reports and leaves behind. -/
def sortRun (output : String) : Report × FileTree :=
  run (.fileTree fun _ => none) (sortArguments output) oneSource

theorem run_leaves_output_sorted :
    (Options.ofArguments (sortArguments "m.wasm") = .ok (sortOptions "m.wasm") ∧
      (sortRun "m.wasm").1.status = 0 ∧ ¬ (sortOptions "m.wasm").Collides oneSource) ∧
    ∃ content l, (sortOptions "m.wasm").Yields (fun t command => t.program (fun _ => none) command)
        oneSource content ∧
      oneSource.locate "m.wasm" = .ok l ∧ (sortRun "m.wasm").2.read "m.wasm" = .ok content ∧
      ∀ k, k ≠ l → oneSource.locate textPath ≠ .ok k →
        (sortRun "m.wasm").2.text? k = oneSource.text? k :=
  have hArgs : Options.ofArguments (sortArguments "m.wasm") = .ok (sortOptions "m.wasm") := rfl
  have hRun : run (.onTree fun t command => t.program (fun _ => none) command)
      (sortArguments "m.wasm") oneSource = ((sortRun "m.wasm").1, (sortRun "m.wasm").2) := rfl
  have hStatus : (sortRun "m.wasm").1.status = 0 := by decide +kernel
  have hApart : ¬ (sortOptions "m.wasm").Collides oneSource := by
    rintro ⟨-, -, l, hOutput, hText⟩
    have hPlaces : (oneSource.locate "m.wasm").toOption ≠ (oneSource.locate textPath).toOption := by
      decide +kernel
    exact hPlaces (congrArg Except.toOption (hOutput.trans hText.symm))
  have ⟨content, l, hYields, hLocate, hRead, _, _, hOthers⟩ := run_leaves_output hArgs hRun hStatus
  ⟨⟨hArgs, hStatus, hApart⟩, content, l, hYields, hLocate, hRead hApart,
    fun k hk hText => hOthers k hk fun _ => hText⟩

/-- A product that is to have the place of the intermediate text is gone after a successful run. -/
theorem product_lost_in_text_place :
    Options.ofArguments (sortArguments "a.out.wat") = .ok (sortOptions "a.out.wat") ∧
      (sortRun "a.out.wat").1 = ⟨0, "", ""⟩ ∧
      ∀ content, (sortRun "a.out.wat").2.read "a.out.wat" ≠ .ok content := by
  refine ⟨rfl, by decide +kernel, fun content hRead => ?_⟩
  have hNone : ((sortRun "a.out.wat").2.read "a.out.wat").toOption = none := by decide +kernel
  rw [hRead] at hNone
  cases hNone

end MiniC.CommandLine
