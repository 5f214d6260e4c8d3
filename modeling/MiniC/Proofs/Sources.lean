import MiniC.Compile

/-! # Programs that come from a source text

Stages can be tested on a source.  A literal is unified with the text of its characters, so that a
test that is evaluated does not have to decode it.
-/
namespace MiniC
set_option autoImplicit false

/-- Parses a text, unless one of its tokens is faulty. -/
def Program.ofText (text : List Char) : Except Failure (Program Unit) :=
  let tokens := Token.place .start (Lexeme.ofText text)
  match Token.firstFlaw? tokens with
  | some e => .error (.lex e)
  | none => (Program.ofTokens tokens).mapError .parse

theorem Token.scan_ofList (text : List Char) :
    Token.scan (String.ofList text) = Token.place .start (Lexeme.ofText text) := by
  rw [Token.scan, String.toList_ofList]

theorem Program.parse_ofList (text : List Char) :
    Program.parse (String.ofList text) = Program.ofText text := by
  rw [Program.parse, Token.scan_ofList]
  rfl

theorem checkSource_ofList (text : List Char) :
    checkSource (String.ofList text) =
      Program.ofText text >>= fun p => p.check.mapError .check := by
  rw [checkSource, Program.parse_ofList]

theorem compile_ofList (text : List Char) :
    compile (String.ofList text) =
      Program.ofText text >>= fun p => p.check.mapError .check >>= Program.moduleText := by
  rw [compile, checkSource_ofList, bind_assoc]

theorem checkSource_eq_ok_iff {source : String} {p : Program Ty} :
    checkSource source = .ok p ↔
      ∃ tree : Program Unit, Program.parse source = .ok tree ∧ tree.check = .ok p := by
  rw [checkSource]
  cases Program.parse source with
  | error e => simp [bind, Except.bind]
  | ok tree =>
    constructor
    · intro h
      change tree.check.mapError Failure.check = .ok p at h
      cases hCheck : tree.check with
      | error e =>
        rw [hCheck] at h
        cases h
      | ok p' =>
        rw [hCheck] at h
        cases h
        exact ⟨tree, rfl, hCheck⟩
    · rintro ⟨_, hTree, hCheck⟩
      cases hTree
      change tree.check.mapError Failure.check = .ok p
      rw [hCheck]
      rfl

/-- A source that compiles has passed all stages. -/
theorem exists_of_compile {source text : String} (h : compile source = .ok text) :
    ∃ (tree : Program Unit) (p : Program Ty) (m : Wasm.Module), Program.parse source = .ok tree ∧
      tree.check = .ok p ∧ p.emit = .ok m ∧ m.text = text := by
  rw [compile] at h
  cases hCheck : checkSource source with
  | error f =>
    rw [hCheck] at h
    cases h
  | ok p =>
    obtain ⟨tree, hParse, hTyped⟩ := checkSource_eq_ok_iff.mp hCheck
    rw [hCheck] at h
    change p.moduleText = .ok text at h
    rw [Program.moduleText] at h
    cases hEmit : p.emit with
    | error e =>
      rw [hEmit] at h
      cases h
    | ok m =>
      rw [hEmit] at h
      cases h
      exact ⟨tree, p, m, hParse, hTyped, hEmit, rfl⟩

/-- The source passes the check, and the test holds of its tree and of its typed program. -/
def checksTo (test : Program Unit → Program Ty → Bool) (source : String) : Bool :=
  match Program.parse source with
  | .error _ => false
  | .ok tree =>
    match tree.check with
    | .error _ => false
    | .ok p => test tree p

theorem checksTo_ofList {test : Program Unit → Program Ty → Bool} {text : List Char}
    (h : (match Program.ofText text with
      | .error _ => false
      | .ok tree =>
        match tree.check with
        | .error _ => false
        | .ok p => test tree p) = true) : checksTo test (String.ofList text) = true := by
  rw [checksTo, Program.parse_ofList]
  exact h

theorem exists_of_checksTo {test : Program Unit → Program Ty → Bool} {source : String}
    (h : checksTo test source = true) :
    ∃ tree p, Program.parse source = .ok tree ∧ tree.check = .ok p ∧ test tree p = true := by
  rw [checksTo] at h
  cases hParse : Program.parse source with
  | error e => simp [hParse] at h
  | ok tree =>
    cases hCheck : tree.check with
    | error e => simp [hParse, hCheck] at h
    | ok p => exact ⟨tree, p, rfl, hCheck, by simpa [hParse, hCheck] using h⟩

/-- The source compiles, and the test holds of its typed program and of its module. -/
def compilesTo (test : Program Ty → Wasm.Module → Bool) (source : String) : Bool :=
  match checkSource source with
  | .error _ => false
  | .ok p =>
    match p.emit with
    | .error _ => false
    | .ok m => test p m

theorem compilesTo_ofList {test : Program Ty → Wasm.Module → Bool} {text : List Char}
    (h : (match Program.ofText text >>= fun p => p.check.mapError .check with
      | .error _ => false
      | .ok p =>
        match p.emit with
        | .error _ => false
        | .ok m => test p m) = true) : compilesTo test (String.ofList text) = true := by
  rw [compilesTo, checkSource_ofList]
  exact h

theorem exists_of_compilesTo {test : Program Ty → Wasm.Module → Bool} {source : String}
    (h : compilesTo test source = true) :
    ∃ p m, checkSource source = .ok p ∧ p.emit = .ok m ∧ test p m = true := by
  rw [compilesTo] at h
  cases hCheck : checkSource source with
  | error e => simp [hCheck] at h
  | ok p =>
    cases hEmit : p.emit with
    | error e => simp [hCheck, hEmit] at h
    | ok m => exact ⟨p, m, rfl, hEmit, by simpa [hCheck, hEmit] using h⟩

/-- The result is a failure, for the given reason. -/
def failsWith (f : Failure) (result : Except Failure String) : Bool :=
  match result with
  | .error f' => decide (f' = f)
  | .ok _ => false

theorem eq_error_of_failsWith {f : Failure} {result : Except Failure String}
    (h : failsWith f result = true) : result = .error f := by
  cases result with
  | error f' => rw [of_decide_eq_true h]
  | ok text => cases h

end MiniC
