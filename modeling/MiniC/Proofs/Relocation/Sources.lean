import MiniC.Proofs.Places.Errors

/-! # Compilation does not depend on layout

Offsets are replaced by counting the tokens that start before them.  This moves the tokens of a
source to places that can be told from their number alone, keeps joins and keeps tokens apart.  So
what a source compiles to, or why it does not, is known from the kinds and the texts of its tokens.
-/
namespace MiniC
set_option autoImplicit false

/-- The span between the images of its ends, all on one line. -/
def Span.along (f : Nat → Nat) (s : Span) : Span := ⟨f s.lo, f s.hi - f s.lo, 1⟩

theorem Span.along_join {f : Nat → Nat} (hf : ∀ {m n}, m ≤ n → f m ≤ f n) (a b : Span) :
    (a.join b).along f = (a.along f).join (b.along f) := by
  have hMin : f (min a.lo b.lo) = min (f a.lo) (f b.lo) := by
    rcases Nat.le_total a.lo b.lo with h | h
    · rw [Nat.min_eq_left h, Nat.min_eq_left (hf h)]
    · rw [Nat.min_eq_right h, Nat.min_eq_right (hf h)]
  have hMax : f (max a.hi b.hi) = max (f a.hi) (f b.hi) := by
    rcases Nat.le_total a.hi b.hi with h | h
    · rw [Nat.max_eq_right h, Nat.max_eq_right (hf h)]
    · rw [Nat.max_eq_left h, Nat.max_eq_left (hf h)]
  have hHi (s : Span) : (s.along f).hi = f s.hi :=
    Nat.add_sub_of_le (hf (Nat.le_add_right s.lo s.len))
  rw [Span.along, Span.hi_join, Span.lo_join, hMin, hMax, Span.join, hHi, hHi]
  rfl

namespace Token

/-- What a token is, apart from its place. -/
def form (t : Token) : Kind × List Char := (t.kind, t.text)

/-- How many of the tokens start before an offset. -/
def ordinal (ts : List Token) (offset : Nat) : Nat := ts.countP fun t => t.span.lo < offset

theorem ordinal_mono (ts : List Token) {m n : Nat} (h : m ≤ n) : ordinal ts m ≤ ordinal ts n := by
  refine List.countP_mono_left fun t _ ht => ?_
  simp only [decide_eq_true_eq] at ht ⊢
  omega

/-- Tokens of the given forms at places that follow one another. -/
def numbered (n : Nat) : List (Kind × List Char) → List Token
  | [] => []
  | (kind, text) :: forms => ⟨kind, ⟨n, 1, 1⟩, text⟩ :: numbered (n + 1) forms

section

variable {ts front back : List Token} {t u : Token}

theorem ordinal_of_split (hOrdered : Ordered (front ++ t :: back))
    (hPos : ∀ u ∈ front ++ t :: back, u.span.lo < u.span.hi) :
    ordinal (front ++ t :: back) t.span.lo = front.length ∧
      ordinal (front ++ t :: back) t.span.hi = front.length + 1 := by
  obtain ⟨-, hRest, hBetween⟩ := List.pairwise_append.mp hOrdered
  have hFront : ∀ u ∈ front, u.span.lo < t.span.lo := fun u hu =>
    Nat.lt_of_lt_of_le (hPos u (List.mem_append_left _ hu)) (hBetween u hu t List.mem_cons_self)
  have hBack : ∀ u ∈ back, t.span.hi ≤ u.span.lo := (List.pairwise_cons.mp hRest).1
  have hSelf := hPos t (by simp)
  have hFrontLo : front.countP (fun u => u.span.lo < t.span.lo) = front.length :=
    List.countP_eq_length.mpr fun u hu => decide_eq_true (hFront u hu)
  have hFrontHi : front.countP (fun u => u.span.lo < t.span.hi) = front.length :=
    List.countP_eq_length.mpr fun u hu => decide_eq_true (Nat.lt_trans (hFront u hu) hSelf)
  have hBackLo : back.countP (fun u => u.span.lo < t.span.lo) = 0 :=
    List.countP_eq_zero.mpr fun u hu => by have := hBack u hu; simp; omega
  have hBackHi : back.countP (fun u => u.span.lo < t.span.hi) = 0 :=
    List.countP_eq_zero.mpr fun u hu => by have := hBack u hu; simp; omega
  simp [ordinal, List.countP_append, hFrontLo, hFrontHi, hBackLo, hBackHi, hSelf]

theorem getElem?_ordinal (hOrdered : Ordered ts) (hPos : ∀ u ∈ ts, u.span.lo < u.span.hi)
    (ht : t ∈ ts) : ts[ordinal ts t.span.lo]? = some t := by
  obtain ⟨front, back, rfl⟩ := List.append_of_mem ht
  rw [(ordinal_of_split hOrdered hPos).1]
  simp

/-- The tokens of a source, moved to the places of their numbers. -/
theorem map_along_ordinal (front back : List Token) (hOrdered : Ordered (front ++ back))
    (hPos : ∀ u ∈ front ++ back, u.span.lo < u.span.hi) :
    back.map (mapSpan (Span.along (ordinal (front ++ back)))) =
      numbered front.length (back.map form) := by
  induction back generalizing front with
  | nil => rfl
  | cons t back ih =>
    obtain ⟨hLo, hHi⟩ := ordinal_of_split hOrdered hPos
    have hNext : front ++ t :: back = (front ++ [t]) ++ back := by simp
    have hRest := ih (front ++ [t]) (hNext ▸ hOrdered) (hNext ▸ hPos)
    rw [← hNext, List.length_append, List.length_singleton] at hRest
    rw [List.map_cons, hRest, List.map_cons, form, numbered, mapSpan, Span.along, hLo, hHi]
    simp

end

end Token

/-- The forms of the tokens that the parser reads. -/
def Token.forms (source : String) : List (Kind × List Char) :=
  (Token.significant source).map Token.form

/-- The stream of tokens of the given forms. -/
def Stream.ofForms (forms : List (Kind × List Char)) : Stream :=
  ⟨Token.numbered 0 forms, ⟨.eof, ⟨forms.length, 0, 1⟩, []⟩, ⟨0, 0, 1⟩⟩

/-- Moves every offset to the number of tokens that start before it. -/
def Motion.counting (ts : List Token) : Motion where
  move := Span.along (Token.ordinal ts)
  place := Span.along (Token.ordinal ts)
  move_join := Span.along_join (Token.ordinal_mono ts)

/-- Counting keeps the starts of tokens apart. -/
def Relocation.counting (ts : List Token) (hOrdered : Token.Ordered ts)
    (hPos : ∀ t ∈ ts, t.span.lo < t.span.hi) : Relocation where
  move := Span.along (Token.ordinal ts)
  offset := Token.ordinal ts
  known lo := ∃ t ∈ ts, lo = t.span.lo
  lo_move _ := rfl
  offset_inj := by
    rintro _ _ ⟨t, ht, rfl⟩ ⟨u, hu, rfl⟩ h
    have hEq := Token.getElem?_ordinal hOrdered hPos ht
    rw [h, Token.getElem?_ordinal hOrdered hPos hu] at hEq
    rw [Option.some.inj hEq]

theorem Stream.mapSpan_counting {source : String}
    (h : Token.firstFlaw? (Token.scan source) = none) :
    Stream.mapSpan (Motion.counting (Token.significant source)).move
        ⟨Token.significant source, Token.endOf source, .start⟩ =
      Stream.ofForms (Token.forms source) := by
  obtain ⟨hOrdered, -, hEnd⟩ := List.pairwise_append.mp (Token.ordered_significant h)
  have hPos : ∀ u ∈ Token.significant source, u.span.lo < u.span.hi := fun u hu =>
    Token.significant_lo_lt_hi h hu
  have hRest := Token.map_along_ordinal [] (Token.significant source) hOrdered hPos
  have hAll : Token.ordinal (Token.significant source) (Token.endOf source).span.lo =
      (Token.significant source).length :=
    List.countP_eq_length.mpr fun u hu => decide_eq_true
      (Nat.lt_of_lt_of_le (hPos u hu) (hEnd u hu _ List.mem_cons_self))
  have hNone : Token.ordinal (Token.significant source) 0 = 0 :=
    List.countP_eq_zero.mpr fun u _ => by simp
  have hEof : (Token.endOf source).mapSpan (Span.along (Token.ordinal (Token.significant source))) =
      ⟨.eof, ⟨(Token.forms source).length, 0, 1⟩, []⟩ := by
    have hHi : (Token.endOf source).span.hi = (Token.endOf source).span.lo := rfl
    rw [Token.mapSpan, Span.along, hHi, hAll, Nat.sub_self, Token.forms, List.length_map]
    rfl
  have hStart : Span.start.along (Token.ordinal (Token.significant source)) = ⟨0, 0, 1⟩ := by
    simp [Span.along, Span.start, Span.hi, hNone]
  simp only [Motion.counting, Stream.mapSpan, Stream.ofForms]
  rw [hEof, hStart]
  exact congrArg (Stream.mk · _ _) hRest

namespace Failure

def mapSpan (φ : Span → Span) : Failure → Failure
  | lex e => lex (e.mapSpan φ)
  | parse e => parse (e.mapSpan φ)
  | check e => check (e.mapSpan φ)
  | emit e => emit (e.mapSpan φ)

/-- The stage and the error, with nothing said about the place. -/
def unplaced (f : Failure) : Failure := f.mapSpan fun _ => .start

end Failure

/-- The same result, or failures that differ at most in their places. -/
def SameOutcome {α : Type} (x y : Except Failure α) : Prop :=
  x.mapError Failure.unplaced = y.mapError Failure.unplaced

/-- A stage whose input is moved, and what follows it. -/
theorem SameOutcome.bind_relocate {ε α β γ : Type} {stage : Located ε → Failure}
    (hStage : ∀ e φ, (stage (e.mapSpan φ)).unplaced = (stage e).unplaced) {φ : Span → Span}
    {g : α → β} {x : Except (Located ε) α} {x' : Except (Located ε) β} (hx : x' = relocate φ g x)
    {k : α → Except Failure γ} {k' : β → Except Failure γ}
    (hk : ∀ a, x = .ok a → SameOutcome (k a) (k' (g a))) :
    SameOutcome (x.mapError stage >>= k) (x'.mapError stage >>= k') := by
  subst hx
  cases x with
  | ok a => exact hk a rfl
  | error e => exact congrArg Except.error (hStage e φ).symm

/-- Compiles tokens of the given forms. -/
def compileForms (forms : List (Kind × List Char)) : Except Failure String := do
  let p ← (Prod.fst <$> Parser.program (Stream.ofForms forms)).mapError .parse
  let p ← p.check.mapError .check
  p.moduleText

/-- What a source compiles to is known from the forms of its tokens. -/
theorem sameOutcome_compileForms {source : String}
    (h : Token.firstFlaw? (Token.scan source) = none) :
    SameOutcome (compile source) (compileForms (Token.forms source)) := by
  let M := Motion.counting (Token.significant source)
  let R := Relocation.counting (Token.significant source) (Stream.proper_ofTokens h).ordered
    fun _ ht => Token.significant_lo_lt_hi h ht
  have hParse : Prod.fst <$> Parser.program (Stream.ofForms (Token.forms source)) =
      relocate M.move (Program.mapSpan M.move)
        (Prod.fst <$> Parser.program ⟨Token.significant source, Token.endOf source, .start⟩) := by
    rw [← Stream.mapSpan_counting h]
    exact relocate_map (Motion.program_moves.run_eq fun _ _ => rfl) fun _ => rfl
  rw [compile, checkSource, bind_assoc, compileForms, Program.parse_of_flawless h]
  refine .bind_relocate (fun _ _ => rfl) hParse fun p hp => ?_
  refine .bind_relocate (fun _ _ => rfl) p.check_mapSpan fun p' hp' => ?_
  -- Counting tells apart only the starts of tokens, and that is where the parts of a program start.
  have hKnows : R.Knows p'.spans := by
    intro s hs
    have hProgram : Program.parse source = .ok p := by
      rw [Program.parse_of_flawless h, hp]
      rfl
    obtain ⟨t, ht, -, -, hLo, -⟩ :=
      Program.exists_tokens_of_mem_spans hProgram (Program.mem_spans_of_check hp' hs)
    exact ⟨t, ht, hLo⟩
  exact .bind_relocate (fun _ _ => rfl) (p'.emit_mapSpan hKnows) fun _ _ => rfl

/-- Compilation does not depend on layout: sources whose tokens agree in kind and text compile to
the same module text, or fail in the same stage with the same error. -/
theorem compile_of_forms_eq (a b : String) (hA : Token.firstFlaw? (Token.scan a) = none)
    (hB : Token.firstFlaw? (Token.scan b) = none) (h : Token.forms a = Token.forms b) :
    (compile a).mapError Failure.unplaced = (compile b).mapError Failure.unplaced := by
  have hForms := sameOutcome_compileForms hA
  rw [h] at hForms
  exact hForms.trans (sameOutcome_compileForms hB).symm

/-- One program, with two literals of one text, laid out in two ways. -/
def twoLayouts : { sources : String × String //
    Token.firstFlaw? (Token.scan sources.1) = none ∧
    Token.firstFlaw? (Token.scan sources.2) = none ∧
    Token.forms sources.1 = Token.forms sources.2 ∧ (compile sources.1).isOk = true } :=
  ⟨("char* s; void f() \x7b s = \"x\"; s = (\"x\"); log(s); \x7d",
    "/* é */ char *s;\nvoid f()\n\x7b s=\"x\"; // one\n  s=( \"x\" );log( s );\x7d"),
    (congrArg Token.firstFlaw? (Token.scan_ofList _)).trans (by decide +kernel),
    (congrArg Token.firstFlaw? (Token.scan_ofList _)).trans (by decide +kernel),
    (congrArg (List.map Token.form) (Token.significant_ofList _)).trans
      (.trans (by decide +kernel) (congrArg (List.map Token.form) (Token.significant_ofList _)).symm),
    (congrArg Except.isOk (compile_ofList _)).trans (by decide +kernel)⟩

theorem compile_of_forms_eq_literals :
    Token.firstFlaw? (Token.scan twoLayouts.1.1) = none ∧
      Token.firstFlaw? (Token.scan twoLayouts.1.2) = none ∧
      Token.forms twoLayouts.1.1 = Token.forms twoLayouts.1.2 ∧
      (compile twoLayouts.1.1).isOk = true ∧
      (compile twoLayouts.1.1).mapError Failure.unplaced =
        (compile twoLayouts.1.2).mapError Failure.unplaced := by
  obtain ⟨hA, hB, hForms, hOk⟩ := twoLayouts.2
  exact ⟨hA, hB, hForms, hOk, compile_of_forms_eq _ _ hA hB hForms⟩

end MiniC
