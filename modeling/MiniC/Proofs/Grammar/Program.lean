import MiniC.Proofs.Grammar.Completeness.Stmt
import MiniC.Proofs.Grammar.Soundness.Stmt
import MiniC.Proofs.Grammar.Unambiguity.Stmt

/-! # Parsing is derivation

A source without faulty tokens parses if and only if its significant tokens, all of them, are the
leaves of a derivation.  There is then only one derivation, and the program is its tree.
-/
namespace MiniC
set_option autoImplicit false

theorem Stream.proper_ofTokens {source : String}
    (h : Token.firstFlaw? (Token.scan source) = none) :
    Stream.Proper ⟨Token.significant source, Token.endOf source, .start⟩ where
  eof := rfl
  rest _ ht := Token.significant_kind_ne_eof h ht
  ordered := (List.pairwise_append.mp (Token.ordered_significant h)).1

theorem Program.parse_of_flawless {source : String}
    (h : Token.firstFlaw? (Token.scan source) = none) :
    Program.parse source =
      (Prod.fst <$> Parser.program ⟨Token.significant source, Token.endOf source, .start⟩).mapError
        .parse := by
  rw [Program.parse]
  simp only [h]
  rw [Program.ofTokens, Stream.ofTokens_scan]

theorem Program.exists_derivation {source : String} {p : Program Unit}
    (h : Token.firstFlaw? (Token.scan source) = none) (hParse : Program.parse source = .ok p) :
    ∃ d : Grammar.Derivation, d.tokens = Token.significant source ∧ d.tree = p := by
  rw [Program.parse_of_flawless h] at hParse
  cases hRun : Parser.program ⟨Token.significant source, Token.endOf source, .start⟩ with
  | error e =>
    rw [hRun] at hParse
    cases hParse
  | ok r =>
    rw [hRun] at hParse
    cases hParse
    exact Parser.program_accepts (Stream.proper_ofTokens h) hRun

theorem Program.parse_of_derivation {source : String} {d : Grammar.Derivation}
    (h : Token.firstFlaw? (Token.scan source) = none) (hd : d.tokens = Token.significant source) :
    Program.parse source = .ok d.tree := by
  have hOrdered := (Stream.proper_ofTokens h).ordered
  obtain ⟨s', hRun⟩ :=
    Parser.program_run d (by rw [hd]; exact hOrdered) (Token.endOf source) rfl .start
  rw [Program.parse_of_flawless h, ← hd, hRun]
  rfl

/-- The parser accepts exactly the grammar, and builds the tree of the only derivation. -/
theorem Program.parse_eq_ok_iff_derives (source : String)
    (h : Token.firstFlaw? (Token.scan source) = none) :
    (∀ p, Program.parse source = .ok p ↔
      ∃ d : Grammar.Derivation, d.tokens = Token.significant source ∧ d.tree = p) ∧
    ∀ d d' : Grammar.Derivation, d.tokens = Token.significant source →
      d'.tokens = Token.significant source → d = d' := by
  refine ⟨fun p => ⟨Program.exists_derivation h, ?_⟩, fun d d' hd hd' => ?_⟩
  · rintro ⟨d, hd, rfl⟩
    exact Program.parse_of_derivation h hd
  · exact Grammar.Derivation.ext_tokens (hd.trans hd'.symm)

/-- A source with a store, an indexed name as the start of an expression, and the least integer. -/
theorem Program.parse_eq_ok_iff_derives_least :
    let source := "void f(int* p) { p[0][1] = -2147483648; p[1] + 2 * (3); }"
    Token.firstFlaw? (Token.scan source) = none ∧
      ∃ d : Grammar.Derivation, d.tokens = Token.significant source ∧
        Program.parse source = .ok d.tree ∧
          ∀ d' : Grammar.Derivation, d'.tokens = Token.significant source → d' = d := by
  intro source
  have hFlawless : Token.firstFlaw? (Token.scan source) = none :=
    (congrArg Token.firstFlaw? (Token.scan_ofList _)).trans (by decide +kernel)
  have hOk : (Program.parse source).isOk = true :=
    (congrArg Except.isOk (Program.parse_ofList _)).trans (by decide +kernel)
  obtain ⟨hIff, hUnique⟩ := Program.parse_eq_ok_iff_derives source hFlawless
  cases hParse : Program.parse source with
  | error e =>
    rw [hParse] at hOk
    cases hOk
  | ok p =>
    obtain ⟨d, hTokens, rfl⟩ := (hIff p).mp hParse
    exact ⟨hFlawless, d, hTokens, rfl, fun d' hd' => hUnique d' d hd' hTokens⟩

end MiniC
