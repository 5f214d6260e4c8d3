import MiniC.Proofs.Grammar.Lists
import MiniC.Proofs.Grammar.TrailingCommas.Stmt
import MiniC.Proofs.Places.Trees

/-! # Lists of parameters and arguments

A source is a strict program, one without a comma behind the last item of a list, exactly if the
parser accepts it and no comma stands directly in front of a closing parenthesis.  The parser
accepts more: a list may also end with a comma, which has no influence on the tree.
-/
namespace MiniC
set_option autoImplicit false

open Grammar MiniC.Parser
open Token (dropTrailing significant)

namespace Program

variable {source : String}

/-- The trailing commas of an accepted source may be left out. -/
theorem exists_strict_derivation {p : Program Unit} (hParse : Program.parse source = .ok p) :
    ∃ d : Derivation, d.Strict ∧ d.tokens = dropTrailing (significant source) ∧ d.tree = p := by
  obtain ⟨d, hTokens, rfl⟩ := exists_derivation (firstFlaw?_of_parse hParse) hParse
  obtain ⟨d', hTrims⟩ := d.exists_trims
  exact ⟨d', hTrims.strict, hTokens ▸ hTrims.drops.eq_dropTrailing, hTrims.value⟩

theorem exists_strict_iff :
    (Token.firstFlaw? (Token.scan source) = none ∧
      ∃ d : Derivation, d.Strict ∧ d.tokens = significant source) ↔
      (∃ p, Program.parse source = .ok p) ∧ Token.NoTrailing (significant source) := by
  constructor
  · rintro ⟨hFlawless, d, hStrict, hTokens⟩
    refine ⟨⟨d.tree, parse_of_derivation hFlawless hTokens⟩, ?_⟩
    rw [← Token.dropTrailing_eq_self_iff, ← hTokens, hStrict.dropTrailing_tokens]
  · rintro ⟨⟨p, hParse⟩, hNone⟩
    obtain ⟨d, hStrict, hTokens, -⟩ := exists_strict_derivation hParse
    exact ⟨firstFlaw?_of_parse hParse, d, hStrict,
      hTokens.trans (Token.dropTrailing_eq_self_iff.mpr hNone)⟩

/-- Lists are read as `item (separator item)*`, except that one more separator may stand behind the
last item.  So an accepted source is a strict program exactly if no comma stands directly in front
of a closing parenthesis, and without such commas it always is one, with the same tree. -/
theorem strict_iff_no_trailing_comma {α : Type} (item : Parser α) (close sep : Kind)
    (source : String) :
    ListReading item close sep ∧
    (Token.firstFlaw? (Token.scan source) = none ∧
        (∃ d : Derivation, d.Strict ∧ d.tokens = significant source) ↔
      (∃ p, Program.parse source = .ok p) ∧ Token.NoTrailing (significant source)) ∧
    ∀ p, Program.parse source = .ok p → ∃ d : Derivation, d.Strict ∧
      d.tokens = dropTrailing (significant source) ∧ d.tree = p :=
  ⟨listReading item close sep, exists_strict_iff, fun _ => exists_strict_derivation⟩

/-- A list of parameters and a list of arguments, both with a comma behind the last item. -/
def trailing : String := "int f(int a,) { f(a,); }"

/-- The parser where the parameters of `trailing` start. -/
def atParameters : Stream :=
  (Stream.mk (significant trailing) (Token.endOf trailing) .start).tail.tail.tail

theorem flawless_trailing : Token.firstFlaw? (Token.scan trailing) = none :=
  (congrArg Token.firstFlaw? (Token.scan_ofList _)).trans (by decide +kernel)

theorem not_noTrailing_trailing : ¬ Token.NoTrailing (significant trailing) := by
  rw [trailing, Token.significant_ofList]
  decide +kernel

theorem exists_parse_trailing : ∃ p, Program.parse trailing = .ok p := by
  have hOk : (Program.parse trailing).isOk = true :=
    (congrArg Except.isOk (Program.parse_ofList _)).trans (by decide +kernel)
  cases hParse : Program.parse trailing with
  | error e =>
    rw [hParse] at hOk
    cases hOk
  | ok p => exact ⟨p, rfl⟩

theorem proper_atParameters : atParameters.Proper :=
  (Stream.proper_ofTokens flawless_trailing).tail.tail.tail

/-- One parameter is read, and a comma and a closing parenthesis follow. -/
theorem exists_param_atParameters :
    ∃ a s₁, Alternates param (.symbol .rparen) (.symbol .comma) atParameters [a] [] s₁ ∧
      s₁.head.kind = .symbol .comma ∧ s₁.tail.head.kind = .symbol .rparen := by
  have hStart : ¬ atParameters.AtEnd (.symbol .rparen) := by
    have hKind : atParameters.head.kind = .keyword .int :=
      (congrArg (fun ts => (Stream.mk ts (Token.endOf trailing) .start).tail.tail.tail.head.kind)
        (Token.significant_ofList _)).trans (by decide +kernel)
    simp [Stream.AtEnd, hKind]
  have hKinds : ((param atParameters).toOption.map fun r => (r.2.head.kind, r.2.tail.head.kind)) =
      some (.symbol .comma, .symbol .rparen) :=
    (congrArg (fun ts => (param (Stream.mk ts (Token.endOf trailing) .start).tail.tail.tail
      ).toOption.map fun r => (r.2.head.kind, r.2.tail.head.kind))
        (Token.significant_ofList _)).trans (by decide +kernel)
  cases hRun : param atParameters with
  | error e =>
    rw [hRun] at hKinds
    cases hKinds
  | ok r =>
    rw [hRun] at hKinds
    obtain ⟨hComma, hClose⟩ := Prod.mk.inj (Option.some.inj hKinds)
    exact ⟨r.1, r.2, .last hStart hRun, hComma, hClose⟩

/-- The comma behind the last parameter and the one behind the last argument are accepted. -/
theorem trailing_comma_accepted :
    (∃ a s', budgeted (sepList (.symbol .rparen) (.symbol .comma) param) atParameters =
        .ok ([a], s') ∧
      ¬ ∃ seps, Alternates param (.symbol .rparen) (.symbol .comma) atParameters [a] seps s') ∧
    (∃ p, Program.parse trailing = .ok p) ∧
    ¬ ∃ d : Derivation, d.Strict ∧ d.tokens = significant trailing := by
  have hShortens : Shortens param := param_accepts.shortens
  obtain ⟨a, s₁, hAlternates, hComma, hClose⟩ := exists_param_atParameters
  have hReads := ReadsList.trailing hAlternates hComma (.inr hClose)
  refine ⟨⟨a, s₁.tail, ?_, fun hDocumented => ?_⟩, exists_parse_trailing, fun hStrict => ?_⟩
  · exact (budgeted_sepList_iff proper_atParameters hShortens (by decide)).mpr hReads
  · exact (hReads.exists_alternates_iff proper_atParameters hShortens (by decide)
      (List.cons_ne_nil _ _)).mp hDocumented _ _ hAlternates hComma
  · exact not_noTrailing_trailing (exists_strict_iff.mp ⟨flawless_trailing, hStrict⟩).2

/-- With their trailing commas the lists of `trailing` have not the form `item (separator item)*`;
without these commas the program is strict. -/
theorem strict_iff_no_trailing_comma_dropped :
    (atParameters.Proper ∧ Shortens param ∧ ∃ a s',
      ReadsList param (.symbol .rparen) (.symbol .comma) atParameters [a] s' ∧
      budgeted (sepList (.symbol .rparen) (.symbol .comma) param) atParameters = .ok ([a], s') ∧
      s'.AtEnd (.symbol .rparen) ∧
      ¬ ∃ seps, Alternates param (.symbol .rparen) (.symbol .comma) atParameters [a] seps s') ∧
    Token.firstFlaw? (Token.scan trailing) = none ∧
    (¬ ∃ d : Derivation, d.Strict ∧ d.tokens = significant trailing) ∧
    ∃ p, Program.parse trailing = .ok p ∧ ∃ d : Derivation, d.Strict ∧
      d.tokens = dropTrailing (significant trailing) ∧ d.tree = p := by
  obtain ⟨hReading, hIff, hDropped⟩ :=
    strict_iff_no_trailing_comma param (.symbol .rparen) (.symbol .comma) trailing
  have hShortens : Shortens param := param_accepts.shortens
  obtain ⟨a, s₁, hAlternates, hComma, hClose⟩ := exists_param_atParameters
  have hReads := ReadsList.trailing hAlternates hComma (.inr hClose)
  have hForm := hReading.strict_iff proper_atParameters hShortens (by decide) hReads
    (List.cons_ne_nil _ _)
  obtain ⟨p, hParse⟩ := exists_parse_trailing
  refine ⟨⟨proper_atParameters, hShortens, a, s₁.tail, hReads, ?_, hReading.atEnd hReads, ?_⟩,
    flawless_trailing, ?_, p, hParse, hDropped p hParse⟩
  · exact (hReading.bounded proper_atParameters hShortens (by decide)).mpr hReads
  · exact fun hDocumented => hForm.mp hDocumented _ _ hAlternates hComma
  · exact fun hStrict => not_noTrailing_trailing (hIff.mp ⟨flawless_trailing, hStrict⟩).2

end Program

end MiniC
