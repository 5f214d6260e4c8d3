import MiniC.Proofs.Grammar.Reading
import MiniC.Proofs.Guarded.Reader
import MiniC.Proofs.Places.Tiling

/-! # The reader and the parser, side by side

A reader follows a stream if both see the same tokens from here on.  An action of the reader mirrors a
parser from a stream if it has a result there, the same as that of the parser, and then follows it
again; the parser does not run out of rounds.  The rules below say so for the basic actions and for
what is put together from them.
-/
namespace MiniC
set_option autoImplicit false

open Guarded (demand ensure stuck Gives Fails)

namespace Token

theorem scan_eq (source : String) : scan source = (scan source).dropLast ++ [endOf source] := by
  obtain ⟨front, hFront⟩ := exists_place_eq .start (Lexeme.ofText source.toList)
  rw [Lexeme.flatMap_text_ofText] at hFront
  have hEq : scan source = front ++ [endOf source] := hFront
  rw [hEq, List.dropLast_concat]

end Token

namespace Reader

variable {source : String}

theorem ending_eq {r : Reader} (hSource : r.source = source)
    (hTokens : r.tokens = Token.scan source) : r.ending = Token.endOf source := by
  have hLast : (Token.scan source).getLast? = some (Token.endOf source) := by
    rw [Token.scan_eq, List.getLast?_append]
    rfl
  rw [ending, hSource, hTokens, hLast, Token.endOf]
  simp [Span.atEnd, Pos.spanOf, Pos.start]

/-- The reader sees one of the tokens, and beyond all others the end of the file. -/
theorem head_eq {r : Reader} (hSource : r.source = source) (hTokens : r.tokens = Token.scan source) :
    r.head = (Token.scan source).dropLast[r.cursor]?.getD (Token.endOf source) := by
  rw [head, ending_eq hSource hTokens, hTokens]
  conv => lhs; rw [Token.scan_eq]
  rw [List.getElem?_append]
  split
  · rfl
  · next hCursor =>
    rw [List.getElem?_eq_none (Nat.le_of_not_lt hCursor)]
    cases r.cursor - (Token.scan source).dropLast.length with
    | zero => rfl
    | succ n => rfl

end Reader

/-- The tokens that matter from the index `n` on, the end of the file excepted. -/
def Token.significantFrom (source : String) (n : Nat) : List Token :=
  ((Token.scan source).dropLast.drop n).filter fun t => !t.kind.isTrivia

/-- Both see the same tokens from here on. -/
structure Reader.Follows (source : String) (r : Reader) (s : Stream) : Prop where
  source_eq : r.source = source
  tokens_eq : r.tokens = Token.scan source
  eof_eq : s.eof = Token.endOf source
  prev_eq : r.prev = s.prev
  prev_le : s.prev.hi ≤ Text.byteLength source.toList
  rest_eq : s.rest = Token.significantFrom source r.cursor
  settled : r.head.kind.isTrivia = false

namespace Token

variable {source : String}

theorem significantFrom_of_ge {n : Nat} (h : (scan source).dropLast.length ≤ n) :
    significantFrom source n = [] := by
  rw [significantFrom, List.drop_eq_nil_of_le h, List.filter_nil]

theorem significantFrom_of_getElem? {n : Nat} {t : Token}
    (h : (scan source).dropLast[n]? = some t) :
    significantFrom source n =
      if t.kind.isTrivia = true then significantFrom source (n + 1)
      else t :: significantFrom source (n + 1) := by
  obtain ⟨hn, hGet⟩ := List.getElem?_eq_some_iff.mp h
  rw [significantFrom, List.drop_eq_getElem_cons hn, hGet, List.filter_cons]
  cases t.kind.isTrivia with
  | true => rfl
  | false => rfl

theorem length_significantFrom_le (source : String) (n : Nat) :
    (significantFrom source n).length ≤ (scan source).length - n := by
  have hFilter := (List.filter_sublist (l := (scan source).dropLast.drop n)
    (p := fun t => !t.kind.isTrivia)).length_le
  rw [List.length_drop, List.length_dropLast] at hFilter
  rw [significantFrom]
  omega

theorem mem_scan_of_mem_significantFrom {n : Nat} {t : Token} (h : t ∈ significantFrom source n) :
    t ∈ scan source :=
  List.dropLast_subset _ (List.drop_subset _ _ (List.mem_filter.mp h).1)

end Token

namespace Reader.Follows

variable {source : String} {r : Reader} {s : Stream}

theorem head_eq (h : r.Follows source s) : r.head = s.head := by
  have hHead := Reader.head_eq h.source_eq h.tokens_eq
  have hSettled := h.settled
  rw [Stream.head, h.rest_eq, h.eof_eq]
  cases hGet : (Token.scan source).dropLast[r.cursor]? with
  | none =>
    rw [hGet] at hHead
    rw [Token.significantFrom_of_ge (List.getElem?_eq_none_iff.mp hGet), hHead]
    rfl
  | some t =>
    rw [hGet, Option.getD_some] at hHead
    rw [hHead] at hSettled
    rw [Token.significantFrom_of_getElem? hGet, hSettled, hHead]
    rfl

theorem head_mem (h : r.Follows source s) : s.head ∈ Token.scan source := by
  rw [Stream.head, h.rest_eq, h.eof_eq]
  cases hRest : Token.significantFrom source r.cursor with
  | nil => exact Token.endOf_mem_scan
  | cons t rest => exact Token.mem_scan_of_mem_significantFrom (hRest ▸ List.mem_cons_self)

/-- A token that does not mark the end of the file is used up when it is read. -/
theorem length_tail_lt (h : r.Follows source s) (hKind : s.head.kind ≠ .eof) :
    s.tail.rest.length < s.rest.length := by
  rw [Stream.tail]
  cases hRest : s.rest with
  | nil =>
    rw [Stream.head, hRest, List.headD_nil, h.eof_eq] at hKind
    exact absurd rfl hKind
  | cons t rest => exact Nat.lt_succ_self _

end Reader.Follows

namespace Reading

variable {source : String}

/-- What only separates tokens is skipped, and nothing else. -/
theorem skipTrivia_gives {r : Reader} (hSource : r.source = source)
    (hTokens : r.tokens = Token.scan source) {n : Nat} (hn : r.tokens.length - r.cursor < n) :
    ∃ k, Gives (skipTrivia n) r () { r with cursor := k } ∧
      Token.significantFrom source k = Token.significantFrom source r.cursor ∧
      ({ r with cursor := k } : Reader).head.kind.isTrivia = false := by
  induction n generalizing r with
  | zero => omega
  | succ n ih =>
    have hPeek : Gives peekKind r r.head.kind r := rfl
    cases hTrivia : r.head.kind.isTrivia with
    | false =>
      refine ⟨r.cursor, hPeek.bind ?_, rfl, hTrivia⟩
      rw [hTrivia]
      exact .pure _ _
    | true =>
      have hHead := Reader.head_eq hSource hTokens
      cases hGet : (Token.scan source).dropLast[r.cursor]? with
      | none =>
        rw [hHead, hGet] at hTrivia
        cases hTrivia
      | some t =>
        rw [hGet, Option.getD_some] at hHead
        have hLt : r.cursor < r.tokens.length := by
          obtain ⟨hLt, -⟩ := List.getElem?_eq_some_iff.mp hGet
          rw [List.length_dropLast] at hLt
          rw [hTokens]
          omega
        have hLater : r.tokens.length - (r.cursor + 1) < n := by omega
        obtain ⟨k, hGives, hFrom, hSettled⟩ :=
          ih (r := { r with cursor := r.cursor + 1 }) hSource hTokens hLater
        refine ⟨k, hPeek.bind ?_, ?_, hSettled⟩
        · rw [hTrivia]
          exact (Gives.modify _ r).bind hGives
        · rw [hFrom, Token.significantFrom_of_getElem? hGet, if_pos (hHead ▸ hTrivia)]

theorem skip_gives {r : Reader} (hSource : r.source = source)
    (hTokens : r.tokens = Token.scan source) :
    ∃ k, Gives (budgeted skipTrivia) r () { r with cursor := k } ∧
      Token.significantFrom source k = Token.significantFrom source r.cursor ∧
      ({ r with cursor := k } : Reader).head.kind.isTrivia = false :=
  skipTrivia_gives hSource hTokens (Nat.lt_succ_self _)

theorem peek_gives {r : Reader} {s : Stream} (h : r.Follows source s) : Gives peek r s.head r := by
  rw [← h.head_eq]
  rfl

theorem advance_gives {r : Reader} {s : Stream} (h : r.Follows source s) :
    ∃ r', Gives advance r s.head r' ∧ r'.Follows source s.tail := by
  obtain ⟨k, hSkip, hFrom, hSettled⟩ :=
    skip_gives (r := { r with prev := s.head.span, cursor := r.cursor + 1 }) h.source_eq h.tokens_eq
  have hPeek := peek_gives h
  refine ⟨{ r with prev := s.head.span, cursor := k },
    hPeek.bind ((Gives.modify _ r).bind (hSkip.bind (.pure _ _))),
    ⟨h.source_eq, h.tokens_eq, h.eof_eq, rfl, ?_, ?_, hSettled⟩⟩
  · exact Token.hi_le_of_mem_scan h.head_mem
  · change s.rest.tail = Token.significantFrom source k
    rw [hFrom, h.rest_eq]
    have hHead := Reader.head_eq h.source_eq h.tokens_eq
    have hKind := h.settled
    cases hGet : (Token.scan source).dropLast[r.cursor]? with
    | none =>
      have hLe := List.getElem?_eq_none_iff.mp hGet
      rw [Token.significantFrom_of_ge hLe, Token.significantFrom_of_ge (Nat.le_succ_of_le hLe)]
      rfl
    | some t =>
      rw [hGet, Option.getD_some] at hHead
      rw [hHead] at hKind
      rw [Token.significantFrom_of_getElem? hGet, hKind]
      rfl

theorem extract_gives {r : Reader} {s : Stream} (h : r.Follows source s) {k : Kind} {t : Token}
    (ht : t ∈ Token.scan source) (hk : t.kind = k) : Gives (extract k t) r t.text r := by
  refine (Gives.ensure hk r).bind ((Gives.get r).bind ?_)
  rw [h.source_eq, Token.slice?_of_mem_scan ht]
  refine (Gives.demand rfl r).bind ?_
  rw [String.toList_ofList]
  exact .pure _ _

theorem identOf_gives {r : Reader} {s : Stream} (h : r.Follows source s) {t : Token}
    (ht : t ∈ Token.scan source) (hk : t.kind = .identifier) :
    Gives (identOf t) r (Parser.identOf t) r :=
  (extract_gives h ht hk).bind (.pure _ _)

end Reading

/-- The action has a result wherever it follows the stream, the same as that of the parser. -/
def Mirrors {α : Type} (source : String) (s : Stream) (Post : α → Stream → Prop) (p : Reading α)
    (q : Parser α) : Prop :=
  ∀ r : Reader, r.Follows source s →
    match q s with
    | .error e => e.value ≠ .exhausted ∧ p.Fails r e
    | .ok (a, s') => Post a s' ∧ ∃ r', p.Gives r a r' ∧ r'.Follows source s'

namespace Mirrors

variable {α β : Type} {source : String} {s : Stream} {P : α → Stream → Prop}
  {Post : β → Stream → Prop} {p : Reading α} {q : Parser α} {f : α → Reading β} {g : α → Parser β}

theorem bind (h : Mirrors source s P p q)
    (hNext : ∀ a s', P a s' → Mirrors source s' Post (f a) (g a)) :
    Mirrors source s Post (p >>= f) (q >>= g) := by
  intro r hr
  have h := h r hr
  rw [Parser.run_bind]
  cases hq : q s with
  | error e =>
    rw [hq] at h
    exact ⟨h.1, h.2.bind⟩
  | ok x =>
    obtain ⟨a, s'⟩ := x
    rw [hq] at h
    obtain ⟨hP, r', hGives, hFollows⟩ := h
    have hNext := hNext a s' hP r' hFollows
    change match g a s' with
      | .error e => e.value ≠ .exhausted ∧ (p >>= f).Fails r e
      | .ok (b, s'') => Post b s'' ∧ ∃ r'', (p >>= f).Gives r b r'' ∧ r''.Follows source s''
    cases hg : g a s' with
    | error e =>
      rw [hg] at hNext
      exact ⟨hNext.1, hGives.bind_fails hNext.2⟩
    | ok x =>
      rw [hg] at hNext
      obtain ⟨hPost, r'', hGives', hFollows'⟩ := hNext
      exact ⟨hPost, r'', hGives.bind hGives', hFollows'⟩

theorem mono {R : α → Stream → Prop} (h : Mirrors source s P p q)
    (hPost : ∀ a s', P a s' → R a s') : Mirrors source s R p q := by
  intro r hr
  have h := h r hr
  cases hq : q s with
  | error e =>
    rw [hq] at h
    exact h
  | ok x =>
    rw [hq] at h
    exact ⟨hPost _ _ h.1, h.2⟩

theorem pure {a : α} (h : P a s) : Mirrors source s P (Pure.pure a) (Pure.pure a) :=
  fun r hr => ⟨h, r, .pure a r, hr⟩

theorem fail (span : Span) {e : ParseError} (h : e ≠ .exhausted) :
    Mirrors source s P (Reading.fail span e) (Parser.fail span e) :=
  fun r _ => ⟨h, .throw _ r⟩

theorem gives {p : Reading α} {a : α} (h : P a s)
    (hp : ∀ r : Reader, r.Follows source s → p.Gives r a r) : Mirrors source s P p (Pure.pure a) :=
  fun r hr => ⟨h, r, hp r hr, hr⟩

/-- An action that only the reader takes. -/
theorem gives_bind {γ : Type} {x : Reading γ} {c : γ} {f : γ → Reading α}
    (hx : ∀ r : Reader, r.Follows source s → x.Gives r c r) (h : Mirrors source s P (f c) q) :
    Mirrors source s P (x >>= f) q := by
  intro r hr
  have hEnding := Guarded.ending_bind_of_gives (f := f) (hx r hr)
  have h := h r hr
  cases hq : q s with
  | error e =>
    rw [hq] at h
    exact ⟨h.1, hEnding.trans h.2⟩
  | ok y =>
    rw [hq] at h
    obtain ⟨hP, r', hGives, hFollows⟩ := h
    exact ⟨hP, r', hEnding.trans hGives, hFollows⟩

theorem peekOnly {f : Token → Reading α}
    (h : s.head ∈ Token.scan source → Mirrors source s P (f s.head) q) :
    Mirrors source s P (Reading.peek >>= f) q :=
  fun r hr => gives_bind (fun _ => Reading.peek_gives) (h hr.head_mem) r hr

theorem peek {f : Token → Reading α} {g : Token → Parser α}
    (h : s.head ∈ Token.scan source → Mirrors source s P (f s.head) (g s.head)) :
    Mirrors source s P (Reading.peek >>= f) (Parser.peek >>= g) := peekOnly h

theorem peekKind {f : Kind → Reading α} {g : Kind → Parser α}
    (h : Mirrors source s P (f s.head.kind) (g s.head.kind)) :
    Mirrors source s P (Reading.peekKind >>= f) (Parser.peekKind >>= g) := by
  refine gives_bind (fun r hr => ?_) h
  rw [← hr.head_eq]
  rfl

/-- The span of the last token that was read lies in the source. -/
theorem prevSpanOnly {f : Span → Reading α}
    (h : s.prev.hi ≤ Text.byteLength source.toList → Mirrors source s P (f s.prev) q) :
    Mirrors source s P (Reading.prevSpan >>= f) q := by
  intro r hr
  refine gives_bind (fun r hr => ?_) (h hr.prev_le) r hr
  rw [← hr.prev_eq]
  rfl

theorem prevSpan {f : Span → Reading α} {g : Span → Parser α}
    (h : s.prev.hi ≤ Text.byteLength source.toList → Mirrors source s P (f s.prev) (g s.prev)) :
    Mirrors source s P (Reading.prevSpan >>= f) (Parser.prevSpan >>= g) := prevSpanOnly h

/-- What is known after one token was read. -/
def Read (source : String) (s : Stream) (t : Token) (s' : Stream) : Prop :=
  t = s.head ∧ s' = s.tail ∧ t ∈ Token.scan source ∧
    (t.kind ≠ .eof → s'.rest.length < s.rest.length)

theorem advance : Mirrors source s (Read source s) Reading.advance Parser.advance :=
  fun _ hr => ⟨⟨rfl, rfl, hr.head_mem, hr.length_tail_lt⟩, Reading.advance_gives hr⟩

theorem discarded (h : Mirrors source s P p q) :
    Mirrors source s (fun _ s' => ∃ a, P a s') (Functor.discard p) (Functor.discard q) :=
  h.bind (f := fun _ => Pure.pure ()) (g := fun _ => Pure.pure ()) fun a _ ha => pure ⟨a, ha⟩

theorem discard {x : Reading β} {y : Parser β} (h : Mirrors source s P p q)
    (hNext : ∀ a s', P a s' → Mirrors source s' Post x y) :
    Mirrors source s Post (Functor.discard p >>= fun _ => x) (Functor.discard q >>= fun _ => y) :=
  h.discarded.bind fun _ s' ⟨a, ha⟩ => hNext a s' ha

/-- A token that does not mark the end of the file is skipped. -/
theorem skip {x : Reading β} {y : Parser β} (hKind : s.head.kind ≠ .eof)
    (h : s.tail.rest.length < s.rest.length → Mirrors source s.tail Post x y) :
    Mirrors source s Post (Functor.discard Reading.advance >>= fun _ => x)
      (Functor.discard Parser.advance >>= fun _ => y) := by
  refine advance.discard ?_
  rintro t s' ⟨rfl, rfl, -, hLength⟩
  exact h (hLength hKind)

theorem ifSees {k : Kind} {x y : Reading α} {x' y' : Parser α}
    (hYes : s.head.kind = k → Mirrors source s P x x')
    (hNo : s.head.kind ≠ k → Mirrors source s P y y') :
    Mirrors source s P (Reading.sees k >>= fun b => if b = true then x else y)
      (Parser.sees k >>= fun b => if b = true then x' else y') := by
  have hSees (r : Reader) (hr : r.Follows source s) :
      Gives (Reading.sees k) r (decide (s.head.kind = k)) r := by
    rw [← hr.head_eq]
    rfl
  refine gives_bind hSees ?_
  intro r hr
  rw [Parser.sees_ite]
  by_cases hKind : s.head.kind = k
  · rw [decide_eq_true hKind, if_pos hKind]
    exact hYes hKind r hr
  · rw [decide_eq_false hKind, if_neg hKind]
    exact hNo hKind r hr

/-- A choice by the next token, which is read in the first case. -/
theorem ifTake {k : Kind} (hk : k ≠ .eof) {x y : Reading α} {x' y' : Parser α}
    (hYes : s.tail.rest.length < s.rest.length → Mirrors source s.tail P x x')
    (hNo : s.head.kind ≠ k → Mirrors source s P y y') :
    Mirrors source s P (Reading.take k >>= fun b => if b = true then x else y)
      (Parser.take k >>= fun b => if b = true then x' else y') := by
  have hTake : Mirrors source s
      (fun b s' => (b = true ∧ s' = s.tail ∧ s.tail.rest.length < s.rest.length) ∨
        (b = false ∧ s' = s ∧ s.head.kind ≠ k)) (Reading.take k) (Parser.take k) := by
    exact ifSees
      (fun hKind => skip (hKind ▸ hk) fun hLength => pure (.inl ⟨rfl, rfl, hLength⟩))
      fun hKind => pure (.inr ⟨rfl, rfl, hKind⟩)
  refine hTake.bind fun b s' hb => ?_
  obtain ⟨rfl, rfl, hLength⟩ | ⟨rfl, rfl, hKind⟩ := hb
  · exact hYes hLength
  · exact hNo hKind

theorem expect_read (k : Kind) :
    Mirrors source s (fun t s' => Read source s t s' ∧ t.kind = k) (Reading.expect k)
      (Parser.expect k) := by
  refine peek fun hMem => ?_
  by_cases hKind : s.head.kind = k
  · rw [if_pos hKind, if_pos hKind]
    refine advance.mono fun t s' hRead => ⟨hRead, ?_⟩
    rw [hRead.1, hKind]
  · rw [if_neg hKind, if_neg hKind]
    exact fail _ (by simp)

theorem expect {k : Kind} (hk : k ≠ .eof) :
    Mirrors source s
      (fun t s' => t ∈ Token.scan source ∧ t.kind = k ∧ s'.rest.length < s.rest.length)
      (Reading.expect k) (Parser.expect k) := by
  refine (expect_read k).mono ?_
  rintro t s' ⟨⟨-, -, hMem, hLength⟩, rfl⟩
  exact ⟨hMem, rfl, hLength hk⟩

theorem expectAny {kinds : List Kind} (hKinds : .eof ∉ kinds) :
    Mirrors source s (fun t s' => t.kind ∈ kinds ∧ s'.rest.length < s.rest.length)
      (Reading.expectAny kinds) (Parser.expectAny kinds) := by
  refine peek fun hMem => ?_
  by_cases hKind : s.head.kind ∈ kinds
  · rw [if_pos hKind, if_pos hKind]
    refine advance.mono ?_
    rintro t s' ⟨rfl, rfl, -, hLength⟩
    exact ⟨hKind, hLength fun hEof => hKinds (hEof ▸ hKind)⟩
  · rw [if_neg hKind, if_neg hKind]
    exact fail _ (by simp)

/-- Spans inside the source can be joined. -/
theorem join (hSource : Text.byteLength source.toList < 0x100000000) {a b : Span}
    {f : Span → Reading α} (ha : a.hi ≤ Text.byteLength source.toList)
    (hb : b.hi ≤ Text.byteLength source.toList) (h : Mirrors source s P (f (a.join b)) q) :
    Mirrors source s P (Reading.join a b >>= f) q := by
  have hJoin : a.join? b = some (a.join b) := by
    have hHi := Span.hi_join a b
    rw [Span.join?_eq_some_iff]
    refine ⟨rfl, ?_, ?_⟩
    · rw [Span.hi] at hHi
      omega
    · omega
  exact gives_bind (fun r _ => .demand hJoin r) h

/-- The text of a token can be cut out of the source. -/
theorem extract {k : Kind} {t : Token} {f : List Char → Reading α} (ht : t ∈ Token.scan source)
    (hk : t.kind = k) (h : Mirrors source s P (f t.text) q) :
    Mirrors source s P (Reading.extract k t >>= f) q :=
  gives_bind (fun _ hr => Reading.extract_gives hr ht hk) h

theorem identOf {t : Token} {f : Ident → Reading α} (ht : t ∈ Token.scan source)
    (hk : t.kind = .identifier) (h : Mirrors source s P (f (Parser.identOf t)) q) :
    Mirrors source s P (Reading.identOf t >>= f) q :=
  gives_bind (fun _ hr => Reading.identOf_gives hr ht hk) h

theorem intOf? {t : Token} {f : Option Int32 → Reading α} (ht : t ∈ Token.scan source)
    (hk : t.kind = .number) (h : Mirrors source s P (f (Token.intValue? t.text)) q) :
    Mirrors source s P (Reading.intOf? t >>= f) q :=
  gives_bind (fun _ hr => (Reading.extract_gives hr ht hk).bind (.pure _ _)) h

end Mirrors

namespace Token

/-- A string literal has a quote at each end. -/
theorem exists_text_of_string {source : String} {t : Token} (h : t ∈ scan source)
    (hKind : t.kind = .string ∨ t.kind = .escapedString) :
    ∃ inner, t.text = '"' :: (inner ++ ['"']) := by
  have hString : isStringKind t.kind = true ∧ t.kind.isLexical = true ∧
      t.kind ≠ .flaw .unclosedString := by
    rcases hKind with hKind | hKind <;> rw [hKind] <;> exact ⟨rfl, rfl, by simp⟩
  obtain ⟨c, cs, hFirst, hText⟩ := exists_first_of_mem_place h hString.2.1
  rw [hFirst] at hString
  obtain ⟨body, hBody, ⟨inner, rfl⟩ | ⟨hUnclosed, -⟩⟩ := Lexeme.first_of_isStringKind hString.1
  · exact ⟨inner, hText.trans hBody⟩
  · exact absurd hUnclosed hString.2.2

/-- The quotes of a string literal can be taken off its span. -/
theorem exists_offset?_of_string {source : String}
    (hSource : Text.byteLength source.toList < 0x100000000) {t : Token} (h : t ∈ scan source)
    (hKind : t.kind = .string ∨ t.kind = .escapedString) :
    ∃ span, t.span.offset? 1 (-1) = some span ∧
      span.slice? source = some (String.ofList (interior t.text)) := by
  obtain ⟨inner, hText⟩ := exists_text_of_string h hKind
  obtain ⟨front, back, hSplit, hSpan⟩ := standsIn_of_mem_place h
  rw [Lexeme.flatMap_text_ofText, hText] at hSplit
  have hLo : t.span.lo = Text.byteLength front := by
    rw [hSpan, Pos.spanOf, Pos.offset_after, Pos.start, Nat.zero_add]
  have hQuote : Text.byteLength ['"'] = 1 := rfl
  have hLen : t.span.len = 1 + (Text.byteLength inner + 1) := by
    rw [hSpan, Pos.spanOf, hText, Text.byteLength_cons, Text.byteLength_append, hQuote]
    rfl
  have hLength := hi_le_of_mem_scan h
  rw [Span.hi, hLo, hLen] at hLength
  refine ⟨⟨Text.byteLength front + 1, Text.byteLength inner, t.span.line⟩, ?_, ?_⟩
  · have hBounded : t.span.bounded? = some t.span :=
      (Span.bounded?_eq_some_iff _ _).mpr ⟨rfl, by rw [Span.hi, hLo, hLen]; omega⟩
    have hLo' : ((t.span.lo : Int) + 1).toNat = Text.byteLength front + 1 := by omega
    have hHi' :
        ((t.span.hi : Int) + (-1)).toNat = Text.byteLength front + 1 + Text.byteLength inner := by
      rw [Span.hi, hLo, hLen]
      omega
    rw [Span.offset?, hBounded]
    change (if _ then _ else _) = _
    rw [if_pos (by rw [Span.hi, hLo, hLen]; omega), hLo', hHi', Span.ofBounds?_eq_some_iff]
    refine ⟨rfl, rfl, rfl, ?_, ?_⟩
    · change Text.byteLength inner < _
      omega
    · change Text.byteLength front + 1 + Text.byteLength inner < _
      omega
  · have hInner : interior t.text = inner := by
      rw [hText, interior, List.drop_one, List.tail_cons, List.dropLast_concat]
    have hAround : source.toList = (front ++ ['"']) ++ (inner ++ (['"'] ++ back)) := by
      rw [hSplit]
      simp only [List.append_assoc, List.cons_append, List.nil_append]
    rw [hInner]
    apply Span.slice?_of_split hAround
    · rw [Text.byteLength_append, hQuote]
    · rfl

end Token

namespace Mirrors

variable {α : Type} {source : String} {s : Stream} {P : α → Stream → Prop} {q : Parser α}

theorem extractString (hSource : Text.byteLength source.toList < 0x100000000) {k : Kind} {t : Token}
    {f : List Char → Reading α} (ht : t ∈ Token.scan source) (hk : t.kind = k)
    (hString : k = .string ∨ k = .escapedString)
    (h : Mirrors source s P (f (Token.interior t.text)) q) :
    Mirrors source s P (Reading.extractString k t >>= f) q := by
  obtain ⟨span, hSpan, hSlice⟩ := Token.exists_offset?_of_string hSource ht (hk ▸ hString)
  refine gives_bind (fun r hr => ?_) h
  refine (Gives.ensure hk r).bind ((Gives.demand hSpan r).bind ((Gives.get r).bind ?_))
  rw [hr.source_eq, hSlice]
  refine (Gives.demand rfl r).bind ?_
  rw [String.toList_ofList]
  exact .pure _ _

end Mirrors

/-- At least `k` tokens are read, and the result satisfies `Q`. -/
def Later {α : Type} (s : Stream) (k : Nat) (Q : α → Prop) (a : α) (s' : Stream) : Prop :=
  Q a ∧ s'.rest.length + k ≤ s.rest.length

/-- The action mirrors the parser wherever fewer than `n` tokens are left. -/
def Handles {α : Type} (source : String) (n k : Nat) (Q : α → Prop) (p : Reading α) (q : Parser α) :
    Prop :=
  ∀ s : Stream, s.rest.length < n → Mirrors source s (Later s k Q) p q

namespace Handles

variable {α : Type} {source : String} {Q : α → Prop}

/-- The bounds of the two loops need not be the same. -/
theorem budgeted {N k : Nat} {p : Nat → Reading α} {q : Nat → Parser α}
    (h : ∀ n m, n ≤ m → n ≤ N → Handles source n k Q (p m) (q n)) :
    Handles source N k Q (Reading.budgeted p) (Parser.budgeted q) := by
  intro s hs r hr
  have hLength := Token.length_significantFrom_le source r.cursor
  rw [← hr.rest_eq, ← hr.tokens_eq] at hLength
  exact h (s.rest.length + 1) (r.tokens.length - r.cursor + 1) (Nat.succ_le_succ hLength) hs s
    (Nat.lt_succ_self _) r hr

/-- A loop mirrors another one if every round does, given that the later rounds do. -/
theorem loop {N k : Nat} {p : Nat → Reading α} {q : Nat → Parser α}
    (hRound : ∀ n m, n < N → Handles source n k Q (p m) (q n) →
      Handles source (n + 1) k Q (p (m + 1)) (q (n + 1))) :
    Handles source N k Q (Reading.budgeted p) (Parser.budgeted q) := by
  refine budgeted fun n m hnm hn => ?_
  induction n generalizing m with
  | zero =>
    -- there are no streams with fewer than no tokens
    intro s hs
    omega
  | succ n ih =>
    obtain ⟨m, rfl⟩ := Nat.exists_eq_add_one_of_ne_zero (Nat.ne_zero_of_lt hnm)
    exact hRound n m hn (ih m (Nat.le_of_succ_le_succ hnm) (Nat.le_of_succ_le hn))

end Handles

end MiniC
