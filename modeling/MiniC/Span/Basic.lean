import MiniC.Text.Numeral

/-! # Spans of source text

A span is a range of bytes of the UTF-8 source, together with the line on which it starts; lines
count from one.  `join` is total.  The operations whose names end in a question mark refuse a range
that ends before it starts, starts before the source does, is too long for 32 bits, or ends at an
offset too large for 64 bits.
-/
namespace MiniC
set_option autoImplicit false

structure Span where
  lo : Nat
  len : Nat
  line : Nat
  deriving DecidableEq, Repr

namespace Span

def hi (s : Span) : Nat := s.lo + s.len

def bounded? (s : Span) : Option Span := if s.hi < 0x10000000000000000 then some s else none

theorem bounded?_eq_some_iff (s t : Span) :
    s.bounded? = some t ↔ s = t ∧ s.hi < 0x10000000000000000 := by
  rw [bounded?]
  split <;> simp [*]

def start : Span := ⟨0, 0, 1⟩

/-- The least span that covers both; it starts on the line of the first argument. -/
def join (a b : Span) : Span :=
  ⟨min a.lo b.lo, max a.hi b.hi - min a.lo b.lo, a.line⟩

@[simp] theorem lo_join (a b : Span) : (a.join b).lo = min a.lo b.lo := rfl

@[simp] theorem hi_join (a b : Span) : (a.join b).hi = max a.hi b.hi := by
  simp only [hi, join]
  omega

def ofBounds? (lo hi line : Nat) : Option Span :=
  if lo ≤ hi ∧ hi - lo < 0x100000000 then bounded? ⟨lo, hi - lo, line⟩ else none

theorem ofBounds?_eq_some_iff (lo hi line : Nat) (s : Span) :
    ofBounds? lo hi line = some s ↔
      s.lo = lo ∧ s.hi = hi ∧ s.line = line ∧ s.len < 0x100000000 ∧
        s.hi < 0x10000000000000000 := by
  cases s
  simp only [ofBounds?, Option.ite_none_right_eq_some, bounded?_eq_some_iff, mk.injEq, Span.hi]
  omega

def join? (a b : Span) : Option Span :=
  ofBounds? (min a.lo b.lo) (max a.hi b.hi) a.line

theorem join?_eq_some_iff (a b s : Span) :
    a.join? b = some s ↔
      s = a.join b ∧ s.len < 0x100000000 ∧ s.hi < 0x10000000000000000 := by
  rw [join?, ofBounds?_eq_some_iff]
  cases s
  simp only [Span.hi, join, mk.injEq]
  omega

def offset? (s : Span) (dlo dhi : Int) : Option Span := do
  let s ← s.bounded?
  let lo := (s.lo : Int) + dlo
  let hi := (s.hi : Int) + dhi
  if 0 ≤ lo ∧ 0 ≤ hi then ofBounds? lo.toNat hi.toNat s.line else none

def rangeText (s : Span) : String := Text.ofNat s.lo ++ ".." ++ Text.ofNat s.hi

def text (s : Span) : String := "Span(" ++ s.rangeText ++ ", line: " ++ Text.ofNat s.line ++ ")"

end Span

structure Located (α : Type) where
  span : Span
  value : α
  deriving DecidableEq, Repr

namespace Located

variable {α β : Type}

def map (f : α → β) (x : Located α) : Located β := ⟨x.span, f x.value⟩

/-- A message about a place names only the line. -/
def message (render : α → String) (x : Located α) : String :=
  "line " ++ Text.ofNat x.span.line ++ ": " ++ render x.value

def text (render : α → String) (x : Located α) : String :=
  "Spanned \x7b span: " ++ x.span.text ++ ", inner: " ++ render x.value ++ " \x7d"

end Located

end MiniC
