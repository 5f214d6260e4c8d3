import MiniC.Span.Basic

/-! # Cutting a span out of the source

Byte offsets are compared with the sizes of the UTF-8 encodings of the characters.  An offset inside
a character or beyond the end of the text cuts nothing out.
-/
namespace MiniC
set_option autoImplicit false

namespace Text

def byteLength : List Char → Nat
  | [] => 0
  | c :: text => c.utf8Size + byteLength text

@[simp] theorem byteLength_nil : byteLength [] = 0 := rfl

@[simp] theorem byteLength_cons (c : Char) (text : List Char) :
    byteLength (c :: text) = c.utf8Size + byteLength text := rfl

@[simp] theorem byteLength_append (a b : List Char) :
    byteLength (a ++ b) = byteLength a + byteLength b := by
  induction a with
  | nil => simp
  | cons c a ih => simp [ih, Nat.add_assoc]

/-- Splits a text after `n` bytes, if that is between two characters or at an end. -/
def splitBytes? : Nat → List Char → Option (List Char × List Char)
  | 0, text => some ([], text)
  | _ + 1, [] => none
  | n + 1, c :: text =>
    if c.utf8Size ≤ n + 1 then
      (splitBytes? (n + 1 - c.utf8Size) text).map fun parts => (c :: parts.1, parts.2)
    else none

theorem splitBytes?_eq_some_iff (n : Nat) (text front back : List Char) :
    splitBytes? n text = some (front, back) ↔ text = front ++ back ∧ byteLength front = n := by
  induction text generalizing n front back with
  | nil => cases n <;> cases front <;> simp [splitBytes?]
  | cons c text ih =>
    have hc := c.utf8Size_pos
    cases n with
    | zero =>
      cases front with
      | nil => simp [splitBytes?, eq_comm]
      | cons d front =>
        have hd := d.utf8Size_pos
        simp [splitBytes?]
        omega
    | succ n =>
      rw [splitBytes?]
      cases front with
      | nil => split <;> simp
      | cons d front =>
        split
        · simp only [Option.map_eq_some_iff, Prod.exists, Prod.mk.injEq, List.cons.injEq, ih,
            List.cons_append, byteLength_cons]
          constructor
          · rintro ⟨_, _, ⟨rfl, h⟩, ⟨rfl, rfl⟩, rfl⟩
            exact ⟨⟨rfl, rfl⟩, by omega⟩
          · rintro ⟨⟨rfl, rfl⟩, h⟩
            exact ⟨_, _, ⟨rfl, by omega⟩, ⟨rfl, rfl⟩, rfl⟩
        · simp only [List.cons_append, List.cons.injEq, byteLength_cons, reduceCtorEq, false_iff]
          rintro ⟨⟨rfl, _⟩, _⟩
          omega

end Text

namespace Span

def slice? (s : Span) (source : String) : Option String := do
  let (_, rest) ← Text.splitBytes? s.lo source.toList
  let (text, _) ← Text.splitBytes? s.len rest
  return String.ofList text

theorem slice?_of_split {s : Span} {source : String} {front text back : List Char}
    (hSource : source.toList = front ++ (text ++ back)) (hLo : s.lo = Text.byteLength front)
    (hLen : s.len = Text.byteLength text) : s.slice? source = some (String.ofList text) := by
  have hFront := (Text.splitBytes?_eq_some_iff s.lo source.toList front (text ++ back)).mpr
    ⟨hSource, hLo.symm⟩
  have hText := (Text.splitBytes?_eq_some_iff s.len (text ++ back) text back).mpr ⟨rfl, hLen.symm⟩
  rw [slice?, hFront]
  change (Text.splitBytes? s.len (text ++ back)).bind _ = _
  rw [hText]
  rfl

def atEnd (source : String) (line : Nat) : Span := ⟨Text.byteLength source.toList, 0, line⟩

end Span

end MiniC
