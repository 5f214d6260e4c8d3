import MiniC.Proofs.Frames

/-! # Where a program's data lies

Only string literals, arrays and globals are given memory.  The layout of a program is found by
visiting them in the order in which the code that uses them is made; no code is made here.  The
condition of a loop is visited before and after the body, but a literal that has its place keeps it.
-/
namespace MiniC
set_option autoImplicit false

namespace Expr

mutual

/-- Places the string literals of an expression. -/
def place : Expr Ty → Alloc Unit
  | string _ s text => discard (Memory.placeString text s)
  | call _ _ _ args => placeAll args
  | binary _ _ _ lhs rhs => do
    lhs.place
    rhs.place
  | unary _ _ _ _ operand => operand.place
  | index _ _ base offset => do
    base.place
    offset.place
  | const .. | var .. => return ()

def placeAll : List (Expr Ty) → Alloc Unit
  | [] => return ()
  | e :: es => do
    e.place
    placeAll es

end

def placeOption : Option (Expr Ty) → Alloc Unit
  | none => return ()
  | some e => e.place

end Expr

namespace Stmt

mutual

/-- Places the string literals and the arrays of a statement; the result is where the arrays are. -/
def place : Stmt Ty → Alloc (List (String × Nat))
  | ret _ value => do
    Expr.placeOption value
    return []
  | assign _ _ value => do
    value.place
    return []
  | declare s x ty init => do
    if ty.isArray then return [(x.name, ← Memory.reserveArray ty s)]
    Expr.placeOption init
    return []
  | store _ base offset value => do
    base.place
    offset.place
    value.place
    return []
  | branch _ cond thenBody elseBody => do
    cond.place
    return (← placeAll thenBody) ++ (← placeAll elseBody)
  | loop _ .whileDo cond body => do
    cond.place
    let arrays ← placeAll body
    cond.place
    return arrays
  | loop _ .doWhile cond body => do
    let arrays ← placeAll body
    cond.place
    return arrays
  | forLoop _ init cond update body => do
    let a ← placeOption init
    Expr.placeOption cond
    let b ← placeAll body
    let c ← placeOption update
    Expr.placeOption cond
    return a ++ b ++ c
  | jump .. => return []
  | expr _ value => do
    value.place
    return []

def placeAll : List (Stmt Ty) → Alloc (List (String × Nat))
  | [] => return []
  | x :: xs => return (← x.place) ++ (← placeAll xs)

def placeOption : Option (Stmt Ty) → Alloc (List (String × Nat))
  | none => return []
  | some x => x.place

end

end Stmt

structure Layout where
  /-- The cells of the globals. -/
  cells : Globals
  /-- The string literals, found by their offsets in the source. -/
  texts : List (Nat × Nat)
  /-- The arrays of each function. -/
  arrays : List (String × List (String × Nat))

def Item.placeAll : List (Item Ty) → Alloc (Globals × List (String × List (String × Nat)))
  | [] => return ([], [])
  | .global g :: items => do
    let cell ← g.place
    let (cells, arrays) ← placeAll items
    return ((g.name.name, cell, g.ty) :: cells, arrays)
  | .function f :: items => do
    let a ← Stmt.placeAll f.body
    let (cells, arrays) ← placeAll items
    return (cells, (f.name.name, a) :: arrays)

/-- The layout of a program whose data fits into memory. -/
def Program.layout (p : Program Ty) : Layout :=
  match Item.placeAll p.items .empty with
  | .ok (cells, arrays) m => ⟨cells, m.strings, arrays⟩
  | .error _ _ => ⟨[], [], []⟩

namespace Memory

theorem get_bind {α : Type} (f : Memory → Alloc α) (m : Memory) : (get >>= f) m = f m m := rfl

/-- After a literal has been placed its address is known, and no other address has changed. -/
theorem placeString_texts {text : String} {s : Span} {m m' : Memory} {a : Nat}
    (h : placeString text s m = .ok a m') :
    List.lookup s.lo m'.strings = some a ∧
      ∀ lo b, List.lookup lo m.strings = some b → List.lookup lo m'.strings = some b := by
  rw [placeString, get_bind] at h
  cases hFound : List.lookup s.lo m.strings with
  | some b =>
    rw [hFound] at h
    cases h
    exact ⟨hFound, fun _ _ h => h⟩
  | none =>
    rw [hFound] at h
    obtain ⟨_, m₁, hAlloc, h⟩ := Action.bind_eq_ok_iff.mp h
    obtain ⟨-, rfl, rfl⟩ := (alloc_eq_ok_iff _ _ _ _ _).mp hAlloc
    cases h
    refine ⟨List.lookup_cons_self, ?_⟩
    intro lo b hb
    have hne : lo ≠ s.lo := by
      rintro rfl
      rw [hFound] at hb
      cases hb
    change List.lookup lo (_ :: m.strings) = some b
    rw [List.lookup_cons, beq_eq_false_iff_ne.mpr hne]
    exact hb

theorem reserveArray_strings {ty : Ty} {s : Span} {m m' : Memory} {a : Nat}
    (h : reserveArray ty s m = .ok a m') : m'.strings = m.strings := by
  rw [reserveArray] at h
  split at h
  · cases h
  · obtain ⟨-, -, rfl⟩ := (alloc_eq_ok_iff _ _ _ _ _).mp h
    rfl

end Memory

namespace Emit

theorem inMemory_eq_ok_iff {α : Type} {x : Alloc α} {s s' : Frame} {a : α} :
    inMemory x s = .ok a s' ↔ ∃ m, x s.memory = .ok a m ∧ s' = { s with memory := m } := by
  rw [inMemory]
  cases x s.memory with
  | ok b m =>
    simp only [EStateM.Result.ok.injEq]
    constructor
    · rintro ⟨rfl, rfl⟩
      exact ⟨m, ⟨rfl, rfl⟩, rfl⟩
    · rintro ⟨_, ⟨rfl, rfl⟩, rfl⟩
      exact ⟨rfl, rfl⟩
  | error e m => simp

/-- Work on memory that keeps the known literals where they are declares nothing. -/
theorem inMemory_declares {s : Frame} {m : Memory}
    (h : ∀ lo b, List.lookup lo s.memory.strings = some b → List.lookup lo m.strings = some b) :
    s.Declares [] { s with memory := m } where
  slots := List.prefix_refl s.slots
  texts := h
  names := ⟨[], .refl [], rfl, .nil, by simp⟩

end Emit

end MiniC
