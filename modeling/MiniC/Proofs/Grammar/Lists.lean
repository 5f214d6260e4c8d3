import MiniC.Proofs.Grammar.Rounds

/-! # How lists are read

A list of items with separators between them is read up to a closing token, which is left.  It stops
behind its last item, or behind one more separator.  These are all the ways in which a list can be
read, whatever its items are, and the bound on the rounds excludes none of them.
-/
namespace MiniC
set_option autoImplicit false

/-- Whether a list that the kind `close` ends is over where the stream is. -/
def Stream.AtEnd (close : Kind) (s : Stream) : Prop := s.head.kind = .eof ∨ s.head.kind = close

namespace Parser

section

variable {α : Type} (item : Parser α) (close sep : Kind)

/-- `item (separator item)*`: from the first stream to the second the given items are read and,
between them, the given separators.  No item is looked for where the list is over. -/
inductive Alternates : Stream → List α → List Token → Stream → Prop where
  | last {s s' : Stream} {a : α} (hStart : ¬ s.AtEnd close) (hItem : item s = .ok (a, s')) :
      Alternates s [a] [] s'
  | more {s s₁ s' : Stream} {a : α} {as : List α} {seps : List Token} (hStart : ¬ s.AtEnd close)
      (hItem : item s = .ok (a, s₁)) (hSep : s₁.head.kind = sep)
      (hRest : Alternates s₁.tail as seps s') : Alternates s (a :: as) (s₁.head :: seps) s'

/-- From the first stream to the second a list of the given items is read. -/
inductive ReadsList : Stream → List α → Stream → Prop where
  /-- Nothing is read of an empty list. -/
  | empty {s : Stream} (hEnd : s.AtEnd close) : ReadsList s [] s
  /-- The list stops behind its last item, in front of the closing token. -/
  | strict {s s' : Stream} {as : List α} {seps : List Token}
      (h : Alternates item close sep s as seps s') (hClose : s'.head.kind = close)
      (hNe : close ≠ sep) : ReadsList s as s'
  /-- The list stops behind one more separator. -/
  | trailing {s s' : Stream} {as : List α} {seps : List Token}
      (h : Alternates item close sep s as seps s') (hSep : s'.head.kind = sep)
      (hEnd : s'.tail.AtEnd close) : ReadsList s as s'.tail

end

variable {α : Type} {item : Parser α} {close sep : Kind} {s s' : Stream} {as : List α}
  {seps : List Token}

/-- There is one item more than there are separators. -/
theorem Alternates.length_eq (h : Alternates item close sep s as seps s') :
    as.length = seps.length + 1 := by
  induction h with
  | last => rfl
  | more _ _ _ _ ih => rw [List.length_cons, List.length_cons, ih]

theorem Alternates.ne_nil (h : Alternates item close sep s as seps s') : as ≠ [] :=
  List.ne_nil_of_length_eq_add_one h.length_eq

/-- The state in front of the items and their number determine the rest. -/
theorem Alternates.unique {seps' : List Token} {s₁ s₂ : Stream}
    (h : Alternates item close sep s as seps s₁) (h' : Alternates item close sep s as seps' s₂) :
    seps = seps' ∧ s₁ = s₂ := by
  induction h generalizing seps' with
  | last hStart hItem =>
    cases h' with
    | last _ hItem' =>
      rw [hItem] at hItem'
      cases hItem'
      exact ⟨rfl, rfl⟩
    | more _ _ _ hRest => exact absurd rfl hRest.ne_nil
  | more hStart hItem hSep hRest ih =>
    cases h' with
    | last => exact absurd rfl hRest.ne_nil
    | more _ hItem' _ hRest' =>
      rw [hItem] at hItem'
      cases hItem'
      obtain ⟨rfl, rfl⟩ := ih hRest'
      exact ⟨rfl, rfl⟩

theorem ReadsList.atEnd (h : ReadsList item close sep s as s') : s'.AtEnd close := by
  cases h with
  | empty hEnd => exact hEnd
  | strict _ hClose _ => exact .inr hClose
  | trailing _ _ hEnd => exact hEnd

theorem ReadsList.eq_of_nil (h : ReadsList item close sep s [] s') : s' = s := by
  cases h with
  | empty => rfl
  | strict h => exact absurd rfl h.ne_nil
  | trailing h => exact absurd rfl h.ne_nil

/-- An item and a separator in front of a list that is not empty. -/
theorem ReadsList.cons {s₁ : Stream} {a : α} (hStart : ¬ s.AtEnd close)
    (hItem : item s = .ok (a, s₁)) (hSep : s₁.head.kind = sep)
    (h : ReadsList item close sep s₁.tail as s') : ReadsList item close sep s (a :: as) s' := by
  cases h with
  | empty hEnd => exact .trailing (.last hStart hItem) hSep hEnd
  | strict h hClose hNe => exact .strict (.more hStart hItem hSep h) hClose hNe
  | trailing h hSep' hEnd => exact .trailing (.more hStart hItem hSep h) hSep' hEnd

theorem sepList_of_atEnd (n : Nat) (h : s.AtEnd close) :
    sepList close sep item (n + 1) s = .ok ([], s) := by
  rw [sepList, peekKind_bind, ite_run]
  exact if_pos h

/-- What one round reads of a list that is not over. -/
theorem sepList_of_not_atEnd_iff {n : Nat} (h : ¬ s.AtEnd close) :
    sepList close sep item (n + 1) s = .ok (as, s') ↔
      ∃ a s₁, item s = .ok (a, s₁) ∧
        if s₁.head.kind = sep then
          ∃ rest, sepList close sep item n s₁.tail = .ok (rest, s') ∧ as = a :: rest
        else s₁.head.kind = close ∧ as = [a] ∧ s' = s₁ := by
  rw [sepList_of_item close sep item n h, bind_eq_ok_iff]
  refine exists_congr fun a => exists_congr fun s₁ => and_congr_right fun _ => ?_
  rw [take_ite]
  split
  · rw [bind_eq_ok_iff]
    constructor
    · rintro ⟨rest, s₂, hRest, h⟩
      cases h
      exact ⟨rest, hRest, rfl⟩
    · rintro ⟨rest, hRest, rfl⟩
      exact ⟨rest, s', hRest, rfl⟩
  · rw [peek_bind, ite_run]
    constructor
    · intro h
      split at h
      · next hClose =>
        cases h
        exact ⟨hClose, rfl, rfl⟩
      · cases h
    · rintro ⟨hClose, rfl, rfl⟩
      exact if_pos hClose

theorem readsList_of_sepList {n : Nat} (h : sepList close sep item n s = .ok (as, s')) :
    ReadsList item close sep s as s' := by
  induction n generalizing s as with
  | zero => cases h
  | succ n ih =>
    by_cases hStart : s.AtEnd close
    · rw [sepList_of_atEnd n hStart] at h
      cases h
      exact .empty hStart
    · obtain ⟨a, s₁, hItem, h⟩ := (sepList_of_not_atEnd_iff hStart).mp h
      split at h
      · next hSep =>
        obtain ⟨rest, hRest, rfl⟩ := h
        exact .cons hStart hItem hSep (ih hRest)
      · next hSep =>
        obtain ⟨hClose, rfl, rfl⟩ := h
        exact .strict (.last hStart hItem) hClose fun hEq => hSep (hClose.trans hEq)

/-- Behind the items the list is read on, with as many rounds as are left. -/
theorem sepList_of_alternates {s₁ : Stream} (h : Alternates item close sep s as seps s₁) {m : Nat}
    (hStop : (s₁.head.kind = close ∧ close ≠ sep ∧ s' = s₁) ∨
      (s₁.head.kind = sep ∧ s₁.tail.AtEnd close ∧ s' = s₁.tail)) :
    sepList close sep item (as.length + (m + 1)) s = .ok (as, s') := by
  induction h with
  | last hStart hItem =>
    rw [List.length_singleton, Nat.add_comm 1]
    refine (sepList_of_not_atEnd_iff hStart).mpr ⟨_, _, hItem, ?_⟩
    rcases hStop with ⟨hClose, hNe, rfl⟩ | ⟨hSep, hEnd, rfl⟩
    · rw [if_neg (hClose ▸ hNe)]
      exact ⟨hClose, rfl, rfl⟩
    · rw [if_pos hSep]
      exact ⟨[], sepList_of_atEnd m hEnd, rfl⟩
  | more hStart hItem hSep _ ih =>
    rw [List.length_cons, Nat.add_right_comm]
    refine (sepList_of_not_atEnd_iff hStart).mpr ⟨_, _, hItem, ?_⟩
    rw [if_pos hSep]
    exact ⟨_, ih hStop, rfl⟩

theorem sepList_of_readsList (h : ReadsList item close sep s as s') {n : Nat}
    (hn : as.length < n) : sepList close sep item n s = .ok (as, s') := by
  obtain ⟨m, rfl⟩ : ∃ m, n = as.length + (m + 1) := ⟨n - as.length - 1, by omega⟩
  cases h with
  | empty hEnd => exact sepList_of_atEnd _ hEnd
  | strict h hClose hNe => exact sepList_of_alternates h (.inl ⟨hClose, hNe, rfl⟩)
  | trailing h hSep hEnd => exact sepList_of_alternates h (.inr ⟨hSep, hEnd, rfl⟩)

/-- A list is read, in however many rounds, in one of the three ways. -/
theorem exists_sepList_iff :
    (∃ n, sepList close sep item n s = .ok (as, s')) ↔ ReadsList item close sep s as s' :=
  ⟨fun ⟨_, h⟩ => readsList_of_sepList h, fun h => ⟨_, sepList_of_readsList h (Nat.lt_succ_self _)⟩⟩

section

variable (hs : s.Proper) (hItem : Shortens item)

include hs hItem

theorem Alternates.proper (h : Alternates item close sep s as seps s') : s'.Proper := by
  induction h with
  | last _ hRun => exact (hItem hs hRun).1
  | more _ hRun _ _ ih => exact ih (hItem hs hRun).1.tail

variable (hSep : sep ≠ .eof)

include hSep

/-- Every item starts at a token, and every separator is one. -/
theorem Alternates.length_le (h : Alternates item close sep s as seps s') :
    as.length ≤ s.rest.length := by
  induction h with
  | @last s s' a hStart _ =>
    exact Nat.lt_of_le_of_lt (Nat.zero_le _) (hs.length_tail_lt fun hEof => hStart (.inl hEof))
  | more hStart hRun hMark _ ih =>
    obtain ⟨hs₁, hLe⟩ := hItem hs hRun
    have hLess := hs₁.length_tail_lt (hMark ▸ hSep)
    have hRest := ih hs₁.tail
    rw [List.length_cons]
    omega

theorem ReadsList.length_le (h : ReadsList item close sep s as s') :
    as.length ≤ s.rest.length := by
  cases h with
  | empty => exact Nat.zero_le _
  | strict h => exact h.length_le hs hItem hSep
  | trailing h => exact h.length_le hs hItem hSep

/-- The tokens that are left bound the rounds of a list. -/
theorem budgeted_sepList_iff :
    budgeted (sepList close sep item) s = .ok (as, s') ↔ ReadsList item close sep s as s' :=
  ⟨readsList_of_sepList,
    fun h => sepList_of_readsList h (Nat.lt_succ_of_le (h.length_le hs hItem hSep))⟩

/-- A list that is not empty has the form `item (separator item)*` exactly if no separator stands
behind its last item. -/
theorem ReadsList.exists_alternates_iff (h : ReadsList item close sep s as s') (hNe : as ≠ []) :
    (∃ seps, Alternates item close sep s as seps s') ↔
      ∀ seps s₁, Alternates item close sep s as seps s₁ → s₁.head.kind ≠ sep := by
  cases h with
  | empty => exact absurd rfl hNe
  | strict h hClose hClose' =>
    refine iff_of_true ⟨_, h⟩ fun seps s₁ h₁ => ?_
    rw [← (h.unique h₁).2, hClose]
    exact hClose'
  | trailing h hMark _ =>
    refine iff_of_false ?_ fun hNone => hNone _ _ h hMark
    rintro ⟨seps', h'⟩
    -- the separator has been read, so fewer tokens are left
    have hLess := (h.proper hs hItem).length_tail_lt (hMark ▸ hSep)
    rw [← (h.unique h').2] at hLess
    exact Nat.lt_irrefl _ hLess

end

/-- What reading lists comes to, with `sep` between the items, up to `close`. -/
structure ListReading {α : Type} (item : Parser α) (close sep : Kind) : Prop where
  /-- There are three ways to read a list, in however many rounds. -/
  rounds {s s' : Stream} {as : List α} :
    (∃ n, sepList close sep item n s = .ok (as, s')) ↔ ReadsList item close sep s as s'
  /-- The tokens that are left bound the rounds. -/
  bounded {s s' : Stream} {as : List α} : s.Proper → Shortens item → sep ≠ .eof →
    (budgeted (sepList close sep item) s = .ok (as, s') ↔ ReadsList item close sep s as s')
  atEnd {s s' : Stream} {as : List α} : ReadsList item close sep s as s' → s'.AtEnd close
  empty {s s' : Stream} : ReadsList item close sep s [] s' → s' = s
  count {s s' : Stream} {as : List α} {seps : List Token} :
    Alternates item close sep s as seps s' → as.length = seps.length + 1
  /-- Only a separator behind the last item makes another list than `item (separator item)*`. -/
  strict_iff {s s' : Stream} {as : List α} : s.Proper → Shortens item → sep ≠ .eof →
    ReadsList item close sep s as s' → as ≠ [] →
    ((∃ seps, Alternates item close sep s as seps s') ↔
      ∀ seps s₁, Alternates item close sep s as seps s₁ → s₁.head.kind ≠ sep)

theorem listReading {α : Type} (item : Parser α) (close sep : Kind) :
    ListReading item close sep where
  rounds := exists_sepList_iff
  bounded hs hItem hSep := budgeted_sepList_iff hs hItem hSep
  atEnd h := h.atEnd
  empty h := h.eq_of_nil
  count h := h.length_eq
  strict_iff hs hItem hSep h hNe := h.exists_alternates_iff hs hItem hSep hNe

end Parser

end MiniC
