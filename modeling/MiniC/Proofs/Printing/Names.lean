import MiniC.Proofs.Printing.Legible
import MiniC.Proofs.Printing.Words
import MiniC.Tree.Render

/-! # The pieces of a line

Names, types, constants and notes, as they follow one another in the line of a node: each has only
some characters, and so ends where the next one starts.
-/
namespace MiniC
set_option autoImplicit false

theorem IsWord.not_mem {name : String} (h : IsWord name) {c : Char}
    (hc : Lexeme.isWordChar c = false) : c ∉ name.toList :=
  Text.not_mem_of_forall h.2 hc

namespace Ty

/-- Whether a character may stand in the name of a type. -/
def isNameChar (c : Char) : Bool := c.isAlphanum || c ∈ ['*', '[', ']']

theorem isNameChar_of_mem {t : Ty} {c : Char} (h : c ∈ t.nameChars) : isNameChar c = true := by
  induction t with
  | pointer t ih =>
    rcases List.mem_cons.mp h with rfl | h
    · rfl
    · exact ih h
  | array t n ih =>
    simp only [nameChars, List.mem_append, List.mem_cons, List.not_mem_nil, or_false] at h
    rcases h with (h | rfl | h) | rfl
    · exact ih h
    · rfl
    · simp [isNameChar, Char.isAlphanum, Text.isDigit_of_mem_natDigits h]
    · rfl
  | _ =>
    have hAll (word : List Char) (hWord : word.all isNameChar = true) (hMem : c ∈ word) :
        isNameChar c = true := List.all_eq_true.mp hWord c hMem
    exact hAll _ (by decide) h

theorem not_mem_name {c : Char} (hc : isNameChar c = false) (t : Ty) : c ∉ t.name.toList := by
  rw [name, String.toList_ofList]
  exact Text.not_mem_of_forall (fun _ => isNameChar_of_mem) hc

theorem bracket_not_mem_of_isFlat {t : Ty} (h : t.isFlat = true) : '[' ∉ t.nameChars := by
  induction t with
  | pointer t ih => exact List.not_mem_cons_of_ne_of_not_mem (by decide) (ih h)
  | array t n => cases h
  | _ => decide

theorem nameChars_inj_of_isFlat {t u : Ty} (ht : t.isFlat = true) (hu : u.isFlat = true)
    (h : t.nameChars = u.nameChars) : t = u := by
  induction t generalizing u with
  | pointer t ih =>
    cases u with
    | pointer u =>
      have hElement : t = u := ih ht hu (List.cons.inj h).2
      rw [hElement]
    | array u n => cases hu
    | _ => simp [nameChars] at h
  | array t n => cases ht
  | _ => cases u <;> first | rfl | contradiction | simp [nameChars] at h

theorem nameChars_inj {t u : Ty} (ht : t.isDeclarable = true) (hu : u.isDeclarable = true)
    (h : t.nameChars = u.nameChars) : t = u := by
  have hOther {t u : Ty} {n : Nat} (hu : u.isFlat = true) : (array t n).nameChars ≠ u.nameChars := by
    intro h
    refine bracket_not_mem_of_isFlat hu (h ▸ ?_)
    simp [nameChars]
  have hFlat {t : Ty} (ht : t.isDeclarable = true) :
      t.isFlat = true ∨ ∃ e n, t = array e n ∧ e.isDeclarable = true := by
    cases t <;> first | exact .inl ht | exact .inr ⟨_, _, rfl, ht⟩
  induction t generalizing u with
  | array t n ih =>
    rcases hFlat hu with hu | ⟨u, m, rfl, hu⟩
    · exact absurd h (hOther hu)
    · -- The size is what follows the last bracket, so the texts are compared from their ends.
      have hReverse : (Text.natDigits n).reverse ++ '[' :: t.nameChars.reverse =
          (Text.natDigits m).reverse ++ '[' :: u.nameChars.reverse := by
        simpa [nameChars] using congrArg List.reverse h
      have hDigits (k : Nat) : ∀ c ∈ (Text.natDigits k).reverse, (c == '[') = false :=
        Text.forall_beq_eq_false fun h => Text.not_mem_natDigits rfl k (List.mem_reverse.mp h)
      obtain ⟨hSize, hElement⟩ := Text.append_inj_of_ends (hDigits n) (hDigits m)
        (.cons rfl _) (.cons rfl _) hReverse
      have hEq : t = u := ih ht hu (List.reverse_inj.mp (List.cons.inj hElement).2)
      rw [hEq, Text.natDigits_inj.mp (List.reverse_inj.mp hSize)]
  | _ =>
    rcases hFlat hu with hu | ⟨u, m, rfl, hu⟩
    · exact nameChars_inj_of_isFlat ht hu h
    · exact absurd h.symm (hOther ht)

theorem name_inj {t u : Ty} (ht : t.isDeclarable = true) (hu : u.isDeclarable = true)
    (h : t.name = u.name) : t = u :=
  nameChars_inj ht hu (String.ofList_injective h)

end Ty

/-- A character of the text of a constant. -/
theorem Constant.of_mem_text {value : Constant} {c : Char} (h : c ∈ value.text.toList) :
    c.isDigit = true ∨ Binary32.isMark c = true := by
  cases value with
  | int n =>
    rw [text, Text.toList_ofInt] at h
    rcases Text.of_mem_intDigits h with h | rfl
    · exact .inl h
    · exact .inr rfl
  | float x => exact Binary32.of_mem_text h

theorem Constant.not_mem_text {c : Char} (hDigit : c.isDigit = false)
    (hMark : Binary32.isMark c = false) (value : Constant) : c ∉ value.text.toList := by
  intro h
  rcases of_mem_text h with h | h
  · rw [h] at hDigit
    cases hDigit
  · rw [h] at hMark
    cases hMark

/-- Two texts that agree have the same part before the first `stop`, and the same rest. -/
theorem append_inj_at (stop : Char) {a b r s : String} (ha : stop ∉ a.toList)
    (hb : stop ∉ b.toList) (hr : Text.Ends (· == stop) r.toList)
    (hs : Text.Ends (· == stop) s.toList) (h : a ++ r = b ++ s) : a = b ∧ r = s := by
  have hLists := congrArg String.toList h
  simp only [String.toList_append] at hLists
  obtain ⟨hFirst, hRest⟩ := Text.append_inj_of_ends (Text.forall_beq_eq_false ha)
    (Text.forall_beq_eq_false hb) hr hs hLists
  exact ⟨String.toList_inj.mp hFirst, String.toList_inj.mp hRest⟩

/-- Notes that are told apart from what stands before them, and from each other if they are about
things with the property `P`. -/
structure Notes {α : Type} (P : α → Prop) (note : α → String) : Prop where
  apart : ∀ i, (note i).toList = [] ∨ ∃ cs, (note i).toList = ' ' :: ':' :: cs
  oneLine : ∀ i, '\n' ∉ (note i).toList
  inj : ∀ i j, P i → P j → note i = note j → i = j

namespace Notes

variable {α : Type} {P : α → Prop} {note : α → String}

theorem none (P : Unit → Prop) : Notes P fun _ => "" where
  apart _ := .inl rfl
  oneLine _ := by simp
  inj _ _ _ _ _ := rfl

theorem types : Notes (fun t : Ty => t.isDeclarable = true) fun t => " : " ++ t.name where
  apart t := .inr ⟨' ' :: t.name.toList, by simp⟩
  oneLine t := by simp [Ty.not_mem_name (c := '\n') rfl t]
  inj t u ht hu h := Ty.name_inj ht hu (String.append_right_inj _ |>.mp h)

theorem ends (h : Notes P note) (i : α) : Text.Ends (· == ' ') (note i).toList := by
  rcases h.apart i with hNone | ⟨cs, hSome⟩
  · rw [hNone]
    exact .nil
  · rw [hSome]
    exact .cons rfl _

end Notes

end MiniC
