import MiniC.Proofs.Grammar.Reading

/-! # Trees of spans

A tree of spans fits a list of tokens if each node covers a stretch of them and the children of a
node cover stretches of that one, in order.  From tokens in source order it follows that children
lie inside their parent and that spans in different branches do not meet.
-/
namespace MiniC
set_option autoImplicit false

inductive SpanTree where
  | node (span : Span) (parts : List SpanTree)

namespace SpanTree

mutual

def spans : SpanTree → List Span
  | node s parts => s :: spansAll parts

def spansAll : List SpanTree → List Span
  | [] => []
  | t :: ts => t.spans ++ spansAll ts

end

mutual

/-- Whatever is below a node lies inside it. -/
def Nested : SpanTree → Prop
  | node s parts => (∀ x ∈ spansAll parts, s.lo ≤ x.lo ∧ x.hi ≤ s.hi) ∧ NestedAll parts

/-- Whatever is in a tree ends before anything in a later tree starts. -/
def NestedAll : List SpanTree → Prop
  | [] => True
  | t :: ts => t.Nested ∧ (∀ x ∈ t.spans, ∀ y ∈ spansAll ts, x.hi ≤ y.lo) ∧ NestedAll ts

end

mutual

/-- The spans with nothing below them. -/
def leaves : SpanTree → List Span
  | node s [] => [s]
  | node _ (t :: ts) => t.leaves ++ leavesAll ts

def leavesAll : List SpanTree → List Span
  | [] => []
  | t :: ts => t.leaves ++ leavesAll ts

end

mutual

theorem mem_spans_of_mem_leaves {s : Span} : (t : SpanTree) → s ∈ t.leaves → s ∈ t.spans
  | node _ [], h => h
  | node _ (t :: ts), h => by
    refine List.mem_cons_of_mem _ ?_
    rcases List.mem_append.mp h with h | h
    · exact List.mem_append_left _ (mem_spans_of_mem_leaves t h)
    · exact List.mem_append_right _ (mem_spansAll_of_mem_leavesAll ts h)

theorem mem_spansAll_of_mem_leavesAll {s : Span} :
    (ts : List SpanTree) → s ∈ leavesAll ts → s ∈ spansAll ts
  | [], h => h
  | t :: ts, h => by
    rcases List.mem_append.mp h with h | h
    · exact List.mem_append_left _ (mem_spans_of_mem_leaves t h)
    · exact List.mem_append_right _ (mem_spansAll_of_mem_leavesAll ts h)

end

mutual

/-- Leaves are in different branches, so they follow one another. -/
theorem Nested.leaves_pairwise : (t : SpanTree) → t.Nested →
    t.leaves.Pairwise fun x y => x.hi ≤ y.lo
  | node _ [], _ => List.pairwise_singleton _ _
  | node _ (t :: ts), h => NestedAll.leaves_pairwise (t :: ts) h.2

theorem NestedAll.leaves_pairwise : (ts : List SpanTree) → NestedAll ts →
    (leavesAll ts).Pairwise fun x y => x.hi ≤ y.lo
  | [], _ => .nil
  | t :: ts, ⟨hFirst, hBetween, hRest⟩ =>
    List.pairwise_append.mpr ⟨Nested.leaves_pairwise t hFirst, NestedAll.leaves_pairwise ts hRest,
      fun x hx y hy => hBetween x (mem_spans_of_mem_leaves t hx) y
        (mem_spansAll_of_mem_leavesAll ts hy)⟩

end

theorem leavesAll_sublist (s : Span) (parts : List SpanTree) :
    (leavesAll parts).Sublist (node s parts).leaves := by
  cases parts with
  | nil => exact List.nil_sublist _
  | cons t ts => exact List.Sublist.refl _

theorem leavesAll_append (a b : List SpanTree) :
    leavesAll (a ++ b) = leavesAll a ++ leavesAll b := by
  induction a with
  | nil => rfl
  | cons t a ih => rw [List.cons_append, leavesAll, leavesAll, ih, List.append_assoc]

theorem spansAll_append (a b : List SpanTree) : spansAll (a ++ b) = spansAll a ++ spansAll b := by
  induction a with
  | nil => rfl
  | cons t a ih => rw [List.cons_append, spansAll, spansAll, ih, List.append_assoc]

end SpanTree

namespace Grammar

theorem exists_lastSpan_eq (t : Token) (ts : List Token) :
    ∃ u ∈ t :: ts, lastSpan t.span ts = u.span := by
  induction ts generalizing t with
  | nil => exact ⟨t, List.mem_cons_self, rfl⟩
  | cons t' ts ih =>
    obtain ⟨u, hu, hSpan⟩ := ih t'
    exact ⟨u, List.mem_cons_of_mem _ hu, hSpan⟩

/-- The last of some tokens in source order ends last. -/
theorem hi_le_lastSpan {t : Token} {ts : List Token} (h : Token.Ordered (t :: ts)) :
    ∀ u ∈ t :: ts, u.span.hi ≤ (lastSpan t.span ts).hi := by
  induction ts generalizing t with
  | nil =>
    intro u hu
    rw [List.mem_singleton.mp hu]
    exact Nat.le_refl _
  | cons t' ts ih =>
    obtain ⟨hBefore, hRest⟩ := List.pairwise_cons.mp h
    intro u hu
    rcases List.mem_cons.mp hu with rfl | hu
    · have hNext := hBefore t' List.mem_cons_self
      have hLast := ih hRest t' List.mem_cons_self
      rw [lastSpan_cons]
      simp only [Span.hi] at hNext hLast ⊢
      omega
    · exact ih hRest u hu

theorem lo_le_of_ordered {t : Token} {ts : List Token} (h : Token.Ordered (t :: ts)) :
    ∀ u ∈ t :: ts, t.span.lo ≤ u.span.lo := by
  intro u hu
  rcases List.mem_cons.mp hu with rfl | hu
  · exact Nat.le_refl _
  · have hLe := (List.pairwise_cons.mp h).1 u hu
    simp only [Span.hi] at hLe
    omega

theorem cover_cons {t : Token} {ts : List Token} (h : Token.Ordered (t :: ts)) :
    cover (t :: ts) = ⟨t.span.lo, (lastSpan t.span ts).hi - t.span.lo, t.span.line⟩ := by
  obtain ⟨u, hu, hLast⟩ := exists_lastSpan_eq t ts
  have hLo := lo_le_of_ordered h u hu
  have hHi := hi_le_lastSpan h t List.mem_cons_self
  rw [hLast] at hHi
  rw [cover, hLast, Span.join, Nat.min_eq_left hLo, Nat.max_eq_right hHi]

@[simp] theorem cover_singleton (t : Token) : cover [t] = t.span := by
  rw [cover_cons (List.pairwise_singleton _ _), lastSpan_nil, Span.hi, Nat.add_sub_cancel_left]

/-- The span from the first of some tokens to the last of some later ones. -/
theorem cover_join {a b c : List Token} (hA : a ≠ []) (hC : c ≠ [])
    (h : Token.Ordered (a ++ (b ++ c))) : (cover a).join (cover c) = cover (a ++ (b ++ c)) := by
  obtain ⟨t, a, rfl⟩ := List.exists_cons_of_ne_nil hA
  obtain ⟨u, c, rfl⟩ := List.exists_cons_of_ne_nil hC
  obtain ⟨hFirst, hRest, hBetween⟩ := List.pairwise_append.mp h
  have hLast := (List.pairwise_append.mp hRest).2.1
  have hU : u ∈ b ++ u :: c := List.mem_append_right _ List.mem_cons_self
  obtain ⟨v, hv, hEnd⟩ := exists_lastSpan_eq t a
  have hTU := hBetween t List.mem_cons_self u hU
  have hVU := hBetween v hv u hU
  have hUC := hi_le_lastSpan hLast u List.mem_cons_self
  have hTV := hi_le_lastSpan hFirst t List.mem_cons_self
  rw [List.cons_append, cover_cons hFirst, cover_cons hLast, cover_cons (by exact h)]
  rw [hEnd] at hTV ⊢
  simp only [lastSpan_append, lastSpan_cons, Span.join, Span.hi, Span.mk.injEq, and_true]
    at hTU hVU hUC hTV ⊢
  omega

/-- What a stretch of tokens covers starts with one of them and ends with one of them. -/
theorem cover_spec {ts : List Token} (hNe : ts ≠ []) (h : Token.Ordered ts) :
    ∃ t ∈ ts, ∃ u ∈ ts, (cover ts).lo = t.span.lo ∧ (cover ts).line = t.span.line ∧
      (cover ts).hi = u.span.hi ∧ ∀ v ∈ ts, t.span.lo ≤ v.span.lo ∧ v.span.hi ≤ u.span.hi := by
  obtain ⟨t, ts, rfl⟩ := List.exists_cons_of_ne_nil hNe
  obtain ⟨u, hu, hLast⟩ := exists_lastSpan_eq t ts
  have hHi := hi_le_lastSpan h
  rw [hLast] at hHi
  have hT := hHi t List.mem_cons_self
  refine ⟨t, List.mem_cons_self, u, hu, ?_, ?_, ?_, fun v hv => ⟨lo_le_of_ordered h v hv, hHi v hv⟩⟩
  · rw [cover_cons h]
  · rw [cover_cons h]
  · rw [cover_cons h, hLast]
    simp only [Span.hi] at hT ⊢
    omega

end Grammar

open Grammar (cover cover_spec)

namespace SpanTree

/-- The trees cover stretches of the tokens, in order. -/
inductive Fits : List Token → List SpanTree → Prop where
  | nil : Fits [] []
  | skip (t : Token) {ts : List Token} {forest : List SpanTree} (h : Fits ts forest) :
      Fits (t :: ts) forest
  | node {ts us : List Token} {parts forest : List SpanTree} (hNe : ts ≠ [])
      (hParts : Fits ts parts) (hRest : Fits us forest) :
      Fits (ts ++ us) (.node (cover ts) parts :: forest)

namespace Fits

variable {ts us : List Token} {a b : List SpanTree}

theorem append (h : Fits ts a) (h' : Fits us b) : Fits (ts ++ us) (a ++ b) := by
  induction h with
  | nil => exact h'
  | skip t _ ih => exact .skip t ih
  | node hNe hParts _ _ ihRest =>
    rw [List.append_assoc]
    exact .node hNe hParts ihRest

theorem none (ts : List Token) : Fits ts [] := by
  induction ts with
  | nil => exact .nil
  | cons t ts ih => exact .skip t ih

/-- A node over all the tokens. -/
theorem single (hNe : ts ≠ []) (h : Fits ts a) : Fits ts [.node (cover ts) a] := by
  have hNode := Fits.node hNe h .nil
  rwa [List.append_nil] at hNode

theorem leaf (t : Token) : Fits [t] [.node t.span []] := by
  have hNode := Fits.single (List.cons_ne_nil t []) (.none [t])
  rwa [Grammar.cover_singleton] at hNode

/-- Every span is that of some of the tokens. -/
theorem exists_cover (h : Fits ts a) :
    ∀ s ∈ spansAll a, ∃ vs, vs ≠ [] ∧ vs.Sublist ts ∧ s = cover vs := by
  induction h with
  | nil =>
    intro s hs
    cases hs
  | skip t _ ih =>
    intro s hs
    obtain ⟨vs, hNe, hSub, rfl⟩ := ih s hs
    exact ⟨vs, hNe, hSub.cons t, rfl⟩
  | @node ts us _ _ hNe _ _ ihParts ihRest =>
    intro s hs
    simp only [spansAll, spans, List.cons_append, List.mem_cons, List.mem_append] at hs
    rcases hs with rfl | hs | hs
    · exact ⟨ts, hNe, List.sublist_append_left ts us, rfl⟩
    · obtain ⟨vs, hNe, hSub, rfl⟩ := ihParts s hs
      exact ⟨vs, hNe, hSub.trans (List.sublist_append_left ts us), rfl⟩
    · obtain ⟨vs, hNe, hSub, rfl⟩ := ihRest s hs
      exact ⟨vs, hNe, hSub.trans (List.sublist_append_right ts us), rfl⟩

theorem nested (h : Fits ts a) (hOrdered : Token.Ordered ts) : NestedAll a := by
  induction h with
  | nil => exact trivial
  | skip t _ ih => exact ih (List.pairwise_cons.mp hOrdered).2
  | @node ts us parts forest hNe hParts hRest ihParts ihRest =>
    obtain ⟨hTs, hUs, hBetween⟩ := List.pairwise_append.mp hOrdered
    refine ⟨⟨fun x hx => ?_, ihParts hTs⟩, fun x hx y hy => ?_, ihRest hUs⟩
    · obtain ⟨vs, hVs, hSub, rfl⟩ := hParts.exists_cover x hx
      obtain ⟨t, -, u, -, hLo, -, hHi, hAll⟩ := cover_spec hNe hTs
      obtain ⟨t', ht', u', hu', hLo', -, hHi', -⟩ := cover_spec hVs (hTs.sublist hSub)
      rw [hLo, hHi, hLo', hHi']
      exact ⟨(hAll t' (hSub.subset ht')).1, (hAll u' (hSub.subset hu')).2⟩
    · have hNode : Fits ts [.node (cover ts) parts] := .single hNe hParts
      obtain ⟨vs, hVs, hSub, rfl⟩ := hNode.exists_cover x (by simpa [spansAll] using hx)
      obtain ⟨ws, hWs, hSub', rfl⟩ := hRest.exists_cover y hy
      obtain ⟨-, -, u, hu, -, -, hHi, -⟩ := cover_spec hVs (hTs.sublist hSub)
      obtain ⟨t, ht, -, -, hLo, -, -, -⟩ := cover_spec hWs (hUs.sublist hSub')
      rw [hHi, hLo]
      exact hBetween u (hSub.subset hu) t (hSub'.subset ht)

end Fits

end SpanTree

end MiniC
