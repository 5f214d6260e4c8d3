import MiniC.Code.Module
import MiniC.Tree.Spans
import MiniC.Typing.Program

/-! # Moving a program to other places

`mapSpan` changes every span of a tree and nothing else.
-/
namespace MiniC
set_option autoImplicit false

variable {α : Type}

def Ident.mapSpan (φ : Span → Span) (x : Ident) : Ident := ⟨x.name, φ x.span⟩

def Located.mapSpan (φ : Span → Span) (x : Located α) : Located α := ⟨φ x.span, x.value⟩

namespace Expr

variable (φ : Span → Span)

mutual

def mapSpan : Expr α → Expr α
  | const i s value => const i (φ s) value
  | string i s text => string i (φ s) text
  | var i s x => var i (φ s) (x.mapSpan φ)
  | call i s callee args => call i (φ s) (callee.mapSpan φ) (mapSpanAll args)
  | binary i s op lhs rhs => binary i (φ s) op lhs.mapSpan rhs.mapSpan
  | unary i s op fixity operand => unary i (φ s) op fixity operand.mapSpan
  | index i s base offset => index i (φ s) base.mapSpan offset.mapSpan

def mapSpanAll : List (Expr α) → List (Expr α)
  | [] => []
  | e :: es => e.mapSpan :: mapSpanAll es

end

@[simp] theorem span_mapSpan (e : Expr α) : (e.mapSpan φ).span = φ e.span := by
  cases e <;> rfl

@[simp] theorem info_mapSpan (e : Expr α) : (e.mapSpan φ).info = e.info := by
  cases e <;> rfl

@[simp] theorem isVariable_mapSpan (e : Expr α) : (e.mapSpan φ).isVariable = e.isVariable := by
  cases e <;> rfl

theorem mapSpan_withSpan (s : Span) (e : Expr α) :
    (e.withSpan s).mapSpan φ = (e.mapSpan φ).withSpan (φ s) := by
  cases e <;> rfl

theorem mapSpanAll_eq_map (es : List (Expr α)) : mapSpanAll φ es = es.map (mapSpan φ) := by
  induction es with
  | nil => rfl
  | cons e es ih => rw [mapSpanAll, ih, List.map_cons]

@[simp] theorem length_mapSpanAll (es : List (Expr α)) :
    (mapSpanAll φ es).length = es.length := by
  rw [mapSpanAll_eq_map, List.length_map]

mutual

theorem spans_mapSpan : (e : Expr α) → (e.mapSpan φ).spans = e.spans.map φ
  | const .. => rfl
  | string .. => rfl
  | var .. => rfl
  | call _ _ _ args => by simp [mapSpan, spans, Ident.mapSpan, spansAll_mapSpanAll args]
  | binary _ _ _ lhs rhs => by
    simp [mapSpan, spans, lhs.spans_mapSpan, rhs.spans_mapSpan]
  | unary _ _ _ _ operand => by simp [mapSpan, spans, operand.spans_mapSpan]
  | index _ _ base offset => by
    simp [mapSpan, spans, base.spans_mapSpan, offset.spans_mapSpan]

theorem spansAll_mapSpanAll : (es : List (Expr α)) →
    spansAll (mapSpanAll φ es) = (spansAll es).map φ
  | [] => rfl
  | e :: es => by simp [mapSpanAll, spansAll, e.spans_mapSpan, spansAll_mapSpanAll es]

end

variable {φ}

mutual

theorem mapSpan_eq_self : (e : Expr α) → (∀ s ∈ e.spans, φ s = s) → e.mapSpan φ = e
  | const .., h => by simp_all [mapSpan, spans]
  | string .., h => by simp_all [mapSpan, spans]
  | var .., h => by simp_all [mapSpan, spans, Ident.mapSpan]
  | call _ _ callee args, h => by
    simp only [spans, List.forall_mem_cons] at h
    rw [mapSpan, Ident.mapSpan, h.1, h.2.1, mapSpanAll_eq_self args h.2.2]
  | binary _ _ _ lhs rhs, h => by
    simp only [spans, List.forall_mem_cons, List.forall_mem_append] at h
    rw [mapSpan, h.1, lhs.mapSpan_eq_self h.2.1, rhs.mapSpan_eq_self h.2.2]
  | unary _ _ _ _ operand, h => by
    simp only [spans, List.forall_mem_cons] at h
    rw [mapSpan, h.1, operand.mapSpan_eq_self h.2]
  | index _ _ base offset, h => by
    simp only [spans, List.forall_mem_cons, List.forall_mem_append] at h
    rw [mapSpan, h.1, base.mapSpan_eq_self h.2.1, offset.mapSpan_eq_self h.2.2]

theorem mapSpanAll_eq_self : (es : List (Expr α)) → (∀ s ∈ spansAll es, φ s = s) →
    mapSpanAll φ es = es
  | [], _ => rfl
  | e :: es, h => by
    simp only [spansAll, List.forall_mem_append] at h
    rw [mapSpanAll, e.mapSpan_eq_self h.1, mapSpanAll_eq_self es h.2]

end

theorem map_mapSpan_eq_self {e : Option (Expr α)} (h : ∀ s ∈ optionSpans e, φ s = s) :
    e.map (mapSpan φ) = e := by
  cases e with
  | none => rfl
  | some e => rw [Option.map_some, e.mapSpan_eq_self h]

theorem optionSpans_map_mapSpan (e : Option (Expr α)) :
    optionSpans (e.map (mapSpan φ)) = (optionSpans e).map φ := by
  cases e with
  | none => rfl
  | some e => exact spans_mapSpan φ e

end Expr

namespace Stmt

variable (φ : Span → Span)

mutual

def mapSpan : Stmt α → Stmt α
  | ret s value => ret (φ s) (value.map (Expr.mapSpan φ))
  | assign s target value => assign (φ s) (target.mapSpan φ) (value.mapSpan φ)
  | declare s name ty init => declare (φ s) (name.mapSpan φ) ty (init.map (Expr.mapSpan φ))
  | store s base offset value =>
    store (φ s) (base.mapSpan φ) (offset.mapSpan φ) (value.mapSpan φ)
  | branch s cond thenBody elseBody =>
    branch (φ s) (cond.mapSpan φ) (mapSpanAll thenBody) (mapSpanAll elseBody)
  | loop s kind cond body => loop (φ s) kind (cond.mapSpan φ) (mapSpanAll body)
  | forLoop s init cond update body =>
    forLoop (φ s) (mapSpanOption init) (cond.map (Expr.mapSpan φ)) (mapSpanOption update)
      (mapSpanAll body)
  | jump s j => jump (φ s) j
  | expr s value => expr (φ s) (value.mapSpan φ)

def mapSpanAll : List (Stmt α) → List (Stmt α)
  | [] => []
  | x :: xs => x.mapSpan :: mapSpanAll xs

def mapSpanOption : Option (Stmt α) → Option (Stmt α)
  | none => none
  | some x => some x.mapSpan

end

theorem mapSpanAll_eq_map (xs : List (Stmt α)) : mapSpanAll φ xs = xs.map (mapSpan φ) := by
  induction xs with
  | nil => rfl
  | cons x xs ih => rw [mapSpanAll, ih, List.map_cons]

theorem mapSpanOption_eq_map (x : Option (Stmt α)) : mapSpanOption φ x = x.map (mapSpan φ) := by
  cases x <;> rfl

@[simp] theorem isEmpty_mapSpanAll (xs : List (Stmt α)) :
    (mapSpanAll φ xs).isEmpty = xs.isEmpty := by
  cases xs <;> rfl

@[simp] theorem isReturn_mapSpan (x : Stmt α) : (x.mapSpan φ).isReturn = x.isReturn := by
  cases x <;> rfl

mutual

@[simp] theorem jumps_mapSpan (j : Jump) : (x : Stmt α) → (x.mapSpan φ).jumps j = x.jumps j
  | jump .. => rfl
  | branch _ _ thenBody elseBody => by
    simp [mapSpan, jumps, jumpsAny_mapSpanAll j thenBody, jumpsAny_mapSpanAll j elseBody]
  | ret .. | assign .. | declare .. | store .. | loop .. | forLoop .. | expr .. => by
    simp [mapSpan, jumps]

@[simp] theorem jumpsAny_mapSpanAll (j : Jump) : (xs : List (Stmt α)) →
    jumpsAny j (mapSpanAll φ xs) = jumpsAny j xs
  | [] => rfl
  | x :: xs => by simp [mapSpanAll, jumpsAny, x.jumps_mapSpan j, jumpsAny_mapSpanAll j xs]

end

mutual

theorem spans_mapSpan : (x : Stmt α) → (x.mapSpan φ).spans = x.spans.map φ
  | ret _ value => by simp [mapSpan, spans, Expr.optionSpans_map_mapSpan]
  | assign .. => by simp [mapSpan, spans, Expr.spans_mapSpan, Ident.mapSpan]
  | declare .. => by simp [mapSpan, spans, Expr.optionSpans_map_mapSpan, Ident.mapSpan]
  | store .. => by simp [mapSpan, spans, Expr.spans_mapSpan]
  | branch _ _ thenBody elseBody => by
    simp [mapSpan, spans, Expr.spans_mapSpan, spansAll_mapSpanAll thenBody,
      spansAll_mapSpanAll elseBody]
  | loop _ _ _ body => by simp [mapSpan, spans, Expr.spans_mapSpan, spansAll_mapSpanAll body]
  | forLoop _ init _ update body => by
    simp [mapSpan, spans, Expr.optionSpans_map_mapSpan, optionSpans_mapSpanOption init,
      optionSpans_mapSpanOption update, spansAll_mapSpanAll body]
  | jump .. => rfl
  | expr .. => by simp [mapSpan, spans, Expr.spans_mapSpan]

theorem spansAll_mapSpanAll : (xs : List (Stmt α)) →
    spansAll (mapSpanAll φ xs) = (spansAll xs).map φ
  | [] => rfl
  | x :: xs => by simp [mapSpanAll, spansAll, x.spans_mapSpan, spansAll_mapSpanAll xs]

theorem optionSpans_mapSpanOption : (x : Option (Stmt α)) →
    optionSpans (mapSpanOption φ x) = (optionSpans x).map φ
  | none => rfl
  | some x => by simp [mapSpanOption, optionSpans, x.spans_mapSpan]

end

variable {φ}

mutual

theorem mapSpan_eq_self : (x : Stmt α) → (∀ s ∈ x.spans, φ s = s) → x.mapSpan φ = x
  | ret _ value, h => by
    simp only [spans, List.forall_mem_cons] at h
    rw [mapSpan, h.1, Expr.map_mapSpan_eq_self h.2]
  | assign _ target value, h => by
    simp only [spans, List.forall_mem_cons] at h
    rw [mapSpan, Ident.mapSpan, h.1, h.2.1, value.mapSpan_eq_self h.2.2]
  | declare _ name _ init, h => by
    simp only [spans, List.forall_mem_cons] at h
    rw [mapSpan, Ident.mapSpan, h.1, h.2.1, Expr.map_mapSpan_eq_self h.2.2]
  | store _ base offset value, h => by
    simp only [spans, List.forall_mem_cons, List.forall_mem_append] at h
    rw [mapSpan, h.1, base.mapSpan_eq_self h.2.1.1, offset.mapSpan_eq_self h.2.1.2,
      value.mapSpan_eq_self h.2.2]
  | branch _ cond thenBody elseBody, h => by
    simp only [spans, List.forall_mem_cons, List.forall_mem_append] at h
    rw [mapSpan, h.1, cond.mapSpan_eq_self h.2.1.1, mapSpanAll_eq_self thenBody h.2.1.2,
      mapSpanAll_eq_self elseBody h.2.2]
  | loop _ _ cond body, h => by
    simp only [spans, List.forall_mem_cons, List.forall_mem_append] at h
    rw [mapSpan, h.1, cond.mapSpan_eq_self h.2.1, mapSpanAll_eq_self body h.2.2]
  | forLoop _ init cond update body, h => by
    simp only [spans, List.forall_mem_cons, List.forall_mem_append] at h
    rw [mapSpan, h.1, mapSpanOption_eq_self init h.2.1.1.1, Expr.map_mapSpan_eq_self h.2.1.1.2,
      mapSpanOption_eq_self update h.2.1.2, mapSpanAll_eq_self body h.2.2]
  | jump _ _, h => by
    simp only [spans, List.forall_mem_cons] at h
    rw [mapSpan, h.1]
  | expr _ value, h => by
    simp only [spans, List.forall_mem_cons] at h
    rw [mapSpan, h.1, value.mapSpan_eq_self h.2]

theorem mapSpanAll_eq_self : (xs : List (Stmt α)) → (∀ s ∈ spansAll xs, φ s = s) →
    mapSpanAll φ xs = xs
  | [], _ => rfl
  | x :: xs, h => by
    simp only [spansAll, List.forall_mem_append] at h
    rw [mapSpanAll, x.mapSpan_eq_self h.1, mapSpanAll_eq_self xs h.2]

theorem mapSpanOption_eq_self : (x : Option (Stmt α)) → (∀ s ∈ optionSpans x, φ s = s) →
    mapSpanOption φ x = x
  | none, _ => rfl
  | some x, h => by rw [mapSpanOption, x.mapSpan_eq_self h]

end

end Stmt

section

variable (φ : Span → Span)

def Param.mapSpan (p : Param) : Param := ⟨p.name.mapSpan φ, p.ty⟩

def Global.mapSpan (g : Global α) : Global α :=
  ⟨g.name.mapSpan φ, g.ty, g.init.map (Expr.mapSpan φ)⟩

def Function.mapSpan (f : Function α) : Function α :=
  ⟨f.name.mapSpan φ, f.returnTy, f.params.map (Param.mapSpan φ), Stmt.mapSpanAll φ f.body⟩

def Item.mapSpan : Item α → Item α
  | .global g => .global (g.mapSpan φ)
  | .function f => .function (f.mapSpan φ)

def Program.mapSpan (p : Program α) : Program α := ⟨p.items.map (Item.mapSpan φ)⟩

theorem Item.spans_mapSpan (item : Item α) : (item.mapSpan φ).spans = item.spans.map φ := by
  cases item with
  | global g =>
    simp [Item.mapSpan, Item.spans, Global.mapSpan, Ident.mapSpan, Expr.optionSpans_map_mapSpan]
  | function f =>
    simp [Item.mapSpan, Item.spans, Function.mapSpan, Param.mapSpan, Ident.mapSpan,
      Stmt.spansAll_mapSpanAll]

theorem Program.spans_mapSpan (p : Program α) : (p.mapSpan φ).spans = p.spans.map φ := by
  obtain ⟨items⟩ := p
  simp only [Program.mapSpan, Program.spans, List.flatMap_map, List.map_flatMap, Item.spans_mapSpan]

theorem Program.functions_mapSpan (p : Program α) :
    (p.mapSpan φ).functions = p.functions.map (Function.mapSpan φ) := by
  obtain ⟨items⟩ := p
  simp only [Program.mapSpan, Program.functions, List.filterMap_map, List.map_filterMap]
  congr
  funext item
  cases item <;> rfl

variable {φ}

theorem Item.mapSpan_eq_self (item : Item α) (h : ∀ s ∈ item.spans, φ s = s) :
    item.mapSpan φ = item := by
  cases item with
  | global g =>
    simp only [Item.spans, List.forall_mem_cons] at h
    rw [Item.mapSpan, Global.mapSpan, Ident.mapSpan, h.1, Expr.map_mapSpan_eq_self h.2]
  | function f =>
    simp only [Item.spans, List.forall_mem_cons, List.forall_mem_append, List.forall_mem_map] at h
    have hParams : f.params.map (Param.mapSpan φ) = f.params.map id := by
      refine List.map_congr_left fun p hp => ?_
      rw [Param.mapSpan, Ident.mapSpan, h.2.1 p hp, id]
    rw [Item.mapSpan, Function.mapSpan, Ident.mapSpan, h.1, hParams, List.map_id,
      Stmt.mapSpanAll_eq_self f.body h.2.2]

theorem Program.mapSpan_eq_self (p : Program α) (h : ∀ s ∈ p.spans, φ s = s) :
    p.mapSpan φ = p := by
  obtain ⟨items⟩ := p
  have hItems : items.map (Item.mapSpan φ) = items.map id :=
    List.map_congr_left fun item hItem =>
      item.mapSpan_eq_self fun s hs => h s (List.mem_flatMap.mpr ⟨item, hItem, hs⟩)
  rw [Program.mapSpan, hItems, List.map_id]

end

end MiniC
