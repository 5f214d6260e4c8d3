import Mathlib.Data.List.Nodup
import MiniC.Proofs.Bindings
import MiniC.Proofs.Literals.Typed
import MiniC.Proofs.Sources

/-! # Every literal denotes its own bytes

A literal is found in memory by the offset at which it starts, and no two literals of a source start
together.  So all code for a literal, and the initial value of a global, has the address of one
segment, which holds the bytes of the literal; no other literal has this address.
-/
namespace MiniC
set_option autoImplicit false

open Wasm (Code Instr)

/-- Ranges that start together are one range, unless they are empty. -/
theorem Block.Tiles.eq_of_start_eq {lo hi : Nat} {bs : List Block} (h : Tiles lo bs hi)
    {c d : Block} (hc : c ∈ bs) (hd : d ∈ bs) (hStart : c.start = d.start)
    (hPos : 0 < c.request.length) (hPos' : 0 < d.request.length) : c = d := by
  induction bs generalizing lo with
  | nil => cases hc
  | cons b bs ih =>
    have hInside := h.2.inside
    rcases List.mem_cons.mp hc with rfl | hLater <;> rcases List.mem_cons.mp hd with rfl | hLater'
    · rfl
    · have hAfter := (hInside d hLater').1
      rw [stop] at hAfter
      omega
    · have hAfter := (hInside c hLater).1
      rw [stop] at hAfter
      omega
    · exact ih h.2 hLater hLater'

namespace Memory

/-- Every known address is that of the bytes of a literal that starts at the offset. -/
def Stores (literals : List (Located String)) (m : Memory) : Prop :=
  ∀ p ∈ m.strings, ∃ l ∈ literals, l.span.lo = p.1 ∧ ⟨p.2, stringBytes l.value⟩ ∈ m.data

variable {literals : List (Located String)} {m m' : Memory}

theorem Stores.mono (h : m.Stores literals) (hStrings : m'.strings = m.strings)
    (hData : m.data ⊆ m'.data) : m'.Stores literals := by
  intro p hp
  rw [hStrings] at hp
  obtain ⟨l, hl, hLo, hBytes⟩ := h p hp
  exact ⟨l, hl, hLo, hData hBytes⟩

end Memory

open Memory (stringBytes)

variable {literals : List (Located String)}

theorem Request.serve_stores {r : Request} {m m' : Memory} {start : Nat}
    (h : r.serve m = .ok start m') (hm : m.Stores literals)
    (hKnown : ∀ s text, r = .string s text → ⟨s, text⟩ ∈ literals) : m'.Stores literals := by
  obtain ⟨-, rfl⟩ | ⟨-, -, -, rfl⟩ := Request.serve_eq_ok h
  · exact hm
  · cases r with
    | string s text =>
      intro p hp
      rcases List.mem_cons.mp hp with rfl | hp
      · exact ⟨⟨s, text⟩, hKnown s text rfl, rfl, List.mem_append_right _ List.mem_cons_self⟩
      · obtain ⟨l, hl, hLo, hBytes⟩ := hm p hp
        exact ⟨l, hl, hLo, List.mem_append_left _ hBytes⟩
    | _ => exact hm

theorem Request.serveAll_stores {rs : List Request} {m m' : Memory} {blocks : List Block}
    (h : serveAll rs m = .ok blocks m') (hm : m.Stores literals)
    (hKnown : ∀ s text, .string s text ∈ rs → ⟨s, text⟩ ∈ literals) : m'.Stores literals := by
  induction rs generalizing m blocks with
  | nil =>
    cases h
    exact hm
  | cons r rs ih =>
    obtain ⟨start, m₁, rest, hServe, hRest, -⟩ := serveAll_cons_eq_ok_iff.mp h
    refine ih hRest (serve_stores hServe hm fun s text hr => ?_) fun s text hr =>
      hKnown s text (List.mem_cons_of_mem _ hr)
    exact hKnown s text (hr ▸ List.mem_cons_self)

theorem Memory.Hands.stores {rs : List Request} {m m' : Memory} {blocks : List Block}
    (h : m.Hands rs blocks m') (hm : m.Stores literals)
    (hKnown : ∀ s text, .string s text ∈ rs → ⟨s, text⟩ ∈ literals) : m'.Stores literals := by
  obtain ⟨m₁, hServed, -, hStrings, hData⟩ := h
  exact (Request.serveAll_stores hServed hm hKnown).mono hStrings hData.subset

/-- A string that a global starts with has its place, and the cell holds the address. -/
theorem Global.place_string {g : Global Ty} {m m' : Memory} {cell : Nat}
    (h : g.place m = .ok cell m') {ty : Ty} {s : Span} {text : String}
    (hInit : g.init = some (.string ty s text)) :
    ∃ a, List.lookup s.lo m'.strings = some a ∧ ⟨cell, wordBytes (UInt32.ofNat a)⟩ ∈ m'.data := by
  simp only [place, Action.bind_eq_ok_iff] at h
  obtain ⟨_, m₁, hAlloc, w?, m₂, hWord, h⟩ := h
  rw [cellWord?, hInit] at hWord
  split at hWord
  · cases hWord
  · simp only [Action.map_eq_ok_iff, initialWord, Action.bind_eq_ok_iff,
      Action.pure_eq_ok_iff] at hWord
    obtain ⟨_, ⟨a, _, hPlace, rfl, rfl⟩, rfl⟩ := hWord
    cases h
    exact ⟨a, (Memory.placeString_texts hPlace).1, List.mem_append_right _ List.mem_cons_self⟩

/-- A global that has a cell starts with at most one literal. -/
theorem Global.eq_string_of_place {g : Global Ty} {m m' : Memory} {cell : Nat}
    (h : g.place m = .ok cell m') {l : Located String} (hl : l ∈ Expr.optionLiterals g.init) :
    ∃ ty, g.init = some (.string ty l.span l.value) := by
  simp only [place, Action.bind_eq_ok_iff] at h
  obtain ⟨_, m₁, hAlloc, w?, m₂, hWord, -⟩ := h
  rw [cellWord?] at hWord
  cases hInit : g.init with
  | none =>
    rw [hInit] at hl
    cases hl
  | some e =>
    rw [hInit] at hWord hl
    split at hWord
    · cases hWord
    · obtain ⟨w, hWord, -⟩ := Action.map_eq_ok_iff.mp hWord
      unfold initialWord at hWord
      split at hWord
      · cases hl
      · cases List.mem_singleton.mp hl
        exact ⟨_, rfl⟩
      · cases hl
      · cases hWord

namespace Builder

variable {b b' : Builder} {items : List (Item Ty)}

theorem keeps_of_addItems (h : items.forM addItem b = .ok ⟨⟩ b') :
    b.globals <:+ b'.globals ∧ b.memory.Keeps b'.memory := by
  obtain ⟨hSuffix, hKeeps, -⟩ := holds_of_addItems (Q := fun _ _ => True) h
    (EveryItem.of_forall fun _ _ _ _ => trivial)
  exact ⟨hSuffix, hKeeps⟩

theorem after_of_addItem {item : Item Ty} (h : addItem item b = .ok ⟨⟩ b') : b.after item = b' := by
  rw [after, h]

theorem afterAll_of_addItems (h : items.forM addItem b = .ok ⟨⟩ b') : b.afterAll items = b' := by
  induction items generalizing b with
  | nil =>
    cases h
    rfl
  | cons item items ih =>
    obtain ⟨_, b₁, hItem, hRest⟩ := Action.bind_eq_ok_iff.mp h
    rw [afterAll, List.foldl_cons, after_of_addItem hItem]
    exact ih hRest

/-- Data are only added. -/
theorem data_afterAll (b : Builder) (items : List (Item Ty)) :
    b.memory.data ⊆ (b.afterAll items).memory.data := by
  obtain ⟨log, -, hGrows⟩ := b.exists_handsAll items
  obtain ⟨added, hData, -⟩ := hGrows.memory.data
  rw [hData]
  exact List.subset_append_left _ _

theorem data_of_addItems (h : items.forM addItem b = .ok ⟨⟩ b') :
    b.memory.data ⊆ b'.memory.data := by
  rw [← afterAll_of_addItems h]
  exact b.data_afterAll items

theorem stores_of_addItems (h : items.forM addItem b = .ok ⟨⟩ b') (hb : b.memory.Stores literals)
    (hItems : ∀ item ∈ items, item.literals ⊆ literals) : b'.memory.Stores literals := by
  induction items generalizing b with
  | nil =>
    cases h
    exact hb
  | cons item items ih =>
    obtain ⟨_, b₁, hItem, hRest⟩ := Action.bind_eq_ok_iff.mp h
    obtain ⟨blocks, ⟨served, hHands, hServed⟩, -⟩ := b.exists_hands item
    rw [hItem] at hServed
    subst hServed
    rw [after_of_addItem hItem] at hHands
    refine ih hRest (hHands.stores hb fun s text hr => ?_) fun item' hItem' =>
      hItems item' (List.mem_cons_of_mem _ hItem')
    exact hItems item List.mem_cons_self (item.mem_literals_of_mem_requests hr)

/-- Every literal has an address in the end. -/
theorem placed_of_addItems (h : items.forM addItem b = .ok ⟨⟩ b') :
    ∀ l ∈ (Program.mk items).literals, ∃ a, List.lookup l.span.lo b'.memory.strings = some a := by
  induction items generalizing b with
  | nil => simp [Program.literals]
  | cons item items ih =>
    obtain ⟨_, b₁, hItem, hRest⟩ := Action.bind_eq_ok_iff.mp h
    have hKeeps := (keeps_of_addItems hRest).2
    refine List.forall_mem_append.mpr ⟨fun l hl => ?_, ih hRest⟩
    cases item with
    | global g =>
      obtain ⟨cell, m, hPlace, rfl⟩ := addGlobal_eq_ok hItem
      obtain ⟨ty, hInit⟩ := Global.eq_string_of_place hPlace hl
      obtain ⟨a, hText, -⟩ := Global.place_string hPlace hInit
      exact ⟨a, hKeeps _ _ hText⟩
    | function f =>
      obtain ⟨fn, fin, hEmit, rfl⟩ := addFunction_eq_ok hItem
      obtain ⟨start, code, arrays, hLowered⟩ := Function.lowered_of_emit hEmit
      obtain ⟨a, hText⟩ := BodyLowers.literals_placed f.body hLowered.lowers l hl
      exact ⟨a, hKeeps _ _ hText⟩

/-- The cell of a global that starts with a string holds its address. -/
theorem cell_of_addItems (h : items.forM addItem b = .ok ⟨⟩ b') {g : Global Ty}
    (hg : .global g ∈ items) {ty : Ty} {s : Span} {text : String}
    (hInit : g.init = some (.string ty s text)) :
    ∃ cell a, (g.name.name, cell, g.ty) ∈ b'.globals ∧
      List.lookup s.lo b'.memory.strings = some a ∧
      ⟨cell, wordBytes (UInt32.ofNat a)⟩ ∈ b'.memory.data := by
  induction items generalizing b with
  | nil => cases hg
  | cons item items ih =>
    obtain ⟨_, b₁, hItem, hRest⟩ := Action.bind_eq_ok_iff.mp h
    rcases List.mem_cons.mp hg with rfl | hg
    · obtain ⟨cell, m, hPlace, rfl⟩ := addGlobal_eq_ok hItem
      obtain ⟨a, hText, hData⟩ := Global.place_string hPlace hInit
      obtain ⟨hSuffix, hKeeps⟩ := keeps_of_addItems hRest
      exact ⟨cell, a, hSuffix.subset List.mem_cons_self, hKeeps _ _ hText,
        data_of_addItems hRest hData⟩
    · exact ih hRest hg

/-- Two offsets with one address are the same. -/
theorem Laid.offset_unique {log : List Block} (h : b.Laid log) {lo lo' a : Nat}
    (hLo : (lo, a) ∈ b.memory.strings) (hLo' : (lo', a) ∈ b.memory.strings) : lo = lo' := by
  obtain ⟨c, hc, s, text, hRequest, hEq⟩ := h.strings _ hLo
  obtain ⟨c', hc', s', text', hRequest', hEq'⟩ := h.strings _ hLo'
  obtain ⟨rfl, rfl⟩ := Prod.mk.inj hEq
  obtain ⟨rfl, hStart⟩ := Prod.mk.inj hEq'
  have hPos : 0 < c.request.length := Request.length_pos (by rw [hRequest]; rfl)
  have hPos' : 0 < c'.request.length := Request.length_pos (by rw [hRequest']; rfl)
  rw [h.tiles.eq_of_start_eq hc hc' hStart hPos hPos', hRequest'] at hRequest
  cases hRequest
  rfl

end Builder

theorem Program.exists_builder {p : Program Ty} {m : Wasm.Module} (h : p.emit = .ok m) :
    ∃ b, p.items.forM Builder.addItem .empty = .ok ⟨⟩ b ∧ m = b.toModule := by
  rw [Program.emit] at h
  cases hItems : p.items.forM Builder.addItem .empty with
  | error e b =>
    rw [hItems] at h
    cases h
  | ok u b =>
    rw [hItems] at h
    cases h
    exact ⟨b, rfl, rfl⟩

theorem Program.layout_of_addItems {p : Program Ty} {b : Builder}
    (h : p.items.forM Builder.addItem .empty = .ok ⟨⟩ b) :
    p.layout.cells.reverse = b.globals ∧ p.layout.texts = b.memory.strings := by
  obtain ⟨-, -, -, cells, arrays, -, hLayout, hGlobals, -⟩ :=
    Builder.holds_of_addItems (Q := fun _ _ => True) h (EveryItem.of_forall fun _ _ _ _ => trivial)
  rw [Program.layout, show Memory.empty = Builder.empty.memory from rfl, hLayout]
  exact ⟨(List.append_nil _).symm.trans hGlobals.symm, rfl⟩

/-- The address of the literal that starts at the offset. -/
def Layout.textAddress (layout : Layout) (lo : Nat) : Nat := (List.lookup lo layout.texts).getD 0

/-- The literals of the program are in the module at addresses of their own: one segment starts at
the address, and holds the text and a zero.  Code and cells refer to literals by these addresses. -/
structure Program.DenotesLiterals (p : Program Ty) (m : Wasm.Module) (address : Nat → Nat) :
    Prop where
  apart : (p.literals.map fun l => address l.span.lo).Nodup
  bytes : ∀ l ∈ p.literals, m.data.filter (fun t => t.offset = address l.span.lo) =
    [⟨address l.span.lo, stringBytes l.value⟩]
  inside : ∀ l ∈ p.literals,
    address l.span.lo + (stringBytes l.value).length ≤ Wasm.pageSize
  code : List.Forall₂ (fun f fn => ∃ (B : Bindings) (code : Code) (arrays : List (String × Nat)),
    (∀ lo a, B.text lo a → a = address lo) ∧ BodyLowers B [] f.body code arrays ∧
      (fn.body = code ∨ fn.body = code ++ [Instr.unreachable])) p.functions m.functions
  cells : ∀ g, .global g ∈ p.items → ∀ ty s text, g.init = some (.string ty s text) →
    ∃ cell, (g.name.name, cell, g.ty) ∈ p.layout.cells ∧
      ⟨cell, wordBytes (UInt32.ofNat (address s.lo))⟩ ∈ m.data

section

variable {p : Program Ty} {m : Wasm.Module} {b : Builder}

/-- Among segments at different offsets one is found by its offset. -/
theorem Wasm.Segment.filter_offset {segments : List Wasm.Segment}
    (h : segments.Pairwise fun s t => s.offset < t.offset) {t : Wasm.Segment} (ht : t ∈ segments) :
    segments.filter (fun u => u.offset = t.offset) = [t] := by
  induction segments with
  | nil => cases ht
  | cons s rest ih =>
    obtain ⟨hFirst, hRest⟩ := List.pairwise_cons.mp h
    rcases List.mem_cons.mp ht with rfl | ht
    · have hNone : rest.filter (fun u => u.offset = t.offset) = [] := by
        refine List.filter_eq_nil_iff.mpr fun u hu => ?_
        have hLt := hFirst u hu
        simp only [decide_eq_true_eq]
        omega
      rw [List.filter_cons_of_pos (by simp), hNone]
    · have hLt := hFirst t ht
      rw [List.filter_cons_of_neg (by simp; omega)]
      exact ih hRest ht

theorem Builder.exists_laid (h : p.items.forM Builder.addItem .empty = .ok ⟨⟩ b) :
    ∃ log, b.Laid log := by
  obtain ⟨log, -, hGrows⟩ := Builder.empty.exists_handsAll p.items
  rw [Builder.afterAll_of_addItems h] at hGrows
  exact ⟨log, hGrows.laid⟩

/-- If no two literals start together, they are told apart by their addresses. -/
theorem Program.denotesLiterals_of_emit (h : p.emit = .ok m)
    (hLiterals : (p.literals.map fun l => l.span.lo).Nodup) :
    p.DenotesLiterals m p.layout.textAddress := by
  obtain ⟨b, hItems, rfl⟩ := Program.exists_builder h
  obtain ⟨hCells, hTexts⟩ := Program.layout_of_addItems hItems
  obtain ⟨log, hLaid⟩ := Builder.exists_laid hItems
  have hStores : b.memory.Stores p.literals :=
    Builder.stores_of_addItems hItems (fun _ hp => by cases hp) fun item hItem l hl =>
      List.mem_flatMap.mpr ⟨item, hItem, hl⟩
  have hAddress {lo a : Nat} (hText : List.lookup lo b.memory.strings = some a) :
      p.layout.textAddress lo = a := by
    rw [Layout.textAddress, hTexts, hText, Option.getD_some]
  have hPlaced (l : Located String) (hl : l ∈ p.literals) :
      (l.span.lo, p.layout.textAddress l.span.lo) ∈ b.memory.strings := by
    obtain ⟨a, hText⟩ := Builder.placed_of_addItems hItems l hl
    rw [hAddress hText]
    exact Table.mem_of_lookup hText
  have hBytes (l : Located String) (hl : l ∈ p.literals) :
      ⟨p.layout.textAddress l.span.lo, stringBytes l.value⟩ ∈ b.toModule.data := by
    obtain ⟨l', hl', hLo, hData⟩ := hStores _ (hPlaced l hl)
    -- The literal whose bytes were placed is this one.
    obtain rfl : l' = l := List.inj_on_of_nodup_map hLiterals hl' hl hLo
    exact (Wasm.Segment.sort_perm _).mem_iff.mpr hData
  refine ⟨?_, fun l hl => ?_, fun l hl => ?_, ?_, fun g hg ty s text hInit => ?_⟩
  · refine (List.Nodup.of_map _ hLiterals).map_on fun l hl l' hl' hEq => ?_
    exact List.inj_on_of_nodup_map hLiterals hl hl'
      (hLaid.offset_unique (hPlaced l hl) (hEq ▸ hPlaced l' hl'))
  · exact Wasm.Segment.filter_offset hLaid.offsets_increase (hBytes l hl)
  · obtain ⟨c, hc, hFills⟩ := hLaid.segments _ ((Wasm.Segment.sort_perm _).mem_iff.mp (hBytes l hl))
    have hStop := hFills.stop_eq ▸ (hLaid.inside c hc).2
    exact Nat.le_trans hStop hLaid.cursor_le
  · obtain ⟨b', -, hTexts', hHolds⟩ := Program.holds_of_emit (Q := fun _ _ => True) h
      (EveryItem.of_forall fun _ _ _ _ => trivial)
    refine hHolds.imp ?_
    rintro f fn ⟨globals, m, start, fin, code, arrays, hLowered, -, -, hKeeps, -⟩
    refine ⟨_, code, arrays, fun lo a hText => ?_, hLowered.lowers, ?_⟩
    · exact (hAddress (hTexts ▸ hTexts'.symm ▸ hKeeps lo a hText)).symm
    · obtain ⟨-, hBody⟩ | ⟨-, -, hBody⟩ := hLowered.closed
      · exact .inl hBody
      · split at hBody
        · exact .inl (hBody.trans (List.append_nil _))
        · exact .inr hBody
  · obtain ⟨cell, a, hCell, hText, hData⟩ := Builder.cell_of_addItems hItems hg hInit
    refine ⟨cell, ?_, ?_⟩
    · rw [← hCells] at hCell
      exact List.mem_reverse.mp hCell
    · rw [hAddress hText]
      exact (Wasm.Segment.sort_perm _).mem_iff.mpr hData

end

/-- Every string literal denotes its own bytes.  The literals of a source that compiles are its
string tokens, no two of them start at one offset, and each has one address in the module. -/
theorem literals_of_compile (source text : String) (h : compile source = .ok text) :
    ∃ (tree : Program Unit) (p : Program Ty) (m : Wasm.Module), Program.parse source = .ok tree ∧
      tree.check = .ok p ∧ p.emit = .ok m ∧ m.text = text ∧
      tree.literals.map (fun l => l.value) =
        (Token.significant source).filterMap Token.literal? ∧
      (tree.literals.map fun l => l.span.lo).Nodup ∧ p.literals = tree.literals ∧
      ∃ address : Nat → Nat, p.DenotesLiterals m address := by
  obtain ⟨tree, p, m, hParse, hCheck, hEmit, hText⟩ := exists_of_compile h
  have hSame := Program.literals_of_check hCheck
  have hNodup : (tree.literals.map fun l => l.span.lo).Nodup :=
    List.pairwise_map.mpr ((Program.literals_increase hParse).imp Nat.ne_of_lt)
  exact ⟨tree, p, m, hParse, hCheck, hEmit, hText, Program.values_literals hParse, hNodup, hSame,
    p.layout.textAddress, Program.denotesLiterals_of_emit hEmit (hSame ▸ hNodup)⟩

/-- A source with two literals of one text, one of them the condition of a loop, and with an escape
in a literal in parentheses. -/
def loopOnLiteral : { source : String // (compile source).isOk = true ∧
    (Token.significant source).filterMap Token.literal? = ["é", "é", "a\n"] } :=
  ⟨"char* g = \"é\"; int f() \x7b while (\"é\") \x7b log((\"a\\n\")); \x7d return 0; \x7d",
    (congrArg Except.isOk (compile_ofList _)).trans (by decide +kernel),
    (congrArg (List.filterMap Token.literal?) (Token.significant_ofList _)).trans
      (by decide +kernel)⟩

theorem literals_of_compile_loop :
    ∃ (text : String) (tree : Program Unit) (p : Program Ty) (m : Wasm.Module)
      (address : Nat → Nat),
      compile loopOnLiteral.1 = .ok text ∧ Program.parse loopOnLiteral.1 = .ok tree ∧
      tree.literals.map (fun l => l.value) = ["é", "é", "a\n"] ∧ p.literals = tree.literals ∧
      p.DenotesLiterals m address := by
  obtain ⟨hOk, hTokens⟩ := loopOnLiteral.2
  cases hCompile : compile loopOnLiteral.1 with
  | error f =>
    rw [hCompile] at hOk
    cases hOk
  | ok text =>
    obtain ⟨tree, p, m, hParse, -, -, -, hValues, -, hSame, address, hDenotes⟩ :=
      literals_of_compile loopOnLiteral.1 text hCompile
    exact ⟨text, tree, p, m, address, rfl, hParse, hValues.trans hTokens, hSame, hDenotes⟩

end MiniC
