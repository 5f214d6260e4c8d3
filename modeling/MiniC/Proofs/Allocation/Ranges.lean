import MiniC.Proofs.Allocation.Requests

/-! # The ranges that are handed out

A module is built by adding items to it, and an item that fails does not end the build.  The ranges
handed out on the way lie end to end from the first address on: they cover memory up to the cursor
and no two of them share a byte.  Initial data are the bytes of whole ranges, each written once, so a
finished module lists every segment and no two offsets agree.
-/
namespace MiniC
set_option autoImplicit false

namespace Block

def stop (b : Block) : Nat := b.start + b.request.length

/-- The ranges lie end to end from `lo` to `hi`. -/
def Tiles : Nat → List Block → Nat → Prop
  | lo, [], hi => lo = hi
  | lo, b :: bs, hi => b.start = lo ∧ Tiles b.stop bs hi

namespace Tiles

variable {lo mid hi : Nat} {bs bs' : List Block}

theorem append (h : Tiles lo bs mid) (h' : Tiles mid bs' hi) : Tiles lo (bs ++ bs') hi := by
  induction bs generalizing lo with
  | nil =>
    obtain rfl : lo = mid := h
    exact h'
  | cons b bs ih => exact ⟨h.1, ih h.2⟩

theorem le (h : Tiles lo bs hi) : lo ≤ hi := by
  induction bs generalizing lo with
  | nil => exact Nat.le_of_eq h
  | cons b bs ih =>
    have hStart := h.1
    have hRest := ih h.2
    rw [stop] at hRest
    omega

theorem inside (h : Tiles lo bs hi) : ∀ b ∈ bs, lo ≤ b.start ∧ b.stop ≤ hi := by
  induction bs generalizing lo with
  | nil => simp
  | cons b bs ih =>
    intro c hc
    have hStart := h.1
    rcases List.mem_cons.mp hc with rfl | hc
    · exact ⟨Nat.le_of_eq hStart.symm, h.2.le⟩
    · have hc := ih h.2 c hc
      rw [stop] at hc
      omega

theorem disjoint (h : Tiles lo bs hi) : bs.Pairwise fun b c => b.stop ≤ c.start := by
  induction bs generalizing lo with
  | nil => exact .nil
  | cons b bs ih => exact .cons (fun c hc => (h.2.inside c hc).1) (ih h.2)

end Tiles

end Block

namespace Wasm.Segment

def stop (s : Segment) : Nat := s.offset + s.bytes.length

/-- No byte belongs to both segments. -/
def Apart (s t : Segment) : Prop := s.stop ≤ t.offset ∨ t.stop ≤ s.offset

/-- The segment is the whole of a range that was handed out for a cell or a string. -/
structure Fills (s : Segment) (b : Block) : Prop where
  offset : s.offset = b.start
  length : s.bytes.length = b.request.length
  notArray : b.request.isArray = false

theorem Fills.stop_eq {s : Segment} {b : Block} (h : s.Fills b) : s.stop = b.stop := by
  rw [stop, Block.stop, h.offset, h.length]

theorem insert_pairwise {s : Segment} {segments : List Segment}
    (h : segments.Pairwise fun s t => s.offset ≤ t.offset) :
    (insert s segments).Pairwise fun s t => s.offset ≤ t.offset := by
  induction segments with
  | nil => exact List.pairwise_singleton _ _
  | cons t rest ih =>
    obtain ⟨hFirst, hRest⟩ := List.pairwise_cons.mp h
    rw [insert]
    split
    · next hLe =>
      refine .cons (fun u hu => ?_) h
      rcases List.mem_cons.mp hu with rfl | hu
      · exact hLe
      · exact Nat.le_trans hLe (hFirst u hu)
    · next hLt =>
      refine .cons (fun u hu => ?_) (ih hRest)
      rcases List.mem_cons.mp ((insert_perm s rest).mem_iff.mp hu) with rfl | hu
      · omega
      · exact hFirst u hu

theorem sort_pairwise (segments : List Segment) :
    (sort segments).Pairwise fun s t => s.offset ≤ t.offset := by
  induction segments with
  | nil => exact .nil
  | cons s rest ih => exact insert_pairwise ih

end Wasm.Segment

open Wasm (Segment)

namespace Request

def placed (m : Memory) : Request → Memory
  | string s text => {
      cursor := m.cursor + (Memory.stringBytes text).length
      data := m.data ++ [⟨m.cursor, Memory.stringBytes text⟩]
      strings := (s.lo, m.cursor) :: m.strings }
  | r => { m with cursor := m.cursor + r.length }

theorem serve_eq_ok {r : Request} {m m' : Memory} {start : Nat} (h : r.serve m = .ok start m') :
    (r.isPlaced m = true ∧ m' = m) ∨
      (r.isPlaced m = false ∧ m.cursor + r.length ≤ Wasm.pageSize ∧ start = m.cursor ∧
        m' = r.placed m) := by
  cases r with
  | cell s =>
    obtain ⟨hFits, rfl, rfl⟩ := (Memory.alloc_eq_ok_iff ..).mp h
    exact .inr ⟨rfl, hFits, rfl, rfl⟩
  | string s text =>
    rw [serve, Memory.placeString, Memory.get_bind] at h
    cases hFound : List.lookup s.lo m.strings with
    | some address =>
      rw [hFound] at h
      cases h
      exact .inl ⟨by rw [isPlaced, hFound]; rfl, rfl⟩
    | none =>
      rw [hFound] at h
      obtain ⟨address, m₁, hAlloc, hRest⟩ := Action.bind_eq_ok_iff.mp h
      obtain ⟨hFits, rfl, rfl⟩ := (Memory.alloc_eq_ok_iff ..).mp hAlloc
      cases hRest
      exact .inr ⟨by rw [isPlaced, hFound]; rfl, hFits, rfl, rfl⟩
  | array s ty =>
    rw [serve, Memory.reserveArray] at h
    split at h
    · cases h
    · obtain ⟨hFits, rfl, rfl⟩ := (Memory.alloc_eq_ok_iff ..).mp h
      exact .inr ⟨rfl, hFits, rfl, rfl⟩

end Request

namespace Memory

/-- Memory goes from `m` to `m'` as the given ranges are handed out: nothing is taken back, and what
is added to the initial data and to the table of strings lies in these ranges. -/
structure Grows (m : Memory) (blocks : List Block) (m' : Memory) : Prop where
  tiles : Block.Tiles m.cursor blocks m'.cursor
  fits : m'.cursor ≤ max m.cursor Wasm.pageSize
  data : ∃ added, m'.data = m.data ++ added ∧ added.Pairwise Segment.Apart ∧
    ∀ t ∈ added, ∃ b ∈ blocks, t.Fills b
  strings : ∃ added, m'.strings = added ++ m.strings ∧
    ∀ p ∈ added, ∃ b ∈ blocks, ∃ s text, b.request = .string s text ∧ p = (s.lo, b.start)

namespace Grows

variable {m m₁ m₂ : Memory} {blocks blocks' : List Block}

theorem refl (m : Memory) : m.Grows [] m where
  tiles := rfl
  fits := Nat.le_max_left _ _
  data := ⟨[], (List.append_nil _).symm, .nil, by simp⟩
  strings := ⟨[], rfl, by simp⟩

theorem trans (h : m.Grows blocks m₁) (h' : m₁.Grows blocks' m₂) :
    m.Grows (blocks ++ blocks') m₂ where
  tiles := h.tiles.append h'.tiles
  fits := by
    have hFits := h.fits
    have hFits' := h'.fits
    omega
  data := by
    obtain ⟨added, hData, hApart, hFills⟩ := h.data
    obtain ⟨added', hData', hApart', hFills'⟩ := h'.data
    refine ⟨added ++ added', by rw [hData', hData, List.append_assoc],
      List.pairwise_append.mpr ⟨hApart, hApart', fun t ht t' ht' => ?_⟩, fun t ht => ?_⟩
    · -- segments written later fill later ranges
      obtain ⟨b, hb, hFill⟩ := hFills t ht
      obtain ⟨b', hb', hFill'⟩ := hFills' t' ht'
      have hStop := (h.tiles.inside b hb).2
      have hStart := (h'.tiles.inside b' hb').1
      rw [← hFill.stop_eq] at hStop
      rw [← hFill'.offset] at hStart
      exact .inl (Nat.le_trans hStop hStart)
    · rcases List.mem_append.mp ht with ht | ht
      · obtain ⟨b, hb, hFill⟩ := hFills t ht
        exact ⟨b, List.mem_append_left _ hb, hFill⟩
      · obtain ⟨b, hb, hFill⟩ := hFills' t ht
        exact ⟨b, List.mem_append_right _ hb, hFill⟩
  strings := by
    obtain ⟨added, hStrings, hStarts⟩ := h.strings
    obtain ⟨added', hStrings', hStarts'⟩ := h'.strings
    refine ⟨added' ++ added, by rw [hStrings', hStrings, List.append_assoc], fun p hp => ?_⟩
    rcases List.mem_append.mp hp with hp | hp
    · obtain ⟨b, hb, hStart⟩ := hStarts' p hp
      exact ⟨b, List.mem_append_right _ hb, hStart⟩
    · obtain ⟨b, hb, hStart⟩ := hStarts p hp
      exact ⟨b, List.mem_append_left _ hb, hStart⟩

theorem placed (m : Memory) (r : Request) (hFits : m.cursor + r.length ≤ Wasm.pageSize) :
    m.Grows [⟨r, m.cursor⟩] (r.placed m) where
  tiles := ⟨rfl, by cases r <;> rfl⟩
  fits := by
    have hCursor : (r.placed m).cursor = m.cursor + r.length := by cases r <;> rfl
    omega
  data := by
    cases r with
    | string s text => exact ⟨_, rfl, List.pairwise_singleton _ _, by simp; exact ⟨rfl, rfl, rfl⟩⟩
    | _ => exact ⟨[], (List.append_nil _).symm, .nil, by simp⟩
  strings := by
    cases r with
    | string s text => exact ⟨[(s.lo, m.cursor)], rfl, by simp⟩
    | _ => exact ⟨[], rfl, by simp⟩

theorem fillCell {bytes : List UInt8} {s : Span} (h : m.Grows [⟨.cell s, m.cursor⟩] m₁)
    (hData : m₁.data = m.data) (h' : m₁.Grows blocks m₂) (hLength : bytes.length = 4) :
    m.Grows (⟨.cell s, m.cursor⟩ :: blocks)
      { m₂ with data := m₂.data ++ [⟨m.cursor, bytes⟩] } where
  tiles := (h.trans h').tiles
  fits := (h.trans h').fits
  data := by
    obtain ⟨added, hAdded, hApart, hFills⟩ := h'.data
    have hCell : Segment.Fills ⟨m.cursor, bytes⟩ ⟨.cell s, m.cursor⟩ := ⟨rfl, hLength, rfl⟩
    refine ⟨added ++ [⟨m.cursor, bytes⟩], by rw [hAdded, hData, List.append_assoc],
      List.pairwise_append.mpr ⟨hApart, List.pairwise_singleton _ _, fun t ht t' ht' => ?_⟩,
      fun t ht => ?_⟩
    · -- the cell is written last, but it stands before the ranges that were handed out meanwhile
      obtain rfl := List.mem_singleton.mp ht'
      obtain ⟨b, hb, hFill⟩ := hFills t ht
      have hStop := (h.tiles.inside _ (List.mem_singleton_self _)).2
      have hStart := (h'.tiles.inside b hb).1
      rw [← hCell.stop_eq] at hStop
      rw [← hFill.offset] at hStart
      exact .inr (Nat.le_trans hStop hStart)
    · rcases List.mem_append.mp ht with ht | ht
      · obtain ⟨b, hb, hFill⟩ := hFills t ht
        exact ⟨b, List.mem_cons_of_mem _ hb, hFill⟩
      · obtain rfl := List.mem_singleton.mp ht
        exact ⟨_, List.mem_cons_self, hCell⟩
  strings := (h.trans h').strings

end Grows

end Memory

theorem Request.serve_grows {r : Request} {m m' : Memory} {start : Nat}
    (h : r.serve m = .ok start m') :
    m.Grows (if r.isPlaced m then [] else [⟨r, start⟩]) m' := by
  obtain ⟨hPlaced, rfl⟩ | ⟨hPlaced, hFits, rfl, rfl⟩ := serve_eq_ok h
  · rw [if_pos hPlaced]
    exact .refl _
  · rw [hPlaced]
    exact .placed m r hFits

theorem Request.serveAll_grows {rs : List Request} {m m' : Memory} {blocks : List Block}
    (h : serveAll rs m = .ok blocks m') : m.Grows blocks m' := by
  induction rs generalizing m blocks with
  | nil =>
    cases h
    exact .refl _
  | cons r rs ih =>
    obtain ⟨start, m₁, rest, hServe, hRest, rfl⟩ := serveAll_cons_eq_ok_iff.mp h
    exact (serve_grows hServe).trans (ih hRest)

/-- The given ranges are handed out for the given requests between `m` and `m'`; besides that, only
initial data are written. -/
def Memory.Hands (m : Memory) (rs : List Request) (blocks : List Block) (m' : Memory) : Prop :=
  ∃ m₁, Request.serveAll rs m = .ok blocks m₁ ∧ m'.cursor = m₁.cursor ∧ m'.strings = m₁.strings ∧
    m₁.data <+: m'.data

theorem Memory.Hands.of_serveAll {m m' : Memory} {rs : List Request} {blocks : List Block}
    (h : Request.serveAll rs m = .ok blocks m') : m.Hands rs blocks m' :=
  ⟨m', h, rfl, rfl, List.prefix_refl _⟩

def Memory.Serves {α : Type} (rs : List Request) (m : Memory)
    (r : EStateM.Result (Located CodeError) Memory α) : Prop :=
  match r with
  | .ok _ m' => ∃ blocks, Request.serveAll rs m = .ok blocks m'
  | .error _ m' => m' = m

theorem Request.serve_serves (r : Request) {α : Type} (f : Nat → α) (m : Memory) :
    Memory.Serves [r] m ((r.serve >>= fun a => pure (f a) : Alloc α) m) := by
  cases hServe : r.serve m with
  | ok start m₁ =>
    rw [Action.bind_of_ok hServe]
    exact ⟨_, serveAll_singleton hServe⟩
  | error e m₁ =>
    rw [Action.bind_of_error hServe]
    exact serve_eq_error hServe

namespace Global

theorem cellWord?_serves (g : Global Ty) (m : Memory) :
    Memory.Serves g.requests.tail m (g.cellWord? m) := by
  rw [cellWord?, requests, List.tail_cons]
  split
  · cases g.init with
    | some init => rfl
    | none =>
      exact (Request.array g.name.span g.ty).serve_serves (fun a => some (UInt32.ofNat a)) m
  · cases g.init with
    | none => exact ⟨[], rfl⟩
    | some init =>
      simp only [map_eq_pure_bind]
      cases init with
      | const ty s value => exact ⟨[], rfl⟩
      | string ty s text =>
        simp only [initialWord, bind_assoc, pure_bind]
        exact (Request.string s text).serve_serves (fun a => some (UInt32.ofNat a)) m
      | unary ty s op fixity operand =>
        cases op with
        | negate =>
          cases operand with
          | const ty' s' value => exact ⟨[], rfl⟩
          | _ => rfl
        | _ => rfl
      | _ => rfl

theorem place_hands (g : Global Ty) (m : Memory) :
    match g.place m with
    | .ok cell m' => ∃ blocks, m.Hands g.requests blocks m' ∧ m.Grows blocks m' ∧
        ⟨.cell g.name.span, cell⟩ ∈ blocks
    | .error _ m' => ∃ served blocks, served <+: g.requests ∧ m.Hands served blocks m' ∧
        m.Grows blocks m' := by
  have hRequests : g.requests = .cell g.name.span :: g.requests.tail := rfl
  cases hCell : Memory.alloc 4 g.name.span m with
  | error e m₁ =>
    obtain rfl := Memory.alloc_eq_error hCell
    rw [place, Action.bind_of_error hCell]
    exact ⟨[], [], List.nil_prefix, .of_serveAll rfl, .refl _⟩
  | ok cell m₁ =>
    have hServed := Request.serveAll_singleton (r := .cell g.name.span) hCell
    obtain ⟨hFits, rfl, rfl⟩ := (Memory.alloc_eq_ok_iff ..).mp hCell
    have hGrows := Request.serveAll_grows hServed
    have hWord := g.cellWord?_serves { m with cursor := m.cursor + 4 }
    rw [place, Action.bind_of_ok hCell]
    cases hRun : g.cellWord? { m with cursor := m.cursor + 4 } with
    | error e m₂ =>
      rw [hRun] at hWord
      obtain rfl := hWord
      rw [Action.bind_of_error hRun, hRequests]
      exact ⟨_, _, List.prefix_append [_] _, .of_serveAll hServed, hGrows⟩
    | ok word? m₂ =>
      rw [hRun] at hWord
      obtain ⟨blocks, hRest⟩ := hWord
      have hAll := Request.serveAll_append hServed hRest
      have hGrows' := Request.serveAll_grows hRest
      rw [Action.bind_of_ok hRun]
      cases word? with
      | none => exact ⟨_, .of_serveAll hAll, hGrows.trans hGrows', List.mem_cons_self⟩
      | some w =>
        exact ⟨_, ⟨m₂, hAll, rfl, rfl, List.prefix_append _ _⟩,
          hGrows.fillCell rfl hGrows' rfl, List.mem_cons_self⟩

end Global

namespace Builder

/-- The module after an item was tried, whether or not it could be added. -/
def after (b : Builder) (item : Item Ty) : Builder :=
  match addItem item b with
  | .ok _ b' => b'
  | .error _ b' => b'

def afterAll (b : Builder) (items : List (Item Ty)) : Builder := items.foldl after b

theorem afterAll_append (b : Builder) (items more : List (Item Ty)) :
    b.afterAll (items ++ more) = (b.afterAll items).afterAll more :=
  List.foldl_append

/-- The ranges that one call hands out: those of all its requests or, if it fails, of the first. -/
def Hands (b : Builder) (item : Item Ty) (blocks : List Block) : Prop :=
  ∃ served, b.memory.Hands served blocks (b.after item).memory ∧
    match addItem item b with
    | .ok .. => served = item.requests
    | .error .. => served <+: item.requests

/-- The ranges that are handed out while the given items are tried, in their order. -/
inductive HandsAll : Builder → List (Item Ty) → List Block → Prop
  | nil {b} : HandsAll b [] []
  | cons {b item items blocks log} :
      b.Hands item blocks → HandsAll (b.after item) items log →
        HandsAll b (item :: items) (blocks ++ log)

structure Grows (b : Builder) (blocks : List Block) (b' : Builder) : Prop where
  memory : b.memory.Grows blocks b'.memory
  globals : ∃ added, b'.globals = added ++ b.globals ∧
    ∀ g ∈ added, ∃ c ∈ blocks, ∃ s, c.request = .cell s ∧ c.start = g.2.1

theorem Grows.refl (b : Builder) : b.Grows [] b where
  memory := .refl b.memory
  globals := ⟨[], rfl, by simp⟩

theorem Grows.trans {b b₁ b₂ : Builder} {blocks blocks' : List Block} (h : b.Grows blocks b₁)
    (h' : b₁.Grows blocks' b₂) : b.Grows (blocks ++ blocks') b₂ where
  memory := h.memory.trans h'.memory
  globals := by
    obtain ⟨added, hAdded, hCells⟩ := h.globals
    obtain ⟨added', hAdded', hCells'⟩ := h'.globals
    refine ⟨added' ++ added, by rw [hAdded', hAdded, List.append_assoc], fun g hg => ?_⟩
    rcases List.mem_append.mp hg with hg | hg
    · obtain ⟨c, hc, hCell⟩ := hCells' g hg
      exact ⟨c, List.mem_append_right _ hc, hCell⟩
    · obtain ⟨c, hc, hCell⟩ := hCells g hg
      exact ⟨c, List.mem_append_left _ hc, hCell⟩

theorem exists_hands (b : Builder) (item : Item Ty) :
    ∃ blocks, b.Hands item blocks ∧ b.Grows blocks (b.after item) := by
  cases item with
  | global g =>
    have hPlace := g.place_hands b.memory
    simp only [Hands, after, addItem, addGlobal]
    cases hRun : g.place b.memory with
    | ok cell m =>
      rw [hRun] at hPlace
      obtain ⟨blocks, hHands, hGrows, hCell⟩ := hPlace
      refine ⟨blocks, ⟨_, hHands, rfl⟩, hGrows, [_], rfl, fun p hp => ?_⟩
      obtain rfl := List.mem_singleton.mp hp
      exact ⟨_, hCell, _, rfl, rfl⟩
    | error e m =>
      rw [hRun] at hPlace
      obtain ⟨served, blocks, hPrefix, hHands, hGrows⟩ := hPlace
      exact ⟨blocks, ⟨served, hHands, hPrefix⟩, hGrows, [], rfl, by simp⟩
  | function f =>
    have hServes : Serves (Stmt.requestsAll f.body) b.memory
        (f.emit b.globals ⟨b.memory, [], []⟩) := f.emit_serves _
    simp only [Hands, after, addItem, addFunction]
    cases hRun : f.emit b.globals ⟨b.memory, [], []⟩ with
    | ok fn s =>
      rw [hRun] at hServes
      obtain ⟨blocks, hServed⟩ := hServes
      exact ⟨blocks, ⟨_, .of_serveAll hServed, rfl⟩, Request.serveAll_grows hServed, [], rfl,
        by simp⟩
    | error e s =>
      rw [hRun] at hServes
      obtain ⟨served, blocks, hPrefix, hServed⟩ := hServes
      exact ⟨blocks, ⟨served, .of_serveAll hServed, hPrefix⟩, Request.serveAll_grows hServed, [],
        rfl, by simp⟩

theorem exists_handsAll (b : Builder) (items : List (Item Ty)) :
    ∃ log, b.HandsAll items log ∧ b.Grows log (b.afterAll items) := by
  induction items generalizing b with
  | nil => exact ⟨[], .nil, .refl b⟩
  | cons item items ih =>
    obtain ⟨blocks, hHands, hGrows⟩ := b.exists_hands item
    obtain ⟨log, hRest, hGrows'⟩ := ih (b.after item)
    exact ⟨blocks ++ log, .cons hHands hRest, hGrows.trans hGrows'⟩

/-- The layout of a module in the making, when the given ranges have been handed out. -/
structure Laid (b : Builder) (log : List Block) : Prop where
  cursor_pos : 1 ≤ b.memory.cursor
  cursor_le : b.memory.cursor ≤ Wasm.pageSize
  tiles : Block.Tiles 1 log b.memory.cursor
  inside : ∀ c ∈ log, 1 ≤ c.start ∧ c.stop ≤ b.memory.cursor
  disjoint : log.Pairwise fun c d => c.stop ≤ d.start
  segments : ∀ t ∈ b.memory.data, ∃ c ∈ log, t.Fills c
  apart : b.memory.data.Pairwise Segment.Apart
  globals : ∀ g ∈ b.globals, ∃ c ∈ log, ∃ s, c.request = .cell s ∧ c.start = g.2.1
  strings : ∀ p ∈ b.memory.strings, ∃ c ∈ log, ∃ s text,
    c.request = .string s text ∧ p = (s.lo, c.start)

theorem Grows.laid {b : Builder} {log : List Block} (h : empty.Grows log b) : b.Laid log where
  cursor_pos := h.memory.tiles.le
  cursor_le := Nat.le_trans h.memory.fits (by decide)
  tiles := h.memory.tiles
  inside := h.memory.tiles.inside
  disjoint := h.memory.tiles.disjoint
  segments := by
    obtain ⟨added, hData, _, hFills⟩ := h.memory.data
    rw [hData]
    exact hFills
  apart := by
    obtain ⟨added, hData, hApart, _⟩ := h.memory.data
    rw [hData]
    exact hApart
  globals := by
    obtain ⟨added, hAdded, hCells⟩ := h.globals
    rw [hAdded]
    simpa [empty] using hCells
  strings := by
    obtain ⟨added, hAdded, hStarts⟩ := h.memory.strings
    rw [hAdded]
    simpa [empty, Memory.empty] using hStarts

end Builder

theorem Request.length_pos {r : Request} (h : r.isArray = false) : 0 < r.length := by
  cases r with
  | cell s => exact Nat.zero_lt_succ 3
  | string s text => simp [length, Memory.stringBytes]
  | array s ty => cases h

namespace Builder

theorem Laid.apart_toModule {b : Builder} {log : List Block} (h : b.Laid log) :
    b.toModule.data.Pairwise Segment.Apart :=
  (Segment.sort_perm b.memory.data).symm.pairwise h.apart fun hApart => hApart.symm

theorem Laid.offsets_increase {b : Builder} {log : List Block} (h : b.Laid log) :
    b.toModule.data.Pairwise fun s t => s.offset < t.offset := by
  have hPerm : b.toModule.data.Perm b.memory.data := Segment.sort_perm b.memory.data
  have hNonempty : ∀ s ∈ b.toModule.data, s.offset < s.stop := by
    intro s hs
    obtain ⟨c, _, hFills⟩ := h.segments s (hPerm.mem_iff.mp hs)
    have hPos := Request.length_pos hFills.notArray
    rw [Segment.stop, hFills.length]
    omega
  refine ((Segment.sort_pairwise b.memory.data).and h.apart_toModule).imp_of_mem ?_
  rintro s t hs ht ⟨hLe, hStop | hStop⟩
  · exact Nat.lt_of_lt_of_le (hNonempty s hs) hStop
  · have hLt := hNonempty t ht
    omega

/-- The layout of linear memory after any sequence of calls, some of which may have failed. -/
theorem laid_afterAll (items : List (Item Ty)) :
    ∃ log, empty.HandsAll items log ∧ (empty.afterAll items).Laid log ∧
      (∀ more, (empty.afterAll items).memory.cursor ≤
        (empty.afterAll (items ++ more)).memory.cursor) ∧
      (∀ len span m e m', Memory.alloc len span m = .error e m' → m' = m) ∧
      (empty.afterAll items).toModule.data.Perm (empty.afterAll items).memory.data ∧
      (empty.afterAll items).toModule.data.Pairwise fun s t => s.offset < t.offset := by
  obtain ⟨log, hHands, hGrows⟩ := empty.exists_handsAll items
  refine ⟨log, hHands, hGrows.laid, fun more => ?_, fun _ _ _ _ _ => Memory.alloc_eq_error,
    Segment.sort_perm _, hGrows.laid.offsets_increase⟩
  obtain ⟨_, _, hMore⟩ := (empty.afterAll items).exists_handsAll more
  rw [afterAll_append]
  exact hMore.memory.tiles.le

end Builder

end MiniC
