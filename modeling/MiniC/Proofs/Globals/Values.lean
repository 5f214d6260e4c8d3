import MiniC.Proofs.Arithmetic.Negation
import MiniC.Proofs.Arrays.Declaration
import MiniC.Proofs.Globals.Loading
import MiniC.Proofs.Heights.Program
import MiniC.Proofs.Literals.Addresses
import MiniC.Proofs.Visibility.Items

/-! # Initial values of globals

A global may start with a literal or with the negative of a number.  Its value is found without
code, and the word of its cell is the one that the code of the initializer would leave: negation
wraps around in both and flips the sign bit of floats, and a string is placed behind the cell, where
code for the same literal finds it.
-/
namespace MiniC
set_option autoImplicit false

open Wasm (Code Instr Runtime State)

namespace Expr

/-- A literal, or a minus sign before a number. -/
inductive IsLiteral : Expr Ty → Prop where
  | const {ty : Ty} {s : Span} {value : Constant} : IsLiteral (const ty s value)
  | string {ty : Ty} {s : Span} {text : String} : IsLiteral (string ty s text)
  | negated {ty ty' : Ty} {s s' : Span} {fixity : Fixity} {value : Constant} :
    IsLiteral (unary ty s .negate fixity (const ty' s' value))

end Expr

section

variable {x : Ident} {e : Expr Ty} {m m' : Memory} {w : UInt32}

theorem initialWord_of_not_isLiteral (h : ¬e.IsLiteral) :
    initialWord x e m = .error ⟨e.span, .nonConstantGlobal x.name⟩ m := by
  unfold initialWord
  split
  · exact absurd .const h
  · exact absurd .string h
  · exact absurd .negated h
  · rfl

theorem initialWord_of_isLiteral (h : e.IsLiteral) {s : Span} {name : String} :
    initialWord x e m ≠ .error ⟨s, .nonConstantGlobal name⟩ m' := by
  have hString (t : Span) (text : String) :
      Ends (fun c => ∃ n, c = .nonConstantGlobal n) (fun _ => True)
        (Memory.placeString text t) :=
    Ends.placeString (by rintro _ _ ⟨n, hn⟩; cases hn) text t
  intro hError
  cases h with
  | const => cases hError
  | negated => cases hError
  | @string ty t text =>
    exact ((hString t text).map (R := fun _ => True) fun _ _ => trivial).error hError ⟨name, rfl⟩

theorem ofNat_toInt32 {a : Nat} (h : a ≤ Wasm.pageSize) :
    (UInt32.ofNat a).toInt32 = wordOf a := by
  rw [wordOf_of_le h]
  rfl

theorem Constant.exec_push (value : Constant) (R : Runtime) (σ : State) :
    Code.exec R [value.push] σ =
      .ok () { σ with stack := .ofWord value.ty.valType value.word :: σ.stack } := by
  cases value with
  | int a => exact Code.exec_i32Const R a σ
  | float x => exact Code.exec_pure (r := some (.f32 x)) [] rfl rfl rfl

/-- The code of a negated number leaves the number that is put into a cell. -/
theorem exec_negated_constant (globals : Globals) (s s' : Span) (fixity : Fixity)
    (value : Constant) (frame : Frame) :
    ∃ code, (Expr.unary value.ty s .negate fixity (.const value.ty s' value)).emit globals frame =
        .ok code frame ∧
      ∀ (R : Runtime) (σ : State), Code.exec R code σ =
        .ok () { σ with stack := .ofWord value.ty.valType value.negated.word :: σ.stack } := by
  cases value with
  | int a =>
    refine ⟨[.i32Const 0] ++ [.i32Const a] ++ [.numeric .i32 .sub], rfl, fun R σ => ?_⟩
    rw [Code.exec_append (.append (.plain rfl) (.plain rfl)) (.plain rfl),
      Code.exec_append (.plain rfl) (.plain rfl), bind_assoc,
      Action.bind_of_ok (Code.exec_i32Const R 0 σ), Action.bind_of_ok (Code.exec_i32Const R a _)]
    exact Code.exec_zero_sub R a σ
  | float x =>
    refine ⟨[.f32Const x] ++ [.numeric .f32 .neg], rfl, fun R σ => ?_⟩
    have hNumber : Code.exec R [.f32Const x] σ = .ok () { σ with stack := .f32 x :: σ.stack } :=
      (Constant.float x).exec_push R σ
    rw [Code.exec_append (.plain rfl) (.plain rfl), Action.bind_of_ok hNumber]
    exact Code.exec_pure (r := some (.f32 x.neg)) [.f32 x] rfl rfl rfl

variable {sigs : Signatures} {occurs : Ident → Ty → Prop}

/-- The word of an initial value is the one that the code of the initializer leaves, wherever the
strings that are known have kept their addresses. -/
theorem exec_of_initialWord (he : e.WellTyped sigs occurs) (h : initialWord x e m = .ok w m')
    (hStrings : ∀ p ∈ m'.strings, p.2 ≤ Wasm.pageSize) (globals : Globals) {frame : Frame}
    (hKeeps : m'.Keeps frame.memory) :
    ∃ code, e.emit globals frame = .ok code frame ∧ ∀ (R : Runtime) (σ : State),
      Code.exec R code σ = .ok () { σ with stack := .ofWord e.info.valType w :: σ.stack } := by
  unfold initialWord at h
  split at h
  · next ty s value =>
    cases h
    obtain rfl : ty = value.ty := he
    exact ⟨[value.push], rfl, value.exec_push⟩
  · next ty s text =>
    obtain rfl : ty = .pointer .char := he
    obtain ⟨a, m₁, hPlace, hWord⟩ := Action.bind_eq_ok_iff.mp h
    obtain ⟨rfl, rfl⟩ := Action.pure_eq_ok_iff.mp hWord
    have hText := (Memory.placeString_texts hPlace).1
    have hAgain : Memory.placeString text s frame.memory = .ok a frame.memory := by
      rw [Memory.placeString, Memory.get_bind, hKeeps _ _ hText]
      rfl
    refine ⟨[pushAddress a], ?_, fun R σ => ?_⟩
    · have hEmit : Emit.inMemory (Memory.placeString text s) frame = .ok a frame :=
        Emit.inMemory_eq_ok_iff.mpr ⟨_, hAgain, rfl⟩
      exact Action.bind_of_ok hEmit
    · have hPage : a ≤ Wasm.pageSize := hStrings _ (Table.mem_of_lookup hText)
      have hWord : Value.ofWord (Ty.pointer .char).valType (UInt32.ofNat a) = .i32 (wordOf a) :=
        congrArg Value.i32 (ofNat_toInt32 hPage)
      rw [show (Expr.string (Ty.pointer .char) s text).info = .pointer .char from rfl, hWord]
      exact Code.exec_pushAddress R a σ
  · next ty s fixity ty' s' value =>
    cases h
    obtain ⟨hOperand, hTy⟩ := he
    obtain rfl : ty' = value.ty := hOperand
    obtain ⟨-, rfl⟩ := UnaryOp.type_negate_eq_ok_iff.mp hTy
    exact exec_negated_constant globals s s' fixity value frame
  · cases h

end

namespace Global

variable {g : Global Ty} {e : Expr Ty} {m m' : Memory} {cell : Nat}

/-- A global with an initializer that is given a cell has the word of the initial value in it. -/
theorem initialWord_of_place (h : g.place m = .ok cell m') (hInit : g.init = some e) :
    cell + 4 ≤ Wasm.pageSize ∧ ∃ w m₁ m₂, initialWord g.name e m₁ = .ok w m₂ ∧
      m' = { m₂ with data := m₂.data ++ [⟨cell, wordBytes w⟩] } := by
  simp only [place, Action.bind_eq_ok_iff] at h
  obtain ⟨_, m₁, hAlloc, word?, m₂, hWord, hRest⟩ := h
  obtain ⟨hFits, rfl, -⟩ := (Memory.alloc_eq_ok_iff ..).mp hAlloc
  rw [cellWord?, hInit] at hWord
  split at hWord
  · cases hWord
  · obtain ⟨w, hInitial, rfl⟩ := Action.map_eq_ok_iff.mp hWord
    cases hRest
    exact ⟨hFits, w, m₁, m₂, hInitial, rfl⟩

/-- If there is room for the cell, only the word for it can be missing. -/
theorem place_of_room (h : m.cursor + 4 ≤ Wasm.pageSize) :
    g.place m = (g.cellWord? >>= fun word? => do
      match word? with
      | some w => Memory.fill m.cursor (wordBytes w)
      | none => pure ()
      return m.cursor) { m with cursor := m.cursor + 4 } :=
  Action.bind_of_ok ((Memory.alloc_eq_ok_iff ..).mpr ⟨h, rfl, rfl⟩)

theorem place_array (h : m.cursor + 4 ≤ Wasm.pageSize) (hInit : g.init = some e)
    (hArray : g.ty.isArray = true) :
    ∃ m', g.place m = .error ⟨e.span, .arrayInitializer⟩ m' := by
  have hWord : g.cellWord? { m with cursor := m.cursor + 4 } =
      .error ⟨e.span, .arrayInitializer⟩ { m with cursor := m.cursor + 4 } := by
    rw [cellWord?, if_pos hArray, hInit]
    rfl
  rw [place_of_room h, Action.bind_of_error hWord]
  exact ⟨_, rfl⟩

theorem place_nonConstant_iff (h : m.cursor + 4 ≤ Wasm.pageSize) (hInit : g.init = some e)
    (hArray : g.ty.isArray = false) (s : Span) (name : String) :
    (∃ m', g.place m = .error ⟨s, .nonConstantGlobal name⟩ m') ↔
      ¬e.IsLiteral ∧ s = e.span ∧ name = g.name.name := by
  have hWord : g.cellWord? = some <$> initialWord g.name e := by
    rw [cellWord?, if_neg (by rw [hArray]; simp), hInit]
  rw [place_of_room h, hWord]
  cases hRun : initialWord g.name e { m with cursor := m.cursor + 4 } with
  | ok w m₁ =>
    rw [Action.bind_of_ok (Action.map_of_ok hRun)]
    constructor
    · rintro ⟨_, ⟨⟩⟩
    · rintro ⟨hLiteral, -⟩
      cases hRun.symm.trans (initialWord_of_not_isLiteral hLiteral)
  | error error m₁ =>
    rw [Action.bind_of_error (Action.map_of_error hRun)]
    constructor
    · rintro ⟨_, ⟨⟩⟩
      by_cases hLiteral : e.IsLiteral
      · exact absurd hRun (initialWord_of_isLiteral hLiteral)
      · cases hRun.symm.trans (initialWord_of_not_isLiteral hLiteral)
        exact ⟨hLiteral, rfl, rfl⟩
    · rintro ⟨hLiteral, rfl, rfl⟩
      cases hRun.symm.trans (initialWord_of_not_isLiteral hLiteral)
      exact ⟨_, rfl⟩

end Global

namespace Builder

variable {b b' : Builder} {log : List Block}

/-- Every segment is in memory when the module is loaded. -/
theorem Laid.within_initialMemory (h : b.Laid log) {t : Wasm.Segment} (ht : t ∈ b.memory.data) :
    t.Within b.toModule.initialMemory ∧ b.toModule.initialMemory.length = Wasm.pageSize := by
  have hPerm : b.toModule.data.Perm b.memory.data := Wasm.Segment.sort_perm b.memory.data
  have hInside : ∀ u ∈ b.toModule.data,
      u.stop ≤ (List.replicate Wasm.pageSize (0 : UInt8)).length := by
    intro u hu
    obtain ⟨c, hc, hFills⟩ := h.segments u (hPerm.mem_iff.mp hu)
    rw [List.length_replicate, hFills.stop_eq]
    exact Nat.le_trans (h.inside c hc).2 h.cursor_le
  constructor
  · exact Wasm.Segment.within_writeAll h.apart_toModule hInside (hPerm.mem_iff.mpr ht)
  · exact (Wasm.Segment.length_writeAll hInside).trans List.length_replicate

theorem Laid.strings_le (h : b.Laid log) : ∀ p ∈ b.memory.strings, p.2 ≤ Wasm.pageSize := by
  intro p hp
  obtain ⟨c, hc, s, text, -, rfl⟩ := h.strings p hp
  have hStop := (h.inside c hc).2
  rw [Block.stop] at hStop
  exact Nat.le_trans (Nat.le_of_add_right_le hStop) h.cursor_le

end Builder

open Builder (addGlobal)

/-- With the module built so far, the cell of the global holds the bytes of a value: the value that
code for the initializer leaves, and that the first read of the global gives, whatever is added to
the module. -/
structure Global.StartsWith (g : Global Ty) (e : Expr Ty) (b : Builder) (cell : Nat)
    (bytes : List UInt8) (v : Value) : Prop where
  found : List.lookup g.name.name b.globals = some (cell, g.ty)
  length : bytes.length = 4
  segment : ∀ after, (b.afterAll after).toModule.data.filter (fun t => t.offset = cell) =
    [⟨cell, bytes⟩]
  decodes : Value.ofWord g.ty.valType (World.wordOfBytes bytes) = v
  emitted : ∀ globals frame, b.memory.Keeps frame.memory →
    ∃ code, e.emit globals frame = .ok code frame ∧
      ∀ (R : Runtime) (σ : State), Code.exec R code σ = .ok () { σ with stack := v :: σ.stack }
  read : ∀ globals frame s, List.lookup g.name.name frame.names = none →
    List.lookup g.name.name globals = some (cell, g.ty) →
    ∃ code, (Expr.var g.ty s g.name).emit globals frame = .ok code frame ∧
      ∀ (after : List (Item Ty)) (R : Runtime) (σ : State),
        σ.world.memory = (b.afterAll after).toModule.initialMemory →
        Code.exec R code σ = .ok () { σ with stack := v :: σ.stack }

theorem Global.exists_startsWith {sigs : Signatures} {occurs : Ident → Ty → Prop} {g : Global Ty}
    {e : Expr Ty} (hInit : g.init = some e) (he : e.WellTypedAs sigs occurs g.ty)
    (before : List (Item Ty)) {b : Builder}
    (h : addGlobal g (Builder.empty.afterAll before) = .ok () b) :
    ∃ cell bytes v, g.StartsWith e b cell bytes v := by
  have hSame : b = Builder.empty.afterAll (before ++ [.global g]) := by
    rw [Builder.afterAll_append]
    have hAfter : (Builder.empty.afterAll before).after (.global g) = b :=
      Builder.after_of_addItem h
    exact hAfter.symm
  have hLaid (after : List (Item Ty)) : ∃ log, (b.afterAll after).Laid log := by
    obtain ⟨log, -, hLaid, -⟩ := Builder.laid_afterAll (before ++ [.global g] ++ after)
    rw [Builder.afterAll_append, ← hSame] at hLaid
    exact ⟨log, hLaid⟩
  obtain ⟨log, hNow⟩ := hLaid []
  obtain ⟨cell, m, hPlace, rfl⟩ := Builder.addGlobal_eq_ok h
  obtain ⟨hPage, w, m₁, m₂, hWord, rfl⟩ := Global.initialWord_of_place hPlace hInit
  have hType : g.ty.valType = e.info.valType := Ty.valType_of_isAssignable he.2
  refine ⟨cell, wordBytes w, .ofWord g.ty.valType w, ?_⟩
  constructor
  · exact List.lookup_cons_self
  · rfl
  · intro after
    obtain ⟨log', hLaid'⟩ := hLaid after
    refine Wasm.Segment.filter_offset hLaid'.offsets_increase (t := ⟨cell, wordBytes w⟩) ?_
    refine (Wasm.Segment.sort_perm _).mem_iff.mpr (Builder.data_afterAll _ after ?_)
    exact List.mem_append_right _ List.mem_cons_self
  · rw [World.wordOfBytes_wordBytes]
  · intro globals frame hKeeps
    rw [hType]
    exact exec_of_initialWord he.1 hWord hNow.strings_le globals hKeeps
  · intro globals frame s hLocal hGlobal
    have hPlace? : frame.place? globals g.name.name = some (.cell cell g.ty.valType) := by
      rw [Frame.place?, hLocal, hGlobal]
      rfl
    refine ⟨_, Emit.readVariable_eq_ok_iff.mpr ⟨_, hPlace?, rfl, rfl⟩, fun after R σ hMemory => ?_⟩
    obtain ⟨log', hLaid'⟩ := hLaid after
    obtain ⟨hWithin, hLength⟩ := hLaid'.within_initialMemory (t := ⟨cell, wordBytes w⟩)
      (Builder.data_afterAll _ after (List.mem_append_right _ List.mem_cons_self))
    rw [← hMemory] at hWithin hLength
    have hHolds : (Place.cell cell g.ty.valType).Holds σ (.ofWord g.ty.valType w) :=
      World.load_of_within _ hWithin (by omega) (by omega)
    exact hHolds.exec_read R

/-- There is no syntax for an array outside of the functions. -/
theorem Global.isArray_of_parse {source : String} {p : Program Unit} {p' : Program Ty}
    (hParse : Program.parse source = .ok p) (hCheck : p.check = .ok p') {g : Global Ty}
    (hg : .global g ∈ p'.items) : g.ty.isArray = false := by
  obtain ⟨-, rfl, -⟩ := Program.check_eq_ok_iff_everyItem.mp hCheck
  obtain ⟨d, -, hTree⟩ :=
    Program.exists_derivation (Program.firstFlaw?_of_parse hParse) hParse
  have hItem : (Item.global g).erase ∈ d.tree.items := by
    rw [hTree]
    exact List.mem_map_of_mem hg
  obtain ⟨definition, -, hDefinition⟩ := List.mem_map.mp hItem
  cases definition with
  | function type x l params r body => cases hDefinition
  | global type x init semicolon =>
    obtain ⟨-, hType, -⟩ := Global.mk.inj (Item.global.inj hDefinition)
    rw [← hType]
    exact type.isArray_ty

/-- Whatever items a module was made of before, a global of a checked program that is accepted
starts with the value of its initializer.  If there is room for its cell, it is rejected for want of
a constant exactly if its initializer is no literal; but an initializer of an array is rejected as
such, whatever it is.  No source has such an array. -/
theorem Global.initial_values {p : Program Unit} {p' : Program Ty} (hCheck : p.check = .ok p')
    {g : Global Ty} (hg : .global g ∈ p'.items) {e : Expr Ty} (hInit : g.init = some e)
    (before : List (Item Ty)) :
    (∀ b, addGlobal g (Builder.empty.afterAll before) = .ok () b →
      ∃ cell bytes v, g.StartsWith e b cell bytes v) ∧
    ((Builder.empty.afterAll before).memory.cursor + 4 ≤ Wasm.pageSize →
      (∀ s name, (∃ b, addGlobal g (Builder.empty.afterAll before) =
          .error ⟨s, .nonConstantGlobal name⟩ b) ↔
        g.ty.isArray = false ∧ ¬e.IsLiteral ∧ s = e.span ∧ name = g.name.name) ∧
      (g.ty.isArray = true → ∃ b, addGlobal g (Builder.empty.afterAll before) =
        .error ⟨e.span, .arrayInitializer⟩ b)) ∧
    ∀ source, Program.parse source = .ok p → g.ty.isArray = false := by
  obtain ⟨sigs, hTyped⟩ := Program.wellTyped_of_check hCheck
  obtain ⟨scope, -, -, -, hWellTyped⟩ := hTyped.items.of_mem hg
  refine ⟨fun b h => Global.exists_startsWith hInit (hWellTyped e hInit) before h, fun hRoom => ?_,
    fun source hParse => Global.isArray_of_parse hParse hCheck hg⟩
  have hAdd (e' : Located CodeError) : (∃ b, addGlobal g (Builder.empty.afterAll before) =
      .error e' b) ↔ ∃ m, g.place (Builder.empty.afterAll before).memory = .error e' m := by
    rw [addGlobal]
    cases g.place (Builder.empty.afterAll before).memory with
    | ok cell m => simp
    | error e'' m => simp
  constructor
  · intro s name
    rw [hAdd]
    cases hArray : g.ty.isArray with
    | false => simpa using Global.place_nonConstant_iff hRoom hInit hArray s name
    | true =>
      obtain ⟨m', hError⟩ := Global.place_array hRoom hInit hArray
      rw [hError]
      simp
  · intro hArray
    exact (hAdd _).mpr (Global.place_array hRoom hInit hArray)

/-- A string that is placed behind the cell with its address. -/
def greeting : Global Unit :=
  ⟨⟨"s", .start⟩, .pointer .char, some (.string () .start "A")⟩

theorem Global.initial_values_greeting :
    ∃ (p' : Program Ty) (g : Global Ty) (b : Builder),
      (Program.mk [.global greeting]).check = .ok p' ∧ .global g ∈ p'.items ∧
      g.init = some (.string (.pointer .char) .start "A") ∧
      addGlobal g (Builder.empty.afterAll []) = .ok () b ∧
      (Builder.empty.afterAll []).memory.cursor + 4 ≤ Wasm.pageSize ∧
      (∃ cell bytes v, g.StartsWith (.string (.pointer .char) .start "A") b cell bytes v ∧
        cell = 1 ∧ v = .i32 5) ∧
      ¬∃ b', addGlobal g (Builder.empty.afterAll []) =
        .error ⟨.start, .nonConstantGlobal "s"⟩ b' := by
  let g : Global Ty :=
    ⟨⟨"s", .start⟩, .pointer .char, some (.string (.pointer .char) .start "A")⟩
  have hCheck : (Program.mk [.global greeting]).check = .ok ⟨[.global g]⟩ := rfl
  have hg : Item.global g ∈ (Program.mk [Item.global g]).items := List.mem_cons_self
  have hRoom : (Builder.empty.afterAll []).memory.cursor + 4 ≤ Wasm.pageSize := by decide
  obtain ⟨hAccepted, hRejected, -⟩ := Global.initial_values hCheck hg rfl []
  refine ⟨_, g, _, hCheck, hg, rfl, rfl, hRoom, ?_, ?_⟩
  · obtain ⟨cell, bytes, v, hStarts⟩ := hAccepted _ rfl
    obtain rfl : cell = 1 := congrArg Prod.fst (Option.some.inj hStarts.found.symm)
    have hSegment : [⟨1, [5, 0, 0, 0]⟩] = [Wasm.Segment.mk 1 bytes] := hStarts.segment []
    obtain rfl : [5, 0, 0, 0] = bytes :=
      congrArg Wasm.Segment.bytes (List.head_eq_of_cons_eq hSegment)
    exact ⟨1, _, v, hStarts, rfl, hStarts.decodes.symm⟩
  · rw [(hRejected hRoom).1]
    rintro ⟨-, hLiteral, -⟩
    exact hLiteral .string

/-- Two arrays, the second of which has the first one as its initializer. -/
def copiedArray : Program Unit :=
  ⟨[.global ⟨⟨"a", .start⟩, .array .char 3, none⟩,
    .global ⟨⟨"b", .start⟩, .array .char 3, some (.var () .start ⟨"a", .start⟩)⟩]⟩

/-- The initializer of the second array is no literal, but that is not why it is rejected. -/
theorem copiedArray_not_nonConstant :
    ∃ (p' : Program Ty) (first g : Global Ty) (e : Expr Ty), copiedArray.check = .ok p' ∧
      p'.items = [.global first, .global g] ∧ g.init = some e ∧ ¬e.IsLiteral ∧
      (Builder.empty.afterAll [.global first]).memory.cursor + 4 ≤ Wasm.pageSize ∧
      ∀ s name b, addGlobal g (Builder.empty.afterAll [.global first]) ≠
        .error ⟨s, .nonConstantGlobal name⟩ b := by
  refine ⟨_, _, _, _, rfl, rfl, rfl, nofun, by decide, ?_⟩
  rintro s name b ⟨⟩

end MiniC
