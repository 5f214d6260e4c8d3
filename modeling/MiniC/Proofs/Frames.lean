import MiniC.Code.Module
import MiniC.Proofs.Declarations

/-! # How lowering changes a frame

Slots and names are only added, every name at a slot of its own, and the address of a string literal
stays what it is once it is known.
-/
namespace MiniC
set_option autoImplicit false

open Wasm (ValType)

namespace Action

variable {ε σ α β : Type}

theorem bind_eq_ok_iff {x : EStateM ε σ α} {f : α → EStateM ε σ β} {s s'' : σ} {b : β} :
    (x >>= f) s = .ok b s'' ↔ ∃ a s', x s = .ok a s' ∧ f a s' = .ok b s'' := by
  change EStateM.bind x f s = .ok b s'' ↔ _
  rw [EStateM.bind]
  cases x s with
  | ok a s' =>
    constructor
    · intro h
      exact ⟨a, s', rfl, h⟩
    · rintro ⟨_, _, ⟨⟩, h⟩
      exact h
  | error e s' => simp

theorem pure_eq_ok_iff {a b : α} {s s' : σ} :
    (pure a : EStateM ε σ α) s = .ok b s' ↔ a = b ∧ s = s' := by
  change EStateM.Result.ok a s = .ok b s' ↔ _
  simp

theorem bind_of_ok {x : EStateM ε σ α} {f : α → EStateM ε σ β} {s s' : σ} {a : α}
    (h : x s = .ok a s') : (x >>= f) s = f a s' := by
  change EStateM.bind x f s = _
  rw [EStateM.bind, h]

theorem bind_of_error {x : EStateM ε σ α} {f : α → EStateM ε σ β} {s s' : σ} {e : ε}
    (h : x s = .error e s') : (x >>= f) s = .error e s' := by
  change EStateM.bind x f s = _
  rw [EStateM.bind, h]

theorem map_eq_ok_iff {x : EStateM ε σ α} {f : α → β} {s s' : σ} {b : β} :
    (f <$> x) s = .ok b s' ↔ ∃ a, x s = .ok a s' ∧ f a = b := by
  change EStateM.map f x s = .ok b s' ↔ _
  rw [EStateM.map]
  cases x s with
  | ok a s₁ =>
    constructor
    · rintro ⟨⟩
      exact ⟨a, rfl, rfl⟩
    · rintro ⟨_, ⟨⟩, rfl⟩
      rfl
  | error e s₁ => simp

theorem map_of_ok {x : EStateM ε σ α} {f : α → β} {s s' : σ} {a : α} (h : x s = .ok a s') :
    (f <$> x) s = .ok (f a) s' := by
  change EStateM.map f x s = _
  rw [EStateM.map, h]

theorem map_of_error {x : EStateM ε σ α} {f : α → β} {s s' : σ} {e : ε}
    (h : x s = .error e s') : (f <$> x) s = .error e s' := by
  change EStateM.map f x s = _
  rw [EStateM.map, h]

end Action

/-- A place for values of the given machine type. -/
def Place.HasType (slots : List ValType) (t : ValType) : Place → Prop
  | slot n => slots[n]? = some t
  | cell _ t' => t' = t

instance (slots : List ValType) (t : ValType) : (p : Place) → Decidable (p.HasType slots t)
  | .slot n => inferInstanceAs (Decidable (slots[n]? = some t))
  | .cell _ t' => inferInstanceAs (Decidable (t' = t))

namespace Frame

/-- Where a name lives at this point. -/
def place? (globals : Globals) (s : Frame) (x : String) : Option Place :=
  match List.lookup x s.names with
  | some n => some (.slot n)
  | none => (List.lookup x globals).map fun (address, ty) => .cell address ty.valType

/-- Lowering goes from one frame to another, making the given declarations in some order. -/
structure Declares (s : Frame) (declared : List (String × Ty)) (s' : Frame) : Prop where
  slots : s.slots <+: s'.slots
  texts : ∀ lo address, List.lookup lo s.memory.strings = some address →
    List.lookup lo s'.memory.strings = some address
  names : ∃ added : List ((String × Ty) × Nat), (added.map Prod.fst).Perm declared ∧
    s'.names = added.map (fun d => (d.1.1, d.2)) ++ s.names ∧
    (added.map Prod.snd).Pairwise (· > ·) ∧
    ∀ d ∈ added, s.slots.length ≤ d.2 ∧ s'.slots[d.2]? = some d.1.2.valType

theorem getElem?_of_prefix {l l' : List ValType} (h : l <+: l') {n : Nat} {ty : ValType}
    (hn : l[n]? = some ty) : l'[n]? = some ty := by
  obtain ⟨hLength, rfl⟩ := List.getElem?_eq_some_iff.mp hn
  exact List.prefix_iff_getElem?.mp h n hLength

namespace Declares

theorem refl (s : Frame) : s.Declares [] s where
  slots := List.prefix_refl s.slots
  texts _ _ h := h
  names := ⟨[], .refl [], rfl, .nil, by simp⟩

theorem trans {s s₁ s₂ : Frame} {a b : List (String × Ty)} (h₁ : s.Declares a s₁)
    (h₂ : s₁.Declares b s₂) : s.Declares (a ++ b) s₂ where
  slots := h₁.slots.trans h₂.slots
  texts lo address h := h₂.texts lo address (h₁.texts lo address h)
  names := by
    obtain ⟨added₁, hPerm₁, hNames₁, hOrder₁, hSlots₁⟩ := h₁.names
    obtain ⟨added₂, hPerm₂, hNames₂, hOrder₂, hSlots₂⟩ := h₂.names
    refine ⟨added₂ ++ added₁, ?_, ?_, ?_, ?_⟩
    · rw [List.map_append]
      exact List.perm_append_comm.trans (hPerm₁.append hPerm₂)
    · rw [hNames₂, hNames₁, List.map_append, List.append_assoc]
    · rw [List.map_append, List.pairwise_append]
      refine ⟨hOrder₂, hOrder₁, ?_⟩
      intro n hn m hm
      obtain ⟨d, hd, rfl⟩ := List.mem_map.mp hn
      obtain ⟨e, he, rfl⟩ := List.mem_map.mp hm
      have hLow := (List.getElem?_eq_some_iff.mp (hSlots₁ e he).2).1
      have hHigh := (hSlots₂ d hd).1
      omega
    · intro d hd
      rcases List.mem_append.mp hd with hd | hd
      · have hLength := h₁.slots.length_le
        exact ⟨Nat.le_trans hLength (hSlots₂ d hd).1, (hSlots₂ d hd).2⟩
      · exact ⟨(hSlots₁ d hd).1, getElem?_of_prefix h₂.slots (hSlots₁ d hd).2⟩

theorem perm {s s' : Frame} {a b : List (String × Ty)} (h : s.Declares a s') (hPerm : a.Perm b) :
    s.Declares b s' where
  slots := h.slots
  texts := h.texts
  names := by
    obtain ⟨added, hAdded, hRest⟩ := h.names
    exact ⟨added, hAdded.trans hPerm, hRest⟩

theorem names_eq {s s' : Frame} (h : s.Declares [] s') : s'.names = s.names := by
  obtain ⟨added, hPerm, hNames, -⟩ := h.names
  rw [List.map_eq_nil_iff.mp hPerm.eq_nil] at hNames
  exact hNames

theorem names_suffix {s s' : Frame} {a : List (String × Ty)} (h : s.Declares a s') :
    s.names <:+ s'.names := by
  obtain ⟨added, -, hNames, -⟩ := h.names
  rw [hNames]
  exact List.suffix_append _ _

end Declares

/-- The second frame is reached from the first. -/
def Below (s s' : Frame) : Prop := ∃ declared, s.Declares declared s'

theorem Declares.below {s s' : Frame} {a : List (String × Ty)} (h : s.Declares a s') :
    s.Below s' := ⟨a, h⟩

theorem Below.refl (s : Frame) : s.Below s := (Declares.refl s).below

theorem Below.trans {s s₁ s₂ : Frame} (h₁ : s.Below s₁) (h₂ : s₁.Below s₂) : s.Below s₂ := by
  obtain ⟨a, h₁⟩ := h₁
  obtain ⟨b, h₂⟩ := h₂
  exact (h₁.trans h₂).below

/-- Every name has a slot. -/
def Sound (s : Frame) : Prop := ∀ d ∈ s.names, d.2 < s.slots.length

theorem Sound.of_below {s s' : Frame} (hs : s.Sound) (h : s.Below s') : s'.Sound := by
  obtain ⟨a, h⟩ := h
  obtain ⟨added, -, hNames, -, hSlots⟩ := h.names
  intro d hd
  rw [hNames] at hd
  rcases List.mem_append.mp hd with hd | hd
  · obtain ⟨e, he, rfl⟩ := List.mem_map.mp hd
    exact (List.getElem?_eq_some_iff.mp (hSlots e he).2).1
  · exact Nat.lt_of_lt_of_le (hs d hd) h.slots.length_le

theorem mem_names_of_below {s s' : Frame} (h : s.Below s') {d : String × Nat} (hd : d ∈ s.names) :
    d ∈ s'.names := by
  obtain ⟨a, h⟩ := h
  exact h.names_suffix.subset hd

/-- A slot that no name has when it is made is never given to a name. -/
theorem unnamed_of_below {s s' : Frame} (h : s.Below s') {n : Nat} (hn : n < s.slots.length)
    (hFree : n ∉ s.names.map Prod.snd) : n ∉ s'.names.map Prod.snd := by
  obtain ⟨a, h⟩ := h
  obtain ⟨added, -, hNames, -, hSlots⟩ := h.names
  rw [hNames, List.map_append, List.mem_append, List.map_map]
  rintro (hn' | hn')
  · obtain ⟨d, hd, rfl⟩ := List.mem_map.mp hn'
    have hHigh := (hSlots d hd).1
    simp only [Function.comp_apply] at hn
    omega
  · exact hFree hn'

end Frame

namespace Emit

theorem newSlot_declares {ty : ValType} {s s' : Frame} {n : Nat} (h : newSlot ty s = .ok n s') :
    n = s.slots.length ∧ s'.slots = s.slots ++ [ty] ∧ s'.memory = s.memory ∧ s.Declares [] s' := by
  cases h
  refine ⟨rfl, rfl, rfl, List.prefix_append _ _, fun _ _ h => h, ?_⟩
  exact ⟨[], .refl [], rfl, .nil, by simp⟩

theorem declare_eq (x : Ident) (ty : Ty) (s : Frame) :
    declare x ty s = .ok s.slots.length { s with
      slots := s.slots ++ [ty.valType]
      names := (x.name, s.slots.length) :: s.names } := rfl

theorem declare_declares {x : Ident} {ty : Ty} {s s' : Frame} {n : Nat}
    (h : declare x ty s = .ok n s') :
    (x.name, n) ∈ s'.names ∧ s'.slots[n]? = some ty.valType ∧ s'.memory = s.memory ∧
      s.Declares [(x.name, ty)] s' := by
  cases h
  have hSlot : (s.slots ++ [ty.valType])[s.slots.length]? = some ty.valType := by simp
  refine ⟨List.mem_cons_self, hSlot, rfl, List.prefix_append _ _, fun _ _ h => h, ?_⟩
  exact ⟨[((x.name, ty), s.slots.length)], .refl _, rfl, by simp, by simp⟩

theorem get_bind {α : Type} (f : Frame → Emit α) (s : Frame) : (get >>= f) s = f s s := rfl

theorem resolve_eq (globals : Globals) (x : Ident) (s : Frame) :
    resolve globals x s =
      match s.place? globals x.name with
      | some p => .ok p s
      | none => .error ⟨x.span, .unresolved x.name⟩ s := by
  rw [resolve, get_bind, Frame.place?]
  cases List.lookup x.name s.names with
  | some n => rfl
  | none => cases List.lookup x.name globals <;> rfl

theorem resolve_eq_ok_iff {globals : Globals} {x : Ident} {s s' : Frame} {p : Place} :
    resolve globals x s = .ok p s' ↔ s.place? globals x.name = some p ∧ s = s' := by
  rw [resolve_eq]
  cases s.place? globals x.name <;> simp

end Emit

end MiniC
