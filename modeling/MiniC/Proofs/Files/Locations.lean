import MiniC.CommandLine.FileTree

/-! # Where paths lead

A path leads to a location, at which a file stands or may be put.  Putting and removing a file changes
what stands at one location.  No path leads elsewhere after that, as the folders stay what they are.
-/
namespace MiniC.CommandLine.FileTree
set_option autoImplicit false

variable {t u : FileTree} {path text : String} {l : Location}

/-- The location of the file to which a path leads, or of the one that would be written there. -/
def locate (t : FileTree) (path : String) : Except FileError Location := do
  t.vacancy (← Path.ofString path)

/-- The folders of both trees are the same, and so is the one in which paths start. -/
structure SameFolders (t u : FileTree) : Prop where
  folders : u.folders = t.folders
  here : u.here = t.here

theorem text?_erase (t : FileTree) (l k : Location) :
    (t.erase l).text? k = if k = l then none else t.text? k := by
  simp only [erase, text?]
  induction t.files with
  | nil => simp
  | cons f files ih =>
    obtain ⟨a, s⟩ := f
    rw [List.filter_cons, List.lookup_cons]
    by_cases ha : a = l <;> by_cases hk : k = a <;> grind

theorem text?_put (t : FileTree) (l k : Location) (text : String) :
    (t.put l text).text? k = if k = l then some text else t.text? k := by
  have hCons : (t.put l text).text? k = if k = l then some text else (t.erase l).text? k := by
    rw [put, text?, List.lookup_cons]
    by_cases hk : k = l
    · simp [hk]
    · simp [hk, beq_eq_false_iff_ne.mpr hk, text?]
  rw [hCons, text?_erase]
  by_cases hk : k = l <;> simp [hk]

/-- A name that no folder has is the name of a file or still free. -/
theorem entry_of_not_isFolder {folder : Location} {name : String}
    (hName : name.utf8ByteSize ≤ Path.maxNameBytes)
    (hFolder : t.isFolder (folder ++ [name]) = false) :
    t.entry folder name =
      match t.text? (folder ++ [name]) with
      | some text => .ok (.file (folder ++ [name]) text)
      | none => .error .notFound := by
  simp only [entry, Nat.not_lt.mpr hName, hFolder]
  cases t.text? (folder ++ [name]) <;> rfl

theorem vacancy_eq_ok_iff {p : Path} :
    t.vacancy p = .ok l ↔ ∃ steps name folder, p.leaf? = some (steps, name) ∧
      p.toFolder = false ∧ t.walk (t.origin p) steps = .ok folder ∧
      name.utf8ByteSize ≤ Path.maxNameBytes ∧ t.isFolder (folder ++ [name]) = false ∧
      l = folder ++ [name] := by
  rw [vacancy]
  cases hLeaf : p.leaf? with
  | none => cases hWalk : t.walk (t.origin p) p.steps <;> simp [bind, Except.bind]
  | some leaf =>
    obtain ⟨steps, name⟩ := leaf
    cases hWalk : t.walk (t.origin p) steps with
    | error e => simp [hWalk, bind, Except.bind]
    | ok folder =>
      cases hSlash : p.toFolder with
      | true => simp [hWalk, bind, Except.bind]
      | false =>
        have hEq : l = folder ++ [name] ↔ folder ++ [name] = l := eq_comm
        simp only [bind, Except.bind, entry]
        grind

namespace SameFolders

theorem put (t : FileTree) (l : Location) (text : String) : t.SameFolders (t.put l text) :=
  ⟨rfl, rfl⟩

theorem erase (t : FileTree) (l : Location) : t.SameFolders (t.erase l) := ⟨rfl, rfl⟩

theorem symm (h : t.SameFolders u) : u.SameFolders t := ⟨h.folders.symm, h.here.symm⟩

theorem trans {v : FileTree} (h : t.SameFolders u) (h' : u.SameFolders v) : t.SameFolders v :=
  ⟨h'.folders.trans h.folders, h'.here.trans h.here⟩

variable (h : t.SameFolders u)

include h

theorem isFolder (l : Location) : u.isFolder l = t.isFolder l := by
  rw [FileTree.isFolder, FileTree.isFolder, h.folders]

theorem entry_folder {folder inner : Location} {name : String}
    (hEntry : t.entry folder name = .ok (.folder inner)) :
    u.entry folder name = .ok (.folder inner) := by
  revert hEntry
  simp only [entry, h.isFolder]
  grind

theorem walk {start folder : Location} {steps : List Step}
    (hWalk : t.walk start steps = .ok folder) : u.walk start steps = .ok folder := by
  fun_induction FileTree.walk t start steps with
  | case1 start => simpa [FileTree.walk] using hWalk
  | case2 start steps ih => simpa [FileTree.walk] using ih hWalk
  | case3 start steps ih => simpa [FileTree.walk] using ih hWalk
  | case4 start name steps inner hInner ih =>
    simpa [FileTree.walk, h.entry_folder hInner] using ih hWalk
  | case5 => cases hWalk
  | case6 => cases hWalk

/-- A path leads to the same location in both trees. -/
theorem locate (hLocate : t.locate path = .ok l) : u.locate path = .ok l := by
  cases hPath : Path.ofString path with
  | error e => simp [FileTree.locate, hPath, bind, Except.bind] at hLocate
  | ok p =>
    simp only [FileTree.locate, hPath, bind, Except.bind, vacancy_eq_ok_iff] at hLocate ⊢
    obtain ⟨steps, name, folder, hLeaf, hSlash, hWalk, hName, hFree, rfl⟩ := hLocate
    refine ⟨steps, name, folder, hLeaf, hSlash, ?_, hName, ?_, rfl⟩
    · rw [show u.origin p = t.origin p by rw [origin, origin, h.here]]
      exact h.walk hWalk
    · rw [h.isFolder, hFree]

end SameFolders

theorem find_of_vacancy {p : Path} (h : t.vacancy p = .ok l) :
    t.find p =
      match t.text? l with
      | some text => .ok (.file l text)
      | none => .error .notFound := by
  obtain ⟨steps, name, folder, hLeaf, hSlash, hWalk, hName, hFree, rfl⟩ := vacancy_eq_ok_iff.mp h
  rw [find, hSlash, hLeaf]
  simp only [hWalk, bind, Except.bind]
  exact entry_of_not_isFolder hName hFree

/-- Reading depends only on what stands at the location. -/
theorem read_of_locate (h : t.locate path = .ok l) :
    t.read path =
      match t.text? l with
      | some text => .ok text
      | none => .error .notFound := by
  cases hPath : Path.ofString path with
  | error e => simp [locate, hPath, bind, Except.bind] at h
  | ok p =>
    simp only [locate, hPath, bind, Except.bind] at h
    simp only [read, hPath, find_of_vacancy h, bind, Except.bind]
    cases t.text? l <;> rfl

theorem remove_of_locate (h : t.locate path = .ok l) :
    t.remove path =
      match t.text? l with
      | some _ => .ok (t.erase l)
      | none => .error .notFound := by
  cases hPath : Path.ofString path with
  | error e => simp [locate, hPath, bind, Except.bind] at h
  | ok p =>
    simp only [locate, hPath, bind, Except.bind] at h
    simp only [remove, hPath, find_of_vacancy h, bind, Except.bind]
    cases t.text? l <;> rfl

theorem write_eq_ok_iff :
    t.write path text = .ok u ↔ ∃ l, t.locate path = .ok l ∧ u = t.put l text := by
  rw [write, locate]
  cases Path.ofString path with
  | error e => simp [bind, Except.bind]
  | ok p =>
    simp only [bind, Except.bind, pure, Except.pure]
    cases t.vacancy p with
    | error e => simp
    | ok k => simp [eq_comm]

end MiniC.CommandLine.FileTree
