import MiniC.CommandLine.Path
import MiniC.CommandLine.Run

/-! # A tree of files as a host

Files and folders are found by their locations, the names that lead to them from the root.  A file
is written only into a folder that exists, and folders are never made.

What an assembler does is up to it, as long as it ends with the status zero only after its product is
at the output path and nothing else has changed.  Two kinds are spelled out: a script copies its input
and has opened its output by then, and a program that needs the whole input opens the output last.
They differ where the output path leads to the input.
-/
namespace MiniC.CommandLine
set_option autoImplicit false

/-- The names that lead from the root to a file or a folder. -/
abbrev Location : Type := List String

structure FileTree where
  folders : List Location
  files : List (Location × String)
  /-- The folder in which a path starts that does not start at the root. -/
  here : Location
  deriving DecidableEq, Repr

inductive Entry where
  | folder (l : Location)
  | file (l : Location) (text : String)
  deriving DecidableEq, Repr

namespace FileTree

def foldersTo (l : Location) : List Location := (List.range l.length).map l.take |>.drop 1

def ofFiles (here : Location) (files : List (Location × String)) : FileTree where
  folders := here :: foldersTo here ++ files.flatMap fun f => foldersTo f.1
  files := files
  here := here

def isFolder (t : FileTree) (l : Location) : Bool := decide (l = [] ∨ l ∈ t.folders)

def text? (t : FileTree) (l : Location) : Option String := t.files.lookup l

def entry (t : FileTree) (folder : Location) (name : String) : Except FileError Entry :=
  let l := folder ++ [name]
  if Path.maxNameBytes < name.utf8ByteSize then .error .nameTooLong
  else if t.isFolder l then .ok (.folder l)
  else
    match t.text? l with
    | some text => .ok (.file l text)
    | none => .error .notFound

/-- The folder to which the steps lead; every name on the way must be one of a folder. -/
def walk (t : FileTree) : Location → List Step → Except FileError Location
  | l, [] => .ok l
  | l, .stay :: steps => t.walk l steps
  | l, .up :: steps => t.walk l.dropLast steps
  | l, .enter name :: steps =>
    match t.entry l name with
    | .ok (.folder l) => t.walk l steps
    | .ok (.file ..) => .error .notDirectory
    | .error e => .error e

def origin (t : FileTree) (p : Path) : Location := if p.fromRoot then [] else t.here

def find (t : FileTree) (p : Path) : Except FileError Entry :=
  match p.toFolder, p.leaf? with
  | false, some (steps, name) => do t.entry (← t.walk (t.origin p) steps) name
  | _, _ => return .folder (← t.walk (t.origin p) p.steps)

/-- Where a file is written that is to have the given path.  The path may lead to a file, or to a
name that is still free in its folder. -/
def vacancy (t : FileTree) (p : Path) : Except FileError Location :=
  match p.leaf? with
  | none => do
    let _ ← t.walk (t.origin p) p.steps
    .error .isDirectory
  | some (steps, name) => do
    let folder ← t.walk (t.origin p) steps
    if p.toFolder then .error .isDirectory
    else
      match t.entry folder name with
      | .ok (.folder _) => .error .isDirectory
      | .ok (.file l _) => .ok l
      | .error .notFound => .ok (folder ++ [name])
      | .error e => .error e

def erase (t : FileTree) (l : Location) : FileTree :=
  { t with files := t.files.filter fun f => decide (f.1 ≠ l) }

def put (t : FileTree) (l : Location) (text : String) : FileTree :=
  { t with files := (l, text) :: (t.erase l).files }

def read (t : FileTree) (path : String) : Except FileError String := do
  match ← t.find (← Path.ofString path) with
  | .folder _ => .error .isDirectory
  | .file _ text => .ok text

def write (t : FileTree) (path text : String) : Except FileError FileTree := do
  return t.put (← t.vacancy (← Path.ofString path)) text

def remove (t : FileTree) (path : String) : Except FileError FileTree := do
  match ← t.find (← Path.ofString path) with
  | .folder _ => .error .isDirectory
  | .file l _ => .ok (t.erase l)

def fileAt? (t : FileTree) (path : String) : Option Location :=
  match Path.ofString path >>= t.find with
  | .ok (.file l _) => some l
  | _ => none

def sameFile (t : FileTree) (path path' : String) : Bool :=
  (t.fileAt? path).any fun l => t.fileAt? path' = some l

/-- The product of the input is put at the output path, which is all that changes. -/
def Delivers (t : FileTree) (product : String → Option String) (input output : String)
    (u : FileTree) : Prop :=
  ∃ text content, t.read input = .ok text ∧ product text = some content ∧
    t.write output content = .ok u

end FileTree

structure FailureStatus where
  code : Nat
  ne_zero : code ≠ 0
  deriving DecidableEq, Repr

instance (n : Nat) : OfNat FailureStatus (n + 1) := ⟨⟨n + 1, Nat.succ_ne_zero n⟩⟩

abbrev Assembler : Type := String → Except FailureStatus String

/-- A program that can be started as an assembler. -/
structure Tool where
  product : String → Option String
  run : FileTree → String → String → Report × FileTree
  delivers {t u : FileTree} {input output : String} {r : Report} :
    run t input output = (r, u) → r.status = 0 → t.Delivers product input output u

namespace Assembler

def product (a : Assembler) (text : String) : Option String := (a text).toOption

/-- Reads the input to its end before the output is opened.  What is printed if one of them fails is
left out. -/
def runWhole (a : Assembler) (t : FileTree) (input output : String) : Report × FileTree :=
  match t.read input with
  | .error _ => (⟨1, "", ""⟩, t)
  | .ok text =>
    match a text with
    | .error n => (⟨n.code, "", ""⟩, t)
    | .ok content =>
      match t.write output content with
      | .error _ => (⟨1, "", ""⟩, t)
      | .ok u => (⟨0, "", ""⟩, u)

/-- Opens the output, puts there what it makes of no text, and copies the input behind it.  An input
that is the output by then is refused. -/
def runScript (a : Assembler) (t : FileTree) (input output : String) : Report × FileTree :=
  if t.sameFile input output then
    match a "" with
    | .error n => (⟨n.code, "", ""⟩, t)
    | .ok heading =>
      match t.write output heading with
      | .error _ => (⟨1, "", ""⟩, t)
      | .ok u => (⟨1, "", "cat: " ++ input ++ ": input file is output file\n"⟩, u)
  else a.runWhole t input output

variable {t u : FileTree} {input output : String} {r : Report}

theorem runWhole_delivers (a : Assembler) (h : a.runWhole t input output = (r, u))
    (hStatus : r.status = 0) : t.Delivers a.product input output u := by
  rw [runWhole] at h
  cases hRead : t.read input with
  | error e =>
    rw [hRead] at h
    cases h
    cases hStatus
  | ok text =>
    simp only [hRead] at h
    cases hText : a text with
    | error n =>
      rw [hText] at h
      cases h
      exact absurd hStatus n.ne_zero
    | ok content =>
      simp only [hText] at h
      cases hWrite : t.write output content with
      | error e =>
        rw [hWrite] at h
        cases h
        cases hStatus
      | ok v =>
        rw [hWrite] at h
        cases h
        refine ⟨text, content, hRead, ?_, hWrite⟩
        rw [product, hText]
        rfl

theorem runScript_delivers (a : Assembler) (h : a.runScript t input output = (r, u))
    (hStatus : r.status = 0) : t.Delivers a.product input output u := by
  rw [runScript] at h
  split at h
  · cases hHeading : a "" with
    | error n =>
      rw [hHeading] at h
      cases h
      exact absurd hStatus n.ne_zero
    | ok heading =>
      simp only [hHeading] at h
      cases hWrite : t.write output heading with
      | error e =>
        rw [hWrite] at h
        cases h
        cases hStatus
      | ok v =>
        rw [hWrite] at h
        cases h
        cases hStatus
  · exact a.runWhole_delivers h hStatus

example : runScript (fun text => .ok ("-o\n" ++ text)) (.ofFiles [] [(["a"], "x")]) "a" "a" =
    (⟨1, "", "cat: a: input file is output file\n"⟩, .ofFiles [] [(["a"], "-o\n")]) := by
  decide +kernel

end Assembler

namespace Tool

def whole (a : Assembler) : Tool := ⟨a.product, a.runWhole, a.runWhole_delivers⟩

def script (a : Assembler) : Tool := ⟨a.product, a.runScript, a.runScript_delivers⟩

def sortLines (text : String) : String :=
  let lines := text.splitOn "\n"
  let lines := if lines.getLast? = some "" then lines.dropLast else lines
  String.join ((lines.mergeSort fun a b => decide (a ≤ b)).map fun line => line ++ "\n")

/-- The programs that a command without a slash starts.  Of those that can be called like an assembler
there is one. -/
def installed? (command : String) : Option Tool :=
  if command = "sort" then some (whole fun text => .ok (sortLines text)) else none

end Tool

namespace FileTree

/-- The program that a command starts, where `programs` are the files that can be started.  A command
without a slash is not looked for in the tree. -/
def program (t : FileTree) (programs : Location → Option Assembler) (command : String) :
    Except FileError Tool := do
  if '/' ∉ command.toList then
    match Tool.installed? command with
    | some tool => .ok tool
    | none => .error (if Path.maxNameBytes < command.utf8ByteSize then .nameTooLong else .notFound)
  else
    match ← t.find (← Path.ofString command) with
    | .folder _ => .error .permissionDenied
    | .file l _ =>
      match programs l with
      | some a => .ok (.script a)
      | none => .error .permissionDenied

def change (f : FileTree → Except FileError FileTree) :
    StateM FileTree (Except FileError Unit) := fun t =>
  match f t with
  | .ok t => (.ok (), t)
  | .error e => (.error e, t)

end FileTree

/-- A tree of files as a host; `start` is the program that a command starts. -/
def Host.onTree (start : FileTree → String → Except FileError Tool) :
    Host (StateM FileTree) where
  read path := fun t => (t.read path, t)
  write path text := FileTree.change fun t => t.write path text
  remove path := FileTree.change fun t => t.remove path
  assemble command input output := fun t =>
    match start t command with
    | .error e => (.error e, t)
    | .ok tool =>
      let (report, t) := tool.run t input output
      (.ok report, t)

def Host.fileTree (programs : Location → Option Assembler) : Host (StateM FileTree) :=
  .onTree fun t command => t.program programs command

end MiniC.CommandLine
