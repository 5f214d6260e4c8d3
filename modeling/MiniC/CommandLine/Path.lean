import MiniC.CommandLine.FileError

/-! # Paths

A path is a walk through folders.  Its steps are the pieces between slashes: a dot stays, two dots
go up, and any other piece enters what has that name.  A slash in front makes the walk start at the
root, and a slash at the end asks for a folder; further slashes have no meaning.
-/
namespace MiniC.CommandLine
set_option autoImplicit false

inductive Step where
  | stay
  | up
  | enter (name : String)
  deriving DecidableEq, Repr

namespace Step

/-- The step that a piece of a path stands for; an empty piece stands for none. -/
def ofPiece? (piece : List Char) : Option Step :=
  if piece = [] then none
  else if piece = ['.'] then some stay
  else if piece = ['.', '.'] then some up
  else some (enter (String.ofList piece))

end Step

structure Path where
  fromRoot : Bool
  steps : List Step
  toFolder : Bool
  deriving DecidableEq, Repr

namespace Path

def pieces : List Char → List (List Char)
  | [] => [[]]
  | c :: cs =>
    if c = '/' then [] :: pieces cs
    else
      match pieces cs with
      | [] => [[c]]
      | p :: ps => (c :: p) :: ps

def maxBytes : Nat := 4095

def maxNameBytes : Nat := 255

/-- The path that a text stands for.  The empty text leads nowhere. -/
def ofString (text : String) : Except FileError Path :=
  let cs := text.toList
  if cs = [] then .error .notFound
  else if maxBytes < text.utf8ByteSize then .error .nameTooLong
  else .ok {
    fromRoot := decide (cs.head? = some '/')
    steps := (pieces cs).filterMap Step.ofPiece?
    toFolder := decide (cs.getLast? = some '/') }

def leaf? (p : Path) : Option (List Step × String) :=
  match p.steps.getLast? with
  | some (.enter name) => some (p.steps.dropLast, name)
  | _ => none

end Path

end MiniC.CommandLine
