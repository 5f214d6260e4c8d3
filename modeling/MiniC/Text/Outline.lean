/-! # Outlines

Text made of lines, each indented by two spaces for every level of its depth.
-/
namespace MiniC
set_option autoImplicit false

structure Line where
  depth : Nat
  text : String
  deriving DecidableEq, Repr

def Line.render (l : Line) : String :=
  String.ofList (List.replicate (2 * l.depth) ' ') ++ l.text ++ "\n"

def renderLines (lines : List Line) : String := String.join (lines.map Line.render)

end MiniC
