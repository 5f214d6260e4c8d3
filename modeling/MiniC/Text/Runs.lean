/-! # Runs of code points

A property of characters is tabulated as the ascending list of its maximal runs, each given by
its first and its last code point.
-/
namespace MiniC.Text
set_option autoImplicit false

def inRuns (runs : List (Nat × Nat)) (n : Nat) : Bool :=
  runs.any fun run => decide (run.1 ≤ n) && decide (n ≤ run.2)

end MiniC.Text
