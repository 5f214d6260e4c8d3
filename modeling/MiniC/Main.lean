import MiniC.CommandLine.Run

/-! # The program

The file system as a host.  Assemblers cannot be started from here: the module text is written and
kept as asked, and the run reports that the command was not run.
-/
namespace MiniC.CommandLine
set_option autoImplicit false

def systemCode? : IO.Error → Option UInt32
  | .noFileOrDirectory _ code _ => some code
  | .permissionDenied _ code _ => some code
  | .inappropriateType _ code _ => some code
  | .invalidArgument _ code _ => some code
  | _ => none

def attempt {α : Type} (action : IO α) : IO (Except FileError α) := do
  match ← action.toBaseIO with
  | .ok a => return .ok a
  | .error e =>
    let known := (systemCode? e).bind fun code => FileError.ofCode? code.toNat
    return .error (known.getD (.other (toString e)))

def Host.fileSystem : Host IO where
  read path := attempt (IO.FS.readFile path)
  write path text := attempt (IO.FS.writeFile path text)
  remove path := attempt (IO.FS.removeFile path)
  assemble _ _ _ := return .error (.other "commands cannot be started")

end MiniC.CommandLine

def main (args : List String) : IO UInt32 := do
  let report ← MiniC.CommandLine.run .fileSystem args
  IO.print report.out
  IO.eprint report.err
  return UInt32.ofNat report.status
