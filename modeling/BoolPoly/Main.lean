import BoolPoly.Cli.Session

namespace BoolPoly.Cli

/-- The reason that an input or output error gives. -/
def reasonOf : IO.Error → String
  | .noFileOrDirectory _ code details | .invalidArgument _ code details
  | .permissionDenied _ code details | .inappropriateType _ code details
  | .resourceExhausted _ code details | .noSuchThing _ code details
  | .resourceBusy code details | .hardwareFault code details | .otherError code details =>
    details ++ " (os error " ++ Nat.repr code.toNat ++ ")"
  | e => toString e

/-- Looks at the file under a path. -/
def viewFile (path : String) : IO FileView := do
  match ← (IO.FS.Handle.mk path .read).toBaseIO with
  | .error e => return .unopened (reasonOf e)
  | .ok handle =>
    match ← handle.readBinToEnd.toBaseIO with
    | .error e => return .unreadable (reasonOf e)
    | .ok content => return .bytes content.toList

/-- Runs the program: prints and writes what the transcript of the run says. A file that turns out not to be writable
is taken into account by a second run that knows the reason. -/
def program (args : List String) : IO UInt32 := do
  let view ← match Options.ofArgs? args with
    | none => pure (FileView.bytes [])
    | some options => viewFile options.command.input
  let attempt (created stored : Except String Unit) : Transcript :=
    run { view := fun _ => view, create := fun _ => created, write := fun _ _ => stored } args
  let planned := attempt (.ok ()) (.ok ())
  let done ← match planned.written with
    | none => pure planned
    | some (path, content) =>
      match ← (IO.FS.Handle.mk path .write).toBaseIO with
      | .error e => pure (attempt (.error (reasonOf e)) (.ok ()))
      | .ok handle =>
        match ← (do handle.putStr content; handle.flush : IO Unit).toBaseIO with
        | .error e => pure (attempt (.ok ()) (.error (reasonOf e)))
        | .ok () => pure planned
  (← IO.getStdout).putStr done.stdout
  (← IO.getStderr).putStr done.stderr
  return done.exitCode

end BoolPoly.Cli

def main (args : List String) : IO UInt32 := BoolPoly.Cli.program args
