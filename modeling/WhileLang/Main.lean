import WhileLang.CommandLine.Batch

/-!
# The program

Reads the files named on the command line and runs the batch: tables go to the standard output,
the log to the standard error. The viewer is not opened here; what it shows is described by
`Viewer.draw`.
-/

namespace WhileLang

def FileError.ofFailure : IO.Error → FileError
  | .inappropriateType _ code _ => if code = 21 then .isDirectory else .notDirectory
  | .invalidArgument _ code _ => if code = 36 then .nameTooLong else .notFound
  | .permissionDenied .. => .denied
  | _ => .notFound

def readFileText (path : String) : IO (Except FileError String) := do
  try
    let bytes ← IO.FS.readBinFile path
    match String.fromUTF8? bytes with
    | some text => return .ok text
    | none => return .error .invalidText
  catch e =>
    return .error (.ofFailure e)

/-- A reader of texts that were read before. -/
def TextReader.ofList (texts : List (String × Except FileError String)) :
    TextReader String FileError :=
  fun path => (texts.lookup path).getD (.error .notFound)

end WhileLang

open WhileLang in
/-- Runs the program. The variable `RUST_LOG` may give a filter for the log. -/
def main (arguments : List String) : IO UInt32 := do
  let files := match parseArguments arguments with
    | .ok settings => settings.files
    | .error _ => []
  let texts ← files.mapM (fun path => return (path, ← readFileText path))
  match runProgram (.ofList texts) (← IO.getEnv "RUST_LOG") arguments with
  | .error stop =>
    IO.print stop.output
    return stop.exitCode.toUInt32
  | .ok run =>
    IO.print run.output
    IO.eprint run.log
    return run.exitCode.toUInt32
