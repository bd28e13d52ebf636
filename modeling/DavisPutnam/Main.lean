import DavisPutnam.Shell.Request

/-!
The command: reads the arguments, the log filters and the input, and prints the
report.
-/

namespace DavisPutnam.Shell

/-- The environment variable that holds the log filters. -/
def filterVariable : String := "RUST_LOG"

/-- The bytes of a file. -/
def readFile (path : String) : IO (Except ReadFailure (List UInt8)) := do
  try
    return .ok (← IO.FS.readBinFile path).toList
  catch
    | .noFileOrDirectory .. => return .error .notFound
    | .inappropriateType .. => return .error .isDirectory
    | failure => return .error (.other (toString failure))

/-- The bytes of the input that a request needs. -/
def readInput : Request → IO (Except ReadFailure (List UInt8))
  | .solve { input := some path, .. } => readFile path
  | .solve { input := none, .. } => do
    return .ok (← (← IO.getStdin).readBinToEnd).toList
  | .help | .version | .misuse _ => return .ok []

end DavisPutnam.Shell

open DavisPutnam.Shell in
/-- Runs the command and returns its exit code. -/
def main (arguments : List String) : IO UInt32 := do
  let request := Request.ofArguments arguments
  let report := request.report (← IO.getEnv filterVariable) (← readInput request)
  IO.print report.out
  IO.eprint report.err
  return report.exitCode.toUInt32
