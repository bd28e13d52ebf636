import DavisPutnam.Cli.Report
import DavisPutnam.Shell.Logger

/-!
What the arguments ask for, and the answer.

Arguments are read from left to right. Short flags can be joined (`-qvv`), a long
flag may carry a value, which is ignored (`--stats=1`), and `--` makes all that
follows operands. Help and version are answered as soon as they are met, and so
is a flag that does not exist or a second operand. A flag that may be given only
once is counted, and refused at the end if it was repeated.

This is how the library that the command reads its arguments with goes about it, as far
as the command needs it. What the options lead to is settled in `Cli.Options.report`.
-/

namespace DavisPutnam.Shell

open Cli

/-- Why the arguments make no sense. -/
inductive Misuse where
  | unknownFlag (argument : String)
  | extraOperand (argument : String)
  | repeatedFlag (flag : String)
deriving DecidableEq, Repr

/-- The text of a misuse. -/
def Misuse.message : Misuse → String
  | .unknownFlag argument => "unknown flag '" ++ argument ++ "'"
  | .extraOperand argument => "more than one input: '" ++ argument ++ "'"
  | .repeatedFlag flag => "flag '" ++ flag ++ "' given more than once"

/-- What the arguments ask for. -/
inductive Request where
  | help
  | version
  | misuse (reason : Misuse)
  | solve (options : Options)
deriving DecidableEq, Repr

/-- The flags and the operand met so far. -/
structure Scan where
  operand : Option String := none
  stats : Nat := 0
  quiet : Nat := 0
  verbose : Nat := 0
deriving DecidableEq, Repr

namespace Scan

/-- Takes an operand. -/
def addOperand (s : Scan) (argument : String) : Except Request Scan :=
  match s.operand with
  | none => .ok { s with operand := some argument }
  | some _ => .error (.misuse (.extraOperand argument))

/-- Takes one letter of a group of short flags. -/
def addShort (s : Scan) (letter : Char) : Except Request Scan :=
  match letter with
  | 'q' => .ok { s with quiet := s.quiet + 1 }
  | 'v' => .ok { s with verbose := s.verbose + 1 }
  | 'h' => .error .help
  | 'V' => .error .version
  | _ => .error (.misuse (.unknownFlag (String.ofList ['-', letter])))

/-- The name of a long flag: what stands between the leading dashes and the first
equals sign. -/
def longName (argument : List Char) : String :=
  String.ofList ((argument.dropWhile (· == '-')).takeWhile (· != '='))

/-- Takes a long flag. -/
def addLong (s : Scan) (argument : List Char) : Except Request Scan :=
  match longName argument with
  | "stats" => .ok { s with stats := s.stats + 1 }
  | "quiet" => .ok { s with quiet := s.quiet + 1 }
  | "help" => .error .help
  | "version" => .error .version
  | _ => .error (.misuse (.unknownFlag (String.ofList argument)))

/-- Takes arguments from left to right, up to one that settles the request. -/
def arguments (s : Scan) : List String → Except Request Scan
  | [] => .ok s
  | argument :: rest =>
    match argument.toList with
    | ['-', '-'] => rest.foldlM addOperand s
    | '-' :: '-' :: _ => do (← s.addLong argument.toList).arguments rest
    | '-' :: letter :: letters => do
      (← (letter :: letters).foldlM addShort s).arguments rest
    | _ => do (← s.addOperand argument).arguments rest

/-- The request once all arguments are taken. -/
def request (s : Scan) : Request :=
  if 1 < s.stats then .misuse (.repeatedFlag "--stats")
  else if 1 < s.quiet then .misuse (.repeatedFlag "--quiet")
  else
    .solve
      { input := s.operand, stats := s.stats == 1, quiet := s.quiet == 1,
        verbosity := s.verbose }

end Scan

/-- What a list of arguments asks for. -/
def Request.ofArguments (arguments : List String) : Request :=
  match ({} : Scan).arguments arguments with
  | .error settled => settled
  | .ok scan => scan.request

/-! ### The answer -/

/-- The name and version of the command. -/
def versionLine : String := "dpsat 0.1.0"

/-- The help page. -/
def helpLines : List String :=
  [versionLine,
   "Decides satisfiability of a CNF formula by Davis-Putnam search",
   "",
   "USAGE:",
   "    dpsat [FLAGS] [INPUT]",
   "",
   "FLAGS:",
   "    -h, --help       Prints help information",
   "    -q, --quiet      don't print the model",
   "        --stats      print search statistics",
   "    -V, --version    Prints version information",
   "    -v               log more (repeat for debug and trace output)",
   "",
   "ARGS:",
   "    <INPUT>    input file (in DIMACS CNF), stdin if omitted"]

/-- Answers a request. `filters` are the log filters, `source` the content of the input. -/
def Request.report (request : Request) (filters : Option String)
    (source : Except ReadFailure (List UInt8)) : Report :=
  match request with
  | .help => { exitCode := 0, lines := helpLines }
  | .version => { exitCode := 0, lines := [versionLine] }
  | .misuse reason => { exitCode := 1, lines := [], errors := ["error: " ++ reason.message] }
  | .solve options => options.report setUp filters source

end DavisPutnam.Shell
