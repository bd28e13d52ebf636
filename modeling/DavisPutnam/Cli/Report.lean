import DavisPutnam.Dimacs.Reader

/-!
The command line: what is printed, and the exit code.

Lines that start with `c` are comments: the log, as far as it is shown, and the
counters if they are asked for. The line that starts with `s` is the verdict and
the line that starts with `v` the model, closed by a 0. The exit code is 0 with a
model, 1 without one, and 255 if there is no formula.

What is shown of the log is for the logger to say, and how the logger is set up is a
parameter of `Options.report`.
-/

namespace DavisPutnam.Cli

/-- What a search is asked to print, and where its formula comes from. -/
structure Options where
  /-- The file to read; standard input if there is none. -/
  input : Option String
  stats : Bool
  quiet : Bool
  /-- How often more log output was asked for. -/
  verbosity : Nat
deriving DecidableEq, Repr

/-- What a command prints, line by line, and its exit code. -/
structure Report where
  exitCode : Nat
  lines : List String
  errors : List String := []
deriving DecidableEq, Repr

namespace Report

/-- Lines as text, each closed by a newline. -/
def text (lines : List String) : String :=
  String.join (lines.map (· ++ "\n"))

/-- The text for standard output. -/
def out (r : Report) : String :=
  text r.lines

/-- The text for standard error. -/
def err (r : Report) : String :=
  text r.errors

end Report

/-! ### The log -/

/-- A message of the command itself. -/
def announcement (text : String) : Message where
  target := "dpsat"
  level := .info
  text := text

/-- A log message as a comment line. Its level is left out for `info`. -/
def logLine (message : Message) : String :=
  match message.level with
  | .info => "c " ++ message.text
  | level => "c " ++ level.name ++ ": " ++ message.text

/-- The comment line of a message, if it is shown. -/
def logged (logger : Logger) (message : Message) : List String :=
  if logger.shows message then [logLine message] else []

/-- The comment lines of a search. -/
def eventLines (logger : Logger) (run : Run) : List String :=
  run.events.flatMap fun event => logged logger event.message

/-- The comment lines of the counters. -/
def statsLines (s : Stats) : List String :=
  ["c decisions:     " ++ Numeral.ofNat s.decisions,
   "c pure literals: " ++ Numeral.ofNat s.pureLiterals,
   "c unit clauses:  " ++ Numeral.ofNat s.unitClauses,
   "c conflicts:     " ++ Numeral.ofNat s.conflicts,
   "c max depth:     " ++ Numeral.ofNat s.maxDepth]

/-! ### The answer -/

namespace Options

/-- The log message before the formula is read. -/
def opening (o : Options) : String :=
  match o.input with
  | some path => "reading file '" ++ path ++ "'"
  | none => "reading from stdin"

/-- The verdict and the model. -/
def verdictLines (o : Options) : Verdict → List String
  | .satisfiable model =>
    if o.quiet then ["s SATISFIABLE"] else ["s SATISFIABLE", "v " ++ model.text ++ " 0"]
  | .unsatisfiable => ["s UNSATISFIABLE"]

end Options

/-- The exit code of a verdict. -/
def verdictCode : Verdict → Nat
  | .satisfiable _ => 0
  | .unsatisfiable => 1

/-- Reads a formula, searches for a model and reports. `source` is the content of the
input. -/
def solveReport (o : Options) (logger : Logger) (source : Except ReadFailure (List UInt8)) :
    Report :=
  let opening := logged logger (announcement o.opening)
  match Dimacs.readSource source with
  | .error reason =>
    { exitCode := 255
      lines := opening
      errors := logger.notices ++ ["parse error: " ++ reason.message] }
  | .ok f =>
    let size := logged logger (announcement
      (Numeral.ofNat f.atoms ++ " atoms, " ++ Numeral.ofNat f.clauses.length ++ " clauses"))
    let run := f.solve
    let log := opening ++ size ++ eventLines logger run
    match run.verdict with
    | .error fault =>
      { exitCode := 101, lines := log, errors := logger.notices ++ [fault.message] }
    | .ok verdict =>
      { exitCode := verdictCode verdict
        lines := log ++ (if o.stats then statsLines run.stats else []) ++ o.verdictLines verdict
        errors := logger.notices }

/-- Sets up the log by the threshold that is asked for and the filters from outside, and then
reads, searches and reports. -/
def Options.report (setUp : Threshold → Option String → Logger) (o : Options)
    (filters : Option String) (source : Except ReadFailure (List UInt8)) : Report :=
  solveReport o (setUp (Threshold.ofVerbosity o.verbosity) filters) source

end DavisPutnam.Cli
