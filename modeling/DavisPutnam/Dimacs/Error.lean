import DavisPutnam.Problem

/-!
Why a DIMACS file cannot be read, and how that is said.
-/

namespace DavisPutnam

/-- Why bytes or text could not be had from a source. -/
inductive ReadFailure where
  | notFound
  | isDirectory
  | notUtf8
  | other (reason : String)
deriving DecidableEq, Repr

/-- The text of a read failure. -/
def ReadFailure.message : ReadFailure → String
  | .notFound => "No such file or directory (os error 2)"
  | .isDirectory => "Is a directory (os error 21)"
  | .notUtf8 => "stream did not contain valid UTF-8"
  | .other reason => reason

namespace Dimacs

/-- A departure from the format. -/
inductive Malformation where
  | duplicateHeader
  | missingCnf
  | invalidAtomCount
  | invalidClauseCount
  | missingHeader
  | invalidLiteral (token : List Char)
  | unterminatedClause
deriving DecidableEq, Repr

/-- The text of a departure from the format. -/
def Malformation.message : Malformation → String
  | .duplicateHeader => "duplicate 'p' line"
  | .missingCnf => "missing 'cnf'"
  | .invalidAtomCount => "invalid num_variables"
  | .invalidClauseCount => "invalid num_clauses"
  | .missingHeader => "missing 'p' line before clauses"
  | .invalidLiteral token => "invalid literal '" ++ String.ofList token ++ "'"
  | .unterminatedClause => "unterminated clause at end of input"

/-- Why a file is not accepted. -/
inductive Error where
  | unreadable (failure : ReadFailure)
  | malformed (reason : Malformation)
  | rejected (refusal : ProblemError)
deriving DecidableEq, Repr

/-- The text of an error. -/
def Error.message : Error → String
  | .unreadable failure => "i/o error: " ++ failure.message
  | .malformed reason => "invalid DIMACS input: " ++ reason.message
  | .rejected refusal => "invalid problem: " ++ refusal.message

end Dimacs

end DavisPutnam
