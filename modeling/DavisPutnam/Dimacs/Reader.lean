import DavisPutnam.Dimacs.Error
import DavisPutnam.Dimacs.Token

/-!
Reading a DIMACS CNF file.

Blank lines and lines that start with `c` are skipped, and a line that starts
with `%` ends the file. The header line `p cnf N M` declares `N` atoms and `M`
clauses. Every other line holds literals, each clause being closed by a 0; clauses
may share lines and span them. Reading stops after `M` clauses, so nothing that
follows them is looked at, and it may end early with fewer.

The reader goes line by line. A line that is not valid UTF-8, like any other
error, counts only if it is reached. A clause is checked against the atom count
when its 0 is read.
-/

namespace DavisPutnam.Dimacs

/-- What the header line declares. -/
structure Header where
  atoms : Nat
  clauses : Nat
deriving DecidableEq, Repr

/-- The header with the given tokens after its `p`. Tokens after the two counts
are ignored. -/
def Header.ofTokens : List Token → Except Malformation Header
  | [] => .error .missingCnf
  | word :: rest =>
    if word = "cnf".toList then
      match rest[0]?.bind Numeral.natural?, rest[1]?.bind Numeral.natural? with
      | none, _ => .error .invalidAtomCount
      | some _, none => .error .invalidClauseCount
      | some atoms, some clauses => .ok ⟨atoms, clauses⟩
    else .error .missingCnf

/-- What has been read so far. -/
inductive Reader where
  /-- The header has not been reached. -/
  | preamble
  /-- The problem so far, the number of clauses still to be read, and the
  literals of the clause that is being read, latest first. -/
  | body (problem : Problem) (left : Nat) (pending : List Int)
deriving DecidableEq, Repr

/-- Whether reading goes on. -/
inductive Progress where
  | more (reader : Reader)
  | stop (reader : Reader)
deriving DecidableEq, Repr

namespace Reader

/-- Reads the tokens of a line of literals, up to the 0 that closes the last
clause. There is a clause left to read. -/
def literals (problem : Problem) (left : Nat) (pending : List Int) :
    List Token → Except Error Progress
  | [] => .ok (.more (.body problem left pending))
  | token :: rest =>
    match Numeral.integer? token with
    | none => .error (.malformed (.invalidLiteral token))
    | some x =>
      if x = 0 then
        match problem.addClause pending.reverse with
        | (.error refusal, _) => .error (.rejected refusal)
        | (.ok (), longer) =>
          if left ≤ 1 then .ok (.stop (.body longer (left - 1) []))
          else literals longer (left - 1) [] rest
      else literals problem left (x :: pending) rest

/-- Starts the body of the file with the tokens after the header's `p`. -/
def header (rest : List Token) : Except Error Progress :=
  match Header.ofTokens rest with
  | .error reason => .error (.malformed reason)
  | .ok declared =>
    match Problem.blank.declare declared.atoms with
    | (.error refusal, _) => .error (.rejected refusal)
    | (.ok (), problem) => .ok (.more (.body problem declared.clauses []))

/-- Reads the tokens of one line. -/
def line (r : Reader) : List Token → Except Error Progress
  | [] => .ok (.more r)
  | word :: rest =>
    if word = ['c'] then .ok (.more r)
    else if word = ['%'] then .ok (.stop r)
    else if word = ['p'] then
      match r with
      | .preamble => header rest
      | .body .. => .error (.malformed .duplicateHeader)
    else
      match r with
      | .preamble => .error (.malformed .missingHeader)
      | .body problem left pending =>
        if left = 0 then .ok (.stop r) else literals problem left pending (word :: rest)

/-- Reads lines until they end or reading stops. -/
def lines (r : Reader) : List (List UInt8) → Except Error Reader
  | [] => .ok r
  | bytes :: rest =>
    match decodeLine? bytes with
    | none => .error (.unreadable .notUtf8)
    | some chars =>
      match r.line (tokens chars) with
      | .error reason => .error reason
      | .ok (.stop last) => .ok last
      | .ok (.more next) => next.lines rest

/-- The formula that was read, unless the header or a closing 0 is missing. -/
def finish : Reader → Except Error Formula
  | .preamble => .error (.malformed .missingHeader)
  | .body problem _ pending =>
    if pending.isEmpty then
      match problem.formula with
      | .error refusal => .error (.rejected refusal)
      | .ok f => .ok f
    else .error (.malformed .unterminatedClause)

end Reader

/-- The formula of a DIMACS CNF file. -/
def read (bytes : List UInt8) : Except Error Formula :=
  match Reader.preamble.lines (lines bytes) with
  | .error reason => .error reason
  | .ok r => r.finish

/-- The formula of a file that may be out of reach. -/
def readSource : Except ReadFailure (List UInt8) → Except Error Formula
  | .error failure => .error (.unreadable failure)
  | .ok bytes => read bytes

end DavisPutnam.Dimacs
