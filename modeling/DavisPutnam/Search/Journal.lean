import DavisPutnam.Literal
import DavisPutnam.Log

/-!
The journal of a search: counters, and the events in the order in which they
happened.

Every binding is counted under its reason and recorded, and so is every
conflict; the depth counter is raised when a branch is entered. The last event
of a finished search carries the counters.
-/

namespace DavisPutnam

/-- Why an atom was bound. -/
inductive Reason where
  | decision
  | pure
  | unit
deriving DecidableEq, Repr

/-- The name of a reason in the log. -/
def Reason.name : Reason → String
  | .decision => "decision"
  | .pure => "pure"
  | .unit => "unit"

/-- The counters of a search. -/
structure Stats where
  decisions : Nat := 0
  pureLiterals : Nat := 0
  unitClauses : Nat := 0
  conflicts : Nat := 0
  maxDepth : Nat := 0
deriving DecidableEq, Repr

namespace Stats

/-- Counts one binding. -/
def countBinding (s : Stats) : Reason → Stats
  | .decision => { s with decisions := s.decisions + 1 }
  | .pure => { s with pureLiterals := s.pureLiterals + 1 }
  | .unit => { s with unitClauses := s.unitClauses + 1 }

/-- The counters as the log shows them. -/
def text (s : Stats) : String :=
  "Stats \x7b decisions: " ++ Numeral.ofNat s.decisions ++
  ", pure_literals: " ++ Numeral.ofNat s.pureLiterals ++
  ", unit_clauses: " ++ Numeral.ofNat s.unitClauses ++
  ", conflicts: " ++ Numeral.ofNat s.conflicts ++
  ", max_depth: " ++ Numeral.ofNat s.maxDepth ++ " \x7d"

end Stats

/-- What happens during a search. -/
inductive Event where
  | bound (reason : Reason) (literal : Literal) (depth : Nat)
  | conflict (depth : Nat)
  | satisfiable (depth : Nat) (stats : Stats)
  | unsatisfiable (stats : Stats)
deriving DecidableEq, Repr

namespace Event

/-- The level at which an event is logged. -/
def level : Event → Level
  | .bound .. => .trace
  | .conflict .. | .satisfiable .. | .unsatisfiable .. => .debug

/-- The log message of an event. -/
def text : Event → String
  | .bound reason literal depth =>
    reason.name ++ " " ++ literal.text ++ " at depth " ++ Numeral.ofNat depth
  | .conflict depth => "conflict at depth " ++ Numeral.ofNat depth ++ ", backtracking"
  | .satisfiable depth stats =>
    "satisfiable at depth " ++ Numeral.ofNat depth ++ ", " ++ stats.text
  | .unsatisfiable stats => "unsatisfiable, " ++ stats.text

/-- An event as a message of the search. -/
def message (event : Event) : Message where
  target := "dpsat::solver"
  level := event.level
  text := event.text

end Event

/-- The counters and the events so far, latest first. -/
structure Journal where
  stats : Stats := {}
  latest : List Event := []
deriving DecidableEq, Repr

namespace Journal

/-- Notes the depth of a branch that is entered. -/
def enter (j : Journal) (depth : Nat) : Journal :=
  { j with stats := { j.stats with maxDepth := max j.stats.maxDepth depth } }

/-- Records an event that is not counted. -/
def record (j : Journal) (event : Event) : Journal :=
  { j with latest := event :: j.latest }

/-- Counts and records a binding. -/
def bound (j : Journal) (reason : Reason) (l : Literal) (depth : Nat) : Journal :=
  { j with stats := j.stats.countBinding reason }.record (.bound reason l depth)

/-- Counts and records a conflict. -/
def conflict (j : Journal) (depth : Nat) : Journal :=
  { j with stats := { j.stats with conflicts := j.stats.conflicts + 1 } }.record
    (.conflict depth)

/-- The events in the order in which they happened. -/
def events (j : Journal) : List Event :=
  j.latest.reverse

end Journal

end DavisPutnam
