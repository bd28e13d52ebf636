import DavisPutnam.Problem

/-!
Sessions: a sequence of commands on one problem.

A session holds the problem, at most one solver, which is a snapshot of the
formula with the counters of its last search, and the last model found. A
refused command leaves all three as they were, except that taking the formula
always clears the problem.
-/

namespace DavisPutnam

/-- A formula set aside to be solved, with the counters of its last search. -/
structure Solver where
  formula : Formula
  stats : Stats := {}
deriving DecidableEq, Repr

/-- Searches for a model and keeps the counters. -/
def Solver.solve (s : Solver) : Solver × Run :=
  let run := s.formula.solve
  ({ s with stats := run.stats }, run)

/-- What a session holds. -/
structure Session where
  problem : Problem := .blank
  solver : Option Solver := none
  model : Option Model := none
deriving DecidableEq, Repr

namespace Session

/-- What a session can be asked. -/
inductive Command where
  /-- Declares the atom count. -/
  | declare (atoms : Nat)
  /-- Adds a clause. -/
  | add (literals : List Int)
  /-- Shows the formula. -/
  | formula
  /-- Shows the formula and starts a new problem. -/
  | takeFormula
  /-- Solves the problem. -/
  | run
  /-- Makes a solver from the formula. -/
  | prepare
  /-- Runs the solver. -/
  | solve
  /-- Shows the solver's counters. -/
  | stats
  /-- Checks the last model against the formula. -/
  | check
deriving DecidableEq, Repr

/-- What a session answers. -/
inductive Reply where
  | done
  | formula (f : Formula)
  | verdict (v : Except Fault Verdict)
  | solved (v : Except Fault Verdict) (stats : Stats)
  | stats (s : Stats)
  | satisfies (answer : Except Fault Bool)
  | refused (reason : ProblemError)
  | noSolver
  | noModel

/-- Keeps the model of a verdict, if it has one. -/
def remember (s : Session) : Except Fault Verdict → Session
  | .ok (.satisfiable model) => { s with model := some model }
  | .ok .unsatisfiable | .error _ => s

/-- Answers an operation on the problem, and holds the problem that it leaves. -/
def update (s : Session) : Except ProblemError Unit × Problem → Session × Reply
  | (.ok (), p) => ({ s with problem := p }, .done)
  | (.error refusal, p) => ({ s with problem := p }, .refused refusal)

/-- Carries out one command. -/
def perform (s : Session) : Command → Session × Reply
  | .declare atoms => s.update (s.problem.declare atoms)
  | .add literals => s.update (s.problem.addClause literals)
  | .formula =>
    match s.problem.formula with
    | .ok f => (s, .formula f)
    | .error refusal => (s, .refused refusal)
  | .takeFormula =>
    let cleared := { s with problem := .blank }
    match s.problem.formula with
    | .ok f => (cleared, .formula f)
    | .error refusal => (cleared, .refused refusal)
  | .run =>
    match s.problem.solve with
    | .ok run => (s.remember run.verdict, .verdict run.verdict)
    | .error refusal => (s, .refused refusal)
  | .prepare =>
    match s.problem.formula with
    | .ok f => ({ s with solver := some { formula := f } }, .done)
    | .error refusal => (s, .refused refusal)
  | .solve =>
    match s.solver with
    | none => (s, .noSolver)
    | some solver =>
      let (solver, run) := solver.solve
      ({ s with solver := some solver }.remember run.verdict, .solved run.verdict solver.stats)
  | .stats =>
    match s.solver with
    | none => (s, .noSolver)
    | some solver => (s, .stats solver.stats)
  | .check =>
    match s.problem.formula, s.model with
    | .error refusal, _ => (s, .refused refusal)
    | .ok _, none => (s, .noModel)
    | .ok f, some model => (s, .satisfies (model.satisfies f))

end Session

end DavisPutnam
