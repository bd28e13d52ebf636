import DavisPutnam.Search.Node

/-!
The search: depth-first, over a stack of waiting branches.

A split puts the branch that makes the atom false beneath the branch that makes
it true, so the true branch and all that grows from it comes first, and the
first model found ends the search. `SearchState.step` is one turn of the loop
and `SearchState.run` repeats it. A branch weighs three to the power of its
room, and its two successors together weigh less (`weight_step`), so the stack
runs empty.
-/

namespace DavisPutnam

/-- The answer of a search. -/
inductive Verdict where
  | satisfiable (model : Model)
  | unsatisfiable
deriving DecidableEq, Repr

/-- A search under way: the branches that wait, next first, and the journal. -/
structure SearchState where
  stack : List Branch
  journal : Journal
deriving DecidableEq, Repr

/-- A finished search. A broken precondition takes the place of a verdict. -/
structure Run where
  verdict : Except Fault Verdict
  journal : Journal

/-- What one turn of the search leads to. -/
inductive Turn where
  | running (state : SearchState)
  | halted (run : Run)

namespace SearchState

/-- The search for a model of `f`, before its first turn. -/
def start (f : Formula) : SearchState where
  stack := [{ clauses := f.clauses, assignment := .unbound f.atoms, decision := none, depth := 0 }]
  journal := {}

/-- Expands the next branch. -/
def step (s : SearchState) : Turn :=
  match s.stack with
  | [] => .halted ⟨.ok .unsatisfiable, s.journal.record (.unsatisfiable s.journal.stats)⟩
  | b :: rest =>
    match b.expand s.journal with
    | (.satisfied model, j) =>
      .halted ⟨.ok (.satisfiable model), j.record (.satisfiable b.depth j.stats)⟩
    | (.conflict, j) => .running ⟨rest, j.conflict b.depth⟩
    | (.split atom clauses a, j) =>
      .running ⟨b.below atom true clauses a :: b.below atom false clauses a :: rest, j⟩
    | (.faulted fault, j) => .halted ⟨.error fault, j⟩

/-- The weight of a stack: the sum of three to the power of each branch's room. -/
def stackWeight : List Branch → Nat
  | [] => 0
  | b :: rest => Nat.pow 3 b.room + stackWeight rest

/-- The weight of the branches that wait. -/
def weight (s : SearchState) : Nat :=
  stackWeight s.stack

/-- Every turn makes the stack lighter. -/
theorem weight_step {s t : SearchState} (h : s.step = .running t) : t.weight < s.weight := by
  unfold step at h
  split at h
  · cases h
  · next b rest stack =>
    have heavy : 0 < Nat.pow 3 b.room := Nat.pow_pos (by decide)
    split at h
    · cases h
    · cases h
      simp only [weight, stack, stackWeight]
      omega
    · next atom clauses a j expanded =>
      cases h
      have lighter : Nat.pow 3 a.unboundCount * 3 ≤ Nat.pow 3 b.room :=
        Nat.pow_le_pow_right (n := 3) (by decide) (Branch.unboundCount_lt_room expanded)
      have : 0 < Nat.pow 3 a.unboundCount := Nat.pow_pos (by decide)
      simp only [weight, stack, stackWeight, Branch.room_below]
      omega
    · cases h

/-- Takes turns until the search halts. -/
def run (s : SearchState) : Run :=
  match _turn : s.step with
  | .halted result => result
  | .running t => t.run
termination_by s.weight
decreasing_by exact weight_step _turn

/-- A state that the search for a model of `f` passes through. -/
inductive Reachable (f : Formula) : SearchState → Prop where
  | start : Reachable f (start f)
  | step {s t : SearchState} : Reachable f s → s.step = .running t → Reachable f t

end SearchState

namespace Run

/-- The counters at the end of the search. -/
def stats (r : Run) : Stats :=
  r.journal.stats

/-- The events of the search, first to last. -/
def events (r : Run) : List Event :=
  r.journal.events

end Run

/-- Searches for a model of a formula. -/
def Formula.solve (f : Formula) : Run :=
  (SearchState.start f).run

end DavisPutnam
