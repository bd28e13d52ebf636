import DavisPutnam.Search.Journal
import DavisPutnam.Simplify.Polarity
import DavisPutnam.Simplify.Residual

/-!
One node of the search tree.

A branch waits with its clauses, its assignment and the decision that leads into
it. `Branch.expand` applies the decision and simplifies by forced bindings, the
lowest pure literal before the first unit clause, until the clauses are all
settled, one of them is empty, or nothing is forced and the node splits on the
lowest unbound atom. Each binding uses up an unbound atom, so simplification
ends, and a node splits with less room left than it had
(`unboundCount_lt_room`).
-/

namespace DavisPutnam

/-- A node of the search tree that waits to be expanded. -/
structure Branch where
  clauses : List Clause
  assignment : Assignment
  decision : Option Literal
  depth : Nat
deriving DecidableEq, Repr

/-- What comes of expanding a branch. -/
inductive Outcome where
  /-- Every clause is settled. -/
  | satisfied (model : Model)
  /-- No model extends the branch. -/
  | conflict
  /-- Nothing is forced: the search has to try both values of an atom. -/
  | split (atom : Nat) (clauses : List Clause) (assignment : Assignment)
  /-- A precondition was broken. -/
  | faulted (fault : Fault)
deriving DecidableEq, Repr

/-- The next binding that needs no decision: the lowest pure literal, else the
literal of the first unit clause. -/
def forced? (atoms : Nat) (clauses : List Clause) :
    Except Fault (Option (Reason × Literal)) :=
  match pureLiterals atoms clauses with
  | .error fault => .error fault
  | .ok (l :: _) => .ok (some (.pure, l))
  | .ok [] => .ok ((firstUnit? clauses).map fun l => (.unit, l))

/-- Simplifies by forced bindings as long as there are any. -/
def simplify (depth : Nat) (clauses : List Clause) (a : Assignment) (j : Journal) :
    Outcome × Journal :=
  if clauses.isEmpty then (.satisfied a.complete, j)
  else if clauses.any List.isEmpty then (.conflict, j)
  else
    match forced? a.atoms clauses with
    | .error fault => (.faulted fault, j)
    | .ok (some (reason, l)) =>
      match _committed : commit l clauses a with
      | .error fault => (.faulted fault, j.bound reason l depth)
      | .ok (rest, b) => simplify depth rest b (j.bound reason l depth)
    | .ok none =>
      match a.firstUnbound with
      | some atom => (.split atom clauses a, j)
      | none => (.conflict, j)
termination_by a.unboundCount
decreasing_by
  have := unboundCount_commit _committed
  omega

namespace Branch

/-- Enters a branch: applies its decision, then simplifies. -/
def expand (b : Branch) (j : Journal) : Outcome × Journal :=
  match b.decision with
  | none => simplify b.depth b.clauses b.assignment (j.enter b.depth)
  | some l =>
    let j := (j.enter b.depth).bound .decision l b.depth
    match commit l b.clauses b.assignment with
    | .error fault => (.faulted fault, j)
    | .ok (clauses, a) => simplify b.depth clauses a j

/-- An upper bound on how often the search can still split below the branch:
one more than the atoms that are unbound once its decision is applied. -/
def room (b : Branch) : Nat :=
  match b.decision with
  | none => b.assignment.unboundCount + 1
  | some _ => b.assignment.unboundCount

/-- The branch one level below `b` that gives `value` to the atom on which `b`
split, starting from the clauses and the assignment at the split. -/
def below (b : Branch) (atom : Nat) (value : Bool) (clauses : List Clause) (a : Assignment) :
    Branch where
  clauses := clauses
  assignment := a
  decision := some ⟨atom, value⟩
  depth := b.depth + 1

@[simp] theorem room_below (b : Branch) (atom : Nat) (value : Bool) (clauses : List Clause)
    (a : Assignment) : (b.below atom value clauses a).room = a.unboundCount :=
  rfl

end Branch

/-! ### Why splitting ends -/

/-- Simplification never frees an atom. -/
theorem unboundCount_le_of_simplify {depth : Nat} {clauses rest : List Clause}
    {a b : Assignment} {j k : Journal} {atom : Nat}
    (h : simplify depth clauses a j = (.split atom rest b, k)) :
    b.unboundCount ≤ a.unboundCount := by
  fun_induction simplify depth clauses a j with
  | case5 clauses a j _ _ _ _ _ _ _ committed ih =>
    have := unboundCount_commit committed
    have := ih h
    omega
  | case6 => simp_all
  | _ => simp at h

/-- A branch splits with fewer unbound atoms than it has room. -/
theorem Branch.unboundCount_lt_room {b : Branch} {rest : List Clause} {a : Assignment}
    {j k : Journal} {atom : Nat} (h : b.expand j = (.split atom rest a, k)) :
    a.unboundCount < b.room := by
  unfold Branch.expand at h
  unfold Branch.room
  split at h
  · exact Nat.lt_succ_of_le (unboundCount_le_of_simplify h)
  · split at h
    · simp at h
    · next committed =>
      have := unboundCount_commit committed
      have := unboundCount_le_of_simplify h
      omega

end DavisPutnam
