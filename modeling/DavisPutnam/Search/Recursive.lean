import DavisPutnam.Search.Run

/-!
The search by recursion, without a stack.

`descend` searches below a node. If no clause is left, the assignment is completed to a
model, and an empty clause refutes the node. Else the lowest pure literal is bound, or
where there is none the literal of the first unit clause, and the search goes on below what
this leaves (`follow`). Where nothing is forced, the lowest unbound atom is made true
and, only if that is refuted, false, both times from the clauses and the assignment at the
split (`branchOn`).

The procedure has no journal to write to. Each call returns an account of what happened
below its node, put together from the accounts of its parts, and
`Formula.solveRecursively` closes the account of the whole search with its verdict.
-/

namespace DavisPutnam

/-! ### Accounts -/

/-- The counters of two parts of a search together. -/
def Stats.plus (s t : Stats) : Stats where
  decisions := s.decisions + t.decisions
  pureLiterals := s.pureLiterals + t.pureLiterals
  unitClauses := s.unitClauses + t.unitClauses
  conflicts := s.conflicts + t.conflicts
  maxDepth := max s.maxDepth t.maxDepth

/-- What a part of a search did: its events in order, and its counters. -/
structure Account where
  events : List Event := []
  stats : Stats := {}
deriving DecidableEq, Repr

namespace Account

/-- The account of one binding. A decision is the first thing done at its depth. -/
def binding (reason : Reason) (l : Literal) (depth : Nat) : Account where
  events := [.bound reason l depth]
  stats :=
    match reason with
    | .decision => { decisions := 1, maxDepth := depth }
    | .pure => { pureLiterals := 1 }
    | .unit => { unitClauses := 1 }

/-- The account of a conflict. -/
def conflict (depth : Nat) : Account where
  events := [.conflict depth]
  stats := { conflicts := 1 }

/-- The account of two parts of a search, one after the other. -/
def append (first second : Account) : Account where
  events := first.events ++ second.events
  stats := first.stats.plus second.stats

instance : Append Account := ⟨append⟩

end Account

/-! ### The procedure -/

/-- What is known of the part of the search tree below a node. -/
inductive Finding where
  /-- A model, found at the given depth. -/
  | model (model : Model) (depth : Nat)
  /-- There is no model. -/
  | refuted
  | faulted (fault : Fault)
deriving DecidableEq, Repr

/-- What was found after the part of the search that `t` accounts for, with the account of
both. -/
def Account.before (t : Account) (found : Finding × Account) : Finding × Account :=
  (found.1, t ++ found.2)

mutual

/-- Searches below a node at the given depth, whose decisions have been bound. -/
def descend (depth : Nat) (clauses : List Clause) (a : Assignment) : Finding × Account :=
  if clauses.isEmpty then (.model a.complete depth, {})
  else if clauses.any List.isEmpty then (.refuted, .conflict depth)
  else
    match pureLiterals a.atoms clauses with
    | .error fault => (.faulted fault, {})
    | .ok (l :: _) => follow .pure l depth clauses a
    | .ok [] =>
      match firstUnit? clauses with
      | some l => follow .unit l depth clauses a
      | none =>
        match a.firstUnbound with
        | none => (.refuted, .conflict depth)
        | some atom => branchOn atom (depth + 1) clauses a
termination_by (a.unboundCount, 2)

/-- Makes an atom true and, only if that is refuted, false, from the same clauses and the
same assignment. -/
def branchOn (atom depth : Nat) (clauses : List Clause) (a : Assignment) : Finding × Account :=
  match follow .decision ⟨atom, true⟩ depth clauses a with
  | (.refuted, first) => first.before (follow .decision ⟨atom, false⟩ depth clauses a)
  | found => found
termination_by (a.unboundCount, 1)

/-- Binds a literal, and searches below what this leaves. -/
def follow (reason : Reason) (l : Literal) (depth : Nat) (clauses : List Clause)
    (a : Assignment) : Finding × Account :=
  match _committed : commit l clauses a with
  | .error fault => (.faulted fault, .binding reason l depth)
  | .ok (rest, b) => (Account.binding reason l depth).before (descend depth rest b)
termination_by (a.unboundCount, 0)
decreasing_by
  have := unboundCount_commit _committed
  exact Prod.Lex.left _ _ (by omega)

end

/-! ### The whole search -/

/-- A finished search: the answer, the events in order, and the counters. -/
structure Conclusion where
  verdict : Except Fault Verdict
  events : List Event
  stats : Stats

/-- Closes the account of a search with what was found below the root. The last event
carries the counters. -/
def Account.conclude (t : Account) : Finding → Conclusion
  | .model model depth =>
    ⟨.ok (.satisfiable model), t.events ++ [.satisfiable depth t.stats], t.stats⟩
  | .refuted => ⟨.ok .unsatisfiable, t.events ++ [.unsatisfiable t.stats], t.stats⟩
  | .faulted fault => ⟨.error fault, t.events, t.stats⟩

/-- Searches for a model of a formula by recursion. -/
def Formula.solveRecursively (f : Formula) : Conclusion :=
  let (finding, t) := descend 0 f.clauses (.unbound f.atoms)
  t.conclude finding

end DavisPutnam
