import DavisPutnam.Assignment

/-!
What a binding leaves of a clause list.

Once an atom is bound, a clause with a true occurrence of it is settled and
dropped, and every false occurrence is removed from the other clauses. A
clause that loses all its literals stays, empty, as the mark of a conflict.
`propagate` does this for one atom of an assignment. `commit` binds an atom and
propagates it, and so shrinks the supply of unbound atoms
(`unboundCount_commit`). `residual` does it for all bound atoms at once.
-/

namespace DavisPutnam

/-- What is left of a clause once `atom` has the given value: nothing if an
occurrence of the atom is true, else the clause without its occurrences. -/
def Clause.given (atom : Nat) (value : Bool) (c : Clause) : Option Clause :=
  if c.mentions atom then
    if c.any fun l => l.atom == atom && l.positive == value then none
    else some (c.filter (·.atom != atom))
  else some c

/-- Simplifies a clause list by the value that the assignment gives to the atom
of `l`. The value counts, not the sign of `l`. -/
def propagate (l : Literal) (clauses : List Clause) (a : Assignment) :
    Except Fault (List Clause) :=
  match a.value l.atom with
  | .error fault => .error fault
  | .ok none => .error (.atomUnbound l.atom)
  | .ok (some value) => .ok (clauses.filterMap (Clause.given l.atom value))

/-- Makes a literal true and simplifies the clause list accordingly. -/
def commit (l : Literal) (clauses : List Clause) (a : Assignment) :
    Except Fault (List Clause × Assignment) :=
  match a.assign l with
  | .error fault => .error fault
  | .ok b =>
    match propagate l clauses b with
    | .error fault => .error fault
    | .ok rest => .ok (rest, b)

/-- What is left of a clause under all bindings of an assignment: nothing if one
of its literals is true, else its unbound literals. -/
def Clause.under (a : Assignment) (c : Clause) : Option Clause :=
  if c.any fun l => a.truth? l == some true then none
  else some (c.filter fun l => a.truth? l == none)

/-- What an assignment leaves of a clause list. -/
def residual (a : Assignment) (clauses : List Clause) : List Clause :=
  clauses.filterMap (Clause.under a)

/-- The literal of the first one-literal clause. -/
def firstUnit? (clauses : List Clause) : Option Literal :=
  clauses.findSome? Clause.unit?

/-- A clause that does not mention the atom is kept as it is. -/
theorem Clause.given_of_not_mentions {c : Clause} {atom : Nat} {value : Bool}
    (absent : c.mentions atom = false) : c.given atom value = some c := by
  simp [Clause.given, absent]

/-- A literal is committed only through a successful assignment. -/
theorem assign_of_commit_eq_ok {l : Literal} {clauses rest : List Clause} {a b : Assignment}
    (h : commit l clauses a = .ok (rest, b)) : a.assign l = .ok b := by
  unfold commit at h
  split at h
  · cases h
  · next assigned =>
    split at h
    · cases h
    · cases h; exact assigned

/-- A commitment uses up one unbound atom. -/
theorem unboundCount_commit {l : Literal} {clauses rest : List Clause} {a b : Assignment}
    (h : commit l clauses a = .ok (rest, b)) : b.unboundCount + 1 = a.unboundCount :=
  Assignment.unboundCount_assign (assign_of_commit_eq_ok h)

/-- A commitment keeps the number of atoms. -/
theorem atoms_commit {l : Literal} {clauses rest : List Clause} {a b : Assignment}
    (h : commit l clauses a = .ok (rest, b)) : b.atoms = a.atoms :=
  Assignment.atoms_assign (assign_of_commit_eq_ok h)

end DavisPutnam
