import DavisPutnam.Fault
import DavisPutnam.Formula

/-!
Polarities and pure literals.

An atom that occurs with one sign only can be given that sign without harm: the
literal is pure. `pureLiterals` tallies the signs of every atom in one pass over
the clauses and lists the pure literals in ascending atom order. An atom outside
the atom count has no place in the tally and is a fault.
-/

namespace DavisPutnam

/-- The signs with which an atom occurs. -/
inductive Polarity where
  | absent
  | positive
  | negative
  | mixed
deriving DecidableEq, Repr

namespace Polarity

/-- The polarity after one more occurrence with the given sign. -/
def add : Polarity → Bool → Polarity
  | .absent, true | .positive, true => .positive
  | .absent, false | .negative, false => .negative
  | _, _ => .mixed

/-- The pure literal of an atom with this polarity. -/
def literal? (atom : Nat) : Polarity → Option Literal
  | .positive => some ⟨atom, true⟩
  | .negative => some ⟨atom, false⟩
  | .absent | .mixed => none

end Polarity

/-- A polarity per atom, atom 1 first. -/
abbrev Tally := Array Polarity

namespace Tally

/-- Counts the occurrences in one clause. -/
def addClause (t : Tally) : Clause → Except Fault Tally
  | [] => .ok t
  | l :: rest =>
    if l.InRange t.size then
      addClause (t.modify (l.atom - 1) (·.add l.positive)) rest
    else .error (.atomOutOfRange l.atom)

/-- Counts the occurrences in a list of clauses. -/
def addClauses (t : Tally) : List Clause → Except Fault Tally
  | [] => .ok t
  | c :: rest =>
    match addClause t c with
    | .error fault => .error fault
    | .ok counted => addClauses counted rest

/-- The polarity of every atom in a list of clauses. -/
def ofClauses (atoms : Nat) (clauses : List Clause) : Except Fault Tally :=
  addClauses (Array.replicate atoms .absent) clauses

/-- The pure literals of a tally, in ascending atom order. -/
def pureLiterals (t : Tally) : List Literal :=
  (t.toList.mapIdx fun i polarity => polarity.literal? (i + 1)).filterMap id

end Tally

/-- The literals whose complement does not occur in the clauses, in ascending
atom order. -/
def pureLiterals (atoms : Nat) (clauses : List Clause) : Except Fault (List Literal) :=
  (Tally.ofClauses atoms clauses).map Tally.pureLiterals

end DavisPutnam
