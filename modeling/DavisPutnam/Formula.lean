import DavisPutnam.Literal

/-!
Formulas in conjunctive normal form: an atom count and an ordered list of
clauses, each an ordered list of literals.

Order and repetition are kept as given. A formula may be built without any
check; `Formula.WellFormed` says that every literal stays within the atom
count, which is what the search relies on.
-/

namespace DavisPutnam

/-- A disjunction of literals. -/
abbrev Clause := List Literal

namespace Clause

/-- The sole literal of a one-literal clause. -/
def unit? : Clause → Option Literal
  | [l] => some l
  | _ => none

/-- Some literal of the clause is on the given atom. -/
def mentions (c : Clause) (atom : Nat) : Bool :=
  c.any (·.atom == atom)

theorem unit?_eq_some_iff {c : Clause} {l : Literal} : unit? c = some l ↔ c = [l] := by
  match c with
  | [] => simp [unit?]
  | [_] => simp [unit?]
  | _ :: _ :: _ => simp [unit?]

theorem mentions_iff {c : Clause} {atom : Nat} :
    mentions c atom = true ↔ ∃ l ∈ c, l.atom = atom := by
  simp [mentions]

end Clause

/-- A conjunction of clauses over the atoms `1, …, atoms`. -/
structure Formula where
  atoms : Nat
  clauses : List Clause
deriving DecidableEq, Repr

namespace Formula

/-- Every literal is on one of the atoms `1, …, atoms`. -/
def WellFormed (f : Formula) : Prop :=
  ∀ c ∈ f.clauses, ∀ l ∈ c, l.InRange f.atoms

instance (f : Formula) : Decidable f.WellFormed := by
  unfold WellFormed; infer_instance

end Formula

end DavisPutnam
