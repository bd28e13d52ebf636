import DavisPutnam.Fault
import DavisPutnam.Formula

/-!
Models: a truth value for each of the atoms `1, …, n`.

A model gives the value of an atom in that range and a fault for any other.
Checking a formula goes from left to right and stops as soon as the answer is
known, so an atom that the model lacks is a fault only if the check reaches it.
-/

namespace DavisPutnam

/-- The slot of `atom` in a table with one slot per atom, atom 1 first. -/
def atomSlot? {α : Type} (table : List α) : Nat → Option α
  | 0 => none
  | i + 1 => table[i]?

/-- A truth value per atom, atom 1 first. -/
structure Model where
  values : List Bool
deriving DecidableEq, Repr

namespace Model

/-- The value of an atom. -/
def value (m : Model) (atom : Nat) : Except Fault Bool :=
  match atomSlot? m.values atom with
  | some v => .ok v
  | none => .error (.atomOutOfRange atom)

/-- Whether a literal is true. -/
def literalValue (m : Model) (l : Literal) : Except Fault Bool :=
  (m.value l.atom).map (· == l.positive)

/-- Whether some literal of a clause is true, tried in order up to the first
true one. -/
def satisfiesClause (m : Model) (c : Clause) : Except Fault Bool :=
  c.anyM m.literalValue

/-- Whether every clause has a true literal, tried in order up to the first
clause without one. -/
def satisfies (m : Model) (f : Formula) : Except Fault Bool :=
  f.clauses.allM m.satisfiesClause

/-- The true literal of each atom, in atom order. -/
def literals (m : Model) : List Literal :=
  m.values.mapIdx fun i v => ⟨i + 1, v⟩

/-- The signed true literals, separated by spaces. -/
def text (m : Model) : String :=
  " ".intercalate (m.literals.map Literal.text)

end Model

/-- An atom has a slot exactly if it is one of `1, …, n`. -/
theorem atomSlot?_eq_none_iff {α : Type} {table : List α} {atom : Nat} :
    atomSlot? table atom = none ↔ atom = 0 ∨ table.length < atom := by
  cases atom with
  | zero => simp [atomSlot?]
  | succ i =>
    rw [atomSlot?, List.getElem?_eq_none_iff]
    omega

end DavisPutnam
