import DavisPutnam.Assignment

/-!
What formulas mean: truth under a valuation of all atoms.

A valuation gives every atom a truth value, in range or not. A model determines
one, with the atoms beyond its range true, and checking a well-formed formula
against the model agrees with it (`Model.satisfies_eq_ok`).
-/

namespace DavisPutnam

/-- A truth value for every atom. -/
abbrev Valuation := Nat → Bool

/-- A literal is true if the valuation gives its atom its sign. -/
def Literal.holds (v : Valuation) (l : Literal) : Bool :=
  v l.atom == l.positive

/-- A clause is true if one of its literals is. -/
def Clause.holds (v : Valuation) (c : Clause) : Bool :=
  c.any (Literal.holds v)

/-- A clause list is true if all its clauses are. -/
def allHold (v : Valuation) (clauses : List Clause) : Bool :=
  clauses.all (Clause.holds v)

/-- Some valuation makes every clause true. -/
def Formula.Satisfiable (f : Formula) : Prop :=
  ∃ v : Valuation, allHold v f.clauses = true

/-- The valuation of a model. -/
def Model.valuation (m : Model) : Valuation := fun atom =>
  (atomSlot? m.values atom).getD true

/-- The valuation gives every bound atom its value. -/
def Assignment.Admits (a : Assignment) (v : Valuation) : Prop :=
  ∀ atom value, atomSlot? a.slots atom = some (some value) → v atom = value

/-! ### Checks that meet no fault -/

section Checks

variable {α : Type} {check : α → Except Fault Bool} {holds : α → Bool} {xs : List α}

theorem anyM_eq_ok (known : ∀ x ∈ xs, check x = .ok (holds x)) :
    xs.anyM check = .ok (xs.any holds) := by
  induction xs with
  | nil => rfl
  | cons x rest ih =>
    obtain ⟨first, others⟩ := List.forall_mem_cons.mp known
    rw [List.anyM_cons, first, ih others, List.any_cons]
    cases holds x <;> rfl

theorem allM_eq_ok (known : ∀ x ∈ xs, check x = .ok (holds x)) :
    xs.allM check = .ok (xs.all holds) := by
  induction xs with
  | nil => rfl
  | cons x rest ih =>
    obtain ⟨first, others⟩ := List.forall_mem_cons.mp known
    rw [List.allM_cons, first, ih others, List.all_cons]
    cases holds x <;> rfl

theorem findM?_eq_ok (known : ∀ x ∈ xs, check x = .ok (holds x)) :
    xs.findM? check = .ok (xs.find? holds) := by
  induction xs with
  | nil => rfl
  | cons x rest ih =>
    obtain ⟨first, others⟩ := List.forall_mem_cons.mp known
    rw [List.findM?, first, ih others, List.find?_cons]
    cases holds x <;> rfl

end Checks

/-! ### Models as valuations -/

theorem Model.value_eq_ok {m : Model} {atom : Nat} (low : 1 ≤ atom)
    (high : atom ≤ m.values.length) : m.value atom = .ok (m.valuation atom) := by
  cases slot : atomSlot? m.values atom with
  | none =>
    have := atomSlot?_eq_none_iff.mp slot
    omega
  | some value => simp only [Model.value, valuation, slot, Option.getD_some]

theorem Model.valuation_of_value {m : Model} {atom : Nat} {value : Bool}
    (known : m.value atom = .ok value) : m.valuation atom = value := by
  unfold Model.value at known
  split at known
  · next slot =>
    cases known
    exact congrArg (·.getD true) slot
  · cases known

theorem Model.literalValue_eq_ok {m : Model} {l : Literal}
    (range : l.InRange m.values.length) :
    m.literalValue l = .ok (l.holds m.valuation) := by
  rw [literalValue, value_eq_ok range.1 range.2]
  rfl

theorem Model.holds_of_literalValue {m : Model} {l : Literal} {truth : Bool}
    (known : m.literalValue l = .ok truth) : l.holds m.valuation = truth := by
  unfold literalValue at known
  cases value : m.value l.atom with
  | error fault =>
    rw [value] at known
    cases known
  | ok value' =>
    rw [value] at known
    cases known
    exact congrArg (· == l.positive) (valuation_of_value value)

theorem Model.satisfiesClause_eq_ok {m : Model} {c : Clause}
    (range : ∀ l ∈ c, l.InRange m.values.length) :
    m.satisfiesClause c = .ok (c.holds m.valuation) :=
  anyM_eq_ok fun l mem => literalValue_eq_ok (range l mem)

/-- Checking clauses over the model's atoms never faults, and says whether they
are all true under the model's valuation. -/
theorem Model.allM_satisfiesClause_eq_ok {m : Model} {clauses : List Clause}
    (range : ∀ c ∈ clauses, ∀ l ∈ c, l.InRange m.values.length) :
    clauses.allM m.satisfiesClause = .ok (allHold m.valuation clauses) :=
  allM_eq_ok fun c mem => satisfiesClause_eq_ok (range c mem)

/-- Checking a formula over the model's atoms says whether it is true under the
model's valuation. -/
theorem Model.satisfies_eq_ok {m : Model} {f : Formula} (wf : f.WellFormed)
    (size : m.values.length = f.atoms) :
    m.satisfies f = .ok (allHold m.valuation f.clauses) :=
  allM_satisfiesClause_eq_ok fun c mem l inside => size ▸ wf c mem l inside

end DavisPutnam
