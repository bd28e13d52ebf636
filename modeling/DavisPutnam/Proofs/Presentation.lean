import DavisPutnam.Proofs.Bindings
import DavisPutnam.Proofs.Correctness
import DavisPutnam.Proofs.Simulation
import Mathlib.Logic.Relation

/-!
How clauses are written down does not matter to the search.

The literals of a clause may stand in another order, and further copies of a clause may
follow it anywhere. One such change (`Restated`) is seen by none of the questions that the
search asks of a clause list: whether it is empty or has an empty clause, which literals
occur, and which the first unit is. After a binding the two clause lists differ by one such
change or no more at all (`Restated.filterMap_given`), so the searches keep in step
(`simulation_restated`). By any number of changes the run stays the same
(`Formula.solve_restates`).

The order of the clauses is another matter, as it decides which unit comes first, and so is
a literal that is repeated in a clause, as that keeps the clause from being a unit.
-/

namespace DavisPutnam

/-- A clause list and what at most one change makes of it. -/
inductive Restated : List Clause → List Clause → Prop where
  | same (clauses : List Clause) : Restated clauses clauses
  /-- The literals of a clause are put in another order. -/
  | reorder (before after : List Clause) {c d : Clause} (reordered : c.Perm d) :
      Restated (before ++ c :: after) (before ++ d :: after)
  /-- A copy of a clause is inserted somewhere after it. -/
  | copy (before between after : List Clause) (c : Clause) :
      Restated (before ++ c :: (between ++ after)) (before ++ c :: (between ++ c :: after))

/-! ### Clauses with their literals in another order -/

section Reordered

variable {c d : Clause}

theorem Clause.unit?_perm (reordered : c.Perm d) : c.unit? = d.unit? := by
  refine Option.ext fun l => ?_
  rw [Clause.unit?_eq_some_iff, Clause.unit?_eq_some_iff, ← List.perm_singleton,
    ← List.perm_singleton]
  exact ⟨reordered.symm.trans, reordered.trans⟩

/-- What a binding leaves of the two clauses is again the same but for the order. -/
theorem Clause.given_perm (reordered : c.Perm d) (atom : Nat) (value : Bool) :
    Option.Rel List.Perm (c.given atom value) (d.given atom value) := by
  rw [Clause.given_eq, Clause.given_eq, reordered.any_eq]
  split
  · exact .none
  · exact .some (reordered.filter _)

end Reordered

/-! ### What a change leaves as it was -/

namespace Restated

variable {clauses others : List Clause}

theorem occursIn_iff (h : Restated clauses others) {l : Literal} :
    l.OccursIn others ↔ l.OccursIn clauses := by
  unfold Literal.OccursIn
  cases h with
  | same => rfl
  | reorder before after reordered =>
    simp only [List.mem_append, List.mem_cons, or_and_right, exists_or, exists_eq_left,
      reordered.mem_iff]
  | copy before between after c =>
    simp only [List.mem_append, List.mem_cons, or_and_right, exists_or, exists_eq_left]
    grind

theorem eq_nil_iff (h : Restated clauses others) : others = [] ↔ clauses = [] := by
  cases h <;> simp

theorem nil_mem_iff (h : Restated clauses others) : [] ∈ others ↔ [] ∈ clauses := by
  cases h with
  | same => rfl
  | @reorder before after c d reordered =>
    have empty : d = [] ↔ c = [] := by
      rw [← List.perm_nil, ← List.perm_nil]
      exact ⟨reordered.trans, reordered.symm.trans⟩
    simp only [List.mem_append, List.mem_cons, eq_comm (a := []), empty]
  | copy before between after c =>
    simp only [List.mem_append, List.mem_cons]
    grind

theorem undecided_iff (h : Restated clauses others) : Undecided others ↔ Undecided clauses :=
  and_congr (not_congr h.eq_nil_iff) (not_congr h.nil_mem_iff)

theorem firstUnit?_eq (h : Restated clauses others) : firstUnit? others = firstUnit? clauses := by
  cases h with
  | same => rfl
  | reorder before after reordered =>
    simp only [firstUnit?, List.findSome?_append, List.findSome?_cons, Clause.unit?_perm reordered]
  | copy before between after c =>
    -- If the copy is a unit, so is the clause before it.
    cases unit : c.unit? with
    | none => simp [firstUnit?, List.findSome?_append, unit]
    | some l => simp [firstUnit?, List.findSome?_append, unit]

/-- Clauses that change places, or a literal that is written twice, make a difference. -/
example : firstUnit? [[⟨2, true⟩], [⟨1, true⟩]] ≠ firstUnit? [[⟨1, true⟩], [⟨2, true⟩]] ∧
    firstUnit? [[⟨1, true⟩, ⟨1, true⟩]] ≠ firstUnit? [[⟨1, true⟩]] := by
  decide

/-- A binding leaves clause lists that differ by at most one change. -/
theorem filterMap_given (h : Restated clauses others) (atom : Nat) (value : Bool) :
    Restated (clauses.filterMap (Clause.given atom value))
      (others.filterMap (Clause.given atom value)) := by
  cases h with
  | same => exact .same _
  | @reorder before after c d reordered =>
    have left := Clause.given_perm reordered atom value
    simp only [List.filterMap_append, List.filterMap_cons]
    revert left
    generalize c.given atom value = first, d.given atom value = second
    rintro (kept | _)
    · exact .reorder _ _ kept
    · exact .same _
  | copy before between after c =>
    simp only [List.filterMap_append, List.filterMap_cons]
    cases c.given atom value with
    | none => exact .same _
    | some left => exact .copy _ _ _ left

end Restated

/-! ### Searches of restated clauses -/

/-- Nodes with the same assignment, whose clauses differ by at most one change, look alike
to the search. -/
theorem simulation_restated :
    Simulation id fun clauses a others b => Restated clauses others ∧ b = a where
  alike := by
    rintro clauses others a b ⟨restated, rfl⟩
    exact {
      settled := fun none => ⟨restated.eq_nil_iff.mpr none, rfl⟩
      conflict := restated.nil_mem_iff.mpr
      undecided := restated.undecided_iff.mpr
      pure := fun _ found => pureLiterals_congr found (Nat.le_refl _) fun _ => restated.occursIn_iff
      unit := restated.firstUnit?_eq
      lowest := fun _ lowest => lowest }
  commit := by
    rintro clauses others rest a b c l ⟨restated, rfl⟩ committed
    obtain ⟨assigned, rfl⟩ := commit_eq_ok_iff.mp committed
    exact ⟨_, c, commit_eq_ok_iff.mpr ⟨assigned, rfl⟩, restated.filterMap_given _ _, rfl⟩

namespace Formula

/-- One formula is the other, written down with the literals of clauses in another order and
with further copies of clauses after them. -/
def Restates (f g : Formula) : Prop :=
  g.atoms = f.atoms ∧ Relation.ReflTransGen Restated f.clauses g.clauses

section Restated

variable {atoms : Nat} {clauses others : List Clause}

theorem WellFormed.restated (wf : WellFormed ⟨atoms, clauses⟩) (h : Restated clauses others) :
    WellFormed ⟨atoms, others⟩ := by
  intro c mem l inside
  obtain ⟨d, there, within⟩ := h.occursIn_iff.mp ⟨c, mem, inside⟩
  exact wf d there l within

/-- One change does not show in the run. -/
theorem solve_restated (wf : WellFormed ⟨atoms, clauses⟩) (h : Restated clauses others) :
    solve ⟨atoms, others⟩ = solve ⟨atoms, clauses⟩ := by
  rw [solve_of_simulation simulation_restated wf (wf.restated h) ⟨h, rfl⟩, Run.map_id]

end Restated

/-- **Presentation.** If a formula restates a well-formed one, the search for a model of it is
the same run: it has the same verdict with the same model, the same counters and the same
events. -/
theorem solve_restates {f g : Formula} (wf : f.WellFormed) (h : f.Restates g) :
    g.solve = f.solve := by
  have chain {clauses : List Clause} (restated : Relation.ReflTransGen Restated f.clauses clauses) :
      WellFormed ⟨f.atoms, clauses⟩ ∧ solve ⟨f.atoms, clauses⟩ = f.solve := by
    induction restated with
    | refl => exact ⟨wf, rfl⟩
    | tail _ once ih =>
      obtain ⟨before, earlier⟩ := ih
      exact ⟨before.restated once, (solve_restated before once).trans earlier⟩
  obtain ⟨atoms, clauses⟩ := g
  obtain ⟨rfl, restated⟩ := h
  exact (chain restated).2

/-- The clauses of `isolated`, two of them with their literals in another order and two of
them repeated, once in another order. -/
def repetitive : Formula where
  atoms := 3
  clauses := [[⟨2, true⟩, ⟨1, false⟩], [⟨1, false⟩, ⟨2, false⟩], [⟨1, false⟩, ⟨2, true⟩],
    [⟨1, true⟩, ⟨2, true⟩], [⟨3, true⟩, ⟨1, true⟩, ⟨2, false⟩], [⟨3, false⟩, ⟨2, true⟩],
    [⟨2, false⟩, ⟨1, false⟩]]

/-- The search for a model of `repetitive` goes through the same conflict to the same model as
that of `isolated`. -/
theorem solve_restates_repetitive : isolated.WellFormed ∧ isolated.Restates repetitive ∧
    repetitive ≠ isolated ∧ repetitive.solve = isolated.solve := by
  have wf : isolated.WellFormed := by decide
  have restates : isolated.Restates repetitive := by
    refine ⟨rfl, ?_⟩
    refine .tail (.tail (.tail (.tail (.tail .refl (.copy [] [_] _ _))
      (.copy [_] [_, _, _, _] [] _)) (.reorder [] _ ?_)) (.reorder [_, _, _, _] _ ?_))
      (.reorder [_, _, _, _, _, _] [] ?_)
    all_goals decide
  exact ⟨wf, restates, by decide, solve_restates wf restates⟩

end Formula

end DavisPutnam
