import DavisPutnam.Proofs.Refinement

/-!
Two searches that keep in step.

Nodes look alike to the search if both are settled, in conflict or undecided, force the
same binding and split on the same atom; their clauses and assignments may differ
(`Alike`). In a simulation related nodes look alike, and every commitment leads to related
nodes again. Then the recursive procedure takes the same course below both of them, with
the same account (`Explores.simulate`). Where it finds a model below the first node, it
finds the image of this model below the second. Formulas with related roots are therefore
searched by the same run, up to the image of the model (`Formula.solve_of_simulation`).
-/

namespace DavisPutnam

/-! ### Images of models -/

/-- The finding with another model. -/
def Finding.map (image : Model → Model) : Finding → Finding
  | .model m depth => .model (image m) depth
  | .refuted => .refuted
  | .faulted fault => .faulted fault

/-- The verdict with another model. -/
def Verdict.map (image : Model → Model) : Verdict → Verdict
  | .satisfiable m => .satisfiable (image m)
  | .unsatisfiable => .unsatisfiable

/-- The run with another model and the same journal. -/
def Run.map (image : Model → Model) (r : Run) : Run where
  verdict := Except.map (Verdict.map image) r.verdict
  journal := r.journal

/-- The conclusion with another model. -/
def Conclusion.map (image : Model → Model) (c : Conclusion) : Conclusion :=
  { c with verdict := Except.map (Verdict.map image) c.verdict }

theorem Run.conclusion_map (image : Model → Model) (r : Run) :
    (r.map image).conclusion = r.conclusion.map image :=
  rfl

theorem Run.map_id (r : Run) : r.map id = r := by
  obtain ⟨verdict, journal⟩ := r
  match verdict with
  | .error _ => rfl
  | .ok (.satisfiable _) => rfl
  | .ok .unsatisfiable => rfl

/-! ### Simulation -/

/-- Two nodes look alike to the search. Where the first is settled, `image` turns its model into
that of the second. -/
structure Alike (image : Model → Model) (clauses : List Clause) (a : Assignment)
    (others : List Clause) (b : Assignment) : Prop where
  settled : clauses = [] → others = [] ∧ b.complete = image a.complete
  conflict : [] ∈ clauses → [] ∈ others
  undecided : Undecided clauses → Undecided others
  pure : ∀ ls, pureLiterals a.atoms clauses = .ok ls → pureLiterals b.atoms others = .ok ls
  unit : firstUnit? others = firstUnit? clauses
  lowest : ∀ atom, a.firstUnbound = some atom → b.firstUnbound = some atom

/-- Related nodes look alike, and the same commitment leads from them to related nodes. -/
structure Simulation (image : Model → Model)
    (R : List Clause → Assignment → List Clause → Assignment → Prop) : Prop where
  alike {clauses others : List Clause} {a b : Assignment} (related : R clauses a others b) :
    Alike image clauses a others b
  commit {clauses others rest : List Clause} {a b c : Assignment} {l : Literal}
    (related : R clauses a others b) (committed : commit l clauses a = .ok (rest, c)) :
    ∃ left d, commit l others b = .ok (left, d) ∧ R rest c left d

section Simulation

variable {image : Model → Model}
  {R : List Clause → Assignment → List Clause → Assignment → Prop}

/-- The procedure takes the same course below related nodes. -/
theorem Explores.simulate (simulation : Simulation image R) {depth : Nat}
    {clauses others : List Clause} {a b : Assignment} {finding : Finding} {t : Account}
    (h : Explores depth clauses a finding t) (related : R clauses a others b) :
    Explores depth others b (finding.map image) t := by
  induction h generalizing others b with
  | satisfied =>
    obtain ⟨rfl, completed⟩ := (simulation.alike related).settled rfl
    rw [Finding.map, ← completed]
    exact .satisfied
  | conflict empty => exact .conflict ((simulation.alike related).conflict empty)
  | pure undecided found committed _ ih =>
    have alike := simulation.alike related
    obtain ⟨left, d, again, next⟩ := simulation.commit related committed
    exact .pure (alike.undecided undecided) (alike.pure _ found) again (ih next)
  | unit undecided impure found committed _ ih =>
    have alike := simulation.alike related
    obtain ⟨left, d, again, next⟩ := simulation.commit related committed
    exact .unit (alike.undecided undecided) (alike.pure _ impure) (alike.unit.trans found) again
      (ih next)
  | accept undecided impure unitless lowest committed _ ih =>
    have alike := simulation.alike related
    obtain ⟨left, d, again, next⟩ := simulation.commit related committed
    exact .accept (alike.undecided undecided) (alike.pure _ impure) (alike.unit.trans unitless)
      (alike.lowest _ lowest) again (ih next)
  | backtrack undecided impure unitless lowest accepted _ rejected _ ihTrue ihFalse =>
    -- Both branches start from the nodes at the split, which are related.
    have alike := simulation.alike related
    obtain ⟨left, c, again, first⟩ := simulation.commit related accepted
    obtain ⟨right, d, instead, second⟩ := simulation.commit related rejected
    exact .backtrack (alike.undecided undecided) (alike.pure _ impure) (alike.unit.trans unitless)
      (alike.lowest _ lowest) again (ihTrue first) instead (ihFalse second)

/-- Well-formed formulas with related roots are searched by the same run, up to the image
of the model. -/
theorem Formula.solve_of_simulation (simulation : Simulation image R) {f g : Formula}
    (wf : f.WellFormed) (wg : g.WellFormed)
    (related : R f.clauses (.unbound f.atoms) g.clauses (.unbound g.atoms)) :
    g.solve = f.solve.map image := by
  have concludes := (concludes_iff wf).mpr rfl
  refine Run.eq_of_conclusion ((concludes_iff wg).mp ?_).symm
  rw [Run.conclusion_map]
  generalize f.solve.conclusion = c at concludes
  cases concludes with
  | satisfiable found => exact .satisfiable (found.simulate simulation related)
  | unsatisfiable refuted => exact .unsatisfiable (refuted.simulate simulation related)

end Simulation

end DavisPutnam
