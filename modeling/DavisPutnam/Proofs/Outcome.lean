import DavisPutnam.Proofs.Refutation

/-!
What the outcome of an expansion says of the clauses.

An expansion starts from the clauses of a branch once its decision is applied. Forced bindings
follow, some of them entailed and some, those of pure literals, only harmless. Under a valuation
that agrees with all bindings the clauses at the end are as true as those at the start
(`Simplifies.allHold_eq`), and since no clause that is left mentions a bound atom, any valuation
can be made to agree (`Assignment.Untouched.exists_admits`). So the clauses at the end can be
satisfied exactly if those at the start can (`Simplifies.satisfiable_iff`). Where nothing is forced,
there is no unit and no pure literal left (`irreducible_of_unforced`). Hence each outcome is right
about the clauses at the start (`Branch.Ready.expand_correct`).
-/

namespace DavisPutnam

/-! ### Forced bindings and satisfiability -/

/-- Under a valuation that agrees with the bindings, forced bindings keep the truth of the
clauses. -/
theorem Simplifies.allHold_eq {clauses rest : List Clause} {a b : Assignment}
    {steps : List (Reason × Literal)} (h : Simplifies clauses a steps rest b) {v : Valuation}
    (admits : b.Admits v) : allHold v rest = allHold v clauses := by
  induction h with
  | refl => rfl
  | step _ _ committed later ih =>
    have assigned := assign_of_commit_eq_ok committed
    obtain ⟨_, holds⟩ := (Assignment.admits_assign_iff assigned).mp (later.keeps.admits admits)
    rw [ih admits, allHold_commit committed holds]

/-- Clauses on free atoms that can be satisfied are satisfied by a valuation that agrees with
the assignment. -/
theorem Assignment.Untouched.exists_admits {a : Assignment} {clauses : List Clause}
    (untouched : a.Untouched clauses) {v : Valuation} (satisfied : allHold v clauses = true) :
    ∃ w : Valuation, a.Admits w ∧ allHold w clauses = true := by
  let w : Valuation := fun atom => (atomSlot? a.slots atom).join.getD (v atom)
  refine ⟨w, fun atom value bound => by simp [w, bound], ?_⟩
  have same : allHold w clauses = allHold v clauses := by
    refine allHold_congr fun c mem l inside => ?_
    have free : atomSlot? a.slots l.atom = some none := untouched c mem l inside
    simp [w, free]
  exact same.trans satisfied

/-- Forced bindings leave clauses that can be satisfied exactly if those before could. -/
theorem Simplifies.satisfiable_iff {clauses rest : List Clause} {a b : Assignment}
    {steps : List (Reason × Literal)} (h : Simplifies clauses a steps rest b)
    (untouched : a.Untouched clauses) :
    (∃ v : Valuation, allHold v clauses = true) ↔ ∃ v : Valuation, allHold v rest = true := by
  constructor
  · exact h.exists_allHold
  · rintro ⟨v, satisfied⟩
    obtain ⟨w, admits, kept⟩ := (h.untouched untouched).exists_admits satisfied
    exact ⟨w, (h.allHold_eq admits).symm.trans kept⟩

/-! ### Where simplification stops -/

/-- Nothing about the clauses is settled, and nothing is forced: there is a clause, every clause
has at least two literals, and every atom that occurs does so with both signs. -/
structure Irreducible (clauses : List Clause) : Prop where
  ne_nil : clauses ≠ []
  nil_not_mem : [] ∉ clauses
  unit_not_mem : ∀ l : Literal, [l] ∉ clauses
  complement : ∀ l : Literal, l.OccursIn clauses → l.complement.OccursIn clauses

theorem irreducible_of_unforced {atoms : Nat} {clauses : List Clause}
    (undecided : Undecided clauses) (unforced : forced? atoms clauses = .ok none) :
    Irreducible clauses := by
  obtain ⟨impure, unitless⟩ := forced?_eq_none_iff.mp unforced
  refine ⟨undecided.1, undecided.2, fun l mem => ?_, fun l occurs => ?_⟩
  · have none := List.findSome?_eq_none_iff.mp unitless [l] mem
    cases none
  · exact (pureLiterals_eq_nil_iff impure).mp rfl l occurs

/-! ### Outcomes -/

/-- The outcome is right about the clauses and the assignment with which simplification starts. -/
def Outcome.Correct (clauses : List Clause) (a : Assignment) : Outcome → Prop
  | .satisfied m => m.values.length = a.atoms ∧ a.Admits m.valuation ∧
      m.satisfies ⟨a.atoms, clauses⟩ = .ok true
  | .conflict => ¬ Formula.Satisfiable ⟨a.atoms, clauses⟩
  | .split atom rest b => b.Extends a ∧
      (Formula.Satisfiable ⟨a.atoms, clauses⟩ ↔ Formula.Satisfiable ⟨b.atoms, rest⟩) ∧
      Irreducible rest ∧ b.Untouched rest ∧
      b.Free atom ∧ ∀ other, b.Free other → atom ≤ other
  | .faulted _ => False

/-- The outcome that the last pass calls for is right about the clauses before the first pass. -/
theorem Simplifies.correct {clauses rest : List Clause} {a b : Assignment}
    {steps : List (Reason × Literal)} {out : Outcome} (h : Simplifies clauses a steps rest b)
    (untouched : a.Untouched clauses) (ends : out.EndsAt rest b) : out.Correct clauses a := by
  cases out with
  | satisfied m =>
    obtain ⟨rfl, rfl⟩ := ends
    have size : b.complete.values.length = a.atoms := b.length_complete.trans h.keeps.1
    have wf : Formula.WellFormed ⟨a.atoms, clauses⟩ := fun c mem l inside =>
      (untouched c mem l inside).inRange
    refine ⟨size, h.keeps.admits b.admits_complete, ?_⟩
    rw [Model.satisfies_eq_ok wf size, ← h.allHold_eq b.admits_complete]
    rfl
  | conflict =>
    rintro satisfiable
    obtain ⟨v, satisfied⟩ := h.exists_allHold satisfiable
    cases (allHold_eq_false_of_nil_mem ends).symm.trans satisfied
  | split atom last c =>
    obtain ⟨rfl, rfl, undecided, unforced, lowest⟩ := ends
    exact ⟨h.keeps, h.satisfiable_iff untouched, irreducible_of_unforced undecided unforced,
      h.untouched untouched, Assignment.free_of_firstUnbound lowest,
      fun _ => Assignment.le_of_firstUnbound lowest⟩
  | faulted fault => exact ends

namespace Branch

/-- **Expansion.** The decision of a ready branch can be applied, and the outcome of the expansion
is right about the clauses and the assignment that this leads to. A model keeps the bindings and
satisfies the clauses. After a conflict they cannot be satisfied. At a split the assignment has been
extended, the clauses that are left can be satisfied exactly if these can, they are irreducible and
on free atoms, and the split is on the lowest free atom. There is no fault. -/
theorem Ready.expand_correct {b : Branch} (ready : b.Ready) (j : Journal) :
    ∃ clauses a, b.entered = .ok (clauses, a) ∧ (b.expand j).1.Correct clauses a := by
  obtain ⟨out, steps, rest, c, ⟨clauses, a, entered, simplifies⟩, ends, result⟩ := ready.expand j
  obtain ⟨_, _, again, untouched⟩ := ready.entered
  cases entered.symm.trans again
  refine ⟨clauses, a, entered, ?_⟩
  rw [result]
  exact simplifies.correct untouched ends

/-- A branch that makes atom 1 true. This leaves a pure literal on atom 4 and a unit on atom 3, and
then two clauses over atoms 5 and 6. -/
def halfway : Branch where
  clauses := [[⟨1, false⟩, ⟨3, true⟩], [⟨3, false⟩, ⟨5, true⟩, ⟨6, true⟩],
    [⟨1, true⟩, ⟨4, false⟩], [⟨5, false⟩, ⟨6, false⟩], [⟨4, true⟩, ⟨5, true⟩, ⟨6, false⟩]]
  assignment := .unbound 6
  decision := some ⟨1, true⟩
  depth := 1

/-- The expansion of `halfway` splits on atom 2, which no clause mentions. -/
theorem expand_correct_halfway : halfway.Ready ∧
    (halfway.expand {}).1 = .split 2 [[⟨5, true⟩, ⟨6, true⟩], [⟨5, false⟩, ⟨6, false⟩]]
      ⟨[some true, none, some true, some true, none, none]⟩ ∧
    Irreducible [[⟨5, true⟩, ⟨6, true⟩], [⟨5, false⟩, ⟨6, false⟩]] ∧
    (Formula.Satisfiable ⟨6, [[⟨3, true⟩], [⟨3, false⟩, ⟨5, true⟩, ⟨6, true⟩],
        [⟨5, false⟩, ⟨6, false⟩], [⟨4, true⟩, ⟨5, true⟩, ⟨6, false⟩]]⟩ ↔
      Formula.Satisfiable ⟨6, [[⟨5, true⟩, ⟨6, true⟩], [⟨5, false⟩, ⟨6, false⟩]]⟩) := by
  have ready : halfway.Ready := by
    refine ⟨by decide, ?_⟩
    rintro l decision
    cases decision
    decide
  have expanded : (halfway.expand {}).1 =
      .split 2 [[⟨5, true⟩, ⟨6, true⟩], [⟨5, false⟩, ⟨6, false⟩]]
        ⟨[some true, none, some true, some true, none, none]⟩ := by
    rw [expand_of_entered rfl, simplify_of_forced (l := ⟨4, true⟩) (by decide) rfl rfl,
      simplify_of_forced (l := ⟨3, true⟩) (by decide) rfl rfl,
      simplify_of_unforced (by decide) rfl rfl]
    rfl
  obtain ⟨clauses, a, entered, correct⟩ := ready.expand_correct {}
  cases entered
  rw [expanded] at correct
  obtain ⟨_, satisfiable, irreducible, _⟩ := correct
  exact ⟨ready, expanded, irreducible, satisfiable⟩

end Branch

end DavisPutnam
