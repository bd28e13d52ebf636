import DavisPutnam.Proofs.Refinement

/-!
The search answers correctly.

A finding is correct below a node if a model keeps the bindings of the node and
satisfies its clauses, and if a refutation means that no valuation satisfies
them. Every finding of the recursive procedure is correct
(`correct_of_explores`): a binding can only lose satisfying valuations where it
is forced or where the opposite value has been refuted, and then one of them is
left (`Finding.Correct.of_commit`). A pure literal does lose some.

At the root this gives both halves for a well-formed formula: a model that is
found satisfies the formula (`Formula.satisfies_of_solve`), and the search finds
none exactly if there is none (`Formula.solve_unsatisfiable_iff`).
-/

namespace DavisPutnam

/-! ### Completion -/

theorem atomSlot?_map {α β : Type} (g : α → β) (table : List α) (atom : Nat) :
    atomSlot? (table.map g) atom = (atomSlot? table atom).map g := by
  cases atom with
  | zero => rfl
  | succ i => exact List.getElem?_map ..

theorem Assignment.admits_complete (a : Assignment) : a.Admits a.complete.valuation := by
  intro atom value bound
  simp [Model.valuation, complete, atomSlot?_map, bound]

theorem Assignment.length_complete (a : Assignment) : a.complete.values.length = a.atoms := by
  simp [complete, atoms]

/-! ### Findings -/

/-- The finding is right about the clauses and the assignment of a node. -/
def Finding.Correct (clauses : List Clause) (a : Assignment) : Finding → Prop
  | .model m _ => m.values.length = a.atoms ∧ a.Admits m.valuation ∧
      allHold m.valuation clauses = true
  | .refuted => ∀ v : Valuation, allHold v clauses = false
  | .faulted _ => False

section Commitment

variable {clauses rest : List Clause} {a b : Assignment} {l : Literal}

theorem Finding.Correct.model_of_commit {m : Model} {depth : Nat}
    (committed : commit l clauses a = .ok (rest, b))
    (correct : (Finding.model m depth).Correct rest b) :
    (Finding.model m depth).Correct clauses a := by
  obtain ⟨size, admits, satisfied⟩ := correct
  have assigned := assign_of_commit_eq_ok committed
  obtain ⟨before, holds⟩ := (Assignment.admits_assign_iff assigned).mp admits
  exact ⟨size.trans (atoms_commit committed), before, allHold_commit committed holds ▸ satisfied⟩

/-- A finding after a binding is right before it, provided that clauses that can
be satisfied can be satisfied with the literal true. -/
theorem Finding.Correct.of_commit {finding : Finding}
    (committed : commit l clauses a = .ok (rest, b))
    (spared : ∀ v : Valuation, allHold v clauses = true →
      ∃ w : Valuation, l.holds w = true ∧ allHold w clauses = true)
    (correct : finding.Correct rest b) : finding.Correct clauses a := by
  cases finding with
  | model m depth => exact model_of_commit committed correct
  | faulted fault => exact correct
  | refuted =>
    intro v
    apply Bool.eq_false_iff.mpr
    intro satisfied
    obtain ⟨w, holds, kept⟩ := spared v satisfied
    have lost : allHold w rest = false := correct w
    rw [allHold_commit committed holds, kept] at lost
    cases lost

end Commitment

theorem holds_of_firstUnit? {clauses : List Clause} {l : Literal} {v : Valuation}
    (found : firstUnit? clauses = some l) (satisfied : allHold v clauses = true) :
    l.holds v = true := by
  obtain ⟨k, mem, holds⟩ :=
    Clause.holds_iff.mp (allHold_iff.mp satisfied [l] (mem_of_firstUnit? found))
  exact List.mem_singleton.mp mem ▸ holds

/-- Clauses that can be satisfied can be satisfied with the forced literal true. -/
theorem exists_holds_of_forced? {atoms : Nat} {clauses : List Clause} {reason : Reason}
    {l : Literal} {v : Valuation} (forced : forced? atoms clauses = .ok (some (reason, l)))
    (satisfied : allHold v clauses = true) :
    ∃ w : Valuation, l.holds w = true ∧ allHold w clauses = true := by
  rcases forced?_eq_some_iff.mp forced with ⟨_, _, found⟩ | ⟨_, _, found⟩
  · have absent := ((mem_pureLiterals_iff found).mp List.mem_cons_self).2
    exact ⟨v.giving l, v.holds_giving_self l, allHold_giving_of_pure absent satisfied⟩
  · exact ⟨v, holds_of_firstUnit? found satisfied, satisfied⟩

/-- Every finding of the recursive procedure is correct. -/
theorem correct_of_explores {depth : Nat} {clauses : List Clause} {a : Assignment}
    {finding : Finding} {t : Account} (h : Explores depth clauses a finding t) :
    finding.Correct clauses a := by
  induction h with
  | satisfied => exact ⟨Assignment.length_complete _, Assignment.admits_complete _, rfl⟩
  | conflict empty => exact fun v => allHold_eq_false_of_nil_mem empty
  | pure _ found committed _ ih =>
    have forced := forced?_eq_some_iff.mpr (.inl ⟨rfl, _, found⟩)
    exact ih.of_commit committed fun _ => exists_holds_of_forced? forced
  | unit _ impure found committed _ ih =>
    have forced := forced?_eq_some_iff.mpr (.inr ⟨rfl, impure, found⟩)
    exact ih.of_commit committed fun _ => exists_holds_of_forced? forced
  | accept _ _ _ _ committed _ ih => exact ih.model_of_commit committed
  | @backtrack _ _ _ _ _ _ _ atom _ _ _ _ _ _ _ accepted _ rejected _ ihTrue ihFalse =>
    -- The refutation of the true branch leaves only valuations that make the atom false.
    apply ihFalse.of_commit rejected
    intro v satisfied
    refine ⟨v, ?_, satisfied⟩
    cases value : v atom with
    | false => simp [Literal.holds, value]
    | true =>
      have holds : Literal.holds v ⟨atom, true⟩ = true := by simp [Literal.holds, value]
      have refuted := ihTrue v
      rw [allHold_commit accepted holds, satisfied] at refuted
      cases refuted

/-! ### Well-formed formulas -/

namespace Formula

/-- The answer for a well-formed formula is a model of it, or that no valuation
satisfies it. -/
theorem solve_cases {f : Formula} (wf : f.WellFormed) :
    (∃ model, f.solve.verdict = .ok (.satisfiable model) ∧ model.values.length = f.atoms ∧
        allHold model.valuation f.clauses = true) ∨
      (f.solve.verdict = .ok .unsatisfiable ∧ ∀ v : Valuation, allHold v f.clauses = false) := by
  obtain ⟨c, concludes⟩ : ∃ c, f.Concludes c := ⟨_, (concludes_iff wf).mpr rfl⟩
  rw [verdict_of_concludes wf concludes]
  cases concludes with
  | satisfiable found =>
    obtain ⟨size, _, satisfied⟩ := correct_of_explores found
    exact .inl ⟨_, rfl, by simpa [Assignment.unbound, Assignment.atoms] using size, satisfied⟩
  | unsatisfiable refuted => exact .inr ⟨rfl, correct_of_explores refuted⟩

/-- Truth under the valuation of a model, in terms of what the model says of the
literals. -/
theorem allHold_valuation_iff {f : Formula} (wf : f.WellFormed) {m : Model}
    (size : m.values.length = f.atoms) : allHold m.valuation f.clauses = true ↔
      ∀ c ∈ f.clauses, ∃ l ∈ c, m.literalValue l = .ok true := by
  rw [allHold_iff]
  refine forall₂_congr fun c mem => ?_
  rw [Clause.holds_iff]
  refine exists_congr fun l => and_congr_right fun inside => ?_
  rw [Model.literalValue_eq_ok (size ▸ wf c mem l inside), Except.ok.injEq]

/-- **Soundness.** A model that the search answers with has a value for each atom
of the formula, passes the check of the formula, and makes a literal of every
clause true. -/
theorem satisfies_of_solve {f : Formula} (wf : f.WellFormed) {m : Model}
    (answer : f.solve.verdict = .ok (.satisfiable m)) :
    m.values.length = f.atoms ∧ m.satisfies f = .ok true ∧
      ∀ c ∈ f.clauses, ∃ l ∈ c, m.literalValue l = .ok true := by
  rcases solve_cases wf with ⟨model, found, size, satisfied⟩ | ⟨none, _⟩
  · cases answer.symm.trans found
    refine ⟨size, ?_, (allHold_valuation_iff wf size).mp satisfied⟩
    rw [Model.satisfies_eq_ok wf size, satisfied]
  · cases answer.symm.trans none

/-- Making atom 1 true leads to a conflict; making it false leads to a model, from
the clauses as they were before the split. -/
def isolated : Formula where
  atoms := 3
  clauses := [[⟨1, false⟩, ⟨2, true⟩], [⟨1, false⟩, ⟨2, false⟩], [⟨1, true⟩, ⟨2, true⟩],
    [⟨1, true⟩, ⟨2, false⟩, ⟨3, true⟩], [⟨3, false⟩, ⟨2, true⟩]]

/-- The model of `isolated` is found after a conflict, and it is one. -/
theorem satisfies_of_solve_isolated : isolated.WellFormed ∧
    isolated.solve.verdict = .ok (.satisfiable ⟨[false, true, true]⟩) ∧
    [false, true, true].length = isolated.atoms ∧
    Model.satisfies ⟨[false, true, true]⟩ isolated = .ok true ∧
    ∀ c ∈ isolated.clauses, ∃ l ∈ c, Model.literalValue ⟨[false, true, true]⟩ l = .ok true := by
  have wf : isolated.WellFormed := by decide
  have concludes : isolated.Concludes _ := .satisfiable <|
    .backtrack (by decide) rfl rfl rfl rfl
      (.pure (by decide) rfl rfl (.unit (by decide) rfl rfl rfl (.conflict (by decide)))) rfl
      (.unit (by decide) rfl rfl rfl (.pure (by decide) rfl rfl .satisfied))
  have answer : isolated.solve.verdict = .ok (.satisfiable ⟨[false, true, true]⟩) :=
    verdict_of_concludes wf concludes
  exact ⟨wf, answer, satisfies_of_solve wf answer⟩

/-- **Completeness.** The search answers that a well-formed formula is
unsatisfiable exactly if no assignment of a value to each of its atoms makes a
literal of every clause true. -/
theorem solve_unsatisfiable_iff {f : Formula} (wf : f.WellFormed) :
    f.solve.verdict = .ok .unsatisfiable ↔
      ¬ ∃ m : Model, m.values.length = f.atoms ∧
        ∀ c ∈ f.clauses, ∃ l ∈ c, m.literalValue l = .ok true := by
  rcases solve_cases wf with ⟨model, found, size, satisfied⟩ | ⟨answer, never⟩
  · constructor
    · intro answer
      cases answer.symm.trans found
    · intro none
      exact absurd ⟨model, size, (allHold_valuation_iff wf size).mp satisfied⟩ none
  · refine ⟨fun _ => ?_, fun _ => answer⟩
    rintro ⟨m, size, holds⟩
    have satisfied := (allHold_valuation_iff wf size).mpr holds
    rw [never] at satisfied
    cases satisfied

/-- No assignment to two atoms satisfies the four clauses over them, and so the
search refutes them. -/
theorem solve_unsatisfiable_allSigns :
    allSigns.WellFormed ∧ allSigns.solve.verdict = .ok .unsatisfiable := by
  have wf : allSigns.WellFormed := by decide
  refine ⟨wf, (solve_unsatisfiable_iff wf).mpr ?_⟩
  rintro ⟨⟨values⟩, size, holds⟩
  match values, size with
  | [first, second], _ =>
    -- The clause of the two opposite literals is false.
    have opposite : [⟨1, !first⟩, ⟨2, !second⟩] ∈ allSigns.clauses := by
      cases first <;> cases second <;> decide
    obtain ⟨l, mem, value⟩ := holds _ opposite
    simp only [List.mem_cons, List.not_mem_nil, or_false] at mem
    rcases mem with rfl | rfl
    · cases first <;> cases value
    · cases second <;> cases value

end Formula

end DavisPutnam
