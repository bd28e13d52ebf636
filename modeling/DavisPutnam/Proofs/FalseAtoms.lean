import DavisPutnam.Proofs.Correctness

/-!
A model makes an atom false only if a clause asks for it.

Bindings remove literals from the clauses and add none (`Literal.OccursIn.of_commit`). So a
pure literal or a unit that makes an atom false occurs in the clauses from the start, and
atoms that are never bound are true. That leaves a decision: a model below the false branch
of an atom whose negative literal occurs nowhere could be changed to make the atom true, and
then the true branch would not have been refuted. Hence each atom that a model below a node
makes false, and that is free at the node, occurs there with a negative sign
(`occursIn_of_explores`), and at the root `Formula.value_of_not_occurs_negated` follows.
-/

namespace DavisPutnam

/-- The literals that are left after a commitment were there before. -/
theorem Literal.OccursIn.of_commit {k l : Literal} {clauses rest : List Clause} {a b : Assignment}
    (h : k.OccursIn rest) (committed : commit l clauses a = .ok (rest, b)) :
    k.OccursIn clauses := by
  obtain ⟨_, rfl⟩ := commit_eq_ok_iff.mp committed
  obtain ⟨d, left, mem⟩ := h
  obtain ⟨c, inside, given⟩ := List.mem_filterMap.mp left
  exact ⟨c, inside, (Clause.mem_of_given given mem).1⟩

theorem Assignment.Free.valuation_complete {a : Assignment} {atom : Nat} (free : a.Free atom) :
    a.complete.valuation atom = true := by
  have slot : atomSlot? a.slots atom = some none := free
  rw [Model.valuation, complete, atomSlot?_map, slot]
  rfl

section Commitment

variable {clauses rest : List Clause} {a b : Assignment} {l : Literal} {m : Model}
  {atom level : Nat}

/-- If a model that is right after a commitment makes a free atom false, then the commitment
did so, or the atom occurs with a negative sign. -/
theorem eq_or_occursIn_of_commit (committed : commit l clauses a = .ok (rest, b))
    (correct : (Finding.model m level).Correct rest b) (falsified : m.valuation atom = false)
    (free : a.Free atom) (later : b.Free atom → Literal.OccursIn ⟨atom, false⟩ rest) :
    l = ⟨atom, false⟩ ∨ Literal.OccursIn ⟨atom, false⟩ clauses := by
  have assigned := assign_of_commit_eq_ok committed
  obtain ⟨own, sign⟩ := l
  by_cases same : atom = own
  · subst same
    obtain ⟨_, admits, _⟩ := correct
    have holds : (m.valuation atom == sign) = true :=
      ((Assignment.admits_assign_iff assigned).mp admits).2
    rw [falsified] at holds
    cases beq_iff_eq.mp holds
    exact .inl rfl
  · have still : b.Free atom := (Assignment.free_assign_iff assigned).mpr ⟨free, same⟩
    exact .inr ((later still).of_commit committed)

/-- If the true branch of an atom is refuted, clauses that can be satisfied have a negative
occurrence of the atom. -/
theorem occursIn_of_refuted (committed : commit ⟨atom, true⟩ clauses a = .ok (rest, b))
    (refuted : Finding.refuted.Correct rest b) {v : Valuation}
    (satisfied : allHold v clauses = true) : Literal.OccursIn ⟨atom, false⟩ clauses := by
  apply Classical.byContradiction
  intro absent
  have kept := allHold_giving_of_pure (l := ⟨atom, true⟩) absent satisfied
  have lost : allHold (v.giving ⟨atom, true⟩) rest = false := refuted _
  rw [allHold_commit committed (v.holds_giving_self _), kept] at lost
  cases lost

end Commitment

/-- A model that the recursive procedure finds makes a free atom false only if the atom
occurs with a negative sign. -/
theorem occursIn_of_explores {depth level : Nat} {clauses : List Clause} {a : Assignment}
    {m : Model} {t : Account} (h : Explores depth clauses a (.model m level) t) {atom : Nat}
    (free : a.Free atom) (falsified : m.valuation atom = false) :
    Literal.OccursIn ⟨atom, false⟩ clauses := by
  generalize same : Finding.model m level = finding at h
  induction h with
  | satisfied =>
    cases same
    cases falsified.symm.trans free.valuation_complete
  | conflict => cases same
  | pure _ found committed next ih =>
    subst same
    rcases eq_or_occursIn_of_commit committed (correct_of_explores next) falsified free
      (fun free => ih free rfl) with rfl | occurs
    · exact ((mem_pureLiterals_iff found).mp List.mem_cons_self).1
    · exact occurs
  | unit _ _ found committed next ih =>
    subst same
    rcases eq_or_occursIn_of_commit committed (correct_of_explores next) falsified free
      (fun free => ih free rfl) with rfl | occurs
    · exact ⟨_, mem_of_firstUnit? found, List.mem_singleton_self _⟩
    · exact occurs
  | accept _ _ _ _ committed found ih =>
    cases same
    rcases eq_or_occursIn_of_commit committed (correct_of_explores found) falsified free
      (fun free => ih free rfl) with decided | occurs
    · cases decided
    · exact occurs
  | backtrack _ _ _ _ accepted refuted rejected next _ ih =>
    subst same
    have correct := correct_of_explores next
    rcases eq_or_occursIn_of_commit rejected correct falsified free
      (fun free => ih free rfl) with decided | occurs
    · cases decided
      obtain ⟨_, _, satisfied⟩ := correct.model_of_commit rejected
      exact occursIn_of_refuted accepted (correct_of_explores refuted) satisfied
    · exact occurs

namespace Formula

/-- **False only for a reason.** If the search of a well-formed formula finds a model, every
atom of the formula that has no negative occurrence in it is true in the model. This holds of
atoms in no clause as well, although the search may split on them. -/
theorem value_of_not_occurs_negated {f : Formula} (wf : f.WellFormed) {m : Model}
    (answer : f.solve.verdict = .ok (.satisfiable m)) {atom : Nat} (low : 1 ≤ atom)
    (high : atom ≤ f.atoms) (absent : ∀ c ∈ f.clauses, ⟨atom, false⟩ ∉ c) :
    m.value atom = .ok true := by
  obtain ⟨c, concludes⟩ : ∃ c, f.Concludes c := ⟨_, (concludes_iff wf).mpr rfl⟩
  rw [verdict_of_concludes wf concludes] at answer
  cases concludes with
  | unsatisfiable refuted => cases answer
  | satisfiable found =>
    cases answer
    obtain ⟨size, _, _⟩ := correct_of_explores found
    rw [Assignment.atoms_unbound] at size
    rw [Model.value_eq_ok low (size ▸ high), Except.ok.injEq]
    apply Classical.byContradiction
    intro falsified
    have free : (Assignment.unbound f.atoms).Free atom :=
      Assignment.free_unbound_iff.mpr ⟨low, high⟩
    obtain ⟨c, mem, inside⟩ := occursIn_of_explores found free (Bool.eq_false_iff.mpr falsified)
    exact absent c mem inside

/-- Atom 2 is in no clause. Making atom 1 true leads to conflicts, but only after a split. -/
def unmentioned : Formula where
  atoms := 4
  clauses := [[⟨1, false⟩, ⟨3, true⟩, ⟨4, true⟩], [⟨1, false⟩, ⟨3, true⟩, ⟨4, false⟩],
    [⟨1, false⟩, ⟨3, false⟩, ⟨4, true⟩], [⟨1, false⟩, ⟨3, false⟩, ⟨4, false⟩],
    [⟨1, true⟩, ⟨3, true⟩]]

/-- The search for a model of `unmentioned` decides on atom 2 both ways, and the model makes
it true. -/
theorem value_of_not_occurs_negated_unmentioned : unmentioned.WellFormed ∧
    unmentioned.solve.verdict = .ok (.satisfiable ⟨[false, true, true, true]⟩) ∧
    (∀ c ∈ unmentioned.clauses, ⟨2, false⟩ ∉ c) ∧
    .bound .decision ⟨2, true⟩ 2 ∈ unmentioned.solve.events ∧
    .bound .decision ⟨2, false⟩ 2 ∈ unmentioned.solve.events ∧
    Model.value ⟨[false, true, true, true]⟩ 2 = .ok true := by
  have wf : unmentioned.WellFormed := by decide
  -- Below each of the decisions on atom 2, atom 3 is tried both ways.
  have concludes : unmentioned.Concludes _ := .satisfiable <|
    .backtrack (by decide) rfl rfl rfl rfl
      (.backtrack (by decide) rfl rfl rfl rfl
        (.backtrack (by decide) rfl rfl rfl rfl
          (.unit (by decide) rfl rfl rfl (.conflict (by decide))) rfl
          (.unit (by decide) rfl rfl rfl (.conflict (by decide)))) rfl
        (.backtrack (by decide) rfl rfl rfl rfl
          (.unit (by decide) rfl rfl rfl (.conflict (by decide))) rfl
          (.unit (by decide) rfl rfl rfl (.conflict (by decide))))) rfl
      (.pure (by decide) rfl rfl .satisfied)
  have answer : unmentioned.solve.verdict = .ok (.satisfiable ⟨[false, true, true, true]⟩) :=
    verdict_of_concludes wf concludes
  have absent : ∀ c ∈ unmentioned.clauses, ⟨2, false⟩ ∉ c := by decide
  refine ⟨wf, answer, absent, ?_, ?_,
    value_of_not_occurs_negated wf answer (by decide) (by decide) absent⟩
  · rw [events_of_concludes wf concludes]
    decide
  · rw [events_of_concludes wf concludes]
    decide

end Formula

end DavisPutnam
