import DavisPutnam.Proofs.Correctness

/-!
When the search faults, and that it never does otherwise.

A formula may be built without any check of its literals. The first pass looks
for an empty clause before it tallies the literals, so a literal out of range is
a fault of the first turn if no clause is empty
(`SearchState.step_start_of_malformed`). In every other search all expansions are
safe (`Branch.Safe`): no literal is out of range, no bound atom is bound again,
and a node where nothing is forced has an unbound atom to split on, so that only
an empty clause makes a conflict. `Formula.solve_faults_iff` says both.
-/

namespace DavisPutnam

/-- Nothing goes wrong in the expansion of a branch. A commitment faults where
its assignment or its propagation would. -/
structure Branch.Safe (b : Branch) : Prop where
  /-- The decision can be bound and propagated. -/
  decided : ∃ clauses a, b.entered = .ok (clauses, a)
  /-- Every pass can tally its literals. -/
  tallied : ∀ steps clauses a, b.Visits steps clauses a → Undecided clauses →
    ∃ ls, pureLiterals a.atoms clauses = .ok ls
  /-- Every forced literal can be bound and propagated. -/
  bound : ∀ steps clauses a reason l, b.Visits steps clauses a → Undecided clauses →
    forced? a.atoms clauses = .ok (some (reason, l)) →
      ∃ rest c, commit l clauses a = .ok (rest, c)
  /-- Where nothing is forced, an atom is left to split on. -/
  splits : ∀ steps clauses a, b.Visits steps clauses a → Undecided clauses →
    forced? a.atoms clauses = .ok none → ∃ atom, a.firstUnbound = some atom
  /-- A conflict is due to an empty clause. -/
  refuted : ∀ j, (b.expand j).1 = .conflict →
    ∃ steps clauses a, b.Visits steps clauses a ∧ [] ∈ clauses
  /-- The expansion has an outcome. -/
  unfaulted : ∀ j fault, (b.expand j).1 ≠ .faulted fault

theorem Branch.Ready.safe {b : Branch} (ready : b.Ready) : b.Safe where
  decided := by
    obtain ⟨clauses, a, entered, _⟩ := ready.entered
    exact ⟨clauses, a, entered⟩
  tallied _ _ _ visits _ := (ready.untouched visits).exists_pureLiterals
  bound _ clauses _ _ _ visits _ forced :=
    exists_commit ((ready.untouched visits).free (occursIn_of_forced? forced)) clauses
  splits _ _ _ visits undecided _ := by
    obtain ⟨l, occurs⟩ := undecided.exists_occursIn
    exact ((ready.untouched visits).free occurs).exists_firstUnbound
  refuted j conflict := by
    obtain ⟨out, steps, clauses, a, visits, ends, expanded⟩ := ready.expand j
    rw [expanded] at conflict
    subst conflict
    exact ⟨steps, clauses, a, visits, ends⟩
  unfaulted j fault failed := by
    obtain ⟨out, steps, clauses, a, visits, ends, expanded⟩ := ready.expand j
    rw [expanded] at failed
    subst failed
    exact ends

/-! ### An empty clause at the root -/

/-- A branch without a decision that has an empty clause is safe: its only pass
is a conflict. -/
theorem Branch.safe_of_nil_mem {b : Branch} (free : b.decision = none)
    (empty : [] ∈ b.clauses) : b.Safe := by
  have entered : b.entered = .ok (b.clauses, b.assignment) := by
    simp only [Branch.entered, free]
  have only {steps : List (Reason × Literal)} {clauses : List Clause} {a : Assignment}
      (visits : b.Visits steps clauses a) : [] ∈ clauses := by
    obtain ⟨first, start, again, simplifies⟩ := visits
    cases entered.symm.trans again
    cases simplifies with
    | refl => exact empty
    | step undecided => exact absurd empty undecided.2
  have conflict (j : Journal) : b.expand j = (.conflict, b.announce j) :=
    (expand_of_entered entered j).trans (simplify_of_nil_mem empty)
  exact {
    decided := ⟨_, _, entered⟩
    tallied := fun _ _ _ visits undecided => absurd (only visits) undecided.2
    bound := fun _ _ _ _ _ visits undecided => absurd (only visits) undecided.2
    splits := fun _ _ _ visits undecided => absurd (only visits) undecided.2
    refuted := fun _ _ => ⟨[], _, _, ⟨_, _, entered, .refl⟩, empty⟩
    unfaulted := fun j fault failed => by simp [conflict j] at failed }

/-- With an empty clause the first turn refutes the root. -/
theorem SearchState.step_start_of_nil_mem {f : Formula} (empty : [] ∈ f.clauses) :
    (SearchState.start f).step = .running ⟨[], ({} : Journal).conflict 0⟩ := by
  have expanded : f.root.expand {} = (.conflict, {}) := simplify_of_nil_mem empty
  unfold step
  rw [stack_start]
  simp only [journal_start, expanded]
  rfl

theorem SearchState.start_or_done {f : Formula} {s : SearchState} (empty : [] ∈ f.clauses)
    (h : Reachable f s) : s = .start f ∨ s.stack = [] := by
  induction h with
  | start => exact .inl rfl
  | step _ turn ih =>
    rcases ih with rfl | done
    · cases (step_start_of_nil_mem empty).symm.trans turn
      exact .inr rfl
    · obtain ⟨_, _, stack, _⟩ := running_cases turn
      cases done.symm.trans stack

/-- With an empty clause the search ends in a refutation, whatever the other
clauses are. -/
theorem Formula.solve_of_nil_mem {f : Formula} (empty : [] ∈ f.clauses) :
    f.solve.verdict = .ok .unsatisfiable := by
  unfold Formula.solve
  rw [SearchState.run_of_running (SearchState.step_start_of_nil_mem empty), SearchState.run_nil]

/-! ### A literal out of range -/

theorem Literal.not_inRange_iff {atoms : Nat} {l : Literal} :
    ¬ l.InRange atoms ↔ l.atom = 0 ∨ atoms < l.atom := by
  unfold InRange
  omega

theorem Formula.not_wellFormed_iff {f : Formula} :
    ¬ f.WellFormed ↔ ∃ c ∈ f.clauses, ∃ l ∈ c, l.atom = 0 ∨ f.atoms < l.atom := by
  simp only [WellFormed, Classical.not_forall, exists_prop, Literal.not_inRange_iff]

/-- Without an empty clause, a literal out of range is a fault of the first
turn, before anything is bound or counted. -/
theorem SearchState.step_start_of_malformed {f : Formula} (malformed : ¬ f.WellFormed)
    (conflictFree : [] ∉ f.clauses) : ∃ fault, pureLiterals f.atoms f.clauses = .error fault ∧
      (SearchState.start f).step = .halted ⟨.error fault, {}⟩ := by
  have undecided : Undecided f.clauses := by
    obtain ⟨c, mem, _⟩ := Formula.not_wellFormed_iff.mp malformed
    exact ⟨List.ne_nil_of_mem mem, conflictFree⟩
  cases tallied : pureLiterals f.atoms f.clauses with
  | ok ls => exact absurd (exists_pureLiterals_iff.mp ⟨ls, tallied⟩) malformed
  | error fault =>
    have failed : forced? (Assignment.unbound f.atoms).atoms f.clauses = .error fault := by
      simp only [Assignment.atoms_unbound, forced?, tallied]
    have expanded : f.root.expand {} = (.faulted fault, {}) := simplify_of_fault undecided failed
    refine ⟨fault, rfl, ?_⟩
    unfold step
    rw [stack_start]
    simp only [journal_start, expanded]

/-! ### Exactly when the search faults -/

/-- The search has a verdict, and every branch that ever waits is safe. -/
def Formula.SearchedSafely (f : Formula) : Prop :=
  (∃ verdict, f.solve.verdict = .ok verdict) ∧
    ∀ s, SearchState.Reachable f s → ∀ b ∈ s.stack, b.Safe

theorem Formula.WellFormed.searchedSafely {f : Formula} (wf : f.WellFormed) :
    f.SearchedSafely := by
  constructor
  · rcases solve_cases wf with ⟨_, answer, _⟩ | ⟨answer, _⟩
    · exact ⟨_, answer⟩
    · exact ⟨_, answer⟩
  · intro s reachable b mem
    exact (reachable.ready wf b mem).safe

theorem Formula.searchedSafely_of_nil_mem {f : Formula} (empty : [] ∈ f.clauses) :
    f.SearchedSafely := by
  refine ⟨⟨_, solve_of_nil_mem empty⟩, ?_⟩
  intro s reachable b mem
  -- The root is the only branch that ever waits.
  rcases SearchState.start_or_done empty reachable with rfl | done
  · rw [SearchState.stack_start, List.mem_singleton] at mem
    subst mem
    exact Branch.safe_of_nil_mem rfl empty
  · simp [done] at mem

/-- The search faults exactly if a literal is out of range and no clause is
empty. The fault is that of the first tally, in the first turn, with nothing
bound, counted or recorded. In a search that does not fault, every branch that
ever waits is safe. -/
theorem Formula.solve_faults_iff (f : Formula) :
    ((∃ fault, f.solve.verdict = .error fault) ↔
        (∃ c ∈ f.clauses, ∃ l ∈ c, l.atom = 0 ∨ f.atoms < l.atom) ∧ [] ∉ f.clauses) ∧
      (∀ fault, f.solve.verdict = .error fault →
        pureLiterals f.atoms f.clauses = .error fault ∧
          (SearchState.start f).step = .halted f.solve ∧ f.solve.stats = {} ∧
          f.solve.events = []) ∧
      ((∃ verdict, f.solve.verdict = .ok verdict) →
        ∀ s, SearchState.Reachable f s → ∀ b ∈ s.stack, b.Safe) := by
  rw [← Formula.not_wellFormed_iff]
  by_cases broken : ¬ f.WellFormed ∧ [] ∉ f.clauses
  · obtain ⟨fault, tallied, halted⟩ := SearchState.step_start_of_malformed broken.1 broken.2
    have result : f.solve = ⟨.error fault, {}⟩ := SearchState.run_of_halted halted
    rw [result]
    refine ⟨⟨fun _ => broken, fun _ => ⟨fault, rfl⟩⟩, ?_, ?_⟩
    · intro other same
      cases same
      exact ⟨tallied, halted, rfl, rfl⟩
    · rintro ⟨verdict, answer⟩
      cases answer
  · have safely : f.SearchedSafely := by
      by_cases wf : f.WellFormed
      · exact wf.searchedSafely
      · exact searchedSafely_of_nil_mem (Classical.not_not.mp fun absent => broken ⟨wf, absent⟩)
    obtain ⟨⟨verdict, answer⟩, safe⟩ := safely
    have unfaulted (fault : Fault) : f.solve.verdict ≠ .error fault := by
      intro failed
      cases failed.symm.trans answer
    refine ⟨⟨?_, fun faulty => absurd faulty broken⟩, ?_, fun _ => safe⟩
    · rintro ⟨fault, failed⟩
      exact absurd failed (unfaulted fault)
    · intro fault failed
      exact absurd failed (unfaulted fault)

/-- A literal on atom 2 is a fault of a formula with one atom, unless one of its
clauses is empty. -/
theorem Formula.solve_outside :
    (∃ fault, (Formula.mk 1 [[⟨2, true⟩]]).solve.verdict = .error fault ∧
        (Formula.mk 1 [[⟨2, true⟩]]).solve.stats = {}) ∧
      ¬ ∃ fault, (Formula.mk 1 [[⟨2, true⟩], []]).solve.verdict = .error fault := by
  obtain ⟨faults, first, _⟩ := solve_faults_iff (Formula.mk 1 [[⟨2, true⟩]])
  obtain ⟨fault, failed⟩ := faults.mpr (by decide)
  refine ⟨⟨fault, failed, (first fault failed).2.2.1⟩, ?_⟩
  rw [(solve_faults_iff (Formula.mk 1 [[⟨2, true⟩], []])).1]
  decide

end DavisPutnam
