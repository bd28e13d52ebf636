import DavisPutnam.Proofs.Journal
import DavisPutnam.Proofs.Correctness

/-!
The counters of a search are those of a binary tree.

Every split opens two branches, and every branch that is expanded is split, refuted or
solved. In every state of a search this balances the decisions made so far with the
conflicts and the branches that wait (`SearchState.Reachable.balance`). When no branch
is left, there are two conflicts for every two decisions and one pair more; when a model
is found, the branches that still wait are those beside the positive decisions on the
path to it. `Formula.search_accounting` says both, together with what the log shows.
-/

namespace DavisPutnam

/-! ### The counters of one expansion -/

theorem Journal.stats_boundAll {steps : List (Reason × Literal)}
    (forced : ∀ step ∈ steps, step.1 ≠ .decision) (j : Journal) (depth : Nat) :
    (j.boundAll depth steps).stats.decisions = j.stats.decisions ∧
      (j.boundAll depth steps).stats.conflicts = j.stats.conflicts := by
  induction steps generalizing j with
  | nil => exact ⟨rfl, rfl⟩
  | cons step steps ih =>
    obtain ⟨first, others⟩ := List.forall_mem_cons.mp forced
    obtain ⟨decisions, conflicts⟩ := ih others (j.bound step.1 step.2 depth)
    refine ⟨decisions.trans ?_, conflicts.trans (Journal.conflicts_bound ..)⟩
    cases reason : step.1 with
    | decision => exact absurd reason first
    | pure => rfl
    | unit => rfl

/-- The expansion of a branch counts its decision, if it has one, and no conflict. -/
theorem Branch.Ready.stats_expand {b : Branch} (ready : b.Ready) {j k : Journal} {out : Outcome}
    (expanded : b.expand j = (out, k)) :
    k.stats.decisions = j.stats.decisions + b.decision.toList.length ∧
      k.stats.conflicts = j.stats.conflicts ∧ b.depth ≤ k.stats.maxDepth := by
  obtain ⟨steps, _, _, visits, _, rfl⟩ := ready.of_expand expanded
  obtain ⟨decisions, conflicts⟩ :=
    Journal.stats_boundAll visits.reason_ne_decision (b.announce j) b.depth
  rw [decisions, conflicts, Journal.maxDepth_boundAll, Branch.maxDepth_announce]
  refine ⟨?_, ?_, Nat.le_max_right _ _⟩
  · unfold Branch.announce
    cases b.decision <;> rfl
  · unfold Branch.announce
    cases b.decision <;> rfl

namespace SearchState

variable {f : Formula} {s : SearchState}

/-- What the waiting branches weigh in the balance: one each, and one more for the root,
whose expansion is not a decision. -/
def owed : List Branch → Nat
  | [] => 0
  | b :: rest => (2 - b.decision.toList.length) + owed rest

theorem owed_eq_length {stack : List Branch} (decided : ∀ b ∈ stack, b.decision.isSome = true) :
    owed stack = stack.length := by
  induction stack with
  | nil => rfl
  | cons b rest ih =>
    obtain ⟨first, others⟩ := List.forall_mem_cons.mp decided
    obtain ⟨l, decision⟩ := Option.isSome_iff_exists.mp first
    rw [owed, ih others, decision, List.length_cons, Nat.add_comm]
    rfl

theorem length_decision_le (b : Branch) : b.decision.toList.length ≤ 1 := by
  cases b.decision with
  | none => exact Nat.zero_le 1
  | some l => exact Nat.le_refl 1

/-- In every state of the search there are as many decisions, and two more, as twice the
conflicts and the branches that wait. -/
theorem Reachable.balance (wf : f.WellFormed) (h : Reachable f s) :
    s.journal.stats.decisions + 2 = 2 * s.journal.stats.conflicts + owed s.stack := by
  induction h with
  | start => rfl
  | step reached turn ih =>
    obtain ⟨b, rest, stack, cases⟩ := running_cases turn
    have ready : b.Ready := reached.ready_top wf stack
    have single := length_decision_le b
    rw [stack, owed] at ih
    rcases cases with ⟨j, expanded, rfl⟩ | ⟨atom, clauses, a, j, expanded, rfl⟩
    · obtain ⟨decisions, conflicts, _⟩ := ready.stats_expand expanded
      show j.stats.decisions + 2 = 2 * (j.stats.conflicts + 1) + owed rest
      omega
    · obtain ⟨decisions, conflicts, _⟩ := ready.stats_expand expanded
      show j.stats.decisions + 2 = 2 * j.stats.conflicts + (1 + (1 + owed rest))
      omega

end SearchState

/-! ### The whole search -/

namespace Formula

variable {f : Formula}

theorem balance_of_unsatisfiable (wf : f.WellFormed)
    (answer : f.solve.verdict = .ok .unsatisfiable) :
    f.solve.stats.decisions + 2 = 2 * f.solve.stats.conflicts := by
  obtain ⟨s, reached, halted⟩ := SearchState.exists_last_state f
  have balance := reached.balance wf
  rcases SearchState.halted_cases halted with
    ⟨stack, result⟩ | ⟨_, _, _, ⟨_, _, _, result⟩ | ⟨_, _, _, result⟩⟩
  · rw [stack] at balance
    rw [result]
    exact balance
  · rw [result] at answer
    cases answer
  · rw [result] at answer
    cases answer

/-- A model is found at the end of some path, and the branches that then wait make up
what the decisions exceed twice the conflicts. -/
theorem exists_lineage_of_satisfiable (wf : f.WellFormed) {m : Model}
    (answer : f.solve.verdict = .ok (.satisfiable m)) :
    ∃ s b rest path j, SearchState.Reachable f s ∧ s.stack = b :: rest ∧
      b.expand s.journal = (.satisfied m, j) ∧ s.step = .halted f.solve ∧
      f.solve.journal = j.record (.satisfiable b.depth j.stats) ∧ f.Lineage path b rest ∧
      j.stats.decisions = 2 * j.stats.conflicts + rest.length ∧ b.depth ≤ j.stats.maxDepth := by
  obtain ⟨s, b, rest, j, reached, stack, expanded, halted, result⟩ :=
    SearchState.exists_last_state_of_satisfiable answer
  obtain ⟨path, lineage⟩ := reached.lineage stack
  have ready : b.Ready := reached.ready_top wf stack
  obtain ⟨decisions, conflicts, deep⟩ := ready.stats_expand expanded
  have single := SearchState.length_decision_le b
  have balance := reached.balance wf
  rw [stack, SearchState.owed, SearchState.owed_eq_length lineage.decided] at balance
  exact ⟨s, b, rest, path, j, reached, stack, expanded, halted, by rw [result], lineage,
    by omega, deep⟩

/-- **Accounting.** If the search of a well-formed formula finds no model, there are two
conflicts for every two decisions and for two more. If it finds one, the decisions exceed
twice the conflicts by the number of positive decisions among those on the path to the
model, and so many branches then wait. The counters are the numbers of events of their
kind, and the depth counter is the depth of the deepest decision, or 0. -/
theorem search_accounting (wf : f.WellFormed) :
    (f.solve.verdict = .ok .unsatisfiable →
        f.solve.stats.decisions + 2 = 2 * f.solve.stats.conflicts) ∧
      (∀ m, f.solve.verdict = .ok (.satisfiable m) →
        ∃ s b rest j, SearchState.Reachable f s ∧ s.stack = b :: rest ∧
          b.expand s.journal = (.satisfied m, j) ∧ s.step = .halted f.solve ∧
          f.solve.events.getLast? = some (.satisfiable b.depth f.solve.stats) ∧
          (∃ path, f.Lineage path b rest) ∧
          (∀ path, f.Lineage path b rest → path.length = b.depth ∧
            rest.length = path.countP Literal.positive ∧
            f.solve.stats.decisions =
              2 * f.solve.stats.conflicts + path.countP Literal.positive) ∧
          2 * f.solve.stats.conflicts ≤ f.solve.stats.decisions ∧
          f.solve.stats.decisions ≤ 2 * f.solve.stats.conflicts + f.solve.stats.maxDepth) ∧
      f.solve.stats.decisions = f.solve.events.countP (Event.isBinding .decision) ∧
      f.solve.stats.pureLiterals = f.solve.events.countP (Event.isBinding .pure) ∧
      f.solve.stats.unitClauses = f.solve.events.countP (Event.isBinding .unit) ∧
      f.solve.stats.conflicts = f.solve.events.countP Event.isConflict ∧
      (∀ l depth, .bound .decision l depth ∈ f.solve.events → depth ≤ f.solve.stats.maxDepth) ∧
      (f.solve.stats.maxDepth = 0 ∨
        ∃ l, .bound .decision l f.solve.stats.maxDepth ∈ f.solve.events) := by
  have tallied := tallied_solve wf
  refine ⟨balance_of_unsatisfiable wf, ?_, tallied.bindings .decision, tallied.bindings .pure,
    tallied.bindings .unit, tallied.conflicts, tallied.bounded, tallied.attained⟩
  intro m answer
  obtain ⟨s, b, rest, path, j, reached, stack, expanded, halted, journal, lineage, balance, deep⟩ :=
    exists_lineage_of_satisfiable wf answer
  have stats : f.solve.stats = j.stats := by
    rw [Run.stats, journal]
    rfl
  have last : f.solve.events.getLast? = some (.satisfiable b.depth j.stats) := by
    rw [Run.events, journal, Journal.events_record, List.getLast?_concat]
  have few : rest.length ≤ b.depth := by
    rw [lineage.length_waiting, ← lineage.length_path]
    exact List.countP_le_length
  rw [stats]
  refine ⟨s, b, rest, j, reached, stack, expanded, halted, last, ⟨path, lineage⟩, ?_, ?_, ?_⟩
  · intro path lineage
    refine ⟨lineage.length_path, lineage.length_waiting, ?_⟩
    rw [← lineage.length_waiting]
    exact balance
  · omega
  · omega

/-- Making atom 1 true leads to a conflict. Making it false leaves the choice of one of
the atoms 2 and 3. -/
def nested : Formula where
  atoms := 3
  clauses := [[⟨1, false⟩, ⟨2, true⟩], [⟨1, false⟩, ⟨2, false⟩], [⟨1, true⟩, ⟨2, true⟩, ⟨3, true⟩],
    [⟨2, false⟩, ⟨3, false⟩]]

/-- The whole search for a model of `nested`. -/
theorem solve_nested : nested.solve =
    ⟨.ok (.satisfiable ⟨[false, true, false]⟩),
      { stats :=
          { decisions := 3, pureLiterals := 2, unitClauses := 1, conflicts := 1, maxDepth := 2 }
        latest := [
          .satisfiable 2
            { decisions := 3, pureLiterals := 2, unitClauses := 1, conflicts := 1, maxDepth := 2 },
          .bound .pure ⟨3, false⟩ 2, .bound .decision ⟨2, true⟩ 2, .bound .decision ⟨1, false⟩ 1,
          .conflict 1, .bound .unit ⟨2, true⟩ 1, .bound .pure ⟨3, false⟩ 1,
          .bound .decision ⟨1, true⟩ 1] }⟩ := by
  have concludes : nested.Concludes _ := .satisfiable <|
    .backtrack (by decide) rfl rfl rfl rfl
      (.pure (by decide) rfl rfl (.unit (by decide) rfl rfl rfl (.conflict (by decide)))) rfl
      (.accept (by decide) rfl rfl rfl rfl (.pure (by decide) rfl rfl .satisfied))
  exact Run.eq_of_conclusion ((concludes_iff (by decide)).mp concludes).symm

/-- In the search for a model of `nested` there are three decisions and one conflict, and
one branch still waits at the end. -/
theorem search_accounting_nested : nested.WellFormed ∧
    nested.solve.verdict = .ok (.satisfiable ⟨[false, true, false]⟩) ∧
    nested.solve.stats.decisions = 2 * nested.solve.stats.conflicts + 1 ∧
    nested.solve.stats.decisions = 3 ∧
    ∃ s b c path, SearchState.Reachable nested s ∧ s.stack = [b, c] ∧
      nested.Lineage path b [c] ∧ path.countP Literal.positive = 1 := by
  have wf : nested.WellFormed := by decide
  have answer : nested.solve.verdict = .ok (.satisfiable ⟨[false, true, false]⟩) := by
    rw [solve_nested]
  obtain ⟨_, found, _⟩ := search_accounting wf
  obtain ⟨s, b, rest, j, reached, stack, _, _, _, ⟨path, lineage⟩, counts, _⟩ := found _ answer
  obtain ⟨_, waiting, balance⟩ := counts path lineage
  have counters : nested.solve.stats.decisions = 3 ∧ nested.solve.stats.conflicts = 1 := by
    rw [solve_nested]
    exact ⟨rfl, rfl⟩
  have one : path.countP Literal.positive = 1 := by omega
  obtain ⟨c, rfl⟩ := List.length_eq_one_iff.mp (waiting.trans one)
  exact ⟨wf, answer, by omega, counters.1, s, b, c, path, reached, stack, lineage, one⟩

end Formula

end DavisPutnam
