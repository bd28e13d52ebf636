import DavisPutnam.Proofs.Expansion
import DavisPutnam.Search.Run

/-!
The turns of a search and the states that it passes through.

A turn that does not end the search takes the top branch away and, if that
branch splits, puts its two branches in its place (`SearchState.running_cases`).
So what the root has and a branch hands down to the branches of its split, every
branch that waits has (`SearchState.Reachable.forall_waiting`). For a well-formed
formula every waiting branch is ready (`SearchState.Reachable.ready`), so no turn
of the search meets a fault. Every search comes to a last turn
(`SearchState.exists_last_state`), and its result is that of the turn.
-/

namespace DavisPutnam

/-- The branch with which the search for a model of a formula starts. -/
def Formula.root (f : Formula) : Branch where
  clauses := f.clauses
  assignment := .unbound f.atoms
  decision := none
  depth := 0

/-- The branch can split, and the other one is one of the two branches of the split. -/
def Branch.SplitsInto (b c : Branch) : Prop :=
  ∃ j k atom value clauses a, b.expand j = (.split atom clauses a, k) ∧
    c = b.below atom value clauses a

theorem Branch.Ready.of_splitsInto {b c : Branch} (ready : b.Ready) (splits : b.SplitsInto c) :
    c.Ready := by
  obtain ⟨_, _, _, value, _, _, split, rfl⟩ := splits
  exact ready.below split value

namespace SearchState

theorem stack_start (f : Formula) : (start f).stack = [f.root] :=
  rfl

theorem journal_start (f : Formula) : (start f).journal = {} :=
  rfl

/-! ### Turns -/

theorem run_of_halted {s : SearchState} {result : Run} (h : s.step = .halted result) :
    s.run = result := by
  rw [run]
  split
  · next again => cases h.symm.trans again; rfl
  · next again => cases h.symm.trans again

theorem run_of_running {s t : SearchState} (h : s.step = .running t) : s.run = t.run := by
  rw [run]
  split
  · next again => cases h.symm.trans again
  · next again => cases h.symm.trans again; rfl

theorem run_nil (j : Journal) :
    (SearchState.mk [] j).run = ⟨.ok .unsatisfiable, j.record (.unsatisfiable j.stats)⟩ :=
  run_of_halted rfl

/-- A turn after which the search goes on either refutes the top branch or
splits it. -/
theorem running_cases {s t : SearchState} (h : s.step = .running t) :
    ∃ b rest, s.stack = b :: rest ∧
      ((∃ j, b.expand s.journal = (.conflict, j) ∧ t = ⟨rest, j.conflict b.depth⟩) ∨
        ∃ atom clauses a j, b.expand s.journal = (.split atom clauses a, j) ∧
          t = ⟨b.below atom true clauses a :: b.below atom false clauses a :: rest, j⟩) := by
  unfold step at h
  split at h
  · cases h
  · next b rest stack =>
    refine ⟨b, rest, stack, ?_⟩
    split at h
    · cases h
    · next j expanded => cases h; exact .inl ⟨j, expanded, rfl⟩
    · next atom clauses a j expanded => cases h; exact .inr ⟨atom, clauses, a, j, expanded, rfl⟩
    · cases h

/-- A turn that ends the search finds no branch left, a model, or a fault. -/
theorem halted_cases {s : SearchState} {result : Run} (h : s.step = .halted result) :
    (s.stack = [] ∧
        result = ⟨.ok .unsatisfiable, s.journal.record (.unsatisfiable s.journal.stats)⟩) ∨
      ∃ b rest, s.stack = b :: rest ∧
        ((∃ model j, b.expand s.journal = (.satisfied model, j) ∧
            result = ⟨.ok (.satisfiable model), j.record (.satisfiable b.depth j.stats)⟩) ∨
          ∃ fault j, b.expand s.journal = (.faulted fault, j) ∧ result = ⟨.error fault, j⟩) := by
  unfold step at h
  split at h
  · next stack => cases h; exact .inl ⟨stack, rfl⟩
  · next b rest stack =>
    refine .inr ⟨b, rest, stack, ?_⟩
    split at h
    · next model j expanded => cases h; exact .inl ⟨model, j, expanded, rfl⟩
    · cases h
    · cases h
    · next fault j expanded => cases h; exact .inr ⟨fault, j, expanded, rfl⟩

/-- After a turn only the branches of a split are new on the stack. -/
theorem mem_stack_of_running {s t : SearchState} (h : s.step = .running t) {c : Branch}
    (mem : c ∈ t.stack) : c ∈ s.stack ∨ ∃ b rest, s.stack = b :: rest ∧ b.SplitsInto c := by
  obtain ⟨b, rest, stack, ⟨j, _, rfl⟩ | ⟨atom, clauses, a, j, expanded, rfl⟩⟩ := running_cases h
  · exact .inl (stack ▸ List.mem_cons_of_mem b mem)
  · rcases List.mem_cons.mp mem with rfl | mem
    · exact .inr ⟨b, rest, stack, _, _, _, _, _, _, expanded, rfl⟩
    rcases List.mem_cons.mp mem with rfl | mem
    · exact .inr ⟨b, rest, stack, _, _, _, _, _, _, expanded, rfl⟩
    · exact .inl (stack ▸ List.mem_cons_of_mem b mem)

theorem step_of_conflict {b : Branch} {rest : List Branch} {j k : Journal}
    (expanded : b.expand j = (.conflict, k)) :
    (SearchState.mk (b :: rest) j).step = .running ⟨rest, k.conflict b.depth⟩ := by
  simp only [step, expanded]

theorem step_of_split {b : Branch} {rest : List Branch} {j k : Journal} {atom : Nat}
    {clauses : List Clause} {a : Assignment} (expanded : b.expand j = (.split atom clauses a, k)) :
    (SearchState.mk (b :: rest) j).step =
      .running ⟨b.below atom true clauses a :: b.below atom false clauses a :: rest, k⟩ := by
  simp only [step, expanded]

/-! ### Reachable states -/

/-- From every state that it passes through, the search comes to its last turn. -/
theorem Reachable.exists_halted {f : Formula} {s : SearchState} (h : Reachable f s) :
    ∃ t, Reachable f t ∧ t.step = .halted s.run := by
  induction load : s.weight using Nat.strongRecOn generalizing s with
  | ind n ih =>
    cases turn : s.step with
    | halted result => exact ⟨s, h, by rw [turn, run_of_halted turn]⟩
    | running next =>
      have lighter : next.weight < n := load ▸ weight_step turn
      rw [run_of_running turn]
      exact ih _ lighter (.step h turn) rfl

theorem exists_last_state (f : Formula) : ∃ s, Reachable f s ∧ s.step = .halted f.solve :=
  Reachable.exists_halted .start

/-- A model is found by the expansion of the top branch in the last turn. -/
theorem exists_last_state_of_satisfiable {f : Formula} {m : Model}
    (answer : f.solve.verdict = .ok (.satisfiable m)) :
    ∃ s b rest j, Reachable f s ∧ s.stack = b :: rest ∧ b.expand s.journal = (.satisfied m, j) ∧
      s.step = .halted f.solve ∧
      f.solve = ⟨.ok (.satisfiable m), j.record (.satisfiable b.depth j.stats)⟩ := by
  obtain ⟨s, reached, halted⟩ := exists_last_state f
  rcases halted_cases halted with
    ⟨_, result⟩ | ⟨b, rest, stack, ⟨model, j, expanded, result⟩ | ⟨_, _, _, result⟩⟩
  · rw [result] at answer
    cases answer
  · have same : model = m := by
      rw [result] at answer
      cases answer
      rfl
    subst same
    exact ⟨s, b, rest, j, reached, stack, expanded, halted, result⟩
  · rw [result] at answer
    cases answer

/-- `s.Turns k t`: after `k` turns from `s` the search goes on from `t`. -/
inductive Turns (s : SearchState) : Nat → SearchState → Prop where
  | none : Turns s 0 s
  | next {k : Nat} {t u : SearchState} (before : Turns s k t) (turn : t.step = .running u) :
      Turns s (k + 1) u

theorem Reachable.turns {f : Formula} {s t : SearchState} {k : Nat} (h : Reachable f s)
    (later : s.Turns k t) : Reachable f t := by
  induction later with
  | none => exact h
  | next _ turn ih => exact .step ih turn

/-- What holds of the root, and of the branches of a split if it holds of the branch that
split, holds of every branch that waits. -/
theorem Reachable.forall_waiting {f : Formula} {s : SearchState} {P : Branch → Prop}
    (h : Reachable f s) (root : P f.root) (split : ∀ b c, P b → b.SplitsInto c → P c) :
    ∀ b ∈ s.stack, P b := by
  induction h with
  | start =>
    intro b mem
    rw [stack_start, List.mem_singleton] at mem
    exact mem ▸ root
  | step _ turn ih =>
    intro c mem
    rcases mem_stack_of_running turn mem with mem | ⟨b, rest, stack, splits⟩
    · exact ih c mem
    · exact split b c (ih b (stack ▸ List.mem_cons_self)) splits

theorem ready_root {f : Formula} (wf : f.WellFormed) : f.root.Ready where
  clauses := Assignment.untouched_unbound_iff.mpr wf
  decision _ decided := nomatch decided

/-- In every state of the search for a model of a well-formed formula, every
waiting branch is ready. -/
theorem Reachable.ready {f : Formula} {s : SearchState} (wf : f.WellFormed) (h : Reachable f s) :
    ∀ b ∈ s.stack, b.Ready :=
  h.forall_waiting (ready_root wf) fun _ _ ready splits => ready.of_splitsInto splits

theorem Reachable.ready_top {f : Formula} {s : SearchState} (wf : f.WellFormed)
    (h : Reachable f s) {b : Branch} {rest : List Branch} (stack : s.stack = b :: rest) :
    b.Ready :=
  h.ready wf b (stack ▸ List.mem_cons_self)

end SearchState

end DavisPutnam
