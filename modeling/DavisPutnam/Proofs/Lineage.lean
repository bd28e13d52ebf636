import DavisPutnam.Proofs.Reachability

/-!
Paths through the search tree, and what waits beside them.

`Formula.Lineage f path b waiting` says that the decisions in `path` lead from the
root to the branch `b`, and that `waiting` are the branches left aside on the way:
one for every positive decision, which is the branch of the opposite decision. In
every state of a search the stack is such a branch with those that wait beneath it
(`SearchState.Reachable.lineage`), so that a refutation resumes the search at the
last positive decision of the path (`Formula.Lineage.pop`).
-/

namespace DavisPutnam

/-- The decisions in `path`, latest first, lead from the root to a branch, and the
false branches of the positive ones wait meanwhile, latest first. -/
inductive Formula.Lineage (f : Formula) : List Literal → Branch → List Branch → Prop where
  | root : Lineage f [] f.root []
  | accept {path : List Literal} {b : Branch} {waiting : List Branch} {j k : Journal} {atom : Nat}
      {clauses : List Clause} {a : Assignment} (above : Lineage f path b waiting)
      (split : b.expand j = (.split atom clauses a, k)) :
      Lineage f (⟨atom, true⟩ :: path) (b.below atom true clauses a)
        (b.below atom false clauses a :: waiting)
  | reject {path : List Literal} {b : Branch} {waiting : List Branch} {j k : Journal} {atom : Nat}
      {clauses : List Clause} {a : Assignment} (above : Lineage f path b waiting)
      (split : b.expand j = (.split atom clauses a, k)) :
      Lineage f (⟨atom, false⟩ :: path) (b.below atom false clauses a) waiting

namespace Formula.Lineage

variable {f : Formula} {path : List Literal} {b c : Branch} {waiting : List Branch}

/-- A branch is as deep as the path to it is long. -/
theorem length_path (h : f.Lineage path b waiting) : path.length = b.depth := by
  induction h with
  | root => rfl
  | accept _ _ ih => exact congrArg (· + 1) ih
  | reject _ _ ih => exact congrArg (· + 1) ih

/-- The last decision of the path is that of the branch. -/
theorem head?_path (h : f.Lineage path b waiting) : path.head? = b.decision := by
  cases h with
  | root => rfl
  | accept => rfl
  | reject => rfl

/-- As many branches wait as there are positive decisions on the path. -/
theorem length_waiting (h : f.Lineage path b waiting) :
    waiting.length = path.countP Literal.positive := by
  induction h with
  | root => rfl
  | accept _ _ ih => simp [ih]
  | reject _ _ ih => simp [ih]

/-- The branches that wait are no deeper than the one in front of them. -/
theorem depth_le (h : f.Lineage path b waiting) : ∀ c ∈ waiting, c.depth ≤ b.depth := by
  induction h with
  | root => exact List.forall_mem_nil _
  | accept _ _ ih =>
    intro c mem
    rcases List.mem_cons.mp mem with rfl | mem
    · exact Nat.le_refl _
    · exact Nat.le_succ_of_le (ih c mem)
  | reject _ _ ih => exact fun c mem => Nat.le_succ_of_le (ih c mem)

/-- Every branch that waits has a decision of its own. -/
theorem decided (h : f.Lineage path b waiting) : ∀ c ∈ waiting, c.decision.isSome = true := by
  induction h with
  | root => exact List.forall_mem_nil _
  | accept _ _ ih => exact List.forall_mem_cons.mpr ⟨rfl, ih⟩
  | reject _ _ ih => exact ih

/-- The first branch that waits has a path of its own, beside which the others
wait: the path up to the last positive decision, with this one reversed. -/
theorem pop (h : f.Lineage path b (c :: waiting)) : ∃ path, f.Lineage path c waiting := by
  generalize stack : c :: waiting = all at h
  induction h with
  | root => cases stack
  | accept above split _ =>
    cases stack
    exact ⟨_, .reject above split⟩
  | reject _ _ ih => exact ih stack

end Formula.Lineage

namespace SearchState

variable {f : Formula} {s : SearchState}

/-- In every state of the search, the branches beneath the top of the stack are
those that wait beside the path to it. -/
theorem Reachable.lineage (h : Reachable f s) {b : Branch} {rest : List Branch}
    (stack : s.stack = b :: rest) : ∃ path, f.Lineage path b rest := by
  induction h generalizing b rest with
  | start =>
    cases (stack_start f).symm.trans stack
    exact ⟨[], .root⟩
  | step _ turn ih =>
    obtain ⟨top, below, before, ⟨j, _, rfl⟩ | ⟨atom, clauses, a, j, expanded, rfl⟩⟩ :=
      running_cases turn
    · obtain ⟨path, above⟩ := ih before
      -- The top branch is refuted, and the one beneath it comes next.
      cases stack
      exact above.pop
    · obtain ⟨path, above⟩ := ih before
      cases stack
      exact ⟨_, .accept above expanded⟩

/-- A branch without a decision is the root, and waits only before the first turn. -/
theorem Reachable.eq_start (h : Reachable f s) {b : Branch} (mem : b ∈ s.stack)
    (undecided : b.decision = none) : s = .start f := by
  cases h with
  | start => rfl
  | step reached turn =>
    obtain ⟨top, below, before, ⟨j, _, rfl⟩ | ⟨atom, clauses, a, j, _, rfl⟩⟩ := running_cases turn
    all_goals
      obtain ⟨path, above⟩ := reached.lineage before
      have waits (c : Branch) (inside : c ∈ below) : c.decision ≠ none :=
        Option.isSome_iff_ne_none.mp (above.decided c inside)
    · exact absurd undecided (waits b mem)
    · rcases List.mem_cons.mp mem with rfl | mem
      · cases undecided
      rcases List.mem_cons.mp mem with rfl | mem
      · cases undecided
      · exact absurd undecided (waits b mem)

end SearchState

end DavisPutnam
