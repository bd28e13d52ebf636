import DavisPutnam.Proofs.Accounting
import DavisPutnam.Proofs.Frontier
import Mathlib.Algebra.Order.Ring.Nat

/-!
How long a search can take.

A binary tree that binds an atom on every edge and repeats none on a path has at most
`2 ^ n` leaves for `n` atoms, and `2 ^ (n + 1) - 2` edges. A waiting branch with room `r`
counts for `2 ^ r`, and in every state of a search the forced bindings so far, twice the
conflicts so far and what waits together are at most `2 ^ (n + 1)`
(`SearchState.Reachable.capacity_le`). Forced bindings are paid for by the room that they
use up (`add_two_mul_pow_le`). With the balance of decisions and conflicts this bounds
all counters and the number of turns.
-/

namespace DavisPutnam

/-! ### What an expansion uses up -/

/-- Every forced binding uses up an unbound atom. -/
theorem Simplifies.unboundCount_add {clauses rest : List Clause} {a b : Assignment}
    {steps : List (Reason × Literal)} (h : Simplifies clauses a steps rest b) :
    b.unboundCount + steps.length = a.unboundCount := by
  induction h with
  | refl => rfl
  | step _ _ committed _ ih =>
    have := unboundCount_commit committed
    rw [List.length_cons]
    omega

/-- The room of a branch is what its forced bindings and the atoms that they leave take up,
and one more. -/
theorem Branch.Visits.room_eq {b : Branch} {steps : List (Reason × Literal)}
    {clauses : List Clause} {a : Assignment} (visits : b.Visits steps clauses a) :
    b.room = a.unboundCount + steps.length + 1 := by
  obtain ⟨first, start, entered, simplifies⟩ := visits
  rw [simplifies.unboundCount_add]
  unfold Branch.room
  rcases Branch.entered_cases entered with ⟨decision, rfl, rfl⟩ | ⟨l, decision, committed⟩
  · rw [decision]
  · rw [decision]
    exact (unboundCount_commit committed).symm

/-- The number of forced bindings. -/
def Stats.forced (s : Stats) : Nat :=
  s.pureLiterals + s.unitClauses

theorem Journal.forced_boundAll {steps : List (Reason × Literal)}
    (forced : ∀ step ∈ steps, step.1 ≠ .decision) (j : Journal) (depth : Nat) :
    (j.boundAll depth steps).stats.forced = j.stats.forced + steps.length := by
  induction steps generalizing j with
  | nil => rfl
  | cons step steps ih =>
    obtain ⟨first, others⟩ := List.forall_mem_cons.mp forced
    have once : (j.bound step.1 step.2 depth).stats.forced = j.stats.forced + 1 := by
      cases reason : step.1 with
      | decision => exact absurd reason first
      | pure => exact Nat.add_right_comm ..
      | unit => rfl
    refine (ih others (j.bound step.1 step.2 depth)).trans ?_
    rw [once, List.length_cons]
    omega

theorem Branch.forced_announce (b : Branch) (j : Journal) :
    (b.announce j).stats.forced = j.stats.forced := by
  unfold Branch.announce
  cases b.decision <;> rfl

/-- The expansion of a branch comes to an outcome after some forced bindings, which it
counts, and for which it has the room. -/
theorem Branch.Ready.exists_steps {b : Branch} (ready : b.Ready) {j k : Journal} {out : Outcome}
    (expanded : b.expand j = (out, k)) :
    ∃ (steps : List (Reason × Literal)) (clauses : List Clause) (a : Assignment),
      out.EndsAt clauses a ∧ b.room = a.unboundCount + steps.length + 1 ∧
      k.stats.forced = j.stats.forced + steps.length ∧
      k.stats.maxDepth = max j.stats.maxDepth b.depth := by
  obtain ⟨steps, clauses, a, visits, ends, rfl⟩ := ready.of_expand expanded
  refine ⟨steps, clauses, a, ends, visits.room_eq, ?_, ?_⟩
  · rw [Journal.forced_boundAll visits.reason_ne_decision, Branch.forced_announce]
  · rw [Journal.maxDepth_boundAll, Branch.maxDepth_announce]

/-! ### What waits -/

/-- Two branches of room `r` and `k` bindings cost no more than a branch that has room for
them. -/
theorem add_two_mul_pow_le (k r : Nat) : k + 2 * 2 ^ r ≤ 2 ^ (r + k + 1) := by
  induction k with
  | zero => exact Nat.le_of_eq (by rw [Nat.zero_add, Nat.add_zero, pow_succ, Nat.mul_comm])
  | succ k ih =>
    have doubled : 2 ^ (r + (k + 1) + 1) = 2 * 2 ^ (r + k + 1) := by
      rw [← Nat.add_assoc, pow_succ, Nat.mul_comm]
    have : 0 < 2 ^ r := Nat.two_pow_pos r
    omega

/-- `k` bindings and a conflict cost no more than a branch that has room for them. -/
theorem add_two_le_pow (k r : Nat) : k + 2 ≤ 2 ^ (r + k + 1) := by
  have := add_two_mul_pow_le k r
  have : 0 < 2 ^ r := Nat.two_pow_pos r
  omega

namespace SearchState

variable {f : Formula} {s : SearchState}

/-- What the waiting branches count for: two to the power of the room of each. -/
def capacity : List Branch → Nat
  | [] => 0
  | b :: rest => 2 ^ b.room + capacity rest

theorem length_le_capacity (stack : List Branch) : stack.length ≤ capacity stack := by
  induction stack with
  | nil => exact Nat.le_refl 0
  | cons b rest ih =>
    have : 0 < 2 ^ b.room := Nat.two_pow_pos b.room
    rw [List.length_cons, capacity]
    omega

/-- A ready branch counts for at least two. -/
theorem owed_le_capacity {stack : List Branch} (ready : ∀ b ∈ stack, b.Ready) :
    owed stack ≤ capacity stack := by
  induction stack with
  | nil => exact Nat.le_refl 0
  | cons b rest ih =>
    obtain ⟨first, others⟩ := List.forall_mem_cons.mp ready
    have two : 2 ^ 1 ≤ 2 ^ b.room := Nat.pow_le_pow_right Nat.two_pos first.room_pos
    have := ih others
    rw [owed, capacity]
    omega

/-- In every state of the search the forced bindings, twice the conflicts and what the
waiting branches count for are at most what the root counted for. -/
theorem Reachable.capacity_le (wf : f.WellFormed) (h : Reachable f s) :
    s.journal.stats.forced + 2 * s.journal.stats.conflicts + capacity s.stack ≤
      2 ^ (f.atoms + 1) := by
  induction h with
  | start =>
    show 0 + 2 * 0 + (2 ^ ((Assignment.unbound f.atoms).unboundCount + 1) + 0) ≤ 2 ^ (f.atoms + 1)
    rw [Assignment.unboundCount_unbound]
    omega
  | step reached turn ih =>
    obtain ⟨b, rest, stack, cases⟩ := running_cases turn
    have ready : b.Ready := reached.ready_top wf stack
    rw [stack, capacity] at ih
    rcases cases with ⟨j, expanded, rfl⟩ | ⟨atom, clauses, a, j, expanded, rfl⟩
    · obtain ⟨steps, _, last, _, room, forced, _⟩ := ready.exists_steps expanded
      obtain ⟨_, conflicts, _⟩ := ready.stats_expand expanded
      have paid := add_two_le_pow steps.length last.unboundCount
      rw [← room] at paid
      show j.stats.forced + 2 * (j.stats.conflicts + 1) + capacity rest ≤ _
      omega
    · obtain ⟨steps, _, last, ⟨_, rfl, _⟩, room, forced, _⟩ := ready.exists_steps expanded
      obtain ⟨_, conflicts, _⟩ := ready.stats_expand expanded
      have paid := add_two_mul_pow_le steps.length a.unboundCount
      rw [← room] at paid
      show j.stats.forced + 2 * j.stats.conflicts +
        (2 ^ a.unboundCount + (2 ^ a.unboundCount + capacity rest)) ≤ _
      omega

/-- Every turn refutes a branch or puts one more on the stack than it takes. -/
theorem Reachable.exists_turns (wf : f.WellFormed) (h : Reachable f s) :
    ∃ k, (SearchState.start f).Turns k s ∧
      k + 1 = 2 * s.journal.stats.conflicts + s.stack.length := by
  induction h with
  | start => exact ⟨0, .none, rfl⟩
  | step reached turn ih =>
    obtain ⟨k, turns, count⟩ := ih
    refine ⟨k + 1, .next turns turn, ?_⟩
    obtain ⟨b, rest, stack, cases⟩ := running_cases turn
    have ready : b.Ready := reached.ready_top wf stack
    rw [stack, List.length_cons] at count
    rcases cases with ⟨j, expanded, rfl⟩ | ⟨atom, clauses, a, j, expanded, rfl⟩
    · obtain ⟨_, conflicts, _⟩ := ready.stats_expand expanded
      show k + 1 + 1 = 2 * (j.stats.conflicts + 1) + rest.length
      omega
    · obtain ⟨_, conflicts, _⟩ := ready.stats_expand expanded
      show k + 1 + 1 = 2 * j.stats.conflicts + (rest.length + 1 + 1)
      omega

theorem Reachable.maxDepth_le (wf : f.WellFormed) (h : Reachable f s) :
    s.journal.stats.maxDepth ≤ f.atoms := by
  induction h with
  | start => exact Nat.zero_le _
  | step reached turn ih =>
    obtain ⟨b, rest, stack, cases⟩ := running_cases turn
    have waits := stack ▸ List.mem_cons_self
    have entered := Nat.max_le.mpr ⟨ih, reached.depth_le wf b waits⟩
    rcases cases with ⟨j, expanded, rfl⟩ | ⟨atom, clauses, a, j, expanded, rfl⟩
    all_goals
      obtain ⟨_, _, _, _, _, _, deepest⟩ := (reached.ready wf b waits).exists_steps expanded
      exact deepest ▸ entered

end SearchState

/-! ### The counters -/

namespace Stats

/-- The counters of a search over `n` atoms do not exceed what a binary tree of depth `n`
has: its edges, its leaves, and its depth. -/
structure Within (n : Nat) (s : Stats) : Prop where
  bindings : s.decisions + s.pureLiterals + s.unitClauses ≤ 2 ^ (n + 1) - 2
  conflicts : s.conflicts ≤ 2 ^ n
  maxDepth : s.maxDepth ≤ n

/-- Each counter fits a word. -/
structure FitsWords (s : Stats) : Prop where
  decisions : Word.FitsUnsigned s.decisions
  pureLiterals : Word.FitsUnsigned s.pureLiterals
  unitClauses : Word.FitsUnsigned s.unitClauses
  conflicts : Word.FitsUnsigned s.conflicts
  maxDepth : Word.FitsUnsigned s.maxDepth

variable {n : Nat} {s : Stats}

theorem within_of_forced (bindings : s.decisions + s.forced + 2 ≤ 2 ^ (n + 1))
    (conflicts : 2 * s.conflicts ≤ 2 ^ (n + 1)) (maxDepth : s.maxDepth ≤ n) : s.Within n where
  bindings := by
    unfold forced at bindings
    omega
  conflicts := by
    rw [pow_succ] at conflicts
    omega
  maxDepth := maxDepth

/-- The edges of a binary tree of depth 63 can be counted with a word. -/
theorem Within.fitsWords (h : s.Within n) (small : n ≤ 63) : s.FitsWords := by
  have edges : 2 ^ (n + 1) ≤ Word.size := by
    calc 2 ^ (n + 1) ≤ 2 ^ 64 := Nat.pow_le_pow_right Nat.two_pos (Nat.succ_le_succ small)
      _ = Word.size := rfl
  have leaves : 2 ^ n < 2 ^ (n + 1) := Nat.pow_lt_pow_right Nat.one_lt_two (Nat.lt_succ_self n)
  have depth : n < 2 ^ n := Nat.lt_two_pow_self
  obtain ⟨bindings, conflicts, maxDepth⟩ := h
  constructor
  all_goals
    unfold Word.FitsUnsigned
    omega

end Stats

namespace SearchState

variable {f : Formula} {s : SearchState}

/-- The counters are within the bounds in every state of the search. -/
theorem Reachable.within (wf : f.WellFormed) (h : Reachable f s) :
    s.journal.stats.Within f.atoms := by
  have balance := h.balance wf
  have capacity := h.capacity_le wf
  have owed := owed_le_capacity (h.ready wf)
  refine Stats.within_of_forced ?_ ?_ (h.maxDepth_le wf)
  · omega
  · omega

/-- They are so after the expansion of the top branch, before its outcome is counted. -/
theorem Reachable.within_expand (wf : f.WellFormed) (h : Reachable f s) {b : Branch}
    {rest : List Branch} (stack : s.stack = b :: rest) {j : Journal} {out : Outcome}
    (expanded : b.expand s.journal = (out, j)) : j.stats.Within f.atoms := by
  have ready := stack ▸ h.ready wf
  obtain ⟨first, others⟩ := List.forall_mem_cons.mp ready
  obtain ⟨steps, _, last, _, room, forced, deepest⟩ := first.exists_steps expanded
  obtain ⟨decisions, conflicts, _⟩ := first.stats_expand expanded
  have balance := h.balance wf
  have count := h.capacity_le wf
  rw [stack] at balance count
  rw [owed] at balance
  rw [capacity] at count
  have single := length_decision_le b
  have waiting := owed_le_capacity others
  have paid := add_two_le_pow steps.length last.unboundCount
  rw [← room] at paid
  refine Stats.within_of_forced ?_ ?_ ?_
  · omega
  · omega
  · rw [deepest]
    exact Nat.max_le.mpr ⟨h.maxDepth_le wf, h.depth_le wf b (stack ▸ List.mem_cons_self)⟩

end SearchState

namespace Formula

variable {f : Formula}

/-- The counters are within the bounds at the end of the search. -/
theorem within_solve (wf : f.WellFormed) : f.solve.stats.Within f.atoms := by
  obtain ⟨s, reached, halted⟩ := SearchState.exists_last_state f
  unfold Run.stats
  rcases SearchState.halted_cases halted with
    ⟨_, result⟩ | ⟨b, rest, stack, ⟨m, j, expanded, result⟩ | ⟨fault, j, expanded, result⟩⟩
  · rw [result]
    exact reached.within wf
  · have within_bounds : j.stats.Within f.atoms := reached.within_expand wf stack expanded
    rw [result]
    exact within_bounds
  · rw [result]
    exact reached.within_expand wf stack expanded

/-- **Bounds.** The search for a model of a well-formed formula with `n` atoms comes to a
verdict after less than `2 ^ (n + 1)` turns. In each of them the top branch is expanded by
a series of forced bindings, no more than there are atoms left, to the outcome that its
last pass calls for. At the end the bindings, forced and decided, are at most
`2 ^ (n + 1) - 2`, the conflicts at most `2 ^ n`, and no branch was deeper than `n`. So no
counter and no depth exceeds a word if there are at most 63 atoms. -/
theorem search_bounds (wf : f.WellFormed) :
    (∃ k s, (SearchState.start f).Turns k s ∧ s.step = .halted f.solve ∧
        k ≤ 2 ^ (f.atoms + 1) - 1) ∧
      (∃ verdict, f.solve.verdict = .ok verdict) ∧
      (∀ s b rest, SearchState.Reachable f s → s.stack = b :: rest →
        ∃ out steps clauses a, b.Visits steps clauses a ∧ out.EndsAt clauses a ∧
          b.expand s.journal = (out, (b.announce s.journal).boundAll b.depth steps) ∧
          b.depth + steps.length ≤ f.atoms) ∧
      f.solve.stats.decisions + f.solve.stats.pureLiterals + f.solve.stats.unitClauses ≤
        2 ^ (f.atoms + 1) - 2 ∧
      f.solve.stats.conflicts ≤ 2 ^ f.atoms ∧ f.solve.stats.maxDepth ≤ f.atoms ∧
      (f.atoms ≤ 63 → f.solve.stats.FitsWords ∧ ∀ s, SearchState.Reachable f s →
        s.journal.stats.FitsWords ∧ ∀ b ∈ s.stack, Word.FitsUnsigned (b.depth + 1)) := by
  obtain ⟨bindings, conflicts, maxDepth⟩ := within_solve wf
  refine ⟨?_, ?_, ?_, bindings, conflicts, maxDepth, ?_⟩
  · obtain ⟨s, reached, halted⟩ := SearchState.exists_last_state f
    obtain ⟨k, turns, count⟩ := reached.exists_turns wf
    have few := SearchState.length_le_capacity s.stack
    have capacity := reached.capacity_le wf
    exact ⟨k, s, turns, halted, by omega⟩
  · rcases solve_cases wf with ⟨_, answer, _⟩ | ⟨answer, _⟩
    · exact ⟨_, answer⟩
    · exact ⟨_, answer⟩
  · intro s b rest reached stack
    have waits := stack ▸ List.mem_cons_self
    have ready : b.Ready := reached.ready wf b waits
    obtain ⟨out, steps, clauses, a, visits, ends, result⟩ := ready.expand s.journal
    have room := visits.room_eq
    have fits := reached.depth_add_room_le b waits
    exact ⟨out, steps, clauses, a, visits, ends, result, by omega⟩
  · intro small
    refine ⟨(within_solve wf).fitsWords small, fun s reached => ?_⟩
    refine ⟨(reached.within wf).fitsWords small, fun b waits => ?_⟩
    have depth := reached.depth_le wf b waits
    unfold Word.FitsUnsigned Word.size
    omega

/-- The search for a model of `unforced` visits the whole binary tree of depth 2, and so
attains each of the bounds. -/
theorem search_bounds_unforced : unforced.WellFormed ∧
    unforced.solve.stats = { decisions := 6, conflicts := 4, maxDepth := 2 } ∧
    6 = 2 ^ (unforced.atoms + 1) - 2 ∧ 4 = 2 ^ unforced.atoms ∧ 2 = unforced.atoms ∧
    unforced.solve.stats.decisions + unforced.solve.stats.pureLiterals +
      unforced.solve.stats.unitClauses ≤ 2 ^ (unforced.atoms + 1) - 2 ∧
    unforced.solve.stats.conflicts ≤ 2 ^ unforced.atoms ∧
    unforced.solve.stats.maxDepth ≤ unforced.atoms ∧ unforced.solve.stats.FitsWords := by
  have wf : unforced.WellFormed := by decide
  have concludes : unforced.Concludes _ := .unsatisfiable <|
    .backtrack (by decide) rfl rfl rfl rfl
      (.backtrack (by decide) rfl rfl rfl rfl (.conflict (by decide)) rfl (.conflict (by decide)))
      rfl
      (.backtrack (by decide) rfl rfl rfl rfl (.conflict (by decide)) rfl (.conflict (by decide)))
  have counters : unforced.solve.stats = { decisions := 6, conflicts := 4, maxDepth := 2 } :=
    stats_of_concludes wf concludes
  obtain ⟨_, _, _, bindings, conflicts, maxDepth, words⟩ := search_bounds wf
  exact ⟨wf, counters, rfl, rfl, rfl, bindings, conflicts, maxDepth, (words (by decide)).1⟩

end Formula

end DavisPutnam
