import DavisPutnam.Proofs.Lineage

/-!
What the journal says of a search.

The journal is only ever prolonged. The expansion of a branch adds its decision and
then its forced bindings, all at the depth of the branch
(`Branch.events_announce_boundAll`).
The counters are the numbers of events of each kind, and the depth counter is that of
the deepest decision (`Journal.Tallied`): this holds in every state of a search and at
its end (`Formula.tallied_solve`).
-/

namespace DavisPutnam

/-! ### Events -/

/-- The event is a binding with the given reason. -/
def Event.isBinding (reason : Reason) : Event → Bool
  | .bound given _ _ => given == reason
  | .conflict _ | .satisfiable .. | .unsatisfiable _ => false

/-- The event is a conflict. -/
def Event.isConflict : Event → Bool
  | .conflict _ => true
  | .bound .. | .satisfiable .. | .unsatisfiable _ => false

namespace Journal

variable (j : Journal) (depth : Nat)

theorem events_enter : (j.enter depth).events = j.events :=
  rfl

theorem events_record (event : Event) : (j.record event).events = j.events ++ [event] :=
  List.reverse_cons

theorem events_bound (reason : Reason) (l : Literal) :
    (j.bound reason l depth).events = j.events ++ [.bound reason l depth] :=
  List.reverse_cons

theorem events_conflict : (j.conflict depth).events = j.events ++ [.conflict depth] :=
  List.reverse_cons

theorem events_boundAll (steps : List (Reason × Literal)) :
    (j.boundAll depth steps).events =
      j.events ++ steps.map fun step => .bound step.1 step.2 depth := by
  induction steps generalizing j with
  | nil => exact (List.append_nil _).symm
  | cons step steps ih =>
    refine (ih (j.bound step.1 step.2 depth)).trans ?_
    rw [events_bound, List.append_assoc]
    rfl

end Journal

/-- The events that the expansion of a branch adds. -/
def Branch.events (b : Branch) (steps : List (Reason × Literal)) : List Event :=
  (b.decision.toList.map fun l => .bound .decision l b.depth) ++
    steps.map fun step => .bound step.1 step.2 b.depth

theorem Branch.events_announce_boundAll (b : Branch) (j : Journal)
    (steps : List (Reason × Literal)) :
    ((b.announce j).boundAll b.depth steps).events = j.events ++ b.events steps := by
  rw [Journal.events_boundAll]
  unfold Branch.announce Branch.events
  cases b.decision with
  | none => rfl
  | some l => rw [Journal.events_bound, Journal.events_enter, List.append_assoc]; rfl

/-- No forced binding is a decision. -/
theorem Simplifies.reason_ne_decision {clauses rest : List Clause} {a b : Assignment}
    {steps : List (Reason × Literal)} (h : Simplifies clauses a steps rest b) :
    ∀ step ∈ steps, step.1 ≠ .decision := by
  induction h with
  | refl => exact List.forall_mem_nil _
  | step _ forced _ _ ih =>
    intro step mem
    rcases List.mem_cons.mp mem with rfl | mem
    · exact reason_ne_decision_of_forced? forced
    · exact ih step mem

theorem Branch.Visits.reason_ne_decision {b : Branch} {steps : List (Reason × Literal)}
    {clauses : List Clause} {a : Assignment} (h : b.Visits steps clauses a) :
    ∀ step ∈ steps, step.1 ≠ .decision := by
  obtain ⟨_, _, _, simplifies⟩ := h
  exact simplifies.reason_ne_decision

/-! ### Counters -/

/-- The number of bindings with the given reason. -/
def Stats.bindings (s : Stats) : Reason → Nat
  | .decision => s.decisions
  | .pure => s.pureLiterals
  | .unit => s.unitClauses

theorem Stats.bindings_countBinding (s : Stats) (reason other : Reason) :
    (s.countBinding reason).bindings other =
      s.bindings other + if reason == other then 1 else 0 := by
  cases reason <;> cases other <;> rfl

/-- The counters are the numbers of events, and the depth counter is the depth of the
deepest decision, or 0 if there is no decision. -/
structure Journal.Tallied (j : Journal) : Prop where
  bindings : ∀ reason, j.stats.bindings reason = j.events.countP (Event.isBinding reason)
  conflicts : j.stats.conflicts = j.events.countP Event.isConflict
  bounded : ∀ l depth, .bound .decision l depth ∈ j.events → depth ≤ j.stats.maxDepth
  attained : j.stats.maxDepth = 0 ∨ ∃ l, .bound .decision l j.stats.maxDepth ∈ j.events

namespace Journal

variable {j k : Journal}

theorem maxDepth_bound (reason : Reason) (l : Literal) (depth : Nat) :
    (j.bound reason l depth).stats.maxDepth = j.stats.maxDepth := by
  cases reason <;> rfl

theorem conflicts_bound (reason : Reason) (l : Literal) (depth : Nat) :
    (j.bound reason l depth).stats.conflicts = j.stats.conflicts := by
  cases reason <;> rfl

namespace Tallied

theorem empty : Tallied {} where
  bindings reason := by cases reason <;> rfl
  conflicts := rfl
  bounded _ _ mem := nomatch mem
  attained := .inl rfl

/-- One more event is tallied if its counter goes up by one and the others stay, and if
the depth counter stays or goes up to the depth of the decision that the event is. -/
theorem append (h : j.Tallied) {event : Event} (events : k.events = j.events ++ [event])
    (bindings : ∀ reason, k.stats.bindings reason =
      j.stats.bindings reason + if event.isBinding reason then 1 else 0)
    (conflicts : k.stats.conflicts = j.stats.conflicts + if event.isConflict then 1 else 0)
    (deeper : j.stats.maxDepth ≤ k.stats.maxDepth)
    (noted : ∀ l depth, event = .bound .decision l depth → depth ≤ k.stats.maxDepth)
    (attained : k.stats.maxDepth = j.stats.maxDepth ∨
      ∃ l, event = .bound .decision l k.stats.maxDepth) : k.Tallied where
  bindings reason := by
    rw [events, List.countP_append, List.countP_singleton, bindings, h.bindings]
  conflicts := by rw [events, List.countP_append, List.countP_singleton, conflicts, h.conflicts]
  bounded l depth mem := by
    rw [events, List.mem_append, List.mem_singleton] at mem
    rcases mem with mem | same
    · exact Nat.le_trans (h.bounded l depth mem) deeper
    · exact noted l depth same.symm
  attained := by
    rw [events]
    rcases attained with same | ⟨l, rfl⟩
    · rw [same]
      rcases h.attained with zero | ⟨l, mem⟩
      · exact .inl zero
      · exact .inr ⟨l, List.mem_append_left _ mem⟩
    · exact .inr ⟨l, List.mem_append_right _ List.mem_cons_self⟩

/-- A binding is counted under its reason. If it is a decision, its depth has to be
noted before. -/
theorem bound (h : j.Tallied) {depth : Nat} (noted : depth ≤ j.stats.maxDepth) (reason : Reason)
    (l : Literal) : (j.bound reason l depth).Tallied := by
  refine h.append (j.events_bound depth reason l) (Stats.bindings_countBinding _ reason)
    (conflicts_bound reason l depth) ?_ ?_ (.inl (maxDepth_bound reason l depth))
  · exact Nat.le_of_eq (maxDepth_bound reason l depth).symm
  · intro other level same
    cases same
    rw [maxDepth_bound]
    exact noted

theorem boundAll (h : j.Tallied) {depth : Nat} (noted : depth ≤ j.stats.maxDepth)
    (steps : List (Reason × Literal)) : (j.boundAll depth steps).Tallied := by
  induction steps generalizing j with
  | nil => exact h
  | cons step steps ih =>
    refine ih (h.bound noted step.1 step.2) ?_
    rw [maxDepth_bound]
    exact noted

theorem conflict (h : j.Tallied) (depth : Nat) : (j.conflict depth).Tallied := by
  refine h.append (j.events_conflict depth) ?_ rfl (Nat.le_refl _) nofun (.inl rfl)
  intro reason
  cases reason <;> rfl

/-- An event that is neither a binding nor a conflict is not counted. -/
theorem record (h : j.Tallied) {event : Event} (unbound : ∀ reason, event.isBinding reason = false)
    (peaceful : event.isConflict = false) : (j.record event).Tallied := by
  refine h.append (j.events_record event) ?_ ?_ (Nat.le_refl _) ?_ (.inl rfl)
  · intro reason
    rw [unbound]
    rfl
  · rw [peaceful]
    rfl
  · rintro l depth rfl
    cases unbound .decision

/-- Entering a branch and noting its decision keeps the tally right, because only the
root has no decision. -/
theorem announce (h : j.Tallied) {b : Branch} (rooted : b.decision = none → b.depth = 0) :
    (b.announce j).Tallied := by
  unfold Branch.announce
  cases decision : b.decision with
  | none =>
    have entered : j.enter b.depth = j := by
      unfold enter
      rw [rooted decision, Nat.max_zero]
    exact entered.symm ▸ h
  | some l =>
    refine h.append ((j.enter b.depth).events_bound b.depth .decision l) ?_ rfl
      (Nat.le_max_left _ _) ?_ ?_
    · intro reason
      cases reason <;> rfl
    · intro other level same
      cases same
      exact Nat.le_max_right _ _
    · rcases Nat.le_total b.depth j.stats.maxDepth with low | high
      · exact .inl (Nat.max_eq_left low)
      · exact .inr ⟨l, congrArg (Event.bound .decision l) (Nat.max_eq_right high).symm⟩

end Tallied

end Journal

/-! ### The journal of a search -/

theorem Branch.maxDepth_announce (b : Branch) (j : Journal) :
    (b.announce j).stats.maxDepth = max j.stats.maxDepth b.depth := by
  unfold Branch.announce
  cases b.decision <;> rfl

theorem Journal.maxDepth_boundAll (j : Journal) (depth : Nat) (steps : List (Reason × Literal)) :
    (j.boundAll depth steps).stats.maxDepth = j.stats.maxDepth := by
  induction steps generalizing j with
  | nil => rfl
  | cons step steps ih => exact (ih _).trans (Journal.maxDepth_bound step.1 step.2 depth)

namespace SearchState

variable {f : Formula} {s : SearchState}

/-- The top branch of the stack is expanded with a journal that tallies, and leaves one. -/
theorem Reachable.tallied_expand (wf : f.WellFormed) (h : Reachable f s)
    (tallied : s.journal.Tallied) {b : Branch} {rest : List Branch} (stack : s.stack = b :: rest)
    {out : Outcome} {k : Journal} (expanded : b.expand s.journal = (out, k)) : k.Tallied := by
  obtain ⟨path, lineage⟩ := h.lineage stack
  have rooted (undecided : b.decision = none) : b.depth = 0 := by
    have empty : path = [] := List.head?_eq_none_iff.mp (lineage.head?_path.trans undecided)
    rw [← lineage.length_path, empty]
    rfl
  have ready : b.Ready := h.ready_top wf stack
  obtain ⟨steps, _, _, _, _, rfl⟩ := ready.of_expand expanded
  refine (tallied.announce rooted).boundAll ?_ steps
  rw [Branch.maxDepth_announce]
  exact Nat.le_max_right _ _

/-- The counters are the numbers of events in every state of the search. -/
theorem Reachable.tallied (wf : f.WellFormed) (h : Reachable f s) : s.journal.Tallied := by
  induction h with
  | start => exact .empty
  | step reached turn ih =>
    obtain ⟨b, rest, stack, ⟨j, expanded, rfl⟩ | ⟨atom, clauses, a, j, expanded, rfl⟩⟩ :=
      running_cases turn
    · exact (reached.tallied_expand wf ih stack expanded).conflict b.depth
    · exact reached.tallied_expand wf ih stack expanded

end SearchState

/-- The counters are the numbers of events at the end of the search. -/
theorem Formula.tallied_solve {f : Formula} (wf : f.WellFormed) : f.solve.journal.Tallied := by
  obtain ⟨s, reached, halted⟩ := SearchState.exists_last_state f
  have tallied := reached.tallied wf
  rcases SearchState.halted_cases halted with
    ⟨_, result⟩ | ⟨b, rest, stack, ⟨m, j, expanded, result⟩ | ⟨fault, j, expanded, result⟩⟩
  · rw [result]
    exact tallied.record (fun _ => rfl) rfl
  · rw [result]
    exact (reached.tallied_expand wf tallied stack expanded).record (fun _ => rfl) rfl
  · rw [result]
    exact reached.tallied_expand wf tallied stack expanded

end DavisPutnam
