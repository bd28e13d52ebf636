import DavisPutnam.Proofs.Bindings
import DavisPutnam.Proofs.Lineage

/-!
What waits on the stack of a search.

A branch covers the valuations that agree with its assignment and with its decision. A
branch of a split keeps all bindings of the branch that split, and covers none but its
valuations (`Branch.Ready.covers_of_splitsInto`). The branches on the stack are laid out
in one way in every state of a search (`SearchState.Reachable.laidOut`): all but the top
one make an atom false, each keeps the bindings of those beneath it and makes the atoms
true that these make false, and the depths fall towards the bottom. So no valuation is
covered twice, not even by a branch that was refuted and one that waits later
(`SearchState.disjoint_of_refuted`), and the stack stays small
(`SearchState.Reachable.length_le`).
-/

namespace DavisPutnam

/-! ### Assignments that keep the bindings of others -/

namespace Assignment

/-- The assignment is over the same atoms as the other one and keeps all its bindings. -/
def Extends (a b : Assignment) : Prop :=
  a.atoms = b.atoms ∧ ∀ atom value,
    atomSlot? b.slots atom = some (some value) → atomSlot? a.slots atom = some (some value)

variable {a b c : Assignment}

theorem Extends.refl (a : Assignment) : a.Extends a :=
  ⟨rfl, fun _ _ bound => bound⟩

theorem Extends.trans (first : a.Extends b) (second : b.Extends c) : a.Extends c :=
  ⟨first.1.trans second.1, fun atom value bound => first.2 atom value (second.2 atom value bound)⟩

theorem extends_of_assign {l : Literal} (h : a.assign l = .ok b) : b.Extends a := by
  refine ⟨atoms_assign h, fun atom value bound => ?_⟩
  have free : a.Free l.atom := exists_assign_iff.mp ⟨b, h⟩
  have other : atom ≠ l.atom := by
    rintro rfl
    cases free.symm.trans bound
  rw [slot_assign h, if_neg other]
  exact bound

theorem Extends.admits (h : a.Extends b) {v : Valuation} (admits : a.Admits v) : b.Admits v :=
  fun atom value bound => admits atom value (h.2 atom value bound)

theorem unboundCount_unbound (n : Nat) : (unbound n).unboundCount = n := by
  simp [unboundCount, unbound, List.countP_replicate]

theorem Free.unboundCount_pos {atom : Nat} (free : a.Free atom) : 0 < a.unboundCount := by
  obtain ⟨b, assigned⟩ := exists_assign_iff (l := ⟨atom, true⟩).mpr free
  have := unboundCount_assign assigned
  omega

end Assignment

theorem Simplifies.keeps {clauses rest : List Clause} {a b : Assignment}
    {steps : List (Reason × Literal)} (h : Simplifies clauses a steps rest b) : b.Extends a := by
  induction h with
  | refl => exact .refl _
  | step _ _ committed _ ih =>
    exact ih.trans (Assignment.extends_of_assign (assign_of_commit_eq_ok committed))

/-! ### What a branch covers -/

namespace Branch

/-- The valuation agrees with the assignment of the branch and with its decision. -/
def Covers (b : Branch) (v : Valuation) : Prop :=
  b.assignment.Admits v ∧ ∀ l, b.decision = some l → l.holds v = true

variable {b c : Branch} {steps : List (Reason × Literal)} {clauses : List Clause} {a : Assignment}

/-- The passes of an expansion keep the bindings of the branch. -/
theorem Visits.keeps (visits : b.Visits steps clauses a) : a.Extends b.assignment := by
  obtain ⟨first, start, entered, simplifies⟩ := visits
  refine simplifies.keeps.trans ?_
  rcases entered_cases entered with ⟨_, _, rfl⟩ | ⟨l, _, committed⟩
  · exact .refl _
  · exact Assignment.extends_of_assign (assign_of_commit_eq_ok committed)

/-- The passes of an expansion have the decision of the branch bound. -/
theorem Visits.slot_decision (visits : b.Visits steps clauses a) {l : Literal}
    (decision : b.decision = some l) : atomSlot? a.slots l.atom = some (some l.positive) := by
  obtain ⟨first, start, entered, simplifies⟩ := visits
  rcases entered_cases entered with ⟨undecided, _⟩ | ⟨own, same, committed⟩
  · cases undecided.symm.trans decision
  · cases same.symm.trans decision
    apply simplifies.keeps.2
    rw [Assignment.slot_assign (assign_of_commit_eq_ok committed), if_pos rfl]

/-- A pass admits no other valuations than those that the branch covers. -/
theorem Visits.covers (visits : b.Visits steps clauses a) {v : Valuation} (admits : a.Admits v) :
    b.Covers v :=
  ⟨visits.keeps.admits admits, fun _ decision =>
    beq_iff_eq.mpr (admits _ _ (visits.slot_decision decision))⟩

theorem Ready.room_pos (ready : b.Ready) : 0 < b.room := by
  unfold room
  split
  · exact Nat.succ_pos _
  · next l decision => exact (ready.decision l decision).unboundCount_pos

/-- The branches of a split cover no other valuations than the branch that split. -/
theorem Ready.covers_of_splitsInto (ready : b.Ready) (splits : b.SplitsInto c) {v : Valuation}
    (covers : c.Covers v) : b.Covers v := by
  obtain ⟨_, _, _, _, _, _, split, rfl⟩ := splits
  obtain ⟨_, visits⟩ := ready.exists_visits split
  exact visits.covers covers.1

/-! ### Branches that lie above one another -/

/-- How a branch lies above another one: it keeps the bindings of that one, of which the
decision is negative, and it makes the atom of this decision true or has just decided to. -/
structure Above (b c : Branch) : Prop where
  keeps : b.assignment.Extends c.assignment
  opposes : ∃ atom, c.decision = some ⟨atom, false⟩ ∧
    (b.assignment.value atom = .ok (some true) ∨ b.decision = some ⟨atom, true⟩)
  depth_le : c.depth ≤ b.depth

/-- The true branch of a split lies above the false one. -/
theorem above_sibling (b : Branch) (atom : Nat) (clauses : List Clause) (a : Assignment) :
    (b.below atom true clauses a).Above (b.below atom false clauses a) where
  keeps := .refl a
  opposes := ⟨atom, rfl, .inr rfl⟩
  depth_le := Nat.le_refl _

/-- Both branches of a split lie above all that the branch lay above. -/
theorem Above.of_splitsInto {d : Branch} (h : b.Above d) (ready : b.Ready)
    (splits : b.SplitsInto c) : c.Above d := by
  obtain ⟨_, _, atom, value, clauses, a, split, rfl⟩ := splits
  obtain ⟨_, visits⟩ := ready.exists_visits split
  obtain ⟨other, decision, opposes⟩ := h.opposes
  refine ⟨visits.keeps.trans h.keeps, ⟨other, decision, .inl ?_⟩, Nat.le_succ_of_le h.depth_le⟩
  apply Assignment.value_eq_ok_iff.mpr
  rcases opposes with bound | decided
  · exact visits.keeps.2 other true (Assignment.value_eq_ok_iff.mp bound)
  · exact visits.slot_decision decided

/-- Of two branches that lie above one another, only one covers a valuation. -/
theorem Above.disjoint (h : b.Above c) (v : Valuation) : ¬ (b.Covers v ∧ c.Covers v) := by
  rintro ⟨⟨admits, decides⟩, ⟨_, denies⟩⟩
  obtain ⟨atom, decision, opposes⟩ := h.opposes
  have falsified : v atom = false := beq_iff_eq.mp (denies _ decision)
  have verified : v atom = true := by
    rcases opposes with bound | decided
    · exact admits atom true (Assignment.value_eq_ok_iff.mp bound)
    · exact beq_iff_eq.mp (decides _ decided)
  cases falsified.symm.trans verified

end Branch

/-! ### The stack -/

namespace SearchState

variable {f : Formula} {s t : SearchState}

/-- The layout of a stack, its top first. -/
structure LaidOut (stack : List Branch) : Prop where
  above : stack.Pairwise Branch.Above
  descends : stack.tail.Pairwise fun b c => c.depth < b.depth

/-- A split of the top branch keeps the layout. -/
theorem LaidOut.split {b : Branch} {rest : List Branch} (laid : LaidOut (b :: rest))
    (ready : b.Ready) {j k : Journal} {atom : Nat} {clauses : List Clause} {a : Assignment}
    (expanded : b.expand j = (.split atom clauses a, k)) :
    LaidOut (b.below atom true clauses a :: b.below atom false clauses a :: rest) := by
  obtain ⟨first, others⟩ := List.pairwise_cons.mp laid.above
  have reaches (value : Bool) (c : Branch) (mem : c ∈ rest) :
      (b.below atom value clauses a).Above c :=
    (first c mem).of_splitsInto ready ⟨j, k, atom, value, clauses, a, expanded, rfl⟩
  constructor
  · refine .cons ?_ (.cons (reaches false) others)
    exact List.forall_mem_cons.mpr ⟨b.above_sibling atom clauses a, reaches true⟩
  · -- The old top branch may be as deep as the one beneath it, its branches are deeper.
    exact .cons (fun c mem => Nat.lt_succ_of_le (first c mem).depth_le) laid.descends

/-- In every state of the search the stack is laid out. -/
theorem Reachable.laidOut (wf : f.WellFormed) (h : Reachable f s) : LaidOut s.stack := by
  induction h with
  | start => exact ⟨List.pairwise_singleton _ _, .nil⟩
  | step reached turn ih =>
    obtain ⟨b, rest, stack, ⟨j, _, rfl⟩ | ⟨atom, clauses, a, j, expanded, rfl⟩⟩ :=
      running_cases turn
    all_goals rw [stack] at ih
    · exact ⟨ih.above.tail, ih.descends.tail⟩
    · exact ih.split (reached.ready_top wf stack) expanded

/-- Every branch beneath the top of a stack that is laid out makes an atom false. -/
theorem LaidOut.exists_decision {stack : List Branch} (laid : LaidOut stack) {c : Branch}
    (mem : c ∈ stack.tail) : ∃ atom, c.decision = some ⟨atom, false⟩ := by
  cases stack with
  | nil => cases mem
  | cons b rest =>
    obtain ⟨atom, decision, _⟩ := ((List.pairwise_cons.mp laid.above).1 c mem).opposes
    exact ⟨atom, decision⟩

/-- The deeper a branch, the less room it has. -/
theorem Reachable.depth_add_room_le (h : Reachable f s) :
    ∀ b ∈ s.stack, b.depth + b.room ≤ f.atoms + 1 := by
  refine h.forall_waiting ?_ ?_
  · show 0 + ((Assignment.unbound f.atoms).unboundCount + 1) ≤ f.atoms + 1
    exact Nat.le_of_eq (by rw [Assignment.unboundCount_unbound, Nat.zero_add])
  · rintro b c fits ⟨_, _, _, _, _, _, split, rfl⟩
    have := Branch.unboundCount_lt_room split
    rw [Branch.room_below]
    show b.depth + 1 + _ ≤ _
    omega

/-- No branch is deeper than there are atoms. -/
theorem Reachable.depth_le (wf : f.WellFormed) (h : Reachable f s) :
    ∀ b ∈ s.stack, b.depth ≤ f.atoms := by
  intro b mem
  have fits := h.depth_add_room_le b mem
  have := (h.ready wf b mem).room_pos
  omega

/-- There is at most one branch for each atom on the stack, and one more. -/
theorem Reachable.length_le (wf : f.WellFormed) (h : Reachable f s) :
    s.stack.length ≤ f.atoms + 1 := by
  cases stack : s.stack with
  | nil => exact Nat.zero_le _
  | cons b rest =>
    obtain ⟨path, lineage⟩ := h.lineage stack
    have depth : b.depth ≤ f.atoms := h.depth_le wf b (stack ▸ List.mem_cons_self)
    have few : path.countP Literal.positive ≤ path.length := List.countP_le_length
    rw [← lineage.length_waiting, lineage.length_path] at few
    rw [List.length_cons]
    omega

/-- What is covered by a branch that waits later is covered by one that waits now. -/
theorem Turns.covers {k : Nat} (later : s.Turns k t) (wf : f.WellFormed) (h : Reachable f s) :
    ∀ c ∈ t.stack, ∃ b ∈ s.stack, ∀ v, c.Covers v → b.Covers v := by
  induction later with
  | none => exact fun c mem => ⟨c, mem, fun _ covers => covers⟩
  | next before turn ih =>
    intro c mem
    rcases mem_stack_of_running turn mem with mem | ⟨d, rest, stack, splits⟩
    · exact ih c mem
    · have waits := stack ▸ List.mem_cons_self
      obtain ⟨b, mem, covers⟩ := ih d waits
      have ready : d.Ready := (h.turns before).ready wf d waits
      exact ⟨b, mem, fun v covered => covers v (ready.covers_of_splitsInto splits covered)⟩

/-- What a refuted branch covered is not covered again. -/
theorem disjoint_of_refuted (wf : f.WellFormed) (h : Reachable f s) {b : Branch}
    {rest : List Branch} (stack : s.stack = b :: rest) {j : Journal}
    (refuted : b.expand s.journal = (.conflict, j)) (turn : s.step = .running t) {k : Nat}
    {u : SearchState} (later : t.Turns k u) :
    ∀ c ∈ u.stack, ∀ v, ¬ (b.Covers v ∧ c.Covers v) := by
  intro c mem v ⟨first, second⟩
  obtain ⟨d, waits, covers⟩ := later.covers wf (.step h turn) c mem
  have beneath : d ∈ rest := by
    obtain ⟨top, below, before, ⟨k, _, rfl⟩ | ⟨_, _, _, _, expanded, rfl⟩⟩ := running_cases turn
    all_goals cases stack.symm.trans before
    · exact waits
    · cases refuted.symm.trans expanded
  have laid : LaidOut (b :: rest) := stack ▸ h.laidOut wf
  exact ((List.pairwise_cons.mp laid.above).1 d beneath).disjoint v ⟨first, covers v second⟩

/-- **The stack.** In every state of the search for a model of a well-formed formula, read
with the top of the stack first: every branch but the top one makes an atom false; the
depths fall from each branch to the next, except that the top two may be equal; no branch
has its decision bound already; each keeps the bindings of all that lie beneath it, and
makes the atoms true that these make false, or has just decided to. So no valuation is
covered by two branches, nor by a branch that is refuted and one that waits later, and the
stack is longer than the number of atoms by at most one. -/
theorem stack_layout (wf : f.WellFormed) (h : Reachable f s) :
    (∀ b ∈ s.stack.tail, ∃ atom, b.decision = some ⟨atom, false⟩) ∧
      (s.stack.Pairwise fun b c => c.depth ≤ b.depth) ∧
      (s.stack.tail.Pairwise fun b c => c.depth < b.depth) ∧
      (∀ b ∈ s.stack, ∀ l, b.decision = some l → b.assignment.value l.atom = .ok none) ∧
      (s.stack.Pairwise fun b c => b.assignment.Extends c.assignment) ∧
      (s.stack.Pairwise fun b c => ∀ atom, c.decision = some ⟨atom, false⟩ →
        b.assignment.value atom = .ok (some true) ∨ b.decision = some ⟨atom, true⟩) ∧
      (s.stack.Pairwise fun b c => ∀ v : Valuation, ¬ (b.Covers v ∧ c.Covers v)) ∧
      s.stack.length ≤ f.atoms + 1 ∧
      ∀ b rest j t, s.stack = b :: rest → b.expand s.journal = (.conflict, j) →
        s.step = .running t → ∀ k u, t.Turns k u → ∀ c ∈ u.stack, ∀ v : Valuation,
          ¬ (b.Covers v ∧ c.Covers v) := by
  have laid := h.laidOut wf
  refine ⟨fun b mem => laid.exists_decision mem, laid.above.imp (·.depth_le), laid.descends, ?_,
    laid.above.imp (·.keeps), laid.above.imp ?_, laid.above.imp (·.disjoint), h.length_le wf, ?_⟩
  · intro b mem l decision
    exact Assignment.value_eq_ok_iff.mpr ((h.ready wf b mem).decision l decision)
  · intro b c above atom decision
    obtain ⟨other, own, opposes⟩ := above.opposes
    cases decision.symm.trans own
    exact opposes
  · intro b rest j t stack refuted turn k u later
    exact disjoint_of_refuted wf h stack refuted turn later

end SearchState

/-- All clauses over two atoms, the second one twice in each, so that nothing is ever forced
in the search for a model. -/
def Formula.unforced : Formula where
  atoms := 2
  clauses := [[⟨1, true⟩, ⟨2, true⟩, ⟨2, true⟩], [⟨1, true⟩, ⟨2, false⟩, ⟨2, false⟩],
    [⟨1, false⟩, ⟨2, true⟩, ⟨2, true⟩], [⟨1, false⟩, ⟨2, false⟩, ⟨2, false⟩]]

/-- The search for a model of `unforced` splits twice and then meets a conflict. Three
branches wait before it, one more than there are atoms, and the refuted one covers none of
the valuations that the two others cover, which wait after it. -/
theorem SearchState.stack_layout_unforced : Formula.unforced.WellFormed ∧
    ∃ s b c d j t, Reachable Formula.unforced s ∧ s.stack = [b, c, d] ∧
      [b, c, d].map (·.decision) = [some ⟨2, true⟩, some ⟨2, false⟩, some ⟨1, false⟩] ∧
      [b, c, d].map (·.depth) = [2, 2, 1] ∧ [b, c, d].length ≤ Formula.unforced.atoms + 1 ∧
      b.expand s.journal = (.conflict, j) ∧ s.step = .running t ∧ t.stack = [c, d] ∧
      ∀ v : Valuation, ¬ (b.Covers v ∧ c.Covers v) ∧ ¬ (b.Covers v ∧ d.Covers v) := by
  have wf : Formula.unforced.WellFormed := by decide
  obtain ⟨j, first⟩ : ∃ j, Formula.unforced.root.expand {} =
      (.split 1 Formula.unforced.clauses ⟨[none, none]⟩, j) :=
    ⟨_, simplify_of_unforced (by decide) rfl rfl⟩
  obtain ⟨k, second⟩ : ∃ k,
      (Formula.unforced.root.below 1 true Formula.unforced.clauses ⟨[none, none]⟩).expand j =
        (.split 2 [[⟨2, true⟩, ⟨2, true⟩], [⟨2, false⟩, ⟨2, false⟩]] ⟨[some true, none]⟩, k) :=
    ⟨_, (Branch.expand_of_entered rfl j).trans (simplify_of_unforced (by decide) rfl rfl)⟩
  have reached := Reachable.step (.step .start (step_of_split first)) (step_of_split second)
  obtain ⟨_, _, _, _, _, _, _, few, later⟩ := stack_layout wf reached
  obtain ⟨l, refuted⟩ : ∃ l, (Branch.mk [[⟨2, true⟩, ⟨2, true⟩], [⟨2, false⟩, ⟨2, false⟩]]
      ⟨[some true, none]⟩ (some ⟨2, true⟩) 2).expand k = (.conflict, l) :=
    ⟨_, (Branch.expand_of_entered rfl k).trans (simplify_of_nil_mem (by decide))⟩
  have apart := later _ _ l _ rfl refuted (step_of_conflict refuted) 0 _ .none
  refine ⟨wf, _, _, _, _, l, _, reached, rfl, rfl, rfl, few, refuted, step_of_conflict refuted,
    rfl, ?_⟩
  intro v
  exact ⟨apart _ List.mem_cons_self v, apart _ (List.mem_cons_of_mem _ List.mem_cons_self) v⟩

end DavisPutnam
