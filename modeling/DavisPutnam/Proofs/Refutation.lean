import DavisPutnam.Proofs.Certificate
import DavisPutnam.Proofs.Frontier

/-!
A false branch is searched only after its true branch is refuted.

A branch is satisfiable if some valuation makes its decision and its clauses true. The
expansion of a satisfiable branch meets no conflict, and where it splits, one of its two
branches is satisfiable (`Branch.Ready.satisfiable_below`), although a pure literal may
lose valuations on the way. A false branch that waits leaves the valuations that make its
atom true to the branches above it: as long as one of them satisfies the clauses, one of
those branches is satisfiable (`SearchState.Reachable.delegated`). When the false branch
comes to the top, no branch is above it, so no model that keeps its bindings makes its atom
true (`SearchState.Reachable.refuted`).

The log shows the decisions that lead to the top branch and the bindings before each of them,
and it justifies the negative ones (`SearchState.Reachable.justified`): they are logical
consequences of the formula and the bindings before them. `Formula.refuted_before_rejected`
says so of the way to a model.
-/

namespace DavisPutnam

/-! ### Satisfiable branches -/

/-- Forced bindings keep clauses satisfiable. -/
theorem Simplifies.exists_allHold {clauses rest : List Clause} {a b : Assignment}
    {steps : List (Reason × Literal)} (h : Simplifies clauses a steps rest b)
    (satisfiable : ∃ v : Valuation, allHold v clauses = true) :
    ∃ v : Valuation, allHold v rest = true := by
  induction h with
  | refl => exact satisfiable
  | step _ forced committed _ ih =>
    obtain ⟨v, satisfied⟩ := satisfiable
    obtain ⟨w, holds, kept⟩ := exists_holds_of_forced? forced satisfied
    exact ih ⟨w, (allHold_commit committed holds).trans kept⟩

namespace Branch

/-- Some valuation makes the decision of the branch and its clauses true. -/
def Satisfiable (b : Branch) : Prop :=
  ∃ v : Valuation, (∀ l, b.decision = some l → l.holds v = true) ∧ allHold v b.clauses = true

variable {b : Branch}

/-- The passes of an expansion keep a branch satisfiable. -/
theorem Visits.exists_allHold {steps : List (Reason × Literal)} {clauses : List Clause}
    {a : Assignment} (visits : b.Visits steps clauses a) (satisfiable : b.Satisfiable) :
    ∃ v : Valuation, allHold v clauses = true := by
  obtain ⟨first, start, entered, simplifies⟩ := visits
  obtain ⟨v, decided, satisfied⟩ := satisfiable
  apply simplifies.exists_allHold
  rcases entered_cases entered with ⟨_, rfl, _⟩ | ⟨l, decision, committed⟩
  · exact ⟨v, satisfied⟩
  · exact ⟨v, (allHold_commit committed (decided l decision)).trans satisfied⟩

namespace Ready

/-- The expansion of a satisfiable branch meets no conflict. -/
theorem not_satisfiable_of_conflict (ready : b.Ready) {j k : Journal}
    (refuted : b.expand j = (.conflict, k)) : ¬ b.Satisfiable := by
  intro satisfiable
  obtain ⟨_, _, _, visits, ends, _⟩ := ready.of_expand refuted
  obtain ⟨v, satisfied⟩ := visits.exists_allHold satisfiable
  rw [allHold_eq_false_of_nil_mem ends] at satisfied
  cases satisfied

/-- Where a satisfiable branch splits, the true branch or the false one is satisfiable. -/
theorem satisfiable_below (ready : b.Ready) (satisfiable : b.Satisfiable) {j k : Journal}
    {atom : Nat} {clauses : List Clause} {a : Assignment}
    (split : b.expand j = (.split atom clauses a, k)) :
    (b.below atom true clauses a).Satisfiable ∨ (b.below atom false clauses a).Satisfiable := by
  obtain ⟨_, visits⟩ := ready.exists_visits split
  obtain ⟨v, satisfied⟩ := visits.exists_allHold satisfiable
  have decided (value : Bool) (agree : v atom = value) :
      (b.below atom value clauses a).Satisfiable := by
    refine ⟨v, ?_, satisfied⟩
    rintro l decision
    cases decision
    exact beq_iff_eq.mpr agree
  cases value : v atom with
  | true => exact .inl (decided true value)
  | false => exact .inr (decided false value)

end Ready

end Branch

/-! ### What the branches above a false branch owe -/

namespace SearchState

variable {f : Formula} {s : SearchState}

/-- For every false branch on the stack, here with its top first: if a valuation satisfies
the clauses of the branch and makes its atom true, then a branch above is satisfiable. -/
def Delegated (stack : List Branch) : Prop :=
  ∀ above c below atom, stack = above ++ c :: below → c.decision = some ⟨atom, false⟩ →
    (∃ v : Valuation, v atom = true ∧ allHold v c.clauses = true) → ∃ b ∈ above, b.Satisfiable

theorem Delegated.conflict {b : Branch} {rest : List Branch} (delegated : Delegated (b :: rest))
    (refuted : ¬ b.Satisfiable) : Delegated rest := by
  rintro above c below atom rfl decision denied
  obtain ⟨d, mem, satisfiable⟩ := delegated (b :: above) c below atom rfl decision denied
  rcases List.mem_cons.mp mem with rfl | mem
  · exact absurd satisfiable refuted
  · exact ⟨d, mem, satisfiable⟩

theorem Delegated.split {b : Branch} {rest : List Branch} (delegated : Delegated (b :: rest))
    (ready : b.Ready) {j k : Journal} {atom : Nat} {clauses : List Clause} {a : Assignment}
    (expanded : b.expand j = (.split atom clauses a, k)) :
    Delegated (b.below atom true clauses a :: b.below atom false clauses a :: rest) := by
  intro above c below other stack decision denied
  match above, stack with
  | [], stack =>
    cases stack
    cases decision
  | [_], stack =>
    -- The true branch has just what its sibling leaves to it.
    cases stack
    cases decision
    obtain ⟨v, agree, satisfied⟩ := denied
    refine ⟨_, List.mem_singleton_self _, v, ?_, satisfied⟩
    rintro l decision
    cases decision
    exact beq_iff_eq.mpr agree
  | _ :: _ :: above, stack =>
    cases stack
    obtain ⟨d, mem, satisfiable⟩ := delegated (b :: above) c below other rfl decision denied
    rcases List.mem_cons.mp mem with rfl | mem
    · rcases ready.satisfiable_below satisfiable expanded with first | second
      · exact ⟨_, List.mem_cons_self, first⟩
      · exact ⟨_, List.mem_cons_of_mem _ List.mem_cons_self, second⟩
    · exact ⟨d, List.mem_cons_of_mem _ (List.mem_cons_of_mem _ mem), satisfiable⟩

/-- In every state of the search the false branches leave their true parts to the branches
above them. -/
theorem Reachable.delegated (wf : f.WellFormed) (h : Reachable f s) : Delegated s.stack := by
  induction h with
  | start =>
    intro above c below atom stack decision _
    match above, stack with
    | [], stack =>
      cases stack
      cases decision
    | [_], stack => cases stack
  | step reached turn ih =>
    obtain ⟨b, rest, stack, ⟨j, expanded, rfl⟩ | ⟨atom, clauses, a, j, expanded, rfl⟩⟩ :=
      running_cases turn
    all_goals
      have ready : b.Ready := reached.ready_top wf stack
      rw [stack] at ih
    · exact ih.conflict (ready.not_satisfiable_of_conflict expanded)
    · exact ih.split ready expanded

/-- When a false branch comes to the top of the stack, no valuation that keeps its bindings
and makes its atom true satisfies the formula. -/
theorem Reachable.refuted (wf : f.WellFormed) (h : Reachable f s) {b : Branch}
    {rest : List Branch} (stack : s.stack = b :: rest) {atom : Nat}
    (decision : b.decision = some ⟨atom, false⟩) {v : Valuation} (admits : b.assignment.Admits v)
    (verified : v atom = true) : allHold v f.clauses = false := by
  obtain ⟨_, binds⟩ := h.exists_binds wf b (stack ▸ List.mem_cons_self)
  rw [← binds.allHold_eq admits]
  apply Bool.eq_false_iff.mpr
  intro satisfied
  obtain ⟨_, mem, _⟩ := h.delegated wf [] b rest atom stack decision ⟨v, verified, satisfied⟩
  cases mem

end SearchState

/-! ### The decisions on the way to a model -/

/-- The literal is a logical consequence of the formula and the given literals: every model
that satisfies them all makes it true. -/
def Formula.Entails (f : Formula) (given : List Literal) (l : Literal) : Prop :=
  ∀ m : Model, m.values.length = f.atoms → m.satisfies f = .ok true →
    (∀ k ∈ given, m.literalValue k = .ok true) → m.literalValue l = .ok true

/-- A model that agrees with an assignment is one that the assignment admits. -/
theorem Assignment.admits_valuation {a : Assignment} {m : Model}
    (agrees : ∀ atom value, a.value atom = .ok (some value) → m.value atom = .ok value) :
    a.Admits m.valuation := by
  intro atom value bound
  exact Model.valuation_of_value (agrees atom value (value_eq_ok_iff.mpr bound))

namespace Event

variable {f : Formula} {events later : List Event} {depth : Nat}

/-- At every depth below the given one but 0 there is a last decision. At the smaller depths
the last bindings are still those before it, and if it is negative, they entail it. -/
def Justifies (f : Formula) (events : List Event) (depth : Nat) : Prop :=
  ∀ level, level ≠ 0 → level < depth → ∃ earlier l later,
    events = earlier ++ .bound .decision l level :: later ∧
      later.any (decidesAt level) = false ∧
      certificate earlier level = certificate events level ∧
      (l.positive = false → f.Entails (certificate earlier level) l)

/-- Silent events keep what the log justifies. -/
theorem Justifies.append (h : Justifies f events depth) (silent : Silent later depth) :
    Justifies f (events ++ later) depth := by
  intro level nonzero low
  obtain ⟨earlier, l, between, log, last, same, entailed⟩ := h level nonzero low
  have quiet : Silent later level := silent.mono (Nat.le_of_lt low)
  refine ⟨earlier, l, between ++ later, by rw [log, List.append_assoc]; rfl, ?_, ?_, entailed⟩
  · rw [List.any_append, last, silent.undecided level low, Bool.or_false]
  · rw [same, certificate_append quiet.undecided quiet.unbound]

/-- The last bindings at a depth begin with the last decision there. -/
theorem head?_lastBindings {earlier : List Event} {l : Literal} (nonzero : depth ≠ 0)
    (last : later.any (decidesAt depth) = false) :
    (lastBindings (earlier ++ .bound .decision l depth :: later) depth).head? = some l := by
  obtain ⟨level, rfl⟩ := Nat.exists_eq_succ_of_ne_zero nonzero
  have decides : (bound .decision l (level + 1)).decidesAt (level + 1) = true := BEq.rfl
  have binds : (bound .decision l (level + 1)).bindingAt? (level + 1) = some l := if_pos rfl
  rw [lastBindings, sinceDecision_append_of_any (by rw [List.any_cons, decides, Bool.true_or]),
    sinceDecision, last, if_neg Bool.false_ne_true, if_pos decides, List.filterMap_cons_some binds]
  rfl

end Event

namespace SearchState

variable {f : Formula} {s : SearchState} {b : Branch} {rest : List Branch}

/-- When a false branch comes to the top of the stack, its decision is entailed by the
bindings that the log shows at smaller depths. -/
theorem Reachable.entails (wf : f.WellFormed) (h : Reachable f s) (stack : s.stack = b :: rest)
    {l : Literal} (decision : b.decision = some l) (negative : l.positive = false) :
    f.Entails (Event.certificate s.journal.events b.depth) l := by
  obtain ⟨atom, sign⟩ := l
  cases negative
  intro m size satisfied agrees
  have mem : b ∈ s.stack := stack ▸ List.mem_cons_self
  have binds := (h.certified wf b mem).binds
  have admits : b.assignment.Admits m.valuation := by
    intro other value bound
    have holds := Model.holds_of_literalValue (agrees ⟨other, value⟩ (binds.slot_iff.mp bound))
    exact beq_iff_eq.mp holds
  have range := ((h.ready wf b mem).decision _ decision).inRange
  rw [binds.atoms_eq, ← size] at range
  rw [Model.literalValue_eq_ok range]
  cases value : m.valuation atom with
  | false => exact congrArg Except.ok (beq_iff_eq.mpr value)
  | true =>
    rw [Model.satisfies_eq_ok wf size, h.refuted wf stack decision admits value] at satisfied
    cases satisfied

/-- The log justifies the negative decisions above every branch that waits. -/
def Justified (f : Formula) (s : SearchState) : Prop :=
  ∀ b ∈ s.stack, Event.Justifies f s.journal.events b.depth

/-- After the expansion of the top branch, the log justifies its decision too. -/
theorem Reachable.justified_expand (wf : f.WellFormed) (h : Reachable f s)
    (justified : s.Justified f) (stack : s.stack = b :: rest) {out : Outcome} {k : Journal}
    (expanded : b.expand s.journal = (out, k)) :
    Event.Justifies f k.events (b.depth + 1) ∧
      ∀ c ∈ rest, Event.Justifies f k.events c.depth := by
  have mem : b ∈ s.stack := stack ▸ List.mem_cons_self
  obtain ⟨steps, _, _, visits, _, rfl⟩ := (h.ready wf b mem).of_expand expanded
  have forced := visits.reason_ne_decision
  rw [Branch.events_announce_boundAll]
  constructor
  · intro level nonzero low
    rcases Nat.lt_succ_iff_lt_or_eq.mp low with low | rfl
    · have kept := (justified b mem).append (Branch.silent_events forced (Nat.le_refl _))
      exact kept level nonzero low
    · have decided : b.decision.isSome = true := (h.decision_isSome_iff stack).mpr nonzero
      obtain ⟨l, decision⟩ := Option.isSome_iff_exists.mp decided
      refine ⟨s.journal.events, l, _, by rw [Branch.events_of_decision steps decision],
        Branch.any_decidesAt_forced forced _ _, ?_, h.entails wf stack decision⟩
      exact (Branch.certificate_append_events forced _ (Nat.le_refl _)).symm
  · intro c below
    obtain ⟨path, lineage⟩ := h.lineage stack
    apply (justified c (stack ▸ List.mem_cons_of_mem b below)).append
    exact Branch.silent_events forced (lineage.depth_le c below)

/-- In every state of the search, the log justifies the negative decisions above the
branches that wait. -/
theorem Reachable.justified (wf : f.WellFormed) (h : Reachable f s) : s.Justified f := by
  induction h with
  | start =>
    intro b mem level _ low
    rw [stack_start, List.mem_singleton] at mem
    subst mem
    exact absurd low (Nat.not_lt_zero level)
  | step reached turn ih =>
    obtain ⟨top, rest, stack, ⟨j, expanded, rfl⟩ | ⟨atom, clauses, a, j, expanded, rfl⟩⟩ :=
      running_cases turn
    · obtain ⟨_, kept⟩ := reached.justified_expand wf ih stack expanded
      intro b mem
      rw [Journal.events_conflict]
      exact (kept b mem).append ⟨fun _ _ => rfl, fun _ _ => rfl⟩
    · obtain ⟨reaches, kept⟩ := reached.justified_expand wf ih stack expanded
      exact List.forall_mem_cons.mpr ⟨reaches, List.forall_mem_cons.mpr ⟨reaches, kept⟩⟩

end SearchState

namespace Formula

/-- **Exhaustiveness.** Whenever the search for a model of a well-formed formula comes to a
false branch, no model that agrees with the assignment of the branch and makes its atom
true satisfies the formula. If a model is found at depth `d`, the last decisions at the
depths from 1 to `d` lead to it. So each of them that is negative is a logical consequence of
the formula and the bindings before it on the path to the model, which are the last ones at
smaller depths both when it is made and at the end. -/
theorem refuted_before_rejected {f : Formula} (wf : f.WellFormed) :
    (∀ s b rest atom, SearchState.Reachable f s → s.stack = b :: rest →
      b.decision = some ⟨atom, false⟩ → ∀ m : Model, m.values.length = f.atoms →
        (∀ other value, b.assignment.value other = .ok (some value) → m.value other = .ok value) →
        m.value atom = .ok true → m.satisfies f = .ok false) ∧
      ∀ m, f.solve.verdict = .ok (.satisfiable m) →
        ∃ d, f.solve.events.getLast? = some (.satisfiable d f.solve.stats) ∧
          ∀ k, 1 ≤ k → k ≤ d → ∃ earlier l later,
            f.solve.events = earlier ++ .bound .decision l k :: later ∧
              later.any (Event.decidesAt k) = false ∧
              Event.certificate earlier k = Event.certificate f.solve.events k ∧
              (l.positive = false → f.Entails (Event.certificate earlier k) l) := by
  constructor
  · intro s b rest atom reached stack decision m size agrees verified
    rw [Model.satisfies_eq_ok wf size, reached.refuted wf stack decision
      (Assignment.admits_valuation agrees) (Model.valuation_of_value verified)]
  · intro m answer
    obtain ⟨s, b, rest, j, reached, stack, expanded, _, result⟩ :=
      SearchState.exists_last_state_of_satisfiable answer
    obtain ⟨justifies, _⟩ := reached.justified_expand wf (reached.justified wf) stack expanded
    have events : f.solve.events = j.events ++ [.satisfiable b.depth j.stats] := by
      rw [result]
      exact j.events_record _
    have stats : f.solve.stats = j.stats := by
      rw [result]
      rfl
    have final : Event.Justifies f f.solve.events (b.depth + 1) := by
      rw [events]
      exact justifies.append ⟨fun _ _ => rfl, fun _ _ => rfl⟩
    refine ⟨b.depth, by rw [events, stats, List.getLast?_concat], ?_⟩
    intro k low high
    exact final k (Nat.ne_of_gt low) (Nat.lt_succ_of_le high)

/-- Atom 2 has to be false if atom 1 is true, and is free otherwise. -/
def conditional : Formula where
  atoms := 3
  clauses := [[⟨1, false⟩, ⟨2, false⟩, ⟨3, true⟩], [⟨1, false⟩, ⟨2, false⟩, ⟨3, false⟩],
    [⟨1, true⟩, ⟨2, true⟩, ⟨3, true⟩], [⟨1, false⟩, ⟨2, true⟩, ⟨3, true⟩]]

/-- The search for a model of `conditional` makes atom 1 true and comes to the false branch
of atom 2. The formula entails this decision together with the one before it, but not
alone. -/
theorem refuted_before_rejected_conditional : conditional.WellFormed ∧
    conditional.solve.verdict = .ok (.satisfiable ⟨[true, false, true]⟩) ∧
    (∃ s b rest, SearchState.Reachable conditional s ∧ s.stack = b :: rest ∧
      b.decision = some ⟨2, false⟩ ∧ b.assignment = ⟨[some true, none, none]⟩ ∧
      Model.satisfies ⟨[true, true, false]⟩ conditional = .ok false) ∧
    conditional.Entails [⟨1, true⟩] ⟨2, false⟩ ∧ ¬ conditional.Entails [] ⟨2, false⟩ := by
  have wf : conditional.WellFormed := by decide
  obtain ⟨refuted, entailed⟩ := refuted_before_rejected wf
  have concludes : conditional.Concludes _ := .satisfiable <|
    .accept (by decide) rfl rfl rfl rfl <|
      .backtrack (by decide) rfl rfl rfl rfl
        (.unit (by decide) rfl rfl rfl (.conflict (by decide))) rfl
        (.pure (by decide) rfl rfl .satisfied)
  have answer : conditional.solve.verdict = .ok (.satisfiable ⟨[true, false, true]⟩) :=
    verdict_of_concludes wf concludes
  refine ⟨wf, answer, ?_, ?_, ?_⟩
  · obtain ⟨j, first⟩ : ∃ j, conditional.root.expand {} =
        (.split 1 conditional.clauses ⟨[none, none, none]⟩, j) :=
      ⟨_, simplify_of_unforced (by decide) rfl rfl⟩
    obtain ⟨k, second⟩ : ∃ k,
        (conditional.root.below 1 true conditional.clauses ⟨[none, none, none]⟩).expand j =
          (.split 2 [[⟨2, false⟩, ⟨3, true⟩], [⟨2, false⟩, ⟨3, false⟩], [⟨2, true⟩, ⟨3, true⟩]]
            ⟨[some true, none, none]⟩, k) :=
      ⟨_, (Branch.expand_of_entered rfl j).trans (simplify_of_unforced (by decide) rfl rfl)⟩
    obtain ⟨l, third⟩ : ∃ l, (Branch.mk
        [[⟨2, false⟩, ⟨3, true⟩], [⟨2, false⟩, ⟨3, false⟩], [⟨2, true⟩, ⟨3, true⟩]]
        ⟨[some true, none, none]⟩ (some ⟨2, true⟩) 2).expand k = (.conflict, l) :=
      ⟨_, (Branch.expand_of_entered rfl k).trans <|
        (simplify_of_forced (by decide) rfl rfl).trans (simplify_of_nil_mem (by decide))⟩
    have reached := SearchState.Reachable.step
      (.step (.step .start (SearchState.step_of_split first)) (SearchState.step_of_split second))
      (SearchState.step_of_conflict third)
    refine ⟨_, _, _, reached, rfl, rfl, rfl, refuted _ _ _ 2 reached rfl rfl _ rfl ?_ rfl⟩
    intro other value bound
    match other, bound with
    | 1, bound => cases bound; rfl
    | 2, bound => cases bound
    | 3, bound => cases bound
  · obtain ⟨d, last, path⟩ := entailed _ answer
    rw [events_of_concludes wf concludes, stats_of_concludes wf concludes] at last
    rw [events_of_concludes wf concludes] at path
    cases last
    obtain ⟨earlier, l, later, log, final, same, entails⟩ := path 2 (by decide) (by decide)
    have decided : (Event.lastBindings _ 2).head? = some l :=
      log ▸ Event.head?_lastBindings (by decide) final
    cases decided
    rw [same] at entails
    exact entails rfl
  · intro entails
    have bad := entails ⟨[false, true, true]⟩ rfl rfl (List.forall_mem_nil _)
    cases bad

end Formula

end DavisPutnam
