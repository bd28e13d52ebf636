import DavisPutnam.Proofs.Accounting
import DavisPutnam.Proofs.Bindings

/-!
The log of a search certifies its model.

`Event.lastBindings events depth` are the bindings at a depth since the last decision
there. The search goes depth first, so what is logged below a branch stands at greater
depths than its own, and at the smaller ones the log still shows the bindings that led
to it (`SearchState.Reachable.certified`). When a model is found at some depth, the last
bindings at the depths up to it are therefore those of the model, and every other atom
is true by default: `Formula.log_certifies_model`. Bindings of refuted branches leave no
trace in it.
-/

namespace DavisPutnam

/-! ### The last bindings at a depth -/

namespace Event

/-- The literal that the event binds at the given depth. -/
def bindingAt? (depth : Nat) : Event → Option Literal
  | .bound _ l level => if level = depth then some l else none
  | .conflict _ | .satisfiable .. | .unsatisfiable _ => none

/-- The event is a decision at the given depth. -/
def decidesAt (depth : Nat) : Event → Bool
  | .bound .decision _ level => level == depth
  | .bound .pure .. | .bound .unit .. | .conflict _ | .satisfiable .. | .unsatisfiable _ => false

/-- The events from the last decision at the given depth on. -/
def sinceDecision (depth : Nat) : List Event → List Event
  | [] => []
  | event :: later =>
    if later.any (decidesAt depth) then sinceDecision depth later
    else if event.decidesAt depth then event :: later
    else []

/-- The literals bound at a depth since the last decision there. There is no decision at
depth 0, so at depth 0 they are all the literals bound there. -/
def lastBindings (events : List Event) : Nat → List Literal
  | 0 => events.filterMap (bindingAt? 0)
  | depth + 1 => (sinceDecision (depth + 1) events).filterMap (bindingAt? (depth + 1))

/-- The events decide and bind nothing at the depths below the given one. -/
structure Silent (events : List Event) (depth : Nat) : Prop where
  undecided : ∀ level, level < depth → events.any (decidesAt level) = false
  unbound : ∀ level, level < depth → events.filterMap (bindingAt? level) = []

/-- The last bindings at the depths below the given one, in order of depth. -/
def certificate (events : List Event) (depth : Nat) : List Literal :=
  (List.range depth).flatMap (lastBindings events)

variable {events later : List Event} {depth : Nat}

theorem Silent.mono (h : Silent later depth) {level : Nat} (low : level ≤ depth) :
    Silent later level where
  undecided k below := h.undecided k (Nat.lt_of_lt_of_le below low)
  unbound k below := h.unbound k (Nat.lt_of_lt_of_le below low)

theorem sinceDecision_append_of_any (decides : later.any (decidesAt depth) = true) :
    sinceDecision depth (events ++ later) = sinceDecision depth later := by
  induction events with
  | nil => rfl
  | cons event events ih =>
    have again : (events ++ later).any (decidesAt depth) = true := by
      rw [List.any_append, decides, Bool.or_true]
    rw [List.cons_append, sinceDecision, if_pos again, ih]

theorem sinceDecision_append_of_not_any (undecided : later.any (decidesAt depth) = false) :
    sinceDecision depth (events ++ later) =
      if events.any (decidesAt depth) then sinceDecision depth events ++ later else [] := by
  induction events with
  | nil =>
    cases later with
    | nil => rfl
    | cons event later =>
      obtain ⟨first, others⟩ : event.decidesAt depth = false ∧
          later.any (decidesAt depth) = false := by simpa using undecided
      simp [sinceDecision, first, others]
  | cons event events ih =>
    rw [List.cons_append, sinceDecision, ih, List.any_append, undecided, Bool.or_false,
      List.any_cons, sinceDecision]
    cases event.decidesAt depth <;> cases events.any (decidesAt depth) <;> rfl

theorem sinceDecision_append_of_unbound
    (undecided : later.any (decidesAt depth) = false)
    (unbound : later.filterMap (bindingAt? depth) = []) :
    (sinceDecision depth (events ++ later)).filterMap (bindingAt? depth) =
      (sinceDecision depth events).filterMap (bindingAt? depth) := by
  have alone : sinceDecision depth (events ++ []) =
      if events.any (decidesAt depth) then sinceDecision depth events ++ [] else [] :=
    sinceDecision_append_of_not_any rfl
  rw [List.append_nil, List.append_nil] at alone
  rw [sinceDecision_append_of_not_any undecided, alone]
  by_cases decided : events.any (decidesAt depth) = true
  · rw [if_pos decided, if_pos decided, List.filterMap_append, unbound, List.append_nil, alone,
      if_pos decided]
  · rw [if_neg decided, if_neg decided]

/-- Events that bind nothing at a depth leave the last bindings there. -/
theorem lastBindings_append_of_unbound
    (undecided : later.any (decidesAt depth) = false)
    (unbound : later.filterMap (bindingAt? depth) = []) :
    lastBindings (events ++ later) depth = lastBindings events depth := by
  cases depth with
  | zero =>
    show (events ++ later).filterMap (bindingAt? 0) = events.filterMap (bindingAt? 0)
    rw [List.filterMap_append, unbound, List.append_nil]
  | succ depth => exact sinceDecision_append_of_unbound undecided unbound

theorem certificate_succ (events : List Event) (depth : Nat) :
    certificate events (depth + 1) = certificate events depth ++ lastBindings events depth := by
  unfold certificate
  rw [List.range_succ, List.flatMap_append, List.flatMap_singleton]

/-- Events that bind nothing at the smaller depths leave the bindings there. -/
theorem certificate_append {depth : Nat}
    (undecided : ∀ level, level < depth → later.any (decidesAt level) = false)
    (unbound : ∀ level, level < depth → later.filterMap (bindingAt? level) = []) :
    certificate (events ++ later) depth = certificate events depth := by
  induction depth with
  | zero => rfl
  | succ depth ih =>
    rw [certificate_succ, certificate_succ, ih, lastBindings_append_of_unbound]
    · exact undecided depth (Nat.lt_succ_self depth)
    · exact unbound depth (Nat.lt_succ_self depth)
    · exact fun level low => undecided level (Nat.lt_succ_of_lt low)
    · exact fun level low => unbound level (Nat.lt_succ_of_lt low)

end Event

/-! ### What one expansion binds -/

namespace Branch

variable {b : Branch} {steps : List (Reason × Literal)}

/-- Forced bindings are no decisions at any depth. -/
theorem any_decidesAt_forced (forced : ∀ step ∈ steps, step.1 ≠ .decision) (own depth : Nat) :
    (steps.map fun step => Event.bound step.1 step.2 own).any (Event.decidesAt depth) = false := by
  rw [List.any_map, List.any_eq_false]
  rintro ⟨reason, l⟩ mem decides
  cases reason with
  | decision => exact forced _ mem rfl
  | pure => cases decides
  | unit => cases decides

/-- The expansion of a branch decides at no other depth than its own. -/
theorem any_decidesAt_events (forced : ∀ step ∈ steps, step.1 ≠ .decision) {depth : Nat}
    (other : b.depth ≠ depth) : (b.events steps).any (Event.decidesAt depth) = false := by
  unfold events
  rw [List.any_append, any_decidesAt_forced forced, Bool.or_false]
  cases b.decision with
  | none => rfl
  | some l => simpa [Event.decidesAt] using other

theorem events_of_decision (steps : List (Reason × Literal)) {l : Literal}
    (decision : b.decision = some l) : b.events steps = .bound .decision l b.depth ::
      steps.map fun step => .bound step.1 step.2 b.depth := by
  unfold Branch.events
  rw [decision]
  rfl

theorem any_decidesAt_self (steps : List (Reason × Literal)) (decided : b.decision.isSome = true) :
    (b.events steps).any (Event.decidesAt b.depth) = true := by
  obtain ⟨l, decision⟩ := Option.isSome_iff_exists.mp decided
  have first : (Event.bound .decision l b.depth).decidesAt b.depth = true := BEq.rfl
  rw [events_of_decision steps decision, List.any_cons, first, Bool.true_or]

/-- The last decision at the depth of a branch is its own, once it is expanded. -/
theorem sinceDecision_append_events (forced : ∀ step ∈ steps, step.1 ≠ .decision)
    (events : List Event) (decided : b.decision.isSome = true) :
    Event.sinceDecision b.depth (events ++ b.events steps) = b.events steps := by
  rw [Event.sinceDecision_append_of_any (any_decidesAt_self steps decided)]
  obtain ⟨l, decision⟩ := Option.isSome_iff_exists.mp decided
  have first : (Event.bound .decision l b.depth).decidesAt b.depth = true := BEq.rfl
  rw [events_of_decision steps decision, Event.sinceDecision, any_decidesAt_forced forced,
    if_neg Bool.false_ne_true, if_pos first]

/-- The expansion of a branch binds its decision and the forced literals at its depth. -/
theorem bindingAt?_events (b : Branch) (steps : List (Reason × Literal)) (depth : Nat) :
    (b.events steps).filterMap (Event.bindingAt? depth) =
      if b.depth = depth then b.decision.toList ++ steps.map Prod.snd else [] := by
  have bound (reason : Reason) (l : Literal) :
      Event.bindingAt? depth (.bound reason l b.depth) = if b.depth = depth then some l else none :=
    rfl
  unfold events
  rw [List.filterMap_append, List.filterMap_map, List.filterMap_map]
  by_cases own : b.depth = depth
  · simp only [Function.comp_def, bound, if_pos own, List.filterMap_some]
    rw [← List.filterMap_eq_map]
    rfl
  · simp only [Function.comp_def, bound, if_neg own]
    rw [List.filterMap_eq_nil_iff.mpr fun _ _ => rfl, List.filterMap_eq_nil_iff.mpr fun _ _ => rfl]
    rfl

/-- The expansion of a branch is silent at smaller depths than its own. -/
theorem silent_events (forced : ∀ step ∈ steps, step.1 ≠ .decision) {depth : Nat}
    (above : depth ≤ b.depth) : Event.Silent (b.events steps) depth := by
  have other (level : Nat) (low : level < depth) : b.depth ≠ level := by omega
  constructor
  · exact fun level low => any_decidesAt_events forced (other level low)
  · intro level low
    rw [bindingAt?_events, if_neg (other level low)]

/-- The expansion of a branch leaves the last bindings at smaller depths than its own. -/
theorem certificate_append_events (forced : ∀ step ∈ steps, step.1 ≠ .decision)
    (events : List Event) {depth : Nat} (above : depth ≤ b.depth) :
    Event.certificate (events ++ b.events steps) depth = Event.certificate events depth :=
  have silent : Event.Silent (b.events steps) depth := silent_events forced above
  Event.certificate_append silent.undecided silent.unbound

/-- After its expansion, the last bindings at the depth of a branch are its decision and
its forced bindings. At depth 0 this needs an empty log. -/
theorem lastBindings_append_events (forced : ∀ step ∈ steps, step.1 ≠ .decision)
    (events : List Event) (deep : b.decision.isSome = true ↔ b.depth ≠ 0)
    (fresh : b.decision = none → events = []) :
    Event.lastBindings (events ++ b.events steps) b.depth =
      b.decision.toList ++ steps.map Prod.snd := by
  have all := bindingAt?_events b steps b.depth
  rw [if_pos rfl] at all
  cases own : b.depth with
  | zero =>
    have root : b.decision = none := by
      rw [← Option.not_isSome_iff_eq_none, deep, own]
      exact not_not_intro rfl
    rw [own] at all
    rw [fresh root, List.nil_append]
    exact all
  | succ depth =>
    have nonzero : b.depth ≠ 0 := own ▸ Nat.succ_ne_zero depth
    have since := sinceDecision_append_events forced events (deep.mpr nonzero)
    rw [own] at all since
    rw [Event.lastBindings, since]
    exact all

end Branch

/-! ### The log of a search -/

/-- The log has a decision at every depth below the given one but 0, and the last bindings
at these depths lead to the clauses and the assignment. -/
structure Event.Certifies (f : Formula) (events : List Event) (depth : Nat)
    (clauses : List Clause) (a : Assignment) : Prop where
  decided : ∀ level, level ≠ 0 → level < depth → events.any (decidesAt level) = true
  binds : f.Binds (certificate events depth) clauses a

/-- Events that leave the last bindings at the smaller depths keep a branch certified. -/
theorem Event.Certifies.append {f : Formula} {events later : List Event} {depth : Nat}
    {clauses : List Clause} {a : Assignment} (h : Certifies f events depth clauses a)
    (same : certificate (events ++ later) depth = certificate events depth) :
    Certifies f (events ++ later) depth clauses a where
  decided level nonzero low := by rw [List.any_append, h.decided level nonzero low, Bool.true_or]
  binds := same ▸ h.binds

namespace SearchState

variable {f : Formula} {s : SearchState}

/-- The log certifies every branch that waits. -/
def Certified (f : Formula) (s : SearchState) : Prop :=
  ∀ b ∈ s.stack, Event.Certifies f s.journal.events b.depth b.clauses b.assignment

/-- The top branch has a decision exactly if it is below the root. -/
theorem Reachable.decision_isSome_iff (h : Reachable f s) {b : Branch} {rest : List Branch}
    (stack : s.stack = b :: rest) : b.decision.isSome = true ↔ b.depth ≠ 0 := by
  obtain ⟨path, lineage⟩ := h.lineage stack
  rw [← lineage.head?_path, ← lineage.length_path]
  cases path with
  | nil => exact ⟨nofun, fun nonzero => absurd rfl nonzero⟩
  | cons l path => exact ⟨fun _ => Nat.succ_ne_zero _, fun _ => rfl⟩

/-- After the expansion of the top branch, the log certifies its last pass. For the
branches beneath it shows what it showed before. -/
theorem Reachable.certified_expand (wf : f.WellFormed) (h : Reachable f s)
    (certified : s.Certified f) {b : Branch} {rest : List Branch} (stack : s.stack = b :: rest)
    {out : Outcome} {k : Journal} (expanded : b.expand s.journal = (out, k)) :
    (∃ clauses a, out.EndsAt clauses a ∧
        Event.Certifies f k.events (b.depth + 1) clauses a) ∧
      ∀ c ∈ rest, Event.Certifies f k.events c.depth c.clauses c.assignment := by
  have mem : b ∈ s.stack := stack ▸ List.mem_cons_self
  have deep := h.decision_isSome_iff stack
  have fresh (undecided : b.decision = none) : s.journal.events = [] := by
    rw [h.eq_start mem undecided]
    rfl
  obtain ⟨steps, clauses, a, visits, ends, rfl⟩ := (h.ready wf b mem).of_expand expanded
  have forced := visits.reason_ne_decision
  rw [Branch.events_announce_boundAll]
  refine ⟨⟨clauses, a, ends, ⟨?_, ?_⟩⟩, ?_⟩
  · intro level nonzero low
    rw [List.any_append, Bool.or_eq_true]
    rcases Nat.lt_succ_iff_lt_or_eq.mp low with low | rfl
    · exact .inl ((certified b mem).decided level nonzero low)
    · exact .inr (Branch.any_decidesAt_self steps (deep.mpr nonzero))
  · rw [Event.certificate_succ, Branch.certificate_append_events forced _ (Nat.le_refl _),
      Branch.lastBindings_append_events forced _ deep fresh]
    -- The series lists its bindings latest first, the log lists them as they were made.
    refine ((certified b mem).binds.visits_append visits).perm ?_
    rw [← List.append_assoc]
    refine List.perm_append_comm.trans (.append_left _ ?_)
    exact List.perm_append_comm.trans (.append_left _ (List.reverse_perm _))
  · intro c below
    obtain ⟨path, lineage⟩ := h.lineage stack
    apply (certified c (stack ▸ List.mem_cons_of_mem b below)).append
    exact Branch.certificate_append_events forced _ (lineage.depth_le c below)

/-- In every state of the search, the log certifies every branch that waits. -/
theorem Reachable.certified (wf : f.WellFormed) (h : Reachable f s) : s.Certified f := by
  induction h with
  | start =>
    intro b mem
    rw [stack_start, List.mem_singleton] at mem
    subst mem
    exact ⟨fun level _ low => absurd low (Nat.not_lt_zero level), .start⟩
  | step reached turn ih =>
    obtain ⟨top, rest, stack, ⟨j, expanded, rfl⟩ | ⟨atom, clauses, a, j, expanded, rfl⟩⟩ :=
      running_cases turn
    · obtain ⟨_, kept⟩ := reached.certified_expand wf ih stack expanded
      intro b mem
      rw [Journal.events_conflict]
      exact (kept b mem).append (Event.certificate_append (fun _ _ => rfl) fun _ _ => rfl)
    · obtain ⟨⟨_, _, ⟨rfl, rfl, _⟩, reaches⟩, kept⟩ := reached.certified_expand wf ih stack expanded
      exact List.forall_mem_cons.mpr ⟨reaches, List.forall_mem_cons.mpr ⟨reaches, kept⟩⟩

end SearchState

/-! ### The model -/

/-- The model that the literals describe: an atom is false if a negative literal is on it,
and true if none is. -/
def Model.ofLiterals (atoms : Nat) (ls : List Literal) : Model where
  values := (List.range atoms).map fun i => !ls.contains ⟨i + 1, false⟩

theorem Assignment.value_complete {a : Assignment} {atom : Nat} {entry : Option Bool}
    (slot : atomSlot? a.slots atom = some entry) :
    a.complete.value atom = .ok (entry.getD true) := by
  have filled : atomSlot? a.complete.values atom = some (entry.getD true) := by
    rw [complete, atomSlot?_map, slot]
    rfl
  unfold Model.value
  rw [filled]

namespace Formula.Binds

variable {f : Formula} {ls : List Literal} {clauses : List Clause} {a : Assignment}

/-- A series binds to distinct atoms. -/
theorem nodup_atoms (h : f.Binds ls clauses a) : (ls.map Literal.atom).Nodup :=
  (exists_binds_iff.mp ⟨_, _, h⟩).2

/-- The literals of the series are true once the assignment is completed. -/
theorem literalValue_complete (h : f.Binds ls clauses a) {l : Literal} (mem : l ∈ ls) :
    a.complete.literalValue l = .ok true := by
  unfold Model.literalValue
  rw [Assignment.value_complete (h.slot_iff.mpr mem)]
  exact congrArg Except.ok (beq_self_eq_true l.positive)

/-- Atoms that no literal of the series is on are true once the assignment is completed. -/
theorem value_complete_of_unbound (h : f.Binds ls clauses a) {atom : Nat} (low : 1 ≤ atom)
    (high : atom ≤ f.atoms) (unbound : atom ∉ ls.map Literal.atom) :
    a.complete.value atom = .ok true := by
  have free : a.Free atom := h.free_iff.mpr ⟨⟨low, high⟩, unbound⟩
  exact Assignment.value_complete free

/-- The completed assignment is the model that the literals of the series describe. -/
theorem complete_eq (h : f.Binds ls clauses a) : a.complete = Model.ofLiterals f.atoms ls := by
  have size : a.slots.length = f.atoms := h.atoms_eq
  refine congrArg Model.mk (List.ext_getElem (by simp [size]) fun i low high => ?_)
  have inside : i < a.slots.length := by simpa using low
  have denied : atomSlot? a.slots (i + 1) = some (some false) ↔ ⟨i + 1, false⟩ ∈ ls := h.slot_iff
  rw [atomSlot?, List.getElem?_eq_getElem inside, Option.some_inj] at denied
  rw [List.getElem_map, List.getElem_map, List.getElem_range]
  by_cases mem : ⟨i + 1, false⟩ ∈ ls
  · rw [denied.mpr mem, List.contains_iff_mem.mpr mem]
    rfl
  · have absent : ls.contains ⟨i + 1, false⟩ = false := by simpa using mem
    rw [absent]
    cases slot : a.slots[i] with
    | none => rfl
    | some value =>
      cases value with
      | true => rfl
      | false => exact absurd (denied.mp slot) mem

end Formula.Binds

/-- **The log certifies the model.** A search of a well-formed formula that finds a model
ends with a message of the depth `d` at which it was found, and there is a decision at
every depth from 1 to `d`. The bindings at the depths from 0 to `d` since the last decision
there, all of those at depth 0, are on distinct atoms, and the model makes them true. It
also makes every other atom true, so it can be read off the log. -/
theorem Formula.log_certifies_model {f : Formula} (wf : f.WellFormed) {m : Model}
    (answer : f.solve.verdict = .ok (.satisfiable m)) :
    ∃ d, f.solve.events.getLast? = some (.satisfiable d f.solve.stats) ∧
      (∀ k, 1 ≤ k → k ≤ d → f.solve.events.any (Event.decidesAt k) = true) ∧
      ((Event.certificate f.solve.events (d + 1)).map Literal.atom).Nodup ∧
      (∀ k, k ≤ d → ∀ l ∈ Event.lastBindings f.solve.events k, m.literalValue l = .ok true) ∧
      (∀ atom, 1 ≤ atom → atom ≤ f.atoms →
        (∀ k, k ≤ d → ∀ l ∈ Event.lastBindings f.solve.events k, l.atom ≠ atom) →
        m.value atom = .ok true) ∧
      m = Model.ofLiterals f.atoms (Event.certificate f.solve.events (d + 1)) := by
  obtain ⟨s, b, rest, j, reached, stack, expanded, _, result⟩ :=
    SearchState.exists_last_state_of_satisfiable answer
  obtain ⟨⟨_, a, ⟨_, rfl⟩, certified⟩, _⟩ :=
    reached.certified_expand wf (reached.certified wf) stack expanded
  have events : f.solve.events = j.events ++ [.satisfiable b.depth j.stats] := by
    rw [result]
    exact j.events_record _
  have stats : f.solve.stats = j.stats := by
    rw [result]
    rfl
  obtain ⟨decided, binds⟩ : Event.Certifies f f.solve.events (b.depth + 1) _ a := by
    rw [events]
    exact certified.append (Event.certificate_append (fun _ _ => rfl) fun _ _ => rfl)
  have shown (l : Literal) : l ∈ Event.certificate f.solve.events (b.depth + 1) ↔
      ∃ k, k ≤ b.depth ∧ l ∈ Event.lastBindings f.solve.events k := by
    unfold Event.certificate
    simp only [List.mem_flatMap, List.mem_range, Nat.lt_succ_iff]
  refine ⟨b.depth, ?_, ?_, binds.nodup_atoms, ?_, ?_, binds.complete_eq⟩
  · rw [events, stats, List.getLast?_concat]
  · exact fun k low high => decided k (Nat.ne_of_gt low) (Nat.lt_succ_of_le high)
  · exact fun k high l mem => binds.literalValue_complete ((shown l).mpr ⟨k, high, mem⟩)
  · intro atom low high unbound
    apply binds.value_complete_of_unbound low high
    intro mem
    obtain ⟨l, inside, own⟩ := List.mem_map.mp mem
    obtain ⟨k, depth, bound⟩ := (shown l).mp inside
    exact unbound k depth l bound own

/-- The log of the search for a model of `nested` shows two decisions at depth 1. The model
is read off the second, and the bindings after the first leave no trace. -/
theorem Formula.log_certifies_model_nested : nested.WellFormed ∧
    nested.solve.verdict = .ok (.satisfiable ⟨[false, true, false]⟩) ∧
    nested.solve.events.countP (Event.decidesAt 1) = 2 ∧
    Event.certificate nested.solve.events 3 = [⟨1, false⟩, ⟨2, true⟩, ⟨3, false⟩] ∧
    ⟨[false, true, false]⟩ = Model.ofLiterals 3 [⟨1, false⟩, ⟨2, true⟩, ⟨3, false⟩] := by
  have wf : nested.WellFormed := by decide
  have answer : nested.solve.verdict = .ok (.satisfiable ⟨[false, true, false]⟩) := by
    rw [solve_nested]
  obtain ⟨d, last, _, _, _, _, model⟩ := log_certifies_model wf answer
  rw [solve_nested] at last
  cases last
  have certificate : Event.certificate nested.solve.events 3 =
      [⟨1, false⟩, ⟨2, true⟩, ⟨3, false⟩] := by
    rw [solve_nested]
    rfl
  rw [certificate] at model
  refine ⟨wf, answer, ?_, certificate, model⟩
  rw [solve_nested]
  rfl

end DavisPutnam
