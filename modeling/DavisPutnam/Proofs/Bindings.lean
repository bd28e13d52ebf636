import DavisPutnam.Proofs.Reachability

/-!
What a series of bindings leaves of a formula.

`Formula.Binds f ls clauses a` says that committing the literals `ls` one after
another, from the clauses of `f` with no atom bound, leads to `clauses` and `a`.
Any literals on distinct atoms in range can be committed so
(`Formula.exists_binds_iff`). One commitment turns the residual under the old
assignment into the residual under the new one (`residual_assign`), so the
clauses are always the residual of the formula under the current assignment
(`Formula.Binds.eq_residual`). Since the slots that are bound are those of the
literals (`Formula.Binds.slot_iff`), the order in which they were committed
leaves no trace (`Formula.Binds.perm`).

The search moves by commitments alone, and a branch that waits keeps what it had
at its split. So every waiting branch and every pass of its expansion is reached
by such a series (`SearchState.Reachable.exists_binds`).
-/

namespace DavisPutnam

/-! ### One binding -/

namespace Assignment

variable {a b : Assignment} {l k : Literal}

theorem Free.truth?_eq_none (free : a.Free k.atom) : a.truth? k = none := by
  unfold Free at free
  simp [truth?, free]

/-- A binding settles the literals on its atom and no others. -/
theorem truth?_assign (h : a.assign l = .ok b) (k : Literal) :
    b.truth? k = if k.atom = l.atom then some (l.positive == k.positive) else a.truth? k := by
  unfold truth?
  rw [slot_assign h]
  split <;> rfl

theorem truth?_assign_eq_none_iff (h : a.assign l = .ok b) :
    b.truth? k = none ↔ a.truth? k = none ∧ k.atom ≠ l.atom := by
  have free : a.Free l.atom := exists_assign_iff.mp ⟨b, h⟩
  rw [truth?_assign h]
  split
  · next same => simp [same]
  · next other => simp [other]

theorem truth?_assign_eq_true_iff (h : a.assign l = .ok b) :
    b.truth? k = some true ↔ a.truth? k = some true ∨ k = l := by
  have free : a.Free l.atom := exists_assign_iff.mp ⟨b, h⟩
  obtain ⟨own, sign⟩ := k
  obtain ⟨atom, positive⟩ := l
  rw [truth?_assign h]
  split
  · next same =>
    subst same
    have unbound : a.truth? ⟨own, sign⟩ = none := Free.truth?_eq_none free
    simpa [unbound] using eq_comm
  · next other =>
    have differs : ¬ own = atom := other
    simp [differs]

/-- On an atom in range the truth of a literal is what a look-up finds. -/
theorem literalValue_eq_ok (range : k.InRange a.atoms) : a.literalValue k = .ok (a.truth? k) := by
  cases slot : atomSlot? a.slots k.atom with
  | none =>
    have outside := atomSlot?_eq_none_iff.mp slot
    obtain ⟨low, high⟩ := range
    unfold atoms at high
    omega
  | some entry =>
    simp only [literalValue, value, truth?, slot]
    rfl

end Assignment

/-- A clause without an occurrence of the atom is no special case. -/
theorem Clause.given_eq (c : Clause) (atom : Nat) (value : Bool) :
    c.given atom value =
      if c.any fun l => l.atom == atom && l.positive == value then none
      else some (c.filter (·.atom != atom)) := by
  unfold Clause.given
  cases mentioned : c.mentions atom with
  | true => rfl
  | false =>
    have absent : ∀ l ∈ c, l.atom ≠ atom := by simpa [Clause.mentions] using mentioned
    have settled : (c.any fun l => l.atom == atom && l.positive == value) = false :=
      List.any_eq_false.mpr fun l mem => by simp [absent l mem]
    have kept : c.filter (·.atom != atom) = c :=
      List.filter_eq_self.mpr fun l mem => bne_iff_ne.mpr (absent l mem)
    simp [settled, kept]

/-- What a clause is under the new assignment is what propagation leaves of what
it was under the old one. -/
theorem Clause.under_assign {a b : Assignment} {l : Literal} (h : a.assign l = .ok b)
    (c : Clause) : c.under b = (c.under a).bind (Clause.given l.atom l.positive) := by
  have free : a.Free l.atom := Assignment.exists_assign_iff.mp ⟨b, h⟩
  have open_iff (k : Literal) :
      (b.truth? k == none) = (k.atom != l.atom && a.truth? k == none) := by
    rw [Bool.eq_iff_iff]
    simp [Assignment.truth?_assign_eq_none_iff h, and_comm]
  have settled : (c.any fun k => b.truth? k == some true) =
      ((c.any fun k => a.truth? k == some true) ||
        (c.filter fun k => a.truth? k == none).any
          fun k => k.atom == l.atom && k.positive == l.positive) := by
    rw [Bool.eq_iff_iff]
    simp only [List.any_filter, Bool.or_eq_true, List.any_eq_true, Bool.and_eq_true, beq_iff_eq,
      Assignment.truth?_assign_eq_true_iff h]
    constructor
    · rintro ⟨k, mem, before | rfl⟩
      · exact .inl ⟨k, mem, before⟩
      · exact .inr ⟨k, mem, Assignment.Free.truth?_eq_none free, rfl, rfl⟩
    · rintro (⟨k, mem, before⟩ | ⟨⟨_, _⟩, mem, _, rfl, rfl⟩)
      · exact ⟨k, mem, .inl before⟩
      · exact ⟨l, mem, .inr rfl⟩
  unfold Clause.under
  rw [settled]
  cases before : c.any fun k => a.truth? k == some true with
  | true => rfl
  | false =>
    simp only [Bool.false_or, Bool.false_eq_true, if_false, Option.bind_some, Clause.given_eq,
      List.filter_filter, open_iff]

/-- A binding turns the residual under the old assignment into the residual under
the new one. -/
theorem residual_assign {a b : Assignment} {l : Literal} (h : a.assign l = .ok b)
    (clauses : List Clause) :
    (residual a clauses).filterMap (Clause.given l.atom l.positive) = residual b clauses := by
  unfold residual
  rw [List.filterMap_filterMap, funext (Clause.under_assign h)]

/-! ### A series of bindings -/

/-- Committing the literals, here listed latest first, from the clauses of the
formula with no atom bound leads to the given clauses and assignment. -/
inductive Formula.Binds (f : Formula) : List Literal → List Clause → Assignment → Prop where
  | start : Binds f [] f.clauses (.unbound f.atoms)
  | commit {ls : List Literal} {l : Literal} {clauses rest : List Clause} {a b : Assignment}
      (earlier : Binds f ls clauses a) (committed : commit l clauses a = .ok (rest, b)) :
      Binds f (l :: ls) rest b

namespace Formula.Binds

variable {f : Formula} {ls : List Literal} {clauses : List Clause} {a : Assignment}

theorem atoms_eq (h : f.Binds ls clauses a) : a.atoms = f.atoms := by
  induction h with
  | start => exact Assignment.atoms_unbound f.atoms
  | commit _ committed ih => exact (atoms_commit committed).trans ih

/-- The atoms that are left to bind are those of the formula that no literal of
the series is on. -/
theorem free_iff (h : f.Binds ls clauses a) {atom : Nat} :
    a.Free atom ↔ (1 ≤ atom ∧ atom ≤ f.atoms) ∧ atom ∉ ls.map Literal.atom := by
  induction h with
  | start => simp [Assignment.free_unbound_iff]
  | commit _ committed ih =>
    rw [Assignment.free_assign_iff (assign_of_commit_eq_ok committed), ih, List.map_cons,
      List.mem_cons, not_or, and_assoc, and_comm (a := atom ∉ _)]

/-- The slots that are bound are those of the literals. -/
theorem slot_iff (h : f.Binds ls clauses a) {atom : Nat} {value : Bool} :
    atomSlot? a.slots atom = some (some value) ↔ ⟨atom, value⟩ ∈ ls := by
  induction h with
  | start =>
    cases atom with
    | zero => simp [atomSlot?]
    | succ i => simp [atomSlot?, Assignment.unbound, List.getElem?_replicate]
  | @commit ls l clauses rest a b earlier committed ih =>
    have assigned := assign_of_commit_eq_ok committed
    have fresh : ∀ k ∈ ls, k.atom ≠ l.atom := by
      have free := earlier.free_iff.mp (Assignment.exists_assign_iff.mp ⟨b, assigned⟩)
      simpa using free.2
    obtain ⟨own, sign⟩ := l
    rw [Assignment.slot_assign assigned, List.mem_cons]
    split
    · next same =>
      subst same
      have absent : ⟨atom, value⟩ ∉ ls := fun mem => fresh _ mem rfl
      simpa [absent] using eq_comm
    · next other =>
      have differs : ¬ atom = own := other
      simp [differs, ih]

/-- The residual of the formula is what a series of bindings leaves. -/
theorem eq_residual (h : f.Binds ls clauses a) : clauses = residual a f.clauses := by
  induction h with
  | start =>
    have kept (c : Clause) : c.under (.unbound f.atoms) = some c := by
      have unbound (l : Literal) : (Assignment.unbound f.atoms).truth? l = none := by
        obtain ⟨atom, positive⟩ := l
        cases atom with
        | zero => rfl
        | succ i =>
          simp only [Assignment.truth?, atomSlot?, Assignment.unbound, List.getElem?_replicate]
          split <;> rfl
      simp [Clause.under, unbound]
    simp [residual, funext kept]
  | commit _ committed ih =>
    obtain ⟨assigned, rfl⟩ := commit_eq_ok_iff.mp committed
    rw [ih, residual_assign assigned]

/-- Under a valuation that agrees with the bindings, the clauses that are left are
as true as the formula. -/
theorem allHold_eq (h : f.Binds ls clauses a) {v : Valuation} (admits : a.Admits v) :
    allHold v clauses = allHold v f.clauses := by
  induction h with
  | start => rfl
  | commit _ committed ih =>
    obtain ⟨before, holds⟩ :=
      (Assignment.admits_assign_iff (assign_of_commit_eq_ok committed)).mp admits
    rw [allHold_commit committed holds, ih before]

theorem untouched (wf : f.WellFormed) (h : f.Binds ls clauses a) : a.Untouched clauses := by
  induction h with
  | start => exact Assignment.untouched_unbound_iff.mpr wf
  | commit _ committed ih => exact ih.commit committed

end Formula.Binds

/-- Literals can be committed one after another exactly if they are on distinct
atoms in range. -/
theorem Formula.exists_binds_iff {f : Formula} {ls : List Literal} :
    (∃ clauses a, f.Binds ls clauses a) ↔
      (∀ l ∈ ls, l.InRange f.atoms) ∧ (ls.map Literal.atom).Nodup := by
  induction ls with
  | nil => exact ⟨fun _ => ⟨by simp, List.nodup_nil⟩, fun _ => ⟨_, _, .start⟩⟩
  | cons l ls ih =>
    rw [List.forall_mem_cons, List.map_cons, List.nodup_cons]
    constructor
    · rintro ⟨_, b, h⟩
      cases h with
      | commit earlier committed =>
        obtain ⟨range, distinct⟩ := ih.mp ⟨_, _, earlier⟩
        have free := earlier.free_iff.mp
          (Assignment.exists_assign_iff.mp ⟨b, assign_of_commit_eq_ok committed⟩)
        exact ⟨⟨free.1, range⟩, free.2, distinct⟩
    · rintro ⟨⟨own, range⟩, fresh, distinct⟩
      obtain ⟨clauses, a, earlier⟩ := ih.mpr ⟨range, distinct⟩
      obtain ⟨rest, b, committed⟩ := exists_commit (earlier.free_iff.mpr ⟨own, fresh⟩) clauses
      exact ⟨rest, b, .commit earlier committed⟩

/-- Assignments of equally many atoms are the same if they bind the same atoms to
the same values. -/
theorem Assignment.ext_bound {a b : Assignment} (size : a.atoms = b.atoms)
    (bound : ∀ atom value, atomSlot? a.slots atom = some (some value) ↔
      atomSlot? b.slots atom = some (some value)) : a = b := by
  obtain ⟨first⟩ := a
  obtain ⟨second⟩ := b
  have length : first.length = second.length := size
  refine congrArg Assignment.mk (List.ext_getElem length fun i low high => ?_)
  refine Option.ext fun value => ?_
  have slot := bound (i + 1) value
  simpa [atomSlot?, List.getElem?_eq_getElem low, List.getElem?_eq_getElem high] using slot

/-- The order in which the literals are committed leaves no trace. -/
theorem Formula.Binds.perm {f : Formula} {ls ms : List Literal} {clauses : List Clause}
    {a : Assignment} (h : f.Binds ls clauses a) (reordered : ls.Perm ms) :
    f.Binds ms clauses a := by
  obtain ⟨range, distinct⟩ := Formula.exists_binds_iff.mp ⟨_, _, h⟩
  obtain ⟨rest, b, again⟩ : ∃ rest b, f.Binds ms rest b :=
    Formula.exists_binds_iff.mpr
      ⟨fun l mem => range l (reordered.mem_iff.mpr mem), (reordered.map _).nodup_iff.mp distinct⟩
  have same : a = b := by
    refine Assignment.ext_bound (h.atoms_eq.trans again.atoms_eq.symm) fun atom value => ?_
    rw [h.slot_iff, again.slot_iff, reordered.mem_iff]
  rw [h.eq_residual, same, ← again.eq_residual]
  exact again

/-! ### The states of the search -/

section Search

variable {f : Formula}

/-- The forced bindings of simplification prolong a series. -/
theorem Formula.Binds.simplifies {clauses rest : List Clause} {a b : Assignment}
    {steps : List (Reason × Literal)} (simplifies : Simplifies clauses a steps rest b)
    {ls : List Literal} (h : f.Binds ls clauses a) :
    f.Binds ((steps.map Prod.snd).reverse ++ ls) rest b := by
  induction simplifies generalizing ls with
  | refl => exact h
  | step _ _ committed _ ih =>
    rw [List.map_cons, List.reverse_cons, List.append_assoc]
    exact ih (h.commit committed)

/-- The decision of a branch and the forced bindings after it prolong a series. -/
theorem Formula.Binds.visits_append {b : Branch} {ls : List Literal} {clauses : List Clause}
    {a : Assignment} {steps : List (Reason × Literal)} (h : f.Binds ls b.clauses b.assignment)
    (visits : b.Visits steps clauses a) :
    f.Binds ((steps.map Prod.snd).reverse ++ (b.decision.toList ++ ls)) clauses a := by
  obtain ⟨first, start, entered, simplifies⟩ := visits
  rcases Branch.entered_cases entered with ⟨decision, rfl, rfl⟩ | ⟨l, decision, committed⟩
  · rw [decision]
    exact h.simplifies simplifies
  · rw [decision]
    exact (h.commit committed).simplifies simplifies

theorem Formula.Binds.visits {b : Branch} {ls : List Literal} {clauses : List Clause}
    {a : Assignment} {steps : List (Reason × Literal)} (h : f.Binds ls b.clauses b.assignment)
    (visits : b.Visits steps clauses a) : ∃ ms, f.Binds ms clauses a :=
  ⟨_, h.visits_append visits⟩

/-- The branches of a split wait with what the last pass before it left. -/
theorem Branch.Ready.exists_visits {b : Branch} (ready : b.Ready) {j k : Journal} {atom : Nat}
    {clauses : List Clause} {a : Assignment} (split : b.expand j = (.split atom clauses a, k)) :
    ∃ steps, b.Visits steps clauses a := by
  obtain ⟨steps, _, _, visits, ⟨rfl, rfl, _⟩, _⟩ := ready.of_expand split
  exact ⟨steps, visits⟩

/-- Every branch that ever waits is at the end of a series of bindings. -/
theorem SearchState.Reachable.exists_binds {s : SearchState} (wf : f.WellFormed)
    (h : Reachable f s) : ∀ b ∈ s.stack, ∃ ls, f.Binds ls b.clauses b.assignment := by
  have bound : ∀ b ∈ s.stack, b.Ready ∧ ∃ ls, f.Binds ls b.clauses b.assignment := by
    refine h.forall_waiting ⟨ready_root wf, [], .start⟩ ?_
    rintro b c ⟨ready, ls, binds⟩ splits
    refine ⟨ready.of_splitsInto splits, ?_⟩
    obtain ⟨_, _, _, _, _, _, split, rfl⟩ := splits
    obtain ⟨_, visits⟩ := ready.exists_visits split
    exact binds.visits visits
  exact fun b mem => (bound b mem).2

end Search

/-- **Residuals.** In a well-formed formula any literals on distinct atoms in range
can be committed one after another. The clauses that such a series leaves are the
residual of the formula under the assignment it has made, in which every literal
has the truth that a look-up finds. They and the assignment do not depend on the
order of the series, and a model that keeps the bindings satisfies them exactly if
it satisfies the formula. Every branch that waits in the search and every pass of
its expansion is at the end of such a series. -/
theorem Formula.clauses_eq_residual {f : Formula} (wf : f.WellFormed) :
    (∀ ls : List Literal, (∀ l ∈ ls, l.InRange f.atoms) → (ls.map Literal.atom).Nodup →
        ∃ clauses a, f.Binds ls clauses a) ∧
      (∀ ls clauses a, f.Binds ls clauses a →
        clauses = residual a f.clauses ∧
          (∀ c ∈ f.clauses, ∀ l ∈ c, a.literalValue l = .ok (a.truth? l)) ∧
          (∀ ms, ls.Perm ms → f.Binds ms clauses a) ∧
          ∀ m : Model, m.values.length = f.atoms → a.Admits m.valuation →
            ∃ truth, m.satisfies f = .ok truth ∧ m.satisfies { f with clauses } = .ok truth) ∧
      ∀ s, SearchState.Reachable f s → ∀ b ∈ s.stack,
        (∃ ls, f.Binds ls b.clauses b.assignment) ∧
          ∀ steps clauses a, b.Visits steps clauses a → ∃ ls, f.Binds ls clauses a := by
  refine ⟨fun ls range distinct => exists_binds_iff.mpr ⟨range, distinct⟩, ?_, ?_⟩
  · intro ls clauses a binds
    refine ⟨binds.eq_residual, ?_, fun ms => binds.perm, ?_⟩
    · intro c mem l inside
      exact Assignment.literalValue_eq_ok (binds.atoms_eq ▸ wf c mem l inside)
    · intro m size admits
      have left : Formula.WellFormed { f with clauses } := fun c mem l inside =>
        binds.atoms_eq ▸ (binds.untouched wf c mem l inside).inRange
      refine ⟨_, Model.satisfies_eq_ok wf size, ?_⟩
      rw [Model.satisfies_eq_ok left size, binds.allHold_eq admits]
  · intro s reached b mem
    obtain ⟨ls, binds⟩ := reached.exists_binds wf b mem
    exact ⟨⟨ls, binds⟩, fun steps clauses a visits => binds.visits visits⟩

/-- Clauses with opposite literals, repeated literals, and a clause that is empty. -/
def Formula.redundant : Formula where
  atoms := 3
  clauses := [[⟨1, true⟩, ⟨1, false⟩], [⟨2, true⟩, ⟨1, false⟩, ⟨2, true⟩, ⟨1, false⟩],
    [⟨3, false⟩, ⟨2, true⟩], [], [⟨3, true⟩, ⟨3, true⟩]]

/-- Making atom 1 true and atom 3 false leaves the same of `redundant` in both
orders: a clause with atom 2 twice and two empty clauses. -/
theorem Formula.clauses_eq_residual_redundant : redundant.WellFormed ∧
    ([⟨1, true⟩, ⟨3, false⟩].map Literal.atom).Nodup ∧
    redundant.Binds [⟨1, true⟩, ⟨3, false⟩] [[⟨2, true⟩, ⟨2, true⟩], [], []]
      ⟨[some true, none, some false]⟩ ∧
    redundant.Binds [⟨3, false⟩, ⟨1, true⟩] [[⟨2, true⟩, ⟨2, true⟩], [], []]
      ⟨[some true, none, some false]⟩ ∧
    residual ⟨[some true, none, some false]⟩ redundant.clauses =
      [[⟨2, true⟩, ⟨2, true⟩], [], []] := by
  have wf : redundant.WellFormed := by decide
  have binds : redundant.Binds [⟨1, true⟩, ⟨3, false⟩] [[⟨2, true⟩, ⟨2, true⟩], [], []]
      ⟨[some true, none, some false]⟩ := (Formula.Binds.start.commit rfl).commit rfl
  obtain ⟨_, left, _⟩ := clauses_eq_residual wf
  obtain ⟨same, _, reordered, _⟩ := left _ _ _ binds
  exact ⟨wf, by decide, binds, reordered _ (.swap _ _ []), same.symm⟩

end DavisPutnam
