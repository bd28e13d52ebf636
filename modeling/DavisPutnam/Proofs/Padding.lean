import DavisPutnam.Proofs.Bindings
import DavisPutnam.Proofs.FalseAtoms
import DavisPutnam.Proofs.Simulation

/-!
Atoms that no clause mentions, added at the end, do not matter to the search.

A formula is padded with atoms above its own. The tables of the search grow longer, but what
is read of them stays the same: the literals of the clauses are on the old atoms, and where
the search splits, one of these is free and so is the lowest free atom, since clauses that
are undecided mention some free atom (`Branch.Ready.exists_ge_of_split`). So the searches of
the formula and of the padded one keep in step (`simulation_padded`), and at the end the new
atoms are completed to true (`Formula.solve_padded`).
-/

namespace DavisPutnam

/-! ### Longer tables -/

/-- Each atom of a table has the same entry in a longer one. -/
theorem atomSlot?_append {α : Type} {table : List α} {atom : Nat} {x : α}
    (present : atomSlot? table atom = some x) (more : List α) :
    atomSlot? (table ++ more) atom = some x := by
  cases atom with
  | zero => cases present
  | succ i =>
    obtain ⟨bound, _⟩ := List.getElem?_eq_some_iff.mp present
    exact (List.getElem?_append_left bound).trans present

/-- The model with `k` further atoms, all of them true. -/
def Model.padded (m : Model) (k : Nat) : Model where
  values := m.values ++ List.replicate k true

/-- The formula over `k` further atoms. -/
def Formula.padded (f : Formula) (k : Nat) : Formula where
  atoms := f.atoms + k
  clauses := f.clauses

theorem Formula.WellFormed.padded {f : Formula} (wf : f.WellFormed) (k : Nat) :
    (f.padded k).WellFormed := by
  intro c mem l inside
  obtain ⟨low, high⟩ := wf c mem l inside
  exact ⟨low, Nat.le_trans high (Nat.le_add_right ..)⟩

namespace Assignment

/-- The assignment with `k` further atoms, none of them bound. -/
def padded (a : Assignment) (k : Nat) : Assignment where
  slots := a.slots ++ List.replicate k none

variable {a b : Assignment} {k : Nat}

theorem atoms_padded (a : Assignment) (k : Nat) : (a.padded k).atoms = a.atoms + k := by
  simp [atoms, padded]

theorem unbound_padded (n k : Nat) : (unbound n).padded k = unbound (n + k) := by
  simp [unbound, padded]

theorem complete_padded (a : Assignment) (k : Nat) :
    (a.padded k).complete = a.complete.padded k := by
  simp [complete, padded, Model.padded]

theorem firstUnbound_padded {atom : Nat} (lowest : a.firstUnbound = some atom) :
    (a.padded k).firstUnbound = some atom := by
  obtain ⟨i, index, rfl⟩ := Option.map_eq_some_iff.mp lowest
  simp [firstUnbound, padded, List.findIdx?_append, index]

/-- An atom that can be bound is one of the old ones. -/
theorem assign_padded {l : Literal} (assigned : a.assign l = .ok b) :
    (a.padded k).assign l = .ok (b.padded k) := by
  obtain ⟨free, rfl⟩ := assign_eq_ok_iff.mp assigned
  obtain ⟨low, high⟩ := Free.inRange free
  have old : l.atom - 1 < a.slots.length := by
    unfold atoms at high
    omega
  refine assign_eq_ok_iff.mpr ⟨atomSlot?_append free _, ?_⟩
  simp only [padded, List.set_append_left _ _ old]

end Assignment

/-! ### The search of a padded formula -/

/-- Nodes with the same clauses look alike to the search if the assignment of one is padded. -/
theorem simulation_padded (k : Nat) :
    Simulation (Model.padded · k) fun clauses a others b => others = clauses ∧ b = a.padded k where
  alike := by
    rintro clauses others a b ⟨rfl, rfl⟩
    exact {
      settled := fun none => ⟨none, a.complete_padded k⟩
      conflict := fun empty => empty
      undecided := fun undecided => undecided
      pure := fun _ found =>
        pureLiterals_congr found (a.atoms_padded k ▸ Nat.le_add_right ..) fun _ => Iff.rfl
      unit := rfl
      lowest := fun _ => Assignment.firstUnbound_padded }
  commit := by
    rintro clauses others rest a b c l ⟨rfl, rfl⟩ committed
    obtain ⟨assigned, rfl⟩ := commit_eq_ok_iff.mp committed
    exact ⟨_, c.padded k, commit_eq_ok_iff.mpr ⟨Assignment.assign_padded assigned, rfl⟩, rfl, rfl⟩

/-- What is left of the clauses of a formula occurs in the formula. -/
theorem Formula.Binds.occursIn {f : Formula} {ls : List Literal} {clauses : List Clause}
    {a : Assignment} (h : f.Binds ls clauses a) {l : Literal} (occurs : l.OccursIn clauses) :
    l.OccursIn f.clauses := by
  induction h with
  | start => exact occurs
  | commit _ committed ih => exact ih (occurs.of_commit committed)

/-- A branch splits on an atom no higher than one of the atoms that the clauses mention. -/
theorem Branch.Ready.exists_ge_of_split {b : Branch} (ready : b.Ready) {j k : Journal} {atom : Nat}
    {clauses : List Clause} {a : Assignment} (split : b.expand j = (.split atom clauses a, k)) :
    ∃ l : Literal, l.OccursIn clauses ∧ atom ≤ l.atom := by
  obtain ⟨_, _, _, visits, ⟨rfl, rfl, undecided, _, lowest⟩, _⟩ := ready.of_expand split
  obtain ⟨l, occurs⟩ := undecided.exists_occursIn
  have free := (ready.untouched visits).free occurs
  exact ⟨l, occurs, Assignment.le_of_firstUnbound lowest free⟩

/-- The search of a well-formed formula splits only on atoms up to the largest one that the
clauses mention. -/
theorem SearchState.Reachable.exists_ge_of_split {f : Formula} {s : SearchState}
    (wf : f.WellFormed) (h : Reachable f s) {b : Branch} {rest : List Branch}
    (stack : s.stack = b :: rest) {j : Journal} {atom : Nat} {clauses : List Clause}
    {a : Assignment} (split : b.expand s.journal = (.split atom clauses a, j)) :
    ∃ l : Literal, l.OccursIn f.clauses ∧ atom ≤ l.atom := by
  have ready : b.Ready := h.ready_top wf stack
  obtain ⟨l, occurs, le⟩ := ready.exists_ge_of_split split
  obtain ⟨_, visits⟩ := ready.exists_visits split
  obtain ⟨_, earlier⟩ := h.exists_binds wf b (stack ▸ List.mem_cons_self)
  obtain ⟨_, binds⟩ := earlier.visits visits
  exact ⟨l, binds.occursIn occurs, le⟩

namespace Formula

/-- **Padding.** If `k` atoms are added to a well-formed formula and the clauses stay, the search
has the same counters and the same events. It comes to the same verdict, and a model that it
finds is the one of the formula, followed by `k` values true. So the search splits on no atom
above all those that the clauses mention. -/
theorem solve_padded {f : Formula} (wf : f.WellFormed) (k : Nat) :
    (f.padded k).solve.stats = f.solve.stats ∧ (f.padded k).solve.events = f.solve.events ∧
      ((f.solve.verdict = .ok .unsatisfiable ∧ (f.padded k).solve.verdict = .ok .unsatisfiable) ∨
        ∃ m : Model, f.solve.verdict = .ok (.satisfiable m) ∧ m.values.length = f.atoms ∧
          (f.padded k).solve.verdict =
            .ok (.satisfiable ⟨m.values ++ List.replicate k true⟩)) ∧
      ∀ s b rest j atom clauses a, SearchState.Reachable (f.padded k) s → s.stack = b :: rest →
        b.expand s.journal = (.split atom clauses a, j) →
          ∃ c ∈ f.clauses, ∃ l ∈ c, atom ≤ l.atom := by
  have root : Assignment.unbound (f.padded k).atoms = (Assignment.unbound f.atoms).padded k :=
    (Assignment.unbound_padded f.atoms k).symm
  have run : (f.padded k).solve = f.solve.map (Model.padded · k) :=
    solve_of_simulation (simulation_padded k) wf (wf.padded k) ⟨rfl, root⟩
  refine ⟨by rw [run]; rfl, by rw [run]; rfl, ?_, ?_⟩
  · rw [run, Run.map]
    rcases solve_cases wf with ⟨m, answer, size, _⟩ | ⟨answer, _⟩
    · rw [answer]
      exact .inr ⟨m, rfl, size, rfl⟩
    · rw [answer]
      exact .inl ⟨rfl, rfl⟩
  · intro s b rest j atom clauses a reached stack split
    obtain ⟨l, ⟨c, mem, inside⟩, le⟩ := reached.exists_ge_of_split (wf.padded k) stack split
    exact ⟨c, mem, l, inside, le⟩

/-- One of two atoms is true and the other is not. -/
def exclusive : Formula where
  atoms := 2
  clauses := [[⟨1, true⟩, ⟨2, true⟩], [⟨1, false⟩, ⟨2, false⟩]]

/-- With three more atoms the search for a model of `exclusive` takes the same decision, and the
new atoms are true in its model. -/
theorem solve_padded_exclusive : exclusive.WellFormed ∧
    exclusive.solve.verdict = .ok (.satisfiable ⟨[true, false]⟩) ∧
    (exclusive.padded 3).solve.verdict = .ok (.satisfiable ⟨[true, false, true, true, true]⟩) ∧
    (exclusive.padded 3).solve.stats = { decisions := 1, pureLiterals := 1, maxDepth := 1 } ∧
    (exclusive.padded 3).solve.events = exclusive.solve.events := by
  have wf : exclusive.WellFormed := by decide
  have concludes : exclusive.Concludes _ := .satisfiable <|
    .accept (by decide) rfl rfl rfl rfl (.pure (by decide) rfl rfl .satisfied)
  have answer : exclusive.solve.verdict = .ok (.satisfiable ⟨[true, false]⟩) :=
    verdict_of_concludes wf concludes
  obtain ⟨stats, events, ⟨refuted, _⟩ | ⟨m, found, _, padded⟩, _⟩ := solve_padded wf 3
  · cases answer.symm.trans refuted
  · cases answer.symm.trans found
    refine ⟨wf, answer, padded, ?_, events⟩
    exact stats.trans (stats_of_concludes wf concludes)

end Formula

end DavisPutnam
