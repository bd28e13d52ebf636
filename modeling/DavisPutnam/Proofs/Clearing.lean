import DavisPutnam.Proofs.Bindings

/-!
What propagation does to any clause list.

`Clears atom value clauses rest` goes through the clauses one by one: a clause with a true
occurrence of the atom is dropped, a clause without the atom is kept as it is, and from any other
clause all occurrences of the atom are taken away, even if nothing is left. Exactly one of the three
applies to a clause, and propagation does just this (`clears_iff`). So what propagation leaves hangs
on the clauses, the atom and its value alone. It does not mention the atom (`Clears.not_mentions`),
and a valuation that agrees with the value satisfies it exactly if it satisfies the clauses
(`Clears.allHold_eq`).

No invariant of the search enters: the atoms of the clauses may be bound or out of range, and a
clause may repeat literals and have opposite ones (`propagate_exact`).
-/

namespace DavisPutnam

/-! ### One clause -/

namespace Clause

variable {c : Clause} {atom : Nat} {value : Bool}

theorem any_true_occurrence_iff :
    (c.any fun l => l.atom == atom && l.positive == value) = true ↔ ⟨atom, value⟩ ∈ c := by
  rw [List.any_eq_true]
  constructor
  · rintro ⟨⟨own, positive⟩, mem, occurrence⟩
    simp only [Bool.and_eq_true, beq_iff_eq] at occurrence
    obtain ⟨rfl, rfl⟩ := occurrence
    exact mem
  · intro mem
    exact ⟨_, mem, by simp⟩

theorem given_of_mem (settled : ⟨atom, value⟩ ∈ c) : c.given atom value = none := by
  rw [given_eq, if_pos (any_true_occurrence_iff.mpr settled)]

theorem given_of_not_mem (unsettled : ⟨atom, value⟩ ∉ c) :
    c.given atom value = some (c.filter (·.atom != atom)) := by
  rw [given_eq, if_neg (mt any_true_occurrence_iff.mp unsettled)]

theorem mentions_eq_false_iff : c.mentions atom = false ↔ ∀ l ∈ c, l.atom ≠ atom := by
  simp [mentions]

end Clause

/-! ### Clause lists -/

/-- What is left of the clauses once the atom has the value, clause by clause. -/
inductive Clears (atom : Nat) (value : Bool) : List Clause → List Clause → Prop where
  | nil : Clears atom value [] []
  | drop {c : Clause} {clauses rest : List Clause} (settled : ⟨atom, value⟩ ∈ c)
      (others : Clears atom value clauses rest) : Clears atom value (c :: clauses) rest
  | keep {c : Clause} {clauses rest : List Clause} (absent : c.mentions atom = false)
      (others : Clears atom value clauses rest) : Clears atom value (c :: clauses) (c :: rest)
  | shorten {c : Clause} {clauses rest : List Clause} (mentioned : c.mentions atom = true)
      (unsettled : ⟨atom, value⟩ ∉ c) (others : Clears atom value clauses rest) :
      Clears atom value (c :: clauses) (c.filter (·.atom != atom) :: rest)

section Clears

variable {clauses rest : List Clause} {atom : Nat} {value : Bool}

/-- Clause lists are cleared by what each clause becomes once the atom has the value. -/
theorem clears_iff :
    Clears atom value clauses rest ↔ rest = clauses.filterMap (Clause.given atom value) := by
  constructor
  · intro clears
    induction clears with
    | nil => rfl
    | drop settled _ ih => rw [List.filterMap_cons_none (Clause.given_of_mem settled), ih]
    | keep absent _ ih =>
      rw [List.filterMap_cons_some (Clause.given_of_not_mentions absent), ih]
    | shorten _ unsettled _ ih =>
      rw [List.filterMap_cons_some (Clause.given_of_not_mem unsettled), ih]
  · rintro rfl
    induction clauses with
    | nil => exact .nil
    | cons c clauses ih =>
      by_cases settled : ⟨atom, value⟩ ∈ c
      · rw [List.filterMap_cons_none (Clause.given_of_mem settled)]
        exact .drop settled ih
      cases mentioned : c.mentions atom with
      | false =>
        rw [List.filterMap_cons_some (Clause.given_of_not_mentions mentioned)]
        exact .keep mentioned ih
      | true =>
        rw [List.filterMap_cons_some (Clause.given_of_not_mem settled)]
        exact .shorten mentioned settled ih

namespace Clears

theorem not_mentions (clears : Clears atom value clauses rest) :
    ∀ c ∈ rest, c.mentions atom = false := by
  induction clears with
  | nil => exact fun _ mem => nomatch mem
  | drop _ _ ih => exact ih
  | keep absent _ ih => exact List.forall_mem_cons.mpr ⟨absent, ih⟩
  | shorten _ _ _ ih =>
    refine List.forall_mem_cons.mpr ⟨Clause.mentions_eq_false_iff.mpr fun l mem => ?_, ih⟩
    simpa using (List.mem_filter.mp mem).2

theorem allHold_eq (clears : Clears atom value clauses rest) {v : Valuation}
    (agree : v atom = value) : allHold v rest = allHold v clauses := by
  rw [clears_iff.mp clears]
  exact allHold_given agree

/-- Clauses without the atom clear to themselves, and no others do. -/
theorem refl_iff : Clears atom value clauses clauses ↔ ∀ c ∈ clauses, c.mentions atom = false := by
  constructor
  · exact not_mentions
  · intro absent
    induction clauses with
    | nil => exact .nil
    | cons c clauses ih =>
      obtain ⟨first, others⟩ := List.forall_mem_cons.mp absent
      exact .keep first (ih others)

end Clears

end Clears

theorem propagate_eq_ok_iff {l : Literal} {a : Assignment} {value : Bool}
    (bound : a.value l.atom = .ok (some value)) {clauses rest : List Clause} :
    propagate l clauses a = .ok rest ↔ Clears l.atom value clauses rest := by
  rw [clears_iff, propagate, bound]
  simp [eq_comm]

/-- **Propagation.** If the atom of the literal is bound, propagation leaves of any clause list what
is left once the atom has its value, and nothing else. The sign of the literal and the other
bindings play no part. The atom is not mentioned any more, every valuation that agrees with the
value satisfies as much as before, and nothing changes exactly if the atom was not mentioned at
all. -/
theorem propagate_exact {l : Literal} {a : Assignment} {value : Bool}
    (bound : a.value l.atom = .ok (some value)) (clauses : List Clause) :
    ∃ rest, propagate l clauses a = .ok rest ∧
      (∀ left, Clears l.atom value clauses left ↔ left = rest) ∧
      (∀ c ∈ rest, c.mentions l.atom = false) ∧
      (∀ (k : Literal) (b : Assignment), k.atom = l.atom → b.value k.atom = .ok (some value) →
        propagate k clauses b = .ok rest) ∧
      (∀ v : Valuation, v l.atom = value → allHold v rest = allHold v clauses) ∧
      (rest = clauses ↔ ∀ c ∈ clauses, c.mentions l.atom = false) := by
  have cleared : Clears l.atom value clauses (clauses.filterMap (Clause.given l.atom value)) :=
    clears_iff.mpr rfl
  refine ⟨_, (propagate_eq_ok_iff bound).mpr cleared, fun _ => clears_iff, cleared.not_mentions, ?_,
    fun _ agree => cleared.allHold_eq agree, ?_⟩
  · intro k b same known
    rw [propagate_eq_ok_iff known, same]
    exact cleared
  · have unchanged : Clears l.atom value clauses clauses ↔
        ∀ c ∈ clauses, c.mentions l.atom = false := Clears.refl_iff
    rw [← unchanged, clears_iff, eq_comm]

/-- Atom 1 occurs twice in a clause, with both signs in another one, alone in the third and not at
all in the last one. -/
def scattered : List Clause :=
  [[⟨1, false⟩, ⟨2, true⟩, ⟨1, false⟩], [⟨1, false⟩, ⟨1, true⟩], [⟨1, false⟩, ⟨1, false⟩],
    [⟨9, true⟩, ⟨2, false⟩]]

/-- With atom 1 true, `scattered` keeps an empty clause in second place and an atom that the
assignment lacks. A literal of the other sign and an assignment of fewer atoms leave the same. -/
theorem propagate_exact_scattered :
    Assignment.value ⟨[some true, some false]⟩ 1 = .ok (some true) ∧
    propagate ⟨1, false⟩ scattered ⟨[some true, some false]⟩ =
      .ok [[⟨2, true⟩], [], [⟨9, true⟩, ⟨2, false⟩]] ∧
    Clears 1 true scattered [[⟨2, true⟩], [], [⟨9, true⟩, ⟨2, false⟩]] ∧
    propagate ⟨1, true⟩ scattered ⟨[some true]⟩ =
      .ok [[⟨2, true⟩], [], [⟨9, true⟩, ⟨2, false⟩]] ∧
    ∀ v : Valuation, v 1 = true →
      allHold v [[⟨2, true⟩], [], [⟨9, true⟩, ⟨2, false⟩]] = allHold v scattered := by
  have bound : Assignment.value ⟨[some true, some false]⟩ 1 = .ok (some true) := rfl
  have left : propagate ⟨1, false⟩ scattered ⟨[some true, some false]⟩ =
      .ok [[⟨2, true⟩], [], [⟨9, true⟩, ⟨2, false⟩]] := rfl
  obtain ⟨rest, result, cleared, _, elsewhere, meaning, _⟩ :=
    propagate_exact (l := ⟨1, false⟩) bound scattered
  cases left.symm.trans result
  exact ⟨bound, left, (cleared _).mpr rfl, elsewhere ⟨1, true⟩ _ rfl rfl, meaning⟩

end DavisPutnam
