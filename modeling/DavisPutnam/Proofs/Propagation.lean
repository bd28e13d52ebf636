import DavisPutnam.Semantics
import DavisPutnam.Simplify.Residual

/-!
What a binding does to a clause list.

A binding is read through the slots (`Assignment.slot_assign`): the slot of the
bound atom gets its value and every other slot stays. It can be made exactly if
the atom has a free slot (`commit_eq_ok_iff`, `exists_commit`). Two things are
kept.

* Meaning: under a valuation that agrees with the binding, the clauses that
  propagation leaves are true exactly if the clauses before it were
  (`allHold_given`).
* Freedom: if every atom of the clauses is free before the binding, every atom
  of the clauses that are left is free after it (`Assignment.Untouched.commit`).
  This is what keeps the search from reading a slot that is missing or taken.
-/

namespace DavisPutnam

/-! ### Slots -/

/-- A changed entry of a table is seen at its own atom and at no other. -/
theorem atomSlot?_set {α : Type} {table : List α} {atom : Nat} {x : α}
    (present : atomSlot? table atom ≠ none) (other : Nat) :
    atomSlot? (table.set (atom - 1) x) other =
      if other = atom then some x else atomSlot? table other := by
  have range : ¬ (atom = 0 ∨ table.length < atom) := mt atomSlot?_eq_none_iff.mpr present
  cases other with
  | zero => rw [if_neg (by omega)]; rfl
  | succ i =>
    simp only [atomSlot?]
    by_cases same : i + 1 = atom
    · have inside : atom - 1 = i ∧ i < table.length := by omega
      rw [if_pos same, inside.1, List.getElem?_set_self inside.2]
    · rw [if_neg same, List.getElem?_set_ne (by omega)]

namespace Assignment

/-- The atom has a slot, and the slot is unbound. -/
def Free (a : Assignment) (atom : Nat) : Prop :=
  atomSlot? a.slots atom = some none

/-- Every atom of the clauses is free. -/
def Untouched (a : Assignment) (clauses : List Clause) : Prop :=
  ∀ c ∈ clauses, ∀ l ∈ c, a.Free l.atom

instance (a : Assignment) (atom : Nat) : Decidable (a.Free atom) := by
  unfold Free; infer_instance

instance (a : Assignment) (clauses : List Clause) : Decidable (a.Untouched clauses) := by
  unfold Untouched; infer_instance

theorem atoms_unbound (n : Nat) : (unbound n).atoms = n :=
  List.length_replicate

theorem exists_assign_iff {a : Assignment} {l : Literal} :
    (∃ b, a.assign l = .ok b) ↔ a.Free l.atom := by
  constructor
  · rintro ⟨b, assigned⟩
    exact (assign_eq_ok_iff.mp assigned).1
  · intro free
    exact ⟨_, assign_eq_ok_iff.mpr ⟨free, rfl⟩⟩

/-- An assignment fills the slot of its atom and keeps every other slot. -/
theorem slot_assign {a b : Assignment} {l : Literal} (h : a.assign l = .ok b) (atom : Nat) :
    atomSlot? b.slots atom =
      if atom = l.atom then some (some l.positive) else atomSlot? a.slots atom := by
  obtain ⟨free, rfl⟩ := assign_eq_ok_iff.mp h
  exact atomSlot?_set (by simp [free]) atom

theorem value_eq_ok_iff {a : Assignment} {atom : Nat} {entry : Option Bool} :
    a.value atom = .ok entry ↔ atomSlot? a.slots atom = some entry := by
  unfold value
  split <;> simp_all

theorem value_assign {a b : Assignment} {l : Literal} (h : a.assign l = .ok b) :
    b.value l.atom = .ok (some l.positive) := by
  rw [value_eq_ok_iff, slot_assign h, if_pos rfl]

theorem free_assign_iff {a b : Assignment} {l : Literal} (h : a.assign l = .ok b) {atom : Nat} :
    b.Free atom ↔ a.Free atom ∧ atom ≠ l.atom := by
  unfold Free
  rw [slot_assign h]
  by_cases same : atom = l.atom
  · simp [same]
  · simp [same]

theorem free_unbound_iff {atoms atom : Nat} :
    (unbound atoms).Free atom ↔ 1 ≤ atom ∧ atom ≤ atoms := by
  cases atom with
  | zero => simp [Free, atomSlot?]
  | succ i =>
    simp only [Free, unbound, atomSlot?, List.getElem?_replicate, Option.ite_none_right_eq_some,
      and_true]
    omega

/-- With no atom bound, the clauses of a formula are untouched exactly if its
literals stay within the atom count. -/
theorem untouched_unbound_iff {f : Formula} :
    (unbound f.atoms).Untouched f.clauses ↔ f.WellFormed := by
  simp only [Untouched, free_unbound_iff, Formula.WellFormed, Literal.InRange]

theorem Free.inRange {a : Assignment} {l : Literal} (free : a.Free l.atom) :
    l.InRange a.atoms := by
  have present : atomSlot? a.slots l.atom ≠ none := by
    unfold Free at free
    simp [free]
  have range := mt atomSlot?_eq_none_iff.mpr present
  unfold Literal.InRange atoms
  omega

/-- A free atom is a candidate for a split, so there is a lowest one. -/
theorem Free.exists_firstUnbound {a : Assignment} {atom : Nat} (free : a.Free atom) :
    ∃ lowest, a.firstUnbound = some lowest := by
  cases atom with
  | zero => simp [Free, atomSlot?] at free
  | succ i =>
    have mem : none ∈ a.slots := List.mem_of_getElem? free
    have found : (a.slots.findIdx? Option.isNone).isSome :=
      List.findIdx?_isSome.trans (List.any_eq_true.mpr ⟨none, mem, rfl⟩)
    obtain ⟨i, index⟩ := Option.isSome_iff_exists.mp found
    exact ⟨i + 1, by simp [firstUnbound, index]⟩

theorem free_of_firstUnbound {a : Assignment} {atom : Nat} (h : a.firstUnbound = some atom) :
    a.Free atom := by
  obtain ⟨i, index, rfl⟩ := Option.map_eq_some_iff.mp h
  obtain ⟨bound, isNone, _⟩ := List.findIdx?_eq_some_iff_getElem.mp index
  exact List.getElem?_eq_some_iff.mpr ⟨bound, Option.isNone_iff_eq_none.mp isNone⟩

/-- No free atom is below the one to split on. -/
theorem le_of_firstUnbound {a : Assignment} {atom other : Nat} (h : a.firstUnbound = some atom)
    (free : a.Free other) : atom ≤ other := by
  obtain ⟨i, index, rfl⟩ := Option.map_eq_some_iff.mp h
  obtain ⟨_, _, lower⟩ := List.findIdx?_eq_some_iff_getElem.mp index
  cases other with
  | zero => simp [Free, atomSlot?] at free
  | succ k =>
    obtain ⟨_, entry⟩ := List.getElem?_eq_some_iff.mp free
    refine Nat.succ_le_succ (Nat.le_of_not_lt fun beneath => lower k beneath ?_)
    exact Option.isNone_iff_eq_none.mpr entry

end Assignment

/-! ### Clauses -/

/-- A literal that is left was there before, and is on another atom. -/
theorem Clause.mem_of_given {c d : Clause} {atom : Nat} {value : Bool} {l : Literal}
    (left : c.given atom value = some d) (mem : l ∈ d) : l ∈ c ∧ l.atom ≠ atom := by
  unfold Clause.given at left
  split at left
  · split at left
    · cases left
    · cases left
      simpa using mem
  · next absent =>
    cases left
    refine ⟨mem, fun same => absent ?_⟩
    exact Clause.mentions_iff.mpr ⟨l, mem, same⟩

theorem Clause.holds_iff {v : Valuation} {c : Clause} :
    c.holds v = true ↔ ∃ l ∈ c, l.holds v = true :=
  List.any_eq_true

theorem allHold_iff {v : Valuation} {clauses : List Clause} :
    allHold v clauses = true ↔ ∀ c ∈ clauses, c.holds v = true :=
  List.all_eq_true

theorem allHold_eq_false_of_nil_mem {v : Valuation} {clauses : List Clause}
    (empty : [] ∈ clauses) : allHold v clauses = false :=
  List.all_eq_false.mpr ⟨[], empty, by simp [Clause.holds]⟩

/-- The truth of clauses depends on the values of their atoms only. -/
theorem allHold_congr {v w : Valuation} {clauses : List Clause}
    (agree : ∀ c ∈ clauses, ∀ l ∈ c, v l.atom = w l.atom) :
    allHold v clauses = allHold w clauses := by
  rw [Bool.eq_iff_iff, allHold_iff, allHold_iff]
  refine forall₂_congr fun c mem => ?_
  rw [Clause.holds_iff, Clause.holds_iff]
  refine exists_congr fun l => and_congr_right fun inside => ?_
  rw [Literal.holds, Literal.holds, agree c mem l inside]

/-- What is left of a clause is as true as the clause, where a clause that is
dropped counts as true. -/
theorem Clause.all_holds_given {v : Valuation} {c : Clause} {atom : Nat} {value : Bool}
    (agree : v atom = value) : (c.given atom value).all (Clause.holds v) = c.holds v := by
  unfold Clause.given
  split
  · split
    · next settled =>
      -- The true occurrence of the atom makes the clause true.
      obtain ⟨l, mem, occurrence⟩ := List.any_eq_true.mp settled
      simp only [Bool.and_eq_true, beq_iff_eq] at occurrence
      refine (Clause.holds_iff.mpr ⟨l, mem, ?_⟩).symm
      simp [Literal.holds, occurrence.1, occurrence.2, agree]
    · next unsettled =>
      -- Every occurrence of the atom is false and can go.
      simp only [List.any_eq_true, Bool.and_eq_true, beq_iff_eq, not_exists, not_and] at unsettled
      rw [Option.all_some, Bool.eq_iff_iff, Clause.holds_iff, Clause.holds_iff]
      constructor
      · rintro ⟨l, mem, holds⟩
        exact ⟨l, (List.mem_filter.mp mem).1, holds⟩
      · rintro ⟨l, mem, holds⟩
        have other : l.atom ≠ atom := by
          rintro rfl
          exact unsettled l mem rfl ((beq_iff_eq.mp holds).symm.trans agree)
        exact ⟨l, List.mem_filter.mpr ⟨mem, bne_iff_ne.mpr other⟩, holds⟩
  · rfl

/-- Under a valuation that agrees with the binding, propagation keeps the truth
of the clauses. -/
theorem allHold_given {v : Valuation} {clauses : List Clause} {atom : Nat} {value : Bool}
    (agree : v atom = value) :
    allHold v (clauses.filterMap (Clause.given atom value)) = allHold v clauses := by
  induction clauses with
  | nil => rfl
  | cons c rest ih =>
    have head := Clause.all_holds_given (c := c) agree
    unfold allHold at ih ⊢
    rw [List.all_cons, ← ih, ← head]
    cases left : c.given atom value with
    | none => simp [left]
    | some d => simp [left]

/-! ### Commitment -/

/-- A commitment is an assignment, followed by the propagation of the value that
it gave. -/
theorem commit_eq_ok_iff {l : Literal} {clauses rest : List Clause} {a b : Assignment} :
    commit l clauses a = .ok (rest, b) ↔
      a.assign l = .ok b ∧ rest = clauses.filterMap (Clause.given l.atom l.positive) := by
  unfold commit
  cases assigned : a.assign l with
  | error fault => simp
  | ok c =>
    have slot : atomSlot? c.slots l.atom = some (some l.positive) := by
      rw [Assignment.slot_assign assigned, if_pos rfl]
    simp only [propagate, Assignment.value, slot, Except.ok.injEq, Prod.mk.injEq]
    exact ⟨fun ⟨cleared, same⟩ => ⟨same, cleared.symm⟩, fun ⟨same, cleared⟩ => ⟨cleared.symm, same⟩⟩

theorem exists_commit {l : Literal} {a : Assignment} (free : a.Free l.atom)
    (clauses : List Clause) : ∃ rest b, commit l clauses a = .ok (rest, b) := by
  obtain ⟨b, assigned⟩ := Assignment.exists_assign_iff.mpr free
  exact ⟨_, b, commit_eq_ok_iff.mpr ⟨assigned, rfl⟩⟩

/-- A commitment keeps the atoms of the clauses free. -/
theorem Assignment.Untouched.commit {l : Literal} {clauses rest : List Clause} {a b : Assignment}
    (untouched : a.Untouched clauses) (h : commit l clauses a = .ok (rest, b)) :
    b.Untouched rest := by
  obtain ⟨assigned, rfl⟩ := commit_eq_ok_iff.mp h
  intro d left k mem
  obtain ⟨c, inside, given⟩ := List.mem_filterMap.mp left
  obtain ⟨before, other⟩ := Clause.mem_of_given given mem
  exact (free_assign_iff assigned).mpr ⟨untouched c inside k before, other⟩

/-- Under a valuation that makes the committed literal true, a commitment keeps
the truth of the clauses. -/
theorem allHold_commit {v : Valuation} {l : Literal} {clauses rest : List Clause}
    {a b : Assignment} (h : commit l clauses a = .ok (rest, b)) (holds : l.holds v = true) :
    allHold v rest = allHold v clauses := by
  obtain ⟨_, rfl⟩ := commit_eq_ok_iff.mp h
  exact allHold_given (beq_iff_eq.mp holds)

/-- An assignment admits the valuations that its predecessor admits and that
make the new literal true. -/
theorem Assignment.admits_assign_iff {a b : Assignment} {l : Literal} {v : Valuation}
    (h : a.assign l = .ok b) : b.Admits v ↔ a.Admits v ∧ l.holds v = true := by
  have free : a.Free l.atom := exists_assign_iff.mp ⟨b, h⟩
  constructor
  · intro admits
    refine ⟨fun atom value bound => admits atom value ?_, beq_iff_eq.mpr (admits _ _ ?_)⟩
    · have other : atom ≠ l.atom := by
        rintro rfl
        exact absurd (free.symm.trans bound) (by simp)
      rw [slot_assign h, if_neg other]
      exact bound
    · rw [slot_assign h, if_pos rfl]
  · rintro ⟨admits, holds⟩ atom value bound
    rw [slot_assign h] at bound
    split at bound
    · next same =>
      cases bound
      exact same ▸ beq_iff_eq.mp holds
    · exact admits atom value bound

end DavisPutnam
