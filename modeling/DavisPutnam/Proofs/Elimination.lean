import DavisPutnam.Proofs.Clearing
import DavisPutnam.Proofs.PureLiterals

/-!
Taking pure literals out of a clause list.

What matters about a pure literal is that its complement occurs nowhere. Binding such a literal
drops the clauses that contain it and touches no other (`clears_of_not_occursIn`), and a valuation
that satisfies the clauses that are left satisfies all of them once the literal is made true
(`satisfiable_filter_iff`). Both carry over to several literals on distinct atoms, bound one after
another (`commitAll_eq_ok`, `satisfiable_avoiding_iff`), because a complement that occurs nowhere
occurs nowhere in fewer clauses. The literal itself may be gone by the time it is bound, and then
binding it changes nothing.

The pure literals of a clause list are on distinct atoms (`nodup_atoms_of_pure`), so any of them can
be taken out in any order (`pureLiterals_eliminate`).
-/

namespace DavisPutnam

theorem Literal.eq_or_eq_complement {k l : Literal} (same : k.atom = l.atom) :
    k = l ∨ k = l.complement := by
  obtain ⟨own, sign⟩ := k
  obtain ⟨atom, positive⟩ := l
  obtain rfl : own = atom := same
  cases sign <;> cases positive <;> simp [complement]

theorem Literal.OccursIn.of_filter {k : Literal} {clauses : List Clause} {p : Clause → Bool}
    (occurs : k.OccursIn (clauses.filter p)) : k.OccursIn clauses := by
  obtain ⟨c, mem, inside⟩ := occurs
  exact ⟨c, (List.mem_filter.mp mem).1, inside⟩

/-! ### Bindings that shorten no clause -/

/-- If the complement of a literal occurs nowhere, making the literal true drops the clauses that
contain it and keeps the others. -/
theorem clears_of_not_occursIn {l : Literal} {clauses : List Clause}
    (absent : ¬ l.complement.OccursIn clauses) :
    Clears l.atom l.positive clauses (clauses.filter (l ∉ ·)) := by
  induction clauses with
  | nil => exact .nil
  | cons c clauses ih =>
    have others := ih fun ⟨d, mem, inside⟩ => absent ⟨d, List.mem_cons_of_mem c mem, inside⟩
    by_cases settled : l ∈ c
    · rw [List.filter_cons_of_neg (by simpa using settled)]
      exact .drop settled others
    · rw [List.filter_cons_of_pos (by simpa using settled)]
      refine .keep (Clause.mentions_eq_false_iff.mpr fun k mem same => ?_) others
      rcases Literal.eq_or_eq_complement same with rfl | rfl
      · exact settled mem
      · exact absent ⟨c, List.mem_cons_self, mem⟩

theorem commit_of_not_occursIn {l : Literal} {clauses : List Clause} {a : Assignment}
    (free : a.Free l.atom) (absent : ¬ l.complement.OccursIn clauses) :
    ∃ b, a.assign l = .ok b ∧ commit l clauses a = .ok (clauses.filter (l ∉ ·), b) := by
  obtain ⟨b, assigned⟩ := Assignment.exists_assign_iff.mpr free
  have left := clears_iff.mp (clears_of_not_occursIn absent)
  exact ⟨b, assigned, commit_eq_ok_iff.mpr ⟨assigned, left⟩⟩

/-- Commits literals one after another. -/
def commitAll (ls : List Literal) (clauses : List Clause) (a : Assignment) :
    Except Fault (List Clause × Assignment) :=
  ls.foldlM (fun state l => commit l state.1 state.2) (clauses, a)

theorem commitAll_cons_of_commit {l : Literal} {clauses rest : List Clause} {a b : Assignment}
    (committed : commit l clauses a = .ok (rest, b)) (ls : List Literal) :
    commitAll (l :: ls) clauses a = commitAll ls rest b := by
  simp only [commitAll, List.foldlM_cons, committed]
  rfl

/-- The clauses that contain none of the literals. -/
def avoiding (ls : List Literal) (clauses : List Clause) : List Clause :=
  clauses.filter fun c => ls.all (· ∉ c)

theorem avoiding_nil (clauses : List Clause) : avoiding [] clauses = clauses := by
  simp [avoiding]

theorem avoiding_cons (l : Literal) (ls : List Literal) (clauses : List Clause) :
    avoiding (l :: ls) clauses = avoiding ls (clauses.filter (l ∉ ·)) := by
  simp [avoiding, List.filter_filter, Bool.and_comm]

/-- Committing literals whose complements occur nowhere drops the clauses that contain one of them
and keeps the others. -/
theorem commitAll_eq_ok {ls : List Literal} {clauses : List Clause} {a : Assignment}
    (distinct : (ls.map Literal.atom).Nodup) (free : ∀ l ∈ ls, a.Free l.atom)
    (absent : ∀ l ∈ ls, ¬ l.complement.OccursIn clauses) :
    ∃ b, commitAll ls clauses a = .ok (avoiding ls clauses, b) := by
  induction ls generalizing clauses a with
  | nil => exact ⟨a, by rw [avoiding_nil]; rfl⟩
  | cons l ls ih =>
    rw [List.map_cons, List.nodup_cons] at distinct
    obtain ⟨own, others⟩ := List.forall_mem_cons.mp free
    obtain ⟨first, later⟩ := List.forall_mem_cons.mp absent
    obtain ⟨b, assigned, committed⟩ := commit_of_not_occursIn own first
    rw [commitAll_cons_of_commit committed, avoiding_cons]
    refine ih distinct.2 (fun k mem => ?_) fun k mem occurs => later k mem occurs.of_filter
    refine (Assignment.free_assign_iff assigned).mpr ⟨others k mem, fun same => distinct.1 ?_⟩
    exact same ▸ List.mem_map_of_mem mem

/-! ### Satisfiability -/

/-- If the complement of a literal occurs nowhere, the clauses can be satisfied exactly if those
without the literal can: its truth repairs all the others. -/
theorem satisfiable_filter_iff {l : Literal} {clauses : List Clause}
    (absent : ¬ l.complement.OccursIn clauses) :
    (∃ v : Valuation, allHold v clauses = true) ↔
      ∃ v : Valuation, allHold v (clauses.filter (l ∉ ·)) = true := by
  constructor
  · rintro ⟨v, satisfied⟩
    refine ⟨v, allHold_iff.mpr fun c mem => ?_⟩
    exact allHold_iff.mp satisfied c (List.mem_filter.mp mem).1
  · rintro ⟨v, satisfied⟩
    have kept : allHold (v.giving l) (clauses.filter (l ∉ ·)) = true :=
      allHold_giving_of_pure (fun occurs => absent occurs.of_filter) satisfied
    refine ⟨v.giving l, allHold_iff.mpr fun c mem => ?_⟩
    by_cases inside : l ∈ c
    · exact Clause.holds_iff.mpr ⟨l, inside, v.holds_giving_self l⟩
    · exact allHold_iff.mp kept c (List.mem_filter.mpr ⟨mem, by simpa using inside⟩)

theorem satisfiable_avoiding_iff {ls : List Literal} {clauses : List Clause}
    (absent : ∀ l ∈ ls, ¬ l.complement.OccursIn clauses) :
    (∃ v : Valuation, allHold v clauses = true) ↔
      ∃ v : Valuation, allHold v (avoiding ls clauses) = true := by
  induction ls generalizing clauses with
  | nil => rw [avoiding_nil]
  | cons l ls ih =>
    obtain ⟨first, later⟩ := List.forall_mem_cons.mp absent
    rw [satisfiable_filter_iff first, avoiding_cons]
    exact ih fun k mem occurs => later k mem occurs.of_filter

/-! ### Pure literals -/

/-- No two pure literals are on one atom. -/
theorem nodup_atoms_of_pure {n : Nat} {clauses : List Clause} {ls ks : List Literal}
    (found : pureLiterals n clauses = .ok ls) (chosen : ks ⊆ ls) (once : ks.Nodup) :
    (ks.map Literal.atom).Nodup := by
  refine List.pairwise_map.mpr (once.imp_of_mem fun {l k} mem other differ same => ?_)
  have occurs := ((mem_pureLiterals_iff found).mp (chosen mem)).1
  have absent := ((mem_pureLiterals_iff found).mp (chosen other)).2
  rcases Literal.eq_or_eq_complement same with rfl | rfl
  · exact differ rfl
  · exact absent occurs

/-- **Pure literals.** If all atoms of the clauses are in range, the pure literals can be found.
Binding one of them where its atom is free drops the clauses that contain it and leaves the others
as they are and in order, and these can be satisfied exactly if all the clauses can. The same holds
of any selection of the pure literals, bound one after another in any order, and the clauses that
contain none of them. -/
theorem pureLiterals_eliminate {n : Nat} {clauses : List Clause}
    (range : ∀ c ∈ clauses, ∀ l ∈ c, l.InRange n) :
    ∃ ls, pureLiterals n clauses = .ok ls ∧
      (∀ l ∈ ls,
        (∀ a : Assignment, a.Free l.atom → ∃ b, a.assign l = .ok b ∧
          propagate l clauses b = .ok (clauses.filter (l ∉ ·))) ∧
        (Formula.Satisfiable ⟨n, clauses⟩ ↔ Formula.Satisfiable ⟨n, clauses.filter (l ∉ ·)⟩)) ∧
      ∀ ks : List Literal, ks ⊆ ls → ks.Nodup →
        (∀ a : Assignment, (∀ l ∈ ks, a.Free l.atom) →
          ∃ b, commitAll ks clauses a = .ok (avoiding ks clauses, b)) ∧
        (Formula.Satisfiable ⟨n, clauses⟩ ↔ Formula.Satisfiable ⟨n, avoiding ks clauses⟩) := by
  obtain ⟨ls, found⟩ := exists_pureLiterals_iff.mpr range
  have absent : ∀ l ∈ ls, ¬ l.complement.OccursIn clauses := fun l mem =>
    ((mem_pureLiterals_iff found).mp mem).2
  refine ⟨ls, found, fun l mem => ⟨fun a free => ?_, satisfiable_filter_iff (absent l mem)⟩,
    fun ks chosen once => ⟨fun a free => ?_, ?_⟩⟩
  · obtain ⟨b, assigned⟩ := Assignment.exists_assign_iff.mpr free
    have bound := Assignment.value_assign assigned
    exact ⟨b, assigned, (propagate_eq_ok_iff bound).mpr (clears_of_not_occursIn (absent l mem))⟩
  · exact commitAll_eq_ok (nodup_atoms_of_pure found chosen once) free fun l mem =>
      absent l (chosen mem)
  · exact satisfiable_avoiding_iff fun l mem => absent l (chosen mem)

/-- Atoms 1 and 2 have pure literals, and share a clause. -/
def overlapping : List Clause :=
  [[⟨1, true⟩, ⟨2, true⟩], [⟨3, true⟩], [⟨2, true⟩, ⟨3, false⟩], [⟨3, false⟩, ⟨3, true⟩]]

/-- Binding atom 2 first leaves no occurrence of atom 1 in `overlapping`. Binding atom 1 next leaves
what is there. That atom 3 is bound plays no part. -/
theorem pureLiterals_eliminate_overlapping : (∀ c ∈ overlapping, ∀ l ∈ c, l.InRange 3) ∧
    pureLiterals 3 overlapping = .ok [⟨1, true⟩, ⟨2, true⟩] ∧
    (∃ b, commitAll [⟨2, true⟩, ⟨1, true⟩] overlapping ⟨[none, none, some false]⟩ =
      .ok ([[⟨3, true⟩], [⟨3, false⟩, ⟨3, true⟩]], b)) ∧
    (Formula.Satisfiable ⟨3, overlapping⟩ ↔
      Formula.Satisfiable ⟨3, [[⟨3, true⟩], [⟨3, false⟩, ⟨3, true⟩]]⟩) := by
  have range : ∀ c ∈ overlapping, ∀ l ∈ c, l.InRange 3 := by decide
  have pure : pureLiterals 3 overlapping = .ok [⟨1, true⟩, ⟨2, true⟩] := rfl
  obtain ⟨ls, found, _, several⟩ := pureLiterals_eliminate range
  cases pure.symm.trans found
  obtain ⟨bind, satisfiable⟩ := several [⟨2, true⟩, ⟨1, true⟩] (by decide) (by decide)
  exact ⟨range, pure, bind ⟨[none, none, some false]⟩ (by decide), satisfiable⟩

end DavisPutnam
