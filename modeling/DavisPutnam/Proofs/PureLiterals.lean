import DavisPutnam.Semantics
import DavisPutnam.Simplify.Polarity

/-!
What the tally of polarities knows, and why a pure literal does no harm.

A tally is read through the literals that it includes. Counting a clause adds
exactly the literals of the clause (`Tally.includes_addClause`), so the tally of
a clause list includes exactly the literals that occur in it, and the pure
literals are those that occur without their complement (`mem_pureLiterals_iff`),
in ascending atom order (`pureLiterals_eq_ok_iff`), so that nothing else about the
clauses matters (`pureLiterals_congr`). Counting fails exactly on an atom outside the
atom count (`exists_pureLiterals_iff`). `pureLiterals_exact` says all of this of
clauses whose atoms are in range.

A pure literal need not follow from the clauses, but a valuation that satisfies
them still does once the literal is made true (`allHold_giving_of_pure`).
-/

namespace DavisPutnam

/-- The literal stands in one of the clauses. -/
def Literal.OccursIn (l : Literal) (clauses : List Clause) : Prop :=
  ∃ c ∈ clauses, l ∈ c

/-! ### Polarities -/

namespace Polarity

/-- An occurrence with the given sign has been seen. -/
def includes : Polarity → Bool → Bool
  | .absent, _ => false
  | .positive, sign => sign
  | .negative, sign => !sign
  | .mixed, _ => true

theorem includes_add (p : Polarity) (sign other : Bool) :
    (p.add sign).includes other = (p.includes other || other == sign) := by
  cases p <;> cases sign <;> cases other <;> rfl

/-- An atom has a pure literal if it was seen with that sign and not with the
other. -/
theorem literal?_eq_some_iff {p : Polarity} {atom : Nat} {l : Literal} :
    p.literal? atom = some l ↔
      l.atom = atom ∧ p.includes l.positive = true ∧ p.includes (!l.positive) = false := by
  obtain ⟨own, positive⟩ := l
  cases p <;> cases positive <;> simp [literal?, includes, eq_comm]

end Polarity

/-! ### Tallies -/

namespace Tally

/-- The tally has counted the literal. -/
def includes (t : Tally) (l : Literal) : Bool :=
  (atomSlot? t.toList l.atom).any (·.includes l.positive)

theorem includes_replicate (atoms : Nat) (l : Literal) :
    includes (Array.replicate atoms .absent) l = false := by
  obtain ⟨atom, positive⟩ := l
  cases atom with
  | zero => rfl
  | succ i =>
    simp only [includes, atomSlot?, Array.toList_replicate, List.getElem?_replicate]
    split <;> rfl

/-- A counted occurrence is included from then on, as is all that was before. -/
theorem includes_modify {t : Tally} {l : Literal} (range : l.InRange t.size) (k : Literal) :
    includes (t.modify (l.atom - 1) (·.add l.positive)) k = (t.includes k || decide (k = l)) := by
  obtain ⟨atom, sign⟩ := l
  obtain ⟨other, positive⟩ := k
  obtain ⟨low, high⟩ : 1 ≤ atom ∧ atom ≤ t.size := range
  cases other with
  | zero =>
    have differs : ¬ 0 = atom := by omega
    simp [includes, atomSlot?, differs]
  | succ i =>
    simp only [includes, atomSlot?, Array.toList_modify, List.getElem?_modify]
    by_cases same : i + 1 = atom
    · subst same
      have present : i < t.toList.length := high
      simp [List.getElem?_eq_getElem present, Polarity.includes_add, Bool.beq_eq_decide_eq]
    · have apart : ¬ atom - 1 = i := by omega
      simp [apart, same]

/-- A clause can be counted exactly if its atoms have a place in the tally. -/
theorem exists_addClause_iff {t : Tally} {c : Clause} :
    (∃ u, t.addClause c = .ok u) ↔ ∀ l ∈ c, l.InRange t.size := by
  induction c generalizing t with
  | nil => simp [addClause]
  | cons l rest ih =>
    by_cases range : l.InRange t.size
    · simp [addClause, range, ih]
    · simp [addClause, range]

theorem size_addClause {t u : Tally} {c : Clause} (h : t.addClause c = .ok u) :
    u.size = t.size := by
  induction c generalizing t with
  | nil => cases h; rfl
  | cons l rest ih =>
    rw [addClause] at h
    split at h
    · exact (ih h).trans Array.size_modify
    · cases h

/-- Counting a clause adds its literals and nothing else. -/
theorem includes_addClause {t u : Tally} {c : Clause} (h : t.addClause c = .ok u)
    (k : Literal) : u.includes k = true ↔ t.includes k = true ∨ k ∈ c := by
  induction c generalizing t with
  | nil => cases h; simp
  | cons l rest ih =>
    rw [addClause] at h
    split at h
    · next range =>
      rw [ih h, includes_modify range]
      simp [or_assoc]
    · cases h

theorem exists_addClauses_iff {t : Tally} {clauses : List Clause} :
    (∃ u, t.addClauses clauses = .ok u) ↔ ∀ c ∈ clauses, ∀ l ∈ c, l.InRange t.size := by
  induction clauses generalizing t with
  | nil => simp [addClauses]
  | cons c rest ih =>
    rw [List.forall_mem_cons, ← exists_addClause_iff]
    cases counted : t.addClause c with
    | error fault => simp [addClauses, counted]
    | ok u => simp [addClauses, counted, ih, size_addClause counted]

theorem includes_addClauses {t u : Tally} {clauses : List Clause}
    (h : t.addClauses clauses = .ok u) (k : Literal) :
    u.includes k = true ↔ t.includes k = true ∨ k.OccursIn clauses := by
  induction clauses generalizing t with
  | nil => cases h; simp [Literal.OccursIn]
  | cons c rest ih =>
    rw [addClauses] at h
    split at h
    · cases h
    · next counted =>
      rw [ih h, includes_addClause counted]
      simp [Literal.OccursIn, or_assoc]

theorem mem_pureLiterals {t : Tally} {l : Literal} :
    l ∈ t.pureLiterals ↔ t.includes l = true ∧ t.includes l.complement = false := by
  obtain ⟨atom, positive⟩ := l
  simp only [pureLiterals, List.mem_filterMap, List.mem_mapIdx, id_eq, exists_eq_right,
    Polarity.literal?_eq_some_iff, includes, Literal.complement]
  constructor
  · rintro ⟨i, bound, rfl, seen, unseen⟩
    simp only [atomSlot?, List.getElem?_eq_getElem bound, Option.any_some]
    exact ⟨seen, unseen⟩
  · rintro ⟨seen, unseen⟩
    cases atom with
    | zero => simp [atomSlot?] at seen
    | succ i =>
      rw [atomSlot?] at seen unseen
      obtain ⟨p, slot, _⟩ := (Option.any_eq_true _ _).mp seen
      obtain ⟨bound, _⟩ := List.getElem?_eq_some_iff.mp slot
      rw [List.getElem?_eq_getElem bound, Option.any_some] at seen unseen
      exact ⟨i, bound, rfl, seen, unseen⟩

/-- The pure literals of a tally stand in the order of its atoms. -/
theorem ascending_pureLiterals (t : Tally) : t.pureLiterals.Pairwise (·.atom < ·.atom) := by
  rw [pureLiterals, List.pairwise_filterMap, List.pairwise_iff_getElem]
  intro i j _ _ before l first k second
  rw [List.getElem_mapIdx] at first second
  have own := (Polarity.literal?_eq_some_iff.mp first).1
  have other := (Polarity.literal?_eq_some_iff.mp second).1
  omega

end Tally

/-! ### Pure literals of a clause list -/

/-- The pure literals can be found exactly if every atom is in range. -/
theorem exists_pureLiterals_iff {atoms : Nat} {clauses : List Clause} :
    (∃ ls, pureLiterals atoms clauses = .ok ls) ↔ ∀ c ∈ clauses, ∀ l ∈ c, l.InRange atoms := by
  have counted : (∃ u, Tally.addClauses (Array.replicate atoms .absent) clauses = .ok u) ↔
      ∀ c ∈ clauses, ∀ l ∈ c, l.InRange atoms := by
    rw [Tally.exists_addClauses_iff, Array.size_replicate]
  rw [← counted, pureLiterals, Tally.ofClauses]
  cases Tally.addClauses (Array.replicate atoms .absent) clauses with
  | error fault => simp [Except.map]
  | ok t => simp [Except.map]

/-- A literal is pure exactly if it occurs and its complement does not. -/
theorem mem_pureLiterals_iff {atoms : Nat} {clauses : List Clause} {ls : List Literal}
    (h : pureLiterals atoms clauses = .ok ls) {l : Literal} :
    l ∈ ls ↔ l.OccursIn clauses ∧ ¬ l.complement.OccursIn clauses := by
  rw [pureLiterals, Tally.ofClauses] at h
  cases counted : Tally.addClauses (Array.replicate atoms .absent) clauses with
  | error fault => simp [counted, Except.map] at h
  | ok t =>
    rw [counted] at h
    cases h
    have seen (k : Literal) : t.includes k = true ↔ k.OccursIn clauses := by
      simp [Tally.includes_addClauses counted k, Tally.includes_replicate]
    rw [Tally.mem_pureLiterals, ← Bool.not_eq_true, seen, seen]

theorem ascending_pureLiterals {atoms : Nat} {clauses : List Clause} {ls : List Literal}
    (h : pureLiterals atoms clauses = .ok ls) : ls.Pairwise (·.atom < ·.atom) := by
  unfold pureLiterals at h
  cases counted : Tally.ofClauses atoms clauses with
  | error fault => simp [counted, Except.map] at h
  | ok t =>
    rw [counted] at h
    cases h
    exact t.ascending_pureLiterals

/-- Literals in ascending atom order are determined by which they are. -/
theorem Literal.eq_of_ascending {ks ls : List Literal} (first : ks.Pairwise (·.atom < ·.atom))
    (second : ls.Pairwise (·.atom < ·.atom)) (same : ∀ l, l ∈ ks ↔ l ∈ ls) : ks = ls := by
  have distinct {xs : List Literal} (ascending : xs.Pairwise (·.atom < ·.atom)) : xs.Nodup := by
    apply ascending.imp
    rintro l _ less rfl
    exact Nat.lt_irrefl _ less
  have reordered : ks.Perm ls :=
    (List.perm_ext_iff_of_nodup (distinct first) (distinct second)).mpr same
  exact reordered.eq_of_pairwise (fun _ _ _ _ up down => absurd down (Nat.lt_asymm up)) first second

/-- Literals in ascending atom order start with the one on the lowest atom. -/
theorem Literal.head?_eq_some_iff {ls : List Literal} (ascending : ls.Pairwise (·.atom < ·.atom))
    {l : Literal} : ls.head? = some l ↔ l ∈ ls ∧ ∀ k ∈ ls, l.atom ≤ k.atom := by
  cases ls with
  | nil => simp
  | cons first others =>
    have above : ∀ k ∈ others, first.atom < k.atom := (List.pairwise_cons.mp ascending).1
    rw [List.head?_cons, Option.some.injEq]
    constructor
    · rintro rfl
      exact ⟨List.mem_cons_self, List.forall_mem_cons.mpr
        ⟨Nat.le_refl _, fun k mem => Nat.le_of_lt (above k mem)⟩⟩
    · rintro ⟨mem, lowest⟩
      rcases List.mem_cons.mp mem with same | later
      · exact same.symm
      · have strict := above l later
        have bound := lowest first List.mem_cons_self
        omega

/-- If all atoms are in range, the pure literals are those that occur without their complement, in
ascending order of their atoms. -/
theorem pureLiterals_eq_ok_iff {atoms : Nat} {clauses : List Clause} {ls : List Literal} :
    pureLiterals atoms clauses = .ok ls ↔
      (∀ l : Literal, l.OccursIn clauses → l.InRange atoms) ∧ ls.Pairwise (·.atom < ·.atom) ∧
        ∀ l : Literal, l ∈ ls ↔ l.OccursIn clauses ∧ ¬ l.complement.OccursIn clauses := by
  constructor
  · intro found
    refine ⟨?_, ascending_pureLiterals found, fun l => mem_pureLiterals_iff found⟩
    rintro l ⟨c, mem, inside⟩
    exact exists_pureLiterals_iff.mp ⟨ls, found⟩ c mem l inside
  · rintro ⟨range, ascending, pure⟩
    obtain ⟨ks, found⟩ : ∃ ks, pureLiterals atoms clauses = .ok ks :=
      exists_pureLiterals_iff.mpr fun c mem l inside => range l ⟨c, mem, inside⟩
    have equal : ks = ls :=
      Literal.eq_of_ascending (ascending_pureLiterals found) ascending fun l => by
        rw [mem_pureLiterals_iff found, pure]
    rw [found, equal]

/-- The first pure literal is the one on the lowest atom. -/
theorem head?_pureLiterals_iff {atoms : Nat} {clauses : List Clause} {ls : List Literal}
    (found : pureLiterals atoms clauses = .ok ls) {l : Literal} :
    ls.head? = some l ↔ (l.OccursIn clauses ∧ ¬ l.complement.OccursIn clauses) ∧
      ∀ k : Literal, k.OccursIn clauses → ¬ k.complement.OccursIn clauses → l.atom ≤ k.atom := by
  rw [Literal.head?_eq_some_iff (ascending_pureLiterals found)]
  simp only [mem_pureLiterals_iff found, and_imp]

/-- There is no pure literal exactly if no literal occurs without its complement. -/
theorem pureLiterals_eq_nil_iff {atoms : Nat} {clauses : List Clause} {ls : List Literal}
    (found : pureLiterals atoms clauses = .ok ls) :
    ls = [] ↔ ∀ l : Literal, l.OccursIn clauses → l.complement.OccursIn clauses := by
  rw [List.eq_nil_iff_forall_not_mem]
  apply forall_congr'
  intro l
  rw [mem_pureLiterals_iff found, not_and, Classical.not_not]

/-- The pure literals are determined by the literals that occur. It does not matter where and
how often these occur, or whether there are further atoms. -/
theorem pureLiterals_congr {n m : Nat} {clauses others : List Clause} {ls : List Literal}
    (found : pureLiterals n clauses = .ok ls) (wide : n ≤ m)
    (same : ∀ l : Literal, l.OccursIn others ↔ l.OccursIn clauses) :
    pureLiterals m others = .ok ls := by
  obtain ⟨range, ascending, pure⟩ := pureLiterals_eq_ok_iff.mp found
  refine pureLiterals_eq_ok_iff.mpr ⟨fun l occurs => ?_, ascending, fun l => ?_⟩
  · obtain ⟨low, high⟩ := range l ((same l).mp occurs)
    exact ⟨low, Nat.le_trans high wide⟩
  · rw [pure, same, same]

/-- **Exactness.** If all atoms of the clauses are in range, the pure literals are found. They stand
in strictly ascending order of their atoms, and they are the literals that occur in some clause and
whose complement occurs in none. So the first of them is the one on the lowest atom, and there are
none exactly if every atom that occurs does so with both signs. -/
theorem pureLiterals_exact {atoms : Nat} {clauses : List Clause}
    (range : ∀ c ∈ clauses, ∀ l ∈ c, l.InRange atoms) :
    ∃ ls, pureLiterals atoms clauses = .ok ls ∧ ls.Pairwise (·.atom < ·.atom) ∧
      (∀ l : Literal, l ∈ ls ↔ l.OccursIn clauses ∧ ¬ l.complement.OccursIn clauses) ∧
      (∀ l : Literal, ls.head? = some l ↔
        (l.OccursIn clauses ∧ ¬ l.complement.OccursIn clauses) ∧
          ∀ k : Literal, k.OccursIn clauses → ¬ k.complement.OccursIn clauses → l.atom ≤ k.atom) ∧
      (ls = [] ↔ ∀ l : Literal, l.OccursIn clauses → l.complement.OccursIn clauses) := by
  obtain ⟨ls, found⟩ := exists_pureLiterals_iff.mpr range
  exact ⟨ls, found, ascending_pureLiterals found, fun l => mem_pureLiterals_iff found,
    fun l => head?_pureLiterals_iff found, pureLiterals_eq_nil_iff found⟩

/-- Atom 4 is negative twice and atom 2 changes its sign. Atom 3 has both signs in one clause, and
atom 6 does not occur. -/
def mottled : List Clause :=
  [[⟨4, false⟩, ⟨2, true⟩], [⟨5, true⟩, ⟨2, false⟩, ⟨2, false⟩], [⟨4, false⟩],
    [⟨3, true⟩, ⟨1, true⟩, ⟨3, false⟩], []]

/-- In `mottled` the lowest atom with a pure literal is 1, and atom 4 has one too. -/
theorem pureLiterals_exact_mottled : (∀ c ∈ mottled, ∀ l ∈ c, l.InRange 6) ∧
    pureLiterals 6 mottled = .ok [⟨1, true⟩, ⟨4, false⟩, ⟨5, true⟩] ∧
    ¬ Literal.OccursIn ⟨4, true⟩ mottled ∧
    (∀ k : Literal, k.OccursIn mottled → ¬ k.complement.OccursIn mottled → 1 ≤ k.atom) ∧
    ¬ ∀ l : Literal, l.OccursIn mottled → l.complement.OccursIn mottled := by
  have range : ∀ c ∈ mottled, ∀ l ∈ c, l.InRange 6 := by decide
  have pure : pureLiterals 6 mottled = .ok [⟨1, true⟩, ⟨4, false⟩, ⟨5, true⟩] := rfl
  obtain ⟨ls, found, _, mem, first, empty⟩ := pureLiterals_exact range
  cases pure.symm.trans found
  obtain ⟨_, absent⟩ := (mem ⟨4, false⟩).mp (by simp)
  obtain ⟨_, lowest⟩ := (first ⟨1, true⟩).mp rfl
  exact ⟨range, pure, absent, lowest, fun both => nomatch empty.mpr both⟩

/-! ### Why a pure literal does no harm -/

/-- The valuation changed so that the literal is true. -/
def Valuation.giving (v : Valuation) (l : Literal) : Valuation := fun atom =>
  if atom = l.atom then l.positive else v atom

theorem Valuation.holds_giving_self (v : Valuation) (l : Literal) :
    l.holds (v.giving l) = true := by
  simp [Literal.holds, Valuation.giving]

/-- Making a literal true falsifies no other literal than its complement. -/
theorem Valuation.holds_giving {v : Valuation} {l k : Literal} (holds : k.holds v = true)
    (other : k ≠ l.complement) : k.holds (v.giving l) = true := by
  obtain ⟨atom, sign⟩ := l
  obtain ⟨own, positive⟩ := k
  by_cases same : own = atom
  · subst same
    have agree : sign = positive := by
      cases sign <;> cases positive <;> simp_all [Literal.complement]
    simp [Literal.holds, Valuation.giving, agree]
  · simpa [Literal.holds, Valuation.giving, same] using holds

/-- If the complement of a literal occurs nowhere, clauses that are true stay
true when the literal is made true. -/
theorem allHold_giving_of_pure {v : Valuation} {clauses : List Clause} {l : Literal}
    (absent : ¬ l.complement.OccursIn clauses) (satisfied : allHold v clauses = true) :
    allHold (v.giving l) clauses = true := by
  refine List.all_eq_true.mpr fun c mem => ?_
  obtain ⟨k, inside, holds⟩ := List.any_eq_true.mp (List.all_eq_true.mp satisfied c mem)
  refine List.any_eq_true.mpr ⟨k, inside, Valuation.holds_giving holds ?_⟩
  rintro rfl
  exact absent ⟨c, mem, inside⟩

end DavisPutnam
