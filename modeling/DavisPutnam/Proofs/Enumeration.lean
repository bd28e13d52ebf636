import DavisPutnam.Enumeration
import DavisPutnam.Proofs.Correctness
import Mathlib.Data.Nat.Bitwise
import Mathlib.Order.Bounds.Defs

/-!
What the enumeration of counters finds.

A counter stands for the valuation that gives an atom the value of its bit, so that all atoms
beyond the atom count are false below `2 ^ n`. Over atoms that have a bit the check of a counter
meets no fault and says whether its valuation satisfies the clauses
(`Enumeration.satisfies_eq_ok`). So the enumeration answers with the least counter that does
(`Formula.enumerate_exact`). For a well-formed formula every valuation is that of a counter as far
as the clauses can tell (`Formula.exists_satisfiedBy_iff`), and so the enumeration finds a model
exactly if the search does, though in general another one.
-/

namespace DavisPutnam

/-! ### Counters as valuations -/

/-- The first number of a range with a property is the least one in it. -/
theorem find?_range_eq_some_iff {n least : Nat} {p : Nat → Bool} :
    (List.range n).find? p = some least ↔ IsLeast {i | i < n ∧ p i = true} least := by
  rw [List.find?_range_eq_some, List.mem_range]
  constructor
  · rintro ⟨holds, small, lower⟩
    refine ⟨⟨small, holds⟩, ?_⟩
    rintro i ⟨_, other⟩
    refine Nat.le_of_not_lt fun less => ?_
    have none := lower i less
    rw [other] at none
    cases none
  · rintro ⟨⟨small, holds⟩, least⟩
    refine ⟨holds, small, fun i less => ?_⟩
    rw [Bool.not_eq_true']
    refine Bool.eq_false_iff.mpr fun other => ?_
    exact Nat.not_le_of_lt less (least ⟨less.trans small, other⟩)

namespace Enumeration

/-- The valuation that a counter stands for: atom `i` has the value of bit `i - 1`. -/
def valuation (counter : Nat) : Valuation := fun atom =>
  counter.testBit (atom - 1)

theorem literalValue_eq_ok {l : Literal} (range : l.InRange counterBits) (counter : Nat) :
    literalValue counter l = .ok (l.holds (valuation counter)) := by
  obtain ⟨atom, positive⟩ := l
  obtain ⟨low, high⟩ : 1 ≤ atom ∧ atom ≤ counterBits := range
  cases atom with
  | zero => exact absurd low (Nat.not_succ_le_zero 0)
  | succ bit => exact if_pos high

/-- Over atoms that have a bit the check of a counter says whether the clauses are true under its
valuation. -/
theorem satisfies_eq_ok {clauses : List Clause}
    (range : ∀ c ∈ clauses, ∀ l ∈ c, l.InRange counterBits) (counter : Nat) :
    satisfies counter clauses = .ok (allHold (valuation counter) clauses) :=
  allM_eq_ok fun c mem => anyM_eq_ok fun l inside =>
    literalValue_eq_ok (range c mem l inside) counter

/-- Every valuation is, on the first `n` atoms, that of a counter below `2 ^ n`. -/
theorem exists_valuation_eq (n : Nat) (v : Valuation) :
    ∃ counter < 2 ^ n, ∀ atom, 1 ≤ atom → atom ≤ n → valuation counter atom = v atom := by
  refine ⟨Nat.ofBits fun i : Fin n => v (i + 1), Nat.ofBits_lt_two_pow _, ?_⟩
  intro atom low high
  rw [valuation, Nat.testBit_ofBits_lt _ _ (by omega), Nat.sub_add_cancel low]

end Enumeration

namespace Formula

open Enumeration

variable {f : Formula}

/-- Every clause has a literal that is true if atom `i` is given the value of bit `i - 1`. -/
def SatisfiedBy (f : Formula) (counter : Nat) : Prop :=
  ∀ c ∈ f.clauses, ∃ l ∈ c, counter.testBit (l.atom - 1) = l.positive

instance (counter : Nat) : Decidable (f.SatisfiedBy counter) := by
  unfold SatisfiedBy; infer_instance

theorem satisfiedBy_iff {counter : Nat} :
    f.SatisfiedBy counter ↔ allHold (valuation counter) f.clauses = true := by
  simp only [SatisfiedBy, allHold_iff, Clause.holds_iff, Literal.holds, valuation, beq_iff_eq]

/-- A well-formed formula is satisfied by a counter exactly if it is by a valuation. -/
theorem exists_satisfiedBy_iff (wf : f.WellFormed) :
    (∃ counter < 2 ^ f.atoms, f.SatisfiedBy counter) ↔ f.Satisfiable := by
  constructor
  · rintro ⟨counter, _, satisfied⟩
    exact ⟨valuation counter, satisfiedBy_iff.mp satisfied⟩
  · rintro ⟨v, satisfied⟩
    obtain ⟨counter, small, agree⟩ := exists_valuation_eq f.atoms v
    have same : allHold (valuation counter) f.clauses = allHold v f.clauses :=
      allHold_congr fun c mem l inside => agree l.atom (wf c mem l inside).1 (wf c mem l inside).2
    exact ⟨counter, small, satisfiedBy_iff.mpr (same.trans satisfied)⟩

/-- The search finds a model of a well-formed formula exactly if there is one. -/
theorem solve_satisfiable_iff (wf : f.WellFormed) :
    (∃ m, f.solve.verdict = .ok (.satisfiable m)) ↔ f.Satisfiable := by
  rcases solve_cases wf with ⟨m, answer, _, satisfied⟩ | ⟨answer, never⟩
  · exact ⟨fun _ => ⟨m.valuation, satisfied⟩, fun _ => ⟨m, answer⟩⟩
  · constructor
    · rintro ⟨m, found⟩
      cases answer.symm.trans found
    · rintro ⟨v, satisfied⟩
      cases (never v).symm.trans satisfied

section Limits

variable (few : f.atoms ≤ maxAtoms) (range : ∀ c ∈ f.clauses, ∀ l ∈ c, l.InRange counterBits)

include few range

/-- Within its limits the enumeration looks for the first counter whose valuation satisfies the
clauses. -/
theorem enumerate_eq_ok : f.enumerate = .ok (((List.range (2 ^ f.atoms)).find? fun counter =>
    allHold (valuation counter) f.clauses).map (values f.atoms)) := by
  have found : (List.range (2 ^ f.atoms)).findM? (fun counter => satisfies counter f.clauses) =
      .ok ((List.range (2 ^ f.atoms)).find? fun counter => allHold (valuation counter) f.clauses) :=
    findM?_eq_ok fun counter _ => satisfies_eq_ok range counter
  unfold enumerate
  rw [if_neg (Nat.not_lt.mpr few)]
  show ((List.range (2 ^ f.atoms)).findM? _ >>= fun found => pure (found.map (values f.atoms))) = _
  rw [found]
  rfl

theorem enumerate_eq_some_iff {answer : List Bool} : f.enumerate = .ok (some answer) ↔
    ∃ least, IsLeast {counter | counter < 2 ^ f.atoms ∧ f.SatisfiedBy counter} least ∧
      answer = values f.atoms least := by
  rw [enumerate_eq_ok few range, Except.ok.injEq, Option.map_eq_some_iff]
  simp only [find?_range_eq_some_iff, satisfiedBy_iff, eq_comm (b := answer)]

theorem enumerate_eq_none_iff :
    f.enumerate = .ok none ↔ ¬ ∃ counter < 2 ^ f.atoms, f.SatisfiedBy counter := by
  rw [enumerate_eq_ok few range, Except.ok.injEq, Option.map_eq_none_iff]
  simp [satisfiedBy_iff]

end Limits

/-- **Enumeration.** For a formula of at most 15 atoms, all of whose literals are on atoms from 1 to
32, the enumeration meets no fault. It answers with the values of the atoms under the least counter
that satisfies the formula, or with nothing if no counter does. For a well-formed formula it has an
answer exactly if the search finds a model. -/
theorem enumerate_exact (few : f.atoms ≤ 15) (range : ∀ c ∈ f.clauses, ∀ l ∈ c, l.InRange 32) :
    (∃ found, f.enumerate = .ok found) ∧
      (∀ answer, f.enumerate = .ok (some answer) ↔
        ∃ least, IsLeast {counter | counter < 2 ^ f.atoms ∧ f.SatisfiedBy counter} least ∧
          answer = (List.range f.atoms).map least.testBit) ∧
      (f.enumerate = .ok none ↔ ¬ ∃ counter < 2 ^ f.atoms, f.SatisfiedBy counter) ∧
      (f.WellFormed → ((∃ answer, f.enumerate = .ok (some answer)) ↔
        ∃ m, f.solve.verdict = .ok (.satisfiable m))) := by
  obtain ⟨found, result⟩ : ∃ found, f.enumerate = .ok found := ⟨_, enumerate_eq_ok few range⟩
  refine ⟨⟨found, result⟩, fun _ => enumerate_eq_some_iff few range,
    enumerate_eq_none_iff few range, fun wf => ?_⟩
  rw [solve_satisfiable_iff wf, ← exists_satisfiedBy_iff wf, ← not_iff_not,
    ← enumerate_eq_none_iff few range, result]
  cases found with
  | none => simp
  | some answer => simp

/-- One of two atoms is true. -/
def either : Formula where
  atoms := 2
  clauses := [[⟨2, true⟩, ⟨1, true⟩]]

/-- The enumeration finds counter 1, which makes atom 1 of `either` true and atom 2 false. The
search makes atom 1 true as well, by a pure literal, and then leaves atom 2 to be completed to true.
In a formula of one atom a negative literal on atom 32 counts as true. -/
theorem enumerate_exact_either : either.WellFormed ∧ either.enumerate = .ok (some [true, false]) ∧
    either.solve.verdict = .ok (.satisfiable ⟨[true, true]⟩) ∧
    (∃ m, either.solve.verdict = .ok (.satisfiable m)) ∧
    (Formula.mk 1 [[⟨32, false⟩]]).enumerate = .ok (some [false]) := by
  have wf : either.WellFormed := by decide
  have concludes : either.Concludes _ := .satisfiable (.pure (by decide) rfl rfl .satisfied)
  obtain ⟨_, answers, _, agrees⟩ := enumerate_exact (f := either) (by decide) (by decide)
  have answer : either.enumerate = .ok (some [true, false]) := by
    refine (answers _).mpr ⟨1, ⟨⟨by decide, by decide⟩, ?_⟩, by decide⟩
    rintro counter ⟨_, satisfied⟩
    refine Nat.one_le_iff_ne_zero.mpr ?_
    rintro rfl
    exact absurd satisfied (by decide)
  refine ⟨wf, answer, verdict_of_concludes wf concludes, (agrees wf).mp ⟨_, answer⟩, ?_⟩
  · obtain ⟨_, answers, _⟩ :=
      enumerate_exact (f := Formula.mk 1 [[⟨32, false⟩]]) (by decide) (by decide)
    exact (answers _).mpr ⟨0, ⟨⟨by decide, by decide⟩, fun counter _ => Nat.zero_le counter⟩, rfl⟩

end Formula

end DavisPutnam
