import DavisPutnam.Proofs.Propagation
import DavisPutnam.Proofs.PureLiterals
import DavisPutnam.Search.Node

/-!
What the expansion of a branch can do.

`Simplifies` lists the forced bindings between two passes of simplification and
`Branch.Visits` the passes of one expansion. A branch is ready if every atom of
its clauses is free and so is the atom of its decision. The expansion of a ready
branch meets no fault and ends in one of three ways (`Branch.Ready.expand`): all
clauses are settled, a clause is empty, or nothing is forced and some atom is
free to split on. Both branches of such a split are ready again
(`Branch.Ready.below`), so readiness is kept through a whole search.
-/

namespace DavisPutnam

/-- Neither end of simplification is reached: there is a clause, and no clause
is empty. -/
def Undecided (clauses : List Clause) : Prop :=
  clauses ≠ [] ∧ [] ∉ clauses

instance (clauses : List Clause) : Decidable (Undecided clauses) := by
  unfold Undecided; infer_instance

theorem Undecided.exists_occursIn {clauses : List Clause} (undecided : Undecided clauses) :
    ∃ l : Literal, l.OccursIn clauses := by
  obtain ⟨c, mem⟩ := List.exists_mem_of_ne_nil _ undecided.1
  have inhabited : c ≠ [] := by
    rintro rfl
    exact undecided.2 mem
  obtain ⟨l, inside⟩ := List.exists_mem_of_ne_nil _ inhabited
  exact ⟨l, c, mem, inside⟩

theorem Assignment.Untouched.free {a : Assignment} {clauses : List Clause} {l : Literal}
    (untouched : a.Untouched clauses) (occurs : l.OccursIn clauses) : a.Free l.atom := by
  obtain ⟨c, mem, inside⟩ := occurs
  exact untouched c mem l inside

/-! ### Forced bindings -/

theorem mem_of_firstUnit? {clauses : List Clause} {l : Literal}
    (h : firstUnit? clauses = some l) : [l] ∈ clauses := by
  obtain ⟨c, mem, unit⟩ := List.exists_of_findSome?_eq_some h
  exact Clause.unit?_eq_some_iff.mp unit ▸ mem

/-- The forced binding is that of the lowest pure literal, else that of the
first unit clause. -/
theorem forced?_eq_some_iff {atoms : Nat} {clauses : List Clause} {reason : Reason}
    {l : Literal} : forced? atoms clauses = .ok (some (reason, l)) ↔
      (reason = .pure ∧ ∃ ls, pureLiterals atoms clauses = .ok (l :: ls)) ∨
        (reason = .unit ∧ pureLiterals atoms clauses = .ok [] ∧ firstUnit? clauses = some l) := by
  unfold forced?
  cases pureLiterals atoms clauses with
  | error fault => simp
  | ok ls =>
    cases ls with
    | nil =>
      cases firstUnit? clauses with
      | none => simp
      | some k => simp [and_comm, eq_comm]
    | cons k ls => simp [and_comm, eq_comm]

theorem forced?_eq_none_iff {atoms : Nat} {clauses : List Clause} :
    forced? atoms clauses = .ok none ↔
      pureLiterals atoms clauses = .ok [] ∧ firstUnit? clauses = none := by
  unfold forced?
  cases pureLiterals atoms clauses with
  | error fault => simp
  | ok ls => cases ls <;> simp

theorem reason_ne_decision_of_forced? {atoms : Nat} {clauses : List Clause} {reason : Reason}
    {l : Literal} (forced : forced? atoms clauses = .ok (some (reason, l))) :
    reason ≠ .decision := by
  rcases forced?_eq_some_iff.mp forced with ⟨rfl, _⟩ | ⟨rfl, _⟩
  · exact nofun
  · exact nofun

theorem occursIn_of_forced? {atoms : Nat} {clauses : List Clause} {reason : Reason} {l : Literal}
    (h : forced? atoms clauses = .ok (some (reason, l))) : l.OccursIn clauses := by
  rcases forced?_eq_some_iff.mp h with ⟨_, ls, found⟩ | ⟨_, _, unit⟩
  · exact ((mem_pureLiterals_iff found).mp List.mem_cons_self).1
  · exact ⟨[l], mem_of_firstUnit? unit, List.mem_singleton_self l⟩

theorem Assignment.Untouched.exists_pureLiterals {a : Assignment} {clauses : List Clause}
    (untouched : a.Untouched clauses) : ∃ ls, pureLiterals a.atoms clauses = .ok ls :=
  exists_pureLiterals_iff.mpr fun c mem l inside => (untouched c mem l inside).inRange

theorem Assignment.Untouched.exists_forced? {a : Assignment} {clauses : List Clause}
    (untouched : a.Untouched clauses) : ∃ next, forced? a.atoms clauses = .ok next := by
  obtain ⟨ls, found⟩ := untouched.exists_pureLiterals
  unfold forced?
  rw [found]
  cases ls with
  | nil => exact ⟨_, rfl⟩
  | cons l ls => exact ⟨_, rfl⟩

/-! ### Simplification -/

section Equations

variable {depth : Nat} {clauses : List Clause} {a : Assignment} {j : Journal}

theorem simplify_nil : simplify depth [] a j = (.satisfied a.complete, j) := by
  rw [simplify]
  rfl

theorem simplify_of_nil_mem (empty : [] ∈ clauses) :
    simplify depth clauses a j = (.conflict, j) := by
  have inhabited : clauses.isEmpty = false :=
    List.isEmpty_eq_false_iff.mpr (List.ne_nil_of_mem empty)
  have conflict : clauses.any List.isEmpty = true := List.any_eq_true.mpr ⟨[], empty, rfl⟩
  rw [simplify]
  simp [inhabited, conflict]

theorem Undecided.isEmpty_eq_false (undecided : Undecided clauses) : clauses.isEmpty = false :=
  List.isEmpty_eq_false_iff.mpr undecided.1

theorem Undecided.any_isEmpty_eq_false (undecided : Undecided clauses) :
    clauses.any List.isEmpty = false := by
  refine List.any_eq_false.mpr fun c mem isEmpty => undecided.2 ?_
  exact List.isEmpty_iff.mp isEmpty ▸ mem

theorem Undecided.of_ne_true (inhabited : ¬ clauses.isEmpty = true)
    (peaceful : ¬ clauses.any List.isEmpty = true) : Undecided clauses := by
  refine ⟨fun none => inhabited (List.isEmpty_iff.mpr none), fun empty => peaceful ?_⟩
  exact List.any_eq_true.mpr ⟨[], empty, rfl⟩

/-- A forced binding is made, and simplification goes on with what it leaves. -/
theorem simplify_of_forced {rest : List Clause} {b : Assignment} {reason : Reason} {l : Literal}
    (undecided : Undecided clauses) (forced : forced? a.atoms clauses = .ok (some (reason, l)))
    (committed : commit l clauses a = .ok (rest, b)) :
    simplify depth clauses a j = simplify depth rest b (j.bound reason l depth) := by
  rw [simplify]
  simp only [undecided.isEmpty_eq_false, undecided.any_isEmpty_eq_false, forced,
    Bool.false_eq_true, if_false]
  split
  · next failed => cases committed.symm.trans failed
  · next again => cases committed.symm.trans again; rfl

theorem simplify_of_fault {fault : Fault} (undecided : Undecided clauses)
    (failed : forced? a.atoms clauses = .error fault) :
    simplify depth clauses a j = (.faulted fault, j) := by
  rw [simplify]
  simp only [undecided.isEmpty_eq_false, undecided.any_isEmpty_eq_false, failed,
    Bool.false_eq_true, if_false]

/-- Where nothing is forced, simplification leaves a split on the lowest unbound
atom. -/
theorem simplify_of_unforced {atom : Nat} (undecided : Undecided clauses)
    (unforced : forced? a.atoms clauses = .ok none) (lowest : a.firstUnbound = some atom) :
    simplify depth clauses a j = (.split atom clauses a, j) := by
  rw [simplify]
  simp only [undecided.isEmpty_eq_false, undecided.any_isEmpty_eq_false, unforced, lowest,
    Bool.false_eq_true, if_false]

end Equations

/-- What one pass of simplification can find. -/
inductive Pass (clauses : List Clause) (a : Assignment) : Prop where
  | settled (none : clauses = [])
  | conflict (empty : [] ∈ clauses)
  | forced {reason : Reason} {l : Literal} {rest : List Clause} {b : Assignment}
      (undecided : Undecided clauses)
      (forced : forced? a.atoms clauses = .ok (some (reason, l)))
      (committed : commit l clauses a = .ok (rest, b))
  | unforced {atom : Nat} (undecided : Undecided clauses)
      (unforced : forced? a.atoms clauses = .ok none)
      (lowest : a.firstUnbound = some atom)

/-- Over free atoms every pass finds something: no look-up fails, a forced
literal can be bound, and where nothing is forced there is an atom to split on. -/
theorem Assignment.Untouched.pass {a : Assignment} {clauses : List Clause}
    (untouched : a.Untouched clauses) : Pass clauses a := by
  by_cases none : clauses = []
  · exact .settled none
  by_cases empty : [] ∈ clauses
  · exact .conflict empty
  have undecided : Undecided clauses := ⟨none, empty⟩
  obtain ⟨next, found⟩ := untouched.exists_forced?
  cases next with
  | none =>
    obtain ⟨l, occurs⟩ := undecided.exists_occursIn
    obtain ⟨atom, lowest⟩ := (untouched.free occurs).exists_firstUnbound
    exact .unforced undecided found lowest
  | some binding =>
    obtain ⟨reason, l⟩ := binding
    obtain ⟨rest, b, committed⟩ :=
      exists_commit (untouched.free (occursIn_of_forced? found)) clauses
    exact .forced undecided found committed

/-- `Simplifies clauses a steps rest b`: forced bindings, listed in `steps`, lead
from the pass over `clauses` and `a` to the pass over `rest` and `b`. -/
inductive Simplifies : List Clause → Assignment → List (Reason × Literal) → List Clause →
    Assignment → Prop where
  | refl {clauses : List Clause} {a : Assignment} : Simplifies clauses a [] clauses a
  | step {clauses mid rest : List Clause} {a b c : Assignment} {reason : Reason} {l : Literal}
      {steps : List (Reason × Literal)} (undecided : Undecided clauses)
      (forced : forced? a.atoms clauses = .ok (some (reason, l)))
      (committed : commit l clauses a = .ok (mid, b)) (next : Simplifies mid b steps rest c) :
      Simplifies clauses a ((reason, l) :: steps) rest c

theorem Simplifies.untouched {clauses rest : List Clause} {a b : Assignment}
    {steps : List (Reason × Literal)} (h : Simplifies clauses a steps rest b)
    (untouched : a.Untouched clauses) : b.Untouched rest := by
  induction h with
  | refl => exact untouched
  | step _ _ committed _ ih => exact ih (untouched.commit committed)

/-- The journal after a series of bindings at one depth. -/
def Journal.boundAll (j : Journal) (depth : Nat) (steps : List (Reason × Literal)) : Journal :=
  steps.foldl (fun k step => k.bound step.1 step.2 depth) j

/-- The outcome is the one that the last pass of simplification calls for. A
fault is never called for, and a conflict only by an empty clause. -/
def Outcome.EndsAt (clauses : List Clause) (a : Assignment) : Outcome → Prop
  | .satisfied model => clauses = [] ∧ model = a.complete
  | .conflict => [] ∈ clauses
  | .split atom rest b => rest = clauses ∧ b = a ∧ Undecided clauses ∧
      forced? a.atoms clauses = .ok none ∧ a.firstUnbound = some atom
  | .faulted _ => False

/-- Over free atoms simplification runs through forced bindings to the outcome
that its last pass calls for. -/
theorem Assignment.Untouched.simplify {a : Assignment} {clauses : List Clause}
    (untouched : a.Untouched clauses) (depth : Nat) (j : Journal) :
    ∃ out steps rest b, Simplifies clauses a steps rest b ∧ out.EndsAt rest b ∧
      simplify depth clauses a j = (out, j.boundAll depth steps) := by
  induction supply : a.unboundCount using Nat.strongRecOn generalizing clauses a j with
  | ind n ih =>
    cases untouched.pass with
    | settled none =>
      subst none
      exact ⟨.satisfied a.complete, [], [], a, .refl, ⟨rfl, rfl⟩, simplify_nil⟩
    | conflict empty => exact ⟨.conflict, [], clauses, a, .refl, empty, simplify_of_nil_mem empty⟩
    | @forced reason l rest b undecided forced committed =>
      have fewer : b.unboundCount < n := by
        have := unboundCount_commit committed
        omega
      obtain ⟨out, steps, last, c, simplifies, ends, result⟩ :=
        ih _ fewer (untouched.commit committed) (j.bound reason l depth) rfl
      refine ⟨out, (reason, l) :: steps, last, c, .step undecided forced committed simplifies,
        ends, ?_⟩
      rw [simplify_of_forced undecided forced committed, result]
      rfl
    | @unforced atom undecided unforced lowest =>
      exact ⟨.split atom clauses a, [], clauses, a, .refl,
        ⟨rfl, rfl, undecided, unforced, lowest⟩,
        simplify_of_unforced undecided unforced lowest⟩

/-! ### Branches -/

namespace Branch

/-- The clauses and the assignment of the branch once its decision is applied. -/
def entered (b : Branch) : Except Fault (List Clause × Assignment) :=
  match b.decision with
  | none => .ok (b.clauses, b.assignment)
  | some l => commit l b.clauses b.assignment

/-- The journal once the branch is entered and its decision is noted. -/
def announce (b : Branch) (j : Journal) : Journal :=
  match b.decision with
  | none => j.enter b.depth
  | some l => (j.enter b.depth).bound .decision l b.depth

/-- Expanding the branch comes, after its decision and the forced bindings in
`steps`, to a pass over `clauses` and `a`. -/
def Visits (b : Branch) (steps : List (Reason × Literal)) (clauses : List Clause)
    (a : Assignment) : Prop :=
  ∃ first start, b.entered = .ok (first, start) ∧ Simplifies first start steps clauses a

/-- The atoms of the clauses are free, and so is the atom of the decision. -/
structure Ready (b : Branch) : Prop where
  clauses : b.assignment.Untouched b.clauses
  decision : ∀ l, b.decision = some l → b.assignment.Free l.atom

/-- A branch that is entered is left as it was, or its decision is committed. -/
theorem entered_cases {b : Branch} {clauses : List Clause} {a : Assignment}
    (entered : b.entered = .ok (clauses, a)) :
    (b.decision = none ∧ clauses = b.clauses ∧ a = b.assignment) ∨
      ∃ l, b.decision = some l ∧ commit l b.clauses b.assignment = .ok (clauses, a) := by
  unfold Branch.entered at entered
  split at entered
  · next decision =>
    cases entered
    exact .inl ⟨decision, rfl, rfl⟩
  · next l decision => exact .inr ⟨l, decision, entered⟩

theorem expand_of_entered {b : Branch} {clauses : List Clause} {a : Assignment}
    (entered : b.entered = .ok (clauses, a)) (j : Journal) :
    b.expand j = simplify b.depth clauses a (b.announce j) := by
  unfold expand announce
  rcases entered_cases entered with ⟨decision, rfl, rfl⟩ | ⟨l, decision, committed⟩
  · rw [decision]
  · simp only [decision, committed]

namespace Ready

variable {b : Branch}

/-- The decision of a ready branch can be bound, and leaves its clauses with
free atoms. -/
theorem entered (ready : b.Ready) :
    ∃ clauses a, b.entered = .ok (clauses, a) ∧ a.Untouched clauses := by
  unfold Branch.entered
  cases decision : b.decision with
  | none => exact ⟨b.clauses, b.assignment, rfl, ready.clauses⟩
  | some l =>
    obtain ⟨rest, a, committed⟩ := exists_commit (ready.decision l decision) b.clauses
    exact ⟨rest, a, committed, ready.clauses.commit committed⟩

theorem untouched (ready : b.Ready) {steps : List (Reason × Literal)} {clauses : List Clause}
    {a : Assignment} (visits : b.Visits steps clauses a) : a.Untouched clauses := by
  obtain ⟨first, start, entered, simplifies⟩ := visits
  obtain ⟨_, _, again, untouched⟩ := ready.entered
  cases entered.symm.trans again
  exact simplifies.untouched untouched

/-- Expanding a ready branch runs through forced bindings to the outcome that
its last pass calls for. -/
theorem expand (ready : b.Ready) (j : Journal) :
    ∃ out steps clauses a, b.Visits steps clauses a ∧ out.EndsAt clauses a ∧
      b.expand j = (out, (b.announce j).boundAll b.depth steps) := by
  obtain ⟨first, start, entered, untouched⟩ := ready.entered
  obtain ⟨out, steps, clauses, a, simplifies, ends, result⟩ :=
    untouched.simplify b.depth (b.announce j)
  exact ⟨out, steps, clauses, a, ⟨first, start, entered, simplifies⟩, ends,
    (expand_of_entered entered j).trans result⟩

/-- The outcome of an expansion is the one that its last pass calls for. -/
theorem of_expand (ready : b.Ready) {j k : Journal} {out : Outcome}
    (expanded : b.expand j = (out, k)) :
    ∃ steps clauses a, b.Visits steps clauses a ∧ out.EndsAt clauses a ∧
      k = (b.announce j).boundAll b.depth steps := by
  obtain ⟨_, steps, clauses, a, visits, ends, result⟩ := ready.expand j
  cases expanded.symm.trans result
  exact ⟨steps, clauses, a, visits, ends, rfl⟩

/-- The branches of a split are ready. -/
theorem below (ready : b.Ready) {j k : Journal} {atom : Nat} {clauses : List Clause}
    {a : Assignment} (split : b.expand j = (.split atom clauses a, k)) (value : Bool) :
    (b.below atom value clauses a).Ready := by
  obtain ⟨_, _, _, visits, ⟨rfl, rfl, _, _, lowest⟩, _⟩ := ready.of_expand split
  refine ⟨ready.untouched visits, ?_⟩
  rintro l decision
  cases decision
  exact Assignment.free_of_firstUnbound lowest

end Ready

end Branch

end DavisPutnam
