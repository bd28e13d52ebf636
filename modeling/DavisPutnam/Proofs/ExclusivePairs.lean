import DavisPutnam.Proofs.Clearing
import DavisPutnam.Proofs.Refinement

/-!
The run of the search on independent pairs of exclusive atoms.

Atoms `2 i + 1` and `2 i + 2` form a pair, of which exactly one is true. As long as pairs are left,
every atom that occurs does so with both signs and no clause is a unit, so the search splits on the
lowest unbound atom and makes it true. This makes the other atom of the pair pure, and a unit as
well, but pure literals come first. Binding it false settles the pair, and no other clause has
changed. So one pair takes one decision and one pure literal, one level deeper (`explores_pair`),
and by induction on the pairs that are left, `k` pairs take `k` of each (`explores_pairs`): no unit
clause is ever bound, nothing is ever refuted, and no branch that waits is taken up.
-/

namespace DavisPutnam

/-! ### The clauses -/

/-- Exactly one of the atoms `2 i + 1` and `2 i + 2` is true. -/
def exclusivePair (i : Nat) : List Clause :=
  [[⟨2 * i + 1, true⟩, ⟨2 * i + 2, true⟩], [⟨2 * i + 1, false⟩, ⟨2 * i + 2, false⟩]]

/-- The clauses of `n` pairs, the first of which is pair `i`. -/
def exclusivePairs (i n : Nat) : List Clause :=
  (List.range' i n).flatMap exclusivePair

theorem exclusivePairs_zero (i : Nat) : exclusivePairs i 0 = [] :=
  rfl

theorem exclusivePairs_succ (i n : Nat) :
    exclusivePairs i (n + 1) = exclusivePair i ++ exclusivePairs (i + 1) n := by
  rw [exclusivePairs, List.range'_succ, List.flatMap_cons, exclusivePairs]

theorem Literal.occursIn_append_iff {l : Literal} {clauses others : List Clause} :
    l.OccursIn (clauses ++ others) ↔ l.OccursIn clauses ∨ l.OccursIn others := by
  simp [Literal.OccursIn, or_and_right, exists_or]

/-- The atoms of a pair occur with both signs. -/
theorem occursIn_exclusivePair_iff {i : Nat} {l : Literal} :
    l.OccursIn (exclusivePair i) ↔ l.atom = 2 * i + 1 ∨ l.atom = 2 * i + 2 := by
  obtain ⟨atom, positive⟩ := l
  cases positive <;> simp [Literal.OccursIn, exclusivePair]

theorem occursIn_exclusivePairs_iff {i n : Nat} {l : Literal} :
    l.OccursIn (exclusivePairs i n) ↔ 2 * i < l.atom ∧ l.atom ≤ 2 * (i + n) := by
  induction n generalizing i with
  | zero =>
    have none : ¬ l.OccursIn (exclusivePairs i 0) := by simp [Literal.OccursIn, exclusivePairs_zero]
    simp only [none, false_iff]
    omega
  | succ n ih =>
    rw [exclusivePairs_succ, Literal.occursIn_append_iff, occursIn_exclusivePair_iff, ih]
    omega

theorem length_eq_two_of_mem {i n : Nat} {c : Clause} (mem : c ∈ exclusivePairs i n) :
    c.length = 2 := by
  obtain ⟨m, _, own⟩ := List.mem_flatMap.mp mem
  simp only [exclusivePair, List.mem_cons, List.not_mem_nil, or_false] at own
  rcases own with rfl | rfl
  · rfl
  · rfl

/-- The pairs from pair `i` on do not mention the atoms before. -/
theorem clears_exclusivePairs {i n atom : Nat} (early : atom ≤ 2 * i) (value : Bool) :
    Clears atom value (exclusivePairs i n) (exclusivePairs i n) := by
  refine Clears.refl_iff.mpr fun c mem => Clause.mentions_eq_false_iff.mpr fun l inside same => ?_
  have later := (occursIn_exclusivePairs_iff.mp ⟨c, mem, inside⟩).1
  omega

/-- Making the lower atom of a pair true leaves a unit clause on the other atom. -/
theorem clears_lower (i n : Nat) :
    Clears (2 * i + 1) true (exclusivePairs i (n + 1))
      ([⟨2 * i + 2, false⟩] :: exclusivePairs (i + 1) n) := by
  have left : [⟨2 * i + 1, false⟩, ⟨2 * i + 2, false⟩].filter
      (fun l : Literal => l.atom != 2 * i + 1) = [⟨2 * i + 2, false⟩] := by simp
  rw [exclusivePairs_succ, ← left]
  refine .drop (by simp) (.shorten ?_ (by simp) (clears_exclusivePairs (by omega) true))
  exact Clause.mentions_iff.mpr ⟨⟨2 * i + 1, false⟩, List.mem_cons_self, rfl⟩

/-- Making the other atom false settles the pair. -/
theorem clears_upper (i n : Nat) :
    Clears (2 * i + 2) false ([⟨2 * i + 2, false⟩] :: exclusivePairs (i + 1) n)
      (exclusivePairs (i + 1) n) :=
  .drop List.mem_cons_self (clears_exclusivePairs (by omega) false)

/-! ### What is forced -/

theorem undecided_exclusivePairs (i n : Nat) : Undecided (exclusivePairs i (n + 1)) := by
  refine ⟨by rw [exclusivePairs_succ]; exact List.cons_ne_nil _ _, fun empty => ?_⟩
  cases length_eq_two_of_mem empty

theorem undecided_upper (i n : Nat) :
    Undecided ([⟨2 * i + 2, false⟩] :: exclusivePairs (i + 1) n) := by
  refine ⟨List.cons_ne_nil _ _, fun empty => ?_⟩
  rcases List.mem_cons.mp empty with empty | empty
  · cases empty
  · cases length_eq_two_of_mem empty

theorem firstUnit?_exclusivePairs (i n : Nat) : firstUnit? (exclusivePairs i n) = none := by
  refine List.findSome?_eq_none_iff.mpr fun c mem => Option.eq_none_iff_forall_ne_some.mpr ?_
  intro l unit
  cases Clause.unit?_eq_some_iff.mp unit
  cases length_eq_two_of_mem mem

/-- Every atom of the pairs occurs with both signs, so no literal is pure. -/
theorem pureLiterals_exclusivePairs {i n atoms : Nat} (range : 2 * (i + n) ≤ atoms) :
    pureLiterals atoms (exclusivePairs i n) = .ok [] := by
  refine pureLiterals_eq_ok_iff.mpr ⟨fun l occurs => ?_, List.Pairwise.nil, fun l => ?_⟩
  · rw [occursIn_exclusivePairs_iff] at occurs
    exact ⟨by omega, by omega⟩
  · rw [occursIn_exclusivePairs_iff, occursIn_exclusivePairs_iff]
    simp [Literal.complement]

/-- Once its partner is true, the other atom of a pair is the only pure one. -/
theorem pureLiterals_upper {i n atoms : Nat} (range : 2 * (i + 1 + n) ≤ atoms) :
    pureLiterals atoms ([⟨2 * i + 2, false⟩] :: exclusivePairs (i + 1) n) =
      .ok [⟨2 * i + 2, false⟩] := by
  have occursIn_iff (l : Literal) :
      l.OccursIn ([⟨2 * i + 2, false⟩] :: exclusivePairs (i + 1) n) ↔
        l = ⟨2 * i + 2, false⟩ ∨ (2 * (i + 1) < l.atom ∧ l.atom ≤ 2 * (i + 1 + n)) := by
    rw [← occursIn_exclusivePairs_iff]
    simp [Literal.OccursIn]
  refine pureLiterals_eq_ok_iff.mpr ⟨fun l occurs => ?_, List.pairwise_singleton _ _, fun l => ?_⟩
  · rcases (occursIn_iff l).mp occurs with rfl | later
    · exact ⟨Nat.succ_pos _, by simp only; omega⟩
    · exact ⟨by omega, by omega⟩
  · rw [occursIn_iff, occursIn_iff, List.mem_singleton]
    obtain ⟨atom, positive⟩ := l
    simp only [Literal.complement, Literal.mk.injEq]
    constructor
    · rintro ⟨rfl, rfl⟩
      refine ⟨.inl ⟨rfl, rfl⟩, ?_⟩
      rintro (⟨_, sign⟩ | ⟨early, _⟩)
      · cases sign
      · omega
    · rintro ⟨pure | later, absent⟩
      · exact pure
      · exact absurd (.inr later) absent

/-! ### The assignments -/

/-- The lowest atoms, as many as `bound`, are alternately true and false. -/
def Assignment.alternating (atoms bound : Nat) : Assignment where
  slots := (List.range atoms).map fun slot => if slot < bound then some (slot % 2 == 0) else none

theorem map_range_even (k : Nat) :
    (List.range (2 * k)).map (fun slot => slot % 2 == 0) =
      (List.replicate k [true, false]).flatten := by
  induction k with
  | zero => rfl
  | succ k ih =>
    rw [Nat.mul_succ, List.range_succ, List.range_succ, List.replicate_succ', List.flatten_append,
      ← ih]
    simp

namespace Assignment

variable {atoms bound : Nat}

theorem alternating_zero (atoms : Nat) : alternating atoms 0 = unbound atoms := by
  simp [alternating, unbound, List.map_const']

theorem atoms_alternating : (alternating atoms bound).atoms = atoms := by
  simp [Assignment.atoms, alternating]

theorem slot_alternating (slot : Nat) :
    atomSlot? (alternating atoms bound).slots (slot + 1) =
      if slot < atoms then some (if slot < bound then some (slot % 2 == 0) else none)
      else none := by
  by_cases inside : slot < atoms
  · simp [atomSlot?, alternating, inside]
  · simp [atomSlot?, alternating, inside]

theorem free_alternating_iff {atom : Nat} :
    (alternating atoms bound).Free atom ↔ bound < atom ∧ atom ≤ atoms := by
  cases atom with
  | zero => simp [Free, atomSlot?]
  | succ slot =>
    rw [Free, slot_alternating]
    simp only [Option.ite_none_right_eq_some, Option.some.injEq, ite_eq_right_iff, reduceCtorEq,
      imp_false]
    omega

/-- The next atom is the lowest free one. -/
theorem firstUnbound_alternating (room : bound < atoms) :
    (alternating atoms bound).firstUnbound = some (bound + 1) := by
  have next : (alternating atoms bound).Free (bound + 1) :=
    free_alternating_iff.mpr ⟨Nat.lt_succ_self bound, room⟩
  obtain ⟨lowest, found⟩ := next.exists_firstUnbound
  have free := free_alternating_iff.mp (free_of_firstUnbound found)
  have least := le_of_firstUnbound found next
  rw [found]
  exact congrArg some (by omega)

/-- Binding the next atom continues the alternation. -/
theorem assign_alternating {positive : Bool} (room : bound < atoms)
    (parity : positive = (bound % 2 == 0)) :
    (alternating atoms bound).assign ⟨bound + 1, positive⟩ =
      .ok (alternating atoms (bound + 1)) := by
  refine assign_eq_ok_iff.mpr
    ⟨free_alternating_iff.mpr ⟨Nat.lt_succ_self bound, room⟩, congrArg mk ?_⟩
  refine List.ext_getElem (by simp [alternating]) fun slot low high => ?_
  simp only [alternating, List.getElem_map, List.getElem_range, List.getElem_set,
    Nat.add_sub_cancel, parity]
  by_cases own : bound = slot
  · subst own
    simp
  · have same : slot < bound + 1 ↔ slot < bound := by omega
    simp only [own, if_false, same]

/-- With all atoms bound, the alternation is a model. -/
theorem complete_alternating (k : Nat) :
    (alternating (2 * k) (2 * k)).complete = ⟨(List.replicate k [true, false]).flatten⟩ := by
  rw [← map_range_even]
  refine congrArg Model.mk ?_
  rw [alternating, List.map_map]
  refine List.map_congr_left fun slot mem => ?_
  simp [List.mem_range.mp mem]

end Assignment

/-! ### The run -/

/-- The account of settling `n` pairs after the first `i`. -/
def Account.ofPairs (i : Nat) : Nat → Account
  | 0 => {}
  | n + 1 =>
    .binding .decision ⟨2 * i + 1, true⟩ (i + 1) ++
      (.binding .pure ⟨2 * i + 2, false⟩ (i + 1) ++ ofPairs (i + 1) n)

theorem Account.stats_ofPairs (i n : Nat) : (ofPairs i n).stats =
    { decisions := n, pureLiterals := n, maxDepth := if n = 0 then 0 else i + n } := by
  induction n generalizing i with
  | zero => rfl
  | succ n ih =>
    show Stats.plus _ (Stats.plus _ (ofPairs (i + 1) n).stats) = _
    rw [ih]
    simp only [Stats.plus, binding, Stats.mk.injEq, Nat.add_one_ne_zero, if_false]
    refine ⟨by omega, by omega, trivial, trivial, ?_⟩
    split
    · omega
    · omega

/-- One pair takes a decision on its lower atom and a pure literal on the other one. -/
theorem explores_pair {i n k : Nat} (total : i + (n + 1) = k) {m : Model} {level : Nat}
    {t : Account}
    (next : Explores (i + 1) (exclusivePairs (i + 1) n)
      (.alternating (2 * k) (2 * (i + 1))) (.model m level) t) :
    Explores i (exclusivePairs i (n + 1)) (.alternating (2 * k) (2 * i)) (.model m level)
      (.binding .decision ⟨2 * i + 1, true⟩ (i + 1) ++
        (.binding .pure ⟨2 * i + 2, false⟩ (i + 1) ++ t)) := by
  have lower : commit ⟨2 * i + 1, true⟩ (exclusivePairs i (n + 1)) (.alternating (2 * k) (2 * i)) =
      .ok ([⟨2 * i + 2, false⟩] :: exclusivePairs (i + 1) n, .alternating (2 * k) (2 * i + 1)) :=
    commit_eq_ok_iff.mpr ⟨Assignment.assign_alternating (by omega) (by simp),
      clears_iff.mp (clears_lower i n)⟩
  have upper : commit ⟨2 * i + 2, false⟩ ([⟨2 * i + 2, false⟩] :: exclusivePairs (i + 1) n)
      (.alternating (2 * k) (2 * i + 1)) =
      .ok (exclusivePairs (i + 1) n, .alternating (2 * k) (2 * i + 2)) :=
    commit_eq_ok_iff.mpr ⟨Assignment.assign_alternating (by omega) (by simp),
      clears_iff.mp (clears_upper i n)⟩
  refine .accept (undecided_exclusivePairs i n) (pureLiterals_exclusivePairs ?_)
    (firstUnit?_exclusivePairs i (n + 1)) (Assignment.firstUnbound_alternating (by omega)) lower ?_
  · rw [Assignment.atoms_alternating]
    omega
  · refine .pure (undecided_upper i n) (pureLiterals_upper ?_) upper next
    rw [Assignment.atoms_alternating]
    omega

/-- Below the nodes at which the first pairs are settled, the search finds the model with all pairs
settled alike. -/
theorem explores_pairs {i n k : Nat} (total : i + n = k) :
    Explores i (exclusivePairs i n) (.alternating (2 * k) (2 * i))
      (.model ⟨(List.replicate k [true, false]).flatten⟩ k) (.ofPairs i n) := by
  induction n generalizing i with
  | zero =>
    obtain rfl : i = k := total
    rw [← Assignment.complete_alternating]
    exact .satisfied
  | succ n ih => exact explores_pair total (ih (by omega))

namespace Formula

/-- The formula of the first `k` pairs. -/
def paired (k : Nat) : Formula where
  atoms := 2 * k
  clauses := (List.range k).flatMap exclusivePair

theorem clauses_paired (k : Nat) : (paired k).clauses = exclusivePairs 0 k := by
  rw [paired, List.range_eq_range', exclusivePairs]

theorem wellFormed_paired (k : Nat) : (paired k).WellFormed := by
  intro c mem l inside
  rw [clauses_paired] at mem
  obtain ⟨low, high⟩ := occursIn_exclusivePairs_iff.mp ⟨c, mem, inside⟩
  exact ⟨by omega, by simpa [paired] using high⟩

/-- The procedure concludes with the account of `k` pairs. -/
theorem concludes_paired (k : Nat) : (paired k).Concludes
    ⟨.ok (.satisfiable ⟨(List.replicate k [true, false]).flatten⟩),
      (Account.ofPairs 0 k).events ++ [.satisfiable k (Account.ofPairs 0 k).stats],
      (Account.ofPairs 0 k).stats⟩ := by
  apply Concludes.satisfiable
  rw [clauses_paired, ← Assignment.alternating_zero]
  exact explores_pairs (Nat.zero_add k)

/-- **Exclusive pairs.** On `k` independent pairs of exclusive atoms the search finds the model that
makes the lower atom of each pair true and the other one false. It takes `k` decisions, each one
level deeper, and `k` pure literals, no unit clause and no conflict. -/
theorem solve_paired (k : Nat) :
    (paired k).solve.verdict = .ok (.satisfiable ⟨(List.replicate k [true, false]).flatten⟩) ∧
      (paired k).solve.stats =
        { decisions := k, pureLiterals := k, unitClauses := 0, conflicts := 0, maxDepth := k } := by
  have wf := wellFormed_paired k
  have concludes := concludes_paired k
  refine ⟨verdict_of_concludes wf concludes, (stats_of_concludes wf concludes).trans ?_⟩
  rw [Account.stats_ofPairs]
  cases k with
  | zero => rfl
  | succ k => simp

end Formula

end DavisPutnam
