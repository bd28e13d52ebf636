import DavisPutnam.Proofs.Expansion
import DavisPutnam.Search.Recursive

/-!
The recursive search procedure as a relation.

`Explores depth clauses a finding t` says what the procedure finds below a node, one
binding at a time: an empty clause list is a model, an empty clause a refutation, the
lowest pure literal is bound before the first unit clause, and where nothing is forced the
lowest unbound atom is made true and, only if that is refuted, false, both times from the
clauses and the assignment at the split. `t` is the account of it. The relation has no rule
for a broken precondition and none for a node without an unbound atom.

`descend` computes what the relation says (`descend_of_explores`), and over free
atoms the relation always says something (`exists_explores`), so there the two
agree (`explores_iff`).
-/

namespace DavisPutnam

/-- What the recursive procedure finds below a node, and its account of it. -/
inductive Explores : Nat → List Clause → Assignment → Finding → Account → Prop where
  | satisfied {depth : Nat} {a : Assignment} :
      Explores depth [] a (.model a.complete depth) {}
  | conflict {depth : Nat} {clauses : List Clause} {a : Assignment} (empty : [] ∈ clauses) :
      Explores depth clauses a .refuted (.conflict depth)
  | pure {depth : Nat} {clauses rest : List Clause} {a b : Assignment} {l : Literal}
      {others : List Literal} {finding : Finding} {t : Account}
      (undecided : Undecided clauses)
      (found : pureLiterals a.atoms clauses = .ok (l :: others))
      (committed : commit l clauses a = .ok (rest, b))
      (next : Explores depth rest b finding t) :
      Explores depth clauses a finding (.binding .pure l depth ++ t)
  | unit {depth : Nat} {clauses rest : List Clause} {a b : Assignment} {l : Literal}
      {finding : Finding} {t : Account}
      (undecided : Undecided clauses)
      (impure : pureLiterals a.atoms clauses = .ok [])
      (found : firstUnit? clauses = some l)
      (committed : commit l clauses a = .ok (rest, b))
      (next : Explores depth rest b finding t) :
      Explores depth clauses a finding (.binding .unit l depth ++ t)
  | accept {depth : Nat} {clauses rest : List Clause} {a b : Assignment} {atom : Nat}
      {model : Model} {level : Nat} {t : Account}
      (undecided : Undecided clauses)
      (impure : pureLiterals a.atoms clauses = .ok [])
      (unitless : firstUnit? clauses = none)
      (lowest : a.firstUnbound = some atom)
      (committed : commit ⟨atom, true⟩ clauses a = .ok (rest, b))
      (found : Explores (depth + 1) rest b (.model model level) t) :
      Explores depth clauses a (.model model level)
        (.binding .decision ⟨atom, true⟩ (depth + 1) ++ t)
  | backtrack {depth : Nat} {clauses left right : List Clause} {a b c : Assignment} {atom : Nat}
      {finding : Finding} {first second : Account}
      (undecided : Undecided clauses)
      (impure : pureLiterals a.atoms clauses = .ok [])
      (unitless : firstUnit? clauses = none)
      (lowest : a.firstUnbound = some atom)
      (accepted : commit ⟨atom, true⟩ clauses a = .ok (left, b))
      (refuted : Explores (depth + 1) left b .refuted first)
      (rejected : commit ⟨atom, false⟩ clauses a = .ok (right, c))
      (next : Explores (depth + 1) right c finding second) :
      Explores depth clauses a finding
        ((.binding .decision ⟨atom, true⟩ (depth + 1) ++ first) ++
          (.binding .decision ⟨atom, false⟩ (depth + 1) ++ second))

/-! ### The recursive function, case by case -/

section Equations

variable {depth atom : Nat} {clauses rest : List Clause} {a b : Assignment} {reason : Reason}
  {l : Literal}

theorem descend_nil : descend depth [] a = (.model a.complete depth, {}) := by
  rw [descend]
  rfl

theorem descend_of_nil_mem (empty : [] ∈ clauses) :
    descend depth clauses a = (.refuted, .conflict depth) := by
  have inhabited : clauses.isEmpty = false :=
    List.isEmpty_eq_false_iff.mpr (List.ne_nil_of_mem empty)
  have conflict : clauses.any List.isEmpty = true := List.any_eq_true.mpr ⟨[], empty, rfl⟩
  rw [descend]
  simp [inhabited, conflict]

theorem descend_of_undecided (undecided : Undecided clauses) : descend depth clauses a =
    match forced? a.atoms clauses with
    | .error fault => (.faulted fault, {})
    | .ok (some (reason, l)) => follow reason l depth clauses a
    | .ok none =>
      match a.firstUnbound with
      | none => (.refuted, .conflict depth)
      | some atom => branchOn atom (depth + 1) clauses a := by
  rw [descend, forced?]
  simp only [undecided.isEmpty_eq_false, undecided.any_isEmpty_eq_false, Bool.false_eq_true,
    if_false]
  rcases pureLiterals a.atoms clauses with fault | (_ | ⟨l, others⟩)
  · rfl
  · cases firstUnit? clauses with
    | none => rfl
    | some l => rfl
  · rfl

/-- A forced literal is followed. -/
theorem descend_of_forced (undecided : Undecided clauses)
    (forced : forced? a.atoms clauses = .ok (some (reason, l))) :
    descend depth clauses a = follow reason l depth clauses a := by
  rw [descend_of_undecided undecided, forced]

/-- Where nothing is forced, both values of the lowest unbound atom are tried. -/
theorem descend_of_unforced (undecided : Undecided clauses)
    (unforced : forced? a.atoms clauses = .ok none) (lowest : a.firstUnbound = some atom) :
    descend depth clauses a = branchOn atom (depth + 1) clauses a := by
  rw [descend_of_undecided undecided, unforced]
  simp only [lowest]

theorem follow_of_fault {fault : Fault} (failed : commit l clauses a = .error fault) :
    follow reason l depth clauses a = (.faulted fault, .binding reason l depth) := by
  rw [follow]
  split
  · next again => cases failed.symm.trans again; rfl
  · next again => cases failed.symm.trans again

theorem follow_of_commit (committed : commit l clauses a = .ok (rest, b)) :
    follow reason l depth clauses a =
      (Account.binding reason l depth).before (descend depth rest b) := by
  rw [follow]
  split
  · next again => cases committed.symm.trans again
  · next again => cases committed.symm.trans again; rfl

end Equations

/-! ### Agreement -/

/-- The function computes what the relation says. -/
theorem descend_of_explores {depth : Nat} {clauses : List Clause} {a : Assignment}
    {finding : Finding} {t : Account} (h : Explores depth clauses a finding t) :
    descend depth clauses a = (finding, t) := by
  induction h with
  | satisfied => exact descend_nil
  | conflict empty => exact descend_of_nil_mem empty
  | pure undecided found committed _ ih =>
    have forced := forced?_eq_some_iff.mpr (.inl ⟨rfl, _, found⟩)
    rw [descend_of_forced undecided forced, follow_of_commit committed, ih]
    rfl
  | unit undecided impure found committed _ ih =>
    have forced := forced?_eq_some_iff.mpr (.inr ⟨rfl, impure, found⟩)
    rw [descend_of_forced undecided forced, follow_of_commit committed, ih]
    rfl
  | accept undecided impure unitless lowest committed _ ih =>
    have unforced := forced?_eq_none_iff.mpr ⟨impure, unitless⟩
    rw [descend_of_unforced undecided unforced lowest, branchOn, follow_of_commit committed, ih]
    rfl
  | backtrack undecided impure unitless lowest accepted _ rejected _ ihTrue ihFalse =>
    have unforced := forced?_eq_none_iff.mpr ⟨impure, unitless⟩
    rw [descend_of_unforced undecided unforced lowest, branchOn, follow_of_commit accepted,
      follow_of_commit rejected, ihTrue, ihFalse]
    rfl

/-- The relation never ends in a fault. -/
theorem not_explores_faulted {depth : Nat} {clauses : List Clause} {a : Assignment}
    {fault : Fault} {t : Account} : ¬ Explores depth clauses a (.faulted fault) t := by
  intro h
  generalize same : Finding.faulted fault = finding at h
  induction h with
  | satisfied | conflict | accept => cases same
  | pure _ _ _ _ ih | unit _ _ _ _ _ ih | backtrack _ _ _ _ _ _ _ _ _ ih => exact ih same

/-- Over free atoms the procedure always finds something. -/
theorem exists_explores {a : Assignment} {clauses : List Clause} (untouched : a.Untouched clauses)
    (depth : Nat) : ∃ finding t, Explores depth clauses a finding t := by
  -- Every binding uses up an unbound atom.
  induction supply : a.unboundCount using Nat.strongRecOn generalizing depth clauses a with
  | ind n ih =>
    have below {l : Literal} {rest : List Clause} {b : Assignment}
        (committed : commit l clauses a = .ok (rest, b)) (depth : Nat) :
        ∃ finding t, Explores depth rest b finding t := by
      have := unboundCount_commit committed
      exact ih b.unboundCount (by omega) (untouched.commit committed) depth rfl
    cases untouched.pass with
    | settled none =>
      subst none
      exact ⟨_, _, .satisfied⟩
    | conflict empty => exact ⟨_, _, .conflict empty⟩
    | @forced reason l rest b undecided forced committed =>
      obtain ⟨finding, t, next⟩ := below committed depth
      rcases forced?_eq_some_iff.mp forced with ⟨rfl, _, found⟩ | ⟨rfl, impure, found⟩
      · exact ⟨finding, _, .pure undecided found committed next⟩
      · exact ⟨finding, _, .unit undecided impure found committed next⟩
    | @unforced atom undecided unforced lowest =>
      obtain ⟨impure, unitless⟩ := forced?_eq_none_iff.mp unforced
      have free := Assignment.free_of_firstUnbound lowest
      obtain ⟨left, b, accepted⟩ := exists_commit (l := ⟨atom, true⟩) free clauses
      obtain ⟨right, c, rejected⟩ := exists_commit (l := ⟨atom, false⟩) free clauses
      obtain ⟨finding, first, found⟩ := below accepted (depth + 1)
      cases finding with
      | model model level =>
        exact ⟨_, _, .accept undecided impure unitless lowest accepted found⟩
      | faulted fault => exact absurd found not_explores_faulted
      | refuted =>
        obtain ⟨finding, second, next⟩ := below rejected (depth + 1)
        exact ⟨finding, _,
          .backtrack undecided impure unitless lowest accepted found rejected next⟩

/-- Over free atoms the relation and the function agree. -/
theorem explores_iff {depth : Nat} {clauses : List Clause} {a : Assignment} {finding : Finding}
    {t : Account} (untouched : a.Untouched clauses) :
    Explores depth clauses a finding t ↔ descend depth clauses a = (finding, t) := by
  constructor
  · exact descend_of_explores
  · intro computed
    obtain ⟨found, account, explores⟩ := exists_explores untouched depth
    cases computed.symm.trans (descend_of_explores explores)
    exact explores

end DavisPutnam
