import DavisPutnam.Search.Run

/-!
Problems: formulas under construction.

The atom count is declared once, and then clauses are added, given as signed
literals. Both operations work on the problem in place and leave a problem behind
even when they are refused. It is the one they found, because all checks come first
(`declare_of_refused`, `addClause_of_refused`). Every literal of an accepted clause is
in range, so the formula of a problem is well-formed (`wellFormed_of_formula_eq_ok`).
-/

namespace DavisPutnam

/-- Why an operation on a problem is refused. -/
inductive ProblemError where
  | zeroAtoms
  | alreadyDeclared (atoms : Nat)
  | notDeclared
  | zeroLiteral
  | atomOutOfRange (literal : Int) (atoms : Nat)
deriving DecidableEq, Repr

/-- The text of a refusal. -/
def ProblemError.message : ProblemError → String
  | .zeroAtoms => "atom count must be positive"
  | .alreadyDeclared atoms =>
    "problem is already initialized with " ++ Numeral.ofNat atoms ++ " atoms"
  | .notDeclared => "problem used before initialize"
  | .zeroLiteral => "literal 0 does not name an atom"
  | .atomOutOfRange literal atoms =>
    "literal " ++ Numeral.ofInt literal ++ " references an atom outside 1..=" ++
      Numeral.ofNat atoms

/-- A formula under construction. -/
inductive Problem where
  /-- The atom count is not yet known. -/
  | blank
  /-- The atom count and the clauses added so far, latest first. -/
  | declared (atoms : Nat) (latest : List Clause)
deriving DecidableEq, Repr

/-- What an operation does to a problem: it reads it, replaces it and can be refused.
What it has replaced by then stays replaced. -/
abbrev Operation (α : Type) := ExceptT ProblemError (StateM Problem) α

namespace Problem

/-- Carries out an operation: its answer, and the problem that it leaves. -/
def operate (p : Problem) (operation : Operation Unit) : Except ProblemError Unit × Problem :=
  Id.run (operation.run p)

section Operate

variable (p q : Problem) (refusal : ProblemError) (next : Problem → Operation Unit)

@[simp] theorem operate_get_bind : p.operate (get >>= next) = p.operate (next p) := rfl

@[simp] theorem operate_set : p.operate (set q) = (.ok (), q) := rfl

@[simp] theorem operate_throw : p.operate (throw refusal) = (.error refusal, p) := rfl

@[simp] theorem operate_ok_bind {α : Type} (a : α) (rest : α → Operation Unit) :
    p.operate (liftM (.ok a : Except ProblemError α) >>= rest) = p.operate (rest a) := rfl

@[simp] theorem operate_error_bind {α : Type} (rest : α → Operation Unit) :
    p.operate (liftM (.error refusal : Except ProblemError α) >>= rest) = (.error refusal, p) := rfl

end Operate

/-- Declares the atom count. -/
def declare (p : Problem) (atoms : Nat) : Except ProblemError Unit × Problem :=
  p.operate do
    if let .declared given _ ← get then throw (.alreadyDeclared given)
    if atoms = 0 then throw .zeroAtoms
    set (declared atoms [])

/-- The literal of a signed integer, if it is on one of the declared atoms. -/
def readLiteral (atoms : Nat) (x : Int) : Except ProblemError Literal :=
  match Literal.ofSigned? x with
  | none => .error .zeroLiteral
  | some l => if l.atom ≤ atoms then .ok l else .error (.atomOutOfRange x atoms)

/-- Adds a clause. The first literal that cannot be read refuses all of it. -/
def addClause (p : Problem) (literals : List Int) : Except ProblemError Unit × Problem :=
  p.operate do
    match ← get with
    | .blank => throw .notDeclared
    | .declared atoms latest =>
      let c ← (literals.mapM (readLiteral atoms) : Except ProblemError Clause)
      set (declared atoms (c :: latest))

/-- The formula built so far. -/
def formula : Problem → Except ProblemError Formula
  | .blank => .error .notDeclared
  | .declared atoms latest => .ok ⟨atoms, latest.reverse⟩

/-- Searches for a model of the formula built so far. -/
def solve (p : Problem) : Except ProblemError Run :=
  p.formula.map Formula.solve

/-! ### What is accepted -/

theorem declare_blank (atoms : Nat) : blank.declare atoms =
    if atoms = 0 then (.error .zeroAtoms, blank) else (.ok (), declared atoms []) := by
  by_cases zero : atoms = 0
  · simp [declare, zero]
  · simp [declare, zero]

theorem declare_declared (given atoms : Nat) (latest : List Clause) :
    (declared given latest).declare atoms =
      (.error (.alreadyDeclared given), declared given latest) := by
  simp [declare]

theorem addClause_blank (literals : List Int) :
    blank.addClause literals = (.error .notDeclared, blank) := by
  simp [addClause]

theorem addClause_declared (atoms : Nat) (latest : List Clause) (literals : List Int) :
    (declared atoms latest).addClause literals =
      match literals.mapM (readLiteral atoms) with
      | .error refusal => (.error refusal, declared atoms latest)
      | .ok c => (.ok (), declared atoms (c :: latest)) := by
  cases read : literals.mapM (readLiteral atoms) with
  | error refusal => simp [addClause, read]
  | ok c => simp [addClause, read]

theorem declare_blank_eq_ok_iff {p : Problem} {atoms : Nat} :
    blank.declare atoms = (.ok (), p) ↔ 1 ≤ atoms ∧ p = .declared atoms [] := by
  rw [declare_blank, Nat.one_le_iff_ne_zero]
  by_cases zero : atoms = 0
  · simp [zero]
  · simp [zero, eq_comm]

theorem readLiteral_eq_ok_iff {atoms : Nat} {x : Int} {l : Literal} :
    readLiteral atoms x = .ok l ↔
      (x ≠ 0 ∧ x.natAbs ≤ atoms) ∧ Literal.ofSigned? x = some l := by
  unfold readLiteral Literal.ofSigned?
  by_cases zero : x = 0
  · simp [zero]
  · by_cases low : x.natAbs ≤ atoms
    · simp [zero, low]
    · simp [zero, low]

/-- A list of integers is read exactly if none is zero or beyond the atom count,
and then as the literals that they stand for. -/
theorem mapM_readLiteral_eq_ok_iff {atoms : Nat} {xs : List Int} {c : Clause} :
    xs.mapM (readLiteral atoms) = .ok c ↔
      (∀ x ∈ xs, x ≠ 0 ∧ x.natAbs ≤ atoms) ∧ c = xs.filterMap Literal.ofSigned? := by
  induction xs generalizing c with
  | nil => exact ⟨fun h => by cases h; simp, fun h => h.2 ▸ rfl⟩
  | cons x xs ih =>
    rw [List.mapM_cons, List.forall_mem_cons]
    cases first : readLiteral atoms x with
    | error refusal =>
      have refused : ¬ (x ≠ 0 ∧ x.natAbs ≤ atoms) := by
        rintro ⟨nonzero, low⟩
        have read := readLiteral_eq_ok_iff.mpr ⟨⟨nonzero, low⟩, if_neg nonzero⟩
        cases first.symm.trans read
      exact ⟨(nomatch ·), fun h => absurd h.1.1 refused⟩
    | ok l =>
      obtain ⟨range, literal⟩ := readLiteral_eq_ok_iff.mp first
      rw [List.filterMap_cons_some literal]
      cases tail : xs.mapM (readLiteral atoms) with
      | error refusal =>
        have refused : ¬ ∀ x ∈ xs, x ≠ 0 ∧ x.natAbs ≤ atoms := fun all => by
          cases tail.symm.trans (ih.mpr ⟨all, rfl⟩)
        exact ⟨(nomatch ·), fun h => absurd h.1.2 refused⟩
      | ok rest =>
        obtain ⟨all, rfl⟩ := ih.mp tail
        exact ⟨fun h => by cases h; exact ⟨⟨range, all⟩, rfl⟩, fun ⟨_, read⟩ => read ▸ rfl⟩

/-- A clause is added exactly if every literal of it is on a declared atom. -/
theorem addClause_declared_eq_ok_iff {atoms : Nat} {latest : List Clause} {literals : List Int}
    {p : Problem} : (declared atoms latest).addClause literals = (.ok (), p) ↔
      (∀ x ∈ literals, x ≠ 0 ∧ x.natAbs ≤ atoms) ∧
        p = .declared atoms (literals.filterMap Literal.ofSigned? :: latest) := by
  rw [addClause_declared]
  cases read : literals.mapM (readLiteral atoms) with
  | error refusal =>
    have refused : ¬ ∀ x ∈ literals, x ≠ 0 ∧ x.natAbs ≤ atoms := fun all => by
      cases read.symm.trans (mapM_readLiteral_eq_ok_iff.mpr ⟨all, rfl⟩)
    simp [refused]
  | ok c =>
    obtain ⟨all, rfl⟩ := mapM_readLiteral_eq_ok_iff.mp read
    rw [and_iff_right all, Prod.mk.injEq, and_iff_right rfl, eq_comm]

/-! ### What a refusal leaves -/

/-- A refused declaration leaves the problem as it was, since both checks come before
the problem is replaced. -/
theorem declare_of_refused {p : Problem} {atoms : Nat} {refusal : ProblemError}
    (refused : (p.declare atoms).1 = .error refusal) : (p.declare atoms).2 = p := by
  cases p with
  | declared given latest => rw [declare_declared]
  | blank =>
    rw [declare_blank] at refused ⊢
    by_cases zero : atoms = 0
    · rw [if_pos zero]
    · rw [if_neg zero] at refused
      cases refused

/-- A refused clause leaves the problem as it was, since all of its literals are read
before it is added. -/
theorem addClause_of_refused {p : Problem} {literals : List Int} {refusal : ProblemError}
    (refused : (p.addClause literals).1 = .error refusal) : (p.addClause literals).2 = p := by
  cases p with
  | blank => rw [addClause_blank]
  | declared atoms latest =>
    rw [addClause_declared] at refused ⊢
    cases read : literals.mapM (readLiteral atoms) with
    | error reason => rfl
    | ok c =>
      rw [read] at refused
      cases refused

/-! ### Range of the literals -/

/-- Integers that are not zero or beyond the atom count stand for literals in
range. -/
theorem inRange_of_mem_filterMap {atoms : Nat} {xs : List Int}
    (range : ∀ x ∈ xs, x ≠ 0 ∧ x.natAbs ≤ atoms) :
    ∀ l ∈ xs.filterMap Literal.ofSigned?, l.InRange atoms := by
  intro l mem
  obtain ⟨x, inside, literal⟩ := List.mem_filterMap.mp mem
  obtain ⟨nonzero, rfl⟩ := Literal.ofSigned?_eq_some_iff.mp literal
  exact ⟨Int.natAbs_pos.mpr nonzero, (range x inside).2⟩

/-- Every clause added so far has its literals in range. -/
def WellFormed : Problem → Prop
  | .blank => True
  | .declared atoms latest => 1 ≤ atoms ∧ ∀ c ∈ latest, ∀ l ∈ c, l.InRange atoms

theorem wellFormed_declare {p : Problem} (wf : p.WellFormed) (atoms : Nat) :
    (p.declare atoms).2.WellFormed := by
  cases p with
  | declared given latest => rwa [declare_declared]
  | blank =>
    rw [declare_blank]
    by_cases zero : atoms = 0
    · rw [if_pos zero]
      trivial
    · rw [if_neg zero]
      exact ⟨Nat.one_le_iff_ne_zero.mpr zero, by simp⟩

theorem wellFormed_addClause {p : Problem} (wf : p.WellFormed) (literals : List Int) :
    (p.addClause literals).2.WellFormed := by
  cases p with
  | blank => rwa [addClause_blank]
  | declared atoms latest =>
    rw [addClause_declared]
    cases read : literals.mapM (readLiteral atoms) with
    | error refusal => exact wf
    | ok c =>
      obtain ⟨range, rfl⟩ := mapM_readLiteral_eq_ok_iff.mp read
      exact ⟨wf.1, List.forall_mem_cons.mpr ⟨inRange_of_mem_filterMap range, wf.2⟩⟩

/-- The formula of a well-formed problem is well-formed. -/
theorem wellFormed_of_formula_eq_ok {p : Problem} {f : Formula} (wf : p.WellFormed)
    (h : p.formula = .ok f) : f.WellFormed := by
  cases p with
  | blank => cases h
  | declared atoms latest =>
    cases h
    intro c mem
    exact wf.2 c (List.mem_reverse.mp mem)

end Problem

end DavisPutnam
