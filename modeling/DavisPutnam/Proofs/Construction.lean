import DavisPutnam.Session

/-!
What a history of commands makes of a problem.

The first positive atom count that is declared counts, and no later one. From
then on every clause whose literals are all on one of these atoms is added, in
order (`Session.after_declared`); before it nothing is (`Session.after_undeclared`).
The session holds whatever problem an operation leaves, so that a refused command
changes nothing (`Session.perform_of_refused`) comes from the operations, which check
before they write. A refused clause is refused for its first literal that cannot be
read (`Problem.addClause_eq_error_iff`).

`Session.after_history` says all of this for every history in which the formula is
never taken out of the session.
-/

namespace DavisPutnam

/-! ### Refusals -/

namespace Problem

theorem readLiteral_eq_error_iff {atoms : Nat} {x : Int} {refusal : ProblemError} :
    readLiteral atoms x = .error refusal ↔
      (x = 0 ∧ refusal = .zeroLiteral) ∨
        (x ≠ 0 ∧ atoms < x.natAbs ∧ refusal = .atomOutOfRange x atoms) := by
  unfold readLiteral Literal.ofSigned?
  by_cases zero : x = 0
  · simp [zero, eq_comm]
  · by_cases low : x.natAbs ≤ atoms
    · simp [zero, low, Nat.not_lt.mpr low]
    · simp [zero, low, Nat.lt_of_not_le low, eq_comm]

/-- A list of integers is refused for the first of them that cannot be read. -/
theorem mapM_readLiteral_eq_error_iff {atoms : Nat} {xs : List Int} {refusal : ProblemError} :
    xs.mapM (readLiteral atoms) = .error refusal ↔
      ∃ read x rest, xs = read ++ x :: rest ∧ (∀ y ∈ read, y ≠ 0 ∧ y.natAbs ≤ atoms) ∧
        readLiteral atoms x = .error refusal := by
  induction xs with
  | nil =>
    refine ⟨(nomatch ·), ?_⟩
    rintro ⟨read, x, rest, shape, _⟩
    simp at shape
  | cons x xs ih =>
    rw [List.mapM_cons]
    cases first : readLiteral atoms x with
    | error reason =>
      constructor
      · intro same
        cases same
        exact ⟨[], x, xs, rfl, List.forall_mem_nil _, first⟩
      · rintro ⟨read, y, rest, shape, range, failed⟩
        cases read with
        | nil =>
          cases shape
          cases first.symm.trans failed
          rfl
        | cons z read =>
          cases shape
          have readable := readLiteral_eq_ok_iff.mpr
            ⟨range x List.mem_cons_self, if_neg (range x List.mem_cons_self).1⟩
          cases first.symm.trans readable
    | ok l =>
      have range : x ≠ 0 ∧ x.natAbs ≤ atoms := (readLiteral_eq_ok_iff.mp first).1
      have tail : (do return l :: (← xs.mapM (readLiteral atoms))) = Except.error refusal ↔
          xs.mapM (readLiteral atoms) = .error refusal := by
        cases xs.mapM (readLiteral atoms) with
        | error reason => exact Iff.rfl
        | ok c => exact ⟨(nomatch ·), (nomatch ·)⟩
      refine tail.trans (ih.trans ?_)
      constructor
      · rintro ⟨read, y, rest, rfl, others, failed⟩
        exact ⟨x :: read, y, rest, rfl, List.forall_mem_cons.mpr ⟨range, others⟩, failed⟩
      · rintro ⟨read, y, rest, shape, others, failed⟩
        cases read with
        | nil =>
          cases shape
          cases first.symm.trans failed
        | cons z read =>
          cases shape
          exact ⟨read, y, rest, rfl, (List.forall_mem_cons.mp others).2, failed⟩

/-- A clause is refused if no atom count is declared, or else for its first
literal that is 0 or beyond the atom count. -/
theorem addClause_eq_error_iff {p : Problem} {xs : List Int} {refusal : ProblemError} :
    (p.addClause xs).1 = .error refusal ↔
      (p = .blank ∧ refusal = .notDeclared) ∨
        ∃ f, p.formula = .ok f ∧ ∃ read x rest, xs = read ++ x :: rest ∧
          (∀ y ∈ read, y ≠ 0 ∧ y.natAbs ≤ f.atoms) ∧
          ((x = 0 ∧ refusal = .zeroLiteral) ∨
            (x ≠ 0 ∧ f.atoms < x.natAbs ∧ refusal = .atomOutOfRange x f.atoms)) := by
  cases p with
  | blank => simp [addClause_blank, formula, eq_comm]
  | declared atoms latest =>
    have refused : ((declared atoms latest).addClause xs).1 = .error refusal ↔
        xs.mapM (readLiteral atoms) = .error refusal := by
      rw [addClause_declared]
      cases read : xs.mapM (readLiteral atoms) with
      | error reason => simp
      | ok c => simp
    rw [refused, mapM_readLiteral_eq_error_iff]
    simp [formula, readLiteral_eq_error_iff]

end Problem

namespace Session

/-! ### One command -/

variable {s : Session} {command : Command}

theorem problem_update (result : Except ProblemError Unit × Problem) :
    (s.update result).1.problem = result.2 := by
  match result with
  | (.ok (), p) => rfl
  | (.error refusal, p) => rfl

/-- A refused operation on the problem leaves the session as it was if it leaves the
problem as it was. -/
theorem update_of_refused {result : Except ProblemError Unit × Problem} {refusal : ProblemError}
    (keeps : result.1 = .error refusal → result.2 = s.problem)
    (refused : (s.update result).2 = .refused refusal) : (s.update result).1 = s := by
  match result with
  | (.ok (), p) => cases refused
  | (.error reason, p) =>
    cases refused
    obtain rfl : p = s.problem := keeps rfl
    rfl

/-- A refused command leaves the session as it was, unless it takes the formula. -/
theorem perform_of_refused {refusal : ProblemError} (other : command ≠ .takeFormula)
    (refused : (s.perform command).2 = .refused refusal) : (s.perform command).1 = s := by
  cases command with
  | declare atoms => exact update_of_refused Problem.declare_of_refused refused
  | add literals => exact update_of_refused Problem.addClause_of_refused refused
  | takeFormula => exact absurd rfl other
  | formula | run | prepare | solve | stats | check =>
    simp only [perform] at refused ⊢
    split at refused
    all_goals first | rfl | cases refused

theorem problem_remember (verdict : Except Fault Verdict) :
    (s.remember verdict).problem = s.problem := by
  unfold remember
  split <;> rfl

/-- Only a declaration, a clause or the taking of the formula changes the problem. -/
theorem problem_perform_of_other (kept : command ≠ .takeFormula)
    (undeclared : ∀ atoms, command ≠ .declare atoms)
    (unadded : ∀ literals, command ≠ .add literals) :
    (s.perform command).1.problem = s.problem := by
  cases command with
  | declare atoms => exact absurd rfl (undeclared atoms)
  | add literals => exact absurd rfl (unadded literals)
  | takeFormula => exact absurd rfl kept
  | run =>
    simp only [perform]
    split
    · exact problem_remember _
    · rfl
  | solve =>
    simp only [perform]
    split
    · rfl
    · exact problem_remember _
  | formula | prepare | stats | check =>
    simp only [perform]
    split <;> rfl

/-- The atom count that a command declares; 0 is none. -/
def Command.atoms? : Command → Option Nat
  | .declare atoms => if atoms = 0 then none else some atoms
  | _ => none

/-- The clause that a command adds to a problem over the atoms `1, …, atoms`: the
literals of its integers if none of these is 0 or beyond the atom count. -/
def Command.clause? (atoms : Nat) : Command → Option Clause
  | .add literals =>
    if ∀ x ∈ literals, x ≠ 0 ∧ x.natAbs ≤ atoms then some (literals.filterMap Literal.ofSigned?)
    else none
  | _ => none

theorem problem_perform_of_blank (blank : s.problem = .blank) (kept : command ≠ .takeFormula) :
    (s.perform command).1.problem = (command.atoms?.map (Problem.declared · [])).getD .blank := by
  cases command with
  | declare atoms =>
    rw [perform, problem_update, blank, Problem.declare_blank, Command.atoms?]
    by_cases zero : atoms = 0
    · simp [zero]
    · simp [zero]
  | add literals =>
    rw [perform, problem_update, blank, Problem.addClause_blank]
    rfl
  | takeFormula => exact absurd rfl kept
  | formula | run | prepare | solve | stats | check =>
    rw [problem_perform_of_other kept (by simp) (by simp), blank]
    rfl

theorem problem_perform_of_declared {atoms : Nat} {latest : List Clause}
    (declared : s.problem = .declared atoms latest) (kept : command ≠ .takeFormula) :
    (s.perform command).1.problem =
      .declared atoms ((command.clause? atoms).toList ++ latest) := by
  cases command with
  | declare given =>
    rw [perform, problem_update, declared, Problem.declare_declared]
    rfl
  | add literals =>
    rw [perform, problem_update, declared, Command.clause?]
    by_cases range : ∀ x ∈ literals, x ≠ 0 ∧ x.natAbs ≤ atoms
    · rw [Problem.addClause_declared_eq_ok_iff.mpr ⟨range, rfl⟩, if_pos range]
      rfl
    · rw [if_neg range]
      match added : (Problem.declared atoms latest).addClause literals with
      | (.error refusal, p) =>
        have kept := Problem.addClause_of_refused (congrArg Prod.fst added)
        rwa [added] at kept
      | (.ok (), p) => exact absurd (Problem.addClause_declared_eq_ok_iff.mp added).1 range
  | takeFormula => exact absurd rfl kept
  | formula | run | prepare | solve | stats | check =>
    rw [problem_perform_of_other kept (by simp) (by simp), declared]
    rfl

/-! ### Histories -/

/-- The session after further commands. -/
def afterAll (s : Session) (commands : List Command) : Session :=
  commands.foldl (fun t command => (t.perform command).1) s

/-- The session after a history, from the start. -/
def after (history : List Command) : Session :=
  afterAll {} history

theorem afterAll_append (s : Session) (first second : List Command) :
    s.afterAll (first ++ second) = (s.afterAll first).afterAll second :=
  List.foldl_append

/-- What the session has and every command of the list keeps, it has after them all. -/
theorem afterAll_invariant {P : Session → Prop} (initial : P s) {commands : List Command}
    (preserved : ∀ t command, command ∈ commands → P t → P (t.perform command).1) :
    P (s.afterAll commands) := by
  induction commands generalizing s with
  | nil => exact initial
  | cons command commands ih =>
    have next : P (s.perform command).1 := preserved s command List.mem_cons_self initial
    exact ih next fun t later mem => preserved t later (List.mem_cons_of_mem command mem)

/-- Once an atom count is declared it stays, and the clauses over these atoms are
added one after another. -/
theorem problem_afterAll_of_declared {atoms : Nat} {latest : List Clause}
    (declared : s.problem = .declared atoms latest) {commands : List Command}
    (kept : Command.takeFormula ∉ commands) :
    (s.afterAll commands).problem =
      .declared atoms ((commands.filterMap (Command.clause? atoms)).reverse ++ latest) := by
  induction commands generalizing s latest with
  | nil => exact declared
  | cons command commands ih =>
    obtain ⟨other, rest⟩ : command ≠ .takeFormula ∧ Command.takeFormula ∉ commands := by
      simpa [eq_comm] using kept
    have next := ih (problem_perform_of_declared declared other) rest
    rw [afterAll, List.foldl_cons]
    refine next.trans ?_
    rw [List.filterMap_cons]
    cases command.clause? atoms with
    | none => rfl
    | some c => simp

/-- As long as no positive atom count is declared, the problem stays blank. -/
theorem problem_afterAll_of_undeclared (blank : s.problem = .blank) {commands : List Command}
    (kept : Command.takeFormula ∉ commands) (undeclared : ∀ n, .declare n ∈ commands → n = 0) :
    (s.afterAll commands).problem = .blank := by
  refine afterAll_invariant (P := fun t => t.problem = .blank) blank ?_
  intro t command mem still
  have other : command ≠ .takeFormula := fun same => kept (same ▸ mem)
  have none : command.atoms? = none := by
    cases command with
    | declare atoms =>
      have zero : atoms = 0 := undeclared atoms mem
      exact if_pos zero
    | _ => rfl
  rw [problem_perform_of_blank still other, none]
  rfl

/-- The first positive atom count that is declared counts, and the clauses are
those added after it. -/
theorem after_declared {earlier later : List Command} {n : Nat} (positive : n ≠ 0)
    (kept : Command.takeFormula ∉ earlier ++ .declare n :: later)
    (first : ∀ k, .declare k ∈ earlier → k = 0) :
    (after (earlier ++ .declare n :: later)).problem =
      .declared n (later.filterMap (Command.clause? n)).reverse := by
  obtain ⟨before, rest⟩ : Command.takeFormula ∉ earlier ∧ Command.takeFormula ∉ later := by
    simpa using kept
  have blank : (afterAll {} earlier).problem = .blank :=
    problem_afterAll_of_undeclared rfl before first
  have started : ((afterAll {} earlier).perform (.declare n)).1.problem = .declared n [] := by
    rw [problem_perform_of_blank blank (by simp), Command.atoms?, if_neg positive]
    rfl
  rw [after, afterAll_append]
  exact (problem_afterAll_of_declared started rest).trans (by rw [List.append_nil])

theorem after_undeclared {history : List Command} (kept : Command.takeFormula ∉ history)
    (undeclared : ∀ n, .declare n ∈ history → n = 0) : (after history).problem = .blank :=
  problem_afterAll_of_undeclared rfl kept undeclared

/-- A history declares no positive atom count, or there is a first one. -/
theorem undeclared_or_exists_first (history : List Command) :
    (∀ n, .declare n ∈ history → n = 0) ∨
      ∃ earlier n later, history = earlier ++ .declare n :: later ∧ n ≠ 0 ∧
        ∀ k, .declare k ∈ earlier → k = 0 := by
  induction history with
  | nil => exact .inl (by simp)
  | cons command history ih =>
    by_cases positive : ∃ n, command = .declare n ∧ n ≠ 0
    · obtain ⟨n, rfl, nonzero⟩ := positive
      exact .inr ⟨[], n, history, rfl, nonzero, by simp⟩
    · have zero (n : Nat) (same : Command.declare n = command) : n = 0 :=
        Classical.byContradiction fun nonzero => positive ⟨n, same.symm, nonzero⟩
      rcases ih with undeclared | ⟨earlier, n, later, rfl, nonzero, first⟩
      · refine .inl fun n mem => ?_
        rcases List.mem_cons.mp mem with same | mem
        · exact zero n same
        · exact undeclared n mem
      · refine .inr ⟨command :: earlier, n, later, rfl, nonzero, fun k mem => ?_⟩
        rcases List.mem_cons.mp mem with same | mem
        · exact zero k same
        · exact first k mem

/-- No command but the taking of the formula breaks the range of the literals. -/
theorem wellFormed_perform (wf : s.problem.WellFormed) (kept : command ≠ .takeFormula) :
    (s.perform command).1.problem.WellFormed := by
  cases command with
  | declare atoms =>
    rw [perform, problem_update]
    exact Problem.wellFormed_declare wf atoms
  | add literals =>
    rw [perform, problem_update]
    exact Problem.wellFormed_addClause wf literals
  | takeFormula => exact absurd rfl kept
  | formula | run | prepare | solve | stats | check =>
    rw [problem_perform_of_other kept (by simp) (by simp)]
    exact wf

theorem wellFormed_afterAll (wf : s.problem.WellFormed) {commands : List Command}
    (kept : Command.takeFormula ∉ commands) : (s.afterAll commands).problem.WellFormed := by
  refine afterAll_invariant (P := fun t => t.problem.WellFormed) wf ?_
  intro t command mem before
  exact wellFormed_perform before fun same => kept (same ▸ mem)

/-- **History.** As long as the formula is not taken out, the problem is what its
history of declarations and clauses makes of it. A refused command leaves all as it
was, and looking at the formula or solving it leaves the problem. The problem is
blank until a positive atom count is declared. The first of these counts, with the
clauses over its atoms added since, in order. A clause is refused if there is no atom
count yet, or else for its first literal that is 0 or beyond it. So a formula has at
least one atom, and its literals are in range. -/
theorem after_history {history : List Command} (kept : Command.takeFormula ∉ history) :
    (∀ command refusal, command ≠ .takeFormula →
        ((after history).perform command).2 = .refused refusal →
          ((after history).perform command).1 = after history) ∧
      (∀ command, command = .formula ∨ command = .run →
        ((after history).perform command).1.problem = (after history).problem) ∧
      ((after history).problem = .blank ↔ ∀ n, .declare n ∈ history → n = 0) ∧
      (∀ earlier n later, history = earlier ++ .declare n :: later → n ≠ 0 →
        (∀ k, .declare k ∈ earlier → k = 0) →
          (after history).problem.formula = .ok ⟨n, later.filterMap (Command.clause? n)⟩) ∧
      (∀ literals refusal, ((after history).perform (.add literals)).2 = .refused refusal ↔
        ((after history).problem = .blank ∧ refusal = .notDeclared) ∨
          ∃ f, (after history).problem.formula = .ok f ∧ ∃ read x rest,
            literals = read ++ x :: rest ∧ (∀ y ∈ read, y ≠ 0 ∧ y.natAbs ≤ f.atoms) ∧
            ((x = 0 ∧ refusal = .zeroLiteral) ∨
              (x ≠ 0 ∧ f.atoms < x.natAbs ∧ refusal = .atomOutOfRange x f.atoms))) ∧
      ∀ f, ((after history).perform .formula).2 = .formula f → 1 ≤ f.atoms ∧ f.WellFormed := by
  refine ⟨fun command refusal => perform_of_refused, ?_, ?_, ?_, ?_, ?_⟩
  · rintro command (rfl | rfl)
    · exact problem_perform_of_other (by simp) (by simp) (by simp)
    · exact problem_perform_of_other (by simp) (by simp) (by simp)
  · refine ⟨fun blank => ?_, after_undeclared kept⟩
    rcases undeclared_or_exists_first history with
      undeclared | ⟨earlier, n, later, rfl, positive, first⟩
    · exact undeclared
    · cases blank.symm.trans (after_declared positive kept first)
  · rintro earlier n later rfl positive first
    rw [after_declared positive kept first, Problem.formula, List.reverse_reverse]
  · intro literals refusal
    rw [← Problem.addClause_eq_error_iff, perform]
    match (after history).problem.addClause literals with
    | (.error reason, p) => simp [update]
    | (.ok (), p) => simp [update]
  · intro f shown
    have wf : (after history).problem.WellFormed := wellFormed_afterAll (s := {}) trivial kept
    simp only [perform] at shown
    cases problem : (after history).problem with
    | blank => simp [problem, Problem.formula] at shown
    | declared atoms latest =>
      rw [problem] at wf shown
      cases shown
      exact ⟨wf.1, Problem.wellFormed_of_formula_eq_ok wf rfl⟩

/-- Refused and accepted commands, with literals at the ends of the signed range. -/
def interleaved : List Command :=
  [.add [1], .declare 0, .declare 9223372036854775807, .add [1, -9223372036854775807], .run,
    .add [2, -9223372036854775808, 0], .declare 5, .add [], .add [3, 0, 9223372036854775807]]

/-- Of the four clauses after the declaration of `interleaved` two are added, and a
literal beyond the atom count is refused before a 0 that follows it. -/
theorem after_history_interleaved : Command.takeFormula ∉ interleaved ∧
    (after interleaved).problem.formula = .ok ⟨9223372036854775807,
      [[⟨1, true⟩, ⟨9223372036854775807, false⟩], []]⟩ ∧
    ((after interleaved).perform (.add [2, -9223372036854775808, 0])).2 =
      .refused (.atomOutOfRange (-9223372036854775808) 9223372036854775807) := by
  have kept : Command.takeFormula ∉ interleaved := by decide
  obtain ⟨_, _, _, built, refused, _⟩ := after_history kept
  have formula := built [.add [1], .declare 0] 9223372036854775807 _ rfl (by decide) (by simp)
  refine ⟨kept, formula, (refused _ _).mpr (.inr ⟨_, formula, [2], _, [0], rfl, ?_, .inr ?_⟩)⟩
  · decide
  · exact ⟨by decide, by decide, rfl⟩

end Session

end DavisPutnam
