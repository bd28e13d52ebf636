import DavisPutnam.Proofs.Exploration
import DavisPutnam.Proofs.Journal

/-!
The search over a stack is the recursive search.

Running a stack means searching its top branch by recursion and, only if that is refuted,
running the branches beneath it (`SearchState.run_cons`). The waiting branches thus play the
part of the pending calls: a split pushes the false branch as it was at the split, a
refutation resumes it untouched, and a model drops whatever still waits.

The search over a stack writes all that it does into one journal, while each recursive call
gives its own account. The journal after a call is the one before it, extended by the account
(`Journal.extend`). Hence both searches give the same answer, the same events and the same
counters (`Formula.conclusion_solve`), and for a well-formed formula these are the ones that
the recursive procedure arrives at (`Formula.concludes_iff`).
-/

namespace DavisPutnam

/-! ### Accounts -/

namespace Stats

variable (s t u : Stats)

theorem empty_plus : ({} : Stats).plus s = s := by
  simp [plus]

theorem plus_empty : s.plus {} = s := by
  simp [plus]

theorem plus_assoc : (s.plus t).plus u = s.plus (t.plus u) := by
  simp [plus, Nat.add_assoc, Nat.max_assoc]

end Stats

namespace Account

variable (t u v : Account)

theorem empty_append : ({} : Account) ++ t = t := by
  show append {} t = t
  rw [append, Stats.empty_plus, List.nil_append]

theorem append_empty : t ++ ({} : Account) = t := by
  show append t {} = t
  rw [append, Stats.plus_empty, List.append_nil]

theorem append_assoc : t ++ u ++ v = t ++ (u ++ v) := by
  show append (append t u) v = append t (append u v)
  simp only [append, Stats.plus_assoc, List.append_assoc]

theorem empty_before (found : Finding × Account) : ({} : Account).before found = found := by
  rw [before, empty_append]

theorem append_before (found : Finding × Account) :
    (t ++ u).before found = t.before (u.before found) := by
  rw [before, append_assoc]
  rfl

end Account

/-! ### Journals that are extended by accounts -/

/-- The journal after the part of a search that `t` accounts for. -/
def Journal.extend (j : Journal) (t : Account) : Journal where
  stats := j.stats.plus t.stats
  latest := t.events.reverse ++ j.latest

namespace Journal

variable (j : Journal) (t u : Account) (l : Literal) (depth : Nat)

theorem extend_empty : j.extend {} = j := by
  rw [extend, Stats.plus_empty]
  rfl

theorem extend_append : j.extend (t ++ u) = (j.extend t).extend u := by
  show j.extend (t.append u) = _
  simp only [extend, Account.append, Stats.plus_assoc, List.reverse_append, List.append_assoc]

theorem bound_eq_extend {reason : Reason} (forced : reason ≠ .decision) :
    j.bound reason l depth = j.extend (.binding reason l depth) := by
  cases reason with
  | decision => exact absurd rfl forced
  | pure => simp [bound, record, extend, Account.binding, Stats.plus, Stats.countBinding]
  | unit => simp [bound, record, extend, Account.binding, Stats.plus, Stats.countBinding]

theorem bound_enter_eq_extend :
    (j.enter depth).bound .decision l depth = j.extend (.binding .decision l depth) := by
  simp [bound, enter, record, extend, Account.binding, Stats.plus, Stats.countBinding]

theorem conflict_eq_extend : j.conflict depth = j.extend (.conflict depth) := by
  simp [conflict, record, extend, Account.conflict, Stats.plus]

theorem events_extend_empty : (({} : Journal).extend t).events = t.events := by
  rw [events, extend, List.append_nil, List.reverse_reverse]

theorem stats_extend_empty : (({} : Journal).extend t).stats = t.stats :=
  t.stats.empty_plus

end Journal

/-! ### One node -/

/-- What is found below a node at which simplification comes to the outcome. -/
def Outcome.explore (depth : Nat) : Outcome → Finding × Account
  | .satisfied model => (.model model depth, {})
  | .conflict => (.refuted, .conflict depth)
  | .split atom rest a => branchOn atom (depth + 1) rest a
  | .faulted fault => (.faulted fault, {})

/-- Simplification is the first part of the recursive search below a node. -/
theorem exists_account_of_simplify {depth : Nat} {clauses : List Clause} {a : Assignment}
    {j k : Journal} {out : Outcome} (simplified : simplify depth clauses a j = (out, k)) :
    ∃ t, k = j.extend t ∧ descend depth clauses a = t.before (out.explore depth) := by
  -- Where a pass binds nothing, the account of the simplification is empty.
  have idle {clauses : List Clause} {a : Assignment} {j : Journal} {out : Outcome}
      (found : descend depth clauses a = out.explore depth) :
      ∃ t, j = j.extend t ∧ descend depth clauses a = t.before (out.explore depth) :=
    ⟨{}, j.extend_empty.symm, found.trans (Account.empty_before _).symm⟩
  fun_induction simplify depth clauses a j with
  | case1 clauses a j settled =>
    cases simplified
    obtain rfl := List.isEmpty_iff.mp settled
    exact idle descend_nil
  | case2 clauses a j inhabited conflict =>
    cases simplified
    obtain ⟨c, mem, empty⟩ := List.any_eq_true.mp conflict
    obtain rfl := List.isEmpty_iff.mp empty
    exact idle (descend_of_nil_mem mem)
  | case3 clauses a j inhabited peaceful fault failed =>
    cases simplified
    apply idle
    rw [descend_of_undecided (Undecided.of_ne_true inhabited peaceful), failed]
    rfl
  | case4 clauses a j inhabited peaceful reason l forced fault failed =>
    cases simplified
    refine ⟨_, j.bound_eq_extend l depth (reason_ne_decision_of_forced? forced), ?_⟩
    rw [descend_of_forced (Undecided.of_ne_true inhabited peaceful) forced,
      follow_of_fault failed, Outcome.explore, Account.before, Account.append_empty]
  | case5 clauses a j inhabited peaceful reason l forced rest b committed ih =>
    obtain ⟨t, rfl, next⟩ := ih simplified
    refine ⟨.binding reason l depth ++ t, ?_, ?_⟩
    · rw [Journal.extend_append,
        j.bound_eq_extend l depth (reason_ne_decision_of_forced? forced)]
    · rw [descend_of_forced (Undecided.of_ne_true inhabited peaceful) forced,
        follow_of_commit committed, next, Account.append_before]
  | case6 clauses a j inhabited peaceful unforced atom lowest =>
    cases simplified
    exact idle (descend_of_unforced (Undecided.of_ne_true inhabited peaceful) unforced lowest)
  | case7 clauses a j inhabited peaceful unforced unbound =>
    cases simplified
    apply idle
    rw [descend_of_undecided (Undecided.of_ne_true inhabited peaceful), unforced]
    simp only [unbound]
    rfl

/-! ### One branch -/

namespace Branch

variable (b : Branch)

/-- The account of entering a branch. -/
def opening : Account :=
  match b.decision with
  | none => { stats := { maxDepth := b.depth } }
  | some l => .binding .decision l b.depth

theorem announce_eq_extend (j : Journal) : b.announce j = j.extend b.opening := by
  unfold announce opening
  cases b.decision with
  | none => simp [Journal.enter, Journal.extend, Stats.plus]
  | some l => exact j.bound_enter_eq_extend l b.depth

/-- Searches below a branch by recursion: applies its decision, then descends. -/
def search : Finding × Account :=
  match b.entered with
  | .error fault => (.faulted fault, b.opening)
  | .ok (clauses, a) => b.opening.before (descend b.depth clauses a)

theorem search_below (atom : Nat) (value : Bool) (clauses : List Clause) (a : Assignment) :
    (b.below atom value clauses a).search =
      follow .decision ⟨atom, value⟩ (b.depth + 1) clauses a := by
  unfold search entered below
  cases committed : commit ⟨atom, value⟩ clauses a with
  | error fault =>
    rw [follow_of_fault committed]
    simp only [committed]
    rfl
  | ok node =>
    rw [follow_of_commit committed]
    simp only [committed]
    rfl

theorem expand_of_fault {fault : Fault} (failed : b.entered = .error fault) (j : Journal) :
    b.expand j = (.faulted fault, b.announce j) := by
  unfold entered at failed
  unfold expand announce
  cases decision : b.decision with
  | none => simp [decision] at failed
  | some l =>
    rw [decision] at failed
    simp only [failed]

/-- Expanding a branch is the first part of the recursive search below it. -/
theorem exists_account_of_expand {j k : Journal} {out : Outcome}
    (expanded : b.expand j = (out, k)) :
    ∃ t, k = j.extend t ∧ b.search = t.before (out.explore b.depth) := by
  unfold search
  cases entered : b.entered with
  | error fault =>
    cases (b.expand_of_fault entered j).symm.trans expanded
    refine ⟨b.opening, b.announce_eq_extend j, ?_⟩
    rw [Outcome.explore, Account.before, Account.append_empty]
  | ok start =>
    obtain ⟨clauses, a⟩ := start
    have simplified := (expand_of_entered entered j).symm.trans expanded
    obtain ⟨t, rfl, found⟩ := exists_account_of_simplify simplified
    refine ⟨b.opening ++ t, ?_, ?_⟩
    · rw [Journal.extend_append, announce_eq_extend]
    · rw [Account.append_before, ← found]

end Branch

/-! ### The whole stack -/

namespace SearchState

/-- What a search does with the finding of its top branch while `rest` waits. `j` is the
journal before that branch. -/
def resume (rest : List Branch) (j : Journal) : Finding × Account → Run
  | (.model model depth, t) =>
    ⟨.ok (.satisfiable model), (j.extend t).record (.satisfiable depth (j.extend t).stats)⟩
  | (.refuted, t) => run ⟨rest, j.extend t⟩
  | (.faulted fault, t) => ⟨.error fault, j.extend t⟩

theorem resume_before (rest : List Branch) (j : Journal) (t : Account)
    (found : Finding × Account) :
    resume rest j (t.before found) = resume rest (j.extend t) found := by
  obtain ⟨finding, u⟩ := found
  cases finding <;> simp only [Account.before, resume, Journal.extend_append]

/-- Running a stack searches its top branch and goes on with the rest of it only
after a refutation. -/
theorem run_cons (b : Branch) (rest : List Branch) (j : Journal) :
    (SearchState.mk (b :: rest) j).run = resume rest j b.search := by
  -- The branches of a split have less room, and the induction is for any stack beneath.
  induction room : b.room using Nat.strongRecOn generalizing b rest j with
  | ind n ih =>
    cases expanded : b.expand j with
    | mk out k =>
      obtain ⟨t, rfl, searched⟩ := b.exists_account_of_expand expanded
      rw [searched, resume_before]
      cases out with
      | satisfied model =>
        rw [Outcome.explore, resume, Journal.extend_empty]
        exact run_of_halted (by simp only [step, expanded])
      | conflict =>
        rw [Outcome.explore, resume, ← Journal.conflict_eq_extend]
        exact run_of_running (step_of_conflict expanded)
      | faulted fault =>
        rw [Outcome.explore, resume, Journal.extend_empty]
        exact run_of_halted (by simp only [step, expanded])
      | split atom clauses a =>
        have fewer : a.unboundCount < n := room ▸ Branch.unboundCount_lt_room expanded
        rw [run_of_running (step_of_split expanded), ih _ fewer _ _ _ rfl, Branch.search_below,
          Outcome.explore, branchOn]
        cases follow .decision ⟨atom, true⟩ (b.depth + 1) clauses a with
        | mk finding first =>
          cases finding with
          | model model depth => rfl
          | faulted fault => rfl
          | refuted =>
            dsimp only
            rw [resume, ih _ fewer _ _ _ rfl, Branch.search_below, resume_before]

end SearchState

/-! ### The whole search -/

/-- The answer, the events and the counters of a run. -/
def Run.conclusion (r : Run) : Conclusion where
  verdict := r.verdict
  events := r.events
  stats := r.stats

/-- Nothing of a run is lost in its conclusion. -/
theorem Run.eq_of_conclusion {r s : Run} (same : r.conclusion = s.conclusion) : r = s := by
  obtain ⟨verdict, stats, latest⟩ := r
  obtain ⟨verdict', stats', latest'⟩ := s
  obtain ⟨verdicts, events, counters⟩ := Conclusion.mk.inj same
  cases verdicts
  cases counters
  cases List.reverse_inj.mp events
  rfl

/-- The search over a stack concludes exactly as the recursive search does. -/
theorem Formula.conclusion_solve (f : Formula) : f.solve.conclusion = f.solveRecursively := by
  have root : f.root.search = descend 0 f.clauses (.unbound f.atoms) := Account.empty_before _
  have run : f.solve = SearchState.resume [] {} (descend 0 f.clauses (.unbound f.atoms)) := by
    rw [← root]
    exact SearchState.run_cons f.root [] {}
  rw [run, Formula.solveRecursively]
  obtain ⟨finding, t⟩ := descend 0 f.clauses (.unbound f.atoms)
  have events := Journal.events_extend_empty t
  have stats := Journal.stats_extend_empty t
  cases finding with
  | model model depth =>
    simp only [SearchState.resume, Run.conclusion, Run.events, Run.stats, Journal.events_record,
      Account.conclude, events, stats]
    rw [← stats]
    rfl
  | refuted =>
    simp only [SearchState.resume, SearchState.run_nil, Run.conclusion, Run.events, Run.stats,
      Journal.events_record, Account.conclude, events, stats]
    rw [← stats]
    rfl
  | faulted fault =>
    simp only [SearchState.resume, Run.conclusion, Run.events, Run.stats, Account.conclude, events,
      stats]

/-! ### The recursive procedure from the root -/

/-- The procedure decides a formula: it starts with no atom bound, and closes its account with
the verdict. -/
inductive Formula.Concludes (f : Formula) : Conclusion → Prop where
  | satisfiable {model : Model} {depth : Nat} {t : Account}
      (found : Explores 0 f.clauses (.unbound f.atoms) (.model model depth) t) :
      Concludes f
        ⟨.ok (.satisfiable model), t.events ++ [.satisfiable depth t.stats], t.stats⟩
  | unsatisfiable {t : Account}
      (refuted : Explores 0 f.clauses (.unbound f.atoms) .refuted t) :
      Concludes f ⟨.ok .unsatisfiable, t.events ++ [.unsatisfiable t.stats], t.stats⟩

namespace Formula

variable {f : Formula} {c : Conclusion}

/-- The recursive search of a well-formed formula comes to what the procedure concludes. -/
theorem concludes_solveRecursively (wf : f.WellFormed) : f.Concludes f.solveRecursively := by
  obtain ⟨finding, t, explores⟩ := exists_explores (Assignment.untouched_unbound_iff.mpr wf) 0
  rw [solveRecursively, descend_of_explores explores]
  cases finding with
  | model model depth => exact .satisfiable explores
  | refuted => exact .unsatisfiable explores
  | faulted fault => exact absurd explores not_explores_faulted

/-- What the procedure concludes, the recursive search computes. -/
theorem eq_solveRecursively_of_concludes (h : f.Concludes c) : c = f.solveRecursively := by
  rw [solveRecursively]
  cases h with
  | satisfiable found =>
    rw [descend_of_explores found]
    rfl
  | unsatisfiable refuted =>
    rw [descend_of_explores refuted]
    rfl

/-- For a well-formed formula the search over a stack arrives at what the recursive procedure
concludes, and at nothing else. -/
theorem concludes_iff (wf : f.WellFormed) : f.Concludes c ↔ c = f.solve.conclusion := by
  rw [conclusion_solve]
  constructor
  · exact eq_solveRecursively_of_concludes
  · rintro rfl
    exact concludes_solveRecursively wf

theorem verdict_of_concludes (wf : f.WellFormed) (h : f.Concludes c) :
    f.solve.verdict = c.verdict :=
  congrArg Conclusion.verdict ((concludes_iff wf).mp h).symm

theorem events_of_concludes (wf : f.WellFormed) (h : f.Concludes c) :
    f.solve.events = c.events :=
  congrArg Conclusion.events ((concludes_iff wf).mp h).symm

theorem stats_of_concludes (wf : f.WellFormed) (h : f.Concludes c) : f.solve.stats = c.stats :=
  congrArg Conclusion.stats ((concludes_iff wf).mp h).symm

/-- **The recursive procedure.** The search over a stack gives the verdict, the events in order
and the counters that the recursive search computes. For a well-formed formula they are what the
procedure concludes, one binding at a time, and it concludes nothing else. -/
theorem solve_refines_recursion (wf : f.WellFormed) :
    f.solveRecursively = ⟨f.solve.verdict, f.solve.events, f.solve.stats⟩ ∧
      ∀ c : Conclusion, f.Concludes c ↔ c = ⟨f.solve.verdict, f.solve.events, f.solve.stats⟩ :=
  ⟨f.conclusion_solve.symm, fun _ => concludes_iff wf⟩

/-- The four clauses over two atoms. Both values of atom 1 end in a conflict. -/
def allSigns : Formula where
  atoms := 2
  clauses := [[⟨1, true⟩, ⟨2, true⟩], [⟨1, true⟩, ⟨2, false⟩], [⟨1, false⟩, ⟨2, true⟩],
    [⟨1, false⟩, ⟨2, false⟩]]

/-- The procedure refutes both branches of `allSigns` after a unit clause each, and so does the
search over a stack, with the same events and counters. -/
theorem solve_allSigns_eq : allSigns.WellFormed ∧
    allSigns.Concludes
      ⟨allSigns.solve.verdict, allSigns.solve.events, allSigns.solve.stats⟩ ∧
    allSigns.solve.verdict = .ok .unsatisfiable ∧
    allSigns.solve.events =
      [.bound .decision ⟨1, true⟩ 1, .bound .unit ⟨2, true⟩ 1, .conflict 1,
        .bound .decision ⟨1, false⟩ 1, .bound .unit ⟨2, true⟩ 1, .conflict 1,
        .unsatisfiable { decisions := 2, unitClauses := 2, conflicts := 2, maxDepth := 1 }] ∧
    allSigns.solve.stats = { decisions := 2, unitClauses := 2, conflicts := 2, maxDepth := 1 } := by
  have wf : allSigns.WellFormed := by decide
  have concludes : allSigns.Concludes _ := .unsatisfiable <|
    .backtrack (by decide) rfl rfl rfl rfl
      (.unit (by decide) rfl rfl rfl (.conflict (by decide))) rfl
      (.unit (by decide) rfl rfl rfl (.conflict (by decide)))
  obtain ⟨_, refines⟩ := solve_refines_recursion wf
  obtain ⟨verdict, events, stats⟩ := Conclusion.mk.inj ((refines _).mp concludes)
  exact ⟨wf, (refines _).mpr rfl, verdict.symm, events.symm, stats.symm⟩

end Formula

end DavisPutnam
