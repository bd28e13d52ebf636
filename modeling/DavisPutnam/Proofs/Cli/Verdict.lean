import DavisPutnam.Proofs.Cli.Output
import DavisPutnam.Proofs.Correctness
import DavisPutnam.Proofs.Dimacs.Remainder

/-!
What the command answers, from its options to its exit code.

A model line is read back by cutting it at its blanks (`modelLine?`), and what is read from
the line of a model are its literals (`modelLine?_text`), as long as the atoms are fewer than
half the words. Together with the correctness of the search, of reading and of what is printed
beside the comments this gives `report_verdict`: the exit code and the lines that are not
comments are right about the content of the input, whatever else is asked for and however the
log is set up.
-/

namespace DavisPutnam.Cli

/-! ### Model lines -/

/-- The integers of a model line, which stand between `v` and the closing 0. -/
def modelLine? (line : String) : Option (List Int) :=
  match line.toList.splitOn ' ' with
  | ['v'] :: words =>
    if words.getLast? = some ['0'] then words.dropLast.mapM Numeral.integer? else none
  | _ => none

/-- The model of a list of integers: an atom has the sign of the integer in its place. -/
def modelOf (xs : List Int) : Model where
  values := xs.map fun x => decide (0 < x)

/-- From the line the integers can be read, one for each atom of the formula, in order of the
atoms: the integer in the place of an atom is its number or the negation of it. The model of the
integers satisfies the formula. -/
structure SpellsModel (f : Formula) (line : String) (xs : List Int) : Prop where
  read : modelLine? line = some xs
  length : xs.length = f.atoms
  atom : ∀ (i : Nat) (x : Int), xs[i]? = some x → x = i + 1 ∨ x = -(i + 1)
  satisfied : ∀ c ∈ f.clauses, ∃ l ∈ c, (modelOf xs).literalValue l = .ok true

section Line

variable {m : Model}

theorem atom_of_mem_literals {l : Literal} (mem : l ∈ m.literals) : l.atom ≤ m.values.length := by
  obtain ⟨i, inside, rfl⟩ := List.mem_mapIdx.mp mem
  exact inside

theorem mapM_integer?_text {ls : List Literal} (small : ∀ l ∈ ls, l.atom < Word.half) :
    (ls.map fun l => l.text.toList).mapM Numeral.integer? = some (ls.map Literal.signed) := by
  induction ls with
  | nil => rfl
  | cons l ls ih =>
    obtain ⟨first, others⟩ := List.forall_mem_cons.mp small
    have read : Numeral.integer? l.text.toList = some l.signed := by
      rw [Literal.text, Numeral.ofInt, String.toList_ofList]
      exact Numeral.integer?_signedDigits (Literal.fitsSigned_signed first)
    rw [List.map_cons, List.mapM_cons, read, ih others]
    rfl

/-- The blanks of a model line stand before and after each literal. -/
theorem splitOn_model (inhabited : m.values ≠ []) :
    ("v " ++ m.text ++ " 0").toList.splitOn ' ' =
      ['v'] :: ((m.literals.map fun l => l.text.toList) ++ [['0']]) := by
  have some_literal : (m.literals.map fun l => l.text.toList) ≠ [] := by
    simpa [Model.literals] using inhabited
  have solid : ∀ word ∈ m.literals.map fun l => l.text.toList, ' ' ∉ word := by
    intro word mem
    obtain ⟨l, _, rfl⟩ := List.mem_map.mp mem
    rw [Literal.text, Numeral.ofInt, String.toList_ofList]
    exact Numeral.not_mem_signedDigits rfl (by decide) l.signed
  have text : m.text.toList = [' '].intercalate (m.literals.map fun l => l.text.toList) := by
    rw [Model.text, String.toList_intercalate, List.map_map]
    rfl
  have shape : ("v " ++ m.text ++ " 0").toList =
      ['v'] ++ ' ' :: (m.text.toList ++ ' ' :: ['0']) := by
    rw [String.toList_append, String.toList_append, List.append_assoc]
    rfl
  rw [shape, List.splitOn_append_cons_self, List.splitOn_append_cons_self, text,
    List.splitOn_intercalate ' ' solid some_literal]
  rfl

/-- The literals of a model are read back from its line. -/
theorem modelLine?_text (inhabited : m.values ≠ []) (small : m.values.length < Word.half) :
    modelLine? ("v " ++ m.text ++ " 0") = some (m.literals.map Literal.signed) := by
  unfold modelLine?
  rw [splitOn_model inhabited]
  simp only [List.getLast?_concat, List.dropLast_concat, if_true]
  apply mapM_integer?_text
  exact fun l mem => Nat.lt_of_le_of_lt (atom_of_mem_literals mem) small

theorem getElem?_literals (m : Model) (i : Nat) :
    m.literals[i]? = m.values[i]?.map fun value => ⟨i + 1, value⟩ :=
  List.getElem?_mapIdx

theorem signed_literal {i : Nat} (small : i + 1 < Word.half) (value : Bool) :
    Literal.signed ⟨i + 1, value⟩ = if value then (i : Int) + 1 else -((i : Int) + 1) :=
  Literal.signed_of_lt small

/-- The signed literals of a model describe the model. -/
theorem modelOf_literals (small : m.values.length < Word.half) :
    modelOf (m.literals.map Literal.signed) = m := by
  refine congrArg Model.mk (List.ext_getElem? fun i => ?_)
  rw [List.map_map, List.getElem?_map, getElem?_literals, Option.map_map]
  cases entry : m.values[i]? with
  | none => rfl
  | some value =>
    obtain ⟨inside, _⟩ := List.getElem?_eq_some_iff.mp entry
    have own := signed_literal (Nat.lt_of_le_of_lt inside small) value
    have sign : decide (0 < Literal.signed ⟨i + 1, value⟩) = value := by
      rw [own]
      cases value with
      | true => exact decide_eq_true (by omega : (0 : Int) < i + 1)
      | false => exact decide_eq_false (by omega : ¬ (0 : Int) < -(i + 1))
    exact congrArg some sign

/-- The line of a model of the formula spells it. -/
theorem spellsModel_text {f : Formula} (wf : f.WellFormed) (positive : 1 ≤ f.atoms)
    (small : f.atoms < Word.half) (size : m.values.length = f.atoms)
    (satisfied : allHold m.valuation f.clauses = true) :
    SpellsModel f ("v " ++ m.text ++ " 0") (m.literals.map Literal.signed) := by
  rw [← size] at positive small
  have same := modelOf_literals small
  refine ⟨modelLine?_text (List.length_pos_iff.mp positive) small, ?_, ?_, ?_⟩
  · rw [List.length_map, Model.literals, List.length_mapIdx, size]
  · intro i x entry
    rw [List.getElem?_map, getElem?_literals, Option.map_map, Option.map_eq_some_iff] at entry
    obtain ⟨value, slot, integer⟩ := entry
    obtain ⟨inside, _⟩ := List.getElem?_eq_some_iff.mp slot
    rw [← integer, Function.comp_apply, signed_literal (Nat.lt_of_le_of_lt inside small) value]
    cases value with
    | true => exact .inl rfl
    | false => exact .inr rfl
  · rw [same]
    exact (Formula.allHold_valuation_iff wf size).mp satisfied

end Line

/-! ### The answer -/

theorem wellFormed_of_readSource {source : Except ReadFailure (List UInt8)} {f : Formula}
    (read : Dimacs.readSource source = .ok f) : 1 ≤ f.atoms ∧ f.WellFormed := by
  cases source with
  | error failure => cases read
  | ok bytes => exact Dimacs.wellFormed_of_read read

/-- The answer to a formula that was read is that it has no model, or a model of it. -/
theorem answer_cases {f : Formula} (wf : f.WellFormed) :
    (¬ f.Satisfiable ∧ f.solve.verdict = .ok .unsatisfiable) ∨
      ∃ m, f.Satisfiable ∧ f.solve.verdict = .ok (.satisfiable m) ∧
        m.values.length = f.atoms ∧ allHold m.valuation f.clauses = true := by
  rcases Formula.solve_cases wf with ⟨m, answer, size, satisfied⟩ | ⟨answer, never⟩
  · exact .inr ⟨m, ⟨_, satisfied⟩, answer, size, satisfied⟩
  · refine .inl ⟨?_, answer⟩
    rintro ⟨v, satisfied⟩
    rw [never] at satisfied
    cases satisfied

theorem verdictLines_congr {o o' : Options} (v : Verdict) :
    (o'.verdictLines v).head? = (o.verdictLines v).head? ∧
      (o'.quiet = o.quiet → o'.verdictLines v = o.verdictLines v) := by
  cases v with
  | unsatisfiable => exact ⟨rfl, fun _ => rfl⟩
  | satisfiable m =>
    have first (o : Options) : (o.verdictLines (.satisfiable m)).head? = some "s SATISFIABLE" := by
      unfold Options.verdictLines
      cases o.quiet <;> rfl
    refine ⟨(first o').trans (first o).symm, ?_⟩
    intro same
    unfold Options.verdictLines
    rw [same]

/-- What is printed beside the comments depends on nothing but the content of the input and on
whether the model is asked for. -/
theorem report_congr {o o' : Options} (path : ∀ path, o.input = some path → OneLine path)
    (path' : ∀ path, o'.input = some path → OneLine path) (logger logger' : Logger)
    (source : Except ReadFailure (List UInt8)) :
    (solveReport o' logger' source).exitCode = (solveReport o logger source).exitCode ∧
      (solveReport o' logger' source).answers.head? =
        (solveReport o logger source).answers.head? ∧
      (o'.quiet = o.quiet →
        (solveReport o' logger' source).answers = (solveReport o logger source).answers) := by
  cases read : Dimacs.readSource source with
  | error reason =>
    obtain ⟨code, answers, _⟩ := answers_of_unreadable path read logger
    obtain ⟨code', answers', _⟩ := answers_of_unreadable path' read logger'
    rw [code, code', answers, answers']
    exact ⟨rfl, rfl, fun _ => rfl⟩
  | ok f =>
    obtain ⟨v, answer⟩ : ∃ v, f.solve.verdict = .ok v := by
      rcases answer_cases (wellFormed_of_readSource read).2 with ⟨_, answer⟩ | ⟨m, _, answer, _⟩
      · exact ⟨_, answer⟩
      · exact ⟨_, answer⟩
    obtain ⟨code, answers, _⟩ := answers_of_verdict path read answer logger
    obtain ⟨code', answers', _⟩ := answers_of_verdict path' read answer logger'
    rw [code, code', answers, answers']
    exact ⟨rfl, verdictLines_congr v⟩

section Search

variable {o : Options} {source : Except ReadFailure (List UInt8)}

/-- A search ends in one of three ways. -/
theorem solveReport_cases (path : ∀ path, o.input = some path → OneLine path)
    (logger : Logger) :
    (∃ reason, Dimacs.readSource source = .error reason ∧
        (solveReport o logger source).exitCode = 255 ∧
        (solveReport o logger source).answers = [] ∧
        (solveReport o logger source).err =
          Report.text logger.notices ++ "parse error: " ++ reason.message ++ "\n") ∨
      (∃ f, Dimacs.readSource source = .ok f ∧ ¬ f.Satisfiable ∧
        (solveReport o logger source).exitCode = 1 ∧
        (solveReport o logger source).answers = ["s UNSATISFIABLE"] ∧
        (solveReport o logger source).err = Report.text logger.notices) ∨
      ∃ f m, Dimacs.readSource source = .ok f ∧ f.Satisfiable ∧
        (solveReport o logger source).exitCode = 0 ∧
        (solveReport o logger source).answers = o.verdictLines (.satisfiable m) ∧
        (solveReport o logger source).err = Report.text logger.notices ∧
        (f.atoms < Word.half →
          SpellsModel f ("v " ++ m.text ++ " 0") (m.literals.map Literal.signed)) := by
  cases read : Dimacs.readSource source with
  | error reason => exact .inl ⟨reason, rfl, answers_of_unreadable path read logger⟩
  | ok f =>
    obtain ⟨positive, wf⟩ := wellFormed_of_readSource read
    rcases answer_cases wf with ⟨refuted, answer⟩ | ⟨m, satisfiable, answer, size, satisfied⟩
    · exact .inr (.inl ⟨f, rfl, refuted, answers_of_verdict path read answer logger⟩)
    · obtain ⟨code, answers, err⟩ := answers_of_verdict path read answer logger
      exact .inr (.inr ⟨f, m, rfl, satisfiable, code, answers, err,
        fun small => spellsModel_text wf positive small size satisfied⟩)

/-- Each exit code says one thing about the content of the input. -/
theorem exitCode_iff (path : ∀ path, o.input = some path → OneLine path)
    (logger : Logger) :
    ((solveReport o logger source).exitCode = 255 ↔
        ∃ reason, Dimacs.readSource source = .error reason) ∧
      ((solveReport o logger source).exitCode = 1 ↔
        ∃ f, Dimacs.readSource source = .ok f ∧ ¬ f.Satisfiable) ∧
      ((solveReport o logger source).exitCode = 0 ↔
        ∃ f, Dimacs.readSource source = .ok f ∧ f.Satisfiable) := by
  rcases solveReport_cases path logger with
    ⟨reason, read, code, _⟩ | ⟨f, read, refuted, code, _⟩ | ⟨f, m, read, satisfiable, code, _⟩
  · rw [code, read]
    simp
  · rw [code, read]
    simp [refuted]
  · rw [code, read]
    simp [satisfiable]

end Search

/-- **The answer of the command.** Let a search be asked for, with a path on one line, and let
the log be set up in any way. The exit code is 255 exactly if no formula can be read from the
input, 1 exactly if one without a model is read, and 0 exactly if one with a model is read. In the
first case nothing is printed but comments, and the error is reported, after what the log reports
of its own filters; in the second the one line beside the comments is the verdict; in the third it
is followed, unless it is asked not to be, by one line that spells a model of the formula, if it
has less than `Word.half` atoms. The log and the other options change nothing of this. -/
theorem report_verdict {o : Options} (path : ∀ path, o.input = some path → OneLine path)
    (setUp : Threshold → Option String → Logger) (filters : Option String)
    (source : Except ReadFailure (List UInt8)) :
    let logger := setUp (Threshold.ofVerbosity o.verbosity) filters
    let r := o.report setUp filters source
    (r.exitCode = 255 ↔ ∃ reason, Dimacs.readSource source = .error reason) ∧
      (r.exitCode = 1 ↔ ∃ f, Dimacs.readSource source = .ok f ∧ ¬ f.Satisfiable) ∧
      (r.exitCode = 0 ↔ ∃ f, Dimacs.readSource source = .ok f ∧ f.Satisfiable) ∧
      (∀ reason, Dimacs.readSource source = .error reason → r.answers = [] ∧
        r.err = Report.text logger.notices ++ "parse error: " ++ reason.message ++ "\n") ∧
      (∀ f, Dimacs.readSource source = .ok f → r.err = Report.text logger.notices) ∧
      (r.exitCode = 1 → r.answers = ["s UNSATISFIABLE"]) ∧
      (r.exitCode = 0 → o.quiet = true → r.answers = ["s SATISFIABLE"]) ∧
      (∀ f, Dimacs.readSource source = .ok f → f.atoms < Word.half → r.exitCode = 0 →
        o.quiet = false → ∃ line xs, r.answers = ["s SATISFIABLE", line] ∧ SpellsModel f line xs) ∧
      ∀ (o' : Options) setUp' filters', (∀ path, o'.input = some path → OneLine path) →
        let r' := o'.report setUp' filters' source
        r'.exitCode = r.exitCode ∧ r'.answers.head? = r.answers.head? ∧
          (o'.quiet = o.quiet → r'.answers = r.answers) := by
  intro logger r
  obtain ⟨unreadable, refuted, satisfied⟩ := exitCode_iff path logger
  refine ⟨unreadable, refuted, satisfied, ?_, ?_, ?_, ?_, ?_, ?_⟩
  · intro reason failed
    exact (answers_of_unreadable path failed logger).2
  · intro f read
    rcases solveReport_cases path logger with
      ⟨_, failed, _⟩ | ⟨_, _, _, _, _, err⟩ | ⟨_, _, _, _, _, _, err, _⟩
    · cases read.symm.trans failed
    · exact err
    · exact err
  · intro code
    rcases solveReport_cases path logger with
      ⟨_, _, other, _⟩ | ⟨_, _, _, _, answers, _⟩ | ⟨_, _, _, _, other, _⟩
    · cases code.symm.trans other
    · exact answers
    · cases code.symm.trans other
  · intro code quiet
    rcases solveReport_cases path logger with
      ⟨_, _, other, _⟩ | ⟨_, _, _, other, _⟩ | ⟨_, m, _, _, _, answers, _⟩
    · cases code.symm.trans other
    · cases code.symm.trans other
    · refine answers.trans ?_
      rw [Options.verdictLines, if_pos quiet]
  · intro f read small code verbose
    rcases solveReport_cases path logger with
      ⟨_, _, other, _⟩ | ⟨_, _, _, other, _⟩ | ⟨g, m, again, _, _, answers, _, spelled⟩
    · cases code.symm.trans other
    · cases code.symm.trans other
    · cases read.symm.trans again
      refine ⟨_, _, answers.trans ?_, spelled small⟩
      rw [Options.verdictLines, verbose]
      rfl
  · intro o' setUp' filters' path'
    exact report_congr path path' logger _ source

/-- How the log is set up in the two runs below: the filter `trace` shows all messages, and
without a filter only the gravest are asked for. -/
def sampleLog (_ : Threshold) (filters : Option String) : Logger where
  shows message := filters = some "trace" || message.level = .error || message.level = .warn

/-- A run on `oneClause` that prints all it can. -/
def loggedRun : Report :=
  Options.report sampleLog ⟨some "a.cnf", true, false, 2⟩ (some "trace") (.ok Dimacs.oneClause)

/-- A run on `oneClause` that prints as little as it can. -/
def quietRun : Report :=
  Options.report sampleLog ⟨none, false, true, 0⟩ none (.ok Dimacs.oneClause)

/-- The log and the counters stand beside the answer to `oneClause`, and a quiet run leaves out
the model. -/
theorem report_verdict_oneClause :
    OneLine "a.cnf" ∧ Dimacs.readSource (.ok Dimacs.oneClause) = .ok ⟨1, [[⟨1, false⟩]]⟩ ∧
    loggedRun.exitCode = 0 ∧
    (∃ line xs, loggedRun.answers = ["s SATISFIABLE", line] ∧
      SpellsModel ⟨1, [[⟨1, false⟩]]⟩ line xs) ∧
    quietRun.exitCode = 0 ∧ quietRun.answers.head? = some "s SATISFIABLE" ∧
    loggedRun.err = "" := by
  have whole : OneLine "a.cnf" := by decide
  have path : ∀ path, some "a.cnf" = some path → OneLine path := by
    intro path given
    cases given
    exact whole
  have read : Dimacs.readSource (.ok Dimacs.oneClause) = .ok ⟨1, [[⟨1, false⟩]]⟩ := by
    decide +kernel
  obtain ⟨_, _, satisfied, _, err, _, _, spelled, congr⟩ :=
    report_verdict (o := ⟨some "a.cnf", true, false, 2⟩) path sampleLog (some "trace")
      (.ok Dimacs.oneClause)
  have code : loggedRun.exitCode = 0 := satisfied.mpr ⟨_, read, fun _ => false, rfl⟩
  obtain ⟨line, xs, answers, spells⟩ := spelled _ read (by decide) code rfl
  obtain ⟨same, first, _⟩ := congr ⟨none, false, true, 0⟩ sampleLog none nofun
  refine ⟨whole, read, code, ⟨line, xs, answers, spells⟩, same.trans code, ?_, err _ read⟩
  exact first.trans (congrArg List.head? answers)

end DavisPutnam.Cli
