import DavisPutnam.Cli.Report

/-!
The lines of a report, and which of them are comments.

Every line that is printed stands on one line of the text (`textLines_text`), provided
that the path of the input does. All that the log and the counters add to a report are
comments, whatever is shown of the log, so that what is left without them
(`Report.answers`) depends on the content of the input and on whether the model is asked
for, and on nothing else (`answers_of_unreadable`, `answers_of_verdict`).
-/

namespace DavisPutnam

/-- A numeral is made of digits and a minus sign. -/
theorem Numeral.not_mem_signedDigits {c : Char} (other : c.isDigit = false) (unsigned : c ≠ '-')
    (x : Int) : c ∉ signedDigits x := by
  have absent : c ∉ digits x.natAbs := by
    intro mem
    rw [isDigit_of_mem_digits mem] at other
    cases other
  unfold signedDigits
  split
  · exact List.not_mem_cons_of_ne_of_not_mem unsigned absent
  · exact absent

namespace Cli

/-! ### Lines -/

/-- The lines of a text: what stands before each newline, and after the last one unless
this is nothing. -/
def textLines (text : String) : List String :=
  let pieces := text.toList.splitOn '\n'
  (if pieces.getLast? = some [] then pieces.dropLast else pieces).map String.ofList

/-- There is no newline in the text. -/
def OneLine (text : String) : Prop :=
  '\n' ∉ text.toList

instance (text : String) : Decidable (OneLine text) := by
  unfold OneLine; infer_instance

@[simp] theorem oneLine_append_iff {s t : String} : OneLine (s ++ t) ↔ OneLine s ∧ OneLine t := by
  unfold OneLine
  rw [String.toList_append, List.mem_append, not_or]

@[simp] theorem oneLine_ofInt (x : Int) : OneLine (Numeral.ofInt x) := by
  unfold OneLine Numeral.ofInt
  rw [String.toList_ofList]
  exact Numeral.not_mem_signedDigits rfl (by decide) x

@[simp] theorem oneLine_ofNat (n : Nat) : OneLine (Numeral.ofNat n) :=
  oneLine_ofInt n

theorem splitOn_text {lines : List String} (whole : ∀ line ∈ lines, OneLine line) :
    (Report.text lines).toList.splitOn '\n' = lines.map String.toList ++ [[]] := by
  unfold Report.text
  rw [String.toList_join, List.flatMap_map]
  induction lines with
  | nil => rfl
  | cons line lines ih =>
    obtain ⟨first, others⟩ := List.forall_mem_cons.mp whole
    rw [List.flatMap_cons, String.toList_append, List.append_assoc]
    have rest := ih others
    exact (List.splitOn_append_cons_self_of_not_mem first _).trans (congrArg _ rest)

theorem Report.text_append (lines lines' : List String) :
    text (lines ++ lines') = text lines ++ text lines' := by
  unfold text
  rw [List.map_append, String.join_append]

theorem Report.text_singleton (line : String) : text [line] = line ++ "\n" :=
  String.empty_append

/-- Lines without newlines are the lines of the text made of them. -/
theorem textLines_text {lines : List String} (whole : ∀ line ∈ lines, OneLine line) :
    textLines (Report.text lines) = lines := by
  unfold textLines
  rw [splitOn_text whole]
  dsimp only
  rw [if_pos List.getLast?_concat, List.dropLast_concat, List.map_map]
  exact List.map_id'' (fun _ => String.ofList_toList) lines

/-! ### Comments -/

/-- The line starts with the mark of a comment. -/
def isComment (line : String) : Bool :=
  "c ".toList.isPrefixOf line.toList

/-- A comment on one line. -/
def Remark (line : String) : Prop :=
  OneLine line ∧ isComment line = true

instance (line : String) : Decidable (Remark line) := by
  unfold Remark; infer_instance

/-- A comment that is continued on its line is a comment. -/
theorem Remark.append {s t : String} (remark : Remark s) (whole : OneLine t) : Remark (s ++ t) := by
  refine ⟨oneLine_append_iff.mpr ⟨remark.1, whole⟩, ?_⟩
  have marked := remark.2
  unfold isComment at *
  rw [List.isPrefixOf_iff_prefix] at *
  rw [String.toList_append]
  exact marked.trans (List.prefix_append _ _)

/-- The lines on standard output that are not comments. -/
def Report.answers (r : Report) : List String :=
  (textLines r.out).filter (!isComment ·)

theorem Report.answers_of_lines {r : Report} {remarks rest : List String}
    (lines : r.lines = remarks ++ rest) (remarked : ∀ line ∈ remarks, Remark line)
    (plain : ∀ line ∈ rest, OneLine line ∧ isComment line = false) : r.answers = rest := by
  have whole : ∀ line ∈ remarks ++ rest, OneLine line := by
    intro line mem
    rcases List.mem_append.mp mem with mem | mem
    · exact (remarked line mem).1
    · exact (plain line mem).1
  have dropped : remarks.filter (!isComment ·) = [] := by
    rw [List.filter_eq_nil_iff]
    intro line mem
    rw [(remarked line mem).2]
    exact Bool.false_ne_true
  have kept : rest.filter (!isComment ·) = rest := by
    rw [List.filter_eq_self]
    intro line mem
    rw [(plain line mem).2]
    rfl
  unfold answers out
  rw [lines, textLines_text whole, List.filter_append, dropped, kept, List.nil_append]

/-! ### The log and the counters -/

theorem oneLine_stats (s : Stats) : OneLine s.text := by
  unfold Stats.text
  simp only [oneLine_append_iff, oneLine_ofNat, and_true]
  decide +kernel

theorem oneLine_event (event : Event) : OneLine event.text := by
  unfold Event.text
  cases event with
  | bound reason l depth =>
    simp only [Literal.text, oneLine_append_iff, oneLine_ofInt, oneLine_ofNat, and_true]
    cases reason <;> decide +kernel
  | conflict depth =>
    simp only [oneLine_append_iff, oneLine_ofNat, and_true]
    decide +kernel
  | satisfiable depth stats =>
    simp only [oneLine_append_iff, oneLine_ofNat, oneLine_stats, and_true]
    decide +kernel
  | unsatisfiable stats =>
    simp only [oneLine_append_iff, oneLine_stats, and_true]
    decide +kernel

theorem remark_logLine {message : Message} (whole : OneLine message.text) :
    Remark (logLine message) := by
  obtain ⟨target, level, text⟩ := message
  have named (level : Level) : Remark ("c " ++ level.name ++ ": ") := by cases level <;> decide
  cases level with
  | info => exact Remark.append (s := "c ") (by decide) whole
  | error => exact (named .error).append whole
  | warn => exact (named .warn).append whole
  | debug => exact (named .debug).append whole
  | trace => exact (named .trace).append whole

theorem remark_of_mem_logged {logger : Logger} {message : Message} {line : String}
    (whole : OneLine message.text) (mem : line ∈ logged logger message) : Remark line := by
  unfold logged at mem
  split at mem
  · rw [List.mem_singleton.mp mem]
    exact remark_logLine whole
  · cases mem

theorem remark_of_mem_announcement {logger : Logger} {text line : String} (whole : OneLine text)
    (mem : line ∈ logged logger (announcement text)) : Remark line :=
  remark_of_mem_logged whole mem

theorem remark_of_mem_eventLines {logger : Logger} {run : Run} {line : String}
    (mem : line ∈ eventLines logger run) : Remark line := by
  obtain ⟨event, _, shown⟩ := List.mem_flatMap.mp mem
  exact remark_of_mem_logged (oneLine_event event) shown

theorem remark_of_mem_statsLines {s : Stats} {line : String} (mem : line ∈ statsLines s) :
    Remark line := by
  have count {label : String} (remark : Remark label) (n : Nat) :
      Remark (label ++ Numeral.ofNat n) := remark.append (oneLine_ofNat n)
  simp only [statsLines, List.mem_cons, List.not_mem_nil, or_false] at mem
  rcases mem with rfl | rfl | rfl | rfl | rfl
  all_goals exact count (by decide) _

/-! ### The verdict -/

theorem oneLine_intercalate {separator : String} (whole : OneLine separator) {parts : List String}
    (each : ∀ part ∈ parts, OneLine part) : OneLine (separator.intercalate parts) := by
  induction parts with
  | nil => exact List.not_mem_nil
  | cons part parts ih =>
    obtain ⟨first, others⟩ := List.forall_mem_cons.mp each
    cases parts with
    | nil => exact first
    | cons next parts =>
      rw [String.intercalate_cons_cons, oneLine_append_iff, oneLine_append_iff]
      exact ⟨⟨first, whole⟩, ih others⟩

theorem oneLine_model (m : Model) : OneLine m.text := by
  unfold Model.text
  apply oneLine_intercalate (by decide)
  intro part mem
  obtain ⟨l, _, rfl⟩ := List.mem_map.mp mem
  exact oneLine_ofInt _

/-- Neither the verdict nor the model is a comment. -/
theorem plain_of_mem_verdictLines {o : Options} {v : Verdict} {line : String}
    (mem : line ∈ o.verdictLines v) : OneLine line ∧ isComment line = false := by
  have verdict : OneLine "s SATISFIABLE" ∧ isComment "s SATISFIABLE" = false := by decide +kernel
  cases v with
  | unsatisfiable =>
    rw [List.mem_singleton.mp mem]
    decide +kernel
  | satisfiable m =>
    have model : OneLine ("v " ++ m.text ++ " 0") ∧ isComment ("v " ++ m.text ++ " 0") = false := by
      refine ⟨?_, ?_⟩
      · rw [oneLine_append_iff, oneLine_append_iff]
        exact ⟨⟨by decide, oneLine_model m⟩, by decide⟩
      · unfold isComment
        rw [String.toList_append, String.toList_append]
        rfl
    by_cases quiet : o.quiet = true
    · rw [Options.verdictLines, if_pos quiet] at mem
      rw [List.mem_singleton.mp mem]
      exact verdict
    · rw [Options.verdictLines, if_neg quiet] at mem
      rcases List.mem_cons.mp mem with rfl | mem
      · exact verdict
      · rw [List.mem_singleton.mp mem]
        exact model

/-! ### The report of a search -/

section Search

variable {o : Options} {source : Except ReadFailure (List UInt8)}

theorem oneLine_opening (path : ∀ path, o.input = some path → OneLine path) :
    OneLine o.opening := by
  unfold Options.opening
  cases input : o.input with
  | none => decide +kernel
  | some name =>
    rw [oneLine_append_iff, oneLine_append_iff]
    exact ⟨⟨by decide +kernel, path name input⟩, by decide⟩

/-- If no formula can be read, nothing but comments is printed, and the error. -/
theorem answers_of_unreadable (path : ∀ path, o.input = some path → OneLine path)
    {reason : Dimacs.Error} (failed : Dimacs.readSource source = .error reason)
    (logger : Logger) :
    (solveReport o logger source).exitCode = 255 ∧ (solveReport o logger source).answers = [] ∧
      (solveReport o logger source).err =
        Report.text logger.notices ++ "parse error: " ++ reason.message ++ "\n" := by
  have report : solveReport o logger source =
      { exitCode := 255
        lines := logged logger (announcement o.opening)
        errors := logger.notices ++ ["parse error: " ++ reason.message] } := by
    unfold solveReport
    rw [failed]
  rw [report]
  refine ⟨rfl, ?_, ?_⟩
  · apply Report.answers_of_lines (List.append_nil _).symm
    · exact fun line mem => remark_of_mem_announcement (oneLine_opening path) mem
    · exact List.forall_mem_nil _
  · rw [Report.err, Report.text_append, Report.text_singleton]
    simp only [String.append_assoc]

/-- If the search answers, its answer is printed, and comments before it. -/
theorem answers_of_verdict (path : ∀ path, o.input = some path → OneLine path)
    {f : Formula} (read : Dimacs.readSource source = .ok f) {v : Verdict}
    (answer : f.solve.verdict = .ok v) (logger : Logger) :
    (solveReport o logger source).exitCode = verdictCode v ∧
      (solveReport o logger source).answers = o.verdictLines v ∧
      (solveReport o logger source).err = Report.text logger.notices := by
  have size : OneLine
      (Numeral.ofNat f.atoms ++ " atoms, " ++ Numeral.ofNat f.clauses.length ++ " clauses") := by
    simp only [oneLine_append_iff, oneLine_ofNat, true_and]
    decide +kernel
  obtain ⟨remarks, remarked, report⟩ : ∃ remarks, (∀ line ∈ remarks, Remark line) ∧
      solveReport o logger source =
        { exitCode := verdictCode v
          lines := remarks ++ o.verdictLines v
          errors := logger.notices } := by
    unfold solveReport
    rw [read]
    dsimp only
    rw [answer]
    refine ⟨_, ?_, rfl⟩
    intro line mem
    simp only [List.mem_append] at mem
    rcases mem with ((mem | mem) | mem) | mem
    · exact remark_of_mem_announcement (oneLine_opening path) mem
    · exact remark_of_mem_announcement size mem
    · exact remark_of_mem_eventLines mem
    · split at mem
      · exact remark_of_mem_statsLines mem
      · cases mem
  rw [report]
  exact ⟨rfl, Report.answers_of_lines rfl remarked fun _ => plain_of_mem_verdictLines, rfl⟩

end Search

end Cli

end DavisPutnam
