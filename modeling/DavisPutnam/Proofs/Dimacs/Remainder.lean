import DavisPutnam.Proofs.Dimacs.Acceptance
import DavisPutnam.Proofs.Dimacs.Text

/-!
What follows the clauses that a header declares.

Once the declared clauses are all read, `read_append_eq_ok_iff` says whether a
remainder, put after the file on lines of its own, leaves the formula as it is. It
does if there is at least one clause, whatever the remainder is, since reading
stops at the 0 that closes the last one. If no clause is declared, reading goes on
after the header up to the first line that is neither blank nor a comment. Then the
remainder is ignored unless reading comes to a line that it cannot pass
(`Obstructed`), such as a second header (`read_append_secondHeader`).
-/

namespace DavisPutnam.Dimacs

/-! ### Longer files -/

theorem tokenLines_append_cons (first more : List UInt8) :
    tokenLines (first ++ newline :: more) = tokenLines first ++ tokenLines more := by
  unfold tokenLines
  rw [lines_append_cons, List.map_append]

section Longer

variable {declared : Header} {file rest : List (Option Line)}

theorem Begins.append (begins : Begins file declared rest) (more : List (Option Line)) :
    Begins (file ++ more) declared (rest ++ more) := by
  obtain ⟨preamble, atoms, clauses, extra, rfl, skipped, atomCount, clauseCount⟩ := begins
  exact ⟨preamble, atoms, clauses, extra, List.append_assoc .., skipped, atomCount, clauseCount⟩

/-- A file has one first header. -/
theorem Begins.unique (begins : Begins file declared rest) {declared' : Header}
    {rest' : List (Option Line)} (again : Begins file declared' rest') :
    declared = declared' ∧ rest = rest' := by
  induction file with
  | nil => exact absurd begins not_begins_nil
  | cons entry file ih =>
    obtain ⟨line, rfl, skipped | header⟩ := kind_of_begins begins
    · exact ih ((begins_skipped_iff skipped).mp begins) ((begins_skipped_iff skipped).mp again)
    · obtain ⟨tokens, rfl⟩ := Reader.exists_of_header header
      obtain ⟨read, rfl⟩ := begins_header_iff.mp begins
      obtain ⟨reread, rfl⟩ := begins_header_iff.mp again
      exact ⟨Except.ok.inj (read.symm.trans reread), rfl⟩

/-- With the last declared clause closed, no further line is reached. -/
theorem Takes.append {clauses : Nat} {values : List Int} (takes : Takes clauses file values)
    (some : 0 < clauses) (full : values.count 0 = clauses) (more : List (Option Line)) :
    Takes clauses (file ++ more) values := by
  obtain ⟨body, last, rest, rfl, kinds, numerals, stops⟩ := takes
  have finished (none : last = []) :
      ¬ (dataTokens body = [] ∨ values.count 0 < clauses) := by
    subst none
    intro unfinished
    rcases eq_nil_or_of_unfinished numerals unfinished with rfl | fewer
    · exact Nat.ne_of_lt some full
    · exact Nat.ne_of_lt fewer full
  refine ⟨body, last, rest ++ more, List.append_assoc .., kinds, numerals, ?_⟩
  cases stops with
  | atEnd unfinished => exact absurd unfinished (finished rfl)
  | atClosing _ unfinished => exact absurd unfinished (finished rfl)
  | atLastZero data within zero complete => exact .atLastZero data within zero complete
  | atData none => exact absurd none (Nat.ne_of_gt some)

end Longer

/-! ### Files without clauses -/

/-- After blank lines and comments comes a line that reading cannot pass: one that is
not valid UTF-8 or a header. -/
inductive Obstructed : List (Option Line) → Prop where
  | unreadable {file : List (Option Line)} : Obstructed (none :: file)
  | header {line : Line} {file : List (Option Line)} (header : line.kind = .header) :
      Obstructed (some line :: file)
  | later {line : Line} {file : List (Option Line)} (skipped : line.kind = .skipped)
      (later : Obstructed file) : Obstructed (some line :: file)

theorem obstructed_cons_iff {line : Line} {file : List (Option Line)} :
    Obstructed (some line :: file) ↔
      line.kind = .header ∨ line.kind = .skipped ∧ Obstructed file := by
  constructor
  · intro obstructed
    cases obstructed with
    | header header => exact .inl header
    | later skipped later => exact .inr ⟨skipped, later⟩
  · rintro (header | ⟨skipped, later⟩)
    · exact .header header
    · exact .later skipped later

/-- If no clause is declared, reading takes nothing and may stop anywhere but at a
line that it cannot pass. -/
theorem takes_zero_iff {file : List (Option Line)} {values : List Int} :
    Takes 0 file values ↔ values = [] ∧ ¬ Obstructed file := by
  induction file with
  | nil =>
    rw [takes_nil_iff]
    exact ⟨fun none => ⟨none, nofun⟩, And.left⟩
  | cons entry file ih =>
    cases entry with
    | none => exact iff_of_false not_takes_unreadable fun h => h.2 .unreadable
    | some line =>
      rw [obstructed_cons_iff]
      cases kind : line.kind with
      | skipped => simp [takes_skipped_iff kind, ih]
      | closing => simp [takes_closing_iff kind]
      | header => simp [not_takes_header kind]
      | data => simp [takes_data_of_none kind]

/-! ### The remainder -/

/-- **Remainder.** After a file with as many clauses as its header declares, any bytes
may follow on new lines and the same formula is read, with one exception: if no
clause is declared, reading must not come to a line that it cannot pass. -/
theorem read_append_eq_ok_iff {first : List UInt8} {declared : Header}
    {rest : List (Option Line)} {f : Formula} (begins : Begins (tokenLines first) declared rest)
    (accepted : read first = .ok f) (full : f.clauses.length = declared.clauses)
    (more : List UInt8) :
    read (first ++ newline :: more) = .ok f ↔
      (declared.clauses = 0 → ¬ Obstructed (rest ++ tokenLines more)) := by
  obtain ⟨_, _, same, positive, values, takes, completes⟩ := read_iff_completes.mp accepted
  obtain ⟨rfl, rfl⟩ := begins.unique same
  have longer := begins.append (tokenLines more)
  rw [← tokenLines_append_cons] at longer
  rcases Nat.eq_zero_or_pos declared.clauses with none | some
  · rw [none] at takes
    obtain ⟨rfl, -⟩ := takes_zero_iff.mp takes
    constructor
    · intro again _
      obtain ⟨_, _, same, _, values, takes, _⟩ := read_iff_completes.mp again
      obtain ⟨rfl, rfl⟩ := longer.unique same
      rw [none] at takes
      exact (takes_zero_iff.mp takes).2
    · intro clear
      have takes := takes_zero_iff.mpr ⟨rfl, clear none⟩
      rw [← none] at takes
      exact read_iff_completes.mpr ⟨declared, _, longer, positive, [], takes, completes⟩
  · have closed : values.count 0 = declared.clauses := by
      rw [← full, completes.formula, ← length_clausesOf]
      rfl
    have takes := takes.append some closed (tokenLines more)
    exact iff_of_true
      (read_iff_completes.mpr ⟨declared, _, longer, positive, values, takes, completes⟩)
      fun none => absurd none (Nat.ne_of_gt some)

/-- A file that declares one clause and closes it. -/
def oneClause : List UInt8 :=
  utf8 "p cnf 1 1\n-1 0".toList

/-- A file that declares no clause. -/
def noClause : List UInt8 :=
  utf8 "p cnf 2 0".toList

/-- A second header. -/
def secondHeader : List UInt8 :=
  utf8 "p cnf 3 3".toList

/-- A second header and a byte that is not UTF-8 are ignored after the last clause. -/
theorem read_append_eq_ok_oneClause :
    (Begins (tokenLines oneClause) ⟨1, 1⟩ [some [['-', '1'], ['0']]] ∧
        read oneClause = .ok ⟨1, [[⟨1, false⟩]]⟩) ∧
      read (oneClause ++ newline :: (secondHeader ++ [255])) = .ok ⟨1, [[⟨1, false⟩]]⟩ := by
  have begins : Begins (tokenLines oneClause) ⟨1, 1⟩ [some [['-', '1'], ['0']]] :=
    .intro [] ['1'] ['1'] [] (by decide +kernel) (List.forall_mem_nil _)
      (Numeral.natural?_eq_some_iff.mp (by decide)) (Numeral.natural?_eq_some_iff.mp (by decide))
  have accepted : read oneClause = .ok ⟨1, [[⟨1, false⟩]]⟩ := by decide +kernel
  refine ⟨⟨begins, accepted⟩, (read_append_eq_ok_iff begins accepted rfl _).mpr ?_⟩
  exact fun none => absurd none (by decide)

/-- A second header is not ignored if the first one declares no clause. -/
theorem read_append_secondHeader : Begins (tokenLines noClause) ⟨2, 0⟩ [] ∧
    read noClause = .ok ⟨2, []⟩ ∧
    read (noClause ++ newline :: secondHeader) = .error (.malformed .duplicateHeader) := by
  refine ⟨?_, by decide +kernel, by decide +kernel⟩
  exact .intro [] ['2'] ['0'] [] (by decide +kernel) (List.forall_mem_nil _)
    (Numeral.natural?_eq_some_iff.mp (by decide)) (Numeral.natural?_eq_some_iff.mp (by decide))

end DavisPutnam.Dimacs
