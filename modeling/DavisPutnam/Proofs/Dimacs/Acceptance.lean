import DavisPutnam.Proofs.Dimacs.Format

/-!
The reader accepts exactly its format.

What a reader in the middle of a file still makes of it depends on the lines to
come through the values taken from them and nothing else: they have to complete
what was read before to closed clauses in range (`Completes`). This is shown for
the tokens of one line (`literals_outcome_iff`), then for all lines of the body
(`outcome_body_iff`) and those before it (`outcome_preamble_iff`).

`read_eq_ok_iff` puts it together: a file is read as a formula exactly if it
begins with a header, values can be taken from the lines after it, and these are
closed clauses in range, and then the formula has these clauses.
-/

namespace DavisPutnam.Dimacs

/-! ### Clauses from values -/

/-- The clauses that the values spell: the runs that a 0 ends. -/
def clausesOf (values : List Int) : List Clause :=
  ((values.splitOn 0).take (values.count 0)).map (List.filterMap Literal.ofSigned?)

/-- The formula that a file declares and its values spell. -/
def Header.formula (declared : Header) (values : List Int) : Formula where
  atoms := declared.atoms
  clauses := ((values.splitOn 0).take (min declared.clauses (values.count 0))).map
    (List.filterMap Literal.ofSigned?)

theorem clausesOf_append_cons {g : List Int} (unclosed : 0 ∉ g) (values : List Int) :
    clausesOf (g ++ 0 :: values) = g.filterMap Literal.ofSigned? :: clausesOf values := by
  have counted : (g ++ 0 :: values).count 0 = values.count 0 + 1 := by
    simp [List.count_append, List.count_eq_zero.mpr unclosed]
  simp [clausesOf, counted, List.splitOn_append_cons_self_of_not_mem unclosed]

/-- Every 0 ends one of the clauses that the values spell. -/
theorem length_clausesOf (values : List Int) : (clausesOf values).length = values.count 0 := by
  have runs : values.count 0 < (values.splitOn 0).length := by
    induction values with
    | nil => exact Nat.one_pos
    | cons x values ih =>
      rw [List.splitOn_cons_eq_if_modifyHead, List.count_cons]
      split
      · exact Nat.succ_lt_succ ih
      · rw [List.length_modifyHead]
        exact ih
  rw [clausesOf, List.length_map, List.length_take, Nat.min_eq_left (Nat.le_of_lt runs)]

/-- Values that end in a 0 if they are any have a 0 if they are any. -/
theorem eq_nil_of_closed {values : List Int} (closed : ∀ x ∈ values.getLast?, x = 0)
    (unclosed : 0 ∉ values) : values = [] := by
  cases last : values.getLast? with
  | none => exact List.getLast?_eq_none_iff.mp last
  | some x =>
    obtain rfl := closed x last
    exact absurd (List.mem_of_getLast? last) unclosed

/-- With the clauses `latest`, latest first, already added, the values complete
the formula. -/
structure Completes (atoms : Nat) (latest : List Clause) (values : List Int) (f : Formula) :
    Prop where
  /-- No clause is left open. -/
  closed : ∀ x ∈ values.getLast?, x = 0
  inRange : ∀ x ∈ values, x.natAbs ≤ atoms
  formula : f = ⟨atoms, latest.reverse ++ clausesOf values⟩

section Completes

variable {atoms : Nat} {latest : List Clause} {g values : List Int} {f : Formula}

theorem completes_open_iff (unclosed : 0 ∉ g) :
    Completes atoms latest g f ↔ g = [] ∧ f = ⟨atoms, latest.reverse⟩ := by
  constructor
  · rintro ⟨closed, inRange, formula⟩
    obtain rfl := eq_nil_of_closed closed unclosed
    exact ⟨rfl, by simpa [clausesOf] using formula⟩
  · rintro ⟨rfl, formula⟩
    exact ⟨by simp, by simp, by simpa [clausesOf] using formula⟩

/-- The first 0 closes a clause. -/
theorem completes_closed_iff (unclosed : 0 ∉ g) :
    Completes atoms latest (g ++ 0 :: values) f ↔
      (∀ x ∈ g, x.natAbs ≤ atoms) ∧
        Completes atoms (g.filterMap Literal.ofSigned? :: latest) values f := by
  have ends : (∀ x ∈ (g ++ 0 :: values).getLast?, x = 0) ↔ ∀ x ∈ values.getLast?, x = 0 := by
    cases values with
    | nil => simp
    | cons x values => simp [List.getLast?_append, List.getLast?_cons_cons]
  have spelled : latest.reverse ++ clausesOf (g ++ 0 :: values) =
      (g.filterMap Literal.ofSigned? :: latest).reverse ++ clausesOf values := by
    simp [clausesOf_append_cons unclosed]
  constructor
  · rintro ⟨closed, inRange, formula⟩
    refine ⟨fun x mem => inRange x (List.mem_append_left _ mem), ends.mp closed, ?_, ?_⟩
    · exact fun x mem => inRange x (List.mem_append_right _ (List.mem_cons_of_mem 0 mem))
    · rw [formula, spelled]
  · rintro ⟨first, closed, inRange, formula⟩
    refine ⟨ends.mpr closed, ?_, ?_⟩
    · intro x mem
      rcases List.mem_append.mp mem with mem | mem
      · exact first x mem
      rcases List.mem_cons.mp mem with rfl | mem
      · exact Nat.zero_le atoms
      · exact inRange x mem
    · rw [formula, spelled]

end Completes

/-! ### Outcomes -/

/-- What reading the remaining lines comes to. -/
def Reader.outcome (r : Reader) (remaining : List (List UInt8)) : Except Error Formula :=
  match r.lines remaining with
  | .error reason => .error reason
  | .ok last => last.finish

/-- What reading comes to after a line that has led so far. -/
def Progress.outcome (remaining : List (List UInt8)) :
    Except Error Progress → Except Error Formula
  | .error reason => .error reason
  | .ok (.stop last) => last.finish
  | .ok (.more next) => next.outcome remaining

section Outcome

variable {r : Reader} {bytes : List UInt8} {remaining : List (List UInt8)} {line : Line}

theorem outcome_nil : r.outcome [] = r.finish :=
  rfl

theorem outcome_of_unreadable (unreadable : lineTokens? bytes = none) :
    r.outcome (bytes :: remaining) = .error (.unreadable .notUtf8) := by
  have undecoded : decodeLine? bytes = none := Option.map_eq_none_iff.mp unreadable
  simp only [Reader.outcome, Reader.lines, undecoded]

theorem outcome_of_line (readable : lineTokens? bytes = some line) :
    r.outcome (bytes :: remaining) = Progress.outcome remaining (r.line line) := by
  obtain ⟨chars, decoded, rfl⟩ := Option.map_eq_some_iff.mp readable
  simp only [Reader.outcome, Reader.lines, decoded]
  cases r.line (tokens chars) with
  | error reason => rfl
  | ok progress => cases progress <;> rfl

end Outcome

namespace Reader

variable {r : Reader} {line : Line}

theorem line_of_skipped (skipped : line.kind = .skipped) : r.line line = .ok (.more r) := by
  unfold Line.kind at skipped
  split at skipped
  · rfl
  · split_ifs at skipped
    next comment => simp [Reader.line, comment]

theorem line_of_closing (closing : line.kind = .closing) : r.line line = .ok (.stop r) := by
  unfold Line.kind at closing
  split at closing
  · cases closing
  · split_ifs at closing
    next other mark => simp [Reader.line, mark]

theorem exists_of_header (header : line.kind = .header) : ∃ rest, line = ['p'] :: rest := by
  unfold Line.kind at header
  split at header
  · cases header
  · split_ifs at header
    next mark => exact ⟨_, congrArg (· :: _) mark⟩

theorem line_preamble_of_data (data : line.kind = .data) :
    Reader.preamble.line line = .error (.malformed .missingHeader) := by
  unfold Line.kind at data
  split at data
  · cases data
  · split_ifs at data
    next comment mark header => simp [Reader.line, comment, mark, header]

theorem line_body_of_data (data : line.kind = .data) (problem : Problem) (left : Nat)
    (pending : List Int) : (Reader.body problem left pending).line line =
      if left = 0 then .ok (.stop (.body problem left pending))
      else literals problem left pending line := by
  unfold Line.kind at data
  split at data
  · cases data
  · split_ifs at data
    next comment mark header => simp [Reader.line, comment, mark, header]

end Reader

/-! ### The body -/

section Tokens

variable {atoms clauses : Nat} {latest : List Clause} {g : List Int} {token : Token}
  {line : List Token} {file : List (Option Line)} {f : Formula}

/-- Only one integer can be the first value of a line. -/
theorem TakesFrom.exists_tail {x : Int} (numeral : Numeral.IsInteger token x) {values : List Int}
    (takes : TakesFrom clauses (token :: line) file values) : ∃ ys, values = x :: ys := by
  obtain ⟨y, ys, again, shape⟩ := takes.exists_head
  have same : some x = some y := (Numeral.integer?_eq_some_iff.mpr numeral).symm.trans
    (Numeral.integer?_eq_some_iff.mpr again)
  exact ⟨ys, Option.some.inj same ▸ shape⟩

theorem exists_takesFrom_cons_iff {x : Int} (numeral : Numeral.IsInteger token x)
    (nonzero : x ≠ 0) :
    (∃ values, TakesFrom clauses (token :: line) file values ∧
        Completes atoms latest (g ++ values) f) ↔
      ∃ ys, TakesFrom clauses line file ys ∧ Completes atoms latest (g ++ x :: ys) f := by
  constructor
  · rintro ⟨values, takes, completes⟩
    obtain ⟨ys, rfl⟩ := takes.exists_tail numeral
    exact ⟨ys, (takesFrom_cons_iff numeral nonzero).mp takes, completes⟩
  · rintro ⟨ys, takes, completes⟩
    exact ⟨x :: ys, (takesFrom_cons_iff numeral nonzero).mpr takes, completes⟩

theorem exists_takesFrom_cons_zero_iff (numeral : Numeral.IsInteger token 0) (unclosed : 0 ∉ g) :
    (∃ values, TakesFrom clauses (token :: line) file values ∧
        Completes atoms latest (g ++ values) f) ↔
      (∀ x ∈ g, x.natAbs ≤ atoms) ∧
        ∃ ys, (clauses = 1 ∧ ys = [] ∨ 1 < clauses ∧ TakesFrom (clauses - 1) line file ys) ∧
          Completes atoms (g.filterMap Literal.ofSigned? :: latest) ys f := by
  constructor
  · rintro ⟨values, takes, completes⟩
    obtain ⟨ys, rfl⟩ := takes.exists_tail numeral
    obtain ⟨inRange, completes⟩ := (completes_closed_iff unclosed).mp completes
    exact ⟨inRange, ys, (takesFrom_cons_zero_iff numeral).mp takes, completes⟩
  · rintro ⟨inRange, ys, takes, completes⟩
    exact ⟨0 :: ys, (takesFrom_cons_zero_iff numeral).mpr takes,
      (completes_closed_iff unclosed).mpr ⟨inRange, completes⟩⟩

end Tokens

section Body

variable {atoms : Nat} {latest : List Clause} {left : Nat} {pending : List Int} {f : Formula}
  {remaining : List (List UInt8)}

theorem finish_body_iff (left : Nat) (unclosed : 0 ∉ pending) :
    (Reader.body (.declared atoms latest) left pending).finish = .ok f ↔
      Completes atoms latest pending.reverse f := by
  rw [completes_open_iff (by simpa using unclosed)]
  cases pending with
  | nil => simp [Reader.finish, Problem.formula, eq_comm]
  | cons x pending => simp [Reader.finish]

theorem addClause_pending_iff (unclosed : 0 ∉ pending) {longer : Problem} :
    (Problem.declared atoms latest).addClause pending.reverse = (.ok (), longer) ↔
      (∀ x ∈ pending.reverse, x.natAbs ≤ atoms) ∧
        longer = .declared atoms (pending.reverse.filterMap Literal.ofSigned? :: latest) := by
  have nonzero : ∀ x ∈ pending.reverse, x ≠ 0 := fun x mem zero =>
    unclosed (List.mem_reverse.mp (zero ▸ mem))
  rw [Problem.addClause_declared_eq_ok_iff]
  exact and_congr_left fun _ => forall₂_congr fun x mem => and_iff_right (nonzero x mem)

/-- The outcome in the middle of a line of literals, given that of every state
after the line. -/
theorem literals_outcome_iff
    (after : ∀ (latest : List Clause) (left : Nat) (pending : List Int), 0 ∉ pending →
      ((Reader.body (.declared atoms latest) left pending).outcome remaining = .ok f ↔
        ∃ values, Takes left (remaining.map lineTokens?) values ∧
          Completes atoms latest (pending.reverse ++ values) f))
    (more : 0 < left) (unclosed : 0 ∉ pending) (line : List Token) :
    Progress.outcome remaining (Reader.literals (.declared atoms latest) left pending line) =
        .ok f ↔
      ∃ values, TakesFrom left line (remaining.map lineTokens?) values ∧
        Completes atoms latest (pending.reverse ++ values) f := by
  induction line generalizing latest left pending with
  | nil =>
    simp only [takesFrom_nil_iff more]
    exact after latest left pending unclosed
  | cons token line ih =>
    rw [Reader.literals]
    cases read : Numeral.integer? token with
    | none =>
      refine ⟨(nomatch ·), ?_⟩
      rintro ⟨values, takes, _⟩
      obtain ⟨x, ys, numeral, _⟩ := takes.exists_head
      cases read.symm.trans (Numeral.integer?_eq_some_iff.mpr numeral)
    | some x =>
      have numeral := Numeral.integer?_eq_some_iff.mp read
      dsimp only
      split
      · next zero =>
        subst zero
        rw [exists_takesFrom_cons_zero_iff numeral (by simpa using unclosed)]
        match added : (Problem.declared atoms latest).addClause pending.reverse with
        | (.error refusal, _) =>
          refine ⟨(nomatch ·), ?_⟩
          rintro ⟨inRange, _⟩
          cases added.symm.trans ((addClause_pending_iff unclosed).mpr ⟨inRange, rfl⟩)
        | (.ok (), longer) =>
          obtain ⟨inRange, rfl⟩ := (addClause_pending_iff unclosed).mp added
          rw [and_iff_right inRange]
          dsimp only
          split
          · next last =>
            obtain rfl : left = 1 := by omega
            simpa [Progress.outcome] using finish_body_iff 0 List.not_mem_nil
          · next others =>
            have several : left ≠ 1 ∧ 1 < left := by omega
            rw [ih (by omega) List.not_mem_nil]
            simp [several]
      · next nonzero =>
        have moved (ys : List Int) : pending.reverse ++ x :: ys = (x :: pending).reverse ++ ys := by
          simp
        have open_still : 0 ∉ x :: pending := by simp [unclosed, Ne.symm nonzero]
        rw [exists_takesFrom_cons_iff numeral nonzero, ih more open_still]
        simp only [moved]

/-- The outcome in the body of a file. -/
theorem outcome_body_iff (unclosed : 0 ∉ pending) :
    (Reader.body (.declared atoms latest) left pending).outcome remaining = .ok f ↔
      ∃ values, Takes left (remaining.map lineTokens?) values ∧
        Completes atoms latest (pending.reverse ++ values) f := by
  induction remaining generalizing latest left pending with
  | nil =>
    rw [outcome_nil, finish_body_iff left unclosed]
    simp [takes_nil_iff]
  | cons bytes remaining ih =>
    rw [List.map_cons]
    cases readable : lineTokens? bytes with
    | none =>
      rw [outcome_of_unreadable readable]
      exact ⟨(nomatch ·), fun ⟨_, takes, _⟩ => absurd takes not_takes_unreadable⟩
    | some line =>
      rw [outcome_of_line readable]
      cases kind : line.kind with
      | skipped =>
        rw [Reader.line_of_skipped kind]
        simp only [takes_skipped_iff kind]
        exact ih unclosed
      | closing =>
        rw [Reader.line_of_closing kind]
        simp only [takes_closing_iff kind, exists_eq_left, List.append_nil]
        exact finish_body_iff left unclosed
      | header =>
        obtain ⟨rest, rfl⟩ := Reader.exists_of_header kind
        exact ⟨(nomatch ·), fun ⟨_, takes, _⟩ => absurd takes (not_takes_header kind)⟩
      | data =>
        rw [Reader.line_body_of_data kind]
        split
        · next none =>
          subst none
          simp only [takes_data_of_none kind, exists_eq_left, List.append_nil]
          exact finish_body_iff 0 unclosed
        · next more =>
          have more : 0 < left := Nat.pos_of_ne_zero more
          simp only [takes_data_iff kind more]
          exact literals_outcome_iff (fun _ _ _ => ih) more unclosed line

end Body

/-! ### The whole file -/

theorem ofTokens_eq_ok_iff {tokens : List Token} {declared : Header} :
    Header.ofTokens tokens = .ok declared ↔
      ∃ atoms clauses extra, tokens = "cnf".toList :: atoms :: clauses :: extra ∧
        Numeral.IsNatural atoms declared.atoms ∧ Numeral.IsNatural clauses declared.clauses := by
  match tokens with
  | [] => simp [Header.ofTokens]
  | word :: rest =>
    by_cases cnf : word = "cnf".toList
    · subst cnf
      simp only [Header.ofTokens, if_true, List.cons.injEq, true_and,
        ← Numeral.natural?_eq_some_iff]
      match rest with
      | [] => simp
      | [atoms] => cases read : Numeral.natural? atoms <;> simp [read]
      | atoms :: clauses :: extra =>
        obtain ⟨n, m⟩ := declared
        cases first : Numeral.natural? atoms with
        | none => simp [first]
        | some n => cases second : Numeral.natural? clauses <;> simp [first, second]
    · simp only [Header.ofTokens, if_neg cnf, reduceCtorEq, false_iff]
      rintro ⟨atoms, clauses, extra, same, _⟩
      exact cnf (List.cons.inj same).1

theorem begins_header_iff {declared : Header} {tokens : List Token}
    {file rest : List (Option Line)} : Begins (some (['p'] :: tokens) :: file) declared rest ↔
      Header.ofTokens tokens = .ok declared ∧ rest = file := by
  rw [begins_cons_iff, ofTokens_eq_ok_iff]
  constructor
  · rintro (⟨line, same, skipped, _⟩ | ⟨atoms, clauses, extra, same, atomCount, clauseCount, after⟩)
    · cases same
      cases skipped
    · cases same
      exact ⟨⟨atoms, clauses, extra, rfl, atomCount, clauseCount⟩, after⟩
  · rintro ⟨⟨atoms, clauses, extra, rfl, atomCount, clauseCount⟩, after⟩
    exact .inr ⟨atoms, clauses, extra, rfl, atomCount, clauseCount, after⟩

theorem header_outcome_iff {tokens : List Token} {remaining : List (List UInt8)} {f : Formula} :
    Progress.outcome remaining (Reader.header tokens) = .ok f ↔
      ∃ declared, Header.ofTokens tokens = .ok declared ∧ 1 ≤ declared.atoms ∧
        ∃ values, Takes declared.clauses (remaining.map lineTokens?) values ∧
          Completes declared.atoms [] values f := by
  unfold Reader.header
  cases Header.ofTokens tokens with
  | error reason => simp [Progress.outcome]
  | ok declared =>
    simp only [Except.ok.injEq, exists_eq_left']
    match started : Problem.blank.declare declared.atoms with
    | (.error refusal, _) =>
      refine ⟨(nomatch ·), ?_⟩
      rintro ⟨positive, _⟩
      cases started.symm.trans (Problem.declare_blank_eq_ok_iff.mpr ⟨positive, rfl⟩)
    | (.ok (), problem) =>
      obtain ⟨positive, rfl⟩ := Problem.declare_blank_eq_ok_iff.mp started
      rw [and_iff_right positive]
      exact outcome_body_iff List.not_mem_nil

/-- The outcome before the header. -/
theorem outcome_preamble_iff {remaining : List (List UInt8)} {f : Formula} :
    Reader.preamble.outcome remaining = .ok f ↔
      ∃ declared rest, Begins (remaining.map lineTokens?) declared rest ∧ 1 ≤ declared.atoms ∧
        ∃ values, Takes declared.clauses rest values ∧ Completes declared.atoms [] values f := by
  induction remaining with
  | nil =>
    refine ⟨(nomatch ·), ?_⟩
    rintro ⟨declared, rest, begins, _⟩
    exact absurd begins not_begins_nil
  | cons bytes remaining ih =>
    rw [List.map_cons]
    cases readable : lineTokens? bytes with
    | none =>
      rw [outcome_of_unreadable readable]
      refine ⟨(nomatch ·), ?_⟩
      rintro ⟨declared, rest, begins, _⟩
      obtain ⟨line, same, _⟩ := kind_of_begins begins
      cases same
    | some line =>
      rw [outcome_of_line readable]
      have unlike {declared : Header} {rest : List (Option Line)}
          (begins : Begins (some line :: remaining.map lineTokens?) declared rest) :
          line.kind = .skipped ∨ line.kind = .header := by
        obtain ⟨_, same, kind⟩ := kind_of_begins begins
        cases same
        exact kind
      cases kind : line.kind with
      | skipped =>
        rw [Reader.line_of_skipped kind]
        simp only [begins_skipped_iff kind]
        exact ih
      | closing =>
        rw [Reader.line_of_closing kind]
        refine ⟨(nomatch ·), ?_⟩
        rintro ⟨declared, rest, begins, _⟩
        simpa [kind] using unlike begins
      | data =>
        rw [Reader.line_preamble_of_data kind]
        refine ⟨(nomatch ·), ?_⟩
        rintro ⟨declared, rest, begins, _⟩
        simpa [kind] using unlike begins
      | header =>
        obtain ⟨tokens, rfl⟩ := Reader.exists_of_header kind
        have started : Reader.preamble.line (['p'] :: tokens) = Reader.header tokens := rfl
        rw [started, header_outcome_iff]
        simp only [begins_header_iff, and_assoc, exists_and_left, exists_eq_left]

/-- What a file has to say to be read as a formula. -/
theorem read_iff_completes {bytes : List UInt8} {f : Formula} :
    read bytes = .ok f ↔
      ∃ declared rest, Begins (tokenLines bytes) declared rest ∧ 1 ≤ declared.atoms ∧
        ∃ values, Takes declared.clauses rest values ∧ Completes declared.atoms [] values f :=
  outcome_preamble_iff

/-- The pieces of a list hold nothing that is not in the list. -/
theorem mem_of_mem_splitOn {values g : List Int} {a x : Int} (piece : g ∈ values.splitOn a)
    (mem : x ∈ g) : x ∈ values := by
  induction values generalizing g with
  | nil =>
    rw [List.mem_singleton.mp piece] at mem
    exact mem
  | cons y values ih =>
    rw [List.splitOn_cons_eq_if_modifyHead] at piece
    cases pieces : values.splitOn a with
    | nil => exact absurd pieces (List.splitOn_ne_nil a values)
    | cons first others =>
      rw [pieces] at piece ih
      split at piece
      · rcases List.mem_cons.mp piece with rfl | piece
        · exact absurd mem List.not_mem_nil
        · exact List.mem_cons_of_mem y (ih piece mem)
      · rcases List.mem_cons.mp piece with rfl | piece
        · rcases List.mem_cons.mp mem with rfl | mem
          · exact List.mem_cons_self
          · exact List.mem_cons_of_mem y (ih List.mem_cons_self mem)
        · exact List.mem_cons_of_mem y (ih (List.mem_cons_of_mem first piece) mem)

/-- A formula that is read has an atom, and its literals are on its atoms. -/
theorem wellFormed_of_read {bytes : List UInt8} {f : Formula} (accepted : read bytes = .ok f) :
    1 ≤ f.atoms ∧ f.WellFormed := by
  obtain ⟨declared, _, _, positive, values, _, completes⟩ := read_iff_completes.mp accepted
  rw [completes.formula]
  refine ⟨positive, ?_⟩
  intro c mem l inside
  obtain ⟨g, piece, rfl⟩ := List.mem_map.mp mem
  obtain ⟨x, given, literal⟩ := List.mem_filterMap.mp inside
  have range : x.natAbs ≤ declared.atoms :=
    completes.inRange x (mem_of_mem_splitOn (List.mem_of_mem_take piece) given)
  obtain ⟨nonzero, rfl⟩ := Literal.ofSigned?_eq_some_iff.mp literal
  exact ⟨Int.natAbs_pos.mpr nonzero, range⟩

/-- No more clauses are closed by the values that are taken than are declared. -/
theorem Takes.count_zero_le {clauses : Nat} {file : List (Option Line)} {values : List Int}
    (takes : Takes clauses file values) : values.count 0 ≤ clauses := by
  obtain ⟨body, last, rest, shape, kinds, numerals, stops⟩ := takes
  have of_unfinished (untaken : last = []) (h : dataTokens body = [] ∨ values.count 0 < clauses) :
      values.count 0 ≤ clauses := by
    subst untaken
    rcases eq_nil_or_of_unfinished numerals h with rfl | fewer
    · exact Nat.zero_le clauses
    · exact Nat.le_of_lt fewer
  cases stops with
  | atEnd h => exact of_unfinished rfl h
  | atClosing _ h => exact of_unfinished rfl h
  | atLastZero _ _ _ complete => exact Nat.le_of_eq complete
  | atData _ first => exact of_unfinished rfl (.inl first)

/-- The clauses of a formula that is read are the first that its values spell, as
many as are declared and closed. -/
theorem Takes.completes_iff {declared : Header} {file : List (Option Line)} {values : List Int}
    {f : Formula} (takes : Takes declared.clauses file values) :
    Completes declared.atoms [] values f ↔
      (∀ x ∈ values.getLast?, x = 0) ∧ (∀ x ∈ values, x.natAbs ≤ declared.atoms) ∧
        f = declared.formula values := by
  have spelled : declared.formula values = ⟨declared.atoms, clausesOf values⟩ := by
    rw [Header.formula, Nat.min_eq_right takes.count_zero_le]
    rfl
  rw [spelled]
  exact ⟨fun ⟨closed, inRange, formula⟩ => ⟨closed, inRange, formula⟩,
    fun ⟨closed, inRange, formula⟩ => ⟨closed, inRange, formula⟩⟩

/-- **Acceptance.** A file is read as a formula exactly if it begins with a header
that declares at least one atom, values can be taken from the lines after it, the
last of them is 0, none is beyond the atom count, and the formula has the declared
atoms and the clauses that the values spell. -/
theorem read_eq_ok_iff {bytes : List UInt8} {f : Formula} :
    read bytes = .ok f ↔
      ∃ declared rest values, Begins (tokenLines bytes) declared rest ∧ 1 ≤ declared.atoms ∧
        Takes declared.clauses rest values ∧ (∀ x ∈ values.getLast?, x = 0) ∧
        (∀ x ∈ values, x.natAbs ≤ declared.atoms) ∧ f = declared.formula values := by
  rw [read_iff_completes]
  constructor
  · rintro ⟨declared, rest, begins, positive, values, takes, completes⟩
    exact ⟨declared, rest, values, begins, positive, takes, takes.completes_iff.mp completes⟩
  · rintro ⟨declared, rest, values, begins, positive, takes, complete⟩
    exact ⟨declared, rest, begins, positive, values, takes, takes.completes_iff.mpr complete⟩

end DavisPutnam.Dimacs
