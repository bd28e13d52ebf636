import DavisPutnam.Dimacs.Reader
import Mathlib.Data.List.Forall2

/-!
The DIMACS format, said of the lines of a file.

A file is seen as its lines, each cut into tokens unless it is not valid UTF-8.
`Begins` says that a list of lines starts with a header, and `Takes` which data
tokens are taken from the lines after it: the tokens of whole lines up to where
reading stops, and the tokens before that in the line at which it stops. Both
speak of the lines as a whole and know nothing of a reader's state. Lines that
are not reached are not restricted.

The sections after the definitions take `Begins` and `Takes` apart at the first
line (`takes_skipped_iff`, `takes_data_iff` and so on), and `TakesFrom` at the
first token (`takesFrom_cons_iff`), which is how a reader meets them.
-/

namespace DavisPutnam.Dimacs

/-! ### Lines -/

/-- The tokens of one line. -/
abbrev Line := List Token

/-- The tokens of a line, if it is valid UTF-8. -/
def lineTokens? (bytes : List UInt8) : Option Line :=
  (decodeLine? bytes).map tokens

/-- The lines of a file. -/
def tokenLines (bytes : List UInt8) : List (Option Line) :=
  (lines bytes).map lineTokens?

/-- What a line is for. -/
inductive LineKind where
  /-- A blank line or a comment. -/
  | skipped
  /-- A line that ends the file. -/
  | closing
  | header
  /-- A line of literals. -/
  | data
deriving DecidableEq

/-- The kind of a line, which its first token decides. -/
def Line.kind : Line → LineKind
  | [] => .skipped
  | word :: _ =>
    if word = ['c'] then .skipped
    else if word = ['%'] then .closing
    else if word = ['p'] then .header
    else .data

/-- The tokens of the lines that hold literals. -/
def dataTokens (body : List Line) : List Token :=
  (body.filter (·.kind == .data)).flatten

/-! ### Header and body -/

/-- Up to its first header the file has only blank lines and comments, and the
header is `p cnf N M`, where further tokens may follow. The lines after it are
`rest`. -/
inductive Begins (file : List (Option Line)) (declared : Header) (rest : List (Option Line)) :
    Prop where
  | intro (preamble : List Line) (atoms clauses : Token) (extra : List Token)
      (shape : file = preamble.map some ++
        some (['p'] :: "cnf".toList :: atoms :: clauses :: extra) :: rest)
      (skipped : ∀ line ∈ preamble, line.kind = .skipped)
      (atomCount : Numeral.IsNatural atoms declared.atoms)
      (clauseCount : Numeral.IsNatural clauses declared.clauses)

/-- Where reading stops when `clauses` clauses are declared: the data tokens
`whole` have been taken from lines read as a whole, then the tokens `last` from the
next line. All of them together have the given values, and `rest` are the lines
from that next line on. -/
inductive Stops (clauses : Nat) (whole : List Token) (values : List Int) :
    List Token → List (Option Line) → Prop where
  /-- At the end of the file. -/
  | atEnd (unfinished : whole = [] ∨ values.count 0 < clauses) : Stops clauses whole values [] []
  /-- At a line that ends the file. -/
  | atClosing {line : Line} {rest : List (Option Line)} (closing : line.kind = .closing)
      (unfinished : whole = [] ∨ values.count 0 < clauses) :
      Stops clauses whole values [] (some line :: rest)
  /-- At the 0 that closes the last declared clause. -/
  | atLastZero {last unread : List Token} {rest : List (Option Line)}
      (data : Line.kind (last ++ unread) = .data) (within : last ≠ [])
      (zero : values.getLast? = some 0) (complete : values.count 0 = clauses) :
      Stops clauses whole values last (some (last ++ unread) :: rest)
  /-- At the first line of literals, if no clause is declared. -/
  | atData {line : Line} {rest : List (Option Line)} (none : clauses = 0) (first : whole = [])
      (data : line.kind = .data) : Stops clauses whole values [] (some line :: rest)

/-- The data tokens that are taken from the lines after a header that declares
`clauses` clauses have the given values. -/
inductive Takes (clauses : Nat) (file : List (Option Line)) (values : List Int) : Prop where
  | intro (body : List Line) (last : List Token) (rest : List (Option Line))
      (shape : file = body.map some ++ rest)
      (kinds : ∀ line ∈ body, line.kind = .skipped ∨ line.kind = .data)
      (numerals : List.Forall₂ Numeral.IsInteger (dataTokens body ++ last) values)
      (stops : Stops clauses (dataTokens body) values last rest)

/-! ### The first line -/

theorem Line.ne_nil_of_data {line : Line} (data : line.kind = .data) : line ≠ [] := by
  rintro rfl
  cases data

theorem dataTokens_cons_skipped {line : Line} (skipped : line.kind = .skipped)
    (body : List Line) : dataTokens (line :: body) = dataTokens body := by
  simp [dataTokens, skipped]

theorem dataTokens_cons_data {line : Line} (data : line.kind = .data) (body : List Line) :
    dataTokens (line :: body) = line ++ dataTokens body := by
  simp [dataTokens, data]

theorem not_begins_nil {declared : Header} {rest : List (Option Line)} :
    ¬ Begins [] declared rest := by
  rintro ⟨preamble, atoms, clauses, extra, shape, _⟩
  simp at shape

/-- The first line up to a header is passed over, or it is the header. -/
theorem begins_cons_iff {declared : Header} {entry : Option Line}
    {file rest : List (Option Line)} : Begins (entry :: file) declared rest ↔
      (∃ line : Line, entry = some line ∧ line.kind = .skipped ∧ Begins file declared rest) ∨
        ∃ atoms clauses extra, entry = some (['p'] :: "cnf".toList :: atoms :: clauses :: extra) ∧
          Numeral.IsNatural atoms declared.atoms ∧ Numeral.IsNatural clauses declared.clauses ∧
          rest = file := by
  constructor
  · rintro ⟨preamble, atoms, clauses, extra, shape, skipped, atomCount, clauseCount⟩
    cases preamble with
    | nil =>
      obtain ⟨rfl, rfl⟩ := List.cons.inj shape
      exact .inr ⟨atoms, clauses, extra, rfl, atomCount, clauseCount, rfl⟩
    | cons line preamble =>
      obtain ⟨rfl, rfl⟩ := List.cons.inj shape
      obtain ⟨first, others⟩ := List.forall_mem_cons.mp skipped
      exact .inl ⟨line, rfl, first, preamble, atoms, clauses, extra, rfl, others, atomCount,
        clauseCount⟩
  · rintro (⟨line, rfl, first, preamble, atoms, clauses, extra, rfl, others, atomCount,
      clauseCount⟩ | ⟨atoms, clauses, extra, rfl, atomCount, clauseCount, rfl⟩)
    · exact ⟨line :: preamble, atoms, clauses, extra, rfl,
        List.forall_mem_cons.mpr ⟨first, others⟩, atomCount, clauseCount⟩
    · exact ⟨[], atoms, clauses, extra, rfl, by simp, atomCount, clauseCount⟩

theorem begins_skipped_iff {declared : Header} {line : Line} {file rest : List (Option Line)}
    (skipped : line.kind = .skipped) :
    Begins (some line :: file) declared rest ↔ Begins file declared rest := by
  rw [begins_cons_iff]
  constructor
  · rintro (⟨_, same, _, begins⟩ | ⟨atoms, clauses, extra, same, _⟩)
    · exact begins
    · cases same
      cases skipped
  · exact fun begins => .inl ⟨line, rfl, skipped, begins⟩

/-- A line that is passed over or a header has to come first. -/
theorem kind_of_begins {declared : Header} {entry : Option Line} {file rest : List (Option Line)}
    (begins : Begins (entry :: file) declared rest) :
    ∃ line : Line, entry = some line ∧ (line.kind = .skipped ∨ line.kind = .header) := by
  rcases begins_cons_iff.mp begins with
    ⟨line, same, skipped, _⟩ | ⟨atoms, clauses, extra, same, _⟩
  · exact ⟨line, same, .inl skipped⟩
  · exact ⟨_, same, .inr rfl⟩

section FirstLine

variable {clauses : Nat} {line : Line} {file : List (Option Line)} {values : List Int}

/-- Before the end of the declared clauses, what was taken closes too few of them,
or nothing was taken. -/
theorem eq_nil_or_of_unfinished {whole : List Token}
    (numerals : List.Forall₂ Numeral.IsInteger (whole ++ []) values)
    (unfinished : whole = [] ∨ values.count 0 < clauses) :
    values = [] ∨ values.count 0 < clauses := by
  refine unfinished.imp_left ?_
  rintro rfl
  exact List.forall₂_nil_left_iff.mp numerals

theorem takes_nil_iff : Takes clauses [] values ↔ values = [] := by
  constructor
  · rintro ⟨body, last, rest, shape, kinds, numerals, stops⟩
    obtain ⟨none, rfl⟩ := List.append_eq_nil_iff.mp shape.symm
    obtain rfl := List.map_eq_nil_iff.mp none
    cases stops with
    | atEnd => exact List.forall₂_nil_left_iff.mp numerals
  · rintro rfl
    exact ⟨[], [], [], rfl, by simp, .nil, .atEnd (.inl rfl)⟩

/-- A line that is not valid UTF-8 cannot be passed. -/
theorem not_takes_unreadable : ¬ Takes clauses (none :: file) values := by
  rintro ⟨body, last, rest, shape, kinds, numerals, stops⟩
  cases body with
  | nil => subst shape; cases stops
  | cons first body => simp at shape

/-- A further header cannot be passed. -/
theorem not_takes_header (header : line.kind = .header) :
    ¬ Takes clauses (some line :: file) values := by
  rintro ⟨body, last, rest, shape, kinds, numerals, stops⟩
  cases body with
  | nil =>
    subst shape
    cases stops <;> simp_all
  | cons first body =>
    obtain ⟨rfl, -⟩ : line = first ∧ _ := by simpa using shape
    simpa [header] using kinds line List.mem_cons_self

theorem takes_closing_iff (closing : line.kind = .closing) :
    Takes clauses (some line :: file) values ↔ values = [] := by
  constructor
  · rintro ⟨body, last, rest, shape, kinds, numerals, stops⟩
    cases body with
    | nil =>
      subst shape
      cases stops with
      | atClosing => exact List.forall₂_nil_left_iff.mp numerals
      | atLastZero data => cases closing.symm.trans data
      | atData _ _ data => cases closing.symm.trans data
    | cons first body =>
      obtain ⟨rfl, -⟩ : line = first ∧ _ := by simpa using shape
      simpa [closing] using kinds line List.mem_cons_self
  · rintro rfl
    exact ⟨[], [], some line :: file, rfl, by simp, .nil, .atClosing closing (.inl rfl)⟩

theorem takes_skipped_iff (skipped : line.kind = .skipped) :
    Takes clauses (some line :: file) values ↔ Takes clauses file values := by
  constructor
  · rintro ⟨body, last, rest, shape, kinds, numerals, stops⟩
    cases body with
    | nil =>
      subst shape
      cases stops <;> simp_all
    | cons first body =>
      obtain ⟨rfl, after⟩ : line = first ∧ file = body.map some ++ rest := by simpa using shape
      rw [dataTokens_cons_skipped skipped] at numerals stops
      exact ⟨body, last, rest, after, fun k mem => kinds k (List.mem_cons_of_mem line mem),
        numerals, stops⟩
  · rintro ⟨body, last, rest, rfl, kinds, numerals, stops⟩
    refine ⟨line :: body, last, rest, rfl, List.forall_mem_cons.mpr ⟨.inl skipped, kinds⟩, ?_, ?_⟩
    · rwa [dataTokens_cons_skipped skipped]
    · rwa [dataTokens_cons_skipped skipped]

/-- If no clause is declared, no line of literals is looked into. -/
theorem takes_data_of_none (data : line.kind = .data) :
    Takes 0 (some line :: file) values ↔ values = [] := by
  have inhabited := Line.ne_nil_of_data data
  constructor
  · rintro ⟨body, last, rest, shape, kinds, numerals, stops⟩
    cases body with
    | nil =>
      subst shape
      cases stops with
      | atClosing closing => cases data.symm.trans closing
      | atLastZero _ _ zero complete =>
        exact absurd (List.mem_of_getLast? zero) (List.count_eq_zero.mp complete)
      | atData => exact List.forall₂_nil_left_iff.mp numerals
    | cons first body =>
      obtain ⟨rfl, -⟩ : line = first ∧ _ := by simpa using shape
      rw [dataTokens_cons_data data] at stops
      cases stops with
      | atEnd unfinished => simp_all
      | atClosing _ unfinished => simp_all
      | atLastZero _ _ zero complete =>
        exact absurd (List.mem_of_getLast? zero) (List.count_eq_zero.mp complete)
      | atData _ none => simp_all
  · rintro rfl
    exact ⟨[], [], some line :: file, rfl, by simp, .nil, .atData rfl rfl data⟩

/-- How a line of literals, or what is left of one, goes on with the lines after
it while a clause is still to be read: it is taken as a whole and does not close the
last clause, or it is taken up to the 0 that does. -/
inductive TakesFrom (clauses : Nat) (line : List Token) (file : List (Option Line)) :
    List Int → Prop where
  | whole {xs ys : List Int} (numerals : List.Forall₂ Numeral.IsInteger line xs)
      (unfinished : xs.count 0 < clauses) (next : Takes (clauses - xs.count 0) file ys) :
      TakesFrom clauses line file (xs ++ ys)
  | upTo {last unread : List Token} {values : List Int} (shape : line = last ++ unread)
      (numerals : List.Forall₂ Numeral.IsInteger last values)
      (zero : values.getLast? = some 0) (complete : values.count 0 = clauses) :
      TakesFrom clauses line file values

theorem exists_of_forall₂_append {α β : Type} {R : α → β → Prop} {as bs : List α} {zs : List β}
    (h : List.Forall₂ R (as ++ bs) zs) :
    ∃ xs ys, List.Forall₂ R as xs ∧ List.Forall₂ R bs ys ∧ zs = xs ++ ys := by
  induction as generalizing zs with
  | nil => exact ⟨[], zs, .nil, h, rfl⟩
  | cons a as ih =>
    obtain ⟨z, zs, head, tail, rfl⟩ := List.forall₂_cons_left_iff.mp h
    obtain ⟨xs, ys, first, second, rfl⟩ := ih tail
    exact ⟨z :: xs, ys, .cons head first, second, rfl⟩

/-- With one more line of literals read as a whole, reading stops where it would
without that line and without the clauses that end in it. -/
theorem stops_append_iff {whole last : List Token} {rest : List (Option Line)} {xs ys : List Int}
    (inhabited : line ≠ []) (left : 0 < clauses)
    (numerals : List.Forall₂ Numeral.IsInteger (whole ++ last) ys) :
    Stops clauses (line ++ whole) (xs ++ ys) last rest ↔
      xs.count 0 < clauses ∧ Stops (clauses - xs.count 0) whole ys last rest := by
  have counted : (xs ++ ys).count 0 = xs.count 0 + ys.count 0 := List.count_append
  have started : line ++ whole ≠ [] := by simp [inhabited]
  have unfinished_iff (none : last = []) :
      (line ++ whole = [] ∨ (xs ++ ys).count 0 < clauses) ↔
        xs.count 0 < clauses ∧ (whole = [] ∨ ys.count 0 < clauses - xs.count 0) := by
    subst none
    rw [counted]
    simp only [started, false_or]
    constructor
    · intro fewer
      exact ⟨by omega, .inr (by omega)⟩
    · rintro ⟨fewer, unfinished⟩
      rcases eq_nil_or_of_unfinished numerals unfinished with rfl | fewer
      · simpa using fewer
      · omega
  constructor
  · intro stops
    cases stops with
    | atEnd unfinished =>
      obtain ⟨fewer, unfinished⟩ := (unfinished_iff rfl).mp unfinished
      exact ⟨fewer, .atEnd unfinished⟩
    | atClosing closing unfinished =>
      obtain ⟨fewer, unfinished⟩ := (unfinished_iff rfl).mp unfinished
      exact ⟨fewer, .atClosing closing unfinished⟩
    | atLastZero data within zero complete =>
      have taken : ys ≠ [] := by
        rintro rfl
        cases List.append_eq_nil_iff.mp (List.forall₂_nil_right_iff.mp numerals) with
        | intro _ none => exact within none
      rw [List.getLast?_append_of_ne_nil _ taken] at zero
      have : 0 < ys.count 0 := List.count_pos_iff.mpr (List.mem_of_getLast? zero)
      exact ⟨by omega, .atLastZero data within zero (by omega)⟩
    | atData none => omega
  · rintro ⟨fewer, stops⟩
    cases stops with
    | atEnd unfinished => exact .atEnd ((unfinished_iff rfl).mpr ⟨fewer, unfinished⟩)
    | atClosing closing unfinished =>
      exact .atClosing closing ((unfinished_iff rfl).mpr ⟨fewer, unfinished⟩)
    | atLastZero data within zero complete =>
      refine .atLastZero data within ?_ (by omega)
      rw [List.getLast?_append, zero]
      rfl
    | atData none => omega

theorem takes_data_iff (data : line.kind = .data) (left : 0 < clauses) :
    Takes clauses (some line :: file) values ↔ TakesFrom clauses line file values := by
  have inhabited := Line.ne_nil_of_data data
  constructor
  · rintro ⟨body, last, rest, shape, kinds, numerals, stops⟩
    cases body with
    | nil =>
      subst shape
      cases stops with
      | atClosing closing => cases data.symm.trans closing
      | atLastZero _ _ zero complete => exact .upTo rfl numerals zero complete
      | atData none => omega
    | cons first body =>
      obtain ⟨rfl, after⟩ : line = first ∧ file = body.map some ++ rest := by simpa using shape
      rw [dataTokens_cons_data data] at numerals stops
      rw [List.append_assoc] at numerals
      obtain ⟨xs, ys, first, next, rfl⟩ := exists_of_forall₂_append numerals
      obtain ⟨unfinished, stops⟩ := (stops_append_iff inhabited left next).mp stops
      exact .whole first unfinished
        ⟨body, last, rest, after, fun k mem => kinds k (List.mem_cons_of_mem line mem), next, stops⟩
  · intro takes
    cases takes with
    | whole first unfinished next =>
      obtain ⟨body, last, rest, rfl, kinds, numerals, stops⟩ := next
      refine ⟨line :: body, last, rest, rfl, List.forall_mem_cons.mpr ⟨.inr data, kinds⟩, ?_, ?_⟩
      · rw [dataTokens_cons_data data, List.append_assoc]
        exact List.rel_append first numerals
      · rw [dataTokens_cons_data data]
        exact (stops_append_iff inhabited left numerals).mpr ⟨unfinished, stops⟩
    | @upTo last unread _ shape numerals zero complete =>
      subst shape
      refine ⟨[], last, some (last ++ unread) :: file, rfl, by simp, numerals,
        .atLastZero data ?_ zero complete⟩
      rintro rfl
      cases numerals
      cases zero

/-! ### The first token -/

variable {token : Token} {rest : List Token}

theorem takesFrom_nil_iff (left : 0 < clauses) :
    TakesFrom clauses [] file values ↔ Takes clauses file values := by
  constructor
  · rintro (⟨numerals, unfinished, next⟩ | ⟨shape, numerals, zero, complete⟩)
    · cases numerals
      exact next
    · obtain ⟨rfl, -⟩ := List.append_eq_nil_iff.mp shape.symm
      cases numerals
      cases zero
  · intro next
    exact TakesFrom.whole (List.Forall₂.nil (R := Numeral.IsInteger)) left next

theorem TakesFrom.exists_head (takes : TakesFrom clauses (token :: rest) file values) :
    ∃ x ys, Numeral.IsInteger token x ∧ values = x :: ys := by
  cases takes with
  | whole numerals unfinished next =>
    obtain ⟨x, xs, head, _, rfl⟩ := List.forall₂_cons_left_iff.mp numerals
    exact ⟨x, _, head, rfl⟩
  | @upTo last unread _ shape numerals zero complete =>
    cases last with
    | nil => cases numerals; cases zero
    | cons first last =>
      obtain ⟨x, xs, head, _, rfl⟩ := List.forall₂_cons_left_iff.mp numerals
      obtain ⟨rfl, -⟩ := List.cons.inj shape
      exact ⟨x, xs, head, rfl⟩

/-- A token that is not 0 leaves the number of clauses to be read as it is. -/
theorem takesFrom_cons_iff {x : Int} {ys : List Int} (numeral : Numeral.IsInteger token x)
    (nonzero : x ≠ 0) : TakesFrom clauses (token :: rest) file (x :: ys) ↔
      TakesFrom clauses rest file ys := by
  have counted (zs : List Int) : (x :: zs).count 0 = zs.count 0 := List.count_cons_of_ne nonzero
  constructor
  · generalize same : x :: ys = values
    intro takes
    cases takes with
    | @whole xs zs numerals unfinished next =>
      obtain ⟨y, xs, head, tail, rfl⟩ := List.forall₂_cons_left_iff.mp numerals
      obtain ⟨rfl, rfl⟩ := List.cons.inj same
      rw [counted] at unfinished next
      exact .whole tail unfinished next
    | @upTo last unread _ shape numerals zero complete =>
      subst same
      cases numerals with
      | @cons first _ last _ head tail =>
        obtain ⟨rfl, after⟩ := List.cons.inj shape
        rw [counted] at complete
        refine .upTo after tail ?_ complete
        cases ys with
        | nil => exact absurd (Option.some.inj zero) nonzero
        | cons y ys => rwa [List.getLast?_cons_cons] at zero
  · intro takes
    cases takes with
    | whole numerals unfinished next =>
      rw [← counted] at unfinished next
      exact .whole (.cons numeral numerals) unfinished next
    | upTo shape numerals zero complete =>
      refine .upTo (congrArg _ shape) (.cons numeral numerals) ?_ ((counted ys).trans complete)
      rw [List.getLast?_cons, zero]
      rfl

/-- A 0 closes a clause: either the last one, or one more is left to be read. -/
theorem takesFrom_cons_zero_iff {ys : List Int} (numeral : Numeral.IsInteger token 0) :
    TakesFrom clauses (token :: rest) file (0 :: ys) ↔
      (clauses = 1 ∧ ys = []) ∨ (1 < clauses ∧ TakesFrom (clauses - 1) rest file ys) := by
  have counted (zs : List Int) : (0 :: zs).count 0 = zs.count 0 + 1 := List.count_cons_self
  have fewer (n : Nat) : clauses - (n + 1) = clauses - 1 - n := by omega
  constructor
  · generalize same : 0 :: ys = values
    intro takes
    cases takes with
    | @whole xs zs numerals unfinished next =>
      obtain ⟨y, xs, head, tail, rfl⟩ := List.forall₂_cons_left_iff.mp numerals
      obtain ⟨rfl, rfl⟩ := List.cons.inj same
      rw [counted] at unfinished next
      exact .inr ⟨by omega, .whole tail (by omega) (fewer _ ▸ next)⟩
    | @upTo last unread _ shape numerals zero complete =>
      subst same
      cases numerals with
      | @cons first _ last _ head tail =>
        obtain ⟨rfl, after⟩ := List.cons.inj shape
        rw [counted] at complete
        cases ys with
        | nil => exact .inl ⟨complete.symm, rfl⟩
        | cons y ys =>
          rw [List.getLast?_cons_cons] at zero
          have : 0 < (y :: ys).count 0 := List.count_pos_iff.mpr (List.mem_of_getLast? zero)
          exact .inr ⟨by omega, .upTo after tail zero (by omega)⟩
  · rintro (⟨rfl, rfl⟩ | ⟨more, takes⟩)
    · exact .upTo List.singleton_append.symm (.cons numeral .nil) rfl rfl
    · cases takes with
      | @whole xs zs numerals unfinished next =>
        have more : (0 :: xs).count 0 < clauses := by
          rw [counted]
          omega
        have after : Takes (clauses - (0 :: xs).count 0) file zs := by rwa [counted, fewer]
        exact TakesFrom.whole (.cons numeral numerals) more after
      | upTo shape numerals zero complete =>
        refine .upTo (congrArg _ shape) (.cons numeral numerals) ?_ ?_
        · rw [List.getLast?_cons, zero]
          rfl
        · rw [counted]
          omega

end FirstLine

end DavisPutnam.Dimacs
