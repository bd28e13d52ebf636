import DavisPutnam.Proofs.Dimacs.Acceptance
import DavisPutnam.Proofs.Dimacs.Text

/-!
Formulas written as files, in any layout, and read back.

The tokens of a formula are the texts of its literals, clause by clause, with a 0
after each clause (`Formula.tokens`). `Layout` says that a text is a file of the
formula: a header, then the tokens over any number of lines, with any white space
between them and with blank lines and comments anywhere. `read_of_layout` reads
the formula back from each such file.
-/

namespace DavisPutnam

/-! ### Tokens of a formula -/

namespace Clause

/-- The signed forms of the literals and the 0 that closes the clause. -/
def values (c : Clause) : List Int :=
  c.map Literal.signed ++ [0]

/-- The texts of the literals and the 0 that closes the clause. -/
def tokens (c : Clause) : List Dimacs.Token :=
  c.map (·.text.toList) ++ [['0']]

/-- Every literal is on one of the atoms `1, …, atoms` and has a signed form of its
own. -/
def Writable (atoms : Nat) (c : Clause) : Prop :=
  ∀ l ∈ c, l.InRange (min atoms (Word.half - 1))

instance (atoms : Nat) (c : Clause) : Decidable (c.Writable atoms) := by
  unfold Writable; infer_instance

end Clause

/-- The tokens of the clauses, one after the other. -/
def Formula.tokens (f : Formula) : List Dimacs.Token :=
  f.clauses.flatMap Clause.tokens

/-- The clauses can be written with their signed forms. -/
def Formula.Writable (f : Formula) : Prop :=
  ∀ c ∈ f.clauses, c.Writable f.atoms

instance (f : Formula) : Decidable f.Writable := by
  unfold Formula.Writable; infer_instance

/-! ### Literals with signed forms of their own -/

namespace Clause.Writable

variable {atoms : Nat} {c : Clause}

theorem literal (writable : c.Writable atoms) {l : Literal} (mem : l ∈ c) :
    1 ≤ l.atom ∧ l.atom ≤ atoms ∧ l.atom < Word.half := by
  obtain ⟨named, bounded⟩ := writable l mem
  have positive : 0 < Word.half := by decide
  omega

theorem numerals (writable : c.Writable atoms) :
    List.Forall₂ Numeral.IsInteger c.tokens c.values := by
  refine List.rel_append ?_ (.cons (Numeral.integer?_eq_some_iff.mp (by decide)) .nil)
  rw [List.forall₂_map_left_iff, List.forall₂_map_right_iff, List.forall₂_same]
  intro l mem
  have fits := Literal.fitsSigned_signed (writable.literal mem).2.2
  rw [Literal.text, Numeral.ofInt, String.toList_ofList]
  exact Numeral.integer?_eq_some_iff.mp (Numeral.integer?_signedDigits fits)

theorem filterMap_signed (writable : c.Writable atoms) :
    (c.map Literal.signed).filterMap Literal.ofSigned? = c := by
  have read : ∀ l ∈ c, (Literal.ofSigned? ∘ Literal.signed) l = some l := by
    intro l mem
    obtain ⟨named, _, small⟩ := writable.literal mem
    exact Literal.ofSigned?_signed named small
  rw [List.filterMap_map, List.filterMap_congr read, List.filterMap_some]

theorem magnitude (writable : c.Writable atoms) :
    ∀ x ∈ c.map Literal.signed, 1 ≤ x.natAbs ∧ x.natAbs ≤ atoms := by
  intro x mem
  obtain ⟨l, inside, rfl⟩ := List.mem_map.mp mem
  obtain ⟨named, bounded, small⟩ := writable.literal inside
  rw [Literal.natAbs_signed small]
  exact ⟨named, bounded⟩

theorem zero_not_mem (writable : c.Writable atoms) :
    0 ∉ c.map Literal.signed := by
  intro mem
  exact absurd (writable.magnitude 0 mem).1 (by decide)

end Clause.Writable

namespace Dimacs

/-! ### Layouts -/

/-- A line without tokens of a formula: a blank one or a comment. -/
inductive Filler : List Char → Prop where
  | blank {space : List Char} (blanks : ∀ c ∈ space, isBlank c = true) : Filler space
  | comment {space rest : List Char} (blanks : ∀ c ∈ space, isBlank c = true)
      (apart : ∀ c ∈ rest.head?, isBlank c = true) : Filler (space ++ 'c' :: rest)

/-- The lines hold the tokens in order, as many in each line as one likes. -/
inductive Spread : List Token → List (List Char) → Prop where
  | done : Spread [] []
  | filler {ts : List Token} {line : List Char} {text : List (List Char)} (filler : Filler line)
      (next : Spread ts text) : Spread ts (line :: text)
  | row {first others : List Token} {line : List Char} {text : List (List Char)}
      (spaced : Spaced first line) (next : Spread others text) :
      Spread (first ++ others) (line :: text)

/-- The text is a file of the formula, with a header that declares the given
number of clauses. -/
inductive Layout (f : Formula) (declared : Nat) (text : List Char) : Prop where
  | intro (preamble : List (List Char)) (header : List Char) (body : List (List Char))
      (shape : text = ['\n'].intercalate (preamble ++ header :: body))
      (whole : ∀ line ∈ preamble ++ header :: body, '\n' ∉ line)
      (fillers : ∀ line ∈ preamble, Filler line)
      (first : Spaced [['p'], "cnf".toList, Numeral.digits f.atoms, Numeral.digits declared]
        header)
      (others : Spread f.tokens body)

/-! ### The lines of a layout -/

theorem solid_of_isMagnitude {token : Token} {n : Nat} (digits : Numeral.IsMagnitude token n) :
    Solid token :=
  ⟨digits.1, fun c mem => isBlank_eq_false_of_isDigit (digits.2.1 c mem)⟩

theorem solid_of_isInteger {token : Token} {x : Int} (numeral : Numeral.IsInteger token x) :
    Solid token := by
  have signed {sign : Char} {rest : Token} (visible : isBlank sign = false) (solid : Solid rest) :
      Solid (sign :: rest) :=
    ⟨List.cons_ne_nil sign rest, List.forall_mem_cons.mpr ⟨visible, solid.2⟩⟩
  cases numeral with
  | bare digits => exact solid_of_isMagnitude digits
  | plus digits => exact signed (by decide) (solid_of_isMagnitude digits)
  | minus digits => exact signed (by decide) (solid_of_isMagnitude digits)

theorem solid_of_mem {ts : List Token} {values : List Int}
    (numerals : List.Forall₂ Numeral.IsInteger ts values) : ∀ token ∈ ts, Solid token := by
  induction numerals with
  | nil => simp
  | cons numeral _ ih => exact List.forall_mem_cons.mpr ⟨solid_of_isInteger numeral, ih⟩

/-- A line that starts with an integer is a line of literals. -/
theorem kind_of_isInteger {token : Token} {x : Int} (numeral : Numeral.IsInteger token x)
    (rest : List Token) : Line.kind (token :: rest) = .data := by
  have unlike {word : Token} (unread : Numeral.integer? word = none) : token ≠ word := by
    rintro rfl
    cases unread.symm.trans (Numeral.integer?_eq_some_iff.mpr numeral)
  have comment : token ≠ ['c'] := unlike (by decide)
  have mark : token ≠ ['%'] := unlike (by decide)
  have header : token ≠ ['p'] := unlike (by decide)
  simp [Line.kind, comment, mark, header]

theorem kind_of_filler {line : List Char} (filler : Filler line) :
    Line.kind (tokens line) = .skipped := by
  cases filler with
  | blank blanks =>
    rw [tokens_of_blanks blanks]
    rfl
  | @comment space rest blanks apart =>
    have word : Solid ['c'] := by decide
    have read : tokens ('c' :: rest) = ['c'] :: tokens rest := tokens_append word apart
    rw [tokens_append_of_blanks blanks, read]
    rfl

/-- The lines of a text, read from its file. -/
theorem tokenLines_utf8_intercalate {text : List (List Char)} (inhabited : text ≠ [])
    (whole : ∀ line ∈ text, '\n' ∉ line) :
    tokenLines (utf8 (['\n'].intercalate text)) = text.map fun line => some (tokens line) := by
  unfold tokenLines
  rw [lines_utf8_intercalate inhabited whole, List.map_map]
  refine List.map_congr_left fun line _ => ?_
  rw [Function.comp_apply, lineTokens?, decodeLine?_utf8]
  rfl

/-! ### Reading a layout -/

/-- The values that the tokens of the lines stand for are taken from these lines,
if the last of them is 0 and no more clauses end in them than are declared. -/
theorem takes_of_spread {ts : List Token} {text : List (List Char)} (spread : Spread ts text)
    {values : List Int} (numerals : List.Forall₂ Numeral.IsInteger ts values)
    (closed : ∀ x ∈ values.getLast?, x = 0) {clauses : Nat} (enough : values.count 0 ≤ clauses) :
    Takes clauses (text.map fun line => some (tokens line)) values := by
  induction spread generalizing values clauses with
  | done =>
    cases numerals
    exact takes_nil_iff.mpr rfl
  | filler filler next ih =>
    exact (takes_skipped_iff (kind_of_filler filler)).mpr (ih numerals closed enough)
  | @row first others line text spaced next ih =>
    obtain ⟨xs, ys, head, tail, rfl⟩ := exists_of_forall₂_append numerals
    rw [List.map_cons, tokens_of_spaced spaced (solid_of_mem head)]
    cases head with
    | nil => exact (takes_skipped_iff rfl).mpr (ih tail closed enough)
    | @cons token x first xs numeral head =>
      have head := List.Forall₂.cons numeral head
      have data := kind_of_isInteger numeral first
      have counted : (x :: xs ++ ys).count 0 = (x :: xs).count 0 + ys.count 0 := List.count_append
      have next : ∀ y ∈ ys.getLast?, y = 0 := fun y last =>
        closed y (by rw [List.getLast?_append, Option.mem_def.mp last]; rfl)
      by_cases unfinished : (x :: xs).count 0 < clauses
      · exact (takes_data_iff data (by omega)).mpr
          (.whole head unfinished (ih tail next (by omega)))
      -- The last declared clause is closed in this line, so nothing is left for the others.
      · obtain rfl : ys = [] := eq_nil_of_closed next (List.count_eq_zero.mp (by omega))
        rw [List.append_nil] at closed enough ⊢
        have last := List.getLast?_eq_some_getLast (List.cons_ne_nil x xs)
        have zero : (x :: xs).getLast? = some 0 := by rw [last, closed _ last]
        have left : 0 < (x :: xs).count 0 := List.count_pos_iff.mpr (List.mem_of_getLast? zero)
        exact (takes_data_iff data (by omega)).mpr
          (.upTo (List.append_nil _).symm head zero (by omega))

/-! ### The values of a formula -/

section Values

variable {atoms : Nat} {clauses : List Clause}

theorem forall₂_isInteger_tokens (writable : ∀ c ∈ clauses, c.Writable atoms) :
    List.Forall₂ Numeral.IsInteger (clauses.flatMap Clause.tokens)
      (clauses.flatMap Clause.values) := by
  induction clauses with
  | nil => exact .nil
  | cons c clauses ih =>
    obtain ⟨first, others⟩ := List.forall_mem_cons.mp writable
    exact List.rel_append first.numerals (ih others)

/-- The values of the clauses close each of them, and nothing else. -/
theorem count_zero_values (writable : ∀ c ∈ clauses, c.Writable atoms) :
    (clauses.flatMap Clause.values).count 0 = clauses.length := by
  induction clauses with
  | nil => rfl
  | cons c clauses ih =>
    obtain ⟨first, others⟩ := List.forall_mem_cons.mp writable
    have unclosed := List.count_eq_zero.mpr first.zero_not_mem
    simp [Clause.values, ih others, unclosed]

/-- The values of the clauses spell these clauses. -/
theorem completes_values (writable : ∀ c ∈ clauses, c.Writable atoms) (latest : List Clause) :
    Completes atoms latest (clauses.flatMap Clause.values) ⟨atoms, latest.reverse ++ clauses⟩ := by
  induction clauses generalizing latest with
  | nil => exact (completes_open_iff List.not_mem_nil).mpr ⟨rfl, by simp⟩
  | cons c clauses ih =>
    obtain ⟨first, others⟩ := List.forall_mem_cons.mp writable
    have split : (c :: clauses).flatMap Clause.values =
        c.map Literal.signed ++ 0 :: clauses.flatMap Clause.values := by
      simp [Clause.values]
    have moved : latest.reverse ++ c :: clauses = (c :: latest).reverse ++ clauses := by simp
    rw [split, completes_closed_iff first.zero_not_mem, first.filterMap_signed, moved]
    exact ⟨fun x mem => (first.magnitude x mem).2, ih others (c :: latest)⟩

end Values

/-! ### The round trip -/

/-- A layout begins with its header, and the lines after it are the others. -/
theorem Layout.begins {f : Formula} {declared : Nat} {text : List Char}
    (layout : Layout f declared text) (atomsFit : Word.FitsUnsigned f.atoms)
    (declaredFits : Word.FitsUnsigned declared) :
    ∃ body : List (List Char), Spread f.tokens body ∧
      Begins (tokenLines (utf8 text)) ⟨f.atoms, declared⟩
        (body.map fun line => some (tokens line)) := by
  obtain ⟨preamble, header, body, rfl, whole, fillers, first, others⟩ := layout
  refine ⟨body, others, preamble.map tokens, Numeral.digits f.atoms, Numeral.digits declared, [],
    ?_, ?_, .bare (Numeral.isMagnitude_digits f.atoms) atomsFit,
    .bare (Numeral.isMagnitude_digits declared) declaredFits⟩
  · have solid : ∀ token ∈ [['p'], "cnf".toList, Numeral.digits f.atoms, Numeral.digits declared],
        Solid token := by
      have words : Solid ['p'] ∧ Solid "cnf".toList := by decide
      simpa [solid_of_isMagnitude (Numeral.isMagnitude_digits _)] using words
    rw [tokenLines_utf8_intercalate (by simp) whole, List.map_append, List.map_cons,
      tokens_of_spaced first solid, List.map_map]
    rfl
  · intro line mem
    obtain ⟨written, inside, rfl⟩ := List.mem_map.mp mem
    exact kind_of_filler (fillers written inside)

/-- **Round trip.** A formula whose literals have signed forms of their own is read
back from every file of it, however the tokens are laid out in lines, if the header
declares no fewer clauses than there are. Both counts are 64-bit words. -/
theorem read_of_layout {f : Formula} {declared : Nat} {text : List Char} (positive : 1 ≤ f.atoms)
    (atomsFit : Word.FitsUnsigned f.atoms) (writable : f.Writable)
    (enough : f.clauses.length ≤ declared) (declaredFits : Word.FitsUnsigned declared)
    (layout : Layout f declared text) : read (utf8 text) = .ok f := by
  obtain ⟨body, others, begins⟩ := layout.begins atomsFit declaredFits
  have completes := completes_values writable []
  have takes := takes_of_spread others (forall₂_isInteger_tokens writable) completes.closed
    (count_zero_values writable ▸ enough)
  exact read_iff_completes.mpr ⟨⟨f.atoms, declared⟩, _, begins, positive, _, takes, completes⟩

/-- An empty clause between two others, over one atom more than have signed forms. -/
def scattered : Formula where
  atoms := 9223372036854775808
  clauses := [[⟨1, true⟩, ⟨9223372036854775807, false⟩], [], [⟨2, true⟩]]

/-- A file of `scattered` in which clauses span and share lines. -/
def scatteredText : List Char :=
  "c\np cnf 9223372036854775808 5\n1\nc in a clause\n-9223372036854775807 0\t0 2\n\n0".toList

theorem read_of_layout_scattered :
    (1 ≤ scattered.atoms ∧ Word.FitsUnsigned scattered.atoms ∧ scattered.Writable ∧
        scattered.clauses.length ≤ 5 ∧ Word.FitsUnsigned 5 ∧ Layout scattered 5 scatteredText) ∧
      read (utf8 scatteredText) = .ok scattered := by
  have comment (words : List Char) (apart : ∀ c ∈ words.head?, isBlank c = true) :
      Filler ('c' :: words) := .comment (List.forall_mem_nil _) apart
  have layout : Layout scattered 5 scatteredText := by
    refine .intro ["c".toList] "p cnf 9223372036854775808 5".toList
      ["1".toList, "c in a clause".toList, "-9223372036854775807 0\t0 2".toList, [], "0".toList]
      (by decide) (by decide) ?_ ?_ ?_
    · exact List.forall_mem_singleton.mpr (comment [] nofun)
    · have words : tokens "p cnf 9223372036854775808 5".toList =
          [['p'], "cnf".toList, Numeral.digits scattered.atoms, Numeral.digits 5] := by decide
      exact words ▸ spaced_tokens _
    · have words : scattered.tokens = tokens "1".toList ++
          (tokens "-9223372036854775807 0\t0 2".toList ++ (tokens "0".toList ++ [])) := by decide
      rw [words]
      have apart : ∀ c ∈ " in a clause".toList.head?, isBlank c = true := by
        rintro c ⟨⟩
        rfl
      refine .row (spaced_tokens _) (.filler (comment _ apart) ?_)
      refine .row (spaced_tokens _) (.filler (.blank (List.forall_mem_nil _)) ?_)
      exact .row (spaced_tokens _) .done
  have writable : scattered.Writable := by decide
  exact ⟨⟨by decide, by decide, writable, by decide, by decide, layout⟩,
    read_of_layout (by decide) (by decide) writable (by decide) (by decide) layout⟩

end Dimacs

end DavisPutnam
