import DavisPutnam.Formula.Text

/-!
The text of a formula has one reading.

Blanks and parentheses only help the eye: the clauses can be told from what is left of the text
without them, its skeleton. On both levels a skeleton is a list in print (`listed`), with a word of
its own for the empty list: the disjuncts of a clause with bars between them, or `false`, and the
skeletons of the clauses with ampersands between them, or `true`. Such a list can be cut at its
separators, since no part contains one, and its word is not mistaken for a list of one part, since
no part is spelt like the word (`listed_inj`). Disjuncts are made of digits and exclamation marks
alone, and different numbers have different digits, so a clause can be read from its skeleton
(`Clause.skeleton_chars_inj`) and a formula from its text (`Formula.text_eq_text_iff`).
-/

namespace DavisPutnam

/-! ### Lists in print -/

/-- The parts with the separator between them, or the word if there are no parts. -/
def listed (word : List Char) (separator : Char) (parts : List (List Char)) : List Char :=
  if parts.isEmpty then word else [separator].intercalate parts

section Listed

variable {word : List Char} {separator : Char} {parts others : List (List Char)}

theorem listed_nil : listed word separator [] = word :=
  rfl

theorem listed_of_ne_nil (inhabited : parts ≠ []) :
    listed word separator parts = [separator].intercalate parts := by
  rw [listed, if_neg (by simpa using inhabited)]

/-- Cut at its separators, the print of a list falls into its parts, and the word stays whole. -/
theorem splitOn_listed (plain : separator ∉ word) (whole : ∀ part ∈ parts, separator ∉ part) :
    (listed word separator parts).splitOn separator = if parts = [] then [word] else parts := by
  split
  · next none =>
    subst none
    rw [listed_nil, List.splitOn_eq_singleton plain]
  · next inhabited =>
    rw [listed_of_ne_nil inhabited, List.splitOn_intercalate separator whole inhabited]

/-- A list can be told from its print if the separator occurs neither in the word nor in a part and
no part is spelt like the word. -/
theorem listed_inj (plain : separator ∉ word)
    (whole : ∀ part ∈ parts, separator ∉ part ∧ part ≠ word)
    (others_whole : ∀ part ∈ others, separator ∉ part ∧ part ≠ word)
    (same : listed word separator parts = listed word separator others) : parts = others := by
  have cut := congrArg (List.splitOn separator) same
  rw [splitOn_listed plain fun part mem => (whole part mem).1,
    splitOn_listed plain fun part mem => (others_whole part mem).1] at cut
  split at cut
  · next none =>
    split at cut
    · next none_either => rw [none, none_either]
    · exact absurd rfl (others_whole word (cut ▸ List.mem_singleton_self word)).2
  · split at cut
    · exact absurd rfl (whole word (cut ▸ List.mem_singleton_self word)).2
    · exact cut

theorem mem_of_mem_intercalate {c : Char} (mem : c ∈ [separator].intercalate parts) :
    c = separator ∨ ∃ part ∈ parts, c ∈ part := by
  induction parts with
  | nil => cases mem
  | cons part rest ih =>
    cases rest with
    | nil =>
      rw [List.intercalate_singleton] at mem
      exact .inr ⟨part, List.mem_singleton_self part, mem⟩
    | cons next rest =>
      rw [List.intercalate_cons_cons, List.append_assoc, List.mem_append, List.mem_append,
        List.mem_singleton] at mem
      rcases mem with inside | rfl | later
      · exact .inr ⟨part, List.mem_cons_self, inside⟩
      · exact .inl rfl
      · refine (ih later).imp_right ?_
        rintro ⟨part, mem, inside⟩
        exact ⟨part, List.mem_cons_of_mem _ mem, inside⟩

theorem mem_of_mem_listed {c : Char} (mem : c ∈ listed word separator parts) :
    c ∈ word ∨ c = separator ∨ ∃ part ∈ parts, c ∈ part := by
  unfold listed at mem
  split at mem
  · exact .inl mem
  · exact .inr (mem_of_mem_intercalate mem)

end Listed

/-! ### Disjuncts -/

namespace Literal

variable {l k : Literal}

theorem isDigit_or_of_mem_disjunct {c : Char} (mem : c ∈ l.disjunct) :
    c.isDigit = true ∨ c = '!' := by
  unfold disjunct at mem
  split at mem
  · exact .inl (Numeral.isDigit_of_mem_digits mem)
  · rcases List.mem_cons.mp mem with rfl | mem
    · exact .inr rfl
    · exact .inl (Numeral.isDigit_of_mem_digits mem)

/-- A character that is neither a digit nor an exclamation mark is in no disjunct. -/
theorem not_mem_disjunct {c : Char} (other : c.isDigit = false) (unsigned : c ≠ '!') :
    c ∉ l.disjunct := by
  intro mem
  rcases isDigit_or_of_mem_disjunct mem with digit | sign
  · cases other.symm.trans digit
  · exact unsigned sign

/-- A literal can be read from its disjunct. -/
theorem disjunct_injective : Function.Injective disjunct := by
  rintro ⟨atom, positive⟩ ⟨other, sign⟩ same
  have unsigned {n m : Nat} : '!' :: Numeral.digits n ≠ Numeral.digits m := by
    intro mistaken
    have digit : '!' ∈ Numeral.digits m := mistaken ▸ List.mem_cons_self
    cases Numeral.isDigit_of_mem_digits digit
  cases positive with
  | true =>
    cases sign with
    | true => exact congrArg (mk · true) (Numeral.digits_injective same)
    | false => exact absurd same.symm unsigned
  | false =>
    cases sign with
    | true => exact absurd same unsigned
    | false => exact congrArg (mk · false) (Numeral.digits_injective (List.cons.inj same).2)

end Literal

/-! ### Skeletons -/

/-- The text without blanks and parentheses. -/
def skeleton (text : List Char) : List Char :=
  text.filter fun c => c ∉ [' ', '(', ')']

theorem skeleton_intercalate (separator : List Char) (parts : List (List Char)) :
    skeleton (separator.intercalate parts) =
      (skeleton separator).intercalate (parts.map skeleton) := by
  induction parts with
  | nil => rfl
  | cons part rest ih =>
    cases rest with
    | nil => rw [List.map_singleton, List.intercalate_singleton, List.intercalate_singleton]
    | cons next rest =>
      rw [List.intercalate_cons_cons, List.map_cons, List.map_cons, List.intercalate_cons_cons,
        ← List.map_cons, ← ih]
      simp [skeleton]

theorem skeleton_disjunct (l : Literal) : skeleton l.disjunct = l.disjunct := by
  refine List.filter_eq_self.mpr fun c mem => ?_
  have other : c ≠ ' ' ∧ c ≠ '(' ∧ c ≠ ')' := by
    refine ⟨?_, ?_, ?_⟩
    all_goals
      rintro rfl
      exact Literal.not_mem_disjunct (by decide) (by decide) mem
  simpa using other

namespace Clause

/-- The skeleton of a clause is the list of its disjuncts. -/
theorem skeleton_chars (c : Clause) :
    skeleton (chars c) = listed "false".toList '|' (c.map Literal.disjunct) := by
  have disjuncts : (c.map Literal.disjunct).map skeleton = c.map Literal.disjunct := by
    rw [List.map_map]
    exact List.map_congr_left fun l _ => skeleton_disjunct l
  match c with
  | [] => rfl
  | [l] => rw [chars, skeleton_disjunct, listed_of_ne_nil (by simp), List.map_singleton,
      List.intercalate_singleton]
  | l :: k :: rest =>
    have parts := skeleton_intercalate " | ".toList ((l :: k :: rest).map Literal.disjunct)
    rw [disjuncts] at parts
    rw [listed_of_ne_nil (by simp)]
    simpa [chars, skeleton] using parts

/-- A clause can be read from the skeleton of its text. -/
theorem skeleton_chars_inj {c d : Clause} (same : skeleton (chars c) = skeleton (chars d)) :
    c = d := by
  -- No disjunct has a bar, and none has the first letter of `false`.
  have whole (c : Clause) :
      ∀ part ∈ c.map Literal.disjunct, '|' ∉ part ∧ part ≠ "false".toList := by
    intro part mem
    obtain ⟨l, _, rfl⟩ := List.mem_map.mp mem
    refine ⟨Literal.not_mem_disjunct (by decide) (by decide), fun spelt => ?_⟩
    have first : 'f' ∈ l.disjunct := spelt ▸ List.mem_cons_self
    exact Literal.not_mem_disjunct (by decide) (by decide) first
  rw [skeleton_chars, skeleton_chars] at same
  have equal := listed_inj (by decide) (whole c) (whole d) same
  exact (List.map_inj_right fun _ _ spelt => Literal.disjunct_injective spelt).mp equal

/-- The skeleton of a clause is spelt with digits, exclamation marks, bars and the letters of
`false`. -/
theorem mem_skeleton_chars {c : Clause} {ch : Char} (mem : ch ∈ skeleton (chars c)) :
    ch ∈ "false".toList ∨ ch = '|' ∨ ch.isDigit = true ∨ ch = '!' := by
  rw [skeleton_chars] at mem
  rcases mem_of_mem_listed mem with letter | bar | ⟨part, inside, own⟩
  · exact .inl letter
  · exact .inr (.inl bar)
  · obtain ⟨l, _, rfl⟩ := List.mem_map.mp inside
    exact .inr (.inr (Literal.isDigit_or_of_mem_disjunct own))

end Clause

/-! ### Formulas -/

namespace Formula

/-- The skeleton of a formula is the list of the skeletons of its clauses. -/
theorem skeleton_chars (f : Formula) :
    skeleton f.chars = listed "true".toList '&' (f.clauses.map fun c => skeleton c.chars) := by
  unfold chars listed
  rw [List.isEmpty_map]
  split
  · rfl
  · rw [skeleton_intercalate, List.map_map]
    rfl

/-- **Unique reading.** Two formulas have the same text exactly if they have the same clauses, in
the same order and with the same literals in the same order. -/
theorem text_eq_text_iff {f g : Formula} : f.text = g.text ↔ f.clauses = g.clauses := by
  constructor
  · intro same
    have chars : f.chars = g.chars := String.ofList_inj.mp same
    -- No clause has an ampersand, and none has the first letter of `true`.
    have whole (f : Formula) : ∀ part ∈ f.clauses.map fun c => skeleton c.chars,
        '&' ∉ part ∧ part ≠ "true".toList := by
      intro part mem
      obtain ⟨c, _, rfl⟩ := List.mem_map.mp mem
      refine ⟨fun inside => ?_, fun spelt => ?_⟩
      · exact absurd (Clause.mem_skeleton_chars inside) (by decide)
      · have first : 't' ∈ skeleton c.chars := spelt ▸ List.mem_cons_self
        exact absurd (Clause.mem_skeleton_chars first) (by decide)
    have skeletons := congrArg skeleton chars
    rw [skeleton_chars, skeleton_chars] at skeletons
    have equal := listed_inj (by decide) (whole f) (whole g) skeletons
    exact (List.map_inj_right fun _ _ => Clause.skeleton_chars_inj).mp equal
  · intro same
    rw [text, text, chars, chars, same]

end Formula

end DavisPutnam
