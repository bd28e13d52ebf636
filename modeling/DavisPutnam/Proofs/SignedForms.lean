import DavisPutnam.Problem
import Mathlib.Data.List.Forall2

/-!
Where the signed form of a literal and the literal of a signed integer undo each
other.

They do so between the literals on the atoms from 1 up to `Word.half` and the
integers other than 0 and `-Word.half` (`Literal.reread?_eq_some_self_iff`,
`Literal.exists_ofSigned?_signed?_iff`). An atom number from `Word.half` on is taken
for a negative word, so that another literal is read back, of opposite sign and on
the atom that is left up to `Word.size` (`Literal.reread?_of_le`). On `Word.half`
itself the negative literal has no signed form (`Literal.signed?_eq_none_iff`).

A clause keeps the integers that it was added with: each of its literals has the
integer that it was read from as its signed form and as its text, unless that is
`-Word.half` (`Literal.signed_correspondence`).
-/

namespace DavisPutnam

namespace Literal

variable {l : Literal} {x : Int}

/-! ### The signed form of a literal -/

theorem signed?_eq_some_iff : l.signed? = some x ↔ Word.FitsSigned x ∧ l.signed = x := by
  rw [signed?, Option.ite_none_right_eq_some, Option.some.injEq]
  constructor
  · rintro ⟨fits, rfl⟩
    exact ⟨fits, rfl⟩
  · rintro ⟨fits, rfl⟩
    exact ⟨fits, rfl⟩

/-- From `Word.half` on the signed form is that of a literal of opposite sign. -/
theorem signed_of_le (high : Word.half ≤ l.atom) (fits : Word.FitsUnsigned l.atom) :
    l.signed = if l.positive then -((Word.size - l.atom : Nat) : Int)
      else ((Word.size - l.atom : Nat) : Int) := by
  rw [signed, Word.toSigned_of_le high fits, Int.neg_neg]

/-- From `Word.half` on every signed form fits a word but one. -/
theorem fitsSigned_signed_iff (high : Word.half ≤ l.atom) (fits : Word.FitsUnsigned l.atom) :
    Word.FitsSigned l.signed ↔ l ≠ ⟨Word.half, false⟩ := by
  have size := Word.size_eq
  rw [signed_of_le high fits]
  unfold Word.FitsUnsigned at fits
  unfold Word.FitsSigned
  obtain ⟨atom, positive⟩ := l
  dsimp only at high fits ⊢
  cases positive with
  | true =>
    simp only [if_true, ne_eq, mk.injEq, Bool.true_eq_false, and_false, not_false_iff, iff_true]
    omega
  | false =>
    simp only [Bool.false_eq_true, if_false, ne_eq, mk.injEq, and_true]
    omega

/-- Of all literals on 64-bit atoms only the negative one on `Word.half` has no signed
form. -/
theorem signed?_eq_none_iff (fits : Word.FitsUnsigned l.atom) :
    l.signed? = none ↔ l = ⟨Word.half, false⟩ := by
  simp only [signed?, ite_eq_right_iff, reduceCtorEq, imp_false]
  by_cases small : l.atom < Word.half
  · have other : l ≠ ⟨Word.half, false⟩ := by
      rintro rfl
      exact Nat.lt_irrefl _ small
    exact iff_of_false (not_not_intro (fitsSigned_signed small)) other
  · rw [fitsSigned_signed_iff (Nat.not_lt.mp small) fits, Classical.not_not]

theorem text_of_signed?_eq_some (form : l.signed? = some x) : l.text = Numeral.ofInt x := by
  rw [text, (signed?_eq_some_iff.mp form).2]

/-! ### From a literal and back -/

/-- The literal that the signed form stands for. -/
def reread? (l : Literal) : Option Literal :=
  l.signed?.bind ofSigned?

theorem reread?_of_signed (fits : Word.FitsSigned l.signed) : l.reread? = ofSigned? l.signed := by
  rw [reread?, signed?, if_pos fits, Option.bind_some]

/-- From `Word.half` on a literal of opposite sign is read back. -/
theorem reread?_of_le (high : Word.half ≤ l.atom) (fits : Word.FitsUnsigned l.atom)
    (other : l ≠ ⟨Word.half, false⟩) : l.reread? = some ⟨Word.size - l.atom, !l.positive⟩ := by
  have fitting : Word.FitsSigned l.signed := (fitsSigned_signed_iff high fits).mpr other
  have named : 1 ≤ Word.size - l.atom := Nat.sub_pos_of_lt fits
  rw [reread?_of_signed fitting, signed_of_le high fits]
  obtain ⟨atom, positive⟩ := l
  cases positive with
  | true => exact ofSigned?_neg_natCast named
  | false => exact ofSigned?_natCast named

/-- A literal is read back from its signed form exactly if its atom is one of those from
1 up to `Word.half`. -/
theorem reread?_eq_some_self_iff (fits : Word.FitsUnsigned l.atom) :
    l.reread? = some l ↔ 1 ≤ l.atom ∧ l.atom < Word.half := by
  constructor
  · intro same
    obtain ⟨y, form, read⟩ := Option.bind_eq_some_iff.mp same
    have named : 1 ≤ l.atom := by
      obtain ⟨nonzero, rfl⟩ := ofSigned?_eq_some_iff.mp read
      exact Int.natAbs_pos.mpr nonzero
    refine ⟨named, Nat.lt_of_not_le fun high => ?_⟩
    have other : l ≠ ⟨Word.half, false⟩ := by
      intro minimal
      cases form.symm.trans ((signed?_eq_none_iff fits).mpr minimal)
    have flipped : (!l.positive) = l.positive :=
      congrArg positive (Option.some.inj ((reread?_of_le high fits other).symm.trans same))
    simp at flipped
  · rintro ⟨named, small⟩
    rw [reread?_of_signed (fitsSigned_signed small), ofSigned?_signed named small]

/-! ### From an integer and back -/

/-- The literal of an integer has it as its signed form, unless it is `-Word.half`. -/
theorem signed?_of_ofSigned?_eq_some (fits : Word.FitsSigned x) (read : ofSigned? x = some l) :
    l.signed? = some x ↔ x ≠ -(Word.half : Int) := by
  constructor
  · rintro form rfl
    have minimal : ofSigned? (-(Word.half : Int)) = some ⟨Word.half, false⟩ :=
      ofSigned?_neg_natCast (by decide)
    cases minimal.symm.trans read
    have unfit : signed? ⟨Word.half, false⟩ = none :=
      (signed?_eq_none_iff (by decide)).mpr rfl
    cases unfit.symm.trans form
  · intro other
    have small : x.natAbs < Word.half := by
      unfold Word.FitsSigned at fits
      omega
    exact signed?_eq_some_iff.mpr ⟨fits, signed_of_ofSigned?_eq_some small read⟩

/-- An integer is regained from its literal exactly if it is neither 0 nor `-Word.half`. -/
theorem exists_ofSigned?_signed?_iff (fits : Word.FitsSigned x) :
    (∃ l, ofSigned? x = some l ∧ l.signed? = some x) ↔ x ≠ 0 ∧ x ≠ -(Word.half : Int) := by
  constructor
  · rintro ⟨l, read, form⟩
    refine ⟨?_, (signed?_of_ofSigned?_eq_some fits read).mp form⟩
    intro zero
    cases read.symm.trans (ofSigned?_eq_none_iff.mpr zero)
  · rintro ⟨nonzero, other⟩
    obtain ⟨l, read⟩ := Option.ne_none_iff_exists'.mp (mt ofSigned?_eq_none_iff.mp nonzero)
    exact ⟨l, read, (signed?_of_ofSigned?_eq_some fits read).mpr other⟩

/-- Integers other than 0 are read one by one. -/
theorem forall₂_ofSigned? {xs : List Int} (nonzero : ∀ x ∈ xs, x ≠ 0) :
    List.Forall₂ (fun x l => ofSigned? x = some l) xs (xs.filterMap ofSigned?) := by
  induction xs with
  | nil => exact .nil
  | cons x xs ih =>
    obtain ⟨first, others⟩ := List.forall_mem_cons.mp nonzero
    have read := ofSigned?_eq_some_iff.mpr ⟨first, rfl⟩
    rw [List.filterMap_cons_some read]
    exact .cons read (ih others)

end Literal

/-- A clause that is accepted comes last, and holds the literals of the integers given
for it, in order. -/
theorem Problem.exists_clause_of_addClause {p q : Problem} {xs : List Int}
    (added : p.addClause xs = (.ok (), q)) :
    ∃ f c, p.formula = .ok f ∧ q.formula = .ok ⟨f.atoms, f.clauses ++ [c]⟩ ∧
      List.Forall₂ (fun x l => Literal.ofSigned? x = some l) xs c := by
  cases p with
  | blank => cases (addClause_blank xs).symm.trans added
  | declared atoms latest =>
    obtain ⟨range, rfl⟩ := addClause_declared_eq_ok_iff.mp added
    refine ⟨_, _, rfl, ?_, Literal.forall₂_ofSigned? fun x mem => (range x mem).1⟩
    rw [formula, List.reverse_cons]

namespace Literal

/-- **Signed forms.** An integer that fits a word is regained from its literal exactly if
it is neither 0 nor `-Word.half`. A literal on a 64-bit atom is regained from its signed
form exactly if the atom is one of those from 1 up to `Word.half`. Beyond them the literal
of opposite sign on what is left of the word is read instead, and so it is for the positive
literal on `Word.half`, but the negative one has no signed form. Each literal of an
accepted clause has the integer given for it as its signed form and its text, unless that
is `-Word.half`. -/
theorem signed_correspondence :
    (∀ x : Int, Word.FitsSigned x →
      ((∃ l, ofSigned? x = some l ∧ l.signed? = some x) ↔ x ≠ 0 ∧ x ≠ -(Word.half : Int))) ∧
    (∀ l : Literal, Word.FitsUnsigned l.atom →
      (l.signed? = none ↔ l = ⟨Word.half, false⟩) ∧
      (l.reread? = some l ↔ 1 ≤ l.atom ∧ l.atom < Word.half) ∧
      (Word.half < l.atom → l.reread? = some ⟨Word.size - l.atom, !l.positive⟩)) ∧
    reread? ⟨Word.half, true⟩ = some ⟨Word.half, false⟩ ∧
    ∀ (p q : Problem) (xs : List Int), (∀ x ∈ xs, Word.FitsSigned x) →
      p.addClause xs = (.ok (), q) →
      ∃ f c, p.formula = .ok f ∧ q.formula = .ok ⟨f.atoms, f.clauses ++ [c]⟩ ∧
        List.Forall₂ (fun x l => ofSigned? x = some l ∧
          (l.signed? = some x ↔ x ≠ -(Word.half : Int)) ∧
          (x ≠ -(Word.half : Int) → l.text = Numeral.ofInt x)) xs c := by
  refine ⟨fun x fits => exists_ofSigned?_signed?_iff fits, fun l fits => ?_, ?_, ?_⟩
  · refine ⟨signed?_eq_none_iff fits, reread?_eq_some_self_iff fits, fun beyond => ?_⟩
    apply reread?_of_le (Nat.le_of_lt beyond) fits
    rintro rfl
    exact Nat.lt_irrefl _ beyond
  · exact reread?_of_le (Nat.le_refl _) (by decide) (by decide)
  · intro p q xs fits added
    obtain ⟨f, c, before, after, read⟩ := Problem.exists_clause_of_addClause added
    refine ⟨f, c, before, after, ?_⟩
    apply List.Forall₂.imp _ ((List.forall₂_and_left xs c).mpr ⟨fits, read⟩)
    rintro x l ⟨fitting, read⟩
    have form := signed?_of_ofSigned?_eq_some fitting read
    exact ⟨read, form, fun other => text_of_signed?_eq_some (form.mpr other)⟩

/-- The least integer of all, between two others at the ends of the signed range. -/
def extremes : List Int :=
  [9223372036854775807, -9223372036854775808, -9223372036854775807]

/-- The integers of `extremes` as literals. -/
def extremeClause : Clause :=
  [⟨9223372036854775807, true⟩, ⟨9223372036854775808, false⟩, ⟨9223372036854775807, false⟩]

/-- The largest atom of all is taken for -1. A clause of the integers of `extremes` is
accepted, and the literal of the least integer does not have it as its signed form, but
that of the last one does. -/
theorem signed_correspondence_extremes :
    (Word.FitsUnsigned 18446744073709551615 ∧
      reread? ⟨18446744073709551615, true⟩ = some ⟨1, false⟩) ∧
    (Word.FitsSigned (-9223372036854775807) ∧
      ∃ l, ofSigned? (-9223372036854775807) = some l ∧ l.signed? = some (-9223372036854775807)) ∧
    ((∀ x ∈ extremes, Word.FitsSigned x) ∧
      (Problem.declared 9223372036854775808 [[⟨5, true⟩]]).addClause extremes =
        (.ok (), .declared 9223372036854775808 [extremeClause, [⟨5, true⟩]])) ∧
    signed? ⟨9223372036854775808, false⟩ ≠ some (-9223372036854775808) ∧
    text ⟨9223372036854775807, false⟩ = Numeral.ofInt (-9223372036854775807) := by
  have fits : ∀ x ∈ extremes, Word.FitsSigned x := by decide
  have added : (Problem.declared 9223372036854775808 [[⟨5, true⟩]]).addClause extremes =
      (.ok (), .declared 9223372036854775808 [extremeClause, [⟨5, true⟩]]) := rfl
  obtain ⟨integers, literals, _, clauses⟩ := signed_correspondence
  obtain ⟨_, _, wrapped⟩ := literals ⟨18446744073709551615, true⟩ (by decide)
  have regained := (integers (-9223372036854775807) (by decide)).mpr (by decide)
  obtain ⟨f, c, before, after, read⟩ := clauses _ _ extremes fits added
  cases before
  cases after
  simp only [extremes, extremeClause, List.forall₂_cons] at read
  obtain ⟨_, ⟨_, least, _⟩, ⟨_, _, last⟩, _⟩ := read
  exact ⟨⟨by decide, wrapped (by decide)⟩, ⟨by decide, regained⟩, ⟨fits, added⟩,
    fun form => least.mp form rfl, last (by decide)⟩

end Literal

end DavisPutnam
