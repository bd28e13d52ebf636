import DavisPutnam.Numeral

/-!
Literals: an atom, numbered from 1, with a sign.

The signed form of a literal is the 64-bit integer used in files: the atom's
number, negated for a negative literal. An atom number from `Word.half` on has
no such integer of its own and is read as a two's complement word, so
`Literal.ofSigned?` and `Literal.signed` undo each other only below `Word.half`
(`ofSigned?_signed`, `signed_of_ofSigned?_eq_some`). Atom 0 names nothing: it
has a signed form but no slot.
-/

namespace DavisPutnam

/-- An atom or its negation. -/
structure Literal where
  atom : Nat
  positive : Bool
deriving DecidableEq, Repr

namespace Literal

/-- The literal of opposite sign on the same atom. -/
def complement (l : Literal) : Literal :=
  { l with positive := !l.positive }

/-- The atom is one of `1, …, atoms`. -/
def InRange (atoms : Nat) (l : Literal) : Prop :=
  1 ≤ l.atom ∧ l.atom ≤ atoms

instance (atoms : Nat) (l : Literal) : Decidable (l.InRange atoms) := by
  unfold InRange; infer_instance

/-- The position of the literal's atom in a per-atom table; atom 0 has none. -/
def slot? (l : Literal) : Option Nat :=
  if l.atom = 0 then none else some (l.atom - 1)

/-! ### Signed form -/

/-- The literal that a signed integer stands for; 0 stands for none. -/
def ofSigned? (x : Int) : Option Literal :=
  if x = 0 then none else some ⟨x.natAbs, decide (0 < x)⟩

/-- The signed form: the atom number as a two's complement 64-bit word, negated
for a negative literal. -/
def signed (l : Literal) : Int :=
  if l.positive then Word.toSigned l.atom else -Word.toSigned l.atom

/-- The signed form if it fits a word. Only the negation of `-Word.half` does
not. -/
def signed? (l : Literal) : Option Int :=
  if Word.FitsSigned l.signed then some l.signed else none

theorem ofSigned?_eq_none_iff {x : Int} : ofSigned? x = none ↔ x = 0 := by
  simp [ofSigned?]

theorem ofSigned?_eq_some_iff {x : Int} {l : Literal} :
    ofSigned? x = some l ↔ x ≠ 0 ∧ ⟨x.natAbs, decide (0 < x)⟩ = l := by
  rw [ofSigned?, Option.ite_none_left_eq_some, Option.some.injEq]

theorem ofSigned?_natCast {n : Nat} (named : 1 ≤ n) :
    ofSigned? (n : Int) = some ⟨n, true⟩ := by
  rw [ofSigned?, if_neg (by omega), Int.natAbs_natCast, decide_eq_true (by omega)]

theorem ofSigned?_neg_natCast {n : Nat} (named : 1 ≤ n) :
    ofSigned? (-(n : Int)) = some ⟨n, false⟩ := by
  rw [ofSigned?, if_neg (by omega), Int.natAbs_neg, Int.natAbs_natCast,
    decide_eq_false (by omega)]

/-- Below `Word.half` the signed form is the atom number with its sign. -/
theorem signed_of_lt {l : Literal} (small : l.atom < Word.half) :
    l.signed = if l.positive then (l.atom : Int) else -(l.atom : Int) := by
  rw [signed, Word.toSigned_of_lt small]

theorem natAbs_signed {l : Literal} (small : l.atom < Word.half) : l.signed.natAbs = l.atom := by
  rw [signed_of_lt small]
  split
  · exact Int.natAbs_natCast l.atom
  · rw [Int.natAbs_neg, Int.natAbs_natCast]

theorem fitsSigned_signed {l : Literal} (small : l.atom < Word.half) :
    Word.FitsSigned l.signed := by
  have magnitude := natAbs_signed small
  unfold Word.FitsSigned
  omega

/-- A literal on one of the atoms from 1 up to `Word.half` is read back from its
signed form. -/
theorem ofSigned?_signed {l : Literal} (named : 1 ≤ l.atom) (small : l.atom < Word.half) :
    ofSigned? l.signed = some l := by
  obtain ⟨atom, positive⟩ := l
  rw [signed_of_lt small]
  cases positive with
  | true => exact ofSigned?_natCast named
  | false => exact ofSigned?_neg_natCast named

/-- A non-zero integer whose magnitude is below `Word.half` is the signed form of
the literal that it stands for. -/
theorem signed_of_ofSigned?_eq_some {x : Int} {l : Literal} (small : x.natAbs < Word.half)
    (h : ofSigned? x = some l) : l.signed = x := by
  obtain ⟨nonzero, rfl⟩ := ofSigned?_eq_some_iff.mp h
  rw [signed_of_lt small]
  rcases Int.lt_or_le 0 x with positive | nonpos
  · rw [if_pos (decide_eq_true positive)]
    exact Int.natAbs_of_nonneg (Int.le_of_lt positive)
  · rw [if_neg (by simp [Int.not_lt.mpr nonpos])]
    exact (by omega : -(x.natAbs : Int) = x)

/-! ### Text -/

/-- The numeral of the signed form. -/
def text (l : Literal) : String :=
  Numeral.ofInt l.signed

/-- The structure of the literal, with its sign spelled out. -/
def outline (l : Literal) : String :=
  (if l.positive then "Positive" else "Negative") ++ "(Atom(" ++ Numeral.ofNat l.atom ++ "))"

end Literal

end DavisPutnam
