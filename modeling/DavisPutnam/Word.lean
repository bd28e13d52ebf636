/-!
Sizes of 64-bit words. Atom numbers and counts are words without a sign, from 0
up to `Word.size`; the integers in files are words with a sign, from
`-Word.half` up to `Word.half`, upper bounds excluded.
-/

namespace DavisPutnam.Word

/-- The number of 64-bit words: two to the power of 64. -/
def size : Nat := 18446744073709551616

/-- Half the number of 64-bit words: two to the power of 63. -/
def half : Nat := 9223372036854775808

theorem size_eq : size = 2 * half :=
  rfl

/-- A number that can be held in a word without a sign. -/
def FitsUnsigned (n : Nat) : Prop :=
  n < size

/-- A number that can be held in a word with a sign. -/
def FitsSigned (x : Int) : Prop :=
  -(half : Int) ≤ x ∧ x < (half : Int)

instance (n : Nat) : Decidable (FitsUnsigned n) := by
  unfold FitsUnsigned; infer_instance

instance (x : Int) : Decidable (FitsSigned x) := by
  unfold FitsSigned; infer_instance

/-- The integer that a word stands for if it is read with a sign, in two's
complement: the representative of `n` modulo `size` nearest to zero. -/
def toSigned (n : Nat) : Int :=
  Int.bmod n size

/-- A word below `half` stands for itself. -/
theorem toSigned_of_lt {n : Nat} (small : n < half) : toSigned n = n := by
  unfold half at small
  exact Int.bmod_eq_of_le (by unfold size; omega) (by unfold size; omega)

/-- A word from `half` on stands for a negative integer: as much below zero as the
word is below `size`. -/
theorem toSigned_of_le {n : Nat} (high : half ≤ n) (fits : FitsUnsigned n) :
    toSigned n = -((size - n : Nat) : Int) := by
  unfold half at high
  unfold FitsUnsigned size at fits
  apply (Int.bmod_eq_iff (by decide)).mpr
  unfold size
  refine ⟨by omega, by omega, -1, by omega⟩

end DavisPutnam.Word
