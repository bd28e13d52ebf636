import DavisPutnam.Word

/-!
Decimal numerals, written and read.

`Numeral.ofNat` and `Numeral.ofInt` write the shortest decimal numeral.
`Numeral.natural?` and `Numeral.integer?` read one: an optional sign, then at
least one ASCII digit and nothing else, with a value that fits a 64-bit word
(`natural?_eq_some_iff`, `integer?_eq_some_iff`). Reading is more liberal than
writing, since it takes a plus sign and leading zeros, so reading undoes writing
(`natural?_digits`, `integer?_signedDigits`) and not the other way round.
-/

namespace DavisPutnam.Numeral

/-! ### Writing -/

/-- The decimal digits of `n`, most significant first. -/
def digits (n : Nat) : List Char :=
  Nat.toDigits 10 n

/-- The decimal digits of the magnitude of `x`, after a minus sign if `x` is
negative. -/
def signedDigits (x : Int) : List Char :=
  if x < 0 then '-' :: digits x.natAbs else digits x.natAbs

/-- The numeral of a natural number. -/
def ofNat (n : Nat) : String :=
  String.ofList (digits n)

/-- The numeral of an integer. -/
def ofInt (x : Int) : String :=
  String.ofList (signedDigits x)

/-! ### Reading -/

/-- The value of a non-empty row of ASCII digits. -/
def magnitude? (cs : List Char) : Option Nat :=
  if cs.isEmpty then none
  else if cs.all Char.isDigit then some (Nat.ofDigitChars 10 cs 0)
  else none

/-- An unsigned 64-bit number: digits, after an optional plus sign. -/
def natural? (cs : List Char) : Option Nat :=
  let value := match cs with
    | '+' :: rest => magnitude? rest
    | _ => magnitude? cs
  value.filter fun n => decide (Word.FitsUnsigned n)

/-- A signed 64-bit number: digits, after an optional sign. -/
def integer? (cs : List Char) : Option Int :=
  let value := match cs with
    | '+' :: rest => (magnitude? rest).map Int.ofNat
    | '-' :: rest => (magnitude? rest).map fun (n : Nat) => -(n : Int)
    | _ => (magnitude? cs).map Int.ofNat
  value.filter fun x => decide (Word.FitsSigned x)

/-! ### What is read -/

/-- One ASCII digit or more and nothing else, with the value `n`. -/
def IsMagnitude (cs : List Char) (n : Nat) : Prop :=
  cs ≠ [] ∧ (∀ c ∈ cs, c.isDigit = true) ∧ Nat.ofDigitChars 10 cs 0 = n

/-- The numerals of unsigned 64-bit numbers. -/
inductive IsNatural : List Char → Nat → Prop where
  | bare {cs : List Char} {n : Nat} (digits : IsMagnitude cs n) (fits : Word.FitsUnsigned n) :
      IsNatural cs n
  | plus {cs : List Char} {n : Nat} (digits : IsMagnitude cs n) (fits : Word.FitsUnsigned n) :
      IsNatural ('+' :: cs) n

/-- The numerals of signed 64-bit numbers. -/
inductive IsInteger : List Char → Int → Prop where
  | bare {cs : List Char} {n : Nat} (digits : IsMagnitude cs n) (fits : Word.FitsSigned n) :
      IsInteger cs n
  | plus {cs : List Char} {n : Nat} (digits : IsMagnitude cs n) (fits : Word.FitsSigned n) :
      IsInteger ('+' :: cs) n
  | minus {cs : List Char} {n : Nat} (digits : IsMagnitude cs n) (fits : Word.FitsSigned (-n)) :
      IsInteger ('-' :: cs) (-n)

theorem magnitude?_eq_some_iff {cs : List Char} {n : Nat} :
    magnitude? cs = some n ↔ IsMagnitude cs n := by
  simp [magnitude?, IsMagnitude]

/-- No row of digits starts with a sign. -/
theorem IsMagnitude.ne_sign_cons {cs : List Char} {n : Nat} (digits : IsMagnitude cs n) {c : Char}
    (sign : c.isDigit = false) (rest : List Char) : cs ≠ c :: rest := by
  rintro rfl
  simp [digits.2.1 c List.mem_cons_self] at sign

theorem natural?_eq_some_iff {cs : List Char} {n : Nat} :
    natural? cs = some n ↔ IsNatural cs n := by
  unfold natural?
  split
  · next rest =>
    simp only [Option.filter_eq_some_iff, magnitude?_eq_some_iff, decide_eq_true_eq]
    constructor
    · rintro ⟨digits, fits⟩
      exact .plus digits fits
    · intro h
      cases h with
      | bare digits fits => exact absurd rfl (digits.ne_sign_cons (by decide) rest)
      | plus digits fits => exact ⟨digits, fits⟩
  · next other =>
    simp only [Option.filter_eq_some_iff, magnitude?_eq_some_iff, decide_eq_true_eq]
    constructor
    · rintro ⟨digits, fits⟩
      exact .bare digits fits
    · intro h
      cases h with
      | bare digits fits => exact ⟨digits, fits⟩
      | plus => exact absurd rfl (other _)

theorem integer?_eq_some_iff {cs : List Char} {x : Int} :
    integer? cs = some x ↔ IsInteger cs x := by
  unfold integer?
  split
  · next rest =>
    simp only [Option.filter_eq_some_iff, Option.map_eq_some_iff, magnitude?_eq_some_iff,
      decide_eq_true_eq]
    constructor
    · rintro ⟨⟨n, digits, rfl⟩, fits⟩
      exact .plus digits fits
    · intro h
      cases h with
      | bare digits fits => exact absurd rfl (digits.ne_sign_cons (by decide) rest)
      | plus digits fits => exact ⟨⟨_, digits, rfl⟩, fits⟩
  · next rest =>
    simp only [Option.filter_eq_some_iff, Option.map_eq_some_iff, magnitude?_eq_some_iff,
      decide_eq_true_eq]
    constructor
    · rintro ⟨⟨n, digits, rfl⟩, fits⟩
      exact .minus digits fits
    · intro h
      cases h with
      | bare digits fits => exact absurd rfl (digits.ne_sign_cons (by decide) rest)
      | minus digits fits => exact ⟨⟨_, digits, rfl⟩, fits⟩
  · next unsigned nonnegative =>
    simp only [Option.filter_eq_some_iff, Option.map_eq_some_iff, magnitude?_eq_some_iff,
      decide_eq_true_eq]
    constructor
    · rintro ⟨⟨n, digits, rfl⟩, fits⟩
      exact .bare digits fits
    · intro h
      cases h with
      | bare digits fits => exact ⟨⟨_, digits, rfl⟩, fits⟩
      | plus => exact absurd rfl (unsigned _)
      | minus => exact absurd rfl (nonnegative _)

/-! ### Reading undoes writing -/

theorem digits_ne_nil (n : Nat) : digits n ≠ [] :=
  Nat.toDigits_ne_nil

theorem isDigit_of_mem_digits {n : Nat} {c : Char} (mem : c ∈ digits n) :
    c.isDigit = true :=
  Nat.isDigit_of_mem_toDigits (by decide) (by decide) mem

theorem isMagnitude_digits (n : Nat) : IsMagnitude (digits n) n :=
  ⟨digits_ne_nil n, fun _ mem => isDigit_of_mem_digits mem,
    Nat.ofDigitChars_toDigits (by decide) (by decide)⟩

/-- Different numbers have different digits. -/
theorem digits_injective : Function.Injective digits := by
  intro n m same
  rw [← (isMagnitude_digits n).2.2, same, (isMagnitude_digits m).2.2]

/-- A number that fits a word is read back from its digits. -/
theorem natural?_digits {n : Nat} (fits : Word.FitsUnsigned n) : natural? (digits n) = some n :=
  natural?_eq_some_iff.mpr (.bare (isMagnitude_digits n) fits)

/-- A number that fits a word with a sign is read back from its digits. -/
theorem integer?_signedDigits {x : Int} (fits : Word.FitsSigned x) :
    integer? (signedDigits x) = some x := by
  have digits := isMagnitude_digits x.natAbs
  rw [integer?_eq_some_iff]
  unfold signedDigits
  rcases Int.lt_or_le x 0 with negative | nonneg
  · have value : -(x.natAbs : Int) = x := by omega
    have read := IsInteger.minus digits (value.symm ▸ fits)
    rw [if_pos negative]
    rwa [value] at read
  · have value : (x.natAbs : Int) = x := by omega
    have read := IsInteger.bare digits (value.symm ▸ fits)
    rw [if_neg (Int.not_lt.mpr nonneg)]
    rwa [value] at read

end DavisPutnam.Numeral
