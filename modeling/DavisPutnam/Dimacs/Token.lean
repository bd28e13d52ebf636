/-!
Lines and tokens of a DIMACS file.

A file is a list of bytes. Lines end at the newline byte and are decoded one by
one; within a line, tokens are separated by white space, which is any character
with the Unicode property White_Space.
-/

namespace DavisPutnam.Dimacs

/-- The characters with the Unicode property White_Space. -/
def isBlank (c : Char) : Bool :=
  (0x09 ≤ c.toNat && c.toNat ≤ 0x0D) || c.toNat == 0x20 || c.toNat == 0x85 ||
  c.toNat == 0xA0 || c.toNat == 0x1680 || (0x2000 ≤ c.toNat && c.toNat ≤ 0x200A) ||
  c.toNat == 0x2028 || c.toNat == 0x2029 || c.toNat == 0x202F || c.toNat == 0x205F ||
  c.toNat == 0x3000

/-- The blanks, tabs and line ends of ASCII are white space. -/
theorem isBlank_of_isWhitespace {c : Char} (h : c.isWhitespace = true) : isBlank c = true := by
  simp only [Char.isWhitespace, Bool.or_eq_true, decide_eq_true_eq] at h
  rcases h with ((rfl | rfl) | rfl) | rfl <;> rfl

/-- A run of characters without white space. -/
abbrev Token := List Char

/-- The tokens of a line. -/
def tokens (line : List Char) : List Token :=
  (line.splitOnP isBlank).filter (!·.isEmpty)

/-- No token is empty. -/
theorem ne_nil_of_mem_tokens {line : List Char} {token : Token} (mem : token ∈ tokens line) :
    token ≠ [] := by
  intro empty
  have nonempty := (List.mem_filter.mp mem).2
  rw [empty] at nonempty
  exact absurd nonempty (by decide)

/-- The newline byte. -/
def newline : UInt8 := 10

/-- The lines of a file. A file that ends in a newline has an empty last line. -/
def lines (bytes : List UInt8) : List (List UInt8) :=
  bytes.splitOn newline

/-- The characters of a line, if its bytes are valid UTF-8. -/
def decodeLine? (line : List UInt8) : Option (List Char) :=
  (String.fromUTF8? ⟨line.toArray⟩).map String.toList

end DavisPutnam.Dimacs
