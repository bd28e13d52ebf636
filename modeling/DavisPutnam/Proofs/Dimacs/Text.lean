import DavisPutnam.Dimacs.Token
import Mathlib.Data.List.TakeWhile

/-!
Texts as files: UTF-8, lines and tokens.

A text is a list of characters, and its file holds the UTF-8 bytes of these.
The newline byte stands for the newline character and for nothing else, so the
lines of the file are the encoded lines of the text (`lines_utf8_intercalate`),
and decoding a line gives its characters back (`decodeLine?_utf8`). `Spaced` says
how a line is written from its tokens, `tokens_of_spaced` that they are read from it,
and `spaced_tokens` that every line is written in this way.
-/

namespace DavisPutnam.Dimacs

/-! ### Bytes -/

/-- The UTF-8 bytes of a text. -/
def utf8 (text : List Char) : List UInt8 :=
  text.flatMap String.utf8EncodeChar

theorem utf8_append (first second : List Char) :
    utf8 (first ++ second) = utf8 first ++ utf8 second :=
  List.flatMap_append

/-- A string of the same characters is made of these bytes. -/
theorem mk_utf8 (text : List Char) :
    ByteArray.mk (utf8 text).toArray = (String.ofList text).toByteArray := by
  rw [String.toByteArray_ofList]
  unfold List.utf8Encode utf8
  ext1
  simp

theorem decodeLine?_utf8 (text : List Char) : decodeLine? (utf8 text) = some text := by
  unfold decodeLine? String.fromUTF8?
  rw [mk_utf8, dif_pos (String.ofList text).isValidUTF8]
  exact congrArg some String.toList_ofList

/-! ### Lines -/

/-- The newline byte is no part of the encoding of another character. -/
theorem newline_not_mem_utf8EncodeChar {c : Char} (other : c ≠ '\n') :
    newline ∉ String.utf8EncodeChar c := by
  have code : c.val.toNat = c.toNat := rfl
  have differs : c.toNat ≠ 10 := fun same => other (Char.toNat_inj.mp same)
  unfold String.utf8EncodeChar newline
  dsimp only
  split_ifs <;> simp [← UInt8.toNat_inj] <;> omega

theorem newline_not_mem_utf8 {line : List Char} (whole : '\n' ∉ line) : newline ∉ utf8 line := by
  intro mem
  obtain ⟨c, inside, byte⟩ := List.mem_flatMap.mp mem
  refine newline_not_mem_utf8EncodeChar ?_ byte
  rintro rfl
  exact whole inside

theorem lines_append_cons (first second : List UInt8) :
    lines (first ++ newline :: second) = lines first ++ lines second :=
  List.splitOn_append_cons_self first second

theorem lines_utf8 {line : List Char} (whole : '\n' ∉ line) : lines (utf8 line) = [utf8 line] :=
  List.splitOn_eq_singleton (newline_not_mem_utf8 whole)

/-- The file of a text that is written line by line has the lines of the text. -/
theorem lines_utf8_intercalate {text : List (List Char)} (inhabited : text ≠ [])
    (whole : ∀ line ∈ text, '\n' ∉ line) :
    lines (utf8 (['\n'].intercalate text)) = text.map utf8 := by
  induction text with
  | nil => exact absurd rfl inhabited
  | cons line text ih =>
    obtain ⟨first, others⟩ := List.forall_mem_cons.mp whole
    cases text with
    | nil => simpa [List.intercalate] using lines_utf8 first
    | cons next text =>
      have joined : utf8 (['\n'].intercalate (line :: next :: text)) =
          utf8 line ++ newline :: utf8 (['\n'].intercalate (next :: text)) := by
        simp only [List.intercalate_cons_cons, utf8_append]
        rw [List.append_assoc]
        rfl
      rw [joined, lines_append_cons, lines_utf8 first, ih (by simp) others]
      rfl

/-! ### Tokens -/

/-- The token is not empty and has no white space in it, so that it is read as one. -/
def Solid (token : Token) : Prop :=
  token ≠ [] ∧ ∀ c ∈ token, isBlank c = false

instance (token : Token) : Decidable (Solid token) :=
  decidable_of_iff (token ≠ [] ∧ token.all (!isBlank ·) = true) (by simp [Solid])

/-- The line is written from the tokens, with white space around them and at least
one blank between two of them. -/
inductive Spaced : List Token → List Char → Prop where
  | blank {space : List Char} (blanks : ∀ c ∈ space, isBlank c = true) : Spaced [] space
  | token {space token rest : List Char} {others : List Token}
      (blanks : ∀ c ∈ space, isBlank c = true) (apart : ∀ c ∈ rest.head?, isBlank c = true)
      (next : Spaced others rest) : Spaced (token :: others) (space ++ token ++ rest)

theorem isBlank_eq_false_of_isDigit {c : Char} (digit : c.isDigit = true) : isBlank c = false := by
  have bounds : 48 ≤ c.toNat ∧ c.toNat ≤ 57 := by
    simpa [Char.isDigit, UInt32.le_iff_toNat_le] using digit
  unfold isBlank
  simp
  omega

theorem tokens_append_cons {c : Char} (blank : isBlank c = true) (first second : List Char) :
    tokens (first ++ c :: second) = tokens first ++ tokens second := by
  unfold tokens
  rw [List.splitOnP_append_cons first second blank, List.filter_append]

theorem tokens_append_of_blanks {space : List Char} (blanks : ∀ c ∈ space, isBlank c = true)
    (line : List Char) : tokens (space ++ line) = tokens line := by
  induction space with
  | nil => rfl
  | cons c space ih =>
    obtain ⟨first, others⟩ := List.forall_mem_cons.mp blanks
    rw [← ih others]
    exact tokens_append_cons first [] (space ++ line)

theorem tokens_of_blanks {space : List Char} (blanks : ∀ c ∈ space, isBlank c = true) :
    tokens space = [] := by
  have read := tokens_append_of_blanks blanks []
  rwa [List.append_nil] at read

theorem tokens_of_solid {token : Token} (solid : Solid token) : tokens token = [token] := by
  unfold tokens
  rw [List.splitOnP_eq_singleton solid.2]
  simp [solid.1]

/-- A token ends where white space or the end of the line follows. -/
theorem tokens_append {token : Token} (solid : Solid token) {rest : List Char}
    (apart : ∀ c ∈ rest.head?, isBlank c = true) :
    tokens (token ++ rest) = token :: tokens rest := by
  cases rest with
  | nil => rw [List.append_nil, tokens_of_solid solid]; rfl
  | cons c rest =>
    have blank : isBlank c = true := apart c rfl
    rw [tokens_append_cons blank, tokens_of_solid solid]
    exact congrArg _ (tokens_append_cons blank [] rest).symm

theorem tokens_of_spaced {ts : List Token} {line : List Char} (spaced : Spaced ts line)
    (solid : ∀ token ∈ ts, Solid token) : tokens line = ts := by
  induction spaced with
  | blank blanks => exact tokens_of_blanks blanks
  | token blanks apart next ih =>
    obtain ⟨first, others⟩ := List.forall_mem_cons.mp solid
    rw [List.append_assoc, tokens_append_of_blanks blanks, tokens_append first apart, ih others]

/-- A line is white space, or white space, a token and what follows this. -/
theorem exists_first_token (line : List Char) : (∀ c ∈ line, isBlank c = true) ∨
    ∃ space token rest, space ++ token ++ rest = line ∧ (∀ c ∈ space, isBlank c = true) ∧
      Solid token ∧ ∀ c ∈ rest.head?, isBlank c = true := by
  have blanks : ∀ c ∈ line.takeWhile isBlank, isBlank c = true := fun _ => List.mem_takeWhile_imp
  have cut : line.takeWhile isBlank ++ line.dropWhile isBlank = line :=
    List.takeWhile_append_dropWhile
  have start := List.head?_dropWhile_not isBlank line
  cases remaining : line.dropWhile isBlank with
  | nil =>
    rw [remaining, List.append_nil] at cut
    exact .inl (cut ▸ blanks)
  | cons c others =>
    rw [remaining] at cut start
    refine .inr ⟨_, (c :: others).takeWhile (!isBlank ·), (c :: others).dropWhile (!isBlank ·), ?_,
      blanks, ⟨by simpa using start, ?_⟩, ?_⟩
    · rw [List.append_assoc, List.takeWhile_append_dropWhile, cut]
    · intro d mem
      simpa using List.mem_takeWhile_imp mem
    · intro d mem
      have stop := List.head?_dropWhile_not (!isBlank ·) (c :: others)
      rw [Option.mem_def.mp mem] at stop
      simpa using stop

/-- Every line is written from its tokens. -/
theorem spaced_tokens (line : List Char) : Spaced (tokens line) line := by
  rcases exists_first_token line with blanks | ⟨space, token, rest, shape, blanks, solid, apart⟩
  · rw [tokens_of_blanks blanks]
    exact .blank blanks
  · have shorter : rest.length < line.length := by
      have := List.length_pos_iff.mpr solid.1
      simp only [← shape, List.length_append]
      omega
    rw [← shape, List.append_assoc, tokens_append_of_blanks blanks, tokens_append solid apart,
      ← List.append_assoc]
    exact .token blanks apart (spaced_tokens rest)
termination_by line.length

end DavisPutnam.Dimacs
