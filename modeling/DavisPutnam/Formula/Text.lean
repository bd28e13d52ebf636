import DavisPutnam.Formula

/-!
The text of clauses and formulas.

A negative literal is written with an exclamation mark, a clause of several
literals in parentheses with bars between them, and a formula with ampersands
between its clauses: `(1 | !2) & !3 & false`. The empty clause is `false` and
the formula without clauses is `true`. Atom numbers are written in full, never
in the wrapped signed form.
-/

namespace DavisPutnam

/-- A literal as it stands in a clause: `5` or `!5`. -/
def Literal.disjunct (l : Literal) : List Char :=
  if l.positive then Numeral.digits l.atom else '!' :: Numeral.digits l.atom

namespace Clause

/-- The characters of a clause's text. -/
def chars : Clause → List Char
  | [] => "false".toList
  | [l] => l.disjunct
  | c => '(' :: (List.intercalate " | ".toList (c.map Literal.disjunct) ++ [')'])

/-- The text of a clause. -/
def text (c : Clause) : String :=
  String.ofList (chars c)

/-- The structure of the clause, literal by literal. -/
def outline (c : Clause) : String :=
  "Clause \x7b literals: [" ++ ", ".intercalate (c.map Literal.outline) ++ "] \x7d"

end Clause

namespace Formula

/-- The characters of a formula's text. -/
def chars (f : Formula) : List Char :=
  if f.clauses.isEmpty then "true".toList
  else List.intercalate " & ".toList (f.clauses.map Clause.chars)

/-- The text of a formula. -/
def text (f : Formula) : String :=
  String.ofList f.chars

end Formula

end DavisPutnam
