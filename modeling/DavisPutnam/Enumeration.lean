import DavisPutnam.Fault
import DavisPutnam.Formula

/-!
Models by enumeration.

The assignments of `n` atoms are the counters below `2 ^ n`, atom `i` being true
if bit `i - 1` of the counter is set. `Formula.enumerate` tries them in order
and answers with the first that satisfies the formula. It takes at most 15 atoms,
and counters are 32 bits wide: an atom beyond the atom count reads a zero bit up
to atom 32, and is a fault after that, if a check reaches it.
-/

namespace DavisPutnam

namespace Enumeration

/-- The largest number of atoms that is enumerated. -/
def maxAtoms : Nat := 15

/-- The number of bits in a counter. -/
def counterBits : Nat := 32

/-- Whether a literal is true under a counter. -/
def literalValue (counter : Nat) (l : Literal) : Except Fault Bool :=
  match l.atom with
  | 0 => .error (.atomOutOfRange 0)
  | bit + 1 =>
    if bit < counterBits then .ok (counter.testBit bit == l.positive)
    else .error (.atomWithoutBit l.atom)

/-- Whether a counter satisfies every clause, tried in order as far as
necessary. -/
def satisfies (counter : Nat) (clauses : List Clause) : Except Fault Bool :=
  clauses.allM fun c => c.anyM (literalValue counter)

/-- The values of the first `atoms` atoms under a counter. -/
def values (atoms counter : Nat) : List Bool :=
  (List.range atoms).map counter.testBit

end Enumeration

/-- The first satisfying assignment in counter order. -/
def Formula.enumerate (f : Formula) : Except Fault (Option (List Bool)) :=
  if Enumeration.maxAtoms < f.atoms then .error (.tooManyAtoms f.atoms)
  else do
    let found ← (List.range (Nat.pow 2 f.atoms)).findM? fun counter =>
      Enumeration.satisfies counter f.clauses
    return found.map (Enumeration.values f.atoms)

end DavisPutnam
