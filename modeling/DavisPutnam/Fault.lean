import DavisPutnam.Numeral

/-!
Faults: the broken preconditions that an operation reports instead of an
answer. A formula whose literals all stay within its atom count meets none of
them during search.
-/

namespace DavisPutnam

/-- Why an operation on atoms has no answer. -/
inductive Fault where
  /-- The atom is 0 or lies beyond the atom count. -/
  | atomOutOfRange (atom : Nat)
  /-- A bound atom was to be bound again. -/
  | atomAlreadyBound (atom : Nat)
  /-- The value of an unbound atom was needed. -/
  | atomUnbound (atom : Nat)
  /-- Too many atoms to enumerate their assignments. -/
  | tooManyAtoms (count : Nat)
  /-- The atom has no bit in an enumeration counter. -/
  | atomWithoutBit (atom : Nat)
deriving DecidableEq, Repr

/-- A one-line account of the fault. -/
def Fault.message : Fault → String
  | .atomOutOfRange atom => "atom " ++ Numeral.ofNat atom ++ " is out of range"
  | .atomAlreadyBound atom => "atom " ++ Numeral.ofNat atom ++ " is already bound"
  | .atomUnbound atom => "atom " ++ Numeral.ofNat atom ++ " is unbound"
  | .tooManyAtoms count => Numeral.ofNat count ++ " atoms are too many to enumerate"
  | .atomWithoutBit atom => "atom " ++ Numeral.ofNat atom ++ " has no counter bit"

end DavisPutnam
