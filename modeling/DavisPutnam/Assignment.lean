import DavisPutnam.Model

/-!
Partial assignments: a slot per atom, bound to a truth value or unbound.

A slot is bound at most once: `Assignment.assign` refuses an atom that is
already bound. Each binding uses up one unbound slot (`unboundCount_assign`),
which is why simplification and search come to an end. Completing an
assignment makes every unbound atom true.
-/

namespace DavisPutnam

/-- A truth value or nothing per atom, atom 1 first. -/
structure Assignment where
  slots : List (Option Bool)
deriving DecidableEq, Repr

namespace Assignment

/-- The assignment of `atoms` atoms that binds none of them. -/
def unbound (atoms : Nat) : Assignment :=
  ⟨List.replicate atoms none⟩

/-- The number of atoms, bound or not. -/
def atoms (a : Assignment) : Nat :=
  a.slots.length

/-- The number of unbound atoms. -/
def unboundCount (a : Assignment) : Nat :=
  a.slots.countP Option.isNone

/-- The value of an atom, `none` if it is unbound. -/
def value (a : Assignment) (atom : Nat) : Except Fault (Option Bool) :=
  match atomSlot? a.slots atom with
  | some v => .ok v
  | none => .error (.atomOutOfRange atom)

/-- The truth of a literal, `none` if its atom is unbound. -/
def literalValue (a : Assignment) (l : Literal) : Except Fault (Option Bool) :=
  (a.value l.atom).map fun v => v.map (· == l.positive)

/-- The truth of a literal, `none` if its atom is unbound or has no slot. -/
def truth? (a : Assignment) (l : Literal) : Option Bool :=
  (atomSlot? a.slots l.atom).join.map (· == l.positive)

/-- Binds the atom of a literal so that the literal is true. -/
def assign (a : Assignment) (l : Literal) : Except Fault Assignment :=
  match atomSlot? a.slots l.atom with
  | none => .error (.atomOutOfRange l.atom)
  | some (some _) => .error (.atomAlreadyBound l.atom)
  | some none => .ok ⟨a.slots.set (l.atom - 1) (some l.positive)⟩

/-- The lowest unbound atom. -/
def firstUnbound (a : Assignment) : Option Nat :=
  (a.slots.findIdx? Option.isNone).map (· + 1)

/-- The model that keeps every binding and makes the unbound atoms true. -/
def complete (a : Assignment) : Model :=
  ⟨a.slots.map (·.getD true)⟩

/-! ### What a binding does -/

/-- A literal can be bound exactly if its atom is in range and unbound. -/
theorem assign_eq_ok_iff {a b : Assignment} {l : Literal} :
    a.assign l = .ok b ↔ atomSlot? a.slots l.atom = some none ∧
      b = ⟨a.slots.set (l.atom - 1) (some l.positive)⟩ := by
  unfold assign
  split <;> simp_all [eq_comm]

/-- A binding keeps the number of atoms. -/
theorem atoms_assign {a b : Assignment} {l : Literal} (h : a.assign l = .ok b) :
    b.atoms = a.atoms := by
  obtain ⟨_, rfl⟩ := assign_eq_ok_iff.mp h
  simp [atoms]

/-- A binding uses up one unbound atom. -/
theorem unboundCount_assign {a b : Assignment} {l : Literal} (h : a.assign l = .ok b) :
    b.unboundCount + 1 = a.unboundCount := by
  obtain ⟨entry, rfl⟩ := assign_eq_ok_iff.mp h
  obtain ⟨atom, positive⟩ := l
  cases atom with
  | zero => simp [atomSlot?] at entry
  | succ i =>
    simp only [atomSlot?] at entry
    obtain ⟨bound, free⟩ := List.getElem?_eq_some_iff.mp entry
    have some_free : 0 < a.slots.countP Option.isNone :=
      List.countP_pos_iff.mpr ⟨none, free ▸ List.getElem_mem bound, rfl⟩
    simp only [unboundCount, Nat.add_sub_cancel, List.countP_set bound, free]
    simp
    omega

end Assignment

end DavisPutnam
