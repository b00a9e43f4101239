/-!
# References

States of a network and frames of a call stack are named by their place in it. A reference is such a
place, below `slotCount`, or none; there is no reference to a place above the bound.
-/

set_option autoImplicit false

namespace SyntaxRecovery

/-- Number of places that a reference can name. -/
def slotCount : Nat := 4294967295

/-- A place that a reference can name. -/
abbrev Slot := Fin slotCount

/-- Reference to a state of a network. -/
abbrev StateRef := Option Slot

/-- Reference to a frame of a call stack. -/
abbrev FrameRef := Option Slot

/-- The reference given out for place `n`. Below the bound it names that place. At the bound it is no
reference, and above it the last place stands for all. -/
def referTo (n : Nat) : Option Slot :=
  if h : n < slotCount then some ⟨n, h⟩
  else if n = slotCount then none
  else some ⟨slotCount - 1, by decide⟩

/-- A reference as a number; no reference is the number just past the last place. -/
def referenceNumber (r : Option Slot) : Nat :=
  match r with
  | some p => p.val
  | none => slotCount

/-- The reference with a number. -/
def reference (n : Nat) : Option Slot := if h : n < slotCount then some ⟨n, h⟩ else none

theorem referTo_of_lt {n : Nat} (h : n < slotCount) : referTo n = some ⟨n, h⟩ := by
  simp [referTo, h]

/-- A reference given out for a place never names a later one. -/
theorem val_le_of_referTo {n : Nat} {p : Slot} (h : referTo n = some p) : p.val ≤ n := by
  unfold referTo at h
  split at h
  · cases h
    exact Nat.le_refl n
  · split at h
    · cases h
    · next hlt _ =>
      cases h
      show slotCount - 1 ≤ n
      omega

end SyntaxRecovery
