import SyntaxRecovery.Network.Construction
import SyntaxRecovery.Proofs.CallStack.OpenCalls

/-!
# References past the last place

There are as many references as places below `slotCount`. What is given out for a place is a reference,
for a place past the last one too, where the last reference stands for all, with one exception: the first
place past the last has the number that means no reference (`referTo_eq_none_iff`). So a stack or a
network gives out no reference at that one size, and the innermost frame of a stack has none at the next
(`pushed_eq_none_iff`). Such a stack and such a network can be made (`no_reference_past_the_last`).
-/

set_option autoImplicit false

namespace SyntaxRecovery

/-- The only place for which no reference is given out is the first past the last. -/
theorem referTo_eq_none_iff {n : Nat} : referTo n = none ↔ n = slotCount := by
  rw [referTo]
  split
  · next hlt => exact iff_of_false (Option.some_ne_none _) (Nat.ne_of_lt hlt)
  · split
    · next heq => exact iff_of_true rfl heq
    · next hne => exact iff_of_false (Option.some_ne_none _) hne

/-- There is no reference to the innermost frame of a stack without frames, and of a stack with one
frame more than there are references. -/
theorem CallStack.current_eq_none_iff (s : CallStack) :
    s.current = none ↔ s.depth = 0 ∨ s.depth = slotCount + 1 := by
  rw [current_eq_below]
  cases s.depth with
  | zero => exact iff_of_true rfl (Or.inl rfl)
  | succ n =>
    rw [below, referTo_eq_none_iff, Nat.add_right_cancel_iff]
    exact (or_iff_right (Nat.succ_ne_zero n)).symm

theorem CallStack.reference_push (s : CallStack) (rule : Nat) (invoking : StateRef) :
    (s.push rule invoking).1 = referTo s.depth := rfl

theorem Network.reference_addState (net : Network) (rule : Nat) (kind : StateKind) :
    (net.addState rule kind).1 = referTo net.states.size := rfl

theorem Network.start_addRule (net : Network) : net.addRule.1.1 = referTo net.states.size := rfl

/-- The stop of a new rule is the state after its start. -/
theorem Network.stop_addRule (net : Network) : net.addRule.1.2 = referTo (net.states.size + 1) := by
  change referTo (net.addState net.ruleCount .ruleStart).2.states.size = _
  rw [addState, Array.size_push]

/-- Whatever is on a stack and in a network, a push gives out a reference to the new frame, and a new
state and a new rule get theirs, but where there are just as many frames or states already as there are
references. A stack with frames has a current one, but where it has one more than that. -/
theorem pushed_eq_none_iff (s : CallStack) (net : Network) (rule : Nat) (invoking : StateRef)
    (kind : StateKind) :
    ((s.push rule invoking).1 = none ↔ s.depth = slotCount) ∧
    (s.current = none ↔ s.isEmpty = true ∨ s.depth = slotCount + 1) ∧
    ((net.addState rule kind).1 = none ↔ net.states.size = slotCount) ∧
    (net.addRule.1.1 = none ↔ net.states.size = slotCount) ∧
    (net.addRule.1.2 = none ↔ net.states.size + 1 = slotCount) := by
  refine ⟨?_, ?_, ?_, ?_, ?_⟩
  · rw [CallStack.reference_push, referTo_eq_none_iff]
  · rw [CallStack.isEmpty, Array.isEmpty_iff_size_eq_zero]
    exact s.current_eq_none_iff
  · rw [Network.reference_addState, referTo_eq_none_iff]
  · rw [Network.start_addRule, referTo_eq_none_iff]
  · rw [Network.stop_addRule, referTo_eq_none_iff]

/-! ## Coming to the last place -/

/-- A stack onto which a rule has been pushed again and again, `n` times. -/
def CallStack.pushedTimes : Nat → CallStack
  | 0 => ∅
  | n + 1 => ((pushedTimes n).push 0 none).2

/-- A network to which a state has been added again and again, `n` times. -/
def Network.addedTimes : Nat → Network
  | 0 => empty .absent
  | n + 1 => ((addedTimes n).addState 0 .basic).2

theorem CallStack.depth_pushedTimes (n : Nat) : (pushedTimes n).depth = n := by
  induction n with
  | zero => rfl
  | succ n ih => rw [depth, pushedTimes, frames_push, Array.size_push, ← depth, ih]

theorem Network.size_addedTimes (n : Nat) : (addedTimes n).states.size = n := by
  induction n with
  | zero => rfl
  | succ n ih => rw [addedTimes, addState, Array.size_push, ih]

/-- Once as many rules have been entered as there are references, the next push gives out none, and
then there is none to the innermost frame, although there are frames. Once there are as many states,
a new state gets none, nor does the start of a new rule. -/
theorem no_reference_past_the_last :
    ((CallStack.pushedTimes slotCount).push 0 none).1 = none ∧
      (CallStack.pushedTimes (slotCount + 1)).isEmpty = false ∧
      (CallStack.pushedTimes (slotCount + 1)).current = none ∧
      ((Network.addedTimes slotCount).addState 0 .basic).1 = none ∧
      (Network.addedTimes slotCount).addRule.1.1 = none := by
  refine ⟨?_, ?_, ?_, ?_, ?_⟩
  · rw [CallStack.reference_push, CallStack.depth_pushedTimes, referTo_eq_none_iff]
  · rw [CallStack.isEmpty, Bool.eq_false_iff, Ne, Array.isEmpty_iff_size_eq_zero, ← CallStack.depth,
      CallStack.depth_pushedTimes]
    exact Nat.succ_ne_zero slotCount
  · rw [CallStack.current_eq_none_iff, CallStack.depth_pushedTimes]
    exact Or.inr rfl
  · rw [Network.reference_addState, Network.size_addedTimes, referTo_eq_none_iff]
  · rw [Network.start_addRule, Network.size_addedTimes, referTo_eq_none_iff]

end SyntaxRecovery
