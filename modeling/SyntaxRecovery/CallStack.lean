import SyntaxRecovery.Reference

/-!
# Call stacks

The rules being parsed, outermost first. A frame keeps the state of the caller from which its rule
was called and a reference to the caller's frame, taken when it is pushed, so that the chain of
callers can be followed from every frame. Callers lie below their callees (`CallStack.parent_lt`), so
the chain ends.
-/

set_option autoImplicit false

namespace SyntaxRecovery

/-- A rule being parsed. -/
structure Frame where
  /-- The rule. -/
  rule : Nat
  /-- State of the caller from which the rule was called; none for the rule parsing began with. -/
  invoking : StateRef
  /-- Frame of the caller. -/
  parent : FrameRef
deriving DecidableEq, Repr, Inhabited

/-- Whether no state called the rule. -/
def Frame.isOutermost (f : Frame) : Bool := f.invoking.isNone

/-- The rules being parsed. -/
structure CallStack where
  /-- The frames, outermost first. -/
  frames : Array Frame
  /-- The frame of the caller lies below. -/
  parent_lt : ∀ (i : Nat) (h : i < frames.size) (p : Slot), frames[i].parent = some p → p.val < i

namespace CallStack

instance : EmptyCollection CallStack := ⟨⟨#[], fun _ h => absurd h (Nat.not_lt_zero _)⟩⟩

instance : Inhabited CallStack := ⟨∅⟩

/-- Number of frames. -/
def depth (s : CallStack) : Nat := s.frames.size

/-- Whether no rule is being parsed. -/
def isEmpty (s : CallStack) : Bool := s.frames.isEmpty

/-- The innermost frame. -/
def current (s : CallStack) : FrameRef :=
  if s.depth = 0 then none else referTo (s.depth - 1)

/-- The frame under a reference. -/
def get? (s : CallStack) (r : FrameRef) : Option Frame :=
  match r with
  | some p => s.frames[p.val]?
  | none => none

theorem lt_of_current {s : CallStack} {p : Slot} (h : s.current = some p) : p.val < s.depth := by
  unfold current at h
  split at h
  · cases h
  · have := val_le_of_referTo h
    omega

/-- Enters a rule called from a state of the current frame; gives the reference to the new frame. -/
def push (s : CallStack) (rule : Nat) (invoking : StateRef) : FrameRef × CallStack :=
  (referTo s.depth,
    { frames := s.frames.push { rule, invoking, parent := s.current }
      parent_lt := by
        intro i h p hp
        -- the frames below are unchanged, and the new one refers to the last of them
        rw [Array.getElem_push] at hp
        split at hp
        · next hi => exact s.parent_lt i hi p hp
        · next hi =>
          have := lt_of_current hp
          simp only [depth] at this
          omega })

/-- Leaves the current rule. -/
def pop? (s : CallStack) : Option (Frame × CallStack) :=
  match s.frames.back? with
  | some f =>
    some (f,
      { frames := s.frames.pop
        parent_lt := by
          intro i h p hp
          rw [Array.getElem_pop] at hp
          exact s.parent_lt i _ p hp })
  | none => none

/-- The frames from one outward to the outermost. -/
def ancestors (s : CallStack) (start : FrameRef) : List (Slot × Frame) :=
  match start with
  | none => []
  | some p =>
    if h : p.val < s.frames.size then (p, s.frames[p.val]) :: s.ancestors s.frames[p.val].parent
    else []
termination_by match start with
  | none => 0
  | some p => p.val + 1
decreasing_by
  split
  · omega
  · next q hq =>
    have := s.parent_lt p.val h q hq
    omega

/-- The rules being parsed, innermost first. -/
def rules (s : CallStack) : List Nat := (s.ancestors s.current).map fun (_, f) => f.rule

/-- Number of frames that are followed outward at most. -/
def chainLimit : Nat := 10000

/-- A change to a call stack. -/
inductive Change where
  /-- Enter a rule from a state. -/
  | push (rule : Nat) (invoking : StateRef)
  /-- Leave the current rule, if there is one. -/
  | pop
  /-- Leave all rules. -/
  | clear

/-- The stack after a change. -/
def apply (s : CallStack) : Change → CallStack
  | .push rule invoking => (s.push rule invoking).2
  | .pop =>
    match s.pop? with
    | some (_, t) => t
    | none => s
  | .clear => ∅

/-- The stack after a list of changes, made in order. -/
def applyAll (s : CallStack) (changes : List Change) : CallStack := changes.foldl apply s

end CallStack

end SyntaxRecovery
