import Mathlib.Data.List.Infix
import SyntaxRecovery.Proofs.CallStack.Chain

/-!
# Call stacks as plain stacks

Whatever is pushed and popped, the frames of a call stack are the calls that have been made and have not
returned, as a plain list has them (`CallStack.calls_applyAll`). What a frame keeps of its place stays
true meanwhile, although places are used again: its caller is the frame just below it
(`CallStack.Chained`). So the chain of callers from a frame comes by every frame below it, in order, and
then ends, and a reference given out names its frame until that is popped
(`CallStack.plain_stack_of_changes`).
-/

set_option autoImplicit false

namespace SyntaxRecovery

/-- A call of a rule. -/
structure Call where
  /-- The rule. -/
  rule : Nat
  /-- State from which it was called, if there was one. -/
  invoking : StateRef
deriving DecidableEq

/-- The call by which a frame was entered. -/
def Frame.call (f : Frame) : Call := { rule := f.rule, invoking := f.invoking }

namespace CallStack

variable {s : CallStack} {f : Frame} {i n : Nat}

/-! ## Open calls -/

/-- The open calls after a change, newest first. -/
def afterChange (calls : List Call) : Change → List Call
  | .push rule invoking => { rule, invoking } :: calls
  | .pop => calls.tail
  | .clear => []

/-- The calls that are open after a list of changes, newest first. -/
def openCalls (changes : List Change) : List Call := changes.foldl afterChange []

/-- The calls by which the frames were entered, innermost first. -/
def calls (s : CallStack) : List Call := (s.frames.toList.map Frame.call).reverse

theorem length_calls (s : CallStack) : s.calls.length = s.depth := by
  rw [calls, List.length_reverse, List.length_map, Array.length_toList, depth]

theorem frames_push (s : CallStack) (rule : Nat) (invoking : StateRef) :
    (s.push rule invoking).2.frames = s.frames.push { rule, invoking, parent := s.current } := rfl

/-- To pop is to take off the last frame, if there is one. -/
theorem frames_apply_pop (s : CallStack) : (s.apply .pop).frames = s.frames.pop := by
  rw [apply, pop?]
  cases hlast : s.frames.back? with
  | none =>
    have hempty : s.frames = #[] := Array.back?_eq_none_iff.1 hlast
    change s.frames = s.frames.pop
    rw [hempty]
    rfl
  | some f => rfl

theorem calls_apply (s : CallStack) (c : Change) : (s.apply c).calls = afterChange s.calls c := by
  cases c with
  | push rule invoking =>
    change ((s.push rule invoking).2.frames.toList.map Frame.call).reverse = _
    rw [frames_push, Array.toList_push, List.map_append, List.reverse_append]
    rfl
  | pop =>
    rw [calls, frames_apply_pop, Array.toList_pop, List.map_dropLast, ← List.tail_reverse]
    rfl
  | clear => rfl

theorem calls_applyAll (s : CallStack) (changes : List Change) :
    (s.applyAll changes).calls = changes.foldl afterChange s.calls := by
  induction changes generalizing s with
  | nil => rfl
  | cons c changes ih =>
    rw [applyAll, List.foldl_cons, List.foldl_cons, ← calls_apply]
    exact ih (s.apply c)

/-! ## Frames that know the frame below -/

/-- Reference to the frame below a place. -/
def below : Nat → FrameRef
  | 0 => none
  | n + 1 => referTo n

theorem current_eq_below (s : CallStack) : s.current = below s.depth := by
  rw [current]
  cases s.depth with
  | zero => rfl
  | succ n => rfl

theorem below_succ_of_lt (h : n < slotCount) : below (n + 1) = some ⟨n, h⟩ := referTo_of_lt h

/-- Every frame has been pushed by the frame just below it, the lowest by none. -/
def Chained (s : CallStack) : Prop := ∀ i f, s.frames[i]? = some f → f.parent = below i

theorem chained_empty : Chained ∅ := by
  intro i f hf
  cases hf

theorem Chained.apply (h : s.Chained) (c : Change) : (s.apply c).Chained := by
  intro i f hf
  cases c with
  | push rule invoking =>
    change (s.push rule invoking).2.frames[i]? = some f at hf
    rw [frames_push, Array.getElem?_push] at hf
    split at hf
    · next hi =>
      cases hf
      rw [hi]
      exact s.current_eq_below
    · exact h i f hf
  | pop =>
    rw [frames_apply_pop, Array.getElem?_pop] at hf
    split at hf
    · exact h i f hf
    · cases hf
  | clear => cases hf

theorem chained_applyAll (changes : List Change) : Chained (applyAll ∅ changes) := by
  suffices hkeeps : ∀ s : CallStack, s.Chained → (s.applyAll changes).Chained from
    hkeeps ∅ chained_empty
  induction changes with
  | nil =>
    intro s h
    exact h
  | cons c changes ih =>
    intro s h
    exact ih (s.apply c) (h.apply c)

/-! ## Following the chain -/

/-- One step along the chain goes down by one place. -/
theorem Chained.ancestors_below_succ (h : s.Chained) (hn : n < s.depth) (hslot : n < slotCount) :
    ∃ f, s.frames[n]? = some f ∧
      s.ancestors (below (n + 1)) = (⟨n, hslot⟩, f) :: s.ancestors (below n) := by
  have hget : s.frames[n]? = some s.frames[n] := Array.getElem?_eq_getElem hn
  have hat : s.get? (below (n + 1)) = some s.frames[n] := by
    rw [below_succ_of_lt hslot]
    exact hget
  obtain ⟨p, hp, hanc⟩ := ancestors_of_get?_eq_some hat
  rw [below_succ_of_lt hslot] at hp
  cases hp
  rw [h n _ hget] at hanc
  exact ⟨s.frames[n], hget, hanc⟩

/-- The chain comes by all places below, downwards. -/
theorem Chained.places_ancestors_below (h : s.Chained) (hdepth : s.depth ≤ slotCount)
    (hn : n ≤ s.depth) :
    (s.ancestors (below n)).map (fun a => a.1.val) = (List.range n).reverse := by
  induction n with
  | zero => rw [below, ancestors_of_get?_eq_none rfl]; rfl
  | succ n ih =>
    obtain ⟨f, -, hanc⟩ := h.ancestors_below_succ hn (Nat.lt_of_lt_of_le hn hdepth)
    rw [hanc, List.map_cons, ih (Nat.le_of_succ_le hn), List.range_succ, List.reverse_append]
    rfl

/-- The chain comes by all frames below, downwards. -/
theorem Chained.frames_ancestors_below (h : s.Chained) (hdepth : s.depth ≤ slotCount)
    (hn : n ≤ s.depth) :
    (s.ancestors (below n)).map Prod.snd = (s.frames.toList.take n).reverse := by
  induction n with
  | zero => rw [below, ancestors_of_get?_eq_none rfl]; rfl
  | succ n ih =>
    obtain ⟨f, hf, hanc⟩ := h.ancestors_below_succ hn (Nat.lt_of_lt_of_le hn hdepth)
    rw [← Array.getElem?_toList] at hf
    rw [hanc, List.map_cons, ih (Nat.le_of_succ_le hn), List.take_add_one, hf, List.reverse_append]
    rfl

/-- From the innermost frame the chain comes by the calls of the stack. -/
theorem Chained.rules_eq (h : s.Chained) (hdepth : s.depth ≤ slotCount) :
    s.rules = s.calls.map Call.rule := by
  -- the innermost frame is the one below the place that is free
  have hframes := h.frames_ancestors_below hdepth (Nat.le_refl _)
  rw [← current_eq_below, depth, ← Array.length_toList, List.take_length] at hframes
  change (s.ancestors s.current).map (Frame.rule ∘ Prod.snd) = _
  rw [← List.map_map, hframes, calls, List.map_reverse, List.map_reverse, List.map_map]
  rfl

/-- What the chain comes by are frames under their references. -/
theorem get?_of_mem_ancestors {r : FrameRef} {p : Slot} (h : (p, f) ∈ s.ancestors r) :
    s.get? (some p) = some f := by
  induction r using chain_induction (s := s) with
  | hnone r hr =>
    rw [ancestors_of_get?_eq_none hr] at h
    cases h
  | hsome r g hg ih =>
    obtain ⟨q, rfl, hanc⟩ := ancestors_of_get?_eq_some hg
    rw [hanc, List.mem_cons] at h
    rcases h with heq | hmem
    · cases heq
      exact hg
    · exact ih hmem

/-! ## Frames that stay -/

/-- A change takes away no frame below the depth that it leaves. -/
theorem getElem?_apply_of_lt {c : Change} (hf : s.frames[i]? = some f)
    (hi : i < (s.apply c).depth) : (s.apply c).frames[i]? = some f := by
  cases c with
  | push rule invoking =>
    change (s.push rule invoking).2.frames[i]? = some f
    obtain ⟨hsize, -⟩ := Array.getElem?_eq_some_iff.1 hf
    rw [frames_push, Array.getElem?_push, if_neg (Nat.ne_of_lt hsize)]
    exact hf
  | pop =>
    rw [depth, frames_apply_pop, Array.size_pop] at hi
    rw [frames_apply_pop, Array.getElem?_pop, if_pos hi]
    exact hf
  -- nothing is below the depth of an empty stack
  | clear => exact absurd hi (Nat.not_lt_zero i)

/-- A frame stays where it is as long as the stack is deeper than its place. -/
theorem getElem?_applyAll_of_lt {changes : List Change} (hf : s.frames[i]? = some f)
    (hi : ∀ part, part <+: changes → i < (s.applyAll part).depth) :
    (s.applyAll changes).frames[i]? = some f := by
  induction changes generalizing s with
  | nil => exact hf
  | cons c changes ih =>
    have hstep : (s.apply c).frames[i]? = some f :=
      getElem?_apply_of_lt hf (hi [c] (List.prefix_append [c] changes))
    apply ih hstep
    intro part hpart
    exact hi (c :: part) (List.cons_prefix_cons.2 ⟨rfl, hpart⟩)

/-- A stack after any changes, as long as there are no more frames than references. Its frames are the
open calls, and the rules being parsed are those of the open calls, newest first. The caller of each
frame is the frame one place below, and the lowest has none. From a frame the chain of callers comes by
its own place and all places below, in order, at each by the frame that is there, and then ends; from a
reference without a frame it comes by nothing. A push gives out a reference to the frame pushed, which
names that frame as long as the stack stays deeper than it was before. -/
theorem plain_stack_of_changes (changes : List Change)
    (hfits : (openCalls changes).length ≤ slotCount) :
    let s := applyAll ∅ changes
    s.calls = openCalls changes ∧
    s.rules = (openCalls changes).map Call.rule ∧
    (∀ i f, s.frames[i]? = some f → f.parent = if i = 0 then none else reference (i - 1)) ∧
    (∀ p : Slot, p.val < s.depth →
      (s.ancestors (some p)).map (fun a => a.1.val) = (List.range (p.val + 1)).reverse ∧
      ∀ q f, (q, f) ∈ s.ancestors (some p) → s.get? (some q) = some f) ∧
    (∀ r, s.get? r = none → s.ancestors r = []) ∧
    (s.depth < slotCount → ∀ rule invoking later,
      let t := (s.push rule invoking).2
      (∀ part, part <+: later → s.depth < (t.applyAll part).depth) →
      (t.applyAll later).get? (s.push rule invoking).1 =
        some { rule, invoking, parent := s.current }) := by
  intro s
  have hcalls : s.calls = openCalls changes := calls_applyAll ∅ changes
  have hchained : s.Chained := chained_applyAll changes
  have hdepth : s.depth ≤ slotCount := by
    rw [← length_calls, hcalls]
    exact hfits
  refine ⟨hcalls, ?_, ?_, ?_, ?_, ?_⟩
  · rw [← hcalls]
    exact hchained.rules_eq hdepth
  · intro i f hf
    obtain ⟨hi, -⟩ := Array.getElem?_eq_some_iff.1 hf
    rw [hchained i f hf]
    cases i with
    | zero => rfl
    | succ i =>
      have hslot : i < slotCount := Nat.lt_of_succ_lt (Nat.lt_of_lt_of_le hi hdepth)
      rw [below_succ_of_lt hslot, if_neg (Nat.succ_ne_zero i), reference, Nat.add_sub_cancel,
        dif_pos hslot]
  · intro p hp
    have hplaces := hchained.places_ancestors_below hdepth (Nat.succ_le_of_lt hp)
    rw [below_succ_of_lt p.isLt] at hplaces
    refine ⟨hplaces, ?_⟩
    intro q f hmem
    exact get?_of_mem_ancestors hmem
  · intro r hr
    exact ancestors_of_get?_eq_none hr
  · intro hslot rule invoking later t hstays
    have hr : (s.push rule invoking).1 = some ⟨s.depth, hslot⟩ := referTo_of_lt hslot
    have hpushed : t.frames[s.depth]? = some { rule, invoking, parent := s.current } := by
      rw [frames_push, depth, Array.getElem?_push, if_pos rfl]
    rw [hr]
    exact getElem?_applyAll_of_lt hpushed hstays

/-- A place is used again: rule 1 is left, and rule 2 takes its place. Then rule 3 is entered, and rule 4,
which is left again. -/
theorem plain_stack_of_place_used_again :
    let changes := [.push 0 none, .push 1 (reference 4), .pop, .push 2 (reference 5), .push 0 none]
    let later := [.push 4 none, .pop]
    let s := applyAll ∅ changes
    let t := (s.push 3 (reference 6)).2
    (openCalls changes).length ≤ slotCount ∧
      (∀ part, part <+: later → s.depth < (t.applyAll part).depth) ∧
      s.calls = [⟨0, none⟩, ⟨2, reference 5⟩, ⟨0, none⟩] ∧
      s.rules = [0, 2, 0] ∧
      (s.ancestors (reference 2)).map (fun a => a.1.val) = [2, 1, 0] ∧
      s.ancestors (reference 3) = [] ∧
      (t.applyAll later).get? (reference 3) =
        some { rule := 3, invoking := reference 6, parent := reference 2 } := by
  intro changes later s t
  have hfits : (openCalls changes).length ≤ slotCount := by decide
  have hstays : ∀ part, part <+: later → s.depth < (t.applyAll part).depth := by
    intro part hpart
    rw [← List.mem_inits] at hpart
    revert part
    decide
  obtain ⟨hcalls, hrules, -, hchain, hnone, hpush⟩ := plain_stack_of_changes changes hfits
  have hplaces := (hchain ⟨2, by decide⟩ (by decide)).1
  exact ⟨hfits, hstays, hcalls, hrules, hplaces, hnone (reference 3) (by decide),
    hpush (by decide) 3 (reference 6) later hstays⟩

end CallStack

end SyntaxRecovery
