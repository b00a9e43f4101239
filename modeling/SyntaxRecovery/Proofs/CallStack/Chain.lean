import SyntaxRecovery.CallStack

/-!
# The chain of callers

From every frame the chain of callers leads outward to a frame without one. It is no longer than the
stack is deep (`CallStack.length_ancestors_le_depth`). The calls of a frame and of its callers are
pending as long as states made them: the first frame that no state called ends the pending calls, even
if it has a caller (`CallStack.Pending`).
-/

set_option autoImplicit false

namespace SyntaxRecovery

namespace CallStack

variable {s : CallStack} {r : FrameRef} {f g : Frame}

theorem get?_empty (r : FrameRef) : (∅ : CallStack).get? r = none := by
  cases r with
  | none => rfl
  | some p => exact Array.getElem?_eq_none (Nat.zero_le _)

theorem ancestors_of_get?_eq_none (h : s.get? r = none) : s.ancestors r = [] := by
  rw [ancestors.eq_def]
  cases r with
  | none => rfl
  | some p =>
    have hp : ¬ p.val < s.frames.size := Nat.not_lt.2 (Array.getElem?_eq_none_iff.1 h)
    exact dif_neg hp

theorem ancestors_of_get?_eq_some (h : s.get? r = some f) :
    ∃ p, r = some p ∧ s.ancestors r = (p, f) :: s.ancestors f.parent := by
  cases r with
  | none => cases h
  | some p =>
    obtain ⟨hp, rfl⟩ := Array.getElem?_eq_some_iff.1 h
    refine ⟨p, rfl, ?_⟩
    rw [ancestors.eq_def]
    exact dif_pos hp

/-- Callers lie below. -/
theorem parent_lt_of_get? {p q : Slot} (h : s.get? (some p) = some f) (hq : f.parent = some q) :
    q.val < p.val := by
  obtain ⟨hp, rfl⟩ := Array.getElem?_eq_some_iff.1 h
  exact s.parent_lt p.val hp q hq

/-- What holds where there is no frame, and at a frame if it holds at its parent, holds everywhere. -/
theorem chain_induction {P : FrameRef → Prop} (hnone : ∀ r, s.get? r = none → P r)
    (hsome : ∀ r f, s.get? r = some f → P f.parent → P r) (r : FrameRef) : P r := by
  induction r using ancestors.induct (s := s) with
  | case1 => exact hnone none rfl
  | case2 p hp ih => exact hsome (some p) _ (Array.getElem?_eq_getElem hp) ih
  | case3 p hp => exact hnone (some p) (Array.getElem?_eq_none (Nat.not_lt.1 hp))

theorem length_ancestors_le (r : FrameRef) :
    ∀ p, r = some p → (s.ancestors r).length ≤ p.val + 1 := by
  induction r using chain_induction (s := s) with
  | hnone r hr =>
    intro p _
    simp [ancestors_of_get?_eq_none hr]
  | hsome r f hf ih =>
    rintro p rfl
    obtain ⟨_, -, hanc⟩ := ancestors_of_get?_eq_some hf
    rw [hanc, List.length_cons]
    cases hq : f.parent with
    | none => simp [ancestors_of_get?_eq_none (s := s) (r := none) rfl]
    | some q =>
      have hle := ih q hq
      have hlt := parent_lt_of_get? hf hq
      rw [hq] at hle
      omega

theorem length_ancestors_le_depth : (s.ancestors r).length ≤ s.depth := by
  cases hf : s.get? r with
  | none => simp [ancestors_of_get?_eq_none hf]
  | some f =>
    cases r with
    | none => cases hf
    | some p =>
      obtain ⟨hp, -⟩ := Array.getElem?_eq_some_iff.1 hf
      exact Nat.le_trans (length_ancestors_le _ p rfl) hp

/-! ## Pending calls -/

/-- At the frame under a reference the call of a frame is pending: a state made it, and so it is with
all calls between. -/
inductive Pending (s : CallStack) : FrameRef → Frame → Prop
  | call {r : FrameRef} {f : Frame} : s.get? r = some f → f.isOutermost = false → Pending s r f
  | outward {r : FrameRef} {f g : Frame} : s.get? r = some f → f.isOutermost = false →
      Pending s f.parent g → Pending s r g

/-- The call of the caller of a frame is pending with that of the frame. -/
theorem Pending.of_parent (h : s.Pending r f) (hg : s.get? f.parent = some g)
    (hin : g.isOutermost = false) : s.Pending r g := by
  induction h with
  | call hf hf_in => exact .outward hf hf_in (.call hg hin)
  | outward hf hf_in _ ih => exact .outward hf hf_in (ih hg)

theorem not_pending_of_get?_eq_none (h : s.get? r = none) : ¬ s.Pending r g := by
  intro hg
  cases hg with
  | call hf _ => cases h.symm.trans hf
  | outward hf _ _ => cases h.symm.trans hf

theorem not_pending_of_isOutermost (hf : s.get? r = some f) (hout : f.isOutermost = true) :
    ¬ s.Pending r g := by
  intro hg
  cases hg with
  | call hf' hin | outward hf' hin _ =>
    cases hf.symm.trans hf'
    exact Bool.false_ne_true (hin.symm.trans hout)

theorem pending_iff_of_isOutermost_eq_false (hf : s.get? r = some f) (hin : f.isOutermost = false) :
    s.Pending r g ↔ g = f ∨ s.Pending f.parent g := by
  constructor
  · intro hg
    cases hg with
    | call hf' _ => exact Or.inl (Option.some.inj (hf'.symm.trans hf))
    | outward hf' _ hrest =>
      cases hf.symm.trans hf'
      exact Or.inr hrest
  · rintro (rfl | hg)
    · exact .call hf hin
    · exact .outward hf hin hg

end CallStack

end SyntaxRecovery
