import Mathlib
import SyntaxRecovery.Proofs.Recovery.Deletion
import SyntaxRecovery.Proofs.Recovery.Repeats

/-!
# How far one resynchronization goes

Under a limit draining passes over no more tokens than the limit says, and over fewer only if it comes
to one at which to stop (`TokenStream.position_drain_le`, `TokenStream.stopsAt_drain_or_position`). The
one token that a stuck session passes over comes before, and the limit does not count it. So a
resynchronization stays within the limit unless the session is stuck, and then it passes over one token
more at most (`Session.resynchronize_within_budget`). That one more can be reached
(`Session.stuck_passes_over_budget`).
-/

set_option autoImplicit false

namespace SyntaxRecovery

/-- Under a limit it is noted at the end that the limit is spent, unless draining stops there anyway. -/
theorem drain_eq_of_budget {κ : Type} [Cursor κ] {settings : Settings} {budget : UInt64}
    (hbudget : settings.budget = some budget) (codes : TokenSet) (input : κ) :
    drain settings codes input =
      { value := (drainAtMost codes budget.toNat input).value
        notes := (drainAtMost codes budget.toNat input).notes ++
          if stopsAt codes (drainAtMost codes budget.toNat input).value.2 then []
          else [.event (.budgetSpent budget.toNat)] } := by
  rw [drain, hbudget]
  cases hstop : stopsAt codes (drainAtMost codes budget.toNat input).value.2 with
  | false => simp [bind, hstop, Noted.after]
  | true => simp [bind, hstop, pure]

/-- Under a limit the input is drained of no more tokens than that. -/
theorem value_drain_of_budget {κ : Type} [Cursor κ] {settings : Settings} {budget : UInt64}
    (hbudget : settings.budget = some budget) (codes : TokenSet) (input : κ) :
    (drain settings codes input).value = (drainAtMost codes budget.toNat input).value := by
  rw [drain_eq_of_budget hbudget]

namespace TokenStream

variable {s : TokenStream} {codes : TokenSet}

theorem position_drainAtMost_le (n : Nat) :
    (drainAtMost codes n s).value.2.position ≤ s.position + n := by
  induction n generalizing s with
  | zero => exact Nat.le_refl _
  | succ n ih =>
    rw [drainAtMost]
    split
    · exact Nat.le_add_right _ _
    · -- one token is passed over here, and at most `n` from the next one on
      have hrest : (drainAtMost codes n s.advance).value.2.position ≤ s.advance.position + n := ih
      have hadvance := position_advance_le (s := s)
      change (drainAtMost codes n s.advance).value.2.position ≤ _
      omega

/-- Draining ends early only at a token at which to stop: at the last one at the latest. -/
theorem stopsAt_drainAtMost_or_position (h : s.Ended) (n : Nat) :
    stopsAt codes (drainAtMost codes n s).value.2 = true ∨
      (drainAtMost codes n s).value.2.position = s.position + n := by
  induction n generalizing s with
  | zero => exact Or.inr rfl
  | succ n ih =>
    rw [drainAtMost]
    split
    · next hstop => exact Or.inl hstop
    · next hgo =>
      have hlast : s.position ≠ s.lastPosition := fun hlast => hgo (h.stopsAt hlast)
      have hadvance := position_advance hlast
      rcases ih (h.onward onward_advance) with hstop | hposition
      · exact Or.inl hstop
      · right
        change (drainAtMost codes n s.advance).value.2.position = _
        omega

variable {settings : Settings} {budget : UInt64}

/-- Under a limit draining moves a stream by no more places than that. -/
theorem position_drain_le (hbudget : settings.budget = some budget) :
    (drain settings codes s).value.2.position ≤ s.position + budget.toNat := by
  rw [value_drain_of_budget hbudget]
  exact position_drainAtMost_le budget.toNat

/-- Where it does not stop, it moves by that many. -/
theorem stopsAt_drain_or_position (h : s.Ended) (hbudget : settings.budget = some budget) :
    stopsAt codes (drain settings codes s).value.2 = true ∨
      (drain settings codes s).value.2.position = s.position + budget.toNat := by
  rw [value_drain_of_budget hbudget]
  exact stopsAt_drainAtMost_or_position h budget.toNat

end TokenStream

namespace Session

variable {ω : Type} {s : Session TokenStream}

theorem position_unstick_le (state : StateRef) :
    (s.unstick state).value.input.position ≤
      s.input.position + (if s.isStuck state then 1 else 0) := by
  rw [value_unstick]
  split
  · exact TokenStream.position_advance_le
  · exact Nat.le_refl _

/-- Under a limit a resynchronization passes over no more tokens than that, and over one more if the
session is stuck. It passes over that one first, and then over as many as the limit says or up to a
token at which recovery stops. -/
theorem resynchronize_within_budget [FollowSource ω] {policy : Policy} {budget : UInt64}
    (hbudget : policy.settings.budget = some budget) (site : Site ω) (s : Session TokenStream) :
    let u := (s.unstick site.state).value.input
    let t := (s.resynchronize policy site).value.input
    t.position ≤ s.input.position + (if s.isStuck site.state then 1 else 0) + budget.toNat ∧
      s.input.position ≤ u.position ∧ u.position ≤ t.position ∧
      t.position ≤ u.position + budget.toNat ∧
      (s.input.Ended → stopsAt (site.recoverySet policy).value t = true ∨
        t.position = u.position + budget.toNat) := by
  intro u t
  have honward : s.input.Onward u := onward_unstick site.state
  have hdrain : u.Onward t := TokenStream.onward_drain policy.settings
  have hle : t.position ≤ u.position + budget.toNat := TokenStream.position_drain_le hbudget
  have hunstick : u.position ≤ s.input.position + (if s.isStuck site.state then 1 else 0) :=
    position_unstick_le site.state
  refine ⟨by omega, honward.position_le, hdrain.position_le, hle, ?_⟩
  intro hended
  exact TokenStream.stopsAt_drain_or_position (hended.onward honward) hbudget

/-! ## A limit of one token -/

/-- The user wants one token passed over at most. -/
def thriftyPolicy : Policy := { settings := { budget := some 1 } }

/-- There has been an error in state 7, at a token with code 3, where recovery stops. -/
def stoppedSession : Session TokenStream :=
  ((streamSession [3, 4, 5]).resynchronize thriftyPolicy (itemSite (reference 7))).value

/-- After another error there, no more than two tokens are passed over: the second one unless recovery
stops there. -/
theorem resynchronize_within_budget_of_stuck :
    let u := (stoppedSession.unstick (reference 7)).value.input
    let t := (stoppedSession.resynchronize thriftyPolicy (itemSite (reference 7))).value.input
    thriftyPolicy.settings.budget = some 1 ∧ stoppedSession.isStuck (reference 7) = true ∧
      stoppedSession.input.Ended ∧
      t.position ≤ stoppedSession.input.position + 1 + (1 : UInt64).toNat ∧
      (stopsAt ((itemSite (reference 7)).recoverySet thriftyPolicy).value t = true ∨
        t.position = u.position + (1 : UInt64).toNat) := by
  have hbudget : thriftyPolicy.settings.budget = some 1 := rfl
  have hstuck : stoppedSession.isStuck (itemSite (reference 7)).state = true := by cbv
  have hended : stoppedSession.input.Ended :=
    ended_streamSession.onward (onward_resynchronize thriftyPolicy (itemSite (reference 7)))
  have hwithin := resynchronize_within_budget hbudget (itemSite (reference 7)) stoppedSession
  have hle := hwithin.1
  rw [if_pos hstuck] at hle
  exact ⟨hbudget, hstuck, hended, hle, hwithin.2.2.2.2 hended⟩

/-- Where one token may be passed over, two are, as the session fails again in the state and at the
position of its only resynchronization so far. -/
theorem stuck_passes_over_budget :
    thriftyPolicy.settings.budget = some 1 ∧ stoppedSession.input.position = 0 ∧
      (stoppedSession.resynchronize thriftyPolicy (itemSite (reference 7))).value.input.position =
        2 := by
  refine ⟨rfl, by cbv, by cbv⟩

end Session

end SyntaxRecovery
