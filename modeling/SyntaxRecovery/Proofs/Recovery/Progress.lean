import Mathlib
import SyntaxRecovery.Network.Construction
import SyntaxRecovery.Parser
import SyntaxRecovery.Proofs.Recovery.Motion

/-!
# Progress

A parse cannot fail for ever at one token. A resynchronization that leaves the input where it is keeps
its position and its state in mind, and as long as the input stays there, so do all further ones
(`Session.Spent`). The next resynchronization in the same state is therefore stuck and passes over a
token, unless there is none but the last. For the resynchronizations of a parse (`Parser.recoveries`)
this says how a later one lies to an earlier one (`Parser.pairwise_recoveries`), and how many of them
can start at one token (`Parser.countP_recoveries_le`).
-/

set_option autoImplicit false

namespace SyntaxRecovery

/-! ## States that are spent at a position -/

namespace Session

variable {ω : Type} {s t : Session TokenStream} {i : Nat} {state : StateRef}

/-- The input is past a position, or still there after a resynchronization in a state. -/
def Spent (s : Session TokenStream) (i : Nat) (state : StateRef) : Prop :=
  i < s.input.position ∨
    s.input.position = i ∧ s.memory.position = some i ∧ state ∈ s.memory.states

theorem Spent.proceeds (h : s.Spent i state) (hproceeds : s.Proceeds t) : t.Spent i state := by
  have hle := hproceeds.onward.position_le
  rcases h with hlt | ⟨rfl, hkept, hmem⟩
  · exact Or.inl (Nat.lt_of_lt_of_le hlt hle)
  · rcases Nat.eq_or_lt_of_le hle with hstays | hlt
    · rw [← hproceeds.position_eq] at hkept
      rw [← hproceeds.states_eq] at hmem
      exact Or.inr ⟨hstays.symm, hkept, hmem⟩
    · exact Or.inl hlt

variable [FollowSource ω] {policy : Policy} {site : Site ω}

/-- A resynchronization that leaves the input where it is keeps this position in mind. -/
theorem position_of_stays
    (hstays : (s.resynchronize policy site).value.input.position = s.input.position)
    (hlast : s.input.position ≠ s.input.lastPosition) :
    (s.resynchronize policy site).value.memory.position = some s.input.position := by
  rw [position_resynchronize, value_unstick]
  split
  · next hstuck =>
    -- a stuck session does not stay
    have hlt := lt_position_resynchronize policy site hstuck hlast
    exact absurd hstays (Nat.ne_of_gt hlt)
  · rfl

theorem spent_of_stays
    (hstays : (s.resynchronize policy site).value.input.position = s.input.position)
    (hlast : s.input.position ≠ s.input.lastPosition) :
    (s.resynchronize policy site).value.Spent s.input.position site.state := by
  refine Or.inr ⟨hstays, position_of_stays hstays hlast, ?_⟩
  rw [states_resynchronize]
  exact List.mem_insert_self

theorem Spent.resynchronize (h : s.Spent i state) (hlast : i ≠ s.input.lastPosition) :
    (s.resynchronize policy site).value.Spent i state := by
  have hle := (onward_resynchronize (s := s) policy site).position_le
  rcases h with hlt | ⟨rfl, -, hmem⟩
  · exact Or.inl (Nat.lt_of_lt_of_le hlt hle)
  · rcases Nat.eq_or_lt_of_le hle with hstays | hlt
    · refine Or.inr ⟨hstays.symm, position_of_stays hstays.symm hlast, ?_⟩
      rw [states_resynchronize]
      exact List.mem_insert_of_mem hmem
    · exact Or.inl hlt

/-- In a state that is spent a resynchronization does not leave the input where it is. -/
theorem Spent.lt_position (h : s.Spent s.input.position site.state)
    (hlast : s.input.position ≠ s.input.lastPosition) :
    s.input.position < (s.resynchronize policy site).value.input.position := by
  rcases h with hlt | ⟨-, hkept, hmem⟩
  · exact absurd hlt (Nat.lt_irrefl _)
  · exact lt_position_resynchronize policy site (isStuck_iff.2 ⟨hkept, hmem⟩) hlast

end Session

/-! ## The resynchronizations of a parse -/

/-- A resynchronization of a parse. -/
structure Recovery where
  /-- Position of the input when it begins. -/
  start : Nat
  /-- State of the parser. -/
  state : StateRef
  /-- Position of the input when it ends. -/
  finish : Nat
deriving DecidableEq

namespace Parser

/-- The resynchronization that an action makes. -/
def recovery? (p : Parser TokenStream) : Action → Option Recovery
  | .fail e =>
    let s := (p.session.report p.site e).value
    let t := (s.resynchronize p.policy p.site).value
    some { start := s.input.position, state := p.state, finish := t.input.position }
  | _ => none

/-- The resynchronizations of a run, in order. -/
def recoveries (p : Parser TokenStream) : List Action → List Recovery
  | [] => []
  | a :: rest => (p.recovery? a).toList ++ (p.perform a).value.2.recoveries rest

variable {p : Parser TokenStream} {a : Action} {actions : List Action} {r : Recovery} {i : Nat}
  {state : StateRef}

/-- An action that is no resynchronization changes nothing that is kept in mind of earlier ones. -/
theorem proceeds_perform (hreset : a ≠ .reset) (hr : p.recovery? a = none) :
    p.session.Proceeds (p.perform a).value.2.session := by
  cases a with
  | enter rule => exact Session.proceeds_refl
  | leave =>
    rw [session_perform_leave]
    exact Session.proceeds_refl
  | goto state => exact Session.proceeds_refl
  | accept code =>
    cases hany : p.session.current?.any (·.code = code) with
    | true =>
      rw [session_perform_of_any hany]
      exact Session.proceeds_endRecovery.trans Session.proceeds_advance
    | false =>
      rw [session_perform_of_not_any hany]
      exact Session.proceeds_repair p.policy p.site
  | fail e => cases hr
  | sync => exact Session.proceeds_refl
  | reset => exact absurd rfl hreset

/-- An action that is a resynchronization reports an error before, and does nothing else. -/
theorem exists_session_of_recovery? (hr : p.recovery? a = some r) :
    ∃ s, s.input = p.session.input ∧ p.session.Proceeds s ∧
      (p.perform a).value.2.session = (s.resynchronize p.policy p.site).value ∧
      r.start = s.input.position ∧ r.state = p.site.state ∧
      r.finish = (s.resynchronize p.policy p.site).value.input.position := by
  cases a with
  | fail e =>
    cases hr
    exact ⟨_, Session.input_report p.site e, Session.proceeds_report p.site e, rfl, rfl, rfl, rfl⟩
  | _ => cases hr

theorem onward_perform (p : Parser TokenStream) (hreset : a ≠ .reset) :
    p.session.input.Onward (p.perform a).value.2.session.input := by
  cases hr : p.recovery? a with
  | none => exact (proceeds_perform hreset hr).onward
  | some r =>
    obtain ⟨s, -, hproceeds, hsession, -⟩ := exists_session_of_recovery? hr
    rw [hsession]
    exact hproceeds.onward.trans (Session.onward_resynchronize p.policy p.site)

/-- What is spent stays spent. -/
theorem spent_perform (hreset : a ≠ .reset) (hlast : i ≠ p.session.input.lastPosition)
    (h : p.session.Spent i state) : (p.perform a).value.2.session.Spent i state := by
  cases hr : p.recovery? a with
  | none => exact h.proceeds (proceeds_perform hreset hr)
  | some r =>
    obtain ⟨s, hinput, hproceeds, hsession, -⟩ := exists_session_of_recovery? hr
    rw [← hinput] at hlast
    rw [hsession]
    exact (h.proceeds hproceeds).resynchronize hlast

theorem start_of_recovery? (hr : p.recovery? a = some r) : r.start = p.session.input.position := by
  obtain ⟨s, hinput, -, -, hstart, -⟩ := exists_session_of_recovery? hr
  rw [hstart, hinput]

theorem finish_of_recovery? (hr : p.recovery? a = some r) :
    r.finish = (p.perform a).value.2.session.input.position := by
  obtain ⟨s, -, -, hsession, -, -, hfinish⟩ := exists_session_of_recovery? hr
  rw [hfinish, hsession]

/-- In a state that is spent where the input stands a resynchronization passes over a token. -/
theorem lt_finish_of_spent (hr : p.recovery? a = some r)
    (hspent : p.session.Spent r.start r.state) (hlast : r.start ≠ p.session.input.lastPosition) :
    r.start < r.finish := by
  obtain ⟨s, hinput, hproceeds, -, hstart, hstate, hfinish⟩ := exists_session_of_recovery? hr
  have hs := hspent.proceeds hproceeds
  rw [← hinput] at hlast
  rw [hstart, hstate] at hs
  rw [hstart] at hlast
  rw [hstart, hfinish]
  exact hs.lt_position hlast

/-- A resynchronization that leaves the input where it is spends the state there. -/
theorem spent_of_recovery? (hr : p.recovery? a = some r) (hstays : r.finish = r.start)
    (hlast : r.start ≠ p.session.input.lastPosition) :
    (p.perform a).value.2.session.Spent r.start r.state := by
  obtain ⟨s, hinput, -, hsession, hstart, hstate, hfinish⟩ := exists_session_of_recovery? hr
  rw [← hinput, hstart] at hlast
  rw [hfinish, hstart] at hstays
  rw [hsession, hstart, hstate]
  exact Session.spent_of_stays hstays hlast

theorem mem_recoveries_cons : r ∈ p.recoveries (a :: actions) ↔
    p.recovery? a = some r ∨ r ∈ (p.perform a).value.2.recoveries actions := by
  rw [recoveries, List.mem_append, Option.mem_toList]

/-- What a run reads lies ahead of where it begins. -/
theorem le_start_of_mem (hreset : .reset ∉ actions) (hr : r ∈ p.recoveries actions) :
    p.session.input.position ≤ r.start := by
  induction actions generalizing p with
  | nil => exact absurd hr List.not_mem_nil
  | cons a actions ih =>
    rw [List.mem_cons, not_or] at hreset
    rcases mem_recoveries_cons.1 hr with hr | hr
    · exact Nat.le_of_eq (start_of_recovery? hr).symm
    · exact Nat.le_trans (onward_perform p (Ne.symm hreset.1)).position_le (ih hreset.2 hr)

/-- In a state that is spent at a position no resynchronization of a run leaves the input there. -/
theorem lt_finish_of_mem (hreset : .reset ∉ actions) (hr : r ∈ p.recoveries actions)
    (hspent : p.session.Spent r.start r.state) (hlast : r.start ≠ p.session.input.lastPosition) :
    r.start < r.finish := by
  induction actions generalizing p with
  | nil => exact absurd hr List.not_mem_nil
  | cons a actions ih =>
    rw [List.mem_cons, not_or] at hreset
    rcases mem_recoveries_cons.1 hr with hr | hr
    · exact lt_finish_of_spent hr hspent hlast
    · have hnext := spent_perform (Ne.symm hreset.1) hlast hspent
      rw [← (onward_perform p (Ne.symm hreset.1)).lastPosition_eq] at hlast
      exact ih hreset.2 hr hnext hlast

end Parser

/-- How a later resynchronization lies to an earlier one, on input with a last position: it starts
where the earlier one has ended or ahead of that, and if the earlier one has left the input where it
was, then another in the same state does not do so. -/
structure Recovery.Before (last : Nat) (r r' : Recovery) : Prop where
  finish_le : r.finish ≤ r'.start
  lt_finish : r.start ≠ last → r.finish = r.start → r'.start = r.start → r'.state = r.state →
    r'.start < r'.finish

namespace Parser

variable {p : Parser TokenStream} {actions : List Action} {r : Recovery} {i : Nat}

theorem start_le_finish (hreset : .reset ∉ actions) (hr : r ∈ p.recoveries actions) :
    r.start ≤ r.finish := by
  induction actions generalizing p with
  | nil => exact absurd hr List.not_mem_nil
  | cons a actions ih =>
    rw [List.mem_cons, not_or] at hreset
    rcases mem_recoveries_cons.1 hr with hr | hr
    · rw [start_of_recovery? hr, finish_of_recovery? hr]
      exact (onward_perform p (Ne.symm hreset.1)).position_le
    · exact ih hreset.2 hr

/-- The resynchronizations of a run, each with all later ones. -/
theorem pairwise_recoveries (hreset : .reset ∉ actions) :
    (p.recoveries actions).Pairwise (Recovery.Before p.session.input.lastPosition) := by
  induction actions generalizing p with
  | nil => exact List.Pairwise.nil
  | cons a actions ih =>
    rw [List.mem_cons, not_or] at hreset
    have honward := onward_perform p (Ne.symm hreset.1)
    have hrest := ih (p := (p.perform a).value.2) hreset.2
    rw [honward.lastPosition_eq] at hrest
    rw [recoveries]
    cases hr : p.recovery? a with
    | none => exact hrest
    | some r =>
      refine List.Pairwise.cons ?_ hrest
      intro r' hr'
      refine ⟨?_, ?_⟩
      · rw [finish_of_recovery? hr]
        exact le_start_of_mem hreset.2 hr'
      · -- the first of the two has spent its state
        intro hlast hstays hstart hstate
        have hspent := spent_of_recovery? hr hstays hlast
        rw [← hstart, ← hstate] at hspent
        apply lt_finish_of_mem hreset.2 hr' hspent
        rw [hstart, honward.lastPosition_eq]
        exact hlast

/-! ## Counting -/

/-- Of elements that do not go together there is at most one. -/
theorem countP_le_one_of_pairwise {α : Type} {P : α → Prop} [DecidablePred P] {l : List α}
    (h : l.Pairwise fun x y => P x → ¬ P y) : l.countP P ≤ 1 := by
  induction h with
  | nil => exact Nat.zero_le 1
  | @cons x l hx _ ih =>
    rw [List.countP_cons]
    by_cases hP : P x
    · have hnone : l.countP P = 0 := by
        rw [List.countP_eq_zero]
        intro y hy
        simpa using hx y hy hP
      simp [hnone, hP]
    · simpa [hP] using ih

section Counting

variable (p : Parser TokenStream) (actions : List Action) (hreset : .reset ∉ actions) (i : Nat)
  (hlast : i ≠ p.session.input.lastPosition)

include hreset hlast

/-- In one state at most one resynchronization leaves the input at a position. -/
theorem countP_stays_le_one (state : StateRef) :
    (p.recoveries actions).countP (fun r => r.start = i ∧ r.state = state ∧ r.finish = i) ≤ 1 := by
  refine countP_le_one_of_pairwise ((pairwise_recoveries hreset).imp ?_)
  rintro r r' hbefore ⟨rfl, rfl, hstays⟩ ⟨hstart, hstate, hfinish⟩
  have hlt := hbefore.lt_finish hlast hstays hstart hstate
  exact absurd (hfinish.trans hstart.symm) (Nat.ne_of_gt hlt)

omit hlast in
/-- At most one resynchronization takes the input away from a position. -/
theorem countP_moves_le_one :
    (p.recoveries actions).countP (fun r => r.start = i ∧ r.finish ≠ i) ≤ 1 := by
  refine countP_le_one_of_pairwise ((pairwise_recoveries hreset).imp_of_mem ?_)
  rintro r r' hr - hbefore ⟨rfl, hmoves⟩ ⟨hstart, -⟩
  have hle := start_le_finish hreset hr
  have hnext := hbefore.finish_le
  omega

/-- The resynchronizations that leave the input at a position are in different states. -/
theorem nodup_states_stays :
    (((p.recoveries actions).filter fun r => r.start = i ∧ r.finish = i).map
      Recovery.state).Nodup := by
  rw [List.Nodup, List.pairwise_map, List.pairwise_filter]
  apply (pairwise_recoveries hreset).imp
  intro r r' hbefore hr hr' hstate
  obtain ⟨rfl, hstays⟩ := of_decide_eq_true hr
  obtain ⟨hstart, hfinish⟩ := of_decide_eq_true hr'
  have hlt := hbefore.lt_finish hlast hstays hstart hstate.symm
  exact absurd (hfinish.trans hstart.symm) (Nat.ne_of_gt hlt)

/-- In a run without a reset, in each state at most one resynchronization that starts at a position
before the last leaves the input there, and no more start there than there are states in which they
do, and one more. -/
theorem countP_recoveries_le :
    (∀ state, (p.recoveries actions).countP
      (fun r => r.start = i ∧ r.state = state ∧ r.finish = i) ≤ 1) ∧
    (p.recoveries actions).countP (fun r => r.start = i) ≤
      (((p.recoveries actions).filter fun r => r.start = i).map Recovery.state).toFinset.card + 1 := by
  refine ⟨countP_stays_le_one p actions hreset i hlast, ?_⟩
  have hmoves := countP_moves_le_one p actions hreset i
  have hnodup := nodup_states_stays p actions hreset i hlast
  generalize p.recoveries actions = rs at hmoves hnodup ⊢
  -- those that leave the input there, in different states, and the one that takes it away
  have hsplit : rs.countP (fun r => r.start = i) =
      rs.countP (fun r => r.start = i ∧ r.finish = i) +
        rs.countP (fun r => r.start = i ∧ r.finish ≠ i) := by
    rw [List.countP_eq_countP_filter_add rs (fun r => r.start = i) (fun r => r.finish = i)]
    simp [List.countP_filter]
  have hstates : rs.countP (fun r => r.start = i ∧ r.finish = i) ≤
      ((rs.filter fun r => r.start = i).map Recovery.state).toFinset.card := by
    rw [List.countP_eq_length_filter, ← List.length_map Recovery.state,
      ← List.toFinset_card_of_nodup hnodup]
    apply Finset.card_le_card
    intro state hstate
    simp only [List.mem_toFinset, List.mem_map, List.mem_filter, decide_eq_true_eq] at hstate ⊢
    obtain ⟨r, ⟨hr, hstart, -⟩, rfl⟩ := hstate
    exact ⟨r, ⟨hr, hstart⟩, rfl⟩
  omega

end Counting

/-- A parser of the rules `list : item ';'` and `item : NAME`, in an item; the codes are 1 for a name
and 3 for `';'`. The input is `';'` and a name. -/
def itemParser : Parser TokenStream :=
  { network := ((Network.empty 3).buildAll
      [.rule, .rule, .state 0 .basic, .call (reference 0) 1 (reference 4),
        .one (reference 4) (reference 1) 3, .one (reference 2) (reference 3) 1]).value.2
    stack := (∅ : CallStack).applyAll [.push 0 none, .push 1 (reference 0)]
    state := reference 2
    session := { input := .ofCodes [3, 1] } }

/-- The item fails again and again. -/
def failures : List Action := List.replicate 3 (.fail { cause := .noViableAlternative, token := none })

/-- Recovery stops at the `';'` once and passes over it the second time. -/
theorem countP_recoveries_le_item :
    (itemParser.recoveries failures).map Recovery.finish = [0, 2, 2] ∧
      .reset ∉ failures ∧ 0 ≠ itemParser.session.input.lastPosition ∧
      (itemParser.recoveries failures).countP (fun r => r.start = 0) ≤
        (((itemParser.recoveries failures).filter fun r => r.start = 0).map
          Recovery.state).toFinset.card + 1 := by
  have hfinish : (itemParser.recoveries failures).map Recovery.finish = [0, 2, 2] := by cbv
  have hreset : .reset ∉ failures := by
    intro h
    cases List.eq_of_mem_replicate h
  have hlast : 0 ≠ itemParser.session.input.lastPosition := by decide
  exact ⟨hfinish, hreset, hlast, (countP_recoveries_le itemParser failures hreset 0 hlast).2⟩

end Parser

end SyntaxRecovery
