import Mathlib
import SyntaxRecovery.Proofs.Lookahead.Frames

/-!
# The order of edges

A search goes along the edges of a state in their order, and it passes over a configuration that it has
seen without asking which rules were barred there before. In a linked and closed network these can be
read off the place, so what a search explores is told by the edges that there are and not by their
order (`Network.Reordered.explores`). Networks that differ in nothing else show the same codes, if the
states in which callers go on are the same (`Network.lookahead_eq_of_reordered`). These have to be
asked for, as only the first edge of a state says where its caller goes on.
-/

set_option autoImplicit false

namespace SyntaxRecovery

open Relation

/-- States that differ in the order of their edges at most. -/
structure State.Reordered (s s' : State) : Prop where
  same : { s' with edges := s.edges } = s
  perm : s.edges.Perm s'.edges

instance (s s' : State) : Decidable (s.Reordered s') :=
  decidable_of_iff ({ s' with edges := s.edges } = s ∧ s.edges.Perm s'.edges)
    ⟨fun h => ⟨h.1, h.2⟩, fun h => ⟨h.same, h.perm⟩⟩

namespace State.Reordered

variable {s s' : State}

theorem symm (h : s.Reordered s') : s'.Reordered s := by
  refine ⟨?_, h.perm.symm⟩
  rw [← h.same]

theorem rule_eq (h : s.Reordered s') : s'.rule = s.rule := by
  rw [← h.same]

theorem isStop_eq (h : s.Reordered s') : s'.isStop = s.isStop := by
  rw [← h.same]
  rfl

end State.Reordered

namespace Network

/-- Networks that differ in the order of the edges of their states at most. -/
structure Reordered (net net' : Network) : Prop where
  states : List.Forall₂ State.Reordered net.states.toList net'.states.toList
  starts_eq : net'.starts = net.starts
  stops_eq : net'.stops = net.stops
  greatest_eq : net'.greatest = net.greatest

namespace Reordered

variable {net net' : Network} {frames : CallStack} {x : StateRef} {s : State} {e : Edge}
  {p q : Place} {k : TokenCode}

theorem symm (h : net.Reordered net') : net'.Reordered net := by
  refine ⟨?_, h.starts_eq.symm, h.stops_eq.symm, h.greatest_eq.symm⟩
  apply List.Forall₂.flip
  exact h.states.imp fun _ _ hs => hs.symm

/-! ## What does not depend on the order -/

/-- Under each reference there is the same state but for the order of its edges. -/
theorem exists_state? (h : net.Reordered net') (hs : net.state? x = some s) :
    ∃ s', net'.state? x = some s' ∧ s.Reordered s' := by
  cases x with
  | none => cases hs
  | some p =>
    have hget : net.states.toList[p.val]? = some s := by
      rw [Array.getElem?_toList]
      exact hs
    obtain ⟨hlt, hget⟩ := List.getElem?_eq_some_iff.1 hget
    have hlt' : p.val < net'.states.toList.length := h.states.length_eq ▸ hlt
    refine ⟨net'.states.toList[p.val], ?_, ?_⟩
    · change net'.states[p.val]? = _
      rw [← Array.getElem?_toList]
      exact List.getElem?_eq_getElem hlt'
    · have hboth := h.states.get hlt hlt'
      rwa [List.get_eq_getElem, List.get_eq_getElem, hget] at hboth

theorem start?_eq (h : net.Reordered net') : net'.start? = net.start? := by
  funext rule
  rw [start?, start?, h.starts_eq]

theorem stop?_eq (h : net.Reordered net') : net'.stop? = net.stop? := by
  funext rule
  rw [stop?, stop?, h.stops_eq]

theorem ruleAt_eq (h : net.Reordered net') : net'.ruleAt = net.ruleAt := by
  funext x
  cases hs : net.state? x with
  | some s =>
    obtain ⟨s', hs', hsame⟩ := h.exists_state? hs
    rw [ruleAt_of_state? hs', ruleAt_of_state? hs, hsame.rule_eq]
  | none =>
    cases hs' : net'.state? x with
    | none => rw [ruleAt, ruleAt, hs, hs']
    | some s' =>
      obtain ⟨s, hs'', -⟩ := h.symm.exists_state? hs'
      rw [hs] at hs''
      cases hs''

theorem hasEdge (h : net.Reordered net') (he : net.HasEdge x e) : net'.HasEdge x e := by
  obtain ⟨s, hs, hgo, hmem⟩ := he
  obtain ⟨s', hs', hsame⟩ := h.exists_state? hs
  exact ⟨s', hs', hsame.isStop_eq.trans hgo, hsame.perm.mem_iff.1 hmem⟩

theorem stopsAt (h : net.Reordered net') (hx : net.StopsAt x) : net'.StopsAt x := by
  obtain ⟨s, hs, hstop⟩ := hx
  obtain ⟨s', hs', hsame⟩ := h.exists_state? hs
  exact ⟨s', hs', hsame.isStop_eq.trans hstop⟩

theorem openRules_eq (h : net.Reordered net') (x : StateRef) (σ : List StateRef) :
    net'.openRules x σ = net.openRules x σ := by
  induction σ generalizing x with
  | nil => rfl
  | cons follow σ ih => rw [openRules, openRules, h.ruleAt_eq, ih]

theorem closed (h : net.Reordered net') (hclosed : net.Closed) : net'.Closed := by
  intro x s' hs' e he
  obtain ⟨s, hs, hsame⟩ := h.symm.exists_state? hs'
  rw [h.ruleAt_eq, ← hsame.rule_eq]
  exact hclosed x s hs e (hsame.perm.mem_iff.1 he)

theorem linked (h : net.Reordered net') (hlinked : net.Linked) : net'.Linked := by
  refine ⟨?_, ?_, ?_, ?_⟩
  · rw [h.stops_eq, h.starts_eq]
    exact hlinked.size_stops
  · intro x s' hs' e he rule follow hcall
    obtain ⟨s, hs, hsame⟩ := h.symm.exists_state? hs'
    rw [h.start?_eq]
    exact hlinked.start_of_call x s hs e (hsame.perm.mem_iff.1 he) rule follow hcall
  · intro rule x hx
    rw [h.start?_eq] at hx
    rw [h.ruleAt_eq]
    exact hlinked.rule_of_start rule x hx
  · intro rule x hx
    rw [h.stop?_eq] at hx
    obtain ⟨s, hs, hstop, hrule⟩ := hlinked.stop_of_rule rule x hx
    obtain ⟨s', hs', hsame⟩ := h.exists_state? hs
    exact ⟨s', hs', hsame.isStop_eq.trans hstop, hsame.rule_eq.trans hrule⟩

/-! ## What is explored -/

section Returns

variable (h : net.Reordered net') (hreturn : ∀ x, net'.returnState? x = net.returnState? x)

include h hreturn

theorem advance (hstep : net.Advance frames p q) : net'.Advance frames p q := by
  cases hstep with
  | free he hfree => exact .free (h.hasEdge he) hfree
  | call he hcall hopen =>
    apply Advance.call (h.hasEdge he) hcall
    rwa [h.openRules_eq]
  | ret hx => exact .ret (h.stopsAt hx)
  | leave hx hf hin hfollow => exact .leave (h.stopsAt hx) hf hin ((hreturn _).trans hfollow)

/-- Whatever the order of edges, the search comes to the same places. -/
theorem explores (hpath : net.Explores frames p q) : net'.Explores frames p q :=
  ReflTransGen.mono (fun _ _ => h.advance hreturn) p q hpath

theorem offers (hk : net.Offers frames p k) : net'.Offers frames p k := by
  cases hk with
  | label he hcodes hmem =>
    rw [← h.greatest_eq] at hcodes
    exact .label (h.hasEdge he) hcodes hmem
  | noFrame hx hf => exact .noFrame (h.stopsAt hx) hf
  | outermost hx hf hout => exact .outermost (h.stopsAt hx) hf hout
  | noReturn hx hf hin hnone =>
    exact .noReturn (h.stopsAt hx) hf hin ((hreturn _).trans hnone)

theorem exists_explores (hfound : ∃ q, net.Explores frames p q ∧ net.Offers frames q k) :
    ∃ q, net'.Explores frames p q ∧ net'.Offers frames q k := by
  obtain ⟨q, hq, hk⟩ := hfound
  exact ⟨q, h.explores hreturn hq, h.offers hreturn hk⟩

end Returns

end Reordered

variable {net net' : Network}

/-- A linked and closed network shows the same codes in whatever order the edges of its states stand,
as long as callers go on where they did: within a rule and in every frame on every stack. Rules that call
themselves or can end without a token make no difference. -/
theorem lookahead_eq_of_reordered (h : net.Reordered net')
    (hreturn : ∀ x, net'.returnState? x = net.returnState? x) (hlinked : net.Linked)
    (hclosed : net.Closed) (state : StateRef) :
    ((net.localLookahead state).notes = [] → (net'.localLookahead state).notes = [] →
      (net'.localLookahead state).value = (net.localLookahead state).value) ∧
    ∀ (frames : CallStack) (frame : FrameRef), (net.lookahead frames state frame).notes = [] →
      (net'.lookahead frames state frame).notes = [] →
      (net'.lookahead frames state frame).value = (net.lookahead frames state frame).value := by
  have hframes : ∀ (frames : CallStack) (frame : FrameRef),
      (net.lookahead frames state frame).notes = [] →
      (net'.lookahead frames state frame).notes = [] →
      (net'.lookahead frames state frame).value = (net.lookahead frames state frame).value := by
    intro frames frame hdone hdone'
    have hback := h.symm
    apply TokenSet.eq_of_mem_iff
    intro k
    rw [mem_lookahead_iff_explores hlinked hclosed hdone,
      mem_lookahead_iff_explores (h.linked hlinked) (h.closed hclosed) hdone']
    constructor
    · exact hback.exists_explores fun x => (hreturn x).symm
    · exact h.exists_explores hreturn
  exact ⟨hframes ∅ none, hframes⟩

/-! ## Callers -/

/-- Where the caller goes on after a rule called on the first edge of a state. -/
def firstFollow? (s : State) : Option StateRef :=
  match s.edges.head? with
  | some { move := .call _ follow, .. } => some follow
  | _ => none

theorem returnState?_eq_bind (net : Network) (x : StateRef) :
    net.returnState? x = (net.state? x).bind firstFollow? := by
  rw [returnState?]
  cases net.state? x with
  | none => rfl
  | some s => rfl

/-- Callers go on where they did if they do so state by state, which can be computed. -/
theorem returnState?_eq_of_map_eq
    (h : net'.states.toList.map firstFollow? = net.states.toList.map firstFollow?) (x : StateRef) :
    net'.returnState? x = net.returnState? x := by
  rw [returnState?_eq_bind, returnState?_eq_bind]
  cases x with
  | none => rfl
  | some p =>
    have hget := congrArg (fun l => l[p.val]?.bind id) h
    simp only [List.getElem?_map, Array.getElem?_toList, Option.bind_map, Function.id_comp] at hget
    exact hget

/-! ## A list with its alternatives in two orders -/

/-- Instructions for the rules `list : list name | ` and `line : list ';'`; the codes are 1 for a name
and 2 for `';'`. The alternatives of a list begin in the states 4 and 6, in an order to be chosen. -/
def choiceInstructions (first second : StateRef) : List Instruction :=
  [.rule, .rule, .state 0 .basic, .state 0 .basic, .state 0 .basic, .state 1 .basic,
    .epsilon (reference 0) first, .epsilon (reference 0) second,
    .call (reference 4) 0 (reference 5), .one (reference 5) (reference 1) 1,
    .epsilon (reference 6) (reference 1), .call (reference 2) 0 (reference 7),
    .one (reference 7) (reference 3) 2]

/-- The network of lists that try the empty alternative last. -/
def emptyLast : Network :=
  ((empty 2).buildAll (choiceInstructions (reference 4) (reference 6))).value.2

/-- The network of lists that try the empty alternative first. -/
def emptyFirst : Network :=
  ((empty 2).buildAll (choiceInstructions (reference 6) (reference 4))).value.2

/-- Whether a list tries the empty alternative last or first, at its start in a line a name can come, or
the `';'` of the line. -/
theorem lookahead_in_list_of_either_order :
    emptyLast.Reordered emptyFirst ∧ emptyLast ≠ emptyFirst ∧
      (∀ x, emptyFirst.returnState? x = emptyLast.returnState? x) ∧ emptyLast.Linked ∧
      emptyLast.Closed ∧
      (emptyLast.lookahead listFrames (reference 0) (reference 1)).notes = [] ∧
      (emptyFirst.lookahead listFrames (reference 0) (reference 1)).notes = [] ∧
      (emptyFirst.lookahead listFrames (reference 0) (reference 1)).value =
        (emptyLast.lookahead listFrames (reference 0) (reference 1)).value ∧
      (emptyLast.lookahead listFrames (reference 0) (reference 1)).value = .range 1 2 := by
  have hreordered : emptyLast.Reordered emptyFirst := ⟨by decide, by decide, by decide, by decide⟩
  have hreturn : ∀ x, emptyFirst.returnState? x = emptyLast.returnState? x :=
    returnState?_eq_of_map_eq (by decide)
  have hlinked : emptyLast.Linked :=
    linked_buildAll 2 (choiceInstructions (reference 4) (reference 6)) (by decide)
  have hclosed : emptyLast.Closed := closed_of_forall_mem (by decide)
  have hdone : (emptyLast.lookahead listFrames (reference 0) (reference 1)).notes = [] := by cbv
  have hdone' : (emptyFirst.lookahead listFrames (reference 0) (reference 1)).notes = [] := by cbv
  have hvalue : (emptyLast.lookahead listFrames (reference 0) (reference 1)).value = .range 1 2 := by
    cbv
  obtain ⟨-, heither⟩ := lookahead_eq_of_reordered hreordered hreturn hlinked hclosed (reference 0)
  exact ⟨hreordered, by decide, hreturn, hlinked, hclosed, hdone, hdone',
    heither listFrames (reference 1) hdone hdone', hvalue⟩

end Network

end SyntaxRecovery
