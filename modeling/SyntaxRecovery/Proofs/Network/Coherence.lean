import Mathlib
import SyntaxRecovery.Proofs.Network.Links

/-!
# Networks that are built are coherent

The states of a network that is built stand under the references given out for them, each rule starts
and stops in states of its own of the kinds for that, a call leads to the start of a rule that is there,
and a condition belongs to the rule of the state that it leaves (`Network.Coherent`). The edges of a
state are those that have been taken from instructions, in their order (`Network.edgesAt_buildAll`),
and an instruction from which no edge is taken does nothing (`Network.coherent_of_instructions`).
-/

set_option autoImplicit false

namespace SyntaxRecovery

namespace Network

/-- The parts of a network fit together. -/
structure Coherent (net : Network) : Prop where
  /-- Calls and the tables of rules do. -/
  linked : net.Linked
  /-- A state stands under its own reference. -/
  ref_eq : ∀ (r : StateRef) (s : State), net.state? r = some s → s.ref = r
  /-- A rule starts in a state for that. -/
  kind_of_start : ∀ (rule : Nat) (r : StateRef), net.start? rule = some r →
    ∃ s, net.state? r = some s ∧ s.kind = .ruleStart
  /-- A condition belongs to the rule of the state that it leaves. -/
  rule_of_predicate : ∀ (r : StateRef) (s : State), net.state? r = some s → ∀ e ∈ s.edges,
    ∀ (rule index : Nat), e.move = .predicate rule index → rule = s.rule

variable {net : Network} {r : StateRef} {s : State} {rule : Nat} {kind : StateKind}
  {source : StateRef} {edge : Edge}

/-! ## What the changes keep -/

theorem coherent_empty (greatest : TokenCode) : (empty greatest).Coherent := by
  have hnone : ∀ (r : StateRef) (s : State), (empty greatest).state? r ≠ some s := by
    intro r s hs
    cases r with
    | none => cases hs
    | some p => simp [empty, state?] at hs
  refine ⟨linked_empty greatest, ?_, ?_, ?_⟩
  · intro r s hs
    exact absurd hs (hnone r s)
  · intro rule r hr
    simp [empty, start?] at hr
  · intro r s hs
    exact absurd hs (hnone r s)

/-- A state is added under its own reference if there is one left for it. -/
theorem Coherent.addState (h : net.Coherent) (rule : Nat) (kind : StateKind)
    (hsize : net.states.size < slotCount) : (net.addState rule kind).2.Coherent := by
  refine ⟨h.linked.addState rule kind, ?_, ?_, ?_⟩
  · intro r s hs
    rw [state?_addState] at hs
    split at hs
    · next hr =>
      obtain ⟨p, rfl, hp⟩ := Option.map_eq_some_iff.1 hr
      cases hs
      rw [referTo_of_lt hsize]
      exact congrArg some (Fin.ext hp.symm)
    · exact h.ref_eq r s hs
  · intro rule' r hr
    obtain ⟨s, hs, hkind⟩ := h.kind_of_start rule' r hr
    exact ⟨s, state?_addState_of_some hs, hkind⟩
  · intro r s hs e he rule' index hmove
    rcases state?_of_addState hs with hs | hnone
    · exact h.rule_of_predicate r s hs e he rule' index hmove
    · rw [hnone] at he
      exact absurd he List.not_mem_nil

theorem Coherent.addRule (h : net.Coherent) (hsize : net.states.size + 2 ≤ slotCount) :
    net.addRule.2.Coherent := by
  have hroom : (net.addState net.ruleCount .ruleStart).2.states.size < slotCount := by
    rw [size_addState]
    omega
  have hboth := (h.addState net.ruleCount .ruleStart (by omega)).addState net.ruleCount .ruleStop hroom
  refine ⟨h.linked.addRule hsize, hboth.ref_eq, ?_, hboth.rule_of_predicate⟩
  intro rule r hr
  rcases getElem?_push_eq_some hr with hr | ⟨-, rfl⟩
  · exact hboth.kind_of_start rule r hr
  · -- the new rule starts in the first of the two states
    have hstart := state?_addState_self net net.ruleCount .ruleStart (by omega)
    exact ⟨_, state?_addState_of_some hstart, rfl⟩

/-- An edge that is taken from an instruction keeps a network coherent. -/
theorem Coherent.addEdge (h : net.Coherent) {i : Instruction}
    (htaken : i.accepted? net = some (source, edge)) : (net.addEdge source edge).value.Coherent := by
  refine ⟨h.linked.addEdge source fun rule follow => start?_of_accepted? htaken, ?_, ?_, ?_⟩
  · intro r s hs
    obtain ⟨t, ht, href, -, -⟩ := state?_of_addEdge hs
    rw [href]
    exact h.ref_eq r t ht
  · intro rule r hr
    rw [start?_addEdge] at hr
    obtain ⟨s, hs, hstart⟩ := h.kind_of_start rule r hr
    obtain ⟨t, ht, hkind, -⟩ := state?_addEdge_of_some hs
    exact ⟨t, ht, hkind.trans hstart⟩
  · intro r s hs e he rule index hmove
    obtain ⟨t, ht, -, hrule, hedges⟩ := state?_of_addEdge hs
    rw [hrule]
    rcases hedges e he with he | ⟨rfl, rfl⟩
    · exact h.rule_of_predicate r t ht e he rule index hmove
    · exact rule_of_accepted? htaken ht hmove

/-- An instruction keeps a network coherent if references tell all states apart. -/
theorem Coherent.build (h : net.Coherent) (i : Instruction)
    (hsize : (net.build i).value.2.states.size ≤ slotCount) :
    (net.build i).value.2.Coherent := by
  apply keeps_build i (fun _ => h)
  · rintro rfl
    apply h.addRule
    rw [← size_addRule]
    exact hsize
  · rintro rule kind rfl
    have hone : (net.addState rule kind).2.states.size ≤ slotCount := hsize
    rw [size_addState] at hone
    exact h.addState rule kind hone
  · intro source edge htaken
    exact h.addEdge htaken

theorem Coherent.buildAll (h : net.Coherent) (l : List Instruction)
    (hsize : (net.buildAll l).value.2.states.size ≤ slotCount) :
    (net.buildAll l).value.2.Coherent := by
  induction l generalizing net with
  | nil => exact h
  | cons i rest ih =>
    have hle := size_le_size_buildAll (net.build i).value.2 rest
    exact ih (h.build i (Nat.le_trans hle hsize)) hsize

/-! ## The edges of a state -/

/-- The edges that leave the state under a reference, none if there is no state. -/
def edgesAt (net : Network) (r : StateRef) : List Edge := ((net.state? r).map State.edges).getD []

/-- The edges taken from instructions carried out in order, each with the state that it leaves. -/
def taken (net : Network) : List Instruction → List (StateRef × Edge)
  | [] => []
  | i :: rest => (i.accepted? net).toList ++ taken (net.build i).value.2 rest

theorem edgesAt_of_state? (h : net.state? r = some s) : net.edgesAt r = s.edges := by
  rw [edgesAt, h]
  rfl

theorem edgesAt_empty (greatest : TokenCode) : (empty greatest).edgesAt r = [] := by
  cases r with
  | none => rfl
  | some p => simp [edgesAt, empty, state?]

/-- A new state has no edges. -/
theorem edgesAt_addState : (net.addState rule kind).2.edgesAt r = net.edgesAt r := by
  rw [edgesAt, edgesAt, state?_addState]
  split
  · next hr =>
    obtain ⟨p, rfl, hp⟩ := Option.map_eq_some_iff.1 hr
    have hnone : net.state? (some p) = none := Array.getElem?_eq_none (Nat.le_of_eq hp.symm)
    rw [hnone]
    rfl
  · rfl

theorem edgesAt_addEdge (hs : net.state? source = some s) :
    (net.addEdge source edge).value.edgesAt r =
      net.edgesAt r ++ if source = r then [edge] else [] := by
  rw [edgesAt, edgesAt, state?_addEdge]
  split
  · next hr =>
    subst hr
    rw [hs, Option.map_some, if_pos rfl]
    rfl
  · next hr =>
    rw [if_neg (Ne.symm hr), List.append_nil, Option.map_id']

/-- An instruction adds to the edges of a state that which is taken from it there. -/
theorem edgesAt_build (i : Instruction) :
    (net.build i).value.2.edgesAt r =
      net.edgesAt r ++ ((i.accepted? net).toList.filter (·.1 = r)).map Prod.snd := by
  apply keeps_build (P := fun net' => net'.edgesAt r = net.edgesAt r ++ _) i
  · intro hnone
    rw [hnone]
    exact (List.append_nil _).symm
  · rintro rfl
    change ((net.addState _ _).2.addState _ _).2.edgesAt r = _
    rw [edgesAt_addState, edgesAt_addState]
    exact (List.append_nil _).symm
  · rintro rule kind rfl
    rw [edgesAt_addState]
    exact (List.append_nil _).symm
  · intro source edge htaken
    obtain ⟨-, s, hs, -⟩ := Instruction.accepted?_eq_some_iff.1 htaken
    rw [edgesAt_addEdge hs, htaken, Option.toList_some, List.filter_singleton]
    split
    · next hr => simp [hr]
    · next hr => simp [hr]

/-- The edges of a state after some instructions are those that it had, and then those taken from the
instructions, in their order. -/
theorem edgesAt_buildAll (l : List Instruction) :
    (net.buildAll l).value.2.edgesAt r =
      net.edgesAt r ++ ((net.taken l).filter (·.1 = r)).map Prod.snd := by
  induction l generalizing net with
  | nil => exact (List.append_nil _).symm
  | cons i rest ih =>
    have hrest : (net.buildAll (i :: rest)).value.2 = ((net.build i).value.2.buildAll rest).value.2 :=
      rfl
    rw [hrest, ih, edgesAt_build, taken, List.filter_append, List.map_append, List.append_assoc]

/-! ## What coherence says -/

/-- The state at a place below the bound has the reference to that place. -/
theorem Coherent.ref_of_getElem? (h : net.Coherent) {n : Nat} (hn : n < slotCount)
    (hs : net.states[n]? = some s) : s.ref = some ⟨n, hn⟩ :=
  h.ref_eq (some ⟨n, hn⟩) s hs

/-- A rule starts in a state for that, which belongs to it. -/
theorem Coherent.exists_start (h : net.Coherent) (hr : net.start? rule = some r) :
    ∃ s, net.state? r = some s ∧ s.kind = .ruleStart ∧ s.rule = rule := by
  obtain ⟨s, hs, hkind⟩ := h.kind_of_start rule r hr
  have hrule := h.linked.rule_of_start rule r hr
  rw [ruleAt_of_state? hs] at hrule
  exact ⟨s, hs, hkind, Option.some.inj hrule⟩

/-- A rule stops in a state for that, which belongs to it. -/
theorem Coherent.exists_stop (h : net.Coherent) (hr : net.stop? rule = some r) :
    ∃ s, net.state? r = some s ∧ s.kind = .ruleStop ∧ s.rule = rule := by
  obtain ⟨s, hs, hstop, hrule⟩ := h.linked.stop_of_rule rule r hr
  exact ⟨s, hs, of_decide_eq_true hstop, hrule⟩

theorem Coherent.start_ne_stop (h : net.Coherent) {a b : StateRef} {rule' : Nat}
    (ha : net.start? rule = some a) (hb : net.stop? rule' = some b) : a ≠ b := by
  rintro rfl
  obtain ⟨s, hs, hstart, -⟩ := h.exists_start ha
  obtain ⟨t, ht, hstop, -⟩ := h.exists_stop hb
  cases hs.symm.trans ht
  rw [hstart] at hstop
  cases hstop

/-- A rule that starts or stops in a state is the rule of that state. -/
theorem Coherent.ruleAt_of_start_or_stop (h : net.Coherent)
    (hr : net.start? rule = some r ∨ net.stop? rule = some r) : net.ruleAt r = some rule := by
  rcases hr with hr | hr
  · exact h.linked.rule_of_start rule r hr
  · obtain ⟨s, hs, -, hrule⟩ := h.exists_stop hr
    rw [ruleAt_of_state? hs, hrule]

theorem Coherent.exists_start_stop (h : net.Coherent) (hrule : rule < net.ruleCount) :
    ∃ a b, net.start? rule = some a ∧ net.stop? rule = some b := by
  have hstop : rule < net.stops.size := by
    rw [h.linked.size_stops]
    exact hrule
  exact ⟨_, _, Array.getElem?_eq_getElem hrule, Array.getElem?_eq_getElem hstop⟩

/-- Of a network that is built with no more states than there are references, each state has the
reference to its place. Each rule has a start and a stop, two states of these kinds that belong to it
and to no other rule. A call is one of a rule that is there and leads to its start, and a condition
belongs to the rule of the state that it leaves. The edges of a state are those taken from the
instructions at that state, in their order. No edge is taken from an instruction just if the state that
it is to leave is not there or it is a call of a rule that is not there, and then the network is left as
it is. -/
theorem coherent_of_instructions (greatest : TokenCode) (l : List Instruction) (net : Network)
    (hnet : ((empty greatest).buildAll l).value.2 = net) (hsize : net.states.size ≤ slotCount) :
    (∀ (n : Nat) (s : State), net.states[n]? = some s → s.ref.map Fin.val = some n) ∧
    (∀ rule < net.ruleCount, ∃ a b s t, net.start? rule = some a ∧ net.stop? rule = some b ∧ a ≠ b ∧
      net.state? a = some s ∧ s.kind = .ruleStart ∧ s.rule = rule ∧
      net.state? b = some t ∧ t.kind = .ruleStop ∧ t.rule = rule) ∧
    (∀ (rule rule' : Nat) (r : StateRef), (net.start? rule = some r ∨ net.stop? rule = some r) →
      (net.start? rule' = some r ∨ net.stop? rule' = some r) → rule = rule') ∧
    (∀ (r : StateRef) (s : State), net.state? r = some s → ∀ e ∈ s.edges,
      (∀ (rule : Nat) (follow : StateRef), e.move = .call rule follow →
        rule < net.ruleCount ∧ net.start? rule = some e.target) ∧
      ∀ rule index : Nat, e.move = .predicate rule index → rule = s.rule) ∧
    (∀ (r : StateRef) (s : State), net.state? r = some s →
      s.edges = (((empty greatest).taken l).filter (·.1 = r)).map Prod.snd) ∧
    ∀ (i : Instruction) (source : StateRef), i.source? = some source →
      (i.accepted? net = none ↔ net.state? source = none ∨
        ∃ rule follow, i = .call source rule follow ∧ net.start? rule = none) ∧
      (i.accepted? net = none → (net.build i).value.2 = net) := by
  subst hnet
  have h := (coherent_empty greatest).buildAll l hsize
  refine ⟨?_, ?_, ?_, ?_, ?_, ?_⟩
  · intro n s hs
    have hn := (Array.getElem?_eq_some_iff.1 hs).1
    rw [h.ref_of_getElem? (Nat.lt_of_lt_of_le hn hsize) hs]
    rfl
  · intro rule hrule
    obtain ⟨a, b, ha, hb⟩ := h.exists_start_stop hrule
    obtain ⟨s, hs, hstart⟩ := h.exists_start ha
    obtain ⟨t, ht, hstop⟩ := h.exists_stop hb
    exact ⟨a, b, s, t, ha, hb, h.start_ne_stop ha hb, hs, hstart.1, hstart.2, ht, hstop⟩
  · intro rule rule' r hr hr'
    have hrule := h.ruleAt_of_start_or_stop hr
    rw [h.ruleAt_of_start_or_stop hr'] at hrule
    exact (Option.some.inj hrule).symm
  · intro r s hs e he
    refine ⟨?_, h.rule_of_predicate r s hs e he⟩
    intro rule follow hcall
    have hstart := h.linked.start_of_call r s hs e he rule follow hcall
    exact ⟨(Array.getElem?_eq_some_iff.1 hstart).1, hstart⟩
  · intro r s hs
    have hedges : ((empty greatest).buildAll l).value.2.edgesAt r = _ := edgesAt_buildAll l
    rw [edgesAt_of_state? hs, edgesAt_empty, List.nil_append] at hedges
    exact hedges
  · intro i source hsource
    refine ⟨Instruction.accepted?_eq_none_iff hsource, ?_⟩
    intro hnone
    exact value_build_of_accepted?_eq_none hnone hsource

/-- Instructions for two rules, the second called in the first. Left out are an edge from no state, one
from a state that is never made, and a call of the second rule that comes before that rule. -/
def mixedInstructions : List Instruction :=
  [.rule, .state 0 .basic, .call (reference 0) 1 (reference 2), .epsilon (reference 0) (reference 1),
    .rule, .one none (reference 1) 4, .call (reference 0) 1 (reference 2),
    .predicate (reference 2) (reference 1) 3, .any (reference 9) (reference 0)]

/-- Only the call that comes after its rule is taken, with the epsilon edge before it. -/
theorem edges_of_mixedInstructions :
    let net := ((empty 4).buildAll mixedInstructions).value.2
    net.states.size = 5 ∧
      (∀ s, net.state? (reference 0) = some s → s.edges =
        [{ target := reference 1, move := .epsilon },
          { target := reference 3, move := .call 1 (reference 2) }]) ∧
      (net.build (.call (reference 0) 2 (reference 1))).value.2 = net := by
  intro net
  obtain ⟨-, -, -, -, hedges, hrefused⟩ :=
    coherent_of_instructions 4 mixedInstructions net rfl (by decide)
  have hcall := hrefused (.call (reference 0) 2 (reference 1)) (reference 0) rfl
  refine ⟨by decide, ?_, ?_⟩
  · intro s hs
    rw [hedges (reference 0) s hs]
    decide
  · exact hcall.2 (hcall.1.2 (Or.inr ⟨2, reference 1, rfl, by decide⟩))

end Network

end SyntaxRecovery
