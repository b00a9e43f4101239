import SyntaxRecovery.Network.Construction

/-!
# What an instruction does to a network

An instruction adds a rule, a state or an edge, or it does nothing. It adds the edge that it asks for
if the network has the state which the edge is to leave and, for a call, the rule that is called
(`Instruction.accepted?`); else it leaves the network as it is
(`Network.value_build_of_accepted?_eq_none`). So what an instruction keeps is told by what these few
changes keep (`Network.keeps_build`).
-/

set_option autoImplicit false

namespace SyntaxRecovery

namespace Network

namespace Instruction

/-- The state that the edge asked for is to leave, if an edge is asked for. -/
def source? : Instruction → Option StateRef
  | .rule | .state _ _ => none
  | .epsilon source _ | .one source _ _ | .range source _ _ _ | .among source _ _ | .any source _
  | .predicate source _ _ | .call source _ _ => some source

/-- The edge asked for at a state of a network, if the network has the rule that it calls. -/
def edge? (net : Network) (s : State) : Instruction → Option Edge
  | .rule | .state _ _ => none
  | .epsilon _ target => some { target, move := .epsilon }
  | .one _ target code => some { target, move := .one code }
  | .range _ target lo hi => some { target, move := .range lo hi }
  | .among _ target codes => some { target, move := .among codes }
  | .any _ target => some { target, move := .any }
  | .predicate _ target index => some { target, move := .predicate s.rule index }
  | .call _ callee follow =>
    (net.start? callee).map fun target => { target, move := .call callee follow }

/-- The edge that a network takes from an instruction, with the state that it leaves. -/
def accepted? (net : Network) (i : Instruction) : Option (StateRef × Edge) := do
  let source ← i.source?
  let s ← net.state? source
  (i.edge? net s).map (Prod.mk source)

end Instruction

variable {net : Network} {i : Instruction} {source : StateRef} {edge : Edge} {rule : Nat}
  {follow : StateRef}

/-! ## Edges that are taken -/

theorem Instruction.accepted?_eq_some_iff :
    i.accepted? net = some (source, edge) ↔
      i.source? = some source ∧ ∃ s, net.state? source = some s ∧ i.edge? net s = some edge := by
  simp only [accepted?, Option.bind_eq_bind, Option.bind_eq_some_iff, Option.map_eq_some_iff,
    Prod.mk.injEq]
  constructor
  · rintro ⟨_, hsource, s, hs, _, hedge, rfl, rfl⟩
    exact ⟨hsource, s, hs, hedge⟩
  · rintro ⟨hsource, s, hs, hedge⟩
    exact ⟨source, hsource, s, hs, edge, hedge, rfl, rfl⟩

/-- At a state that is there an edge is refused if it is a call of a rule that is not, and only then. -/
theorem Instruction.edge?_eq_none_iff {s : State} (h : i.source? = some source) :
    i.edge? net s = none ↔ ∃ rule follow, i = .call source rule follow ∧ net.start? rule = none := by
  cases i with
  | rule | state rule kind => cases h
  | call source' callee follow =>
    cases h
    rw [edge?, Option.map_eq_none_iff]
    constructor
    · intro hnone
      exact ⟨callee, follow, rfl, hnone⟩
    · rintro ⟨_, _, heq, hnone⟩
      cases heq
      exact hnone
  | _ =>
    constructor
    · intro hnone
      cases hnone
    · rintro ⟨_, _, heq, -⟩
      cases heq

/-- An edge is refused if there is not the state that it is to leave, or not the rule that it calls, and
only then. -/
theorem Instruction.accepted?_eq_none_iff (h : i.source? = some source) :
    i.accepted? net = none ↔ net.state? source = none ∨
      ∃ rule follow, i = .call source rule follow ∧ net.start? rule = none := by
  simp only [accepted?, h, Option.bind_eq_bind, Option.bind_some]
  cases net.state? source with
  | none => exact iff_of_true rfl (Or.inl rfl)
  | some s =>
    rw [Option.bind_some, Option.map_eq_none_iff, edge?_eq_none_iff h]
    exact (or_iff_right (Option.some_ne_none s)).symm

/-- A call that is taken leads to the start of the rule that it calls. -/
theorem start?_of_accepted? (h : i.accepted? net = some (source, edge))
    (hcall : edge.move = .call rule follow) : net.start? rule = some edge.target := by
  obtain ⟨-, s, -, hedge⟩ := Instruction.accepted?_eq_some_iff.1 h
  cases i with
  | rule | state rule kind => cases hedge
  | call source' rule' follow' =>
    obtain ⟨target, hstart, rfl⟩ := Option.map_eq_some_iff.1 hedge
    cases hcall
    exact hstart
  | _ =>
    cases hedge
    cases hcall

/-- A condition that is taken belongs to the rule of the state that it leaves. -/
theorem rule_of_accepted? {s : State} {index : Nat} (h : i.accepted? net = some (source, edge))
    (hs : net.state? source = some s) (hmove : edge.move = .predicate rule index) :
    rule = s.rule := by
  obtain ⟨-, t, ht, hedge⟩ := Instruction.accepted?_eq_some_iff.1 h
  cases hs.symm.trans ht
  cases i with
  | rule | state rule kind => cases hedge
  | call source' rule' follow' =>
    obtain ⟨target, -, rfl⟩ := Option.map_eq_some_iff.1 hedge
    cases hmove
  | predicate source' target index' =>
    cases hedge
    cases hmove
    rfl
  | _ =>
    cases hedge
    cases hmove

/-! ## What is done -/

/-- No edge is added to a state that is not there. -/
theorem value_addEdge_of_state?_eq_none (h : net.state? source = none) (edge : Edge) :
    (net.addEdge source edge).value = net := by
  cases source with
  | none => rfl
  | some p =>
    have hout : ¬ p.val < net.states.size := Nat.not_lt.2 (Array.getElem?_eq_none_iff.1 h)
    rw [addEdge, if_neg hout]
    rfl

/-- Whatever edge is asked for, it is not added to a state that is not there. -/
theorem value_build_of_state?_eq_none (h : i.source? = some source)
    (hs : net.state? source = none) : (net.build i).value.2 = net := by
  have hkeep := value_addEdge_of_state?_eq_none hs
  cases i with
  | rule | state rule kind => cases h
  | call source' rule follow =>
    cases h
    change (net.addCall source rule follow).value = net
    rw [addCall]
    split
    · exact hkeep _
    · rfl
  | _ =>
    cases h
    exact hkeep _

/-- At a state that is there the edge asked for is added, but for a call of a rule that is not. -/
theorem value_build_of_state? {s : State} (h : i.source? = some source)
    (hs : net.state? source = some s) :
    (net.build i).value.2 =
      match i.edge? net s with
      | some edge => (net.addEdge source edge).value
      | none => net := by
  cases i with
  | rule | state rule kind => cases h
  | predicate source' target index =>
    cases h
    change (net.addPredicate source target index).value = _
    rw [addPredicate, hs]
    rfl
  | call source' rule follow =>
    cases h
    change (net.addCall source rule follow).value = _
    rw [addCall, Instruction.edge?]
    split
    · next target hstart => rw [hstart, Option.map_some]
    · next hstart => rw [hstart, Option.map_none]; rfl
  | _ =>
    cases h
    rfl

theorem value_build_of_accepted? (h : i.accepted? net = some (source, edge)) :
    (net.build i).value.2 = (net.addEdge source edge).value := by
  obtain ⟨hsource, s, hs, hedge⟩ := Instruction.accepted?_eq_some_iff.1 h
  rw [value_build_of_state? hsource hs, hedge]

/-- An edge that is not taken is not added, and nothing else is done. -/
theorem value_build_of_accepted?_eq_none (h : i.accepted? net = none)
    (hsource : i.source? = some source) : (net.build i).value.2 = net := by
  cases hs : net.state? source with
  | none => exact value_build_of_state?_eq_none hsource hs
  | some s =>
    rw [value_build_of_state? hsource hs]
    cases hedge : i.edge? net s with
    | none => rfl
    | some edge =>
      have htaken := Instruction.accepted?_eq_some_iff.2 ⟨hsource, s, hs, hedge⟩
      rw [h] at htaken
      cases htaken

/-- What each change to a network keeps, and what holds if there is none, holds after an
instruction. -/
theorem keeps_build {P : Network → Prop} (i : Instruction) (h : i.accepted? net = none → P net)
    (hrule : i = .rule → P net.addRule.2)
    (hstate : ∀ rule kind, i = .state rule kind → P (net.addState rule kind).2)
    (hedge : ∀ source edge, i.accepted? net = some (source, edge) →
      P (net.addEdge source edge).value) : P (net.build i).value.2 := by
  cases htaken : i.accepted? net with
  | some taken =>
    rw [value_build_of_accepted? htaken]
    exact hedge taken.1 taken.2 htaken
  | none =>
    cases hsource : i.source? with
    | some source =>
      rw [value_build_of_accepted?_eq_none htaken hsource]
      exact h htaken
    | none =>
      cases i with
      | rule => exact hrule rfl
      | state rule kind => exact hstate rule kind rfl
      | _ => cases hsource

end Network

end SyntaxRecovery
