import SyntaxRecovery.Proofs.Network.Instructions

/-!
# Links between the parts of a network

Two conditions under which a network can be walked rule by rule. `Network.Linked` is about the tables
of rules: a call leads to the start of the rule that it calls, and a rule starts and stops in states
of its own. Building gives it to every network in which references tell all states apart
(`Network.linked_buildAll`). `Network.Closed` is about the edges, and whoever builds a network has to
see to it: no edge but a call, and no return, leaves the rule.

Every network that is built, however large, calls only rules that it has (`Network.declared_buildAll`).
-/

set_option autoImplicit false

namespace SyntaxRecovery

/-- The state in which a rule goes on after one of its edges; after a call, that to which the called
rule returns. -/
def Edge.onward (e : Edge) : StateRef :=
  match e.move with
  | .call _ follow => follow
  | _ => e.target

namespace Network

/-- The rule of the state under a reference. -/
def ruleAt (net : Network) (r : StateRef) : Option Nat := (net.state? r).map State.rule

/-- After every edge a rule goes on in a state of its own. -/
def Closed (net : Network) : Prop :=
  ∀ (r : StateRef) (s : State), net.state? r = some s →
    ∀ e ∈ s.edges, net.ruleAt e.onward = some s.rule

/-- Calls and the tables of rules fit together. -/
structure Linked (net : Network) : Prop where
  /-- Each rule has a start and a stop. -/
  size_stops : net.stops.size = net.starts.size
  /-- A call leads to the start of the rule that it calls. -/
  start_of_call : ∀ (r : StateRef) (s : State), net.state? r = some s → ∀ e ∈ s.edges,
    ∀ (rule : Nat) (follow : StateRef), e.move = .call rule follow → net.start? rule = some e.target
  /-- A rule starts in a state of its own. -/
  rule_of_start : ∀ (rule : Nat) (r : StateRef), net.start? rule = some r →
    net.ruleAt r = some rule
  /-- A rule stops in a state of its own that ends it. -/
  stop_of_rule : ∀ (rule : Nat) (r : StateRef), net.stop? rule = some r →
    ∃ s, net.state? r = some s ∧ s.isStop = true ∧ s.rule = rule

theorem ruleAt_of_state? {net : Network} {r : StateRef} {s : State} (h : net.state? r = some s) :
    net.ruleAt r = some s.rule := by
  rw [ruleAt, h]
  rfl

theorem mem_states_of_state? {net : Network} {r : StateRef} {s : State}
    (h : net.state? r = some s) : s ∈ net.states.toList := by
  cases r with
  | none => exact absurd h (by simp [state?])
  | some p => exact Array.mem_toList_iff.2 (Array.mem_of_getElem? h)

/-- A network is closed if the edges of its states are, which can be computed. -/
theorem closed_of_forall_mem {net : Network}
    (h : ∀ s ∈ net.states.toList, ∀ e ∈ s.edges, net.ruleAt e.onward = some s.rule) :
    net.Closed :=
  fun _ s hs => h s (mem_states_of_state? hs)

/-! ## What the instructions do to the states -/

section Instructions

variable {net : Network} {r : StateRef} {s : State} {rule : Nat} {kind : StateKind}

/-- A new state comes under the next reference and leaves the others as they are. -/
theorem state?_addState :
    (net.addState rule kind).2.state? r =
      if r.map Fin.val = some net.states.size
      then some { ref := referTo net.states.size, kind, rule } else net.state? r := by
  cases r with
  | none => simp [state?]
  | some p => simp [addState, state?, Array.getElem?_push]

theorem state?_addState_of_some (h : net.state? r = some s) :
    (net.addState rule kind).2.state? r = some s := by
  rw [state?_addState, if_neg, h]
  intro hr
  cases r with
  | none => simp at hr
  | some p =>
    simp only [Option.map_some, Option.some.injEq] at hr
    simp [state?, hr] at h

/-- The states after one is added are those before it and one without edges. -/
theorem state?_of_addState (h : (net.addState rule kind).2.state? r = some s) :
    net.state? r = some s ∨ s.edges = [] := by
  rw [state?_addState] at h
  split at h
  · cases h
    exact Or.inr rfl
  · exact Or.inl h

/-- The state added is found under the reference given out for it. -/
theorem state?_addState_self (net : Network) (rule : Nat) (kind : StateKind)
    (hsize : net.states.size < slotCount) :
    (net.addState rule kind).2.state? (net.addState rule kind).1 =
      some { ref := referTo net.states.size, kind, rule } := by
  rw [state?_addState, if_pos]
  simp [addState, referTo_of_lt hsize]

@[simp] theorem size_addState :
    (net.addState rule kind).2.states.size = net.states.size + 1 := by
  simp [addState]

/-- A new rule brings two states. -/
@[simp] theorem size_addRule : net.addRule.2.states.size = net.states.size + 2 := by
  change (((net.addState _ _).2.addState _ _).2).states.size = _
  rw [size_addState, size_addState]

variable {source : StateRef} {edge : Edge}

/-- A new edge is the last of those that leave its source. -/
theorem state?_addEdge :
    (net.addEdge source edge).value.state? r =
      (net.state? r).map fun s => if r = source then { s with edges := s.edges ++ [edge] } else s := by
  cases source with
  | none =>
    cases r with
    | none => rfl
    | some p => simp [addEdge]
  | some q =>
    cases r with
    | none =>
      simp only [addEdge]
      split <;> rfl
    | some p =>
      by_cases hq : q.val < net.states.size
      · simp only [addEdge, if_pos hq, Noted.value_pure, state?, Array.getElem?_modify,
          Option.some.injEq]
        by_cases hpq : q.val = p.val
        · simp [hpq, Fin.ext_iff]
        · simp [hpq, Fin.ext_iff, Ne.symm hpq]
      · -- there is no such source: nothing is added, and nothing is found under its reference
        have hne : net.states[p.val]? = none ∨ p ≠ q := by
          by_cases hpq : p = q
          · left
            subst hpq
            exact Array.getElem?_eq_none (by omega)
          · exact Or.inr hpq
        simp only [addEdge, if_neg hq, Noted.value_after, state?]
        rcases hne with hnone | hne
        · simp [hnone]
        · simp [hne]

/-- A state after an edge is added was there before it, with the same edges but for the new one. -/
theorem state?_of_addEdge (h : (net.addEdge source edge).value.state? r = some s) :
    ∃ t, net.state? r = some t ∧ s.ref = t.ref ∧ s.rule = t.rule ∧
      ∀ e ∈ s.edges, e ∈ t.edges ∨ (r = source ∧ e = edge) := by
  rw [state?_addEdge, Option.map_eq_some_iff] at h
  obtain ⟨t, ht, rfl⟩ := h
  refine ⟨t, ht, ?_⟩
  split
  · next hr =>
    refine ⟨rfl, rfl, ?_⟩
    intro e he
    rcases List.mem_append.1 he with he | he
    · exact Or.inl he
    · exact Or.inr ⟨hr, List.mem_singleton.1 he⟩
  · exact ⟨rfl, rfl, fun e he => Or.inl he⟩

/-- A state that is there stays when an edge is added, and plays the same part in the same rule. -/
theorem state?_addEdge_of_some (h : net.state? r = some s) :
    ∃ t, (net.addEdge source edge).value.state? r = some t ∧ t.kind = s.kind ∧ t.rule = s.rule := by
  rw [state?_addEdge, h, Option.map_some]
  refine ⟨_, rfl, ?_⟩
  split <;> exact ⟨rfl, rfl⟩

/-- Edges neither make states nor change their rules. -/
@[simp] theorem ruleAt_addEdge : (net.addEdge source edge).value.ruleAt = net.ruleAt := by
  funext r
  rw [ruleAt, ruleAt, state?_addEdge, Option.map_map]
  congr 1
  funext s
  simp only [Function.comp_apply]
  split <;> rfl

@[simp] theorem size_addEdge : (net.addEdge source edge).value.states.size = net.states.size := by
  unfold addEdge
  split
  · split <;> simp
  · rfl

@[simp] theorem starts_addEdge : (net.addEdge source edge).value.starts = net.starts := by
  unfold addEdge
  split
  · split <;> rfl
  · rfl

@[simp] theorem stops_addEdge : (net.addEdge source edge).value.stops = net.stops := by
  unfold addEdge
  split
  · split <;> rfl
  · rfl

@[simp] theorem start?_addEdge : (net.addEdge source edge).value.start? = net.start? := by
  funext rule
  rw [start?, starts_addEdge]
  rfl

@[simp] theorem stop?_addEdge : (net.addEdge source edge).value.stop? = net.stop? := by
  funext rule
  rw [stop?, stops_addEdge]
  rfl

end Instructions

/-! ## Building links -/

theorem linked_empty (greatest : TokenCode) : (empty greatest).Linked := by
  refine ⟨rfl, ?_, ?_, ?_⟩
  · intro r s hs
    cases r with
    | none => simp [state?] at hs
    | some p => simp [empty, state?] at hs
  · intro rule r hr
    simp [empty, start?] at hr
  · intro rule r hr
    simp [empty, stop?] at hr

variable {net : Network}

theorem Linked.addState (h : net.Linked) (rule : Nat) (kind : StateKind) :
    (net.addState rule kind).2.Linked := by
  refine ⟨h.size_stops, ?_, ?_, ?_⟩
  · intro r s hs e he rule' follow hcall
    rcases state?_of_addState hs with hs | hnone
    · exact h.start_of_call r s hs e he rule' follow hcall
    · rw [hnone] at he
      exact absurd he List.not_mem_nil
  · intro rule' r hr
    have hold := h.rule_of_start rule' r hr
    simp only [ruleAt, Option.map_eq_some_iff] at hold ⊢
    obtain ⟨s, hs, hrule⟩ := hold
    exact ⟨s, state?_addState_of_some hs, hrule⟩
  · intro rule' r hr
    obtain ⟨s, hs, hstop⟩ := h.stop_of_rule rule' r hr
    exact ⟨s, state?_addState_of_some hs, hstop⟩

/-- New edges keep the links if those that are calls lead to the start of the called rule. -/
theorem Linked.addEdge (h : net.Linked) (source : StateRef) {edge : Edge}
    (hedge : ∀ (rule : Nat) (follow : StateRef), edge.move = .call rule follow →
      net.start? rule = some edge.target) : (net.addEdge source edge).value.Linked := by
  refine ⟨?_, ?_, ?_, ?_⟩
  · rw [stops_addEdge, starts_addEdge]
    exact h.size_stops
  · intro r s hs e he rule follow hcall
    obtain ⟨t, ht, -, -, hedges⟩ := state?_of_addEdge hs
    rw [start?_addEdge]
    rcases hedges e he with he | ⟨-, rfl⟩
    · exact h.start_of_call r t ht e he rule follow hcall
    · exact hedge rule follow hcall
  · intro rule r hr
    rw [start?_addEdge] at hr
    rw [ruleAt_addEdge]
    exact h.rule_of_start rule r hr
  · intro rule r hr
    rw [stop?_addEdge] at hr
    obtain ⟨s, hs, hstop, hrule⟩ := h.stop_of_rule rule r hr
    obtain ⟨t, ht, hkind, hsame⟩ := state?_addEdge_of_some hs
    refine ⟨t, ht, ?_, hsame.trans hrule⟩
    rw [State.isStop, hkind]
    exact hstop

/-- A table with one more rule has an entry for an old rule or for the new one. -/
theorem getElem?_push_eq_some {refs : Array StateRef} {new r : StateRef} {rule : Nat}
    (h : (refs.push new)[rule]? = some r) :
    refs[rule]? = some r ∨ (rule = refs.size ∧ r = new) := by
  rw [Array.getElem?_push] at h
  split at h
  · next hrule => exact Or.inr ⟨hrule, (Option.some.inj h).symm⟩
  · exact Or.inl h

/-- A new rule keeps the links if there are references left for its start and its stop. -/
theorem Linked.addRule (h : net.Linked) (hsize : net.states.size + 2 ≤ slotCount) :
    net.addRule.2.Linked := by
  have hboth := (h.addState net.ruleCount .ruleStart).addState net.ruleCount .ruleStop
  refine ⟨?_, ?_, ?_, ?_⟩
  · change (net.stops.push _).size = (net.starts.push _).size
    rw [Array.size_push, Array.size_push, h.size_stops]
  · -- a call that is there already is one of an old rule, whose entry stays
    intro r s hs e he rule follow hcall
    have hold : net.starts[rule]? = some e.target :=
      hboth.start_of_call r s hs e he rule follow hcall
    have hlt := (Array.getElem?_eq_some_iff.1 hold).1
    change (net.starts.push _)[rule]? = _
    rw [Array.getElem?_push, if_neg (Nat.ne_of_lt hlt)]
    exact hold
  · intro rule r hr
    rcases getElem?_push_eq_some hr with hr | ⟨rfl, rfl⟩
    · exact hboth.rule_of_start rule r hr
    · -- the new rule starts in the first of the two states
      have hstart := state?_addState_self net net.ruleCount .ruleStart (by omega)
      exact ruleAt_of_state? (state?_addState_of_some hstart)
  · intro rule r hr
    rcases getElem?_push_eq_some hr with hr | ⟨rfl, rfl⟩
    · exact hboth.stop_of_rule rule r hr
    · -- and stops in the second
      have hstop := state?_addState_self (net.addState net.ruleCount .ruleStart).2 net.ruleCount
        .ruleStop (by rw [size_addState]; omega)
      exact ⟨_, hstop, rfl, h.size_stops.symm⟩

theorem size_le_size_build (i : Instruction) :
    net.states.size ≤ (net.build i).value.2.states.size := by
  apply keeps_build (P := fun net' => net.states.size ≤ net'.states.size) i
  · intro _
    exact Nat.le_refl _
  · intro _
    rw [size_addRule]
    omega
  · intro rule kind _
    rw [size_addState]
    omega
  · intro source edge _
    exact Nat.le_of_eq size_addEdge.symm

/-- An instruction keeps the links if references tell all states apart. -/
theorem Linked.build (h : net.Linked) (i : Instruction)
    (hsize : (net.build i).value.2.states.size ≤ slotCount) : (net.build i).value.2.Linked := by
  apply keeps_build i (fun _ => h)
  · rintro rfl
    apply h.addRule
    rw [← size_addRule]
    exact hsize
  · intro rule kind _
    exact h.addState rule kind
  · intro source edge htaken
    apply h.addEdge source
    intro rule follow hcall
    exact start?_of_accepted? htaken hcall

theorem size_le_size_buildAll (net : Network) (l : List Instruction) :
    net.states.size ≤ (net.buildAll l).value.2.states.size := by
  induction l generalizing net with
  | nil => exact Nat.le_refl _
  | cons i rest ih => exact Nat.le_trans (size_le_size_build i) (ih _)

/-- Instructions keep the links if references tell all states of the result apart. -/
theorem Linked.buildAll (h : net.Linked) (l : List Instruction)
    (hsize : (net.buildAll l).value.2.states.size ≤ slotCount) :
    (net.buildAll l).value.2.Linked := by
  induction l generalizing net with
  | nil => exact h
  | cons i rest ih =>
    have hle := size_le_size_buildAll (net.build i).value.2 rest
    exact ih (h.build i (Nat.le_trans hle hsize)) hsize

/-- Every network that is built, with no more states than there are references, is linked. -/
theorem linked_buildAll (greatest : TokenCode) (l : List Instruction)
    (hsize : ((empty greatest).buildAll l).value.2.states.size ≤ slotCount) :
    ((empty greatest).buildAll l).value.2.Linked :=
  (linked_empty greatest).buildAll l hsize

/-! ## Rules that are called -/

/-- Only rules that are there are called. -/
def Declared (net : Network) : Prop :=
  ∀ (r : StateRef) (s : State), net.state? r = some s → ∀ e ∈ s.edges,
    ∀ (rule : Nat) (follow : StateRef), e.move = .call rule follow → rule < net.ruleCount

theorem declared_empty (greatest : TokenCode) : (empty greatest).Declared := by
  intro r s hs
  cases r with
  | none => simp [state?] at hs
  | some p => simp [empty, state?] at hs

theorem Declared.addState (h : net.Declared) (rule : Nat) (kind : StateKind) :
    (net.addState rule kind).2.Declared := by
  intro r s hs e he rule' follow hcall
  rcases state?_of_addState hs with hs | hnone
  · exact h r s hs e he rule' follow hcall
  · rw [hnone] at he
    exact absurd he List.not_mem_nil

theorem Declared.addRule (h : net.Declared) : net.addRule.2.Declared := by
  have hboth := (h.addState net.ruleCount .ruleStart).addState net.ruleCount .ruleStop
  intro r s hs e he rule follow hcall
  have hlt : rule < net.ruleCount := hboth r s hs e he rule follow hcall
  have hcount : net.addRule.2.ruleCount = net.ruleCount + 1 := Array.size_push _
  rw [hcount]
  exact Nat.lt_succ_of_lt hlt

theorem Declared.addEdge (h : net.Declared) (source : StateRef) {edge : Edge}
    (hedge : ∀ (rule : Nat) (follow : StateRef), edge.move = .call rule follow →
      rule < net.ruleCount) : (net.addEdge source edge).value.Declared := by
  intro r s hs e he rule follow hcall
  obtain ⟨t, ht, -, -, hedges⟩ := state?_of_addEdge hs
  rw [ruleCount, starts_addEdge]
  rcases hedges e he with he | ⟨-, rfl⟩
  · exact h r t ht e he rule follow hcall
  · exact hedge rule follow hcall

theorem Declared.build (h : net.Declared) (i : Instruction) : (net.build i).value.2.Declared := by
  apply keeps_build i (fun _ => h)
  · intro _
    exact h.addRule
  · intro rule kind _
    exact h.addState rule kind
  · intro source edge htaken
    apply h.addEdge source
    intro rule follow hcall
    exact (Array.getElem?_eq_some_iff.1 (start?_of_accepted? htaken hcall)).1

theorem Declared.buildAll (h : net.Declared) (l : List Instruction) :
    (net.buildAll l).value.2.Declared := by
  induction l generalizing net with
  | nil => exact h
  | cons i rest ih => exact ih (h.build i)

/-- Every network that is built calls only rules that it has. -/
theorem declared_buildAll (greatest : TokenCode) (l : List Instruction) :
    ((empty greatest).buildAll l).value.2.Declared :=
  (declared_empty greatest).buildAll l

end Network

end SyntaxRecovery
