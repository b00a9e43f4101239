import SyntaxRecovery.Proofs.Lookahead.Search
import SyntaxRecovery.Proofs.Network.Links

/-!
# The rules that are open on a path

A search marks configurations by their place and not by the rules barred there. In a network that is
linked and closed this loses nothing: the barred rules are those of the states in which the path will
go on, all but the outermost (`Network.Tracked`), so a place has one configuration. A search that leaves
none out then finds just the codes that it can come to (`Network.mem_lookahead_iff_meets`).

A barred rule was entered on the path: its start was reached before, and from there the path has
stayed within the rule (`Network.entered_of_mem_barred`).
-/

set_option autoImplicit false

namespace SyntaxRecovery

open Relation

namespace Network

variable {net : Network} {frames : CallStack}

/-- The rules entered and not left on a path to a state with these returns, innermost first. The rule
in which the path began is not one of them. -/
def openRules (net : Network) : StateRef → List StateRef → List Nat
  | _, [] => []
  | x, follow :: σ => (net.ruleAt x).toList ++ net.openRules follow σ

/-- The rule of the outermost of a state and its returns. -/
def rootRule (net : Network) : StateRef → List StateRef → Option Nat
  | x, [] => net.ruleAt x
  | _, follow :: σ => net.rootRule follow σ

theorem openRules_congr {x y : StateRef} (h : net.ruleAt x = net.ruleAt y) (σ : List StateRef) :
    net.openRules x σ = net.openRules y σ := by
  cases σ with
  | nil => rfl
  | cons follow σ => rw [openRules, openRules, h]

theorem rootRule_congr {x y : StateRef} (h : net.ruleAt x = net.ruleAt y) (σ : List StateRef) :
    net.rootRule x σ = net.rootRule y σ := by
  cases σ with
  | nil => exact h
  | cons follow σ => rfl

/-- An open rule is that of the outermost state of some part of the path. -/
theorem exists_rootRule_of_mem_openRules {rule : Nat} {x : StateRef} {σ : List StateRef}
    (h : rule ∈ net.openRules x σ) :
    ∃ above below, σ = above ++ below ∧ below ≠ [] ∧ net.rootRule x above = some rule := by
  induction σ generalizing x with
  | nil => exact absurd h List.not_mem_nil
  | cons follow σ ih =>
    rcases List.mem_append.1 h with h | h
    · refine ⟨[], follow :: σ, rfl, List.cons_ne_nil follow σ, ?_⟩
      exact Option.mem_toList.1 h
    · obtain ⟨above, below, rfl, hbelow, hrule⟩ := ih h
      exact ⟨follow :: above, below, rfl, hbelow, hrule⟩

/-! ## What edges do to the rule -/

theorem ruleAt_of_hasEdge (hclosed : net.Closed) {x : StateRef} {e : Edge} (h : net.HasEdge x e) :
    net.ruleAt e.onward = net.ruleAt x := by
  obtain ⟨s, hs, -, he⟩ := h
  rw [ruleAt_of_state? hs]
  exact hclosed x s hs e he

theorem ruleAt_of_free (hclosed : net.Closed) {x : StateRef} {e : Edge} (h : net.HasEdge x e)
    (hfree : e.move.isFree = true) : net.ruleAt e.target = net.ruleAt x := by
  have hrule := ruleAt_of_hasEdge hclosed h
  rw [Edge.onward] at hrule
  split at hrule
  · next rule follow hcall =>
    rw [hcall] at hfree
    exact absurd hfree Bool.false_ne_true
  · exact hrule

theorem ruleAt_of_call (hclosed : net.Closed) {x follow : StateRef} {e : Edge} {rule : Nat}
    (h : net.HasEdge x e) (hcall : e.move = .call rule follow) :
    net.ruleAt follow = net.ruleAt x := by
  have hrule := ruleAt_of_hasEdge hclosed h
  rwa [Edge.onward, hcall] at hrule

theorem start?_of_call (hlinked : net.Linked) {x follow : StateRef} {e : Edge} {rule : Nat}
    (h : net.HasEdge x e) (hcall : e.move = .call rule follow) : net.start? rule = some e.target := by
  obtain ⟨s, hs, -, he⟩ := h
  exact hlinked.start_of_call x s hs e he rule follow hcall

/-- A walk within a rule ends with that rule at its root. -/
theorem Within.rootRule_eq (hclosed : net.Closed) {x y : StateRef} {above : List StateRef}
    (h : net.Within x y above) : net.rootRule y above = net.ruleAt x := by
  refine h.invariant (P := fun y above => net.rootRule y above = net.ruleAt x) rfl ?_ ?_ ?_
  · intro y above e hroot he hfree
    exact (rootRule_congr (ruleAt_of_free hclosed he hfree) above).trans hroot
  · intro y above e rule follow hroot he hcall
    exact (rootRule_congr (ruleAt_of_call hclosed he hcall) above).trans hroot
  · intro y follow above hroot _
    exact hroot

/-! ## Barred rules -/

/-- The barred rules are the open ones. -/
def Tracked (net : Network) (c : Configuration) : Prop := c.barred = net.openRules c.state c.returns

/-- Configurations whose barred rules are the open ones are told apart by their places. -/
theorem Tracked.eq_of_key_eq {c d : Configuration} (hc : net.Tracked c) (hd : net.Tracked d)
    (h : c.key = d.key) : c = d := by
  have hplace := Configuration.place_eq_of_key_eq h
  obtain ⟨state, returns, base, barred⟩ := c
  obtain ⟨state', returns', base', barred'⟩ := d
  simp only [Configuration.place, Place.mk.injEq] at hplace
  obtain ⟨rfl, rfl, rfl⟩ := hplace
  rw [Tracked] at hc hd
  simp only at hc hd
  rw [hc, hd]

/-- The search keeps the barred rules to the open ones. -/
theorem Tracked.next (hlinked : net.Linked) (hclosed : net.Closed) {c d : Configuration}
    (hc : net.Tracked c) (h : net.Next frames c d) : net.Tracked d := by
  unfold Tracked at hc ⊢
  cases h with
  | free he hfree =>
    rw [hc]
    exact (openRules_congr (ruleAt_of_free hclosed he hfree) _).symm
  | @call e rule follow he hcall hbar =>
    have hstart := hlinked.rule_of_start rule e.target (start?_of_call hlinked he hcall)
    simp only [openRules, hstart, Option.toList_some, List.singleton_append, List.cons.injEq,
      true_and]
    rw [hc]
    exact (openRules_congr (ruleAt_of_call hclosed he hcall) _).symm
  | ret hs hstop hreturns =>
    simp only [hc, hreturns, openRules, ruleAt_of_state? hs, Option.toList_some,
      List.singleton_append, List.erase_cons_head]
  | leave hs hstop hreturns hf hin hreturn =>
    simp only [hc, hreturns, openRules, List.erase_nil]

theorem Tracked.reaches (hlinked : net.Linked) (hclosed : net.Closed) {c d : Configuration}
    (hc : net.Tracked c) (h : net.Reaches frames c d) : net.Tracked d := by
  induction h with
  | refl => exact hc
  | tail _ hnext ih => exact ih.next hlinked hclosed hnext

/-! ## What a lookahead finds -/

/-- The configuration from which a lookahead begins. -/
def initial (state : StateRef) (frame : FrameRef) : Configuration :=
  { state, returns := [], base := frame, barred := [] }

theorem tracked_initial (state : StateRef) (frame : FrameRef) : net.Tracked (initial state frame) :=
  rfl

theorem value_lookahead (state : StateRef) (frame : FrameRef) :
    (net.lookahead frames state frame).value = (net.survey surveyLimit frames state frame).look := by
  unfold lookahead
  simp only
  split <;> rfl

/-- A lookahead that notes nothing has left nothing out. -/
theorem refused_eq_none_of_notes {state : StateRef} {frame : FrameRef}
    (h : (net.lookahead frames state frame).notes = []) :
    (net.survey surveyLimit frames state frame).refused = none := by
  unfold lookahead at h
  simp only at h
  split at h
  · exact absurd h (List.cons_ne_nil _ _)
  · next hnone => exact hnone

/-- A lookahead shows no code but those that the search can come to. -/
theorem meets_of_mem_lookahead {state : StateRef} {frame : FrameRef} {k : TokenCode}
    (h : k ∈ (net.lookahead frames state frame).value) :
    net.Meets frames (initial state frame) k := by
  rw [value_lookahead] at h
  rcases explore_sound h with h | ⟨c, hc, hk⟩
  · exact absurd h TokenSet.not_mem_empty
  · cases List.mem_singleton.1 hc
    exact hk

/-- In a linked and closed network a lookahead that leaves nothing out shows all codes that the search
can come to. -/
theorem mem_lookahead_iff_meets (hlinked : net.Linked) (hclosed : net.Closed) {state : StateRef}
    {frame : FrameRef} (hdone : (net.lookahead frames state frame).notes = []) {k : TokenCode} :
    k ∈ (net.lookahead frames state frame).value ↔ net.Meets frames (initial state frame) k := by
  refine ⟨meets_of_mem_lookahead, fun h => ?_⟩
  rw [value_lookahead]
  -- the good configurations are those whose barred rules are the open ones
  exact explore_complete (fun _ _ hc hnext => hc.next hlinked hclosed hnext)
    (fun _ _ hc hd hkey => hc.eq_of_key_eq hd hkey) (tracked_initial state frame)
    (refused_eq_none_of_notes hdone) h

/-! ## How a barred rule was entered -/

/-- The start of a rule has been reached from `c₀`, and a walk within the rule leads from there to
state `x` with the returns `above`. -/
def Entered (net : Network) (frames : CallStack) (c₀ : Configuration) (x : StateRef)
    (above : List StateRef) : Prop :=
  ∃ rule start d, net.start? rule = some start ∧ net.Reaches frames c₀ d ∧ d.state = start ∧
    net.Within start x above

/-- Each return of a configuration that is reached was pushed on entering a rule. -/
theorem entered_of_reaches (hlinked : net.Linked) {c₀ c : Configuration} (hc₀ : c₀.returns = [])
    (h : net.Reaches frames c₀ c) : ∀ above below, c.returns = above ++ below → below ≠ [] →
      net.Entered frames c₀ c.state above := by
  induction h with
  | refl =>
    intro above below happ hbelow
    rw [hc₀] at happ
    exact absurd (List.append_eq_nil_iff.1 happ.symm).2 hbelow
  | @tail c d hreach hnext ih =>
    intro above below happ hbelow
    cases hnext with
    | free he hfree =>
      obtain ⟨rule, start, q, hstart, hq, hqs, hwithin⟩ := ih above below happ hbelow
      exact ⟨rule, start, q, hstart, hq, hqs, hwithin.free he hfree⟩
    | @call e rule follow he hcall hbar =>
      cases above with
      | nil =>
        -- the rule just entered
        refine ⟨rule, e.target, _, start?_of_call hlinked he hcall,
          hreach.tail (.call he hcall hbar), rfl, within_refl _⟩
      | cons follow' above =>
        simp only [List.cons_append, List.cons.injEq] at happ
        obtain ⟨rfl, happ⟩ := happ
        obtain ⟨rule', start, q, hstart, hq, hqs, hwithin⟩ := ih above below happ hbelow
        exact ⟨rule', start, q, hstart, hq, hqs, hwithin.call he hcall⟩
    | @ret s follow σ hs hstop hreturns =>
      obtain ⟨rule, start, q, hstart, hq, hqs, hwithin⟩ :=
        ih (follow :: above) below (by rw [hreturns]; exact congrArg _ happ) hbelow
      exact ⟨rule, start, q, hstart, hq, hqs, hwithin.ret ⟨s, hs, hstop⟩⟩
    | leave hs hstop hreturns hf hin hreturn =>
      rw [hreturns] at happ
      exact absurd (List.append_eq_nil_iff.1 happ.symm).2 hbelow

/-- A barred rule was entered on the path and has not been left since. -/
theorem entered_of_mem_barred (hlinked : net.Linked) (hclosed : net.Closed) {c₀ c : Configuration}
    (hc₀ : c₀.returns = []) (htracked : net.Tracked c₀) (h : net.Reaches frames c₀ c) {rule : Nat}
    (hrule : rule ∈ c.barred) :
    ∃ start above d, net.start? rule = some start ∧ net.Reaches frames c₀ d ∧ d.state = start ∧
      net.Within start c.state above := by
  rw [htracked.reaches hlinked hclosed h] at hrule
  obtain ⟨above, below, happ, hbelow, hroot⟩ := exists_rootRule_of_mem_openRules hrule
  obtain ⟨rule', start, d, hstart, hd, hds, hwithin⟩ :=
    entered_of_reaches hlinked hc₀ h above below happ hbelow
  rw [hwithin.rootRule_eq hclosed, hlinked.rule_of_start rule' start hstart] at hroot
  cases hroot
  exact ⟨start, above, d, hstart, hd, hds, hwithin⟩

end Network

end SyntaxRecovery
