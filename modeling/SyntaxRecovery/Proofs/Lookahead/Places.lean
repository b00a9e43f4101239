import SyntaxRecovery.Proofs.Lookahead.OpenRules
import SyntaxRecovery.Proofs.TokenSet.Extensionality

/-!
# The places that a search explores

In a linked and closed network the barred rules of a configuration are the open ones, and these can be
read off its place. So a search is told by places alone: it is a walk that enters no open rule
(`Network.Advance`), and a lookahead that leaves nothing out shows the codes on offer at the places
that it explores (`Network.mem_lookahead_iff_explores`).

Within one rule there are two kinds of codes. A token can be read at some place, or the rule can end;
where no edge reads the marker of a rule's end (`Network.Unmarked`), the marker in a set says which it
is (`Network.mem_erase_localLookahead_iff`, `Network.ruleEnd_mem_localLookahead_iff`).
-/

set_option autoImplicit false

namespace SyntaxRecovery

open Relation

namespace Network

variable {net : Network} {frames : CallStack}

/-! ## Exploring without barred rules -/

/-- A step of a search, told by places: a step of a walk that enters no open rule. -/
inductive Advance (net : Network) (frames : CallStack) : Place → Place → Prop
  | free {x : StateRef} {σ : List StateRef} {b : FrameRef} {e : Edge} :
      net.HasEdge x e → e.move.isFree = true → Advance net frames ⟨x, σ, b⟩ ⟨e.target, σ, b⟩
  | call {x follow : StateRef} {σ : List StateRef} {b : FrameRef} {e : Edge} {rule : Nat} :
      net.HasEdge x e → e.move = .call rule follow → rule ∉ net.openRules x σ →
      Advance net frames ⟨x, σ, b⟩ ⟨e.target, follow :: σ, b⟩
  | ret {x follow : StateRef} {σ : List StateRef} {b : FrameRef} :
      net.StopsAt x → Advance net frames ⟨x, follow :: σ, b⟩ ⟨follow, σ, b⟩
  | leave {x follow : StateRef} {b : FrameRef} {f : Frame} :
      net.StopsAt x → frames.get? b = some f → f.isOutermost = false →
      net.returnState? f.invoking = some follow →
      Advance net frames ⟨x, [], b⟩ ⟨follow, [], f.parent⟩

/-- The places that a search from a place comes to. -/
abbrev Explores (net : Network) (frames : CallStack) : Place → Place → Prop :=
  ReflTransGen (net.Advance frames)

theorem Advance.step {p q : Place} (h : net.Advance frames p q) : net.Step frames p q := by
  cases h with
  | free he hfree => exact .free he hfree
  | call he hcall _ => exact .call he hcall
  | ret hx => exact .ret hx
  | leave hx hf hin hreturn => exact .leave hx hf hin hreturn

theorem Explores.walk {p q : Place} (h : net.Explores frames p q) : net.Walk frames p q :=
  ReflTransGen.mono (fun _ _ => Advance.step) p q h

theorem Next.advance {c d : Configuration} (hc : net.Tracked c) (h : net.Next frames c d) :
    net.Advance frames c.place d.place := by
  obtain ⟨state, returns, base, barred⟩ := c
  cases h with
  | free he hfree => exact .free he hfree
  | call he hcall hbar =>
    apply Advance.call he hcall
    intro hopen
    exact hbar (hc.symm ▸ hopen)
  | ret hs hstop hreturns =>
    cases hreturns
    exact .ret ⟨_, hs, hstop⟩
  | leave hs hstop hreturns hf hin hreturn =>
    cases hreturns
    exact .leave ⟨_, hs, hstop⟩ hf hin hreturn

theorem Advance.next {c : Configuration} {q : Place} (hc : net.Tracked c)
    (h : net.Advance frames c.place q) : ∃ d, net.Next frames c d ∧ d.place = q := by
  obtain ⟨state, returns, base, barred⟩ := c
  generalize hp : Configuration.place ⟨state, returns, base, barred⟩ = p at h
  cases h with
  | free he hfree =>
    cases hp
    exact ⟨_, .free he hfree, rfl⟩
  | call he hcall hopen =>
    cases hp
    refine ⟨_, .call he hcall ?_, rfl⟩
    intro hbar
    exact hopen (hc ▸ hbar)
  | ret hx =>
    cases hp
    obtain ⟨s, hs, hstop⟩ := hx
    exact ⟨_, .ret hs hstop rfl, rfl⟩
  | leave hx hf hin hreturn =>
    cases hp
    obtain ⟨s, hs, hstop⟩ := hx
    exact ⟨_, .leave hs hstop rfl hf hin hreturn, rfl⟩

section Search

variable (hlinked : net.Linked) (hclosed : net.Closed)

include hlinked hclosed

theorem Reaches.explores {c d : Configuration} (hc : net.Tracked c) (h : net.Reaches frames c d) :
    net.Explores frames c.place d.place := by
  induction h with
  | refl => exact ReflTransGen.refl
  | tail hreach hnext ih => exact ih.tail (hnext.advance (hc.reaches hlinked hclosed hreach))

theorem Explores.reaches {c : Configuration} {q : Place} (hc : net.Tracked c)
    (h : net.Explores frames c.place q) : ∃ d, net.Reaches frames c d ∧ d.place = q := by
  induction h with
  | refl => exact ⟨c, ReflTransGen.refl, rfl⟩
  | tail _ hstep ih =>
    obtain ⟨d, hd, rfl⟩ := ih
    obtain ⟨d', hnext, hplace⟩ := hstep.next (hc.reaches hlinked hclosed hd)
    exact ⟨d', hd.tail hnext, hplace⟩

/-- A lookahead that leaves nothing out shows just the codes on offer at the places explored. -/
theorem mem_lookahead_iff_explores {state : StateRef} {frame : FrameRef}
    (hdone : (net.lookahead frames state frame).notes = []) {k : TokenCode} :
    k ∈ (net.lookahead frames state frame).value ↔
      ∃ q, net.Explores frames ⟨state, [], frame⟩ q ∧ net.Offers frames q k := by
  rw [mem_lookahead_iff_meets hlinked hclosed hdone]
  constructor
  · rintro ⟨d, hd, hk⟩
    exact ⟨d.place, Reaches.explores hlinked hclosed (tracked_initial state frame) hd, hk⟩
  · rintro ⟨q, hq, hk⟩
    obtain ⟨d, hd, rfl⟩ := Explores.reaches (c := initial state frame) hlinked hclosed
      (tracked_initial state frame) hq
    exact ⟨d, hd, hk⟩

end Search

/-! ## Exploring one rule -/

/-- No edge reads the marker of a rule's end. -/
def Unmarked (net : Network) : Prop :=
  ∀ (r : StateRef) (s : State), net.state? r = some s → ∀ e ∈ s.edges,
    ∀ codes, e.move.label? net.greatest = some codes → TokenCode.ruleEnd ∉ codes

theorem Unmarked.not_reads (h : net.Unmarked) (x : StateRef) : ¬ net.Reads x .ruleEnd := by
  rintro ⟨e, codes, ⟨s, hs, -, he⟩, hcodes, hk⟩
  exact h x s hs e he codes hcodes hk

/-- A network is unmarked if the labels on the edges of its states are, which can be computed. -/
theorem unmarked_of_forall_mem
    (h : ∀ s ∈ net.states.toList, ∀ e ∈ s.edges,
      ∀ codes ∈ e.move.label? net.greatest, TokenCode.ruleEnd ∉ codes) : net.Unmarked :=
  fun _ s hs => h s (mem_states_of_state? hs)

section Local

variable (hlinked : net.Linked) (hclosed : net.Closed) (hunmarked : net.Unmarked) {x : StateRef}
  (hdone : (net.localLookahead x).notes = [])

include hlinked hclosed hunmarked hdone

/-- The marker shows that the rule can end. -/
theorem ruleEnd_mem_localLookahead_iff :
    TokenCode.ruleEnd ∈ (net.localLookahead x).value ↔
      ∃ u, net.Explores ∅ ⟨x, [], none⟩ ⟨u, [], none⟩ ∧ net.StopsAt u := by
  rw [localLookahead, mem_lookahead_iff_explores hlinked hclosed hdone]
  constructor
  · rintro ⟨⟨u, σ, b⟩, hq, hk⟩
    cases base_eq_of_walk hq.walk
    rcases offers_empty_iff.1 hk with hreads | ⟨-, rfl, hu⟩
    · exact absurd hreads (hunmarked.not_reads u)
    · exact ⟨u, hq, hu⟩
  · rintro ⟨u, hq, hu⟩
    exact ⟨_, hq, offers_empty_iff.2 (Or.inr ⟨rfl, rfl, hu⟩)⟩

/-- All other codes can be read. -/
theorem mem_erase_localLookahead_iff {k : TokenCode} :
    k ∈ (net.localLookahead x).value.erase .ruleEnd ↔
      ∃ q, net.Explores ∅ ⟨x, [], none⟩ q ∧ net.Reads q.state k := by
  rw [TokenSet.mem_erase, localLookahead, mem_lookahead_iff_explores hlinked hclosed hdone]
  constructor
  · rintro ⟨⟨q, hq, hk⟩, hne⟩
    rcases offers_empty_iff.1 hk with hreads | ⟨hend, -, -⟩
    · exact ⟨q, hq, hreads⟩
    · exact absurd hend hne
  · rintro ⟨q, hq, hreads⟩
    refine ⟨⟨q, hq, hreads.offers⟩, ?_⟩
    rintro rfl
    exact hunmarked.not_reads q.state hreads

end Local

end Network

end SyntaxRecovery
