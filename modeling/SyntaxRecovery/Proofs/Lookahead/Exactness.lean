import Mathlib
import SyntaxRecovery.Proofs.Lookahead.OpenRules

/-!
# What a lookahead shows

A search does not enter a rule that is open on its path, and a walk does. Whatever a walk finds behind
such a call it finds in the rule called, or after that rule has ended. What it finds in the rule has
been found from where the rule was entered first. After the rule it can come only if the rule can end
without a token, and this is ruled out for one that can be called again from its own start. So the
search loses nothing, and a lookahead shows just the codes that the walks from its state come to
(`Network.mem_lookahead_iff_admits`).
-/

set_option autoImplicit false

namespace SyntaxRecovery

open Relation

namespace Network

variable {net : Network} {frames : CallStack}

/-- The search from a configuration comes to a place. -/
def Visits (net : Network) (frames : CallStack) (c₀ : Configuration) (p : Place) : Prop :=
  ∃ d, net.Reaches frames c₀ d ∧ d.place = p

theorem meets_iff_visits {c₀ : Configuration} {k : TokenCode} :
    net.Meets frames c₀ k ↔ ∃ p, net.Visits frames c₀ p ∧ net.Offers frames p k := by
  constructor
  · rintro ⟨d, hd, hk⟩
    exact ⟨d.place, ⟨d, hd, rfl⟩, hk⟩
  · rintro ⟨p, ⟨d, hd, rfl⟩, hk⟩
    exact ⟨d, hd, hk⟩

section Search

variable {c₀ : Configuration} {x follow : StateRef} {σ : List StateRef} {b : FrameRef} {e : Edge}
  {rule : Nat} {k : TokenCode}

theorem visits_self : net.Visits frames c₀ c₀.place := ⟨c₀, ReflTransGen.refl, rfl⟩

theorem Visits.free (h : net.Visits frames c₀ ⟨x, σ, b⟩) (he : net.HasEdge x e)
    (hfree : e.move.isFree = true) : net.Visits frames c₀ ⟨e.target, σ, b⟩ := by
  obtain ⟨⟨state, returns, base, barred⟩, hreach, hplace⟩ := h
  cases hplace
  exact ⟨_, hreach.tail (.free he hfree), rfl⟩

theorem Visits.ret (h : net.Visits frames c₀ ⟨x, follow :: σ, b⟩) (hx : net.StopsAt x) :
    net.Visits frames c₀ ⟨follow, σ, b⟩ := by
  obtain ⟨⟨state, returns, base, barred⟩, hreach, hplace⟩ := h
  obtain ⟨s, hs, hstop⟩ := hx
  cases hplace
  exact ⟨_, hreach.tail (.ret hs hstop rfl), rfl⟩

theorem Visits.leave {f : Frame} (h : net.Visits frames c₀ ⟨x, [], b⟩) (hx : net.StopsAt x)
    (hf : frames.get? b = some f) (hin : f.isOutermost = false)
    (hreturn : net.returnState? f.invoking = some follow) :
    net.Visits frames c₀ ⟨follow, [], f.parent⟩ := by
  obtain ⟨⟨state, returns, base, barred⟩, hreach, hplace⟩ := h
  obtain ⟨s, hs, hstop⟩ := hx
  cases hplace
  exact ⟨_, hreach.tail (.leave hs hstop rfl hf hin hreturn), rfl⟩

variable (hlinked : net.Linked) (hclosed : net.Closed) (hreturns : c₀.returns = [])
  (htracked : net.Tracked c₀)

include hlinked hclosed hreturns htracked

/-- The search follows a call unless its rule is open. Then the rule can be called again from its own
start, and the search has been at that start before. -/
theorem Visits.call (h : net.Visits frames c₀ ⟨x, σ, b⟩) (he : net.HasEdge x e)
    (hcall : e.move = .call rule follow) :
    net.Visits frames c₀ ⟨e.target, follow :: σ, b⟩ ∨
      net.LeftRecursive rule ∧ ∃ σ' b', net.Visits frames c₀ ⟨e.target, σ', b'⟩ := by
  obtain ⟨⟨state, returns, base, barred⟩, hreach, hplace⟩ := h
  cases hplace
  by_cases hbar : rule ∈ barred
  · right
    -- a barred rule is entered from its start, and the walk from there has come back to call it
    obtain ⟨start, above, d, hstart, hd, hds, hwithin⟩ :=
      entered_of_mem_barred hlinked hclosed hreturns htracked hreach hbar
    have htarget := start?_of_call hlinked he hcall
    rw [hstart] at htarget
    cases htarget
    exact ⟨⟨_, _, above, e, follow, hstart, hwithin, he, hcall⟩, d.returns, d.base, d, hd,
      Place.ext hds rfl rfl⟩
  · exact Or.inl ⟨_, hreach.tail (.call he hcall hbar), rfl⟩

variable (hrec : ∀ rule, net.Nullable rule → ¬ net.LeftRecursive rule)

include hrec

/-- A rule that can end without a token is never barred to the search. -/
theorem Visits.call_of_across {u : StateRef} (h : net.Visits frames c₀ ⟨x, σ, b⟩)
    (he : net.HasEdge x e) (hcall : e.move = .call rule follow) (hin : net.Across e.target u)
    (hu : net.StopsAt u) : net.Visits frames c₀ ⟨e.target, follow :: σ, b⟩ := by
  rcases h.call hlinked hclosed hreturns htracked he hcall with h | ⟨hleft, -⟩
  · exact h
  · have hnull : net.Nullable rule := ⟨_, u, start?_of_call hlinked he hcall, hin.within, hu⟩
    exact absurd hleft (hrec rule hnull)

theorem Visits.across {y : StateRef} (hacross : net.Across x y)
    (h : net.Visits frames c₀ ⟨x, σ, b⟩) : net.Visits frames c₀ ⟨y, σ, b⟩ := by
  induction hacross generalizing σ with
  | refl => exact h
  | free he hfree _ ih => exact ih (h.free he hfree)
  | call he hcall hin hu _ ihin ihrest =>
    -- into the rule called, across it, and back
    have hcalled := h.call_of_across hlinked hclosed hreturns htracked hrec he hcall hin hu
    exact ihrest ((ihin hcalled).ret hu)

/-- What can be read before the rule of a place ends, the search meets. -/
theorem Visits.meets_of_first (hfirst : net.First k x) (h : net.Visits frames c₀ ⟨x, σ, b⟩) :
    net.Meets frames c₀ k := by
  induction hfirst generalizing σ b with
  | label he hcodes hk => exact meets_iff_visits.2 ⟨_, h, .label he hcodes hk⟩
  | free he hfree _ ih => exact ih (h.free he hfree)
  | enter he hcall _ ih =>
    -- an open rule has been searched from where it was entered
    rcases h.call hlinked hclosed hreturns htracked he hcall with h | ⟨-, σ', b', h⟩
    · exact ih h
    · exact ih h
  | past he hcall hin hu _ ih =>
    have hcalled := h.call_of_across hlinked hclosed hreturns htracked hrec he hcall hin hu
    have hended := hcalled.across hlinked hclosed hreturns htracked hrec hin
    exact ih (hended.ret hu)

/-- What is found rule by rule, the search meets. -/
theorem Visits.meets_of_found {p : Place} (hfound : net.Found frames k p)
    (h : net.Visits frames c₀ p) : net.Meets frames c₀ k := by
  induction hfound with
  | first hfirst => exact h.meets_of_first hlinked hclosed hreturns htracked hrec hfirst
  | ret hacross hu _ ih =>
    exact ih ((h.across hlinked hclosed hreturns htracked hrec hacross).ret hu)
  | ended hacross hu hoffer =>
    exact meets_iff_visits.2
      ⟨_, h.across hlinked hclosed hreturns htracked hrec hacross, hoffer⟩
  | leave hacross hu hf hin hreturn _ ih =>
    exact ih ((h.across hlinked hclosed hreturns htracked hrec hacross).leave hu hf hin hreturn)

end Search

/-- A lookahead that leaves nothing out shows just the codes that the walks from its state come to, in
a linked and closed network in which no rule can both end without a token and be called again from
its own start without one. -/
theorem mem_lookahead_iff_admits (hlinked : net.Linked) (hclosed : net.Closed)
    (hrec : ∀ rule, net.Nullable rule → ¬ net.LeftRecursive rule) (frames : CallStack)
    (state : StateRef) (frame : FrameRef)
    (hdone : (net.lookahead frames state frame).notes = []) (k : TokenCode) :
    k ∈ (net.lookahead frames state frame).value ↔ net.Admits frames ⟨state, [], frame⟩ k := by
  rw [mem_lookahead_iff_meets hlinked hclosed hdone]
  constructor
  · rintro ⟨d, hd, hk⟩
    exact ⟨d.place, hd.walk, hk⟩
  · -- a walk is summarised rule by rule, and the search follows the summary
    rintro ⟨q, hwalk, hk⟩
    exact visits_self.meets_of_found hlinked hclosed rfl (tracked_initial state frame) hrec
      (found_of_walk hwalk hk)

/-! ## A rule that begins with itself -/

/-- Instructions for the rule `sum : sum '+' name | name`; the codes are 1 for `'+'` and 2 for a
name. -/
def sumInstructions : List Instruction :=
  [.rule, .state 0 .basic, .state 0 .basic, .state 0 .basic, .state 0 .basic,
    .epsilon (reference 0) (reference 2), .call (reference 2) 0 (reference 3),
    .one (reference 3) (reference 4) 1, .one (reference 4) (reference 1) 2,
    .epsilon (reference 0) (reference 5), .one (reference 5) (reference 1) 2]

/-- The network of sums. -/
def sums : Network := ((empty 2).buildAll sumInstructions).value.2

/-- A sum that is parsed within a sum. -/
def sumFrames : CallStack := (((∅ : CallStack).push 0 none).2.push 0 (reference 2)).2

theorem sums_linked : sums.Linked := linked_buildAll 2 sumInstructions (by decide)

theorem sums_closed : sums.Closed := closed_of_forall_mem (by decide)

theorem not_nullable_sums (rule : Nat) : ¬ sums.Nullable rule := by
  have htraps : sums.traps [reference 0, reference 2, reference 5] = true := by decide
  exact not_nullable_of_starts htraps (by decide) rule

/-- At the start of a sum within a sum a name can come, and `'+'` cannot. -/
theorem admits_start_of_sum :
    sums.Linked ∧ sums.Closed ∧ (∀ rule, sums.Nullable rule → ¬ sums.LeftRecursive rule) ∧
      (sums.lookahead sumFrames (reference 0) (reference 1)).notes = [] ∧
      sums.Admits sumFrames ⟨reference 0, [], reference 1⟩ 2 ∧
      ¬ sums.Admits sumFrames ⟨reference 0, [], reference 1⟩ 1 := by
  have hrec : ∀ rule, sums.Nullable rule → ¬ sums.LeftRecursive rule :=
    fun rule h => absurd h (not_nullable_sums rule)
  have hdone : (sums.lookahead sumFrames (reference 0) (reference 1)).notes = [] := by cbv
  have hiff := mem_lookahead_iff_admits sums_linked sums_closed hrec sumFrames (reference 0)
    (reference 1) hdone
  have hname : (sums.lookahead sumFrames (reference 0) (reference 1)).value.contains 2 = true := by
    cbv
  have hplus : (sums.lookahead sumFrames (reference 0) (reference 1)).value.contains 1 = false := by
    cbv
  refine ⟨sums_linked, sums_closed, hrec, hdone, (hiff 2).1 hname, fun h => ?_⟩
  exact Bool.eq_false_iff.1 hplus ((hiff 1).2 h)

end Network

end SyntaxRecovery
