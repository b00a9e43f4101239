import SyntaxRecovery.Proofs.Lookahead.Turns

/-!
# States that only read

Where all edges of a state take a token, nothing but reading can come next: no step leads on, and a
place offers just what is read there. A lookahead finds exactly that, in whatever network and in
whatever frame, for it is all in the first look (`Network.OnlyReads.mem_lookahead_iff`).
-/

set_option autoImplicit false

namespace SyntaxRecovery

open Relation

namespace Network

variable {net : Network} {frames : CallStack} {x : StateRef} {p q : Place} {frame : FrameRef}
  {k : TokenCode}

/-- A state does not end its rule, and all its edges take a token. -/
def OnlyReads (net : Network) (x : StateRef) : Prop :=
  ∃ s, net.state? x = some s ∧ s.isStop = false ∧ ∀ e ∈ s.edges, e.move.isSilent = false

theorem OnlyReads.not_stopsAt (h : net.OnlyReads x) : ¬ net.StopsAt x := by
  obtain ⟨s, hs, hgo, -⟩ := h
  rintro ⟨t, ht, hstop⟩
  rw [hs] at ht
  cases ht
  rw [hgo] at hstop
  exact Bool.false_ne_true hstop

theorem OnlyReads.isSilent_eq_false (h : net.OnlyReads x) {e : Edge} (he : net.HasEdge x e) :
    e.move.isSilent = false := by
  obtain ⟨s, hs, -, hedges⟩ := h
  obtain ⟨t, ht, -, hmem⟩ := he
  rw [hs] at ht
  cases ht
  exact hedges e hmem

theorem OnlyReads.not_step (h : net.OnlyReads p.state) : ¬ net.Step frames p q := by
  intro hstep
  cases hstep with
  | free he hfree =>
    have hsilent := Move.isSilent_of_isFree hfree
    rw [h.isSilent_eq_false he] at hsilent
    exact Bool.false_ne_true hsilent
  | call he hcall =>
    have hsilent := h.isSilent_eq_false he
    rw [hcall] at hsilent
    exact Bool.false_ne_true hsilent.symm
  | ret hx => exact h.not_stopsAt hx
  | leave hx _ _ _ => exact h.not_stopsAt hx

theorem OnlyReads.eq_of_walk (h : net.OnlyReads p.state) (hwalk : net.Walk frames p q) : q = p := by
  rcases ReflTransGen.cases_head hwalk with heq | ⟨r, hstep, -⟩
  · exact heq.symm
  · exact absurd hstep h.not_step

theorem OnlyReads.offers_iff (h : net.OnlyReads p.state) :
    net.Offers frames p k ↔ net.Reads p.state k := by
  constructor
  · intro hoffer
    cases hoffer with
    | label he hcodes hk => exact ⟨_, _, he, hcodes, hk⟩
    | noFrame hx _ => exact absurd hx h.not_stopsAt
    | outermost hx _ _ => exact absurd hx h.not_stopsAt
    | noReturn hx _ _ _ => exact absurd hx h.not_stopsAt
  · intro hreads
    exact hreads.offers

/-- What can come next is what is read at the state itself. -/
theorem OnlyReads.admits_iff (h : net.OnlyReads p.state) :
    net.Admits frames p k ↔ net.Reads p.state k := by
  constructor
  · -- a walk that comes to another place would take a step
    rintro ⟨q, hwalk, hoffer⟩
    rw [h.eq_of_walk hwalk] at hoffer
    exact h.offers_iff.1 hoffer
  · intro hreads
    exact ⟨p, ReflTransGen.refl, hreads.offers⟩

/-- The first look of a search is never one too many. -/
theorem mem_lookahead_of_offers (h : net.Offers frames ⟨x, [], frame⟩ k) :
    k ∈ (net.lookahead frames x frame).value := by
  have hroom : ¬ surveyLimit ≤ ({} : Survey).seen.size := by decide
  have hnew : ¬ ({} : Survey).seen.contains (initial x frame).key = true := by simp
  have hk : k ∈ (net.outlook frames (initial x frame)).codes := mem_codes_iff.2 h
  rw [value_lookahead]
  change k ∈ (net.explore frames surveyLimit {} [initial x frame]).look
  rw [explore, if_neg hroom, dif_neg hnew]
  exact mem_look_explore (TokenSet.mem_union.2 (Or.inr hk))

/-- A lookahead shows no code that cannot come. -/
theorem admits_of_mem_lookahead (h : k ∈ (net.lookahead frames x frame).value) :
    net.Admits frames ⟨x, [], frame⟩ k := by
  obtain ⟨d, hreach, hoffer⟩ := meets_of_mem_lookahead h
  exact ⟨d.place, hreach.walk, hoffer⟩

/-- A lookahead at a state that only reads finds what is read there. -/
theorem OnlyReads.mem_lookahead_iff (h : net.OnlyReads x) :
    k ∈ (net.lookahead frames x frame).value ↔ net.Reads x k := by
  constructor
  · intro hk
    exact h.admits_iff.1 (admits_of_mem_lookahead hk)
  · intro hreads
    exact mem_lookahead_of_offers hreads.offers

end Network

end SyntaxRecovery
