import SyntaxRecovery.Proofs.Recovery.FollowCover
import SyntaxRecovery.Proofs.Recovery.Progress

/-!
# Where recovery stops

A stream that ends in an end of input stays one, and without a limit it is drained up to a token at
which to stop (`TokenStream.stopsAt_drain`). Every code of a recovery set, but for the marker of a
rule's end, can be read after a pending call within the rule that made it
(`Network.readsAfterCall_of_mem_recoverySet`). So after an error a parser stands at the end of the input
or at a token with which a rule being parsed can go on, and it has passed over none at which it could
have stopped (`Parser.fail_stops_at_usable_token`).
-/

set_option autoImplicit false

namespace SyntaxRecovery

open Relation

/-! ## Streams with an end -/

namespace TokenStream

variable {s t : TokenStream} {codes : TokenSet} {settings : Settings}

/-- The last token is an end of input. -/
def Ended (s : TokenStream) : Prop := ∃ t, s.tokens.back? = some t ∧ t.code = .endOfInput

theorem Ended.onward (h : s.Ended) (honward : s.Onward t) : t.Ended := by
  rw [Ended, honward.tokens_eq]
  exact h

/-- Tokens with an end of input at their end are those that there were, and that end. -/
theorem mem_or_code_of_mem_padded {tokens : Array Token} {t : Token} (h : t ∈ padded tokens) :
    t ∈ tokens ∨ t.code = .endOfInput := by
  unfold padded at h
  split at h
  · split at h
    · exact Or.inl h
    · rcases Array.mem_push.1 h with h | rfl
      · exact Or.inl h
      · exact Or.inr rfl
  · rw [Array.mem_singleton] at h
    subst h
    exact Or.inr rfl

theorem ended_of_padded {tokens : Array Token} (h : s.tokens = padded tokens) : s.Ended := by
  rw [Ended, h, padded]
  split
  · next last hlast =>
    split
    · next hend => exact ⟨last, hlast, of_decide_eq_true hend⟩
    · exact ⟨_, Array.back?_push, rfl⟩
  · exact ⟨_, rfl, rfl⟩

theorem head_mem_tokens : s.head ∈ s.tokens := Array.mem_of_getElem? getElem?_position

theorem Ended.code_head (h : s.Ended) (hlast : s.position = s.lastPosition) :
    s.head.code = .endOfInput := by
  obtain ⟨t, ht, hcode⟩ := h
  rw [Array.back?_eq_getElem?] at ht
  have hhead := getElem?_position (s := s)
  rw [hlast, lastPosition, ht] at hhead
  cases hhead
  exact hcode

/-- At its last position a stream stops. -/
theorem Ended.stopsAt (h : s.Ended) (hlast : s.position = s.lastPosition) :
    stopsAt codes s = true := stopsAt_iff.2 (Or.inl (h.code_head hlast))

/-- Draining as many tokens as remain leads to one at which to stop. -/
theorem stopsAt_drainAtMost (h : s.Ended) {n : Nat} (hn : s.lastPosition - s.position ≤ n) :
    stopsAt codes (drainAtMost codes n s).value.2 = true := by
  induction n generalizing s with
  | zero =>
    apply h.stopsAt
    have hle := position_le_lastPosition (s := s)
    omega
  | succ n ih =>
    rw [drainAtMost]
    split
    · next hstop => exact hstop
    · next hgo =>
      have hlast : s.position ≠ s.lastPosition := by
        intro hlast
        exact hgo (h.stopsAt hlast)
      apply ih (h.onward onward_advance)
      rw [onward_advance.lastPosition_eq, position_advance hlast]
      omega

/-- Without a limit a stream is drained up to a token at which to stop. -/
theorem stopsAt_drain (h : s.Ended) (hbudget : settings.budget = none) :
    stopsAt codes (drain settings codes s).value.2 = true := by
  rw [drain, hbudget]
  exact stopsAt_drainAtMost h (Nat.le_refl _)

end TokenStream

/-! ## What is in a recovery set -/

/-- Each code collected along a part of a chain of callers may come after a pending call. -/
theorem Site.pending_of_mem_afterCalls {ω : Type} [FollowSource ω] {site : Site ω} {k : TokenCode}
    (r : FrameRef) (n : Nat) (codes : TokenSet)
    (h : k ∈ (site.afterCalls (((site.stack.ancestors r).take n).map Prod.snd) codes).value) :
    k ∈ codes ∨ ∃ f, site.stack.Pending r f ∧
      k ∈ (FollowSource.afterReturn site.grammar f.invoking).value := by
  induction r using CallStack.chain_induction (s := site.stack) generalizing n codes with
  | hnone r hr =>
    rw [CallStack.ancestors_of_get?_eq_none hr, List.take_nil] at h
    exact Or.inl h
  | hsome r f hf ih =>
    obtain ⟨p, -, hanc⟩ := CallStack.ancestors_of_get?_eq_some hf
    rw [hanc] at h
    cases n with
    | zero => exact Or.inl h
    | succ n =>
      rw [List.take_succ_cons, List.map_cons, afterCalls] at h
      split at h
      · exact Or.inl h
      · next hin =>
        have hin := Bool.eq_false_iff.2 hin
        rcases ih n _ h with hk | ⟨g, hg, hk⟩
        · rcases TokenSet.mem_union.1 hk with hk | hk
          · exact Or.inl hk
          · exact Or.inr ⟨f, .call hf hin, hk⟩
        · exact Or.inr ⟨g, .outward hf hin hg, hk⟩

namespace Network

variable {net : Network} {k : TokenCode}

/-- A token with code `k` can be read after a pending call, before the rule that made the call ends. -/
def ReadsAfterCall (net : Network) (frames : CallStack) (context : FrameRef) (k : TokenCode) : Prop :=
  ∃ f follow y above, frames.Pending context f ∧ net.returnState? f.invoking = some follow ∧
    net.Within follow y above ∧ net.Reads y k

/-- What a lookahead within a rule shows, but for the marker of the rule's end, is read at the end of
some walk within the rule. -/
theorem exists_reads_of_mem_localLookahead {x : StateRef} (hk : k ∈ (net.localLookahead x).value)
    (hend : k ≠ .ruleEnd) : ∃ y above, net.Within x y above ∧ net.Reads y k := by
  obtain ⟨d, hreach, hoffer⟩ := meets_of_mem_lookahead hk
  have hwithin := within_of_walk hreach.walk
  rcases offers_empty_iff.1 hoffer with hreads | ⟨hmark, -, -⟩
  · exact ⟨_, _, hwithin, hreads⟩
  · exact absurd hmark hend

/-- Every code of a recovery set, but for the marker of a rule's end, can be read after a pending
call. The network may be any, and the searches may have left something out. -/
theorem readsAfterCall_of_mem_recoverySet {policy : Policy} {site : Site Network}
    (hk : k ∈ (site.recoverySet policy).value) (hend : k ≠ .ruleEnd) :
    site.grammar.ReadsAfterCall site.stack site.context k := by
  rw [Site.value_recoverySet] at hk
  rcases Site.pending_of_mem_afterCalls _ _ _ hk with hk | ⟨f, hf, hk⟩
  · exact absurd hk TokenSet.not_mem_empty
  · change k ∈ (site.grammar.afterReturn f.invoking).value at hk
    rw [afterReturn] at hk
    split at hk
    · next follow hreturn =>
      obtain ⟨y, above, hwithin, hreads⟩ := exists_reads_of_mem_localLookahead hk hend
      exact ⟨f, follow, y, above, hf, hreturn, hwithin, hreads⟩
    · exact absurd hk TokenSet.not_mem_empty

end Network

/-! ## What a run keeps -/

namespace Parser

section Run

variable {κ : Type} [Cursor κ]

/-- What every action keeps, a run keeps. -/
theorem run_keeps {P : Parser κ → Prop} (hstep : ∀ p a, P p → P (p.perform a).value.2) {p : Parser κ}
    (h : P p) (actions : List Action) : P (p.run actions).value.2 := by
  induction actions generalizing p with
  | nil => exact h
  | cons a actions ih => exact ih (hstep p a h)

theorem policy_perform (p : Parser κ) (a : Action) : (p.perform a).value.2.policy = p.policy := by
  obtain ⟨stack, state, session, hperform⟩ := p.exists_perform_eq a
  rw [hperform]

theorem policy_run (p : Parser κ) (actions : List Action) :
    (p.run actions).value.2.policy = p.policy := by
  refine run_keeps (P := fun q => q.policy = p.policy) ?_ rfl actions
  intro q a hq
  exact (policy_perform q a).trans hq

end Run

variable {p : Parser TokenStream}

/-- Whatever a driver does, the tokens stay the same. -/
theorem tokens_perform (p : Parser TokenStream) (a : Action) :
    (p.perform a).value.2.session.input.tokens = p.session.input.tokens := by
  by_cases hreset : a = .reset
  · subst hreset
    rfl
  · exact (onward_perform p hreset).tokens_eq

theorem tokens_run (p : Parser TokenStream) (actions : List Action) :
    (p.run actions).value.2.session.input.tokens = p.session.input.tokens := by
  refine run_keeps (P := fun q : Parser TokenStream => q.session.input.tokens = p.session.input.tokens)
    ?_ rfl actions
  intro q a hq
  exact (tokens_perform q a).trans hq

/-! ## After an error -/

/-- Where the input is drained from after an error: a parser that is stuck passes over one token
first. -/
theorem input_unstick_report (p : Parser TokenStream) (e : SyntaxError) :
    ((p.session.report p.site e).value.unstick p.state).value.input =
      if p.session.isStuck p.state then p.session.input.advance else p.session.input := by
  have hproceeds := Session.proceeds_report (s := p.session) p.site e
  have hinput := Session.input_report (s := p.session) p.site e
  have hstuck : (p.session.report p.site e).value.isStuck p.state = p.session.isStuck p.state := by
    rw [Bool.eq_iff_iff, Session.isStuck_iff, Session.isStuck_iff, hproceeds.position_eq,
      hproceeds.states_eq, hinput]
  rw [Session.value_unstick, hstuck]
  split
  · rw [Session.advance, hinput]
    rfl
  · exact hinput

/-- After an error the input is drained up to the recovery set. -/
theorem input_fail (p : Parser TokenStream) (e : SyntaxError) :
    (p.fail e).value.session.input =
      (drain p.policy.settings (p.site.recoverySet p.policy).value
        (if p.session.isStuck p.state then p.session.input.advance else p.session.input)).value.2 := by
  rw [← input_unstick_report p e]
  rfl

/-- After an error, whatever a driver has done before, a parser without a limit on recovery stands at
the end of the input or at a token that can be read after a pending call. Apart from the one token that
it passes over if it is stuck, the tokens passed over are none at which recovery stops. -/
theorem fail_stops_at_usable_token {tokens : Array Token}
    (htokens : p.session.input.tokens = TokenStream.padded tokens)
    (hcodes : ∀ t ∈ tokens, t.code ≠ .ruleEnd) (hbudget : p.policy.settings.budget = none)
    (actions : List Action) (e : SyntaxError) :
    let q := (p.run actions).value.2
    let before := if q.session.isStuck q.state then q.session.input.advance else q.session.input
    let after := (q.fail e).value.session.input
    (after.head.code = .endOfInput ∨
      q.network.ReadsAfterCall q.stack q.stack.current after.head.code) ∧
    before.position ≤ after.position ∧
    ∀ i, before.position ≤ i → i < after.position →
      ∃ t, (TokenStream.padded tokens)[i]? = some t ∧ t.code ≠ .endOfInput ∧
        t.code ∉ (q.site.recoverySet q.policy).value := by
  intro q before after
  have hbefore : before.tokens = TokenStream.padded tokens := by
    have hq := (tokens_run p actions).trans htokens
    rw [← hq]
    dsimp only [before]
    split
    · exact TokenStream.onward_advance.tokens_eq
    · rfl
  have hafter : after = (drain q.policy.settings (q.site.recoverySet q.policy).value before).value.2 :=
    input_fail q e
  have honward : before.Onward after := by
    rw [hafter]
    exact TokenStream.onward_drain q.policy.settings
  refine ⟨?_, honward.position_le, ?_⟩
  · have hstop : stopsAt (q.site.recoverySet q.policy).value after = true := by
      rw [hafter]
      apply TokenStream.stopsAt_drain (TokenStream.ended_of_padded hbefore)
      rw [policy_run]
      exact hbudget
    rcases TokenStream.stopsAt_iff.1 hstop with hend | hmem
    · exact Or.inl hend
    · have hhead : after.head ∈ TokenStream.padded tokens := by
        rw [← hbefore, ← honward.tokens_eq]
        exact TokenStream.head_mem_tokens
      rcases TokenStream.mem_or_code_of_mem_padded hhead with hhead | hend
      · exact Or.inr (Network.readsAfterCall_of_mem_recoverySet hmem (hcodes _ hhead))
      · exact Or.inl hend
  · intro i hi hpassed
    rw [hafter] at hpassed
    rw [← hbefore]
    exact TokenStream.passed_of_drain q.policy.settings hi hpassed

/-- A parser in an item, as `itemParser`, with two names before the `';'`. -/
def nameParser : Parser TokenStream := { itemParser with session := { input := .ofCodes [1, 1, 3] } }

/-- The error that no alternative fits. -/
def noAlternative : SyntaxError := { cause := .noViableAlternative, token := none }

/-- The first name matches, the second is passed over, and recovery stops at the `';'`, which can be
read after the call of the item. -/
theorem fail_stops_at_semicolon :
    nameParser.session.input.tokens = TokenStream.padded nameParser.session.input.tokens ∧
      (∀ t ∈ nameParser.session.input.tokens, t.code ≠ .ruleEnd) ∧
      nameParser.policy.settings.budget = none ∧
      ((nameParser.run [.accept 1]).value.2.fail noAlternative).value.session.input.position = 2 ∧
      ((nameParser.run [.accept 1]).value.2.fail noAlternative).value.session.input.head.code = 3 ∧
      (nameParser.run [.accept 1]).value.2.network.ReadsAfterCall
        (nameParser.run [.accept 1]).value.2.stack
        (nameParser.run [.accept 1]).value.2.stack.current 3 := by
  have htokens : nameParser.session.input.tokens =
    TokenStream.padded nameParser.session.input.tokens := by decide
  have hcodes : ∀ t ∈ nameParser.session.input.tokens, t.code ≠ .ruleEnd := by decide
  have hposition : ((nameParser.run [.accept 1]).value.2.fail
    noAlternative).value.session.input.position = 2 := by cbv
  have hhead : ((nameParser.run [.accept 1]).value.2.fail
    noAlternative).value.session.input.head.code = 3 := by cbv
  refine ⟨htokens, hcodes, rfl, hposition, hhead, ?_⟩
  obtain ⟨hstop, -, -⟩ := fail_stops_at_usable_token htokens hcodes rfl [.accept 1] noAlternative
  rw [hhead] at hstop
  exact hstop.resolve_left (by decide)

end Parser

end SyntaxRecovery
