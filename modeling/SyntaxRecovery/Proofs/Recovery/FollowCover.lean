import Mathlib
import SyntaxRecovery.Proofs.CallStack.Chain
import SyntaxRecovery.Proofs.Lookahead.OpenRules
import SyntaxRecovery.Recovery.Resynchronization

/-!
# The recovery set covers what follows

The recovery set puts together, call by call, what may come after the pending calls, each time as far
as the calling rule goes (`Site.afterCalls_ancestors`). A lookahead from the end of a rule goes through
the same calls in one search, and leaves a calling rule where that rule ends. Between two frames the
one search does what a search within the calling rule does, for no rule is barred when a frame is left
(`Network.inCaller_of_reaches`). So no token that the lookahead finds is missing from the
recovery set (`Site.mem_recoverySet_of_mem_lookahead`).
-/

set_option autoImplicit false

namespace SyntaxRecovery

open Relation

/-! ## The parts of the recovery set -/

namespace Site

variable {ω : Type} [FollowSource ω] {site : Site ω}

/-- The set collected along a chain of callers has the codes that may come after a pending call, and
what is noted there is noted for a pending call. -/
theorem afterCalls_ancestors (r : FrameRef) (codes : TokenSet) :
    let all := site.afterCalls ((site.stack.ancestors r).map Prod.snd) codes
    (∀ k, k ∈ all.value ↔ k ∈ codes ∨ ∃ f, site.stack.Pending r f ∧
      k ∈ (FollowSource.afterReturn site.grammar f.invoking).value) ∧
    ∀ note, note ∈ all.notes ↔ ∃ f, site.stack.Pending r f ∧
      note ∈ (FollowSource.afterReturn site.grammar f.invoking).notes := by
  induction r using CallStack.chain_induction (s := site.stack) generalizing codes with
  | hnone r hr =>
    rw [CallStack.ancestors_of_get?_eq_none hr]
    simp [afterCalls, CallStack.not_pending_of_get?_eq_none hr]
  | hsome r f hf ih =>
    obtain ⟨p, -, hanc⟩ := CallStack.ancestors_of_get?_eq_some hf
    rw [hanc, List.map_cons, afterCalls]
    cases hout : f.isOutermost with
    | true =>
      -- the chain goes on here if the frame has a caller, but the calls end
      simp [CallStack.not_pending_of_isOutermost hf hout]
    | false =>
      obtain ⟨hcodes, hnotes⟩ :=
        ih (codes ∪ (FollowSource.afterReturn site.grammar f.invoking).value)
      have hpending := fun g =>
        CallStack.pending_iff_of_isOutermost_eq_false (g := g) hf hout
      constructor
      · intro k
        simp only [Bool.false_eq_true, if_false, Noted.value_bind, hcodes, TokenSet.mem_union,
          hpending, or_and_right, exists_or, exists_eq_left, or_assoc]
      · intro note
        simp only [Bool.false_eq_true, if_false, Noted.notes_bind, List.mem_append, hnotes,
          hpending, or_and_right, exists_or, exists_eq_left]

omit [FollowSource ω] in
/-- A stack that is not too deep is followed to its outermost frame. -/
theorem chain_eq (hdepth : site.stack.depth ≤ CallStack.chainLimit) :
    site.chain = (site.stack.ancestors site.context).map Prod.snd := by
  have hlength := CallStack.length_ancestors_le_depth (s := site.stack) (r := site.context)
  rw [chain, List.take_of_length_le (Nat.le_trans hlength hdepth)]

theorem value_recoverySet (policy : Policy) :
    (site.recoverySet policy).value = (site.afterCalls site.chain ∅).value := by
  rw [recoverySet]
  simp only [Noted.value_bind]
  split <;> rfl

theorem mem_notes_recoverySet {policy : Policy} {note : Note}
    (h : note ∈ (site.afterCalls site.chain ∅).notes) :
    note ∈ (site.recoverySet policy).notes := by
  rw [recoverySet]
  simp only [Noted.notes_bind]
  exact List.mem_append_left _ h

end Site

/-! ## One search through all frames -/

/-- A configuration without its frame. -/
def Configuration.alone (c : Configuration) : Configuration := { c with base := none }

namespace Network

variable {net : Network} {frames : CallStack} {context : FrameRef} {c d : Configuration}
  {k : TokenCode}

/-- A configuration lies in a rule that made a pending call, and a search within that rule, from the
state in which it goes on, comes there too. -/
def InCaller (net : Network) (frames : CallStack) (context : FrameRef) (c : Configuration) : Prop :=
  ∃ f follow, frames.Pending context f ∧ net.returnState? f.invoking = some follow ∧
    c.base = f.parent ∧ net.Reaches ∅ (initial follow none) c.alone

/-- Where a frame is left, the search begins anew in the calling rule: no rule is barred there. -/
theorem inCaller_of_leave (htracked : net.Tracked c) (hreturns : c.returns = []) {f : Frame}
    {follow : StateRef} (hf : frames.Pending context f)
    (hreturn : net.returnState? f.invoking = some follow) (rule : Nat) :
    net.InCaller frames context
      { c with state := follow, base := f.parent, barred := c.barred.erase rule } := by
  have hbarred : c.barred = [] := by
    rw [htracked, hreturns]
    rfl
  refine ⟨f, follow, hf, hreturn, rfl, ?_⟩
  have hinitial : Configuration.alone
      { c with state := follow, base := f.parent, barred := c.barred.erase rule } =
        initial follow none := by
    rw [Configuration.alone, initial, hreturns, hbarred, List.erase_nil]
  rw [hinitial]

theorem InCaller.next (htracked : net.Tracked c) (hc : net.InCaller frames context c)
    (h : net.Next frames c d) : net.InCaller frames context d := by
  obtain ⟨f, follow, hf, hreturn, hbase, hreach⟩ := hc
  cases h with
  | free he hfree => exact ⟨f, follow, hf, hreturn, hbase, hreach.tail (.free he hfree)⟩
  | call he hcall hbar => exact ⟨f, follow, hf, hreturn, hbase, hreach.tail (.call he hcall hbar)⟩
  | ret hs hstop hreturns =>
    exact ⟨f, follow, hf, hreturn, hbase, hreach.tail (.ret hs hstop hreturns)⟩
  | leave hs hstop hreturns hg hin hgreturn =>
    -- the rule that is left was called in its turn
    rw [hbase] at hg
    exact inCaller_of_leave htracked hreturns (hf.of_parent hg hin) hgreturn _

/-- A search from the end of a rule goes on in the rules that made the pending calls, and nowhere
else. -/
theorem inCaller_of_reaches (hlinked : net.Linked) (hclosed : net.Closed) {stop : StateRef}
    (hstop : net.StopsAt stop) (h : net.Reaches frames (initial stop context) c) :
    c = initial stop context ∨ net.InCaller frames context c := by
  induction h with
  | refl => exact Or.inl rfl
  | tail hreach hnext ih =>
    right
    have htracked := (tracked_initial stop context).reaches hlinked hclosed hreach
    rcases ih with rfl | hcaller
    · -- from a state that ends its rule there is no way but out of the frame
      cases hnext with
      | free he _ => exact absurd hstop he.not_stopsAt
      | call he _ _ => exact absurd hstop he.not_stopsAt
      | ret _ _ hreturns => cases hreturns
      | leave _ _ hreturns hf hin hreturn =>
        exact inCaller_of_leave htracked hreturns (.call hf hin) hreturn _
    · exact hcaller.next htracked hnext

/-- What a place has to offer, apart from the markers of an end, is read on an edge. -/
theorem exists_edge_of_offers {p : Place} (hk : net.Offers frames p k) (hinput : k ≠ .endOfInput)
    (hend : k ≠ .ruleEnd) :
    ∃ e codes, net.HasEdge p.state e ∧ e.move.label? net.greatest = some codes ∧ k ∈ codes := by
  cases hk with
  | label he hcodes hmem => exact ⟨_, _, he, hcodes, hmem⟩
  | noFrame _ _ => exact absurd rfl hend
  | outermost _ _ _ => exact absurd rfl hinput
  | noReturn _ _ _ _ => exact absurd rfl hend

/-- What a lookahead from the end of a rule shows, apart from the end of the input, can be read after
one of the pending calls within the rule that made it. -/
theorem exists_pending_of_mem_lookahead (hlinked : net.Linked) (hclosed : net.Closed)
    {stop : StateRef} (hstop : net.StopsAt stop)
    (hk : k ∈ (net.lookahead frames stop context).value) (hinput : k ≠ .endOfInput)
    (hend : k ≠ .ruleEnd) :
    ∃ f follow, frames.Pending context f ∧ net.returnState? f.invoking = some follow ∧
      net.Meets ∅ (initial follow none) k := by
  obtain ⟨c, hreach, hoffer⟩ := meets_of_mem_lookahead hk
  obtain ⟨e, codes, he, hcodes, hmem⟩ := exists_edge_of_offers hoffer hinput hend
  rcases inCaller_of_reaches hlinked hclosed hstop hreach with rfl | hcaller
  · exact absurd hstop he.not_stopsAt
  · obtain ⟨f, follow, hf, hreturn, -, hlocal⟩ := hcaller
    exact ⟨f, follow, hf, hreturn, c.alone, hlocal, .label he hcodes hmem⟩

/-- A lookahead notes nothing but that it has left something out. -/
theorem notes_lookahead (net : Network) (frames : CallStack) (state : StateRef)
    (frame : FrameRef) :
    (net.lookahead frames state frame).notes = [] ∨ ∃ refused,
      (net.lookahead frames state frame).notes = [.event (.analysisLimit refused surveyLimit)] := by
  unfold lookahead
  simp only
  split
  · exact Or.inr ⟨_, rfl⟩
  · exact Or.inl rfl

theorem afterReturn_of_returnState? {invoking follow : StateRef}
    (h : net.returnState? invoking = some follow) :
    net.afterReturn invoking = net.localLookahead follow := by
  rw [afterReturn, h]

end Network

/-- Every token that may come after the rule of the context, resolved through all frames of a stack
that is not too deep, is in the recovery set, unless a search for the recovery set has left something
out. Nothing depends on which rule it is. -/
theorem Site.mem_recoverySet_of_mem_lookahead (policy : Policy) (site : Site Network)
    (hlinked : site.grammar.Linked) (hclosed : site.grammar.Closed)
    (hdepth : site.stack.depth ≤ CallStack.chainLimit) {rule : Nat} {stop : StateRef}
    (hstop : site.grammar.stop? rule = some stop)
    (hdone : ∀ state limit,
      .event (.analysisLimit state limit) ∉ (site.recoverySet policy).notes) (k : TokenCode)
    (hk : k ∈ (site.grammar.lookahead site.stack stop site.context).value)
    (hinput : k ≠ .endOfInput) (hend : k ≠ .ruleEnd) : k ∈ (site.recoverySet policy).value := by
  obtain ⟨s, hs, hends, -⟩ := hlinked.stop_of_rule rule stop hstop
  obtain ⟨g, follow, hg, hreturn, hmeets⟩ :=
    Network.exists_pending_of_mem_lookahead hlinked hclosed ⟨s, hs, hends⟩ hk hinput hend
  have hafter := Network.afterReturn_of_returnState? hreturn
  -- the search within the calling rule is one of those for the recovery set
  have hnotes : (site.grammar.localLookahead follow).notes = [] := by
    rcases Network.notes_lookahead site.grammar ∅ follow none with h | ⟨x, h⟩
    · exact h
    · refine absurd (mem_notes_recoverySet ?_) (hdone x Network.surveyLimit)
      rw [chain_eq hdepth, (afterCalls_ancestors _ _).2]
      refine ⟨g, hg, ?_⟩
      change _ ∈ (site.grammar.afterReturn g.invoking).notes
      rw [hafter, Network.localLookahead, h]
      exact List.mem_singleton_self _
  rw [value_recoverySet, chain_eq hdepth, (afterCalls_ancestors _ _).1]
  refine Or.inr ⟨g, hg, ?_⟩
  change k ∈ (site.grammar.afterReturn g.invoking).value
  rw [hafter]
  exact (Network.mem_lookahead_iff_meets hlinked hclosed hnotes).2 hmeets

/-! ## A token two callers away -/

/-- Instructions for the rules `line : item ';'`, `item : word` and `word : NAME`; the codes are 1 for
a name and 3 for `';'`. -/
def lineInstructions : List Network.Instruction :=
  [.rule, .rule, .rule, .state 0 .basic, .call (reference 0) 1 (reference 6),
    .one (reference 6) (reference 1) 3, .call (reference 2) 2 (reference 3),
    .one (reference 4) (reference 5) 1]

/-- The network of lines. -/
def lines : Network := ((Network.empty 3).buildAll lineInstructions).value.2

/-- A word that is parsed in an item of a line. -/
def wordFrames : CallStack :=
  (∅ : CallStack).applyAll [.push 0 none, .push 1 (reference 0), .push 2 (reference 2)]

/-- An error in that word. -/
def wordSite : Site Network :=
  { grammar := lines, stack := wordFrames, state := reference 4, context := reference 2
    ruleNames := #[], vocabulary := {} }

theorem lines_linked : lines.Linked := Network.linked_buildAll 3 lineInstructions (by decide)

theorem lines_closed : lines.Closed := Network.closed_of_forall_mem (by decide)

/-- After a word in an item of a line comes the `';'` of the line, and recovery stops there. -/
theorem semicolon_mem_recoverySet :
    lines.Linked ∧ lines.Closed ∧ wordFrames.depth ≤ CallStack.chainLimit ∧
      lines.stop? 2 = some (reference 5) ∧ (wordSite.recoverySet {}).notes = [] ∧
      3 ∈ (lines.lookahead wordFrames (reference 5) (reference 2)).value ∧
      3 ∈ (wordSite.recoverySet {}).value := by
  have hdepth : wordFrames.depth ≤ CallStack.chainLimit := by decide
  have hstop : lines.stop? 2 = some (reference 5) := by decide
  have hnotes : (wordSite.recoverySet {}).notes = [] := by cbv
  have hfollow : (lines.lookahead wordFrames (reference 5) (reference 2)).value.contains 3 = true :=
    by cbv
  have hdone : ∀ state limit,
      .event (.analysisLimit state limit) ∉ (wordSite.recoverySet {}).notes := by
    intro state limit
    rw [hnotes]
    exact List.not_mem_nil
  exact ⟨lines_linked, lines_closed, hdepth, hstop, hnotes, hfollow,
    wordSite.mem_recoverySet_of_mem_lookahead {} lines_linked lines_closed hdepth hstop hdone 3
      hfollow (by decide) (by decide)⟩

end SyntaxRecovery
