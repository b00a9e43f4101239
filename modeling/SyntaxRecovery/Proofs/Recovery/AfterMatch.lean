import Mathlib
import SyntaxRecovery.Proofs.Lookahead.Exactness
import SyntaxRecovery.Proofs.Recovery.Insertion

/-!
# What may come after a match

What may come after the token expected at a state is found from the edges of that state that take a
token. It is found exactly for these edges, and not known if there are none
(`Network.afterMatch_covers_edges`). Tokens that can be read only after a step that takes none are
expected at the state as well, but what may come after them is not asked. So a state all of whose edges
take a token has a complete answer. Where a state has edges of both kinds, as one at which a repetition
goes on or ends, the answer is given all the same, and codes are missing from it
(`Network.afterMatch_misses_end`).
-/

set_option autoImplicit false

namespace SyntaxRecovery

open Relation

namespace Network

variable {net : Network} {frames : CallStack} {state : StateRef} {frame : FrameRef} {p : Place}
  {k next : TokenCode}

/-! ## Two tokens in a row -/

/-- A token with code `k` can be read next from a place, after steps that take none, and one with code
`next` right after it. -/
def AdmitsPair (net : Network) (frames : CallStack) (p : Place) (k next : TokenCode) : Prop :=
  ∃ q e codes, net.Walk frames p q ∧ net.HasEdge q.state e ∧
    e.move.label? net.greatest = some codes ∧ k ∈ codes ∧
    net.Admits frames ⟨e.target, q.returns, q.base⟩ next

/-- From a state that only reads, the first of two tokens is read on an edge of its own. -/
theorem OnlyReads.exists_edge_of_admitsPair (h : net.OnlyReads p.state)
    (hpair : net.AdmitsPair frames p k next) :
    ∃ e, net.HasEdge p.state e ∧ e.move.isSilent = false ∧
      net.Admits frames ⟨e.target, p.returns, p.base⟩ next := by
  obtain ⟨q, e, codes, hwalk, he, hcodes, -, hnext⟩ := hpair
  rw [h.eq_of_walk hwalk] at he hnext
  exact ⟨e, he, Move.isSilent_eq_false_iff.2 ⟨codes, hcodes⟩, hnext⟩

/-! ## The answer and its notes -/

theorem afterMatch_eq_none_iff :
    (net.afterMatch frames state frame).value = none ↔
      ∀ s, net.state? state = some s → ∀ e ∈ s.edges, e.move.isSilent = true := by
  unfold afterMatch
  cases net.state? state with
  | none => simp
  | some s =>
    dsimp only
    split
    · next hnil =>
      rw [List.filter_eq_nil_iff] at hnil
      simpa using hnil
    · next hsome =>
      -- some edge is left by the filter, and it takes a token
      obtain ⟨e, he⟩ := List.exists_mem_of_ne_nil _ hsome
      rw [List.mem_filter, Bool.not_eq_true'] at he
      refine iff_of_false (Option.some_ne_none _) fun h => ?_
      rw [h s rfl e he.1] at he
      exact Bool.false_ne_true he.2.symm

theorem notes_afterEdges (edges : List Edge) (codes : TokenSet) :
    (net.afterEdges frames frame edges codes).notes =
      edges.flatMap fun e => (net.lookahead frames e.target frame).notes := by
  induction edges generalizing codes with
  | nil => rfl
  | cons e rest ih =>
    rw [afterEdges, Noted.notes_bind, ih]
    rfl

/-- An answer that notes nothing has left nothing out after any edge that takes a token. -/
theorem notes_lookahead_of_notes_afterMatch (hdone : (net.afterMatch frames state frame).notes = [])
    {s : State} (hs : net.state? state = some s) {e : Edge} (he : e ∈ s.edges)
    (hreads : e.move.isSilent = false) : (net.lookahead frames e.target frame).notes = [] := by
  have hmem : e ∈ s.edges.filter fun e => !e.move.isSilent := by
    rw [List.mem_filter, hreads]
    exact ⟨he, rfl⟩
  unfold afterMatch at hdone
  rw [hs] at hdone
  dsimp only at hdone
  split at hdone
  · next hnil =>
    rw [hnil] at hmem
    cases hmem
  · rw [Noted.notes_map, notes_afterEdges, List.flatMap_eq_nil_iff] at hdone
    exact hdone e hmem

/-! ## What the answer covers -/

/-- In a linked and closed network whose rules do not begin with themselves past nothing, a lookahead
that leaves nothing out shows every code that can come. -/
theorem mem_lookahead_of_admits (hlinked : net.Linked) (hclosed : net.Closed)
    (hrec : ∀ rule, net.Nullable rule → ¬ net.LeftRecursive rule)
    (hdone : (net.lookahead frames state frame).notes = [])
    (h : net.Admits frames ⟨state, [], frame⟩ k) :
    k ∈ (net.lookahead frames state frame).value := by
  obtain ⟨q, hwalk, hk⟩ := h
  rw [mem_lookahead_iff_meets hlinked hclosed hdone]
  -- the search does not take the steps of the walk, but it follows what the walk comes to rule by rule
  exact visits_self.meets_of_found hlinked hclosed rfl (tracked_initial state frame) hrec
    (found_of_walk hwalk hk)

/-- What may come after a token expected at a state is not known if no edge of the state takes one.
Otherwise it is what can come after one of these edges, neither more nor less. If all edges of the state
take a token, this covers every pair of tokens that can be read from there. -/
theorem afterMatch_covers_edges (hlinked : net.Linked) (hclosed : net.Closed)
    (hrec : ∀ rule, net.Nullable rule → ¬ net.LeftRecursive rule) (frames : CallStack)
    (state : StateRef) (frame : FrameRef)
    (hdone : (net.afterMatch frames state frame).notes = []) :
    ((net.afterMatch frames state frame).value = none ↔
      ∀ s, net.state? state = some s → ∀ e ∈ s.edges, e.move.isSilent = true) ∧
    ∀ codes, (net.afterMatch frames state frame).value = some codes →
      (∀ next, next ∈ codes ↔ ∃ s e, net.state? state = some s ∧ e ∈ s.edges ∧
        e.move.isSilent = false ∧ net.Admits frames ⟨e.target, [], frame⟩ next) ∧
      (net.OnlyReads state → ∀ k next, net.AdmitsPair frames ⟨state, [], frame⟩ k next →
        next ∈ codes) := by
  refine ⟨afterMatch_eq_none_iff, ?_⟩
  intro codes hcodes
  have hmem : ∀ next, next ∈ codes ↔ ∃ s e, net.state? state = some s ∧ e ∈ s.edges ∧
      e.move.isSilent = false ∧ net.Admits frames ⟨e.target, [], frame⟩ next := by
    intro next
    have hfollow : next ∈ codes ↔ net.MayFollow frames state frame next := by
      rw [← exists_mem_afterMatch_iff, hcodes]
      simp
    rw [hfollow]
    -- it remains to read each lookahead as what can come
    constructor
    · rintro ⟨s, e, hs, he, hreads, hnext⟩
      exact ⟨s, e, hs, he, hreads, admits_of_mem_lookahead hnext⟩
    · rintro ⟨s, e, hs, he, hreads, hnext⟩
      have hnotes := notes_lookahead_of_notes_afterMatch hdone hs he hreads
      exact ⟨s, e, hs, he, hreads, mem_lookahead_of_admits hlinked hclosed hrec hnotes hnext⟩
  refine ⟨hmem, ?_⟩
  intro honly k next hpair
  obtain ⟨e, ⟨s, hs, -, he⟩, hreads, hnext⟩ := honly.exists_edge_of_admitsPair hpair
  exact (hmem next).2 ⟨s, e, hs, he, hreads, hnext⟩

/-- After the name that ends a sum within a sum, `'+'` can come, and the answer for the state before the
name has it. -/
theorem afterMatch_covers_name_of_sum :
    sums.Linked ∧ sums.Closed ∧ (∀ rule, sums.Nullable rule → ¬ sums.LeftRecursive rule) ∧
      (sums.afterMatch sumFrames (reference 4) (reference 1)).notes = [] ∧
      sums.OnlyReads (reference 4) ∧
      sums.AdmitsPair sumFrames ⟨reference 4, [], reference 1⟩ 2 1 ∧
      ∃ codes, (sums.afterMatch sumFrames (reference 4) (reference 1)).value = some codes ∧
        1 ∈ codes := by
  have hrec : ∀ rule, sums.Nullable rule → ¬ sums.LeftRecursive rule :=
    fun rule h => absurd h (not_nullable_sums rule)
  have hdone : (sums.afterMatch sumFrames (reference 4) (reference 1)).notes = [] := by cbv
  have honly : sums.OnlyReads (reference 4) := ⟨_, rfl, rfl, by decide⟩
  have hplus : (sums.lookahead sumFrames (reference 1) (reference 1)).value.contains 1 = true := by
    cbv
  have hpair : sums.AdmitsPair sumFrames ⟨reference 4, [], reference 1⟩ 2 1 :=
    ⟨_, { target := reference 1, move := .one 2 }, {2}, ReflTransGen.refl,
      ⟨_, rfl, rfl, by decide⟩, rfl, by decide, admits_of_mem_lookahead hplus⟩
  have hcovers := afterMatch_covers_edges sums_linked sums_closed hrec sumFrames (reference 4)
    (reference 1) hdone
  cases hcodes : (sums.afterMatch sumFrames (reference 4) (reference 1)).value with
  | none =>
    have hsilent := hcovers.1.1 hcodes _ rfl { target := reference 1, move := .one 2 } (by decide)
    cases hsilent
  | some codes =>
    exact ⟨sums_linked, sums_closed, hrec, hdone, honly, hpair, codes, rfl,
      (hcovers.2 codes hcodes).2 honly 2 1 hpair⟩

/-! ## A repetition -/

/-- Instructions for the rule `names : name* ';'`; the codes are 1 for a name and 2 for `';'`. -/
def namesInstructions : List Instruction :=
  [.rule, .state 0 .basic, .one (reference 0) (reference 0) 1, .epsilon (reference 0) (reference 2),
    .one (reference 2) (reference 1) 2]

/-- The network of names. -/
def names : Network := ((empty 2).buildAll namesInstructions).value.2

/-- Parsing began with the names. -/
def namesFrames : CallStack := (∅ : CallStack).applyAll [.push 0 none]

/-- Where a name or `';'` can come, the end of the input can come after `';'`. But the answer for that
state is known and has only what can come after a name. -/
theorem afterMatch_misses_end :
    names.Linked ∧ names.Closed ∧ (∀ rule, names.Nullable rule → ¬ names.LeftRecursive rule) ∧
      (names.afterMatch namesFrames (reference 0) (reference 0)).notes = [] ∧
      names.AdmitsPair namesFrames ⟨reference 0, [], reference 0⟩ 2 .endOfInput ∧
      ∃ codes, (names.afterMatch namesFrames (reference 0) (reference 0)).value = some codes ∧
        .endOfInput ∉ codes := by
  have htraps : names.traps [reference 0, reference 2] = true := by decide
  have hnull := not_nullable_of_starts htraps (by decide)
  have hend : (names.lookahead namesFrames (reference 1) (reference 0)).value.contains
      .endOfInput = true := by cbv
  have hanswer : (names.afterMatch namesFrames (reference 0) (reference 0)).value.map
      (fun codes => codes.contains .endOfInput) = some false := by cbv
  -- the edge that leaves the repetition takes no token, and so the answer passes it over
  have hstep : names.Step namesFrames ⟨reference 0, [], reference 0⟩
      ⟨reference 2, [], reference 0⟩ :=
    .free (e := { target := reference 2, move := .epsilon }) ⟨_, rfl, rfl, by decide⟩ rfl
  refine ⟨linked_buildAll 2 namesInstructions (by decide), closed_of_forall_mem (by decide),
    fun rule h => absurd h (hnull rule), by cbv, ?_, ?_⟩
  · exact ⟨_, { target := reference 1, move := .one 2 }, {2}, ReflTransGen.single hstep,
      ⟨_, rfl, rfl, by decide⟩, rfl, by decide, admits_of_mem_lookahead hend⟩
  · obtain ⟨codes, hcodes, hmiss⟩ := Option.map_eq_some_iff.1 hanswer
    exact ⟨codes, hcodes, Bool.eq_false_iff.1 hmiss⟩

end Network

end SyntaxRecovery
