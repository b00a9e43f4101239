import Mathlib
import SyntaxRecovery.Proofs.Recovery.Deletion

/-!
# Reading where one token can come

A parser that is asked for a token gives out the current one, the one after a token that it drops, or
one that it makes up (`Parser.accept_stream_cases`). Only for the first does it look at the code asked
for; the other two come from what is expected at its state. Where the state has one edge, which takes a
token with one code, that code alone is expected (`Network.value_lookahead_of_only_edge`). So a parser
asked for it gives out a token with that code or none, and if none, it is left as it was
(`Parser.accept_at_only_edge`).
-/

set_option autoImplicit false

namespace SyntaxRecovery

namespace Network

variable {net : Network} {x target : StateRef} {code : TokenCode} {s : State}

theorem onlyReads_of_only_edge (hs : net.state? x = some s) (hgo : s.isStop = false)
    (hedges : s.edges = [{ target, move := .one code }]) : net.OnlyReads x := by
  refine ⟨s, hs, hgo, ?_⟩
  intro e he
  rw [hedges, List.mem_singleton] at he
  rw [he]
  rfl

theorem reads_iff_of_only_edge (hs : net.state? x = some s) (hgo : s.isStop = false)
    (hedges : s.edges = [{ target, move := .one code }]) {k : TokenCode} :
    net.Reads x k ↔ k = code := by
  constructor
  · rintro ⟨e, codes, ⟨t, ht, -, he⟩, hcodes, hk⟩
    rw [hs] at ht
    cases ht
    rw [hedges, List.mem_singleton] at he
    subst he
    cases hcodes
    exact TokenSet.mem_singleton.1 hk
  · rintro rfl
    have hedge : net.HasEdge x { target, move := .one k } :=
      ⟨s, hs, hgo, hedges ▸ List.mem_singleton_self _⟩
    exact ⟨_, {k}, hedge, rfl, TokenSet.mem_singleton.2 rfl⟩

/-- Where a state has one edge, which takes a token with one code, that code alone can come. -/
theorem value_lookahead_of_only_edge (hs : net.state? x = some s) (hgo : s.isStop = false)
    (hedges : s.edges = [{ target, move := .one code }]) (frames : CallStack) (frame : FrameRef) :
    (net.lookahead frames x frame).value = {code} := by
  apply TokenSet.eq_of_mem_iff
  intro k
  rw [(onlyReads_of_only_edge hs hgo hedges).mem_lookahead_iff,
    reads_iff_of_only_edge hs hgo hedges, TokenSet.mem_singleton]

end Network

/-- The least of one code is that code. -/
theorem TokenSet.min?_singleton (code : TokenCode) : ({code} : TokenSet).min? = some code := by
  cases hmin : ({code} : TokenSet).min? with
  | none =>
    have hmem : code ∈ ({code} : TokenSet) := TokenSet.mem_singleton.2 rfl
    rw [TokenSet.min?_eq_none_iff.1 hmin] at hmem
    exact absurd hmem TokenSet.not_mem_empty
  | some d => rw [TokenSet.mem_singleton.1 (TokenSet.le_of_min?_eq_some hmin).1]

namespace Parser

variable {p : Parser TokenStream} {code : TokenCode}

/-- What a parser that reads a stream can do when it is asked for a token: read it, drop the current
one and read the next, make one up, or fail and stay as it is. -/
theorem accept_stream_cases (p : Parser TokenStream) (code : TokenCode) :
    let expected := p.site.expected.value
    let drops := p.policy.settings.deletion = true ∧ p.session.input.advance.head.code ∈ expected
    let lacks := (p.session.lacksToken p.policy p.site expected).value
    (p.session.input.head.code = code ∧ (p.accept code).value =
      (.ok p.session.input.head, { p with session := p.session.endRecovery.advance })) ∨
    p.session.input.head.code ≠ code ∧
      (drops ∧ (p.accept code).value = (.ok p.session.input.advance.head,
          { p with session := p.session.afterDrop p.site expected }) ∨
        ¬ drops ∧ lacks = true ∧ (p.accept code).value =
          (.ok (p.session.madeUpToken p.site expected),
            { p with session := p.session.reportMissing p.site expected }) ∨
        ¬ drops ∧ lacks = false ∧ (p.accept code).value =
          (.error (p.session.mismatch expected), p)) := by
  intro expected drops lacks
  have hcurrent : p.session.current? = some p.session.input.head := Session.current?_eq_some _
  have hany : p.session.current?.any (·.code = code) = decide (p.session.input.head.code = code) := by
    rw [hcurrent]
    rfl
  by_cases hcode : p.session.input.head.code = code
  · left
    rw [decide_eq_true hcode] at hany
    obtain ⟨token, htoken, haccept⟩ := accept_of_any hany
    rw [hcurrent] at htoken
    cases htoken
    exact ⟨hcode, haccept⟩
  · right
    rw [decide_eq_false hcode] at hany
    have haccept := accept_of_not_any hany
    rcases Session.repair_stream_cases p.policy p.site p.session with
      ⟨hdrops, hrepair⟩ | ⟨hkeeps, ⟨hlacks, hrepair⟩ | ⟨hlacks, hrepair⟩⟩
    · rw [hrepair] at haccept
      exact ⟨hcode, Or.inl ⟨hdrops, haccept⟩⟩
    · rw [hrepair] at haccept
      exact ⟨hcode, Or.inr (Or.inl ⟨hkeeps, hlacks, haccept⟩)⟩
    · rw [hrepair] at haccept
      exact ⟨hcode, Or.inr (Or.inr ⟨hkeeps, hlacks, haccept⟩)⟩

/-- Where the state of a parser has one edge, which takes a token with one code, and the parser is asked
for that code, it gives out a token with it if and only if the current token has it, or the next one and
the current one may be dropped, or a token is found lacking. Every token given out has that code. If
none is, the error names the current token and the one code expected, and nothing else has changed. -/
theorem accept_at_only_edge {p : Parser TokenStream} {s : State} {target : StateRef} {code : TokenCode}
    (hs : p.network.state? p.state = some s) (hgo : s.isStop = false)
    (hedges : s.edges = [{ target, move := .one code }]) :
    p.site.expected.value = {code} ∧
    ((∃ token q, (p.accept code).value = (.ok token, q)) ↔
      p.session.input.head.code = code ∨
      (p.policy.settings.deletion = true ∧ p.session.input.advance.head.code = code) ∨
      (p.session.lacksToken p.policy p.site {code}).value = true) ∧
    (∀ token q, (p.accept code).value = (.ok token, q) → token.code = code) ∧
    ∀ e q, (p.accept code).value = (.error e, q) →
      e = { cause := .mismatch {code}, token := some p.session.input.head } ∧ q = p := by
  have hexpected : p.site.expected.value = {code} :=
    Network.value_lookahead_of_only_edge hs hgo hedges p.stack p.stack.current
  have hcases := accept_stream_cases p code
  simp only [hexpected, TokenSet.mem_singleton] at hcases
  -- the code asked for plays no part in making up a token
  have hmade : (p.session.madeUpToken p.site {code}).code = code := by
    change ({code} : TokenSet).min?.getD .absent = code
    rw [TokenSet.min?_singleton]
    rfl
  have hmismatch : p.session.mismatch {code} =
      { cause := .mismatch {code}, token := some p.session.input.head } := by
    rw [Session.mismatch, Session.current?_eq_some]
  refine ⟨hexpected, ?_⟩
  rcases hcases with ⟨hcode, haccept⟩ | ⟨hcode, ⟨hdrops, haccept⟩ | ⟨-, hlacks, haccept⟩ |
    ⟨hdrops, hlacks, haccept⟩⟩
  · -- the current token is the one asked for
    rw [haccept]
    refine ⟨iff_of_true ⟨_, _, rfl⟩ (Or.inl hcode), ?_, ?_⟩
    · rintro token q h
      cases h
      exact hcode
    · rintro e q h
      cases h
  · -- the next token is read for being expected, and one code alone is
    rw [haccept]
    refine ⟨iff_of_true ⟨_, _, rfl⟩ (Or.inr (Or.inl hdrops)), ?_, ?_⟩
    · rintro token q h
      cases h
      exact hdrops.2
    · rintro e q h
      cases h
  · -- the token made up has the least code expected, which is the only one
    rw [haccept]
    refine ⟨iff_of_true ⟨_, _, rfl⟩ (Or.inr (Or.inr hlacks)), ?_, ?_⟩
    · rintro token q h
      cases h
      exact hmade
    · rintro e q h
      cases h
  · -- nothing is to be had, and nothing has been done
    rw [haccept]
    refine ⟨iff_of_false ?_ ?_, ?_, ?_⟩
    · rintro ⟨token, q, h⟩
      cases h
    · rintro (h | h | h)
      · exact hcode h
      · exact hdrops h
      · rw [hlacks] at h
        cases h
    · rintro token q h
      cases h
    · rintro e q h
      cases h
      exact ⟨hmismatch, rfl⟩

/-- In an item a token with code 1 comes. Asked for it, a parser drops the one before it; and where there
is only a token with code 3, it fails and stays as it is. -/
theorem accept_at_only_edge_of_item :
    let p := { itemParser with session := Session.streamSession [3] }
    ∃ s, itemParser.network.state? itemParser.state = some s ∧ s.isStop = false ∧
      s.edges = [{ target := reference 3, move := .one 1 }] ∧
      itemParser.session.input.head.code = 3 ∧
      (∃ token q, (itemParser.accept 1).value = (.ok token, q) ∧ token.code = 1) ∧
      ∃ e q, (p.accept 1).value = (.error e, q) ∧ q = p ∧
        e = { cause := .mismatch {1}, token := some p.session.input.head } := by
  intro p
  obtain ⟨s, hs, hgo, hedges⟩ : ∃ s, itemParser.network.state? itemParser.state = some s ∧
      s.isStop = false ∧ s.edges = [{ target := reference 3, move := .one 1 }] :=
    ⟨_, rfl, rfl, rfl⟩
  obtain ⟨-, hreads, hcode, -⟩ := accept_at_only_edge hs hgo hedges
  obtain ⟨token, q, haccept⟩ := hreads.2 (Or.inr (Or.inl ⟨rfl, by decide⟩))
  obtain ⟨-, -, -, herror⟩ := accept_at_only_edge (p := p) hs hgo hedges
  have hfails : (p.accept 1).value.1.toOption = none := by cbv
  refine ⟨s, hs, hgo, hedges, by decide, ⟨token, q, haccept, hcode token q haccept⟩, ?_⟩
  cases hresult : (p.accept 1).value with
  | mk result q' =>
    cases result with
    | ok token' =>
      rw [hresult] at hfails
      cases hfails
    | error e =>
      obtain ⟨he, hq⟩ := herror e q' hresult
      exact ⟨e, q', rfl, hq, he⟩

end Parser

end SyntaxRecovery
