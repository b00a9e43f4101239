import Mathlib
import SyntaxRecovery.Network.Construction
import SyntaxRecovery.Proofs.Lookahead.Readers
import SyntaxRecovery.Proofs.Recovery.Repairs
import SyntaxRecovery.Proofs.TokenSet.Extensionality

/-!
# When a token is made up

By the settings a token is made up if some edge of the state takes a token after which the current one
may come. The token made up is another matter: it is the least one expected, whichever edge has let it
in. Where all edges of the state take a token and lead to one state, the two agree and the current
token can come after the one made up (`Session.repair_followConsistent`). Where they lead to
different states they need not agree: the token made up may be one after which the current token cannot
come (`Session.madeUp_before_wrong_token`).
-/

set_option autoImplicit false

namespace SyntaxRecovery

open Relation

namespace Network

variable {net : Network} {frames : CallStack} {state target : StateRef} {frame : FrameRef}
  {k next : TokenCode}

/-! ## What may come after a token -/

/-- An edge of a state takes a token, and one with code `next` may come right after that. -/
def MayFollow (net : Network) (frames : CallStack) (state : StateRef) (frame : FrameRef)
    (next : TokenCode) : Prop :=
  ∃ s e, net.state? state = some s ∧ e ∈ s.edges ∧ e.move.isSilent = false ∧
    next ∈ (net.lookahead frames e.target frame).value

/-- An edge of a state takes a token with code `k`, and one with code `next` may come right after
that. -/
def ReadsBefore (net : Network) (frames : CallStack) (state : StateRef) (frame : FrameRef)
    (k next : TokenCode) : Prop :=
  ∃ s e codes, net.state? state = some s ∧ e ∈ s.edges ∧
    e.move.label? net.greatest = some codes ∧ k ∈ codes ∧
    next ∈ (net.lookahead frames e.target frame).value

/-- A state does not end its rule, and all its edges take a token and lead to one state. -/
def LeadsTo (net : Network) (state target : StateRef) : Prop :=
  ∃ s, net.state? state = some s ∧ s.isStop = false ∧
    ∀ e ∈ s.edges, e.move.isSilent = false ∧ e.target = target

theorem mem_afterEdges_iff {edges : List Edge} {codes : TokenSet} :
    k ∈ (net.afterEdges frames frame edges codes).value ↔
      k ∈ codes ∨ ∃ e ∈ edges, k ∈ (net.lookahead frames e.target frame).value := by
  induction edges generalizing codes with
  | nil => simp [afterEdges]
  | cons e rest ih =>
    simp only [afterEdges, Noted.value_bind, ih, TokenSet.mem_union, List.exists_mem_cons_iff,
      or_assoc]

/-- The codes that may come after a match are those that may come after an edge that takes a token. -/
theorem exists_mem_afterMatch_iff :
    (∃ codes, (net.afterMatch frames state frame).value = some codes ∧ next ∈ codes) ↔
      net.MayFollow frames state frame next := by
  unfold afterMatch MayFollow
  cases net.state? state with
  | none => simp
  | some s =>
    have hfilter : ∀ e, e ∈ (s.edges.filter fun e => !e.move.isSilent) ↔
        e ∈ s.edges ∧ e.move.isSilent = false := by
      intro e
      rw [List.mem_filter, Bool.not_eq_true']
    -- the edges that take no token do not count
    have hedges : (∃ t e, some s = some t ∧ e ∈ t.edges ∧ e.move.isSilent = false ∧
          next ∈ (net.lookahead frames e.target frame).value) ↔
        ∃ e ∈ (s.edges.filter fun e => !e.move.isSilent),
          next ∈ (net.lookahead frames e.target frame).value := by
      simp only [Option.some.injEq, exists_and_left, exists_eq_left', hfilter, and_assoc]
    rw [hedges]
    dsimp only
    split
    · next hnil => simp [hnil]
    · simp only [Noted.value_map, Option.some.injEq, exists_eq_left', mem_afterEdges_iff,
        TokenSet.not_mem_empty, false_or]

theorem LeadsTo.onlyReads (h : net.LeadsTo state target) : net.OnlyReads state := by
  obtain ⟨s, hs, hgo, hedges⟩ := h
  exact ⟨s, hs, hgo, fun e he => (hedges e he).1⟩

/-- A state all of whose edges take a token shows no codes but theirs. -/
theorem LeadsTo.readsBefore (hlead : net.LeadsTo state target)
    (hk : k ∈ (net.lookahead frames state frame).value)
    (hnext : net.MayFollow frames state frame next) :
    net.ReadsBefore frames state frame k next := by
  obtain ⟨e, codes, ⟨s, hs, -, he⟩, hcodes, hmem⟩ := hlead.onlyReads.mem_lookahead_iff.1 hk
  obtain ⟨t, ht, -, hedges⟩ := hlead
  rw [hs] at ht
  cases ht
  obtain ⟨t, e', ht, he', -, hafter⟩ := hnext
  rw [hs] at ht
  cases ht
  -- where the current token comes in is the one state to which the edges lead
  rw [(hedges e' he').2, ← (hedges e he).2] at hafter
  exact ⟨s, e, codes, hs, he, hcodes, hmem, hafter⟩

end Network

namespace Session

/-! ## The choice of the settings -/

section Choice

variable {κ : Type} [Cursor κ] {s : Session κ} {policy : Policy} {site : Site Network}

/-- By the settings the input lacks a token if the current one may come after one that the state
takes. -/
theorem lacksToken_iff (hdecides : policy.decides = none)
    (hinsertion : policy.settings.insertion = .followConsistent) (expected : TokenSet) :
    (s.lacksToken policy site expected).value = true ↔
      site.grammar.MayFollow site.stack site.state site.context (Cursor.code s.input 1) := by
  have hasked : ¬ (policy.decides.isNone = true ∧ policy.settings.insertion = .never) := by
    rintro ⟨-, hnever⟩
    rw [hinsertion] at hnever
    cases hnever
  have hfollow : FollowSource.afterMatch site.grammar site.stack site.state site.context =
      site.grammar.afterMatch site.stack site.state site.context := rfl
  rw [← Network.exists_mem_afterMatch_iff, lacksToken, if_neg hasked, hdecides, hfollow]
  simp only [Noted.value_bind]
  cases (site.grammar.afterMatch site.stack site.state site.context).value with
  | none => simp
  | some codes => simp

omit [Cursor κ] in
/-- The least code expected, or that of no token where none is expected. -/
theorem min?_getD_cases (expected : TokenSet) :
    (expected.min?.getD .absent ∈ expected ∧ ∀ c ∈ expected, expected.min?.getD .absent ≤ c) ∨
      expected = ∅ ∧ expected.min?.getD .absent = .absent := by
  cases hmin : expected.min? with
  | none => exact Or.inr ⟨TokenSet.min?_eq_none_iff.1 hmin, rfl⟩
  | some code => exact Or.inl (TokenSet.le_of_min?_eq_some hmin)

/-- Where no token is read in place of one dropped, the settings have a token made up exactly if the
current token may come after one that the state takes. The code made up is the least one expected, or
that of no token if none is expected. If all edges of the state take a token and lead to one state,
and some code is expected, then the state takes the token made up, and the current one may come right
after it. -/
theorem repair_followConsistent {u : Session κ} (hdecides : policy.decides = none)
    (hinsertion : policy.settings.insertion = .followConsistent)
    (hkept : (s.deleteToken policy site site.expected.value).value = (none, u)) :
    let next := Cursor.code u.input 1
    let expected := site.expected.value
    ((∃ token t, (s.repair policy site).value = (.ok token, t)) ↔
      site.grammar.MayFollow site.stack site.state site.context next) ∧
    ∀ token t, (s.repair policy site).value = (.ok token, t) →
      t.input = u.input ∧
      ((token.code ∈ expected ∧ ∀ c ∈ expected, token.code ≤ c) ∨
        expected = ∅ ∧ token.code = .absent) ∧
      ∀ target, site.grammar.LeadsTo site.state target → expected ≠ ∅ →
        site.grammar.ReadsBefore site.stack site.state site.context token.code next := by
  intro next expected
  have hlacks : (u.lacksToken policy site expected).value = true ↔
      site.grammar.MayFollow site.stack site.state site.context next :=
    lacksToken_iff hdecides hinsertion expected
  rcases repair_cases policy site s with ⟨token, v, hread, -⟩ | ⟨v, hdelete, hrest⟩
  · rw [hkept] at hread
    cases hread
  · rw [hkept] at hdelete
    cases hdelete
    rcases hrest with ⟨hyes, hrepair⟩ | ⟨hno, hrepair⟩
    · have hfollow := hlacks.1 hyes
      refine ⟨iff_of_true ⟨_, _, hrepair⟩ hfollow, ?_⟩
      intro token t h
      rw [hrepair] at h
      cases h
      have hcode : (u.madeUpToken site expected).code = expected.min?.getD .absent := rfl
      refine ⟨input_reportMissing site expected, hcode ▸ min?_getD_cases expected, ?_⟩
      intro target hlead hne
      -- only where something is expected is the code of the token one of the grammar's
      have hmem : (u.madeUpToken site expected).code ∈ expected := by
        rcases min?_getD_cases expected with ⟨hmem, -⟩ | ⟨hempty, -⟩
        · exact hmem
        · exact absurd hempty hne
      exact hlead.readsBefore hmem hfollow
    · constructor
      · refine iff_of_false ?_ ?_
        · rintro ⟨token, t, h⟩
          rw [hrepair] at h
          cases h
        · intro hfollow
          rw [hlacks.2 hfollow] at hno
          cases hno
      · intro token t h
        rw [hrepair] at h
        cases h

end Choice

/-! ## Two ways on from a state -/

/-- Instructions for a rule of two tokens: one with code 1 and one with code 5, or one with code 2 and
one with code 6. -/
def pairInstructions : List Network.Instruction :=
  [.rule, .state 0 .basic, .state 0 .basic, .one (reference 0) (reference 2) 1,
    .one (reference 0) (reference 3) 2, .one (reference 2) (reference 1) 5,
    .one (reference 3) (reference 1) 6]

/-- The network of the pairs. -/
def pairs : Network := ((Network.empty 6).buildAll pairInstructions).value.2

/-- A state of the rule, which parsing began with. -/
def pairSite (state : StateRef) : Site Network :=
  { grammar := pairs, stack := (∅ : CallStack).applyAll [.push 0 none], state, context := reference 0
    ruleNames := #[], vocabulary := {} }

/-- The user wants tokens made up. -/
def insertingPolicy : Policy := { settings := { insertion := .followConsistent } }

/-- A session at the first token of a stream. -/
def streamSession (codes : List TokenCode) : Session TokenStream := { input := .ofCodes codes }

/-- The state behind the token with code 1 takes the one with code 5, which is made up before the end
of the input. -/
theorem repair_followConsistent_at_end :
    let s := streamSession []
    let site := pairSite (reference 2)
    insertingPolicy.decides = none ∧ insertingPolicy.settings.insertion = .followConsistent ∧
      (s.deleteToken insertingPolicy site site.expected.value).value = (none, s) ∧
      pairs.LeadsTo (reference 2) (reference 1) ∧ site.expected.value ≠ ∅ ∧
      ∃ token t, (s.repair insertingPolicy site).value = (.ok token, t) ∧ token.code = 5 ∧
        pairs.ReadsBefore site.stack (reference 2) (reference 0) 5 .endOfInput := by
  intro s site
  have hafter : site.expected.value.contains .endOfInput = false := by cbv
  have hsome : site.expected.value.contains 5 = true := by cbv
  have hcode : (s.repair insertingPolicy site).value.1.toOption.map Token.code = some 5 := by cbv
  have hkept : (s.deleteToken insertingPolicy site site.expected.value).value = (none, s) := by
    rw [value_deleteToken, if_neg]
    rintro ⟨-, hmem⟩
    exact absurd hmem (Bool.eq_false_iff.1 hafter)
  have hlead : pairs.LeadsTo (reference 2) (reference 1) := ⟨_, rfl, rfl, by decide⟩
  have hne : site.expected.value ≠ ∅ := by
    intro hempty
    rw [hempty] at hsome
    exact TokenSet.not_mem_empty hsome
  obtain ⟨result, t, hrepair⟩ : ∃ result t, (s.repair insertingPolicy site).value = (result, t) :=
    ⟨_, _, rfl⟩
  rw [hrepair] at hcode
  cases result with
  | error e => cases hcode
  | ok token =>
    have hcode : token.code = 5 := Option.some.inj hcode
    obtain ⟨-, hmade⟩ := repair_followConsistent (s := s) rfl rfl hkept
    obtain ⟨-, -, hbefore⟩ := hmade token t hrepair
    have hbefore := hbefore (reference 1) hlead hne
    rw [hcode] at hbefore
    exact ⟨rfl, rfl, hkept, hlead, hne, token, t, hrepair, hcode, hbefore⟩

/-- At the beginning of a pair, and before a token with code 6, the one with code 1 is made up, though
only one with code 5 can come after it. -/
theorem madeUp_before_wrong_token :
    let s := streamSession [6]
    let site := pairSite (reference 0)
    (s.deleteToken insertingPolicy site site.expected.value).value.1 = none ∧
      (s.repair insertingPolicy site).value.1.toOption.map Token.code = some 1 ∧
      Cursor.code (s.repair insertingPolicy site).value.2.input 1 = 6 ∧
      ¬ pairs.ReadsBefore site.stack (reference 0) (reference 0) 1 6 := by
  intro s site
  have hkept : (s.deleteToken insertingPolicy site site.expected.value).value.1 = none := by cbv
  have hcode : (s.repair insertingPolicy site).value.1.toOption.map Token.code = some 1 := by cbv
  have hnext : Cursor.code (s.repair insertingPolicy site).value.2.input 1 = 6 := by cbv
  have hfive : (pairs.lookahead site.stack (reference 2) (reference 0)).value.contains 6 = false := by
    cbv
  refine ⟨hkept, hcode, hnext, ?_⟩
  rintro ⟨t, e, codes, ht, he, hcodes, hone, hsix⟩
  cases ht
  rcases List.mem_cons.1 he with rfl | he
  · exact absurd hsix (Bool.eq_false_iff.1 hfive)
  · cases List.mem_singleton.1 he
    cases hcodes
    exact absurd hone (by decide)

end Session

end SyntaxRecovery
