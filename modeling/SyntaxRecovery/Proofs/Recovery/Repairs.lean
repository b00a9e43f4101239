import SyntaxRecovery.Proofs.Recovery.Motion

/-!
# Repairs that fail

A repair that fails has found no token to read in the place of the current one, and makes none up
(`Session.of_repair_eq_error`). On a stream there always is a token to read after one that is dropped
(`Session.repair_stream_cases`), so the session is as it was. On an open stream the token after the
last one is none, and its code is `TokenCode.absent`. If that code is expected, the last token is
reported and dropped before it turns out that there is nothing to read. These are the only repairs
that fail and leave something changed (`Session.repair_error`).
-/

set_option autoImplicit false

namespace SyntaxRecovery

/-! ## The token after the current one -/

theorem Cursor.code_eq_absent {κ : Type} [Cursor κ] {input : κ} {offset : Int}
    (h : token? input offset = none) : code input offset = .absent := by
  rw [code, h]

namespace OpenStream

variable {s : OpenStream}

theorem current?_advance (s : OpenStream) : Cursor.current? s.advance = s.token? 2 := rfl

/-- Where no token follows the current one, none follows at all. -/
theorem current?_advance_advance (h : s.token? 2 = none) :
    Cursor.current? s.advance.advance = none := by
  change s.tokens[s.position + 1]? = none at h
  change s.tokens[s.position + 2]? = none
  rw [Array.getElem?_eq_none_iff] at h ⊢
  omega

end OpenStream

namespace Session

/-! ## On a stream -/

section Stream

variable {ω : Type} {s : Session TokenStream}

theorem current?_eq_some (s : Session TokenStream) : s.current? = some s.input.head :=
  TokenStream.token?_one

/-- On a stream there is a token to read after one that is dropped. -/
theorem deleteToken_stream_eq (policy : Policy) (site : Site ω) (expected : TokenSet) :
    (s.deleteToken policy site expected).value =
      if policy.settings.deletion ∧ s.input.advance.head.code ∈ expected then
        (some s.input.advance.head, s.afterDrop site expected)
      else (none, s) := by
  have hnext : s.advance.current? = some s.input.advance.head := current?_eq_some s.advance
  rw [value_deleteToken, TokenStream.code_two, hnext]

theorem eq_of_deleteToken_eq_none {policy : Policy} {site : Site ω} {expected : TokenSet}
    {u : Session TokenStream} (h : (s.deleteToken policy site expected).value = (none, u)) : u = s := by
  rw [deleteToken_stream_eq] at h
  split at h
  · cases h
  · cases h
    rfl

variable [FollowSource ω]

/-- On a stream a repair reads the token after one that is dropped; or it makes up a token or fails,
and drops none. -/
theorem repair_stream_cases (policy : Policy) (site : Site ω) (s : Session TokenStream) :
    let expected := site.expected.value
    let drops := policy.settings.deletion = true ∧ s.input.advance.head.code ∈ expected
    let lacks := (s.lacksToken policy site expected).value
    (drops ∧ (s.repair policy site).value =
      (.ok s.input.advance.head, s.afterDrop site expected)) ∨
    ¬ drops ∧
      (lacks = true ∧ (s.repair policy site).value =
          (.ok (s.madeUpToken site expected), s.reportMissing site expected) ∨
        lacks = false ∧ (s.repair policy site).value = (.error (s.mismatch expected), s)) := by
  intro expected drops lacks
  rcases repair_cases policy site s with ⟨token, u, hdelete, hrepair⟩ | ⟨u, hdelete, hrest⟩
  · rw [deleteToken_stream_eq] at hdelete
    split at hdelete
    · next hdrops =>
      cases hdelete
      exact Or.inl ⟨hdrops, hrepair⟩
    · cases hdelete
  · rw [deleteToken_stream_eq] at hdelete
    split at hdelete
    · cases hdelete
    · next hkeeps =>
      cases hdelete
      exact Or.inr ⟨hkeeps, hrest⟩

end Stream

/-! ## Repairs that fail -/

section Failed

variable {ω : Type} [FollowSource ω]

/-- Tokens may be dropped, there is none after the current one, and yet the code read there is
expected. -/
def RunsOut (policy : Policy) (site : Site ω) (s : Session OpenStream) : Prop :=
  policy.settings.deletion = true ∧ s.input.token? 2 = none ∧ .absent ∈ site.expected.value

/-- On an open stream a token is dropped in vain exactly if the session runs out. -/
theorem runsOut_iff {policy : Policy} {site : Site ω} {s : Session OpenStream} :
    s.RunsOut policy site ↔ policy.settings.deletion = true ∧
      Cursor.code s.input 2 ∈ site.expected.value ∧ s.advance.current? = none := by
  have hcurrent : s.advance.current? = s.input.token? 2 := OpenStream.current?_advance s.input
  rw [hcurrent, RunsOut]
  constructor
  · rintro ⟨hdeletion, hnone, hmem⟩
    rw [Cursor.code_eq_absent hnone]
    exact ⟨hdeletion, hmem, hnone⟩
  · rintro ⟨hdeletion, hmem, hnone⟩
    rw [Cursor.code_eq_absent hnone] at hmem
    exact ⟨hdeletion, hnone, hmem⟩

/-- A repair that fails leaves the session as it was, and its error is that the current token stands
in the place of an expected one. This holds on every stream, and on every open stream unless the
session runs out; then the current token has been reported and dropped, and the error has no token. -/
theorem repair_error (policy : Policy) (site : Site ω) :
    (∀ (s t : Session TokenStream) (e : SyntaxError), (s.repair policy site).value = (.error e, t) →
      t = s ∧ e = { cause := .mismatch site.expected.value, token := s.current? }) ∧
    ∀ (s t : Session OpenStream) (e : SyntaxError), (s.repair policy site).value = (.error e, t) →
      (¬ s.RunsOut policy site →
        t = s ∧ e = { cause := .mismatch site.expected.value, token := s.current? }) ∧
      (s.RunsOut policy site → t = s.afterDrop site site.expected.value ∧
        e = { cause := .mismatch site.expected.value, token := none }) := by
  constructor
  · intro s t e h
    obtain ⟨hdelete, rfl⟩ := of_repair_eq_error h
    cases eq_of_deleteToken_eq_none hdelete
    exact ⟨rfl, rfl⟩
  · intro s t e h
    obtain ⟨hdelete, rfl⟩ := of_repair_eq_error h
    rcases of_deleteToken_eq_none hdelete with ⟨hkeep, rfl⟩ | ⟨hdeletion, hcode, hnone, rfl⟩
    · refine ⟨fun _ => ⟨rfl, rfl⟩, ?_⟩
      intro hout
      obtain ⟨hdeletion, hcode, -⟩ := runsOut_iff.1 hout
      exact absurd ⟨hdeletion, hcode⟩ hkeep
    · have hout : s.RunsOut policy site := runsOut_iff.2 ⟨hdeletion, hcode, hnone⟩
      refine ⟨fun h => absurd hout h, ?_⟩
      intro _
      refine ⟨rfl, ?_⟩
      -- behind the end no token is current, so the error shows none
      have hcurrent : (s.afterDrop site site.expected.value).current? = none := by
        change Cursor.current? (s.afterDrop site site.expected.value).input = none
        rw [input_afterDrop]
        exact OpenStream.current?_advance_advance hout.2.1
      rw [mismatch, hcurrent]

end Failed

/-- A place in a grammar of which only the expected codes are known. -/
def expectingSite (expected : TokenSet) : Site FollowTable :=
  { grammar := { expected }, stack := ∅, state := none, context := none, ruleNames := #[]
    vocabulary := {} }

/-- A session at the first of some tokens that no end of input follows. -/
def openSession (codes : List TokenCode) : Session OpenStream :=
  { input := { tokens := (codes.map fun code => { code }).toArray } }

/-- Where a token with code 7 is expected and none comes, a repair fails and leaves all as it was. -/
theorem repair_error_at_unexpected :
    let s := openSession [4, 5]
    let site := expectingSite {7}
    let t := (s.repair {} site).value.2
    (s.repair {} site).value =
        (.error { cause := .mismatch {7}, token := some { code := 4 } }, t) ∧
      ¬ s.RunsOut {} site ∧ t = s := by
  intro s site t
  have hrepair : (s.repair {} site).value =
    (.error { cause := .mismatch {7}, token := some { code := 4 } }, t) := rfl
  have hstays : ¬ s.RunsOut {} site := by
    rintro ⟨-, hnone, -⟩
    cases hnone
  obtain ⟨hsame, -⟩ := ((repair_error {} site).2 s t _ hrepair).1 hstays
  exact ⟨hrepair, hstays, hsame⟩

/-- Where the code of no token is expected, the last token of an open stream is reported and dropped,
the input is left behind its end, and still the repair fails. -/
theorem failed_repair_drops_last_token :
    let s := openSession [4]
    let site := expectingSite {.absent}
    ∃ t, (s.repair {} site).value =
        (.error { cause := .mismatch {.absent}, token := none }, t) ∧
      s.current? = some { code := 4 } ∧ s.input.position = 0 ∧ t.input.position = 2 ∧
      s.diagnostics.size = 0 ∧ t.diagnostics.size = 1 ∧ s.tally = 0 ∧ t.tally = 1 ∧
      s.memory.recovering = false ∧ t.memory.recovering = true := by
  intro s site
  refine ⟨_, rfl, rfl, rfl, rfl, rfl, rfl, rfl, rfl, rfl, rfl⟩

end Session

end SyntaxRecovery
