import Mathlib
import SyntaxRecovery.Proofs.Recovery.Insertion
import SyntaxRecovery.Proofs.Recovery.Landing

/-!
# Which token is dropped

A repair drops the current token and reads the one after it if that one is expected. On a stream the
token after the current one is the next in the input, and the stream is left behind it or, if it is the
last, at it. But behind the last token that one is read again. If the end of the input is expected, a
repair at the end of the input reports it as one too many and then reads it, and nothing is dropped.
This is the only case in which another token is read than the one after the one reported
(`Session.deletion_reads_next`), and it is met with wherever a rule may end before the end of the input
(`Session.deletion_at_end`).
-/

set_option autoImplicit false

namespace SyntaxRecovery

namespace TokenStream

variable {s : TokenStream}

/-- At its last token a stream stays where it is. -/
theorem advance_eq_self (hlast : s.position = s.lastPosition) : s.advance = s := by
  have hlt := s.position_lt
  rw [lastPosition] at hlast
  rw [advance, dif_neg (by omega)]

/-- Where a stream stands after an advance is the next place, unless it is at the last one. -/
theorem advance_cases (s : TokenStream) :
    (s.position < s.lastPosition ∧ s.tokens[s.position + 1]? = some s.advance.head) ∨
      s.position = s.lastPosition ∧ s.advance = s := by
  rcases Nat.lt_or_eq_of_le (position_le_lastPosition (s := s)) with hlt | hlast
  · left
    refine ⟨hlt, ?_⟩
    rw [← position_advance hlt.ne, ← onward_advance.tokens_eq]
    exact getElem?_position
  · exact Or.inr ⟨hlast, advance_eq_self hlast⟩

end TokenStream

namespace Session

variable {ω : Type} {s t : Session TokenStream} {token : Token} {policy : Policy} {site : Site ω}
  {expected : TokenSet}

/-- A report of the current token is made unless another error has been reported and no token has
matched since. -/
theorem diagnostics_afterDrop :
    (s.afterDrop site expected).diagnostics =
      if s.memory.recovering then s.diagnostics
      else s.diagnostics.push (.ofReport (Token.position (some s.input.head))
        (extraneousText site.vocabulary (some s.input.head) expected) none) := by
  change (s.reportExtraneous site expected).diagnostics = _
  rw [reportExtraneous, announce, current?_eq_some]
  split <;> rfl

/-- The stream is left behind the token after the one dropped, unless that was the last one. -/
theorem input_afterDrop_cases (hended : s.input.Ended) (site : Site ω) :
    (s.afterDrop site expected).input.tokens = s.input.tokens ∧
      ((s.input.position < s.input.lastPosition ∧
          s.input.tokens[s.input.position + 1]? = some s.input.advance.head ∧
          (s.afterDrop site expected).input.position =
            min (s.input.position + 2) s.input.lastPosition) ∨
        (s.input.position = s.input.lastPosition ∧ s.input.head.code = .endOfInput ∧
          s.input.advance.head = s.input.head ∧ (s.afterDrop site expected).input = s.input)) := by
  have hinput : (s.afterDrop site expected).input = s.input.advance.advance := input_afterDrop site _
  have honward : s.input.Onward s.input.advance.advance :=
    TokenStream.onward_advance.trans TokenStream.onward_advance
  rw [hinput]
  refine ⟨honward.tokens_eq, ?_⟩
  rcases s.input.advance_cases with ⟨hlt, hnext⟩ | ⟨hlast, hstay⟩
  · left
    refine ⟨hlt, hnext, ?_⟩
    rw [TokenStream.position_advance_eq_min, TokenStream.onward_advance.lastPosition_eq,
      TokenStream.position_advance hlt.ne]
  · right
    -- neither of the two advances moves the stream
    rw [hstay, hstay]
    exact ⟨hlast, hended.code_head hlast, rfl, rfl⟩

/-- A repair that drops the current token reports that token and reads one that is expected. It is the
next in the input, and the stream is left behind it or, if it is the last, at it. Only at the last
place, where the current token is the end of the input, is that token reported and read itself, and the
stream left where it is. -/
theorem deletion_reads_next [FollowSource ω] (hended : s.input.Ended)
    (hdrop : (s.deleteToken policy site site.expected.value).value = (some token, t)) :
    (s.repair policy site).value = (.ok token, t) ∧ token.code ∈ site.expected.value ∧
      t.diagnostics = (if s.memory.recovering then s.diagnostics
        else s.diagnostics.push (.ofReport (Token.position (some s.input.head))
          (extraneousText site.vocabulary (some s.input.head) site.expected.value) none)) ∧
      t.input.tokens = s.input.tokens ∧
      ((s.input.position < s.input.lastPosition ∧
          s.input.tokens[s.input.position + 1]? = some token ∧
          t.input.position = min (s.input.position + 2) s.input.lastPosition) ∨
        (s.input.position = s.input.lastPosition ∧ s.input.head.code = .endOfInput ∧
          token = s.input.head ∧ t.input = s.input)) := by
  rw [deleteToken_stream_eq] at hdrop
  -- a repair drops a token in one case only
  rcases repair_stream_cases policy site s with ⟨hdrops, hrepair⟩ | ⟨hkeeps, -⟩
  · rw [if_pos hdrops] at hdrop
    cases hdrop
    refine ⟨hrepair, hdrops.2, diagnostics_afterDrop, ?_⟩
    exact input_afterDrop_cases hended site
  · rw [if_neg hkeeps] at hdrop
    cases hdrop

theorem ended_streamSession {codes : List TokenCode} : (streamSession codes).input.Ended :=
  TokenStream.ended_of_padded rfl

/-- Before the end of the input, where nothing else is expected, a token is dropped. -/
theorem deletion_reads_next_before_end :
    let s := streamSession [4]
    let site := expectingSite {.endOfInput}
    ∃ token t, s.input.Ended ∧
      (s.deleteToken {} site site.expected.value).value = (some token, t) ∧
      token.code = .endOfInput ∧ (s.repair {} site).value = (.ok token, t) ∧
      s.input.tokens[1]? = some token ∧ t.input.position = 1 := by
  intro s site
  have hended : s.input.Ended := ended_streamSession
  have hdrop : (s.deleteToken {} site site.expected.value).value =
      (some s.input.advance.head, s.afterDrop site site.expected.value) := by
    rw [deleteToken_stream_eq, if_pos ⟨rfl, by decide⟩]
  obtain ⟨hrepair, -, -, -, ⟨-, hnext, hposition⟩ | ⟨hlast, -⟩⟩ := deletion_reads_next hended hdrop
  · exact ⟨_, _, hended, hdrop, rfl, hrepair, hnext, hposition⟩
  · cases hlast

/-! ## A rule that may be left -/

/-- Instructions for a rule that takes a token with code 2, or none. -/
def optionInstructions : List Network.Instruction :=
  [.rule, .one (reference 0) (reference 1) 2, .epsilon (reference 0) (reference 1)]

/-- At the start of that rule, which parsing began with. -/
def optionSite : Site Network :=
  { grammar := ((Network.empty 2).buildAll optionInstructions).value.2
    stack := (∅ : CallStack).applyAll [.push 0 none]
    state := reference 0
    context := reference 0
    ruleNames := #["option"]
    vocabulary := {} }

/-- There the end of the input is reported as one too many and read, and the stream stands at it as
before. -/
theorem deletion_at_end :
    let s := streamSession []
    let r := (s.repair {} optionSite).value
    (s.deleteToken {} optionSite optionSite.expected.value).value.1 = s.current? ∧
      r.1.toOption = s.current? ∧ s.current?.map Token.code = some .endOfInput ∧
      r.2.input = s.input ∧
      r.2.diagnostics.map Diagnostic.text =
        #["extraneous input '<EOF>' expecting \x7b<EOF>, 2\x7d"] := by
  refine ⟨by cbv, by cbv, by cbv, by cbv, by cbv⟩

end Session

end SyntaxRecovery
