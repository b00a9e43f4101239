import SyntaxRecovery.Proofs.Recovery.Episodes
import SyntaxRecovery.Proofs.Recovery.Landing
import SyntaxRecovery.Proofs.Recovery.Repairs

/-!
# The tokens that a parser gives out

A parser gives out the current token, the one after a token that it drops, or one that it makes up.
Each of the first two has a place in the input (`Parser.place?`), at which the parser stands or which
lies ahead of it, and the parser goes on behind that place; for a token that is made up the parser
stays (`Parser.accept_cases`). No action leads back in the input. So the places of the tokens given out
in a parse follow one another, and only the last one can be given out again
(`Parser.places_in_order`).
-/

set_option autoImplicit false

namespace SyntaxRecovery

namespace Parser

variable {p : Parser TokenStream} {a : Action} {actions : List Action} {i j : Nat}

/-- The place in the input of the token that an action reads: that of the current token if the action
asks for it, else that of the token after one that is dropped. A token that is made up has none. -/
def place? (p : Parser TokenStream) : Action → Option Nat
  | .accept code =>
    if p.finds (.accept code) then some p.session.input.position
    else
      (p.session.deleteToken p.policy p.site p.site.expected.value).value.1.map fun _ =>
        p.session.input.advance.position
  | _ => none

/-- The places of the tokens that a run reads, in order. -/
def places (p : Parser TokenStream) : List Action → List Nat
  | [] => []
  | a :: rest => (p.place? a).toList ++ (p.perform a).value.2.places rest

/-! ## One action -/

/-- What it takes to give out the token at a place: the parser stands there or before, and goes on
behind it, unless it is the last place. -/
structure Reads (p : Parser TokenStream) (j : Nat) (token : Token) (q : Parser TokenStream) : Prop where
  token_eq : p.session.input.tokens[j]? = some token
  position_le : p.session.input.position ≤ j
  position_eq : q.session.input.position = min (j + 1) p.session.input.lastPosition

/-- A token that is asked for is read at its place. Otherwise it is made up, and the parser stays where
it is, or there is none. -/
theorem accept_cases (p : Parser TokenStream) (code : TokenCode) :
    (∃ j token q, p.place? (.accept code) = some j ∧ (p.accept code).value = (.ok token, q) ∧
      p.Reads j token q) ∨
    p.place? (.accept code) = none ∧ ∀ token q, (p.accept code).value = (.ok token, q) →
      token = p.session.madeUpToken p.site p.site.expected.value ∧
        q.session.input = p.session.input := by
  cases hfinds : p.finds (.accept code) with
  | true =>
    left
    obtain ⟨token, hcurrent, haccept⟩ := accept_of_any hfinds
    rw [Session.current?_eq_some] at hcurrent
    cases hcurrent
    refine ⟨p.session.input.position, _, _, ?_, haccept, ?_⟩
    · rw [place?, if_pos hfinds]
    · exact ⟨TokenStream.getElem?_position, Nat.le_refl _, TokenStream.position_advance_eq_min⟩
  | false =>
    have haccept := accept_of_not_any hfinds
    have hplace : p.place? (.accept code) =
        (p.session.deleteToken p.policy p.site p.site.expected.value).value.1.map fun _ =>
          p.session.input.advance.position := by
      rw [place?, if_neg (Bool.eq_false_iff.1 hfinds)]
    rw [Session.deleteToken_stream_eq] at hplace
    rcases Session.repair_stream_cases p.policy p.site p.session with
      ⟨hdrops, hrepair⟩ | ⟨hkeeps, hrepair⟩
    · left
      rw [if_pos hdrops] at hplace
      rw [hrepair] at haccept
      refine ⟨_, _, _, hplace, haccept, ?_, TokenStream.onward_advance.position_le, ?_⟩
      · rw [← TokenStream.onward_advance.tokens_eq]
        exact TokenStream.getElem?_position
      · -- the token dropped and the one read are both behind the parser now
        have hinput : (p.session.afterDrop p.site p.site.expected.value).input =
          p.session.input.advance.advance := Session.input_afterDrop p.site _
        dsimp only
        rw [hinput, TokenStream.position_advance_eq_min, TokenStream.onward_advance.lastPosition_eq]
    · right
      rw [if_neg hkeeps] at hplace
      refine ⟨hplace, ?_⟩
      intro token q h
      rcases hrepair with ⟨-, hrepair⟩ | ⟨-, hrepair⟩
      · rw [haccept, hrepair] at h
        cases h
        exact ⟨rfl, Session.input_reportMissing p.site _⟩
      · rw [haccept, hrepair] at h
        cases h

/-- An action that reads a token goes on behind it. -/
theorem of_place? (h : p.place? a = some j) :
    p.session.input.position ≤ j ∧ j ≤ p.session.input.lastPosition ∧
      (p.perform a).value.2.session.input.position = min (j + 1) p.session.input.lastPosition := by
  cases a with
  | accept code =>
    rcases accept_cases p code with ⟨j', token, q, hplace, haccept, hreads⟩ | ⟨hplace, -⟩
    · rw [h] at hplace
      cases hplace
      obtain ⟨hlt, -⟩ := Array.getElem?_eq_some_iff.1 hreads.token_eq
      have hperform : (p.perform (.accept code)).value.2 = q := congrArg Prod.snd haccept
      refine ⟨hreads.position_le, Nat.le_pred_of_lt hlt, ?_⟩
      rw [hperform]
      exact hreads.position_eq
    · rw [h] at hplace
      cases hplace
  -- no other action has a place
  | _ => cases h

/-- No action leads back in the input, not even the beginning of a new parse. -/
theorem onward_action (p : Parser TokenStream) (a : Action) :
    p.session.input.Onward (p.perform a).value.2.session.input := by
  by_cases hreset : a = .reset
  · subst hreset
    exact TokenStream.onward_refl
  · exact onward_perform p hreset

/-! ## A whole run -/

theorem onward_run (p : Parser TokenStream) (actions : List Action) :
    p.session.input.Onward (p.run actions).value.2.session.input := by
  refine run_keeps (P := fun q => p.session.input.Onward q.session.input) ?_
    TokenStream.onward_refl actions
  intro q a hq
  exact hq.trans (onward_action q a)

theorem run_append {κ : Type} [Cursor κ] (p : Parser κ) (before after : List Action) :
    (p.run (before ++ after)).value.2 = ((p.run before).value.2.run after).value.2 := by
  induction before generalizing p with
  | nil => rfl
  | cons a before ih => exact ih (p.perform a).value.2

/-- What a run reads lies where it begins or ahead of that. -/
theorem le_of_mem_places (h : j ∈ p.places actions) :
    p.session.input.position ≤ j ∧ j ≤ p.session.input.lastPosition := by
  induction actions generalizing p with
  | nil => exact absurd h List.not_mem_nil
  | cons a actions ih =>
    have honward := onward_action p a
    rw [places, List.mem_append, Option.mem_toList] at h
    rcases h with h | h
    · obtain ⟨hge, hle, -⟩ := of_place? h
      exact ⟨hge, hle⟩
    · obtain ⟨hge, hle⟩ := ih h
      rw [honward.lastPosition_eq] at hle
      exact ⟨Nat.le_trans honward.position_le hge, hle⟩

/-- The places of a run, each with all later ones: they increase up to the last place. -/
theorem pairwise_places (p : Parser TokenStream) (actions : List Action) :
    (p.places actions).Pairwise fun i j =>
      i < j ∨ i = p.session.input.lastPosition ∧ j = p.session.input.lastPosition := by
  induction actions generalizing p with
  | nil => exact List.Pairwise.nil
  | cons a actions ih =>
    have hrest := ih (p.perform a).value.2
    rw [(onward_action p a).lastPosition_eq] at hrest
    rw [places]
    cases hplace : p.place? a with
    | none => exact hrest
    | some i =>
      refine List.Pairwise.cons ?_ hrest
      intro j hj
      -- the action has gone on behind its place, and the rest of the run begins there
      obtain ⟨-, hi, hposition⟩ := of_place? hplace
      obtain ⟨hge, hle⟩ := le_of_mem_places hj
      rw [(onward_action p a).lastPosition_eq] at hle
      omega

/-- In a run the position never decreases. Every token that is given out is the one at its place,
where the parser stands or ahead of that, and the parser goes on behind it, up to the last place; or it
is made up, and the parser stays where it is. The places increase along the run, except that the
last place may come again. -/
theorem places_in_order (p : Parser TokenStream) (actions : List Action) :
    let tokens := p.session.input.tokens
    let last := p.session.input.lastPosition
    (∀ before after, actions = before ++ after →
      (p.run before).value.2.session.input.position ≤
        (p.run actions).value.2.session.input.position) ∧
    (∀ before code after, actions = before ++ .accept code :: after →
      let q := (p.run before).value.2
      ∀ token r, (q.accept code).value = (.ok token, r) →
        match q.place? (.accept code) with
        | some j => tokens[j]? = some token ∧ q.session.input.position ≤ j ∧
            r.session.input.position = min (j + 1) last
        | none => token = q.session.madeUpToken q.site q.site.expected.value ∧
            r.session.input = q.session.input) ∧
    (p.places actions).Pairwise fun i j => i < j ∨ i = last ∧ j = last := by
  intro tokens last
  refine ⟨?_, ?_, pairwise_places p actions⟩
  · rintro before after rfl
    rw [run_append]
    exact (onward_run _ after).position_le
  · rintro before code after rfl q token r h
    have honward : p.session.input.Onward q.session.input := onward_run p before
    rcases accept_cases q code with ⟨j, token', q', hplace, haccept, hreads⟩ | ⟨hplace, hmade⟩
    · rw [h] at haccept
      cases haccept
      rw [hplace]
      have htoken := hreads.token_eq
      have hposition := hreads.position_eq
      rw [honward.tokens_eq] at htoken
      rw [honward.lastPosition_eq] at hposition
      exact ⟨htoken, hreads.position_le, hposition⟩
    · rw [hplace]
      exact hmade token r h

/-- A token is dropped and the name behind it read; the end of the input is read twice. -/
example : itemParser.places [.accept 1, .accept .endOfInput, .accept .endOfInput] = [1, 2, 2] := by
  cbv

end Parser

end SyntaxRecovery
