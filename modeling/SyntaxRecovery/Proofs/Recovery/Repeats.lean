import Mathlib
import SyntaxRecovery.Proofs.Recovery.Motion

/-!
# When a resynchronization passes over one token more

A session keeps one position in mind, that of the last resynchronization, and the states of all since
it last forgot its errors. A run of operations on a session is followed here by a list of marks, one
for each of these resynchronizations, and the session keeps of the list just that
(`Session.Recalls`). So a resynchronization passes over one token more if the last mark has its
position and some mark has its state, and the two need not be one mark
(`Session.resynchronize_after_operations`). Matched tokens between the errors do not matter.
-/

set_option autoImplicit false

namespace SyntaxRecovery

/-- What may be done with a session. -/
inductive Operation (ω : Type) where
  /-- An error is reported. -/
  | report (site : Site ω) (e : SyntaxError)
  /-- The input is passed over up to a token with which a rule can go on. -/
  | resynchronize (site : Site ω)
  /-- A single token is repaired. -/
  | repair (site : Site ω)
  /-- A token has matched. -/
  | endRecovery
  /-- A token is passed over. -/
  | advance
  /-- All earlier errors are forgotten. -/
  | forget

/-- What a resynchronization records. -/
structure Mark where
  /-- Position of the input, after the one token more if that was passed over. -/
  position : Nat
  /-- State of the parser. -/
  state : StateRef
deriving DecidableEq

namespace Session

variable {ω : Type} [FollowSource ω]

/-- Carries out an operation. -/
def perform (policy : Policy) (s : Session TokenStream) : Operation ω → Session TokenStream
  | .report site e => (s.report site e).value
  | .resynchronize site => (s.resynchronize policy site).value
  | .repair site => (s.repair policy site).value.2
  | .endRecovery => s.endRecovery
  | .advance => s.advance
  | .forget => s.forget

/-- The marks after an operation, the last one first. -/
def mark (s : Session TokenStream) (marks : List Mark) : Operation ω → List Mark
  | .resynchronize site =>
    { position := (s.unstick site.state).value.input.position, state := site.state } :: marks
  | .forget => []
  | _ => marks

/-- Carries out operations in order. -/
def performAll (policy : Policy) (s : Session TokenStream) : List (Operation ω) → Session TokenStream
  | [] => s
  | o :: rest => (s.perform policy o).performAll policy rest

/-- The marks after operations in order, the last one first. -/
def markAll (policy : Policy) (s : Session TokenStream) (marks : List Mark) :
    List (Operation ω) → List Mark
  | [] => marks
  | o :: rest => (s.perform policy o).markAll policy (s.mark marks o) rest

/-- A session has the position of the last mark and the states of all marks in mind. -/
structure Recalls (s : Session TokenStream) (marks : List Mark) : Prop where
  position_eq : s.memory.position = marks.head?.map Mark.position
  mem_states_iff : ∀ state, state ∈ s.memory.states ↔ state ∈ marks.map Mark.state

variable {s t : Session TokenStream} {marks : List Mark} {policy : Policy}

omit [FollowSource ω] in
theorem recalls_forget (s : Session TokenStream) : s.forget.Recalls [] :=
  ⟨rfl, fun _ => Iff.rfl⟩

theorem Recalls.proceeds (h : s.Recalls marks) (hproceeds : s.Proceeds t) : t.Recalls marks := by
  refine ⟨hproceeds.position_eq.trans h.position_eq, ?_⟩
  intro state
  rw [hproceeds.states_eq]
  exact h.mem_states_iff state

/-- An operation changes what is kept in mind as it changes the marks. -/
theorem Recalls.perform (h : s.Recalls marks) (o : Operation ω) :
    (s.perform policy o).Recalls (s.mark marks o) := by
  cases o with
  | report site e => exact h.proceeds (proceeds_report site e)
  | resynchronize site =>
    refine ⟨position_resynchronize policy site, ?_⟩
    intro state
    change state ∈ (s.resynchronize policy site).value.memory.states ↔ _
    rw [states_resynchronize, List.mem_insert_iff, h.mem_states_iff]
    exact List.mem_cons.symm
  | repair site => exact h.proceeds (proceeds_repair policy site)
  | endRecovery => exact h.proceeds proceeds_endRecovery
  | advance => exact h.proceeds proceeds_advance
  | forget => exact recalls_forget s

theorem Recalls.performAll (h : s.Recalls marks) (ops : List (Operation ω)) :
    (s.performAll policy ops).Recalls (s.markAll policy marks ops) := by
  induction ops generalizing s marks with
  | nil => exact h
  | cons o ops ih => exact ih (h.perform o)

/-- The last mark has the position of the session, and some mark has a state. -/
def Repeats (s : Session TokenStream) (marks : List Mark) (state : StateRef) : Prop :=
  marks.head?.map Mark.position = some s.input.position ∧ state ∈ marks.map Mark.state

instance (s : Session TokenStream) (marks : List Mark) (state : StateRef) :
    Decidable (s.Repeats marks state) :=
  inferInstanceAs (Decidable (_ ∧ _))

omit [FollowSource ω] in
theorem Recalls.isStuck_iff_repeats (h : s.Recalls marks) (state : StateRef) :
    s.isStuck state = true ↔ s.Repeats marks state := by
  rw [isStuck_iff, h.position_eq, h.mem_states_iff]
  exact Iff.rfl

/-- However a session has come about since it last forgot its errors, a resynchronization passes over
one token more exactly if the last mark has its position and some mark its state. Otherwise it passes
over no token of the recovery set. -/
theorem resynchronize_after_operations (policy : Policy) (s : Session TokenStream)
    (ops : List (Operation ω)) (site : Site ω) :
    let t := s.forget.performAll policy ops
    let marks := s.forget.markAll policy [] ops
    (t.isStuck site.state = true ↔ t.Repeats marks site.state) ∧
    (t.resynchronize policy site).value.input =
      (drain policy.settings (site.recoverySet policy).value
        (if t.Repeats marks site.state then t.input.advance else t.input)).value.2 ∧
    (¬ t.Repeats marks site.state → ∀ i, t.input.position ≤ i →
      i < (t.resynchronize policy site).value.input.position →
      ∃ token, t.input.tokens[i]? = some token ∧ token.code ∉ (site.recoverySet policy).value) := by
  intro t marks
  have hrecalls : t.Recalls marks := (recalls_forget s).performAll ops
  have hstuck := hrecalls.isStuck_iff_repeats site.state
  have hinput : (t.resynchronize policy site).value.input =
      (drain policy.settings (site.recoverySet policy).value
        (if t.Repeats marks site.state then t.input.advance else t.input)).value.2 := by
    rw [input_resynchronize, value_unstick]
    by_cases hrepeats : t.Repeats marks site.state
    · rw [if_pos hrepeats, if_pos (hstuck.2 hrepeats)]
      rfl
    · rw [if_neg hrepeats, if_neg fun h => hrepeats (hstuck.1 h)]
  refine ⟨hstuck, hinput, ?_⟩
  intro hrepeats i hi hpassed
  rw [hinput, if_neg hrepeats] at hpassed
  exact TokenStream.not_mem_of_drain policy.settings hi hpassed

/-! ## Two marks that make one repeat -/

/-- An error in a state of an item, after which a token with code 3 can come. -/
def itemSite (state : StateRef) : Site FollowTable :=
  { grammar := { returns := [(reference 10, {3})] }
    stack := (∅ : CallStack).applyAll [.push 0 none, .push 1 (reference 10)]
    state
    context := reference 1
    ruleNames := #[]
    vocabulary := {} }

/-- One token is passed over in state 7, the next one matches, and in state 8 none is passed over. -/
def twoEpisodes : List (Operation FollowTable) :=
  [.resynchronize (itemSite (reference 7)), .endRecovery, .advance,
    .resynchronize (itemSite (reference 8))]

/-- A session at the first of four tokens, all but that one with code 3. -/
def fourTokens : Session TokenStream := { input := .ofCodes [4, 3, 3, 3] }

/-- The session after the two episodes. -/
def afterEpisodes : Session TokenStream := fourTokens.forget.performAll {} twoEpisodes

/-- In state 7 a token of the recovery set is now passed over, though there has been no
resynchronization in this state at this position. -/
theorem stuck_after_two_episodes :
    afterEpisodes.input.position = 2 ∧
      afterEpisodes.isStuck (reference 7) = true ∧
      (¬ ∃ m ∈ fourTokens.forget.markAll {} [] twoEpisodes,
        m.position = afterEpisodes.input.position ∧ m.state = reference 7) ∧
      afterEpisodes.input.head.code ∈ ((itemSite (reference 7)).recoverySet {}).value ∧
      (afterEpisodes.resynchronize {} (itemSite (reference 7))).value.input.position = 3 := by
  have hposition : afterEpisodes.input.position = 2 := by cbv
  have hstuck : afterEpisodes.isStuck (reference 7) = true := by cbv
  have hmarks : fourTokens.forget.markAll {} [] twoEpisodes =
      [⟨2, reference 8⟩, ⟨0, reference 7⟩] := by cbv
  have hcode : ((itemSite (reference 7)).recoverySet {}).value.contains
      afterEpisodes.input.head.code = true := by cbv
  refine ⟨hposition, hstuck, ?_, hcode, by cbv⟩
  rw [hmarks, hposition]
  decide

end Session

end SyntaxRecovery
