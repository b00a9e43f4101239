import SyntaxRecovery.Proofs.Recovery.Outcomes
import SyntaxRecovery.Proofs.TokenSet.Membership

/-!
# How recovery moves

Recovery moves forward in the input and nowhere else. Reports do not move at all, a repair passes over
the tokens that it drops and reads, and a resynchronization over tokens at which it may not stop
(`TokenStream.onward_drain`, `TokenStream.passed_of_drain`). All but the last leave alone what is kept
in mind of earlier resynchronizations (`Session.Proceeds`).
-/

set_option autoImplicit false

namespace SyntaxRecovery

namespace TokenStream

/-- The current token. -/
def head (s : TokenStream) : Token :=
  have := s.position_lt
  s.tokens[s.position]

/-- A stream some tokens later. -/
structure Onward (s t : TokenStream) : Prop where
  tokens_eq : t.tokens = s.tokens
  position_le : s.position ≤ t.position

variable {s t u : TokenStream} {codes : TokenSet}

theorem onward_refl : s.Onward s := ⟨rfl, Nat.le_refl _⟩

theorem Onward.trans (h : s.Onward t) (h' : t.Onward u) : s.Onward u :=
  ⟨h'.tokens_eq.trans h.tokens_eq, Nat.le_trans h.position_le h'.position_le⟩

theorem Onward.lastPosition_eq (h : s.Onward t) : t.lastPosition = s.lastPosition := by
  rw [lastPosition, lastPosition, h.tokens_eq]

theorem onward_advance : s.Onward s.advance := by
  rw [advance]
  split
  · exact ⟨rfl, Nat.le_succ _⟩
  · exact onward_refl

theorem position_advance_le : s.advance.position ≤ s.position + 1 := by
  rw [advance]
  split
  · exact Nat.le_refl _
  · exact Nat.le_succ _

theorem position_advance (h : s.position ≠ s.lastPosition) : s.advance.position = s.position + 1 := by
  have hlt := s.position_lt
  rw [lastPosition] at h
  rw [advance, dif_pos (by omega)]

theorem getElem?_position : s.tokens[s.position]? = some s.head :=
  Array.getElem?_eq_getElem s.position_lt

theorem token?_one : s.token? 1 = some s.head := by
  have hlt := s.position_lt
  have hmin : min (s.position + 0) s.lastPosition = s.position := by
    rw [lastPosition]
    omega
  change s.tokens[min (s.position + 0) s.lastPosition]? = _
  rw [hmin, getElem?_position]

theorem code_one : Cursor.code s 1 = s.head.code := by
  have htoken : Cursor.token? s 1 = some s.head := token?_one
  rw [Cursor.code, htoken]

theorem position_le_lastPosition : s.position ≤ s.lastPosition := Nat.le_pred_of_lt s.position_lt

/-- A stream advances by one place, up to the last. -/
theorem position_advance_eq_min : s.advance.position = min (s.position + 1) s.lastPosition := by
  by_cases hlast : s.position = s.lastPosition
  · have hlt := s.position_lt
    rw [lastPosition] at hlast
    rw [advance, dif_neg (by omega), lastPosition]
    omega
  · have hle := position_le_lastPosition (s := s)
    rw [position_advance hlast]
    omega

/-- The token after the current one is the one at which a stream stands after an advance. -/
theorem token?_two : s.token? 2 = some s.advance.head := by
  have hposition : s.advance.tokens[s.advance.position]? = some s.advance.head := getElem?_position
  rw [onward_advance.tokens_eq, position_advance_eq_min] at hposition
  exact hposition

theorem code_two : Cursor.code s 2 = s.advance.head.code := by
  have htoken : Cursor.token? s 2 = some s.advance.head := token?_two
  rw [Cursor.code, htoken]

theorem stopsAt_iff : stopsAt codes s = true ↔ s.head.code = .endOfInput ∨ s.head.code ∈ codes := by
  simp only [stopsAt, code_one, Bool.or_eq_true, decide_eq_true_eq, TokenSet.contains_iff]

theorem onward_drainAtMost (n : Nat) : s.Onward (drainAtMost codes n s).value.2 := by
  induction n generalizing s with
  | zero => exact onward_refl
  | succ n ih =>
    rw [drainAtMost]
    split
    · exact onward_refl
    · exact onward_advance.trans ih

/-- The tokens passed over are none at which to stop. -/
theorem passed_of_drainAtMost (n : Nat) {i : Nat} (hi : s.position ≤ i)
    (hpassed : i < (drainAtMost codes n s).value.2.position) :
    ∃ token, s.tokens[i]? = some token ∧ token.code ≠ .endOfInput ∧ token.code ∉ codes := by
  induction n generalizing s with
  | zero => exact absurd hpassed (Nat.not_lt.2 hi)
  | succ n ih =>
    rw [drainAtMost] at hpassed
    split at hpassed
    · exact absurd hpassed (Nat.not_lt.2 hi)
    · next hgo =>
      -- the current token does not stop the draining; those behind it are drained from there
      rw [Bool.not_eq_true, Bool.eq_false_iff, ne_eq, stopsAt_iff, not_or] at hgo
      rcases Nat.eq_or_lt_of_le hi with rfl | hlt
      · exact ⟨_, getElem?_position, hgo⟩
      · have hrest := ih (s := s.advance) (Nat.le_trans position_advance_le hlt) hpassed
        rwa [onward_advance.tokens_eq] at hrest

theorem drain_eq_drainAtMost (s : TokenStream) (codes : TokenSet) (settings : Settings) :
    ∃ n, (drain settings codes s).value.2 = (drainAtMost codes n s).value.2 := by
  rw [drain]
  split
  · exact ⟨_, rfl⟩
  · next budget _ =>
    refine ⟨budget.toNat, ?_⟩
    simp only [Noted.value_bind]
    split <;> rfl

theorem onward_drain (settings : Settings) : s.Onward (drain settings codes s).value.2 := by
  obtain ⟨n, hn⟩ := drain_eq_drainAtMost s codes settings
  rw [hn]
  exact onward_drainAtMost n

/-- Draining passes over no token at which to stop. -/
theorem passed_of_drain (settings : Settings) {i : Nat} (hi : s.position ≤ i)
    (hpassed : i < (drain settings codes s).value.2.position) :
    ∃ token, s.tokens[i]? = some token ∧ token.code ≠ .endOfInput ∧ token.code ∉ codes := by
  obtain ⟨n, hn⟩ := drain_eq_drainAtMost s codes settings
  rw [hn] at hpassed
  exact passed_of_drainAtMost n hi hpassed

/-- Draining passes over no token with a code at which to stop. -/
theorem not_mem_of_drain (settings : Settings) {i : Nat} (hi : s.position ≤ i)
    (hpassed : i < (drain settings codes s).value.2.position) :
    ∃ token, s.tokens[i]? = some token ∧ token.code ∉ codes := by
  obtain ⟨token, htoken, -, hcode⟩ := passed_of_drain settings hi hpassed
  exact ⟨token, htoken, hcode⟩

end TokenStream

namespace Session

/-! ## What leaves resynchronizations in mind -/

/-- A session some tokens later, with no other resynchronization in mind. -/
structure Proceeds (s t : Session TokenStream) : Prop where
  onward : s.input.Onward t.input
  position_eq : t.memory.position = s.memory.position
  states_eq : t.memory.states = s.memory.states

variable {ω : Type} {s t u : Session TokenStream}

theorem proceeds_refl : s.Proceeds s := ⟨TokenStream.onward_refl, rfl, rfl⟩

theorem Proceeds.trans (h : s.Proceeds t) (h' : t.Proceeds u) : s.Proceeds u :=
  ⟨h.onward.trans h'.onward, h'.position_eq.trans h.position_eq, h'.states_eq.trans h.states_eq⟩

theorem proceeds_advance : s.Proceeds s.advance := ⟨TokenStream.onward_advance, rfl, rfl⟩

theorem proceeds_endRecovery : s.Proceeds s.endRecovery := ⟨TokenStream.onward_refl, rfl, rfl⟩

theorem proceeds_announce (position : Nat × Nat) (text : String) (error : Option SyntaxError) :
    s.Proceeds (s.announce position text error) := by
  rw [announce]
  split
  · exact proceeds_refl
  · exact ⟨TokenStream.onward_refl, rfl, rfl⟩

/-- A report leaves the input where it is. -/
theorem input_report (site : Site ω) (e : SyntaxError) :
    (s.report site e).value.input = s.input := by
  rw [report]
  split
  · exact input_announce _ _ _
  · exact input_announce _ _ _
  · exact input_announce _ _ _
  · rfl

theorem proceeds_report (site : Site ω) (e : SyntaxError) :
    s.Proceeds (s.report site e).value := by
  rw [report]
  split
  · exact proceeds_announce _ _ _
  · exact proceeds_announce _ _ _
  · exact proceeds_announce _ _ _
  · exact ⟨TokenStream.onward_refl, rfl, rfl⟩

theorem proceeds_afterDrop (site : Site ω) (expected : TokenSet) :
    s.Proceeds (s.afterDrop site expected) :=
  ((proceeds_announce _ _ _).trans proceeds_advance).trans proceeds_advance

/-- A repair passes over tokens, but is no resynchronization. -/
theorem proceeds_repair [FollowSource ω] (policy : Policy) (site : Site ω) :
    s.Proceeds (s.repair policy site).value.2 := by
  obtain ⟨u, hu, hrepair⟩ := session_repair_cases policy site s
  have hdropped : s.Proceeds u := by
    rcases hu with rfl | rfl
    · exact proceeds_refl
    · exact proceeds_afterDrop site _
  rcases hrepair with hrepair | hrepair
  · rw [hrepair]
    exact hdropped
  · rw [hrepair]
    exact hdropped.trans (proceeds_announce _ _ _)

/-! ## What a resynchronization does -/

theorem value_unstick (state : StateRef) :
    (s.unstick state).value = if s.isStuck state then s.advance else s := by
  rw [unstick]
  split <;> rfl

theorem onward_unstick (state : StateRef) : s.input.Onward (s.unstick state).value.input := by
  rw [value_unstick]
  split
  · exact TokenStream.onward_advance
  · exact TokenStream.onward_refl

theorem isStuck_iff {state : StateRef} : s.isStuck state = true ↔
    s.memory.position = some s.input.position ∧ state ∈ s.memory.states := by
  simp only [isStuck, Bool.and_eq_true, decide_eq_true_eq, List.contains_iff_mem]
  exact Iff.rfl

variable [FollowSource ω]

/-- The input is drained from where the session stands once it is not stuck. -/
theorem input_resynchronize (policy : Policy) (site : Site ω) :
    (s.resynchronize policy site).value.input =
      (drain policy.settings (site.recoverySet policy).value
        (s.unstick site.state).value.input).value.2 := rfl

/-- The position kept is the one before the input is drained. -/
theorem position_resynchronize (policy : Policy) (site : Site ω) :
    (s.resynchronize policy site).value.memory.position =
      some (s.unstick site.state).value.input.position := rfl

theorem states_resynchronize (policy : Policy) (site : Site ω) :
    (s.resynchronize policy site).value.memory.states = s.memory.states.insert site.state := by
  change (s.unstick site.state).value.memory.states.insert site.state = _
  rw [value_unstick]
  split <;> rfl

theorem onward_resynchronize (policy : Policy) (site : Site ω) :
    s.input.Onward (s.resynchronize policy site).value.input := by
  rw [input_resynchronize]
  exact (onward_unstick site.state).trans (TokenStream.onward_drain policy.settings)

/-- A stuck session gets past its position, unless it has come to the last token. -/
theorem lt_position_resynchronize (policy : Policy) (site : Site ω)
    (hstuck : s.isStuck site.state = true) (hlast : s.input.position ≠ s.input.lastPosition) :
    s.input.position < (s.resynchronize policy site).value.input.position := by
  have hdrain : (s.unstick site.state).value.input.Onward
      (s.resynchronize policy site).value.input := TokenStream.onward_drain policy.settings
  have hadvance : (s.unstick site.state).value.input.position = s.input.position + 1 := by
    rw [value_unstick, if_pos hstuck]
    exact TokenStream.position_advance hlast
  have hle := hdrain.position_le
  omega

end Session

end SyntaxRecovery
