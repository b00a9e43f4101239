import Mathlib
import SyntaxRecovery.Proofs.Recovery.Draining
import SyntaxRecovery.Proofs.Recovery.Landing
import SyntaxRecovery.Proofs.TokenStream.Endless

/-!
# Draining to the first stop

To drain the input is to look at the current token and either stop, or give up if the limit is spent,
or pass over the token and go on (`Drains`). If there is an end of input among the tokens that remain,
this comes to an end, at the first of them at which recovery stops or, if that is farther than the limit
allows, where the limit is spent (`Session.passOver_to_first_stop`).

The input may be any that steps through a list of tokens (`Stepping`). It need not end in an end of
input, and one may come before its end.
-/

set_option autoImplicit false

namespace SyntaxRecovery

/-! ## Inputs that step through a list -/

/-- An input steps through a list of tokens. What it does at the last of them is left open. -/
class Stepping (κ : Type) [Cursor κ] where
  /-- The tokens that remain. -/
  rest : κ → List Token
  /-- The current token is the first that remains. -/
  current?_eq (input : κ) : Cursor.current? input = (rest input).head?
  /-- An advance passes over a token that is not the last. -/
  rest_advance (input : κ) (h : 1 < (rest input).length) :
    rest (Cursor.advance input) = (rest input).tail
  /-- And it counts the token. -/
  position_advance (input : κ) (h : 1 < (rest input).length) :
    Cursor.position (Cursor.advance input) = Cursor.position input + 1
  /-- The last token that remains is reached with the moves that the input counts. -/
  length_rest_le (input : κ) : (rest input).length ≤ Cursor.remaining input + 1

namespace TokenStream

theorem length_rest (s : TokenStream) : s.rest.length = s.tokens.size - s.position := by
  rw [rest, List.length_drop, Array.length_toList]

theorem current?_eq_head?_rest (s : TokenStream) : Cursor.current? s = s.rest.head? := by
  have hhead : Cursor.current? s = s.tokens[s.position]? :=
    token?_one.trans getElem?_position.symm
  rw [hhead, rest, List.head?_drop, Array.getElem?_toList]

theorem rest_advance (s : TokenStream) (h : 1 < s.rest.length) : s.advance.rest = s.rest.tail := by
  rw [length_rest] at h
  rw [advance, dif_pos (by omega), rest, rest, List.tail_drop]

theorem position_advance_of_rest (s : TokenStream) (h : 1 < s.rest.length) :
    s.advance.position = s.position + 1 := by
  rw [length_rest] at h
  apply position_advance
  rw [lastPosition]
  omega

theorem length_rest_le (s : TokenStream) : s.rest.length ≤ Cursor.remaining s + 1 := by
  rw [length_rest]
  change _ ≤ s.tokens.size - 1 - s.position + 1
  omega

instance : Stepping TokenStream where
  rest := rest
  current?_eq := current?_eq_head?_rest
  rest_advance := rest_advance
  position_advance := position_advance_of_rest
  length_rest_le := length_rest_le

end TokenStream

namespace OpenStream

/-- Tokens from the current one on. -/
def rest (s : OpenStream) : List Token := s.tokens.toList.drop s.position

theorem current?_eq_head?_rest (s : OpenStream) : Cursor.current? s = s.rest.head? := by
  rw [rest, List.head?_drop, Array.getElem?_toList]
  rfl

/-- Past the last token too an advance takes the tail. -/
theorem rest_advance (s : OpenStream) : s.advance.rest = s.rest.tail := by
  rw [rest, rest, List.tail_drop]
  rfl

theorem length_rest_le (s : OpenStream) : s.rest.length ≤ Cursor.remaining s + 1 := by
  rw [rest, List.length_drop, Array.length_toList]
  exact Nat.le_succ _

instance : Stepping OpenStream where
  rest := rest
  current?_eq := current?_eq_head?_rest
  rest_advance s _ := rest_advance s
  position_advance _ _ := rfl
  length_rest_le := length_rest_le

end OpenStream

/-- There is an end of input among the tokens that remain. -/
def Stepping.Ends {κ : Type} [Cursor κ] [Stepping κ] (input : κ) : Prop :=
  ∃ t ∈ rest input, t.code = .endOfInput

/-- A stream has an end of input ahead, wherever it stands. -/
theorem TokenStream.Ended.ends {s : TokenStream} (h : s.Ended) : Stepping.Ends s := by
  obtain ⟨t, ht, hcode⟩ := h
  refine ⟨t, ?_, hcode⟩
  rw [Array.back?_eq_getElem?] at ht
  have hpos := s.position_lt
  apply List.mem_of_getElem? (i := s.lastPosition - s.position)
  change (s.tokens.toList.drop s.position)[s.lastPosition - s.position]? = some t
  rw [List.getElem?_drop, Array.getElem?_toList, Nat.add_sub_cancel' position_le_lastPosition]
  exact ht

/-! ## Where draining stops -/

/-- The places in a list of tokens at which recovery stops. -/
def stopPlaces (codes : TokenSet) (tokens : List Token) : Set Nat :=
  {i | ∃ t, tokens[i]? = some t ∧ (t.code = .endOfInput ∨ t.code ∈ codes)}

section Stops

variable {codes : TokenSet} {tokens : List Token} {i n : Nat}

theorem lt_length_of_mem_stopPlaces (h : i ∈ stopPlaces codes tokens) : i < tokens.length := by
  obtain ⟨t, ht, -⟩ := h
  exact (List.getElem?_eq_some_iff.1 ht).1

theorem mem_stopPlaces_drop :
    i ∈ stopPlaces codes (tokens.drop n) ↔ n + i ∈ stopPlaces codes tokens := by
  change (∃ t, (tokens.drop n)[i]? = some t ∧ _) ↔ ∃ t, tokens[n + i]? = some t ∧ _
  rw [List.getElem?_drop]

/-- A token is one at which recovery stops. -/
def stopsToken (codes : TokenSet) (t : Token) : Bool := t.isEnding || codes.contains t.code

theorem mem_stopPlaces_iff (h : i < tokens.length) :
    i ∈ stopPlaces codes tokens ↔ stopsToken codes tokens[i] = true := by
  rw [stopsToken, Token.isEnding, Bool.or_eq_true, decide_eq_true_eq, TokenSet.contains_iff]
  constructor
  · rintro ⟨t, ht, hstop⟩
    rw [List.getElem?_eq_getElem h] at ht
    cases ht
    exact hstop
  · intro hstop
    exact ⟨_, List.getElem?_eq_getElem h, hstop⟩

/-- If there is an end of input, there is a first place at which recovery stops, and looking for one
finds it. -/
theorem isLeast_stopPlaces_findIdx (codes : TokenSet) (h : ∃ t ∈ tokens, t.code = .endOfInput) :
    IsLeast (stopPlaces codes tokens) (tokens.findIdx (stopsToken codes)) := by
  obtain ⟨t, ht, hcode⟩ := h
  have hstop : stopsToken codes t = true := by
    rw [stopsToken, Token.isEnding, hcode]
    rfl
  have hlt := List.findIdx_lt_length_of_exists ⟨t, ht, hstop⟩
  constructor
  · exact (mem_stopPlaces_iff hlt).2 List.findIdx_getElem
  · intro i hi
    by_contra hbefore
    have hno := List.not_of_lt_findIdx (Nat.lt_of_not_le hbefore)
    rw [(mem_stopPlaces_iff (lt_length_of_mem_stopPlaces hi)).1 hi] at hno
    cases hno

end Stops

/-! ## Step by step -/

/-- Where draining does not stop, one token is passed over, and the others come after an advance. -/
theorem drainAtMost_succ_of_not_stopsAt {κ : Type} [Cursor κ] {codes : TokenSet} {input : κ}
    (hgo : stopsAt codes input = false) (n : Nat) :
    drainAtMost codes (n + 1) input =
      { value := ((drainAtMost codes n (Cursor.advance input)).value.1 + 1,
          (drainAtMost codes n (Cursor.advance input)).value.2)
        notes := .event (.skipped (Cursor.code input 1)) ::
          (drainAtMost codes n (Cursor.advance input)).notes } := by
  rw [drainAtMost, if_neg (Bool.eq_false_iff.1 hgo)]
  rfl

section Steps

open Stepping (rest)

variable {κ : Type} [Cursor κ] [Stepping κ] {input : κ} {codes : TokenSet} {t : Token}
  {tokens : List Token} {first n : Nat} {settings : Settings}

theorem code_of_rest (h : rest input = t :: tokens) : Cursor.code input 1 = t.code := by
  have hcurrent : Cursor.token? input 1 = some t := by
    rw [← Cursor.current?, Stepping.current?_eq, h]
    rfl
  rw [Cursor.code, hcurrent]

theorem stopsAt_iff_mem_stopPlaces (h : 0 < (rest input).length) :
    stopsAt codes input = true ↔ 0 ∈ stopPlaces codes (rest input) := by
  obtain ⟨t, tokens, hrest⟩ := List.exists_cons_of_length_pos h
  rw [stopsAt, code_of_rest hrest, hrest, Bool.or_eq_true, decide_eq_true_eq, TokenSet.contains_iff]
  simp [stopPlaces]

/-- As long as tokens remain, to skip some is to drop them. -/
theorem rest_skip (h : n < (rest input).length) :
    rest (Cursor.skip input n) = (rest input).drop n := by
  induction n generalizing input with
  | zero => rfl
  | succ n ih =>
    have hadvance := Stepping.rest_advance input (by omega)
    rw [Cursor.skip, ih, hadvance, List.drop_tail]
    rw [hadvance, List.length_tail]
    omega

theorem position_skip (h : n < (rest input).length) :
    Cursor.position (Cursor.skip input n) = Cursor.position input + n := by
  induction n generalizing input with
  | zero => rfl
  | succ n ih =>
    have hadvance := Stepping.rest_advance input (by omega)
    rw [Cursor.skip, ih, Stepping.position_advance input (by omega)]
    · omega
    · rw [hadvance, List.length_tail]
      omega

/-- Up to the first stop, recovery stops there and nowhere before. -/
theorem stopsAt_skip_iff (h : IsLeast (stopPlaces codes (rest input)) first) (hle : n ≤ first) :
    stopsAt codes (Cursor.skip input n) = true ↔ n = first := by
  have hlt : n < (rest input).length := Nat.lt_of_le_of_lt hle (lt_length_of_mem_stopPlaces h.1)
  have hrest := rest_skip hlt
  rw [stopsAt_iff_mem_stopPlaces, hrest, mem_stopPlaces_drop, Nat.add_zero]
  · constructor
    · intro hmem
      exact Nat.le_antisymm hle (h.2 hmem)
    · rintro rfl
      exact h.1
  · rw [hrest, List.length_drop]
    omega

theorem stopsAt_of_isLeast (h : IsLeast (stopPlaces codes (rest input)) 0) :
    stopsAt codes input = true :=
  (stopsAt_skip_iff h (Nat.le_refl 0)).2 rfl

theorem not_stopsAt_of_isLeast (h : IsLeast (stopPlaces codes (rest input)) (first + 1)) :
    stopsAt codes input = false := by
  rw [Bool.eq_false_iff]
  intro hstop
  exact Nat.succ_ne_zero first ((stopsAt_skip_iff h (Nat.zero_le _)).1 hstop).symm

/-- If recovery does not stop at the current token, another one comes after it. -/
theorem one_lt_length_of_isLeast (h : IsLeast (stopPlaces codes (rest input)) (first + 1)) :
    1 < (rest input).length := by
  have hlt := lt_length_of_mem_stopPlaces h.1
  omega

/-- An advance brings the first stop nearer. -/
theorem isLeast_stopPlaces_advance (h : IsLeast (stopPlaces codes (rest input)) (first + 1)) :
    IsLeast (stopPlaces codes (rest (Cursor.advance input))) first := by
  rw [Stepping.rest_advance input (one_lt_length_of_isLeast h), ← List.drop_one]
  constructor
  · rw [mem_stopPlaces_drop, Nat.add_comm]
    exact h.1
  · intro i hi
    rw [mem_stopPlaces_drop, Nat.add_comm] at hi
    exact Nat.le_of_succ_le_succ (h.2 hi)

/-! ## What is passed over -/

/-- The notes of tokens that are passed over. -/
def skipNotes (tokens : List Token) : List Note := tokens.map fun t => .event (.skipped t.code)

/-- The first of the tokens passed over is the current one, and the others come after an advance. -/
theorem skipNotes_take_succ (h : 1 < (rest input).length) :
    skipNotes ((rest input).take (n + 1)) =
      .event (.skipped (Cursor.code input 1)) ::
        skipNotes ((rest (Cursor.advance input)).take n) := by
  obtain ⟨t, tokens, hrest⟩ := List.exists_cons_of_length_pos (Nat.lt_trans Nat.zero_lt_one h)
  rw [Stepping.rest_advance input h, code_of_rest hrest, hrest]
  rfl

/-- Draining of a number of tokens at most passes over them up to the first stop. -/
theorem drainAtMost_eq_of_isLeast (h : IsLeast (stopPlaces codes (rest input)) first) (n : Nat) :
    drainAtMost codes n input =
      { value := (min first n, Cursor.skip input (min first n))
        notes := skipNotes ((rest input).take (min first n)) } := by
  induction n generalizing input first with
  | zero =>
    rw [Nat.min_zero]
    rfl
  | succ n ih =>
    cases first with
    | zero =>
      rw [drainAtMost, if_pos (stopsAt_of_isLeast h), Nat.zero_min]
      rfl
    | succ m =>
      rw [drainAtMost_succ_of_not_stopsAt (not_stopsAt_of_isLeast h), ih (isLeast_stopPlaces_advance h),
        Nat.succ_min_succ, skipNotes_take_succ (one_lt_length_of_isLeast h)]
      rfl

/-! ## The loop -/

/-- How far draining goes towards a stop, if some tokens have been passed over already. -/
def Settings.reach (settings : Settings) (passed first : Nat) : Nat :=
  settings.budget.elim first fun budget => min first (budget.toNat - passed)

/-- What is noted if the limit does not let draining go as far as a stop. -/
def Settings.cutNotes (settings : Settings) (passed first : Nat) : List Note :=
  settings.budget.elim [] fun budget =>
    if budget.toNat - passed < first then [.event (.budgetSpent budget.toNat)] else []

/-- Draining goes on to a result from an input at which a number of tokens has been passed over. The
limit counts where draining does not stop, and a token is noted before it is passed over. -/
inductive Drains {κ : Type} [Cursor κ] (settings : Settings) (codes : TokenSet) :
    Nat → κ → Nat × κ → List Note → Prop
  /-- The current token is one at which to stop. -/
  | stop {passed : Nat} {input : κ} (hstop : stopsAt codes input = true) :
    Drains settings codes passed input (passed, input) []
  /-- The limit is spent. -/
  | spent {passed : Nat} {input : κ} {budget : UInt64} (hgo : stopsAt codes input = false)
    (hbudget : settings.budget = some budget) (hspent : budget.toNat ≤ passed) :
    Drains settings codes passed input (passed, input) [.event (.budgetSpent budget.toNat)]
  /-- A token is passed over. -/
  | skip {passed : Nat} {input : κ} {result : Nat × κ} {notes : List Note}
    (hgo : stopsAt codes input = false)
    (hroom : ∀ budget, settings.budget = some budget → passed < budget.toNat)
    (hrest : Drains settings codes (passed + 1) (Cursor.advance input) result notes) :
    Drains settings codes passed input result
      (.event (.skipped (Cursor.code input 1)) :: notes)

section Reach

variable {passed : Nat}

theorem Settings.reach_zero : settings.reach passed 0 = 0 := by
  rw [reach]
  cases settings.budget with
  | none => rfl
  | some budget => exact Nat.zero_min _

theorem Settings.cutNotes_zero : settings.cutNotes passed 0 = [] := by
  rw [cutNotes]
  cases settings.budget with
  | none => rfl
  | some budget => rw [Option.elim_some, if_neg (Nat.not_lt_zero _)]

theorem Settings.reach_le : settings.reach passed first ≤ first := by
  rw [reach]
  cases settings.budget with
  | none => exact Nat.le_refl _
  | some budget => exact Nat.min_le_left _ _

/-- While the limit is not spent, the stop is as near to a token as to the one before it, but for that
one. -/
theorem Settings.reach_succ (hroom : ∀ budget, settings.budget = some budget → passed < budget.toNat) :
    settings.reach passed (first + 1) = settings.reach (passed + 1) first + 1 := by
  rw [reach, reach]
  cases hbudget : settings.budget with
  | none => rfl
  | some budget =>
    have hlt := hroom budget hbudget
    change min (first + 1) _ = min first _ + 1
    omega

theorem Settings.cutNotes_succ
    (hroom : ∀ budget, settings.budget = some budget → passed < budget.toNat) :
    settings.cutNotes passed (first + 1) = settings.cutNotes (passed + 1) first := by
  rw [cutNotes, cutNotes]
  cases hbudget : settings.budget with
  | none => rfl
  | some budget =>
    have hlt := hroom budget hbudget
    have hiff : budget.toNat - passed < first + 1 ↔ budget.toNat - (passed + 1) < first := by omega
    simp only [Option.elim_some, hiff]

end Reach

/-- Draining comes to no more than one result. -/
theorem Drains.unique {κ : Type} [Cursor κ] {passed : Nat} {input : κ} {result result' : Nat × κ}
    {notes notes' : List Note} (h : Drains settings codes passed input result notes)
    (h' : Drains settings codes passed input result' notes') : result' = result ∧ notes' = notes := by
  -- whether to stop, to give up or to go on is settled by the token and the limit
  induction h generalizing result' notes' with
  | stop hstop =>
    cases h' with
    | stop _ => exact ⟨rfl, rfl⟩
    | spent hgo _ _ | skip hgo _ _ =>
      rw [hstop] at hgo
      cases hgo
  | spent hgo hbudget hspent =>
    cases h' with
    | stop hstop =>
      rw [hstop] at hgo
      cases hgo
    | spent _ hbudget' _ =>
      cases hbudget.symm.trans hbudget'
      exact ⟨rfl, rfl⟩
    | skip _ hroom _ => exact absurd (hroom _ hbudget) (Nat.not_lt.2 hspent)
  | skip hgo hroom _ ih =>
    cases h' with
    | stop hstop =>
      rw [hstop] at hgo
      cases hgo
    | spent _ hbudget hspent => exact absurd (hroom _ hbudget) (Nat.not_lt.2 hspent)
    | skip _ _ hrest =>
      obtain ⟨rfl, rfl⟩ := ih hrest
      exact ⟨rfl, rfl⟩

/-- Draining comes to a result: at the first stop, or where the limit is spent on the way to it. -/
theorem drains_of_isLeast (settings : Settings) (h : IsLeast (stopPlaces codes (rest input)) first)
    (passed : Nat) :
    Drains settings codes passed input
      (passed + settings.reach passed first, Cursor.skip input (settings.reach passed first))
      (skipNotes ((rest input).take (settings.reach passed first)) ++
        settings.cutNotes passed first) := by
  -- the first stop comes nearer with each token, whatever the limit
  induction first generalizing input passed with
  | zero =>
    rw [Settings.reach_zero, Settings.cutNotes_zero]
    exact .stop (stopsAt_of_isLeast h)
  | succ m ih =>
    have hgo := not_stopsAt_of_isLeast h
    by_cases hroom : ∀ budget, settings.budget = some budget → passed < budget.toNat
    · rw [Settings.reach_succ hroom, Settings.cutNotes_succ hroom,
        skipNotes_take_succ (one_lt_length_of_isLeast h), ← Nat.add_assoc, Nat.add_right_comm]
      exact .skip hgo hroom (ih (isLeast_stopPlaces_advance h) (passed + 1))
    · -- no room is left before the stop, so that nothing more is passed over
      push Not at hroom
      obtain ⟨budget, hbudget, hspent⟩ := hroom
      have hreach : settings.reach passed (m + 1) = 0 := by
        rw [Settings.reach, hbudget, Option.elim_some, Nat.sub_eq_zero_of_le hspent, Nat.min_zero]
      have hcut : settings.cutNotes passed (m + 1) = [.event (.budgetSpent budget.toNat)] := by
        rw [Settings.cutNotes, hbudget, Option.elim_some, Nat.sub_eq_zero_of_le hspent,
          if_pos (Nat.succ_pos m)]
      rw [hreach, hcut]
      exact .spent hgo hbudget hspent

/-- What draining gives: the first stop, as far as the limit allows. -/
theorem drain_eq_of_isLeast (settings : Settings) (h : IsLeast (stopPlaces codes (rest input)) first) :
    drain settings codes input =
      { value := (settings.reach 0 first, Cursor.skip input (settings.reach 0 first))
        notes := skipNotes ((rest input).take (settings.reach 0 first)) ++
          settings.cutNotes 0 first } := by
  cases hbudget : settings.budget with
  | none =>
    -- the first stop lies among the tokens that remain
    have hlt := lt_length_of_mem_stopPlaces h.1
    have hle := Stepping.length_rest_le input
    have hmin : min first (Cursor.remaining input) = first := by omega
    rw [drain, hbudget, Settings.reach, Settings.cutNotes, hbudget, Option.elim_none, Option.elim_none,
      List.append_nil]
    change drainAtMost codes (Cursor.remaining input) input = _
    rw [drainAtMost_eq_of_isLeast h, hmin]
  | some budget =>
    have hstop := stopsAt_skip_iff h (Nat.min_le_left first budget.toNat)
    -- draining ends at the first stop just if the limit does not cut it short
    have hcut : min first budget.toNat = first ↔ ¬ budget.toNat < first := by omega
    rw [hcut] at hstop
    rw [drain_eq_of_budget hbudget, drainAtMost_eq_of_isLeast h, Settings.reach, Settings.cutNotes,
      hbudget, Option.elim_some, Option.elim_some, Nat.sub_zero]
    simp only [hstop, ite_not]

end Steps

/-! ## Sessions -/

namespace Session

/-- Passes over the input of a session up to a token at which recovery stops, as far as the policy
allows. Gives how many tokens it has passed over. -/
def passOver {κ : Type} [Cursor κ] (policy : Policy) (codes : TokenSet) (s : Session κ) :
    Noted (Nat × Session κ) :=
  (fun (passed, input) => (passed, { s with input })) <$> drain policy.settings codes s.input

/-- The last thing that a resynchronization does is to pass over the input to the recovery set. -/
theorem resynchronize_eq_passOver {κ ω : Type} [Cursor κ] [FollowSource ω] (policy : Policy)
    (site : Site ω) (s : Session κ) :
    s.resynchronize policy site = (do
      let s ← s.unstick site.state
      let codes ← site.recoverySet policy
      Prod.snd <$> (s.remember site.state).passOver policy codes) :=
  rfl

/-- A stream made from tokens has an end of input ahead, whatever motions it has made. If the input of
a session, this or any that steps through a list, has one ahead, then there is a first place at which
recovery stops. The loop comes to one result, that of draining. As many tokens are passed over as
stand before the first stop, or as many as the limit says if these are fewer. They are noted in order,
and that the limit is spent is noted only if they are fewer. Of the session only the input changes. -/
theorem passOver_to_first_stop :
    (∀ (tokens : Array Token) (motions : List TokenStream.Motion),
      Stepping.Ends ((TokenStream.ofTokens tokens).moveAll motions)) ∧
    ∀ {κ : Type} [Cursor κ] [Stepping κ] (policy : Policy) (codes : TokenSet) (s : Session κ),
      Stepping.Ends s.input → ∃ first, IsLeast (stopPlaces codes (Stepping.rest s.input)) first ∧
        let settings := policy.settings
        let k := settings.budget.elim first fun budget => min first budget.toNat
        let input := Cursor.skip s.input k
        (∀ result notes, Drains settings codes 0 s.input result notes ↔
          result = (drain settings codes s.input).value ∧
            notes = (drain settings codes s.input).notes) ∧
        (s.passOver policy codes).value = (k, { s with input }) ∧
        Cursor.position input = Cursor.position s.input + k ∧
        Stepping.rest input = (Stepping.rest s.input).drop k ∧
        (s.passOver policy codes).notes =
          (((Stepping.rest s.input).take k).map fun t => .event (.skipped t.code)) ++
            settings.budget.elim [] fun budget =>
              if budget.toNat < first then [.event (.budgetSpent budget.toNat)] else [] := by
  constructor
  · intro tokens motions
    have htokens := TokenStream.tokens_moveAll (TokenStream.ofTokens tokens) motions
    exact (TokenStream.ended_of_padded htokens).ends
  · intro κ _ _ policy codes s hends
    have hfirst := isLeast_stopPlaces_findIdx codes hends
    have hdrain := drain_eq_of_isLeast policy.settings hfirst
    have hdrains := drains_of_isLeast policy.settings hfirst 0
    have hlt : policy.settings.reach 0 _ < (Stepping.rest s.input).length :=
      Nat.lt_of_le_of_lt Settings.reach_le (lt_length_of_mem_stopPlaces hfirst.1)
    refine ⟨_, hfirst, ?_, ?_, position_skip hlt, rest_skip hlt, ?_⟩
    · intro result notes
      rw [Nat.zero_add] at hdrains
      rw [hdrain]
      constructor
      · intro h
        exact hdrains.unique h
      · rintro ⟨rfl, rfl⟩
        exact hdrains
    · rw [passOver, Noted.value_map, hdrain]
      rfl
    · rw [passOver, Noted.notes_map, hdrain]
      rfl

/-- A session at the token after an end of input that stands before the last. -/
def pastEnding : Session TokenStream :=
  { input := (TokenStream.ofCodes [1, .endOfInput, 2, 3]).moveAll [.advance, .advance], tally := 1 }

/-- A session at the first of three tokens, with no end of input to come but the last of them. -/
def openEnded : Session OpenStream :=
  { input := { tokens := #[{ code := 1 }, { code := 2 }, .ending 1 2] }, tally := 1 }

/-- Where one token may be passed over, the first session comes to its stop and the limit is not spent;
the second would have passed over two. -/
theorem passOver_at_limit :
    let policy : Policy := { settings := { budget := some 1 } }
    Stepping.Ends pastEnding.input ∧ Stepping.Ends openEnded.input ∧
      (pastEnding.passOver policy {3}).value =
        (1, { pastEnding with input := Cursor.skip pastEnding.input 1 }) ∧
      (pastEnding.passOver policy {3}).notes = [.event (.skipped 2)] ∧
      (openEnded.passOver policy {.ruleEnd}).value =
        (1, { openEnded with input := Cursor.skip openEnded.input 1 }) ∧
      (openEnded.passOver policy {.ruleEnd}).notes =
        [.event (.skipped 1), .event (.budgetSpent 1)] := by
  intro policy
  have hends : Stepping.Ends pastEnding.input := ⟨_, List.mem_of_getElem? (i := 2) rfl, rfl⟩
  have hends' : Stepping.Ends openEnded.input := ⟨_, List.mem_of_getElem? (i := 2) rfl, rfl⟩
  obtain ⟨first, hfirst, -, hvalue, -, -, hnotes⟩ :=
    passOver_to_first_stop.2 policy {3} pastEnding hends
  obtain ⟨first', hfirst', -, hvalue', -, -, hnotes'⟩ :=
    passOver_to_first_stop.2 policy {.ruleEnd} openEnded hends'
  have hone : (Stepping.rest pastEnding.input).findIdx (stopsToken {3}) = 1 := by decide
  have htwo : (Stepping.rest openEnded.input).findIdx (stopsToken {.ruleEnd}) = 2 := by decide
  obtain rfl : first = 1 := (hfirst.unique (isLeast_stopPlaces_findIdx _ hends)).trans hone
  obtain rfl : first' = 2 := (hfirst'.unique (isLeast_stopPlaces_findIdx _ hends')).trans htwo
  exact ⟨hends, hends', hvalue, hnotes, hvalue', hnotes'⟩

end Session

end SyntaxRecovery
