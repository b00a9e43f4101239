import SyntaxRecovery.Parser

/-!
# What repairing and reading come to

A repair drops the current token and reads the one after it, makes up a token, or fails
(`Session.repair_cases`). A parser that is to read a token reads the current one if it has the code
asked for, and else leaves all to a repair (`Parser.accept_of_any`, `Parser.accept_of_not_any`). What
is proved of repairs and of reading rests on these statements, for any input that can be read token by
token.
-/

set_option autoImplicit false

namespace SyntaxRecovery

namespace Session

variable {κ ω : Type} {s t u : Session κ} {token : Token}

/-! ## What a report leaves alone -/

theorem input_announce (position : Nat × Nat) (text : String) (error : Option SyntaxError) :
    (s.announce position text error).input = s.input := by
  rw [announce]
  split <;> rfl

variable [Cursor κ]

theorem input_reportExtraneous (site : Site ω) (expected : TokenSet) :
    (s.reportExtraneous site expected).input = s.input := input_announce _ _ _

theorem input_reportMissing (site : Site ω) (expected : TokenSet) :
    (s.reportMissing site expected).input = s.input := input_announce _ _ _

/-! ## The ends of a repair -/

/-- The session once the current token has been reported and dropped and the one after it read. -/
def afterDrop (site : Site ω) (s : Session κ) (expected : TokenSet) : Session κ :=
  (s.reportExtraneous site expected).advance.advance

/-- The error that the current token stands in the place of an expected one. -/
def mismatch (s : Session κ) (expected : TokenSet) : SyntaxError :=
  { cause := .mismatch expected, token := s.current? }

theorem input_afterDrop (site : Site ω) (expected : TokenSet) :
    (s.afterDrop site expected).input = Cursor.advance (Cursor.advance s.input) := by
  change Cursor.advance (Cursor.advance (s.reportExtraneous site expected).input) = _
  rw [input_reportExtraneous]

/-- What dropping a token comes to: the token after it, which may be none, or nothing done. -/
theorem value_deleteToken (policy : Policy) (site : Site ω) (expected : TokenSet) :
    (s.deleteToken policy site expected).value =
      if policy.settings.deletion ∧ Cursor.code s.input 2 ∈ expected then
        (s.advance.current?, s.afterDrop site expected)
      else (none, s) := by
  rw [deleteToken]
  split
  · -- the report comes first and moves nothing, so it does not matter to what is read
    have hcurrent : (s.reportExtraneous site expected).advance.current? = s.advance.current? := by
      change Cursor.current? (Cursor.advance (s.reportExtraneous site expected).input) = _
      rw [input_reportExtraneous]
      rfl
    rw [Noted.value_after, hcurrent]
    rfl
  · rfl

/-- A token is read only after one that is dropped. -/
theorem of_deleteToken_eq_some {policy : Policy} {site : Site ω} {expected : TokenSet}
    (h : (s.deleteToken policy site expected).value = (some token, u)) :
    policy.settings.deletion = true ∧ Cursor.code s.input 2 ∈ expected ∧
      s.advance.current? = some token ∧ u = s.afterDrop site expected := by
  rw [value_deleteToken] at h
  split at h
  · next hdrop =>
    rw [Prod.mk.injEq] at h
    exact ⟨hdrop.1, hdrop.2, h.1, h.2.symm⟩
  · cases h

/-- If none is read, none has been dropped, or there was none to read. -/
theorem of_deleteToken_eq_none {policy : Policy} {site : Site ω} {expected : TokenSet}
    (h : (s.deleteToken policy site expected).value = (none, u)) :
    (¬ (policy.settings.deletion = true ∧ Cursor.code s.input 2 ∈ expected) ∧ u = s) ∨
      policy.settings.deletion = true ∧ Cursor.code s.input 2 ∈ expected ∧
        s.advance.current? = none ∧ u = s.afterDrop site expected := by
  rw [value_deleteToken] at h
  split at h
  · next hdrop =>
    rw [Prod.mk.injEq] at h
    exact Or.inr ⟨hdrop.1, hdrop.2, h.1, h.2.symm⟩
  · next hkeep =>
    cases h
    exact Or.inl ⟨hkeep, rfl⟩

variable [FollowSource ω]

/-- A repair reads the token after one that is dropped. Otherwise it goes on with what dropping has
left: it makes up a token if the input lacks one, and else fails. -/
theorem repair_cases (policy : Policy) (site : Site ω) (s : Session κ) :
    (∃ token u, (s.deleteToken policy site site.expected.value).value = (some token, u) ∧
      (s.repair policy site).value = (.ok token, u)) ∨
    ∃ u, (s.deleteToken policy site site.expected.value).value = (none, u) ∧
      ((u.lacksToken policy site site.expected.value).value = true ∧
          (s.repair policy site).value =
            (.ok (u.madeUpToken site site.expected.value), u.reportMissing site site.expected.value) ∨
        (u.lacksToken policy site site.expected.value).value = false ∧
          (s.repair policy site).value = (.error (u.mismatch site.expected.value), u)) := by
  rw [repair]
  simp only [Noted.value_bind]
  obtain ⟨read, u⟩ := (s.deleteToken policy site site.expected.value).value
  cases read with
  | some token => exact Or.inl ⟨token, u, rfl, rfl⟩
  | none =>
    refine Or.inr ⟨u, rfl, ?_⟩
    simp only [insertToken, Noted.value_bind]
    cases (u.lacksToken policy site site.expected.value).value with
    | true => exact Or.inl ⟨rfl, rfl⟩
    | false => exact Or.inr ⟨rfl, rfl⟩

/-- A repair that fails goes on with what dropping has left. -/
theorem of_repair_eq_error {policy : Policy} {site : Site ω} {e : SyntaxError}
    (h : (s.repair policy site).value = (.error e, t)) :
    (s.deleteToken policy site site.expected.value).value = (none, t) ∧
      e = t.mismatch site.expected.value := by
  rcases repair_cases policy site s with ⟨token, u, -, hok⟩ | ⟨u, hdelete, hok | herror⟩
  · rw [h] at hok
    cases hok
  · rw [h] at hok
    cases hok.2
  · rw [h] at herror
    cases herror.2
    exact ⟨hdelete, rfl⟩

/-- What a repair does to a session: it drops a token or none, and may then report one missing. -/
theorem session_repair_cases (policy : Policy) (site : Site ω) (s : Session κ) :
    ∃ u, (u = s ∨ u = s.afterDrop site site.expected.value) ∧
      ((s.repair policy site).value.2 = u ∨
        (s.repair policy site).value.2 = u.reportMissing site site.expected.value) := by
  rcases repair_cases policy site s with ⟨token, u, hread, hrepair⟩ | ⟨u, hdelete, hrest⟩
  · obtain ⟨-, -, -, hu⟩ := of_deleteToken_eq_some hread
    exact ⟨u, Or.inr hu, Or.inl (congrArg Prod.snd hrepair)⟩
  · -- a token may have been dropped in vain, and another be made up all the same
    have hu : u = s ∨ u = s.afterDrop site site.expected.value := by
      rcases of_deleteToken_eq_none hdelete with ⟨-, hu⟩ | ⟨-, -, -, hu⟩
      · exact Or.inl hu
      · exact Or.inr hu
    rcases hrest with ⟨-, hrepair⟩ | ⟨-, hrepair⟩
    · exact ⟨u, hu, Or.inr (congrArg Prod.snd hrepair)⟩
    · exact ⟨u, hu, Or.inl (congrArg Prod.snd hrepair)⟩

end Session

namespace Parser

variable {κ : Type} [Cursor κ] {p : Parser κ} {code : TokenCode}

/-! ## The ends of reading -/

/-- A token with the code asked for is read. -/
theorem accept_of_any (h : p.session.current?.any (·.code = code) = true) :
    ∃ token, p.session.current? = some token ∧ (p.accept code).value =
      (.ok token, { p with session := p.session.endRecovery.advance }) := by
  obtain ⟨token, hcurrent, hcode⟩ := (Option.any_eq_true _ _).1 h
  rw [decide_eq_true_eq] at hcode
  refine ⟨token, hcurrent, ?_⟩
  rw [accept, hcurrent]
  dsimp only
  rw [if_pos hcode]
  rfl

/-- Where the current token is not the one asked for, the repair decides. -/
theorem accept_of_not_any (h : p.session.current?.any (·.code = code) = false) :
    (p.accept code).value =
      ((p.session.repair p.policy p.site).value.1,
        { p with session := (p.session.repair p.policy p.site).value.2 }) := by
  rw [accept]
  cases hcurrent : p.session.current? with
  | none => rfl
  | some token =>
    rw [hcurrent] at h
    have hcode : token.code ≠ code := of_decide_eq_false h
    dsimp only
    rw [if_neg hcode]
    rfl

/-- Reading a token changes nothing but the session. -/
theorem exists_accept_eq (p : Parser κ) (code : TokenCode) :
    ∃ session, (p.accept code).value.2 = { p with session } := by
  cases hany : p.session.current?.any (·.code = code) with
  | true =>
    obtain ⟨token, -, haccept⟩ := accept_of_any hany
    exact ⟨_, congrArg Prod.snd haccept⟩
  | false => exact ⟨_, congrArg Prod.snd (accept_of_not_any hany)⟩

/-- No action changes the grammar, the names or the policy. -/
theorem exists_perform_eq (p : Parser κ) (a : Action) :
    ∃ stack state session, (p.perform a).value.2 = { p with stack, state, session } := by
  cases a with
  | leave =>
    change ∃ stack state session, p.leave = { p with stack, state, session }
    rw [leave]
    split
    · exact ⟨_, _, _, rfl⟩
    · exact ⟨_, _, _, rfl⟩
  | accept code =>
    obtain ⟨session, haccept⟩ := p.exists_accept_eq code
    exact ⟨_, _, session, haccept⟩
  | _ => exact ⟨_, _, _, rfl⟩

theorem session_perform_leave (p : Parser κ) : (p.perform .leave).value.2.session = p.session := by
  change p.leave.session = p.session
  rw [leave]
  split <;> rfl

theorem session_perform_of_any (h : p.session.current?.any (·.code = code) = true) :
    (p.perform (.accept code)).value.2.session = p.session.endRecovery.advance := by
  obtain ⟨token, -, haccept⟩ := accept_of_any h
  exact congrArg (fun r => r.2.session) haccept

theorem session_perform_of_not_any (h : p.session.current?.any (·.code = code) = false) :
    (p.perform (.accept code)).value.2.session = (p.session.repair p.policy p.site).value.2 :=
  congrArg (fun r => r.2.session) (accept_of_not_any h)

end Parser

end SyntaxRecovery
