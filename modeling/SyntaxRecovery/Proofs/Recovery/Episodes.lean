import Mathlib
import SyntaxRecovery.Network.Construction
import SyntaxRecovery.Proofs.Recovery.Outcomes

/-!
# One report for each episode

An error that is reported opens an episode, and only a token that matches without repair, or a new
parse, closes it. Until then further errors are not reported, except for those described by their own
text, which are warnings and no part of an episode.

A parse is followed here by its milestones, the reports and the matches. What recovery does to a
session is to report once or not at all (`Session.Reports`), and the session tells of the milestones
which reports there are, how many of them are errors, and whether an episode is open
(`Session.Reflects`). So every episode has one report (`Parser.reports_of_run`). All of this is about
any input that can be read token by token.
-/

set_option autoImplicit false

namespace SyntaxRecovery

/-- What counts for the reports of a parse. -/
inductive Milestone where
  /-- A diagnostic is recorded. -/
  | report (d : Diagnostic)
  /-- A token matches without repair. -/
  | matched
deriving DecidableEq

namespace Milestone

/-- The diagnostic recorded, if there is one. -/
def diagnostic? : Milestone → Option Diagnostic
  | report d => some d
  | matched => none

/-- An error has been reported and no token matched since. Milestones are given the last one first. -/
def Pending (milestones : List Milestone) : Prop :=
  ∃ d, report d ∈ milestones.takeWhile (· ≠ matched) ∧ d.severity = .error

/-- Between any two errors reported there is a match. -/
def Separated (milestones : List Milestone) : Prop :=
  ∀ later d' between d earlier,
    milestones = later ++ report d' :: (between ++ report d :: earlier) →
      d.severity = .error → d'.severity = .error → matched ∈ between

variable {d : Diagnostic} {milestones between earlier : List Milestone}

theorem not_pending_matched : ¬ Pending (matched :: milestones) := by
  rintro ⟨d, hd, -⟩
  simp at hd

theorem pending_report_iff :
    Pending (report d :: milestones) ↔ d.severity = .error ∨ Pending milestones := by
  constructor
  · rintro ⟨d', hd', herror⟩
    rw [List.takeWhile_cons_of_pos (by simp), List.mem_cons] at hd'
    rcases hd' with heq | hd'
    · cases heq
      exact Or.inl herror
    · exact Or.inr ⟨d', hd', herror⟩
  · intro h
    rw [Pending, List.takeWhile_cons_of_pos (by simp)]
    rcases h with herror | ⟨d', hd', herror⟩
    · exact ⟨d, List.mem_cons_self, herror⟩
    · exact ⟨d', List.mem_cons_of_mem _ hd', herror⟩

/-- An error is pending until there is a match. -/
theorem pending_append (hbetween : matched ∉ between) (herror : d.severity = .error) :
    Pending (between ++ report d :: earlier) := by
  refine ⟨d, ?_, herror⟩
  rw [List.takeWhile_append_of_pos]
  · simp
  · intro m hm
    have hne : m ≠ matched := fun heq => hbetween (heq ▸ hm)
    exact decide_eq_true hne

theorem separated_nil : Separated [] := by
  intro later d' between d earlier heq
  simp at heq

/-- Another milestone goes with those before it unless it is an error and one is pending. -/
theorem Separated.cons {m : Milestone} (h : Separated milestones)
    (hm : ∀ d, m = report d → d.severity = .error → ¬ Pending milestones) :
    Separated (m :: milestones) := by
  intro later d' between d earlier heq herror herror'
  cases later with
  | nil =>
    rw [List.nil_append, List.cons.injEq] at heq
    by_contra hbetween
    apply hm d' heq.1 herror'
    rw [heq.2]
    exact pending_append hbetween herror
  | cons m' later =>
    rw [List.cons_append, List.cons.injEq] at heq
    exact h later d' between d earlier heq.2 herror herror'

end Milestone

namespace Session

variable {κ ω : Type} {s t u : Session κ} {d : Option Diagnostic}

/-! ## What recovery reports -/

/-- What is shown to the user and whether an error is being recovered from are the same. -/
structure Silent (s t : Session κ) : Prop where
  diagnostics_eq : t.diagnostics = s.diagnostics
  tally_eq : t.tally = s.tally
  recovering_eq : t.memory.recovering = s.memory.recovering

/-- A session after at most one report: an error is counted and begins recovery, and there was none
before; a warning does neither. -/
inductive Reports (s t : Session κ) : Option Diagnostic → Prop where
  | nothing (silent : s.Silent t) : Reports s t none
  | error (d : Diagnostic) (severity_eq : d.severity = .error)
      (not_recovering : s.memory.recovering = false)
      (diagnostics_eq : t.diagnostics = s.diagnostics.push d)
      (tally_eq : t.tally = SyntaxRecovery.countError s.tally)
      (recovering : t.memory.recovering = true) : Reports s t (some d)
  | warning (d : Diagnostic) (severity_eq : d.severity = .warning)
      (diagnostics_eq : t.diagnostics = s.diagnostics.push d)
      (tally_eq : t.tally = s.tally)
      (recovering_eq : t.memory.recovering = s.memory.recovering) : Reports s t (some d)

theorem silent_refl : s.Silent s := ⟨rfl, rfl, rfl⟩

theorem Silent.trans (h : s.Silent t) (h' : t.Silent u) : s.Silent u :=
  ⟨h'.diagnostics_eq.trans h.diagnostics_eq, h'.tally_eq.trans h.tally_eq,
    h'.recovering_eq.trans h.recovering_eq⟩

theorem Reports.silent (h : s.Reports t d) (hsilent : t.Silent u) : s.Reports u d := by
  cases h with
  | nothing h => exact .nothing (h.trans hsilent)
  | error d hseverity hbefore hdiagnostics htally hrecovering =>
    exact .error d hseverity hbefore (hsilent.diagnostics_eq.trans hdiagnostics)
      (hsilent.tally_eq.trans htally) (hsilent.recovering_eq.trans hrecovering)
  | warning d hseverity hdiagnostics htally hrecovering =>
    exact .warning d hseverity (hsilent.diagnostics_eq.trans hdiagnostics)
      (hsilent.tally_eq.trans htally) (hsilent.recovering_eq.trans hrecovering)

/-- The diagnostics that come with a report are the earlier ones and the one reported. -/
theorem Reports.toList_diagnostics (h : s.Reports t d) :
    t.diagnostics.toList = s.diagnostics.toList ++ d.toList := by
  cases h with
  | nothing h => simp [h.diagnostics_eq]
  | error d _ _ hdiagnostics => simp [hdiagnostics]
  | warning d _ hdiagnostics => simp [hdiagnostics]

/-- While there is recovery from an error, no other is announced. -/
theorem announce_of_recovering (hrecovering : s.memory.recovering = true) (position : Nat × Nat)
    (text : String) (error : Option SyntaxError) : s.announce position text error = s := by
  rw [announce, if_pos hrecovering]

theorem recovering_announce (position : Nat × Nat) (text : String) (error : Option SyntaxError) :
    (s.announce position text error).memory.recovering = true := by
  rw [announce]
  split
  · assumption
  · rfl

theorem reports_announce {position : Nat × Nat} {text : String} {error : Option SyntaxError}
    (hseverity : (Diagnostic.ofReport position text error).severity = .error) :
    ∃ d, s.Reports (s.announce position text error) d := by
  rw [announce]
  split
  · exact ⟨none, .nothing silent_refl⟩
  · next hbefore =>
    rw [Bool.not_eq_true] at hbefore
    exact ⟨_, .error _ hseverity hbefore rfl rfl rfl⟩

/-- A report without a cause is an error. -/
theorem severity_ofReport_none (position : Nat × Nat) (text : String) :
    (Diagnostic.ofReport position text none).severity = .error := rfl

/-- The severity of an error's report is that of its cause. -/
theorem severity_ofReport_some (position : Nat × Nat) (text : String) (e : SyntaxError) :
    (Diagnostic.ofReport position text (some e)).severity = e.cause.kind.severity := rfl

/-- An error described by its own text is always recorded, as a warning. -/
theorem report_other (site : Site ω) {e : SyntaxError} {text : String}
    (hcause : e.cause = .other text) :
    (s.report site e).value = s.notify e.position text (some e) := by
  rw [report, hcause]
  rfl

theorem reports_report (site : Site ω) (e : SyntaxError) :
    ∃ d, s.Reports (s.report site e).value d := by
  have hseverity := severity_ofReport_some e.position
  rw [report]
  split
  · next hcause => exact reports_announce ((hseverity _ e).trans (by rw [hcause]; rfl))
  · next hcause => exact reports_announce ((hseverity _ e).trans (by rw [hcause]; rfl))
  · next hcause => exact reports_announce ((hseverity _ e).trans (by rw [hcause]; rfl))
  · next hcause => exact ⟨_, .warning _ ((hseverity _ e).trans (by rw [hcause]; rfl)) rfl rfl rfl⟩

variable [Cursor κ]

theorem silent_advance : s.Silent s.advance := ⟨rfl, rfl, rfl⟩

/-- A token that is dropped is reported, and then there is recovery. -/
theorem reports_afterDrop (site : Site ω) (expected : TokenSet) :
    (∃ d, s.Reports (s.afterDrop site expected) d) ∧
      (s.afterDrop site expected).memory.recovering = true := by
  obtain ⟨d, hd⟩ := reports_announce (s := s) (severity_ofReport_none (Token.position s.current?)
    (extraneousText site.vocabulary s.current? expected))
  exact ⟨⟨d, hd.silent (silent_advance.trans silent_advance)⟩, recovering_announce _ _ _⟩

section Grammar

variable [FollowSource ω]

/-- A repair reports at most once, also where it drops a token and then has to make one up. -/
theorem reports_repair (policy : Policy) (site : Site ω) :
    ∃ d, s.Reports (s.repair policy site).value.2 d := by
  obtain ⟨u, rfl | rfl, hrepair⟩ := session_repair_cases policy site s
  · rcases hrepair with hrepair | hrepair
    · rw [hrepair]
      exact ⟨none, .nothing silent_refl⟩
    · rw [hrepair]
      exact reports_announce (severity_ofReport_none _ _)
  · obtain ⟨hd, hrecovering⟩ := reports_afterDrop (s := s) site site.expected.value
    rcases hrepair with hrepair | hrepair
    · rw [hrepair]
      exact hd
    · -- the report of the token dropped has begun recovery, so the one missing is not reported
      have hsame : (s.afterDrop site site.expected.value).reportMissing site site.expected.value =
          s.afterDrop site site.expected.value := announce_of_recovering hrecovering _ _ _
      rw [hrepair, hsame]
      exact hd

theorem silent_unstick (state : StateRef) : s.Silent (s.unstick state).value := by
  rw [unstick]
  split
  · exact silent_advance
  · exact silent_refl

/-- A resynchronization reports nothing. -/
theorem silent_resynchronize (policy : Policy) (site : Site ω) :
    s.Silent (s.resynchronize policy site).value := by
  have hunstick := silent_unstick (s := s) site.state
  exact ⟨hunstick.diagnostics_eq, hunstick.tally_eq, hunstick.recovering_eq⟩

end Grammar

/-! ## What a session tells of its milestones -/

/-- A session has the reports of a parse with the given milestones, the last one first, counts the
errors among them as far as it can count, and knows whether one is pending. -/
structure Reflects (s : Session κ) (milestones : List Milestone) : Prop where
  diagnostics_eq : s.diagnostics.toList.reverse = milestones.filterMap Milestone.diagnostic?
  tally_eq : s.tally = min (s.diagnostics.toList.countP (·.severity = .error)) tallyLimit
  recovering_iff : s.memory.recovering = true ↔ Milestone.Pending milestones
  separated : Milestone.Separated milestones

variable {milestones : List Milestone}

omit [Cursor κ] in
theorem reflects_nil (input : κ) : ({ input } : Session κ).Reflects [] := by
  refine ⟨rfl, rfl, ?_, Milestone.separated_nil⟩
  simp [Milestone.Pending]

theorem Reflects.matched (h : s.Reflects milestones) :
    s.endRecovery.advance.Reflects (.matched :: milestones) := by
  refine ⟨h.diagnostics_eq, h.tally_eq, ?_, h.separated.cons (by simp)⟩
  exact iff_of_false Bool.false_ne_true Milestone.not_pending_matched

omit [Cursor κ] in
/-- A report changes a session as it changes the milestones. -/
theorem Reflects.reports (h : s.Reflects milestones) (hreports : s.Reports t d) :
    t.Reflects (d.toList.map Milestone.report ++ milestones) := by
  have hdiagnostics : t.diagnostics.toList.reverse =
      (d.toList.map Milestone.report ++ milestones).filterMap Milestone.diagnostic? := by
    rw [hreports.toList_diagnostics, List.reverse_append, h.diagnostics_eq]
    cases d <;> rfl
  cases hreports with
  | nothing hsilent =>
    refine ⟨hdiagnostics, ?_, ?_, h.separated⟩
    · rw [hsilent.tally_eq, hsilent.diagnostics_eq]
      exact h.tally_eq
    · rw [hsilent.recovering_eq]
      exact h.recovering_iff
  | error d hseverity hbefore hpush htally hrecovering =>
    -- an error is only reported where there is no recovery, so none is pending
    have hpending : ¬ Milestone.Pending milestones := by
      rw [← h.recovering_iff, hbefore]
      exact Bool.false_ne_true
    have hcount : (s.diagnostics.push d).toList.countP (·.severity = .error) =
        s.diagnostics.toList.countP (·.severity = .error) + 1 := by
      simp [hseverity]
    refine ⟨hdiagnostics, ?_, ?_, h.separated.cons fun _ _ _ => hpending⟩
    · rw [htally, h.tally_eq, hpush, hcount, SyntaxRecovery.countError]
      -- a tally that has reached its limit stays there
      omega
    · exact iff_of_true hrecovering (Milestone.pending_report_iff.2 (Or.inl hseverity))
  | warning d hseverity hpush htally hrecovering =>
    refine ⟨hdiagnostics, ?_, ?_, h.separated.cons ?_⟩
    · rw [htally, h.tally_eq, hpush]
      simp [hseverity]
    · change _ ↔ Milestone.Pending (.report d :: milestones)
      rw [hrecovering, h.recovering_iff, Milestone.pending_report_iff, hseverity]
      simp
    · rintro d' heq herror
      cases heq
      rw [hseverity] at herror
      cases herror

end Session

/-! ## The milestones of a parse -/

namespace Parser

variable {κ : Type} [Cursor κ]

/-- Whether an action asks for the current token. -/
def finds (p : Parser κ) : Action → Bool
  | .accept code => p.session.current?.any (·.code = code)
  | _ => false

/-- The diagnostics that an action adds. -/
def added (p : Parser κ) (a : Action) : List Diagnostic :=
  (p.perform a).value.2.session.diagnostics.toList.drop p.session.diagnostics.size

/-- The milestones after an action, the last one first. A new parse has none. -/
def milestone (p : Parser κ) (milestones : List Milestone) : Action → List Milestone
  | .reset => []
  | a =>
    (if p.finds a then [.matched] else []) ++ (p.added a).reverse.map Milestone.report ++ milestones

/-- The milestones after actions in order, the last one first. -/
def milestoneAll (p : Parser κ) (milestones : List Milestone) : List Action → List Milestone
  | [] => milestones
  | a :: rest => (p.perform a).value.2.milestoneAll (p.milestone milestones a) rest

variable {p : Parser κ} {a : Action} {milestones : List Milestone}

theorem milestone_of_ne_reset (hreset : a ≠ .reset) : p.milestone milestones a =
    (if p.finds a then [.matched] else []) ++ (p.added a).reverse.map Milestone.report ++ milestones := by
  cases a with
  | reset => exact absurd rfl hreset
  | _ => rfl

theorem session_of_finds (hfinds : p.finds a = true) :
    (p.perform a).value.2.session = p.session.endRecovery.advance := by
  cases a with
  | accept code => exact session_perform_of_any hfinds
  | _ => cases hfinds

/-- An action other than the beginning of a new parse reports at most once unless it finds its
token. -/
theorem reports_perform (hreset : a ≠ .reset) (hfinds : p.finds a = false) :
    ∃ d, p.session.Reports (p.perform a).value.2.session d := by
  cases a with
  | leave =>
    rw [session_perform_leave]
    exact ⟨none, .nothing Session.silent_refl⟩
  | accept code =>
    rw [session_perform_of_not_any hfinds]
    exact Session.reports_repair p.policy p.site
  | fail e =>
    obtain ⟨d, hd⟩ := Session.reports_report (s := p.session) p.site e
    exact ⟨d, hd.silent (Session.silent_resynchronize p.policy p.site)⟩
  | reset => exact absurd rfl hreset
  | _ => exact ⟨none, .nothing Session.silent_refl⟩

theorem added_of_toList_diagnostics {new : List Diagnostic}
    (h : (p.perform a).value.2.session.diagnostics.toList = p.session.diagnostics.toList ++ new) :
    p.added a = new := by
  rw [added, h]
  exact List.drop_left' p.session.diagnostics.length_toList

/-- An action changes what a parser shows as it changes the milestones. -/
theorem reflects_perform (h : p.session.Reflects milestones) (a : Action) :
    (p.perform a).value.2.session.Reflects (p.milestone milestones a) := by
  by_cases hreset : a = .reset
  · subst hreset
    exact Session.reflects_nil _
  rw [milestone_of_ne_reset hreset]
  cases hfinds : p.finds a with
  | true =>
    -- a match adds no diagnostics
    have hsession := session_of_finds hfinds
    have hadded : p.added a = [] := by
      apply added_of_toList_diagnostics
      rw [hsession, List.append_nil]
      rfl
    rw [hsession, hadded]
    exact h.matched
  | false =>
    obtain ⟨d, hd⟩ := reports_perform hreset hfinds
    have hadded : p.added a = d.toList := added_of_toList_diagnostics hd.toList_diagnostics
    have hreverse : d.toList.reverse = d.toList := by
      cases d <;> rfl
    rw [hadded, hreverse]
    exact h.reports hd

/-- The diagnostics, the tally and the memory of a parser reflect its milestones at every moment. -/
theorem reflects_run (h : p.session.Reflects milestones) (actions : List Action) :
    (p.run actions).value.2.session.Reflects (p.milestoneAll milestones actions) := by
  induction actions generalizing p milestones with
  | nil => exact h
  | cons a actions ih => exact ih (reflects_perform h a)

/-- An error described by its own text is always recorded, as a warning, and changes neither the tally
nor whether there is recovery. -/
theorem fail_other (p : Parser κ) {e : SyntaxError} {text : String} (hcause : e.cause = .other text) :
    (Diagnostic.ofReport e.position text (some e)).severity = .warning ∧
      (p.fail e).value.session.diagnostics =
        p.session.diagnostics.push (.ofReport e.position text (some e)) ∧
      (p.fail e).value.session.tally = p.session.tally ∧
      (p.fail e).value.session.memory.recovering = p.session.memory.recovering := by
  have hnotify := Session.report_other (s := p.session) p.site hcause
  have hsilent : (p.session.report p.site e).value.Silent (p.fail e).value.session :=
    Session.silent_resynchronize p.policy p.site
  rw [hnotify] at hsilent
  refine ⟨?_, hsilent.diagnostics_eq, hsilent.tally_eq, hsilent.recovering_eq⟩
  rw [Session.severity_ofReport_some, hcause]
  rfl

/-- After whatever a driver has told a new parser, as long as the reports can be counted: the
diagnostics are those recorded in the parse, in order, and the tally is the number of errors among them.
There is recovery exactly if an error has been reported since the last match without repair. Any two
errors have such a match between them. An error described by its own text is always recorded, as a
warning, and changes neither the tally nor whether there is recovery. -/
theorem reports_of_run (p : Parser κ) (actions : List Action)
    (hsize : (p.reset.run actions).value.2.session.diagnostics.size < 2 ^ 64) :
    let q := (p.reset.run actions).value.2
    let milestones := p.reset.milestoneAll [] actions
    q.session.diagnostics.toList.reverse = milestones.filterMap Milestone.diagnostic? ∧
    q.session.tally = q.session.diagnostics.toList.countP (·.severity = .error) ∧
    (q.session.memory.recovering = true ↔ Milestone.Pending milestones) ∧
    Milestone.Separated milestones ∧
    ∀ e text, e.cause = .other text →
      let d := Diagnostic.ofReport e.position text (some e)
      let next := (q.fail e).value.session
      d.severity = .warning ∧ next.diagnostics = q.session.diagnostics.push d ∧
      next.tally = q.session.tally ∧
      next.memory.recovering = q.session.memory.recovering := by
  intro q milestones
  have hreflects : q.session.Reflects milestones :=
    reflects_run (Session.reflects_nil _) actions
  refine ⟨hreflects.diagnostics_eq, ?_, hreflects.recovering_iff, hreflects.separated, ?_⟩
  · rw [hreflects.tally_eq, Nat.min_eq_left]
    have hcount := List.countP_le_length (p := fun d : Diagnostic => decide (d.severity = .error))
      (l := q.session.diagnostics.toList)
    have hlt : q.session.diagnostics.size < 2 ^ 64 := hsize
    rw [Array.length_toList] at hcount
    rw [tallyLimit]
    omega
  · intro e text hcause
    exact fail_other q hcause

/-- A parser of a grammar without rules, on two tokens. -/
def wordParser : Parser TokenStream := { network := .empty 2, session := { input := .ofCodes [1, 2] } }

/-- What the driver of `wordParser` says: the parse fails twice, for different reasons, and again once the
end of the input has matched. -/
def wordActions : List Action :=
  [.fail { cause := .noViableAlternative, token := none },
    .fail { cause := .mismatch ∅, token := none },
    .fail { cause := .other "note", token := none },
    .accept .endOfInput,
    .fail { cause := .noViableAlternative, token := none }]

/-- The first failure is reported and the second is not, and the last one is an error again. -/
theorem reports_of_words :
    (wordParser.reset.run wordActions).value.2.session.diagnostics.size = 3 ∧
      (wordParser.reset.run wordActions).value.2.session.tally = 2 ∧
      (wordParser.reset.run wordActions).value.2.session.tally =
        (wordParser.reset.run wordActions).value.2.session.diagnostics.toList.countP
          (·.severity = .error) ∧
      (wordParser.reset.run wordActions).value.2.session.memory.recovering = true ∧
      Milestone.Pending (wordParser.reset.milestoneAll [] wordActions) := by
  have hsize : (wordParser.reset.run wordActions).value.2.session.diagnostics.size = 3 := by cbv
  have htally : (wordParser.reset.run wordActions).value.2.session.tally = 2 := by cbv
  have hrecovering :
      (wordParser.reset.run wordActions).value.2.session.memory.recovering = true := by cbv
  obtain ⟨-, hcount, hpending, -⟩ := reports_of_run wordParser wordActions (by rw [hsize]; decide)
  exact ⟨hsize, htally, hcount, hrecovering, hpending.1 hrecovering⟩

end Parser

end SyntaxRecovery
