import Mathlib
import SyntaxRecovery.Proofs.Message.Scan
import SyntaxRecovery.Proofs.TokenSet.Enumeration
import SyntaxRecovery.Proofs.TokenSet.Rendering
import SyntaxRecovery.Recovery.Report

/-!
# Reports without names

An error has a text of its own, with numbers for codes and rules (`SyntaxError.summary`), and a report
of the error has one that is made from a template and the names at hand. Without names the two differ
in one thing at most: the summary writes a set by its spans and the report member by member. These
are the same text exactly for the sets that have no two codes in a row
(`TokenSet.describe_eq_text_iff`), for a longer span is written with two points, which no code has in
its text. The main statement says when a report is the summary of its error
(`Session.report_without_names`).
-/

set_option autoImplicit false

namespace SyntaxRecovery

/-! ## Sets without two codes in a row -/

namespace TokenSet

variable {s : TokenSet}

/-- No two members follow one another. -/
def Scattered (s : TokenSet) : Prop := ∀ c ∈ s, ∀ d ∈ s, d.toInt ≠ c.toInt + 1

/-- No span begins just past the end of another. -/
theorem lo_ne_hi_add_one {r t : Span} (hr : r ∈ s.spans) (ht : t ∈ s.spans) :
    t.lo.toInt ≠ r.hi.toInt + 1 := by
  have hle : ∀ r ∈ s.spans, r.lo.toInt ≤ r.hi.toInt := fun r hr =>
    TokenCode.le_iff.1 (s.canonical.1 r hr)
  refine List.Pairwise.forall_of_forall_of_flip (R := fun r t => t.lo.toInt ≠ r.hi.toInt + 1)
    ?_ ?_ ?_ hr ht
  · intro r hr
    have := hle r hr
    omega
  · -- before the other there is a gap
    apply s.canonical.2.imp
    intro r t hbefore
    simp only [Span.Before] at hbefore
    omega
  · -- behind it, it begins past the end already
    apply s.canonical.2.imp_of_mem
    intro t r ht hr hbefore
    have := hle r hr
    have := hle t ht
    simp only [Span.Before] at hbefore
    simp only [flip]
    omega

/-- A set has no two codes in a row exactly if every span has one code. -/
theorem scattered_iff : s.Scattered ↔ ∀ r ∈ s.spans, r.lo = r.hi := by
  constructor
  · intro h r hr
    have hle := s.canonical.1 r hr
    have hhi := TokenCode.toInt_bounds r.hi
    by_contra hne
    have hlt : r.lo.toInt < r.hi.toInt := by
      have hint := mt Int32.toInt_inj.1 hne
      rw [TokenCode.le_iff] at hle
      omega
    -- else the code after the first would be in the span as well
    have hnext : (r.lo + 1).toInt = r.lo.toInt + 1 := TokenCode.toInt_add_one (by omega)
    have hsecond : r.lo + 1 ∈ r := by
      rw [Span.mem_iff, hnext]
      omega
    exact h _ (mem_iff_exists_span.2 ⟨r, hr, Span.lo_mem hle⟩) _
      (mem_iff_exists_span.2 ⟨r, hr, hsecond⟩) hnext
  · intro h c hc d hd hcd
    obtain ⟨r, hr, hcr⟩ := mem_iff_exists_span.1 hc
    obtain ⟨t, ht, hdt⟩ := mem_iff_exists_span.1 hd
    rw [Span.mem_iff, h r hr] at hcr
    rw [Span.mem_iff, ← h t ht] at hdt
    apply lo_ne_hi_add_one hr ht
    omega

instance (s : TokenSet) : Decidable s.Scattered := decidable_of_iff _ scattered_iff.symm

/-- Spans with one code each have their first codes as members. -/
theorem toList_of_scattered (h : s.Scattered) : s.toList = s.spans.map Span.lo := by
  have hcodes : ∀ r ∈ s.spans, r.codes = [r.lo] := by
    intro r hr
    have hsize : r.size = 1 := by simp [Span.size, scattered_iff.1 h r hr]
    simp [Span.codes, Span.take, hsize]
  rw [toList_eq_flatMap, List.flatMap_congr hcodes, List.map_eq_flatMap]

/-! ## Sets without names -/

/-- Without names a code is written by its label. -/
theorem label_no_names (c : TokenCode) : ({} : Vocabulary).label c = c.label := by
  rw [Vocabulary.label]
  split
  · rfl
  · next h =>
    rw [not_or] at h
    have hentry : Vocabulary.entry? #[] c = none := by simp [Vocabulary.entry?]
    simp [Vocabulary.describe, Vocabulary.spelling?, Vocabulary.name?, hentry, TokenCode.label, h.1, h.2]

/-- Member by member no set has a point in its text. -/
theorem point_not_mem_describe (s : TokenSet) : '.' ∉ (s.describe {}).toList := by
  have hlabels : ∀ name ∈ s.toList.map ({} : Vocabulary).label, '.' ∉ name.toList := by
    intro name hname
    obtain ⟨c, -, rfl⟩ := List.mem_map.1 hname
    rw [label_no_names]
    exact c.point_not_mem_label
  rw [describe]
  split
  · next name hone => exact hlabels name (by simp [hone])
  · rw [point_mem_braced_iff]
    rintro ⟨name, hname, hpoint⟩
    exact hlabels name hname hpoint

/-- A span with more than one code is written with a point. -/
theorem point_mem_text {r : Span} (hr : r ∈ s.spans) (hne : r.lo ≠ r.hi) : '.' ∈ s.text.toList := by
  rw [text]
  split
  · next t hone =>
    have hrt : r = t := by simpa [hone] using hr
    subst hrt
    rw [if_neg hne, point_mem_braced_iff]
    exact ⟨r.text, List.mem_singleton_self _, Span.point_mem_text_iff.2 hne⟩
  · rw [point_mem_braced_iff]
    exact ⟨r.text, List.mem_map_of_mem hr, Span.point_mem_text_iff.2 hne⟩

/-- Without names a set is written member by member as it is by its spans exactly if it has no two
codes in a row. -/
theorem describe_eq_text_iff : s.describe {} = s.text ↔ s.Scattered := by
  constructor
  · intro h
    rw [scattered_iff]
    intro r hr
    by_contra hne
    apply point_not_mem_describe s
    rw [h]
    exact point_mem_text hr hne
  · intro h
    have hone := scattered_iff.1 h
    have hlabels : s.toList.map ({} : Vocabulary).label = s.spans.map Span.text := by
      rw [toList_of_scattered h, List.map_map]
      apply List.map_congr_left
      intro r hr
      simp [label_no_names, Span.text, hone r hr]
    rw [describe, hlabels, text]
    -- no span, a single one, and more than one
    rcases hspans : s.spans with - | ⟨r, - | ⟨t, rest⟩⟩
    · rfl
    · simp [hone r (by simp [hspans])]
    · rfl

end TokenSet

/-! ## Reports and summaries -/

namespace Session

variable {κ ω : Type} {s : Session κ} {site : Site ω}

/-- Outside recovery what is announced is reported. -/
theorem diagnostics_announce (hs : s.memory.recovering = false) (position : Nat × Nat) (text : String)
    (error : Option SyntaxError) : (s.announce position text error).diagnostics =
      s.diagnostics.push (.ofReport position text error) := by
  rw [announce, hs]
  rfl

/-- A token in the place of others is reported as in its summary exactly if no two of the others follow
one another. -/
theorem mismatchText_eq_summary_iff {e : SyntaxError} {expected : TokenSet}
    (he : e.cause = .mismatch expected) :
    mismatchText {} e.token expected = e.summary ↔ expected.Scattered := by
  rw [mismatchText, MessageKind.text_mismatch, SyntaxError.summary, he, ← TokenSet.describe_eq_text_iff]
  exact String.append_right_inj _

/-- Where there are no names, an error that is reported outside recovery is reported once, at its place,
and in the words of its summary, except for a token in the place of others two of which follow one
another: that report is never the summary. -/
theorem report_without_names (site : Site ω) (s : Session κ) (e : SyntaxError)
    (hs : s.memory.recovering = false) (hvocabulary : site.vocabulary = {})
    (hrules : site.ruleNames = #[]) :
    ∃ text, (s.report site e).value.diagnostics =
        s.diagnostics.push (.ofReport e.position text (some e)) ∧
      (text = e.summary ↔ ∀ expected, e.cause = .mismatch expected → expected.Scattered) := by
  rw [report]
  cases hcause : e.cause with
  | noViableAlternative =>
    refine ⟨_, diagnostics_announce hs _ _ _, iff_of_true ?_ (by simp)⟩
    rw [noViableAlternativeText, MessageKind.text_noViableAlternative, SyntaxError.summary, hcause]
  | mismatch expected =>
    refine ⟨_, diagnostics_announce hs _ _ _, ?_⟩
    rw [hvocabulary, mismatchText_eq_summary_iff hcause]
    simp
  | failedPredicate rule condition =>
    refine ⟨_, diagnostics_announce hs _ _ _, iff_of_true ?_ (by simp)⟩
    have hname : site.ruleName rule = toString rule := by simp [Site.ruleName, hrules]
    rw [hname, failedPredicateText, MessageKind.text_failedPredicate, SyntaxError.summary, hcause]
  | other description =>
    refine ⟨_, rfl, iff_of_true ?_ (by simp)⟩
    rw [SyntaxError.summary, hcause]

/-- The end of the input and two codes with one missing between them, and a token whose text looks like
a placeholder; the set with the code between them is written by its ends in the summary. -/
theorem report_without_names_of_two_codes :
    let site : Site Unit := ⟨(), ∅, none, none, #[], {}⟩
    let s : Session Unit := { input := () }
    let e : SyntaxError := ⟨.mismatch (.ofList [7, -1, 5]), some { code := 3, text := some "\x7b1\x7d\n" }⟩
    s.memory.recovering = false ∧ site.vocabulary = {} ∧ site.ruleNames = #[] ∧
      (s.report site e).value.diagnostics = #[.ofReport (1, 0)
        "mismatched input '\x7b1\x7d\\n' expecting \x7b<EOF>, 5, 7\x7d" (some e)] := by
  intro site s e
  have hs : s.memory.recovering = false := rfl
  obtain ⟨text, hreport, htext⟩ := report_without_names site s e hs rfl rfl
  have hscattered : ∀ expected, e.cause = .mismatch expected → expected.Scattered := by
    rintro expected ⟨⟩
    decide
  refine ⟨hs, rfl, rfl, ?_⟩
  rw [hreport, htext.2 hscattered]
  decide

end Session

end SyntaxRecovery
