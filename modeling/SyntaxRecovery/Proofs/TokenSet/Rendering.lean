import Mathlib
import SyntaxRecovery.Proofs.Intercalate
import SyntaxRecovery.Proofs.TokenSet.Equality
import SyntaxRecovery.TokenSet.Text

/-!
# Token sets told apart by their text

A set is written by its spans, in braces unless it has a single member. No mark of this form stands in
the text of a code: that is made of digits and a sign, or is one of the two names in angle brackets. So
the first point in the text of a span is behind its first code, the first comma between the braces is
behind the first span, and a brace in front says that there are braces at all. Cut at these marks, the
text of a set gives its spans, and no two sets have the same text
(`TokenSet.text_eq_iff_of_histories`).
-/

set_option autoImplicit false

namespace SyntaxRecovery

/-! ## Codes and spans -/

namespace TokenCode

variable {c d : TokenCode} {a : Char}

/-- A number is written with digits and a sign. -/
theorem of_mem_decimal (h : a ∈ c.decimal.toList) : a.isDigit = true ∨ a = '-' := by
  have hdigits (n : Nat) (hn : a ∈ n.repr.toList) : a.isDigit = true := by
    rw [Nat.repr_eq_ofList_toDigits, String.toList_ofList] at hn
    exact Nat.isDigit_of_mem_toDigits (by decide) (by decide) hn
  rw [decimal, Int.toString_eq_repr, Int.repr_eq_if] at h
  split at h
  · exact Or.inl (hdigits _ h)
  · rw [String.toList_append, List.mem_append] at h
    rcases h with hsign | hn
    · exact Or.inr (by simpa using hsign)
    · exact Or.inl (hdigits _ hn)

/-- Besides digits and a sign there are only the letters and brackets of the two names. -/
theorem not_mem_label (hdigit : a.isDigit = false) (hnames : a ∉ "-<EOF><EPSILON>".toList) :
    a ∉ c.label.toList := by
  simp only [String.reduceToList, List.mem_cons, List.not_mem_nil, or_false, not_or] at hnames
  rw [label]
  split
  · simp [hnames]
  · split
    · simp [hnames]
    · intro h
      rcases of_mem_decimal h with h | h
      · exact absurd (hdigit.symm.trans h) Bool.false_ne_true
      · exact hnames.1 h

theorem point_not_mem_label (c : TokenCode) : '.' ∉ c.label.toList :=
  not_mem_label (by decide) (by decide)

theorem comma_not_mem_label (c : TokenCode) : ',' ∉ c.label.toList :=
  not_mem_label (by decide) (by decide)

theorem brace_not_mem_label (c : TokenCode) : '\x7b' ∉ c.label.toList :=
  not_mem_label (by decide) (by decide)

/-- The reserved codes below zero are written in angle brackets, and no other code is. -/
theorem bracket_mem_label_iff : '<' ∈ c.label.toList ↔ c = endOfInput ∨ c = ruleEnd := by
  rw [label]
  split
  · next h => simp [h]
  · next hend =>
    split
    · next h => simp [h]
    · next hrule =>
      refine iff_of_false ?_ (not_or.2 ⟨hend, hrule⟩)
      intro h
      rcases of_mem_decimal h with h | h <;> exact absurd h (by decide)

theorem decimal_injective (h : c.decimal = d.decimal) : c = d := by
  rw [decimal, decimal, Int.toString_eq_repr, Int.toString_eq_repr, Int.repr_inj] at h
  exact Int32.toInt_inj.1 h

/-- Each code has a label of its own. -/
theorem label_injective (h : c.label = d.label) : c = d := by
  have hnamed : c = endOfInput ∨ c = ruleEnd ↔ d = endOfInput ∨ d = ruleEnd := by
    rw [← bracket_mem_label_iff, h, bracket_mem_label_iff]
  by_cases hc : c = endOfInput ∨ c = ruleEnd
  · -- two names, and they differ
    rcases hc with rfl | rfl <;> rcases hnamed.1 (by simp) with rfl | rfl
    · rfl
    · exact absurd h (by decide)
    · exact absurd h (by decide)
    · rfl
  · have hd := mt hnamed.2 hc
    rw [not_or] at hc hd
    rw [label, if_neg hc.1, if_neg hc.2, label, if_neg hd.1, if_neg hd.2] at h
    exact decimal_injective h

theorem label_ne_empty (c : TokenCode) : c.label.toList ≠ [] := by
  rw [label]
  split
  · decide
  · split
    · decide
    · rw [decimal, Int.toString_eq_repr, Int.repr_eq_if]
      split <;> simp

end TokenCode

namespace Span

variable {r t : Span}

theorem point_mem_text_iff : '.' ∈ r.text.toList ↔ r.lo ≠ r.hi := by
  rw [text]
  split
  · next h => simp [h, TokenCode.point_not_mem_label]
  · next h => simp [h, String.toList_append]

/-- Each span has a text of its own. -/
theorem text_injective (h : r.text = t.text) : r = t := by
  have hone : r.lo = r.hi ↔ t.lo = t.hi := by
    rw [← not_iff_not, ← ne_eq, ← ne_eq, ← point_mem_text_iff, h, point_mem_text_iff]
  obtain ⟨lo, hi⟩ := r
  obtain ⟨lo', hi'⟩ := t
  simp only at hone
  rw [text, text] at h
  by_cases hr : lo = hi
  · have ht := hone.1 hr
    subst hr ht
    simp only [if_true] at h
    rw [TokenCode.label_injective h]
  · rw [if_neg hr, if_neg (mt hone.2 hr), ← String.toList_inj] at h
    simp only [String.toList_append, List.append_assoc, String.reduceToList, List.cons_append,
      List.nil_append] at h
    -- the first of the two points
    obtain ⟨hlo, hrest⟩ :=
      eq_and_eq_of_cut (TokenCode.point_not_mem_label lo) (TokenCode.point_not_mem_label lo') h
    rw [List.cons.injEq, String.toList_inj] at hrest
    rw [TokenCode.label_injective (String.toList_inj.1 hlo), TokenCode.label_injective hrest.2]

theorem text_ne_empty (r : Span) : r.text.toList ≠ [] := by
  rw [text]
  split
  · exact TokenCode.label_ne_empty r.lo
  · simp [String.toList_append]

theorem comma_not_mem_text (r : Span) : ',' ∉ r.text.toList := by
  rw [text]
  split
  · exact TokenCode.comma_not_mem_label r.lo
  · simp [String.toList_append, TokenCode.comma_not_mem_label]

end Span

/-! ## Braces -/

/-- A point stands between the braces only if it stands in a part. -/
theorem point_mem_braced_iff {parts : List String} :
    '.' ∈ (braced parts).toList ↔ ∃ part ∈ parts, '.' ∈ part.toList := by
  have hopen : '.' ∉ "\x7b".toList := by decide
  have hclose : '.' ∉ "\x7d".toList := by decide
  have hsep : '.' ∉ ", ".toList := by decide
  simp only [braced, String.toList_append, String.toList_intercalate, List.mem_append, hopen, hclose,
    false_or, or_false]
  constructor
  · intro h
    rcases mem_of_mem_intercalate h with h | ⟨part, hpart, h⟩
    · exact absurd h hsep
    · obtain ⟨text, htext, rfl⟩ := List.mem_map.1 hpart
      exact ⟨text, htext, h⟩
  · rintro ⟨part, hpart, h⟩
    exact mem_intercalate_of_mem (List.mem_map_of_mem hpart) h

/-- Parts between braces are told from the text, if they are not empty and have no commas. -/
theorem eq_of_braced_eq {parts parts' : List String}
    (hparts : ∀ p ∈ parts, p.toList ≠ [] ∧ ',' ∉ p.toList)
    (hparts' : ∀ p ∈ parts', p.toList ≠ [] ∧ ',' ∉ p.toList)
    (h : braced parts = braced parts') : parts = parts' := by
  rw [braced, braced, String.append_left_inj, String.append_right_inj, ← String.toList_inj,
    String.toList_intercalate, String.toList_intercalate] at h
  have hlists := eq_of_intercalate_eq (List.forall_mem_map.2 hparts) (List.forall_mem_map.2 hparts') h
  exact List.map_injective_iff.2 (fun _ _ => String.toList_injective) hlists

/-! ## Sets -/

namespace TokenSet

variable {s t : TokenSet}

/-- A set with a single member is written as its code, and every other set in braces. -/
theorem text_cases (s : TokenSet) :
    (∃ c, s.spans = [⟨c, c⟩] ∧ s.text = c.label) ∨ s.text = braced (s.spans.map Span.text) := by
  rw [text]
  split
  · next r hone =>
    obtain ⟨lo, hi⟩ := r
    split
    · next h =>
      simp only at h
      subst h
      exact Or.inl ⟨lo, hone, if_pos rfl⟩
    · rw [hone]
      exact Or.inr rfl
  · exact Or.inr rfl

theorem label_ne_braced (c : TokenCode) (parts : List String) : c.label ≠ braced parts := by
  intro h
  apply TokenCode.brace_not_mem_label c
  rw [h]
  simp [braced, String.toList_append]

/-- Each set has a text of its own. -/
theorem text_injective (h : s.text = t.text) : s = t := by
  rw [← spans_inj]
  rcases text_cases s with ⟨c, hs, hc⟩ | hs <;> rcases text_cases t with ⟨d, ht, hd⟩ | ht
  · rw [hs, ht, TokenCode.label_injective (hc.symm.trans (h.trans hd))]
  · exact absurd (hc.symm.trans (h.trans ht)) (label_ne_braced c _)
  · exact absurd (hd.symm.trans (h.symm.trans hs)) (label_ne_braced d _)
  · have hspan : ∀ l : List Span, ∀ p ∈ l.map Span.text, p.toList ≠ [] ∧ ',' ∉ p.toList := by
      intro l p hp
      obtain ⟨r, -, rfl⟩ := List.mem_map.1 hp
      exact ⟨r.text_ne_empty, r.comma_not_mem_text⟩
    have hparts := eq_of_braced_eq (hspan _) (hspan _) (hs.symm.trans (h.trans ht))
    exact List.map_injective_iff.2 (fun _ _ => Span.text_injective) hparts

/-- However two sets have begun and whatever has been done to them, they have the same text exactly if
they are the same set, with the same spans; and so exactly if their histories make one set of
integers. -/
theorem text_eq_iff_of_histories (o o' : Origin) (edits edits' : List Edit) :
    let s := o.set.applyAll edits
    let t := o'.set.applyAll edits'
    (s.text = t.text ↔ s = t) ∧ (s.text = t.text ↔ s.spans = t.spans) ∧
    (s.text = t.text ↔
      (o.edits ++ edits).foldl Edit.onSet ∅ = (o'.edits ++ edits').foldl Edit.onSet ∅) := by
  intro s t
  have htext : s.text = t.text ↔ s = t := ⟨text_injective, congrArg text⟩
  refine ⟨htext, htext.trans spans_inj.symm, htext.trans ?_⟩
  exact applyAll_origin_eq_iff o o' edits edits'

/-- Reserved codes and the two outermost codes as ends of spans, with signs next to the points. -/
example :
    ((Origin.range (-2147483648) (-2)).set.applyAll [.insertRange 0 2147483647]).text =
      "\x7b-2147483648..<EPSILON>, 0..2147483647\x7d" ∧
    (Origin.ofList [-2, -1]).set.text = "\x7b<EPSILON>..<EOF>\x7d" ∧
    (Origin.singleton (-1)).set.text = "<EOF>" ∧ Origin.empty.set.text = "\x7b\x7d" := by decide

end TokenSet

end SyntaxRecovery
