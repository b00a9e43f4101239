import SyntaxRecovery.Proofs.TokenSet.Membership

/-!
# Token sets are told by their members

A canonical list begins with the span of its least code, and that span ends where the next code is
missing, so the codes of the list determine it (`Span.eq_of_exists_mem_iff`). Two token sets with the
same members are therefore one value (`TokenSet.eq_of_mem_iff`), and what an operation does to a set
is said by what it does to membership. Taking out a code is the operation still to be told
(`TokenSet.mem_erase`).
-/

set_option autoImplicit false

namespace SyntaxRecovery

namespace Span

open TokenCode

variable {s t r : Span} {c : TokenCode} {l m : List Span}

theorem lo_mem (h : s.lo ≤ s.hi) : s.lo ∈ s := by
  rw [mem_iff]
  rw [le_iff] at h
  omega

/-- The codes of the spans behind the first lie beyond it, with a gap. -/
theorem lt_of_mem_rest (hl : Canonical (s :: l)) (hr : r ∈ l) (hc : c ∈ r) :
    s.hi.toInt + 1 < c.toInt := by
  have hbefore := (canonical_cons.1 hl).2.1 r hr
  rw [mem_iff] at hc
  simp only [Before] at hbefore
  omega

/-- The first span begins with the least code. -/
theorem lo_le_of_exists_mem (hl : Canonical (s :: l)) (hc : ∃ r ∈ s :: l, c ∈ r) :
    s.lo.toInt ≤ c.toInt := by
  obtain ⟨r, hr, hcr⟩ := hc
  rcases List.mem_cons.1 hr with rfl | hr
  · exact (mem_iff.1 hcr).1
  · have hlt := lt_of_mem_rest hl hr hcr
    have hle := le_iff.1 (canonical_cons.1 hl).1
    omega

/-- The first span ends where a code is missing. -/
theorem not_exists_mem_past (hl : Canonical (s :: l)) (hc : c.toInt = s.hi.toInt + 1) :
    ¬ ∃ r ∈ s :: l, c ∈ r := by
  rintro ⟨r, hr, hcr⟩
  rcases List.mem_cons.1 hr with rfl | hr
  · rw [mem_iff] at hcr
    omega
  · have hlt := lt_of_mem_rest hl hr hcr
    omega

/-- If all codes of one list are in another that begins with the same code, then the first span of
the one does not go beyond that of the other. -/
theorem hi_le_of_subset (hm : Canonical (t :: m)) (hlo : s.lo = t.lo)
    (h : ∀ c, (∃ r ∈ s :: l, c ∈ r) → ∃ r ∈ t :: m, c ∈ r) : s.hi.toInt ≤ t.hi.toInt := by
  by_contra hgt
  have hbound := toInt_bounds s.hi
  have hle := le_iff.1 (canonical_cons.1 hm).1
  -- else the code just past the second would be in the first
  have hpast : (t.hi + 1).toInt = t.hi.toInt + 1 := toInt_add_one (by omega)
  apply not_exists_mem_past hm hpast
  apply h
  refine ⟨s, List.mem_cons_self, ?_⟩
  rw [mem_iff, hlo, hpast]
  omega

/-- The codes behind the first span are those of the list that are not in it. -/
theorem exists_mem_rest_iff (hl : Canonical (s :: l)) :
    (∃ r ∈ l, c ∈ r) ↔ (∃ r ∈ s :: l, c ∈ r) ∧ c ∉ s := by
  constructor
  · rintro ⟨r, hr, hcr⟩
    refine ⟨⟨r, List.mem_cons_of_mem s hr, hcr⟩, ?_⟩
    intro hcs
    have hlt := lt_of_mem_rest hl hr hcr
    rw [mem_iff] at hcs
    omega
  · rintro ⟨⟨r, hr, hcr⟩, hcs⟩
    rcases List.mem_cons.1 hr with rfl | hr
    · exact absurd hcr hcs
    · exact ⟨r, hr, hcr⟩

/-- Canonical lists with the same codes are the same. -/
theorem eq_of_exists_mem_iff (hl : Canonical l) (hm : Canonical m)
    (h : ∀ c, (∃ r ∈ l, c ∈ r) ↔ ∃ r ∈ m, c ∈ r) : l = m := by
  induction l generalizing m with
  | nil =>
    cases m with
    | nil => rfl
    | cons t m =>
      obtain ⟨r, hr, -⟩ := (h t.lo).2 ⟨t, List.mem_cons_self, lo_mem (canonical_cons.1 hm).1⟩
      exact absurd hr List.not_mem_nil
  | cons s l ih =>
    have hslo := lo_mem (canonical_cons.1 hl).1
    cases m with
    | nil =>
      obtain ⟨r, hr, -⟩ := (h s.lo).1 ⟨s, List.mem_cons_self, hslo⟩
      exact absurd hr List.not_mem_nil
    | cons t m =>
      have htlo := lo_mem (canonical_cons.1 hm).1
      have hlo : s.lo = t.lo := by
        have hle := lo_le_of_exists_mem hl ((h t.lo).2 ⟨t, List.mem_cons_self, htlo⟩)
        have hge := lo_le_of_exists_mem hm ((h s.lo).1 ⟨s, List.mem_cons_self, hslo⟩)
        exact Int32.toInt_inj.1 (by omega)
      have hhi : s.hi = t.hi := by
        have hle := hi_le_of_subset hm hlo fun c => (h c).1
        have hge := hi_le_of_subset hl hlo.symm fun c => (h c).2
        exact Int32.toInt_inj.1 (by omega)
      have hst : s = t := by
        cases s
        cases t
        simp only [mk.injEq]
        exact ⟨hlo, hhi⟩
      subst hst
      congr 1
      apply ih (canonical_cons.1 hl).2.2 (canonical_cons.1 hm).2.2
      intro c
      rw [exists_mem_rest_iff hl, exists_mem_rest_iff hm, h c]

/-- The codes of a span below one of its codes. -/
theorem exists_mem_below_iff {lo d : TokenCode} :
    (∃ r ∈ (if lo < d then [(⟨lo, d - 1⟩ : Span)] else []), c ∈ r) ↔
      lo.toInt ≤ c.toInt ∧ c.toInt < d.toInt := by
  have hbound := toInt_bounds lo
  split
  · next hlt =>
    rw [lt_iff] at hlt
    simp only [List.mem_singleton, exists_eq_left, mem_iff, toInt_sub_one (c := d) (by omega)]
    omega
  · next hge =>
    rw [lt_iff] at hge
    simp only [List.not_mem_nil, false_and, exists_false, false_iff]
    omega

/-- The codes of a span above one of its codes. -/
theorem exists_mem_above_iff {hi d : TokenCode} :
    (∃ r ∈ (if d < hi then [(⟨d + 1, hi⟩ : Span)] else []), c ∈ r) ↔
      d.toInt < c.toInt ∧ c.toInt ≤ hi.toInt := by
  have hbound := toInt_bounds hi
  split
  · next hlt =>
    rw [lt_iff] at hlt
    simp only [List.mem_singleton, exists_eq_left, mem_iff, toInt_add_one (c := d) (by omega)]
    omega
  · next hge =>
    rw [lt_iff] at hge
    simp only [List.not_mem_nil, false_and, exists_false, false_iff]
    omega

/-- The codes after one is taken out are the others. -/
theorem exists_mem_drop_iff {d : TokenCode} (hl : Canonical l) :
    (∃ r ∈ drop d l, c ∈ r) ↔ (∃ r ∈ l, c ∈ r) ∧ c ≠ d := by
  fun_induction drop d l with
  | case1 => simp
  | case2 s rest hd =>
    have hrest : (∃ r ∈ rest, c ∈ r) → c ≠ d := by
      rintro ⟨r, hr, hcr⟩ rfl
      have hlt := lt_of_mem_rest hl hr hcr
      rw [mem_iff] at hd
      omega
    -- below the code, above it, and behind the span
    have hparts : c ∈ s ∧ c ≠ d ↔ (s.lo.toInt ≤ c.toInt ∧ c.toInt < d.toInt) ∨
        (d.toInt < c.toInt ∧ c.toInt ≤ s.hi.toInt) := by
      have hne : c ≠ d ↔ c.toInt ≠ d.toInt := not_congr Int32.toInt_inj.symm
      rw [mem_iff] at hd
      rw [mem_iff, hne]
      omega
    simp only [List.mem_append, or_and_right, exists_or, exists_mem_below_iff, exists_mem_above_iff,
      List.exists_mem_cons_iff, and_iff_left_of_imp hrest, hparts]
  | case3 s rest hd ih =>
    have hs : c ∈ s → c ≠ d := by
      rintro hcs rfl
      exact hd hcs
    rw [List.exists_mem_cons_iff, List.exists_mem_cons_iff, ih (canonical_cons.1 hl).2.2,
      or_and_right, and_iff_left_of_imp hs]

end Span

namespace TokenSet

variable {c d : TokenCode} {s t : TokenSet}

/-- Token sets with the same members are the same. -/
theorem eq_of_mem_iff (h : ∀ c, c ∈ s ↔ c ∈ t) : s = t := by
  have hspans : s.spans = t.spans := by
    apply Span.eq_of_exists_mem_iff s.canonical t.canonical
    intro c
    rw [← mem_iff_exists_span, ← mem_iff_exists_span]
    exact h c
  cases s
  cases t
  simp only [mk.injEq]
  exact hspans

@[simp] theorem mem_erase : c ∈ s.erase d ↔ c ∈ s ∧ c ≠ d := by
  rw [mem_iff_exists_span, mem_iff_exists_span]
  exact Span.exists_mem_drop_iff s.canonical

theorem min?_eq_none_iff : s.min? = none ↔ s = ∅ := by
  obtain ⟨spans, hcanonical⟩ := s
  cases spans with
  | nil => exact iff_of_true rfl rfl
  | cons r rest =>
    refine iff_of_false (fun h => Option.some_ne_none _ h) ?_
    intro h
    cases h

/-- The least member is a member, and none is less. -/
theorem le_of_min?_eq_some (h : s.min? = some d) : d ∈ s ∧ ∀ c ∈ s, d ≤ c := by
  obtain ⟨spans, hcanonical⟩ := s
  cases spans with
  | nil => cases h
  | cons r rest =>
    cases h
    have hlo : r.lo ∈ r := Span.lo_mem (Span.canonical_cons.1 hcanonical).1
    refine ⟨mem_iff_exists_span.2 ⟨r, List.mem_cons_self, hlo⟩, ?_⟩
    intro c hc
    rw [TokenCode.le_iff]
    exact Span.lo_le_of_exists_mem hcanonical (mem_iff_exists_span.1 hc)

end TokenSet

end SyntaxRecovery
