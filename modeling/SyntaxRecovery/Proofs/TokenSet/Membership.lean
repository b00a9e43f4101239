import Mathlib.Data.List.Basic
import SyntaxRecovery.TokenSet.Basic

/-!
# Members of token sets

What the operations on token sets do to membership. `Span.within` finds exactly the codes that lie in
some span of a canonical list (`Span.within_iff`), so adding a range adds its codes and no other
(`TokenSet.mem_insertRange`), and the union of two sets has the members of both
(`TokenSet.mem_union`).
-/

set_option autoImplicit false

namespace SyntaxRecovery

namespace Span

open TokenCode

theorem mem_iff {s : Span} {c : TokenCode} :
    c ∈ s ↔ s.lo.toInt ≤ c.toInt ∧ c.toInt ≤ s.hi.toInt := by
  change s.lo ≤ c ∧ c ≤ s.hi ↔ _
  rw [le_iff, le_iff]

/-- In a canonical list the search for a code, which ends at the first span that begins after it,
misses no span. -/
theorem within_iff {c : TokenCode} {l : List Span} (hl : Canonical l) :
    within c l = true ↔ ∃ s ∈ l, c ∈ s := by
  induction l with
  | nil => simp [within]
  | cons s rest ih =>
    obtain ⟨-, hbefore, hrest⟩ := canonical_cons.1 hl
    rw [within]
    split
    · next hlt =>
      -- the spans that follow begin even later
      rw [lt_iff] at hlt
      refine ⟨fun h => absurd h Bool.false_ne_true, ?_⟩
      rintro ⟨t, ht, hct⟩
      rw [mem_iff] at hct
      rcases List.mem_cons.1 ht with rfl | ht
      · omega
      · have hgap := hbefore t ht
        have hle := (canonical_cons.1 hl).1
        rw [le_iff] at hle
        simp only [Before] at hgap
        omega
    · next hge =>
      rw [lt_iff] at hge
      split
      · next hle =>
        rw [le_iff] at hle
        refine ⟨fun _ => ⟨s, List.mem_cons_self, ?_⟩, fun _ => rfl⟩
        rw [mem_iff]
        omega
      · next hgt =>
        rw [le_iff] at hgt
        rw [ih hrest]
        constructor
        · rintro ⟨t, ht, hct⟩
          exact ⟨t, List.mem_cons_of_mem s ht, hct⟩
        · rintro ⟨t, ht, hct⟩
          rcases List.mem_cons.1 ht with rfl | ht
          · rw [mem_iff] at hct
            omega
          · exact ⟨t, ht, hct⟩

/-- A range that overlaps a span or touches it makes one range with it. -/
theorem mem_merge_iff {c lo hi : TokenCode} {s : Span} (hlo : ¬ s.hi.next < lo)
    (hhi : ¬ hi.next < s.lo) :
    c ∈ (⟨min lo s.lo, max hi s.hi⟩ : Span) ↔ c ∈ (⟨lo, hi⟩ : Span) ∨ c ∈ s := by
  rw [next_lt_iff] at hlo hhi
  simp only [mem_iff, toInt_min, toInt_max]
  omega

/-- The spans after a range is added hold the codes that they held and those of the range. -/
theorem exists_mem_join_iff {c lo hi : TokenCode} {l : List Span} (h : lo ≤ hi)
    (hl : Canonical l) : (∃ s ∈ join lo hi l, c ∈ s) ↔ c ∈ (⟨lo, hi⟩ : Span) ∨ ∃ s ∈ l, c ∈ s := by
  fun_induction join lo hi l with
  | case1 lo hi => simp
  | case2 lo hi s rest hs ih =>
    obtain ⟨-, -, hrest⟩ := canonical_cons.1 hl
    simp only [List.exists_mem_cons_iff, ih h hrest]
    exact or_left_comm
  | case3 lo hi s rest _ _ => rw [List.exists_mem_cons_iff]
  | case4 lo hi s rest hlo hhi ih =>
    obtain ⟨hs, -, hrest⟩ := canonical_cons.1 hl
    have hle : min lo s.lo ≤ max hi s.hi := by
      rw [le_iff] at *
      rw [toInt_min, toInt_max]
      omega
    rw [ih hle hrest, mem_merge_iff hlo hhi, List.exists_mem_cons_iff, or_assoc]

end Span

namespace TokenSet

variable {c : TokenCode} {s t : TokenSet}

/-- A code is a member if it lies in a span. -/
theorem mem_iff_exists_span : c ∈ s ↔ ∃ r ∈ s.spans, c ∈ r := Span.within_iff s.canonical

@[simp] theorem contains_iff : s.contains c = true ↔ c ∈ s := Iff.rfl

@[simp] theorem not_mem_empty : c ∉ (∅ : TokenSet) := by
  intro h
  obtain ⟨r, hr, -⟩ := mem_iff_exists_span.1 h
  exact absurd hr List.not_mem_nil

/-- Adding a range adds the codes that lie in it; an inverted range adds none. -/
theorem mem_insertRange {lo hi : TokenCode} :
    c ∈ s.insertRange lo hi ↔ c ∈ s ∨ (lo ≤ c ∧ c ≤ hi) := by
  rw [insertRange]
  split
  · next h =>
    simp only [mem_iff_exists_span, Span.exists_mem_join_iff h s.canonical]
    exact or_comm
  · next h =>
    rw [TokenCode.le_iff] at h
    simp only [TokenCode.le_iff]
    constructor
    · exact Or.inl
    · rintro (hc | ⟨hlo, hhi⟩)
      · exact hc
      · omega

@[simp] theorem mem_insert {d : TokenCode} : c ∈ s.insert d ↔ c ∈ s ∨ c = d := by
  rw [insert, mem_insertRange, ← Int32.toInt_inj, TokenCode.le_iff, TokenCode.le_iff]
  exact or_congr_right (by omega)

@[simp] theorem mem_singleton {d : TokenCode} : c ∈ ({d} : TokenSet) ↔ c = d := by
  change c ∈ insert ∅ d ↔ _
  rw [mem_insert]
  simp

@[simp] theorem mem_union : c ∈ s ∪ t ↔ c ∈ s ∨ c ∈ t := by
  have key : ∀ (l : List Span) (u : TokenSet),
      c ∈ l.foldl (fun u r => u.insertRange r.lo r.hi) u ↔ c ∈ u ∨ ∃ r ∈ l, c ∈ r := by
    intro l
    induction l with
    | nil => simp
    | cons r rest ih =>
      intro u
      rw [List.foldl_cons, ih, mem_insertRange, List.exists_mem_cons_iff, or_assoc]
      rfl
  change c ∈ t.spans.foldl _ s ↔ _
  rw [key, ← mem_iff_exists_span]

/-- The union of a list of sets has the members of all of them. -/
theorem mem_foldl_union {l : List TokenSet} :
    c ∈ l.foldl (· ∪ ·) s ↔ c ∈ s ∨ ∃ t ∈ l, c ∈ t := by
  induction l generalizing s with
  | nil => simp
  | cons t rest ih => rw [List.foldl_cons, ih, mem_union, List.exists_mem_cons_iff, or_assoc]

end TokenSet

end SyntaxRecovery
