import SyntaxRecovery.TokenCode

/-!
# Spans of token codes

An inclusive range of codes, and lists of ranges in canonical order: none empty, ascending, and with
at least one code missing between neighbours. `join` and `drop` add a range to such a list and take
a code out of it; `join_canonical` and `drop_canonical` say that the order is kept.
-/

set_option autoImplicit false

namespace SyntaxRecovery

/-- The codes from `lo` to `hi`, both included; none if `hi < lo`. -/
structure Span where
  /-- The first code. -/
  lo : TokenCode
  /-- The last code. -/
  hi : TokenCode
deriving DecidableEq, Repr, Inhabited

namespace Span

/-- Membership: a code lies between the ends. -/
instance : Membership TokenCode Span where
  mem s c := s.lo ≤ c ∧ c ≤ s.hi

instance (c : TokenCode) (s : Span) : Decidable (c ∈ s) :=
  inferInstanceAs (Decidable (s.lo ≤ c ∧ c ≤ s.hi))

/-- Number of codes. -/
def size (s : Span) : Nat := (s.hi.toInt - s.lo.toInt + 1).toNat

/-- The first `n` codes of a span, or all of them if there are fewer, in ascending order. -/
def take (s : Span) (n : Nat) : List TokenCode :=
  (List.range (min n s.size)).map fun (k : Nat) => Int32.ofInt (s.lo.toInt + k)

/-- All codes in ascending order. -/
def codes (s : Span) : List TokenCode := s.take s.size

/-- `s` ends at least two codes before `t` begins, so that the two cannot be one span. -/
def Before (s t : Span) : Prop := s.hi.toInt + 1 < t.lo.toInt

instance (s t : Span) : Decidable (s.Before t) :=
  inferInstanceAs (Decidable (s.hi.toInt + 1 < t.lo.toInt))

/-- No span is empty, and each ends at least two codes before the next begins. -/
def Canonical (l : List Span) : Prop :=
  (∀ s ∈ l, s.lo ≤ s.hi) ∧ l.Pairwise Before

instance (l : List Span) : Decidable (Canonical l) :=
  inferInstanceAs (Decidable ((∀ s ∈ l, s.lo ≤ s.hi) ∧ l.Pairwise Before))

/-- A list of spans with the codes from `lo` to `hi` added. Spans that overlap the range or touch it
become one with it. -/
def join (lo hi : TokenCode) : List Span → List Span
  | [] => [⟨lo, hi⟩]
  | s :: rest =>
    if s.hi.next < lo then s :: join lo hi rest
    else if hi.next < s.lo then ⟨lo, hi⟩ :: s :: rest
    -- the two overlap or touch, so the range takes in the span
    else join (min lo s.lo) (max hi s.hi) rest

/-- A list of spans without the code `c`: the span that holds it is cut in two, and an empty part is
left out. -/
def drop (c : TokenCode) : List Span → List Span
  | [] => []
  | s :: rest =>
    if c ∈ s then
      (if s.lo < c then [⟨s.lo, c - 1⟩] else []) ++ (if c < s.hi then [⟨c + 1, s.hi⟩] else []) ++ rest
    else s :: drop c rest

/-- Whether a code lies in one of the spans; the search ends at the first span that begins after
the code. -/
def within (c : TokenCode) : List Span → Bool
  | [] => false
  | s :: rest => if c < s.lo then false else if c ≤ s.hi then true else within c rest

/-- The first `n` codes of a list of spans. -/
def takeCodes : Nat → List Span → List TokenCode
  | _, [] => []
  | n, s :: rest => if n = 0 then [] else s.take n ++ takeCodes (n - s.size) rest

open TokenCode

theorem canonical_nil : Canonical [] := by simp [Canonical]

theorem canonical_cons {s : Span} {l : List Span} :
    Canonical (s :: l) ↔ s.lo ≤ s.hi ∧ (∀ t ∈ l, s.Before t) ∧ Canonical l := by
  simp only [Canonical, List.mem_cons, forall_eq_or_imp, List.pairwise_cons]
  grind

/-- A lower bound of the added range and of the list bounds the result. -/
theorem lt_lo_of_mem_join {k : Int} {t : Span} {lo hi : TokenCode} {l : List Span}
    (ht : t ∈ join lo hi l) (hlo : k < lo.toInt) (hl : ∀ s ∈ l, k < s.lo.toInt) :
    k < t.lo.toInt := by
  fun_induction join lo hi l with
  | case1 lo hi => simp_all
  | case2 lo hi s rest _ ih =>
    rcases List.mem_cons.1 ht with rfl | ht
    · exact hl _ (by simp)
    · exact ih ht hlo fun u hu => hl u (by simp [hu])
  | case3 lo hi s rest _ _ =>
    rcases List.mem_cons.1 ht with rfl | ht
    · exact hlo
    · exact hl t ht
  | case4 lo hi s rest _ _ ih =>
    have hs := hl s (by simp)
    refine ih ht ?_ fun u hu => hl u (by simp [hu])
    rw [toInt_min]; omega

/-- Adding a range keeps the canonical order. -/
theorem join_canonical {lo hi : TokenCode} {l : List Span} (h : lo ≤ hi) (hl : Canonical l) :
    Canonical (join lo hi l) := by
  fun_induction join lo hi l with
  | case1 lo hi => simpa [Canonical] using h
  | case2 lo hi s rest hs ih =>
    obtain ⟨hle, hbefore, hrest⟩ := canonical_cons.1 hl
    refine canonical_cons.2 ⟨hle, fun t ht => ?_, ih h hrest⟩
    exact lt_lo_of_mem_join ht (next_lt_iff.1 hs) hbefore
  | case3 lo hi s rest _ hs =>
    obtain ⟨hle, hbefore, -⟩ := canonical_cons.1 hl
    refine canonical_cons.2 ⟨h, fun t ht => ?_, hl⟩
    have hgap := next_lt_iff.1 hs
    rcases List.mem_cons.1 ht with rfl | ht
    · exact hgap
    · have hafter := hbefore t ht
      rw [le_iff] at hle
      simp only [Before] at *
      omega
  | case4 lo hi s rest _ _ ih =>
    obtain ⟨hle, -, hrest⟩ := canonical_cons.1 hl
    refine ih ?_ hrest
    rw [le_iff] at *
    rw [toInt_min, toInt_max]
    omega

/-- Taking a code out adds none: a lower bound of the list bounds what is left. -/
theorem lt_lo_of_mem_drop {k : Int} {t : Span} {c : TokenCode} {l : List Span}
    (ht : t ∈ drop c l) (hl : ∀ s ∈ l, k < s.lo.toInt) : k < t.lo.toInt := by
  fun_induction drop c l with
  | case1 => simp at ht
  | case2 s rest hc =>
    have hs := hl s (by simp)
    have hlo : s.lo.toInt ≤ c.toInt := le_iff.1 hc.1
    simp only [List.mem_append] at ht
    rcases ht with (ht | ht) | ht
    · split at ht <;> simp_all
    · split at ht
      · next hlt =>
        have hbound := toInt_bounds s.hi
        simp only [List.mem_singleton] at ht
        subst ht
        have := lt_iff.1 hlt
        rw [toInt_add_one (by omega)]
        omega
      · simp at ht
    · exact hl t (by simp [ht])
  | case3 s rest _ ih =>
    rcases List.mem_cons.1 ht with rfl | ht
    · exact hl t (by simp)
    · exact ih ht fun u hu => hl u (by simp [hu])

/-- Taking out a code keeps the canonical order. -/
theorem drop_canonical {c : TokenCode} {l : List Span} (hl : Canonical l) : Canonical (drop c l) := by
  fun_induction drop c l with
  | case1 => exact canonical_nil
  | case2 s rest hc =>
    obtain ⟨hle, hbefore, hrest⟩ := canonical_cons.1 hl
    have hlo := le_iff.1 hc.1
    have hhi := le_iff.1 hc.2
    have hb := toInt_bounds s.lo
    have hb' := toInt_bounds s.hi
    -- the upper part, if any, stands before the rest just as `s` did
    have hupper : Canonical ((if c < s.hi then [⟨c + 1, s.hi⟩] else []) ++ rest) := by
      split
      · next hlt =>
        have hlt := lt_iff.1 hlt
        rw [List.singleton_append]
        refine canonical_cons.2 ⟨?_, fun t ht => hbefore t ht, hrest⟩
        simp only [le_iff, toInt_add_one (show c.toInt < 2147483647 by omega)]
        omega
      · exact hrest
    rw [List.append_assoc]
    split
    · next hlt =>
      have hlt := lt_iff.1 hlt
      have hpred : (c - 1).toInt = c.toInt - 1 := toInt_sub_one (by omega)
      rw [List.singleton_append]
      refine canonical_cons.2 ⟨?_, fun t ht => ?_, hupper⟩
      · simp only [le_iff, hpred]; omega
      · simp only [Before, hpred]
        rcases List.mem_append.1 ht with ht | ht
        · split at ht
          · next hlt =>
            have hlt := lt_iff.1 hlt
            simp only [List.mem_singleton] at ht
            subst ht
            simp only [toInt_add_one (show c.toInt < 2147483647 by omega)]
            omega
          · simp at ht
        · have := hbefore t ht
          simp only [Before] at this
          omega
    · exact hupper
  | case3 s rest _ ih =>
    obtain ⟨hle, hbefore, hrest⟩ := canonical_cons.1 hl
    exact canonical_cons.2 ⟨hle, fun t ht => lt_lo_of_mem_drop ht hbefore, ih hrest⟩

end Span

end SyntaxRecovery
