import Mathlib
import SyntaxRecovery.Proofs.TokenSet.History

/-!
# Equal token sets

Two token sets are compared by their spans. As these are canonical, sets are equal exactly if no code
is in one and not in the other, and so exactly if the changes that have led to them lead to the same
set of integers (`TokenSet.spans_eq_iff_of_histories`). Equations between sets are therefore equations
between their members: it makes no difference in which order sets are united or the codes of a list
are added, and a code that is added and taken out again leaves nothing behind.
-/

set_option autoImplicit false

namespace SyntaxRecovery

namespace TokenSet

variable {s t : TokenSet} {c : TokenCode} {codes codes' : List TokenCode}

/-! ## Equations -/

/-- Sets are told apart by their spans. -/
theorem spans_inj : s.spans = t.spans ↔ s = t := by
  constructor
  · intro h
    cases s
    cases t
    cases h
    rfl
  · exact congrArg spans

theorem eq_iff_contains_eq : s = t ↔ ∀ c, s.contains c = t.contains c := by
  constructor
  · rintro rfl c
    rfl
  · intro h
    apply eq_of_mem_iff
    intro c
    rw [← contains_iff, h c, contains_iff]

@[simp] theorem union_empty (s : TokenSet) : s ∪ ∅ = s := rfl

theorem union_comm (s t : TokenSet) : s ∪ t = t ∪ s := by
  apply eq_of_mem_iff
  intro c
  rw [mem_union, mem_union, or_comm]

@[simp] theorem empty_union (s : TokenSet) : ∅ ∪ s = s := union_comm ∅ s

theorem union_assoc (s t u : TokenSet) : s ∪ t ∪ u = s ∪ (t ∪ u) := by
  apply eq_of_mem_iff
  intro c
  rw [mem_union, mem_union, mem_union, mem_union, or_assoc]

theorem union_self (s : TokenSet) : s ∪ s = s := by
  apply eq_of_mem_iff
  intro c
  rw [mem_union, or_self]

/-- The codes of a list are added in whatever order and however often they stand in it. -/
theorem insertMany_congr (s : TokenSet) (h : ∀ c, c ∈ codes ↔ c ∈ codes') :
    s.insertMany codes = s.insertMany codes' := by
  apply eq_of_mem_iff
  intro c
  rw [mem_insertMany, mem_insertMany, h c]

/-- A code that is added and taken out again leaves the set as it was. -/
theorem erase_insert (h : c ∉ s) : (s.insert c).erase c = s := by
  apply eq_of_mem_iff
  intro d
  rw [mem_erase, mem_insert]
  constructor
  · rintro ⟨hd | hd, hne⟩
    · exact hd
    · exact absurd hd hne
  · intro hd
    refine ⟨Or.inl hd, ?_⟩
    rintro rfl
    exact h hd

/-! ## Histories that lead to one set -/

/-- Integers that stand for codes. -/
def Coded (S : Set Int) : Prop := ∀ n ∈ S, ∃ c : TokenCode, c.toInt = n

/-- Between two codes every integer stands for a code. -/
theorem coded_Icc (lo hi : TokenCode) : Coded (Set.Icc lo.toInt hi.toInt) := by
  rintro n ⟨hlo, hhi⟩
  have hleast := TokenCode.toInt_bounds lo
  have hgreatest := TokenCode.toInt_bounds hi
  exact ⟨Int32.ofInt n, Int32.toInt_ofInt_of_le (by omega) (by omega)⟩

/-- No change brings in an integer that stands for no code. -/
theorem Coded.onSet {S : Set Int} (h : Coded S) (e : Edit) : Coded (e.onSet S) := by
  intro n hn
  cases e with
  | insert c =>
    rcases hn with hn | rfl
    · exact h n hn
    · exact ⟨c, rfl⟩
  | insertRange lo hi =>
    rcases hn with hn | hn
    · exact h n hn
    · exact coded_Icc lo hi n hn
  | insertMany codes =>
    rcases hn with hn | ⟨c, -, rfl⟩
    · exact h n hn
    · exact ⟨c, rfl⟩
  | union t =>
    rcases hn with hn | ⟨r, hr, hn⟩
    · exact h n hn
    · obtain ⟨span, -, rfl⟩ := List.mem_map.1 hr
      exact coded_Icc span.lo span.hi n hn
  | erase c => exact h n hn.1

theorem coded_foldl_onSet {S : Set Int} (h : Coded S) (edits : List Edit) :
    Coded (edits.foldl Edit.onSet S) := by
  induction edits generalizing S with
  | nil => exact h
  | cons e edits ih => exact ih (h.onSet e)

/-- Sets of integers that stand for codes are the same if they are so on the codes. -/
theorem Coded.eq_of_mem_iff {S T : Set Int} (hS : Coded S) (hT : Coded T)
    (h : ∀ c : TokenCode, c.toInt ∈ S ↔ c.toInt ∈ T) : S = T := by
  ext n
  constructor
  · intro hn
    obtain ⟨c, rfl⟩ := hS n hn
    exact (h c).1 hn
  · intro hn
    obtain ⟨c, rfl⟩ := hT n hn
    exact (h c).2 hn

/-- What is found in a set is what its history makes of the integers. -/
theorem mem_applyAll_origin_iff (o : Origin) (edits : List Edit) (c : TokenCode) :
    c ∈ o.set.applyAll edits ↔ c.toInt ∈ (o.edits ++ edits).foldl Edit.onSet ∅ := by
  have hbegin : ∀ d : TokenCode, d ∈ (∅ : TokenSet) ↔ d.toInt ∈ (∅ : Set Int) :=
    fun d => iff_of_false not_mem_empty (Set.notMem_empty d.toInt)
  rw [Origin.set_eq_applyAll, applyAll, applyAll, ← List.foldl_append]
  exact mem_applyAll_iff hbegin (o.edits ++ edits) c

/-- Sets are the same exactly if their histories lead to one set of integers. -/
theorem applyAll_origin_eq_iff (o o' : Origin) (edits edits' : List Edit) :
    o.set.applyAll edits = o'.set.applyAll edits' ↔
      (o.edits ++ edits).foldl Edit.onSet ∅ = (o'.edits ++ edits').foldl Edit.onSet ∅ := by
  have hempty : Coded ∅ := fun n hn => absurd hn (Set.notMem_empty n)
  constructor
  · intro h
    apply (coded_foldl_onSet hempty _).eq_of_mem_iff (coded_foldl_onSet hempty _)
    intro c
    rw [← mem_applyAll_origin_iff, ← mem_applyAll_origin_iff, h]
  · intro h
    apply TokenSet.eq_of_mem_iff
    intro c
    rw [mem_applyAll_origin_iff, mem_applyAll_origin_iff, h]

/-- However two sets have begun and whatever has been done to them, they have the same spans exactly if
the same codes are found in them, and exactly if the same unions and differences make one set of
integers of the two. So the union of sets does not depend on their order, on how they are grouped or on
repetitions, the codes of two lists make one set if each of them is in both, and a code that was not in
a set leaves it unchanged if it is added and taken out. -/
theorem spans_eq_iff_of_histories (o o' : Origin) (edits edits' : List Edit) :
    let s := o.set.applyAll edits
    let t := o'.set.applyAll edits'
    (s.spans = t.spans ↔ ∀ c, s.contains c = t.contains c) ∧
    (s.spans = t.spans ↔
      (o.edits ++ edits).foldl Edit.onSet ∅ = (o'.edits ++ edits').foldl Edit.onSet ∅) ∧
    s ∪ t = t ∪ s ∧ (∀ u : TokenSet, s ∪ t ∪ u = s ∪ (t ∪ u)) ∧ s ∪ s = s ∧
    (∀ codes codes' : List TokenCode, (∀ c, c ∈ codes ↔ c ∈ codes') →
      ofList codes = ofList codes' ∧ s.insertMany codes = s.insertMany codes') ∧
    ∀ c, s.contains c = false → (s.insert c).erase c = s := by
  intro s t
  refine ⟨spans_inj.trans eq_iff_contains_eq, ?_, union_comm s t, union_assoc s t, union_self s, ?_, ?_⟩
  · exact spans_inj.trans (applyAll_origin_eq_iff o o' edits edits')
  · intro codes codes' h
    exact ⟨insertMany_congr ∅ h, insertMany_congr s h⟩
  · intro c hc
    apply erase_insert
    rw [← contains_iff, hc]
    exact Bool.false_ne_true

/-- At the greatest code a span is cut in two and made whole again, and it is the span that the codes
make one by one. -/
example :
    ((Origin.range 2147483645 2147483647).set.applyAll [.erase 2147483646, .insert 2147483646]).spans =
      (Origin.ofList [2147483647, 2147483645, 2147483647, 2147483646]).set.spans := by decide

end TokenSet

end SyntaxRecovery
