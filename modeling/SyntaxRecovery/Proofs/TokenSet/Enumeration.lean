import Mathlib
import SyntaxRecovery.Proofs.TokenSet.Equality
import SyntaxRecovery.Proofs.Word

/-!
# Enumerated token sets

The members of a token set can be listed, counted and looked up, and the least of them can be asked for;
each of these reads the spans in its own way. The list is made of the codes of one span after the other
(`TokenSet.toList_eq_flatMap`), so it ascends and has every member once. Its length is the sum of the
sizes of the spans, and neither these sizes nor their sum leave a word (`TokenSet.wordSize?_eq`). The
main statement puts the readings together for a set with any history (`TokenSet.enumerated_of_history`).
-/

set_option autoImplicit false

namespace SyntaxRecovery

/-! ## The codes of a span -/

namespace Span

open TokenCode

variable {s t : Span} {l : List Span} {c d : TokenCode} {n k : Nat}

@[simp] theorem length_codes (s : Span) : s.codes.length = s.size := by
  simp [codes, take]

/-- The first codes of a span are the first of all its codes. -/
theorem take_eq (s : Span) (n : Nat) : s.take n = s.codes.take n := by
  simp only [codes, take, Nat.min_self, ← List.map_take, List.take_range]

/-- Counted from the first code of a span, no code before its end is out of bounds. -/
theorem toInt_ofInt_lo_add (h : k < s.size) :
    (Int32.ofInt (s.lo.toInt + k)).toInt = s.lo.toInt + k := by
  have hlo := toInt_bounds s.lo
  have hhi := toInt_bounds s.hi
  rw [size] at h
  exact Int32.toInt_ofInt_of_le (by omega) (by omega)

@[simp] theorem mem_codes : c ∈ s.codes ↔ c ∈ s := by
  simp only [codes, take, Nat.min_self, List.mem_map, List.mem_range, mem_iff]
  constructor
  · rintro ⟨k, hk, rfl⟩
    rw [toInt_ofInt_lo_add hk]
    rw [size] at hk
    omega
  · rintro ⟨hlo, hhi⟩
    have hk : (c.toInt - s.lo.toInt).toNat < s.size := by
      rw [size]
      omega
    refine ⟨_, hk, ?_⟩
    rw [← Int32.toInt_inj, toInt_ofInt_lo_add hk]
    omega

/-- The codes of a span ascend. -/
theorem pairwise_codes (s : Span) : s.codes.Pairwise (· < ·) := by
  simp only [codes, take, Nat.min_self, List.pairwise_map]
  apply List.pairwise_lt_range.imp_of_mem
  intro i j hi hj hij
  rw [List.mem_range] at hi hj
  rw [lt_iff, toInt_ofInt_lo_add hi, toInt_ofInt_lo_add hj]
  omega

theorem size_pos (h : s.lo ≤ s.hi) : 0 < s.size := by
  rw [le_iff] at h
  rw [size]
  omega

/-- A span that is not empty begins with its first code. -/
theorem head?_codes (h : s.lo ≤ s.hi) : s.codes.head? = some s.lo := by
  obtain ⟨n, hn⟩ := Nat.exists_eq_succ_of_ne_zero (size_pos h).ne'
  simp [codes, take, hn, List.range_succ_eq_map]

/-- All codes of a span that ends before another are less than those of the other. -/
theorem lt_of_before (h : s.Before t) (hc : c ∈ s) (hd : d ∈ t) : c < d := by
  rw [mem_iff] at hc hd
  rw [lt_iff]
  simp only [Before] at h
  omega

/-! ## The codes of a list of spans -/

theorem takeCodes_eq (n : Nat) (l : List Span) : takeCodes n l = (l.flatMap codes).take n := by
  induction l generalizing n with
  | nil => simp [takeCodes]
  | cons s rest ih =>
    rw [takeCodes]
    split
    · next hn => simp [hn]
    · rw [List.flatMap_cons, List.take_append, length_codes, take_eq, ih]

/-- In canonical order the codes ascend from span to span. -/
theorem pairwise_flatMap_codes (hl : Canonical l) : (l.flatMap codes).Pairwise (· < ·) := by
  rw [List.pairwise_flatMap]
  refine ⟨fun s _ => pairwise_codes s, hl.2.imp ?_⟩
  intro s t hst c hc d hd
  exact lt_of_before hst (mem_codes.1 hc) (mem_codes.1 hd)

/-- Spans beyond a number do not have more codes than there are beyond it. Every span begins beyond the
end of the one before it, so their sizes add up to no more than the way to the greatest code. -/
theorem sum_size_le {m : Int} (hl : Canonical l) (hm : m ≤ 2147483647)
    (h : ∀ s ∈ l, m < s.lo.toInt) : m + ((l.map size).sum : Nat) ≤ 2147483647 := by
  induction l generalizing m with
  | nil => simpa using hm
  | cons s rest ih =>
    obtain ⟨hle, hbefore, hrest⟩ := canonical_cons.1 hl
    have hlo := h s List.mem_cons_self
    have hhi := toInt_bounds s.hi
    have htail := ih hrest hhi.2 fun t ht => by
      have := hbefore t ht
      simp only [Before] at this
      omega
    rw [le_iff] at hle
    rw [List.map_cons, List.sum_cons, size]
    omega

end Span

/-! ## Sizes on words -/

/-- Number of codes of a span, computed on signed words; a number below zero counts as none. -/
def Span.wordSize? (s : Span) : Option Nat := do
  let difference ← Word.signed? (s.hi.toInt - s.lo.toInt)
  let count ← Word.signed? (difference + 1)
  some count.toNat

/-- Number of members, the sizes of the spans added up on words. -/
def TokenSet.wordSize? (s : TokenSet) : Option Nat :=
  s.spans.foldlM (fun n r => r.wordSize?.bind (Word.add? n)) 0

/-- The ends of a span are codes, so their difference fits into a signed word. -/
theorem Span.wordSize?_eq (s : Span) : s.wordSize? = some s.size := by
  have hlo := TokenCode.toInt_bounds s.lo
  have hhi := TokenCode.toInt_bounds s.hi
  have hdifference : Word.signed? (s.hi.toInt - s.lo.toInt) = some (s.hi.toInt - s.lo.toInt) :=
    Word.signed?_of_bounds (by omega) (by omega)
  have hcount : Word.signed? (s.hi.toInt - s.lo.toInt + 1) = some (s.hi.toInt - s.lo.toInt + 1) :=
    Word.signed?_of_bounds (by omega) (by omega)
  simp only [wordSize?, hdifference, hcount, Option.bind_eq_bind, Option.bind_some, size]

namespace TokenSet

variable {s : TokenSet} {c : TokenCode}

theorem size_eq_sum (s : TokenSet) : s.size = (s.spans.map Span.size).sum := by
  rw [size, List.sum_eq_foldr, List.foldr_map]

/-- A set has at most as many members as there are codes. -/
theorem size_le (s : TokenSet) : s.size ≤ 2 ^ 32 := by
  have hsum := Span.sum_size_le (m := -2147483649) s.canonical (by omega) fun r _ => by
    have := TokenCode.toInt_bounds r.lo
    omega
  rw [size_eq_sum]
  omega

/-- Sizes whose sum fits into a word are added up on words. -/
theorem wordSize?_eq (s : TokenSet) : s.wordSize? = some s.size := by
  have key : ∀ (l : List Span) (n : Nat), n + (l.map Span.size).sum < Word.limit →
      l.foldlM (fun n r => r.wordSize?.bind (Word.add? n)) n = some (n + (l.map Span.size).sum) := by
    intro l
    induction l with
    | nil =>
      intro n _
      rfl
    | cons r rest ih =>
      intro n h
      rw [List.map_cons, List.sum_cons, ← Nat.add_assoc] at h
      rw [List.foldlM_cons, Span.wordSize?_eq, Option.bind_some, Word.add?_of_lt (by omega),
        Option.bind_eq_bind, Option.bind_some, ih _ h, List.map_cons, List.sum_cons, Nat.add_assoc]
  have hle := s.size_le
  rw [size_eq_sum] at hle ⊢
  rw [wordSize?, key s.spans 0 (by rw [Word.limit]; omega), Nat.zero_add]

/-! ## The list of the members -/

/-- The first members are the first of the codes of all spans. -/
theorem take_eq_take_flatMap (s : TokenSet) (n : Nat) :
    s.take n = (s.spans.flatMap Span.codes).take n := Span.takeCodes_eq n s.spans

theorem length_flatMap_codes (s : TokenSet) : (s.spans.flatMap Span.codes).length = s.size := by
  rw [List.length_flatMap, size_eq_sum]
  simp

/-- The list of the members is made of the codes of one span after the other. -/
theorem toList_eq_flatMap (s : TokenSet) : s.toList = s.spans.flatMap Span.codes := by
  rw [toList, take_eq_take_flatMap, ← length_flatMap_codes, List.take_length]

theorem take_eq_take_toList (s : TokenSet) (n : Nat) : s.take n = s.toList.take n := by
  rw [take_eq_take_flatMap, toList_eq_flatMap]

@[simp] theorem length_toList (s : TokenSet) : s.toList.length = s.size := by
  rw [toList_eq_flatMap, length_flatMap_codes]

@[simp] theorem mem_toList : c ∈ s.toList ↔ c ∈ s := by
  simp [toList_eq_flatMap, mem_iff_exists_span]

theorem pairwise_toList (s : TokenSet) : s.toList.Pairwise (· < ·) := by
  rw [toList_eq_flatMap]
  exact Span.pairwise_flatMap_codes s.canonical

/-- The least member is the first of the list, as no span is empty. -/
theorem head?_toList (s : TokenSet) : s.toList.head? = s.min? := by
  rw [toList_eq_flatMap, min?]
  cases hspans : s.spans with
  | nil => rfl
  | cons r rest =>
    have hle : r.lo ≤ r.hi := s.canonical.1 r (by simp [hspans])
    simp [List.head?_append, Span.head?_codes hle]

theorem isEmpty_iff_min?_eq_none : s.isEmpty = true ↔ s.min? = none := by
  rw [isEmpty, min?, List.isEmpty_iff, Option.map_eq_none_iff, List.head?_eq_none_iff]

theorem min?_eq_none_iff_size_eq_zero : s.min? = none ↔ s.size = 0 := by
  rw [← head?_toList, List.head?_eq_none_iff, ← List.length_eq_zero_iff, length_toList]

/-! ## Sets with a history -/

/-- However a set begins and whatever is done to it, its members are listed in ascending order, each of
them once and no other code. Their number is the length of the list, at most as many as there are
codes, and is the same counted on words, where nothing overflows. The least member is the first of
the list, the first members are the beginning of the list, and a set is empty exactly if it has no
least member, and exactly if it counts none. -/
theorem enumerated_of_history (o : Origin) (edits : List Edit) :
    let s := o.set.applyAll edits
    s.toList.Pairwise (· < ·) ∧ (∀ c, c ∈ s.toList ↔ s.contains c = true) ∧
    s.size = s.toList.length ∧ s.size ≤ 2 ^ 32 ∧ s.wordSize? = some s.size ∧
    s.min? = s.toList.head? ∧ (∀ n, s.take n = s.toList.take n) ∧
    (s.isEmpty = true ↔ s.min? = none) ∧ (s.min? = none ↔ s.size = 0) := by
  intro s
  refine ⟨pairwise_toList s, ?_, (length_toList s).symm, size_le s, wordSize?_eq s,
    (head?_toList s).symm, take_eq_take_toList s, isEmpty_iff_min?_eq_none,
    min?_eq_none_iff_size_eq_zero⟩
  intro c
  rw [mem_toList, contains_iff]

/-- All codes, and all of them but three: neither the first nor the last is lost. -/
example :
    (Origin.range (-2147483648) 2147483647).set.size = 4294967296 ∧
    ((Origin.range (-2147483648) 2147483647).set.applyAll
      [.erase (-2147483647), .erase 2147483646, .erase 0]).spans.flatMap
        (fun r => [r.lo, r.hi]) =
      [-2147483648, -2147483648, -2147483646, -1, 1, 2147483645, 2147483647, 2147483647] := by
  decide

end TokenSet

end SyntaxRecovery
