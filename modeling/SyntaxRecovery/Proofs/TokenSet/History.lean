import Mathlib
import SyntaxRecovery.Proofs.TokenSet.Extensionality

/-!
# Token sets after any history

A token set is changed by computing with the ends of its spans, and codes have a least and a greatest
one. Here the same changes are made to spans whose ends are integers (`TokenSet.Edit.onEnds`) and to
sets of integers (`TokenSet.Edit.onSet`), where nothing is out of bounds. However a token set has come
about, its spans are those computed over the integers, so that no sum or difference has left the
codes; they are in order, with a gap after each; and its members are those of the set of integers
(`TokenSet.applyAll_origin`).
-/

set_option autoImplicit false

namespace SyntaxRecovery

/-! ## Spans with integer ends -/

namespace Span

open TokenCode

/-- The two ends as integers. -/
def ends (s : Span) : Int × Int := (s.lo.toInt, s.hi.toInt)

/-- Spans with integer ends after the integers from `lo` to `hi` are added, as by `join`. -/
def joinEnds (lo hi : Int) : List (Int × Int) → List (Int × Int)
  | [] => [(lo, hi)]
  | (a, b) :: rest =>
    if b + 1 < lo then (a, b) :: joinEnds lo hi rest
    else if hi + 1 < a then (lo, hi) :: (a, b) :: rest
    else joinEnds (min lo a) (max hi b) rest

/-- Spans with integer ends after an integer is taken out, as by `drop`. -/
def dropEnds (c : Int) : List (Int × Int) → List (Int × Int)
  | [] => []
  | (a, b) :: rest =>
    if a ≤ c ∧ c ≤ b then
      (if a < c then [(a, c - 1)] else []) ++ (if c < b then [(c + 1, b)] else []) ++ rest
    else (a, b) :: dropEnds c rest

/-- A range is added to spans of codes as it is to spans of integers. -/
theorem map_ends_join (lo hi : TokenCode) (l : List Span) :
    (join lo hi l).map ends = joinEnds lo.toInt hi.toInt (l.map ends) := by
  fun_induction join lo hi l with
  | case1 lo hi => rfl
  | case2 lo hi s rest hs ih =>
    rw [next_lt_iff] at hs
    simp only [List.map_cons, ih, ends, joinEnds, if_pos hs]
  | case3 lo hi s rest hs ht =>
    rw [next_lt_iff] at hs ht
    simp only [List.map_cons, ends, joinEnds, if_neg hs, if_pos ht]
  | case4 lo hi s rest hs ht ih =>
    rw [next_lt_iff] at hs ht
    simp only [List.map_cons, ih, ends, joinEnds, if_neg hs, if_neg ht, toInt_min, toInt_max]

/-- What is left of a span below one of its codes has the ends that it has over the integers. -/
theorem map_ends_below (lo d : TokenCode) :
    (if lo < d then [(⟨lo, d - 1⟩ : Span)] else []).map ends =
      if lo.toInt < d.toInt then [(lo.toInt, d.toInt - 1)] else [] := by
  have hbound := toInt_bounds lo
  simp only [lt_iff]
  split
  · next hlt =>
    -- a code with another below it is not the least
    have hpred : (d - 1).toInt = d.toInt - 1 := toInt_sub_one (by omega)
    simp only [List.map_cons, List.map_nil, ends, hpred]
  · rfl

/-- What is left of a span above one of its codes has the ends that it has over the integers. -/
theorem map_ends_above (d hi : TokenCode) :
    (if d < hi then [(⟨d + 1, hi⟩ : Span)] else []).map ends =
      if d.toInt < hi.toInt then [(d.toInt + 1, hi.toInt)] else [] := by
  have hbound := toInt_bounds hi
  simp only [lt_iff]
  split
  · next hlt =>
    -- a code with another above it is not the greatest
    have hsucc : (d + 1).toInt = d.toInt + 1 := toInt_add_one (by omega)
    simp only [List.map_cons, List.map_nil, ends, hsucc]
  · rfl

/-- A code is taken out of spans of codes as an integer is out of spans of integers. -/
theorem map_ends_drop (c : TokenCode) (l : List Span) :
    (drop c l).map ends = dropEnds c.toInt (l.map ends) := by
  fun_induction drop c l with
  | case1 => rfl
  | case2 s rest hc =>
    rw [mem_iff] at hc
    simp only [List.map_append, map_ends_below, map_ends_above, List.map_cons, ends, dropEnds,
      if_pos hc]
  | case3 s rest hc ih =>
    rw [mem_iff] at hc
    simp only [List.map_cons, ih, ends, dropEnds, if_neg hc]

end Span

namespace TokenSet

/-! ## Changes over the integers -/

/-- The ends of the spans as integers. -/
def ends (s : TokenSet) : List (Int × Int) := s.spans.map Span.ends

/-- Spans with integer ends after a range is added, none if it is inverted. -/
def insertEnds (l : List (Int × Int)) (lo hi : Int) : List (Int × Int) :=
  if lo ≤ hi then Span.joinEnds lo hi l else l

namespace Edit

/-- Spans with integer ends after a change. -/
def onEnds (l : List (Int × Int)) : Edit → List (Int × Int)
  | insert c => insertEnds l c.toInt c.toInt
  | insertRange lo hi => insertEnds l lo.toInt hi.toInt
  | insertMany codes => codes.foldl (fun l c => insertEnds l c.toInt c.toInt) l
  | union t => t.ends.foldl (fun l r => insertEnds l r.1 r.2) l
  | erase c => Span.dropEnds c.toInt l

/-- A set of integers after a change: the union or the difference that the change stands for. -/
def onSet (S : Set Int) : Edit → Set Int
  | insert c => S ∪ {c.toInt}
  | insertRange lo hi => S ∪ Set.Icc lo.toInt hi.toInt
  | insertMany codes => S ∪ {n | ∃ c ∈ codes, c.toInt = n}
  | union t => S ∪ {n | ∃ r ∈ t.ends, n ∈ Set.Icc r.1 r.2}
  | erase c => S \ {c.toInt}

end Edit

variable {s : TokenSet} {c : TokenCode}

theorem ends_insertRange (s : TokenSet) (lo hi : TokenCode) :
    (s.insertRange lo hi).ends = insertEnds s.ends lo.toInt hi.toInt := by
  rw [insertRange, insertEnds]
  simp only [← TokenCode.le_iff]
  split
  · exact Span.map_ends_join lo hi s.spans
  · rfl

theorem ends_insertMany (s : TokenSet) (codes : List TokenCode) :
    (s.insertMany codes).ends = codes.foldl (fun l c => insertEnds l c.toInt c.toInt) s.ends := by
  induction codes generalizing s with
  | nil => rfl
  | cons c codes ih =>
    rw [List.foldl_cons, ← ends_insertRange]
    exact ih (s.insert c)

theorem ends_union (s t : TokenSet) :
    (s ∪ t).ends = t.ends.foldl (fun l r => insertEnds l r.1 r.2) s.ends := by
  have key : ∀ (l : List Span) (u : TokenSet),
      (l.foldl (fun u r => u.insertRange r.lo r.hi) u).ends =
        (l.map Span.ends).foldl (fun l r => insertEnds l r.1 r.2) u.ends := by
    intro l
    induction l with
    | nil =>
      intro u
      rfl
    | cons r rest ih =>
      intro u
      rw [List.foldl_cons, ih, ends_insertRange, List.map_cons, List.foldl_cons]
      rfl
  exact key t.spans s

/-- A change to a set is the change to the ends of its spans. -/
theorem ends_apply (s : TokenSet) (e : Edit) : (s.apply e).ends = e.onEnds s.ends := by
  cases e with
  | insert c => exact ends_insertRange s c c
  | insertRange lo hi => exact ends_insertRange s lo hi
  | insertMany codes => exact ends_insertMany s codes
  | union t => exact ends_union s t
  | erase c => exact Span.map_ends_drop c s.spans

theorem ends_applyAll (s : TokenSet) (edits : List Edit) :
    (s.applyAll edits).ends = edits.foldl Edit.onEnds s.ends := by
  induction edits generalizing s with
  | nil => rfl
  | cons e edits ih =>
    rw [List.foldl_cons, ← ends_apply]
    exact ih (s.apply e)

theorem mem_insertMany {codes : List TokenCode} : c ∈ s.insertMany codes ↔ c ∈ s ∨ c ∈ codes := by
  induction codes generalizing s with
  | nil => simp [insertMany]
  | cons d codes ih =>
    change c ∈ (s.insert d).insertMany codes ↔ _
    rw [ih, mem_insert, List.mem_cons, or_assoc]

/-- A code is a member if it lies between the ends of a span. -/
theorem mem_iff_exists_ends : c ∈ s ↔ ∃ r ∈ s.ends, c.toInt ∈ Set.Icc r.1 r.2 := by
  simp only [mem_iff_exists_span, Span.mem_iff, ends, List.mem_map, exists_exists_and_eq_and,
    Span.ends, Set.mem_Icc]

/-- A change to a set is the change to the integers that its members stand for. -/
theorem mem_apply_iff {S : Set Int} (h : ∀ c, c ∈ s ↔ c.toInt ∈ S) (e : Edit) (c : TokenCode) :
    c ∈ s.apply e ↔ c.toInt ∈ e.onSet S := by
  cases e with
  | insert d =>
    change c ∈ s.insert d ↔ _
    rw [mem_insert, h, ← Int32.toInt_inj]
    rfl
  | insertRange lo hi =>
    change c ∈ s.insertRange lo hi ↔ _
    rw [mem_insertRange, h, TokenCode.le_iff, TokenCode.le_iff]
    rfl
  | insertMany codes =>
    change c ∈ s.insertMany codes ↔ _
    rw [mem_insertMany, h]
    simp only [Edit.onSet, Set.mem_union, Set.mem_ofPred_eq, Int32.toInt_inj, exists_eq_right]
  | union t =>
    change c ∈ s ∪ t ↔ _
    rw [mem_union, h, mem_iff_exists_ends]
    rfl
  | erase d =>
    change c ∈ s.erase d ↔ _
    rw [mem_erase, h, ne_eq, ← Int32.toInt_inj]
    rfl

theorem mem_applyAll_iff {S : Set Int} (h : ∀ c, c ∈ s ↔ c.toInt ∈ S) (edits : List Edit)
    (c : TokenCode) : c ∈ s.applyAll edits ↔ c.toInt ∈ edits.foldl Edit.onSet S := by
  induction edits generalizing s S with
  | nil => exact h c
  | cons e edits ih => exact ih (mem_apply_iff h e)

/-- The spans of a set over the integers: none is empty, and each ends at least two integers before
the next begins. -/
theorem ends_canonical (s : TokenSet) :
    (∀ r ∈ s.ends, r.1 ≤ r.2) ∧ s.ends.Pairwise fun r r' => r.2 + 1 < r'.1 := by
  obtain ⟨hle, hbefore⟩ := s.canonical
  refine ⟨?_, ?_⟩
  · intro r hr
    obtain ⟨t, ht, rfl⟩ := List.mem_map.1 hr
    exact TokenCode.le_iff.1 (hle t ht)
  · rw [ends, List.pairwise_map]
    exact hbefore

/-! ## Histories -/

/-- How a set begins. -/
inductive Origin where
  /-- Without members. -/
  | empty
  /-- With one member. -/
  | singleton (c : TokenCode)
  /-- With the codes of a range, none if it is inverted. -/
  | range (lo hi : TokenCode)
  /-- With the codes of a list. -/
  | ofList (codes : List TokenCode)

namespace Origin

/-- The set at its beginning. -/
def set : Origin → TokenSet
  | empty => ∅
  | singleton c => {c}
  | range lo hi => .range lo hi
  | ofList codes => .ofList codes

/-- The changes to the empty set that a beginning stands for. -/
def edits : Origin → List Edit
  | empty => []
  | singleton c => [.insert c]
  | range lo hi => [.insertRange lo hi]
  | ofList codes => [.insertMany codes]

theorem set_eq_applyAll (o : Origin) : o.set = applyAll ∅ o.edits := by
  cases o <;> rfl

end Origin

/-- However a set begins and whatever is done to it, its spans are those computed over the integers,
none of them is empty, and each ends at least two integers before the next begins. A code is found in
the set exactly if it is in the set of integers after the same unions and differences. -/
theorem applyAll_origin (o : Origin) (edits : List Edit) :
    let s := o.set.applyAll edits
    let history := o.edits ++ edits
    s.ends = history.foldl Edit.onEnds [] ∧
    (∀ r ∈ s.ends, r.1 ≤ r.2) ∧ s.ends.Pairwise (fun r r' => r.2 + 1 < r'.1) ∧
    ∀ c, s.contains c = true ↔ c.toInt ∈ history.foldl Edit.onSet ∅ := by
  intro s history
  have hs : s = applyAll ∅ history := by
    dsimp only [s, history]
    rw [Origin.set_eq_applyAll, applyAll, applyAll, applyAll, List.foldl_append]
  obtain ⟨hle, hbefore⟩ := ends_canonical s
  refine ⟨?_, hle, hbefore, ?_⟩
  · rw [hs]
    exact ends_applyAll ∅ history
  · intro c
    rw [contains_iff, hs]
    apply mem_applyAll_iff
    -- before the first change there is no member
    intro d
    exact iff_of_false not_mem_empty (Set.notMem_empty d.toInt)

/-- At both ends of the codes a range is added, joined to its neighbour and cut. -/
example : ((Origin.range 2147483646 2147483647).set.applyAll
    [.insert 2147483645, .insertRange (-2147483648) (-2147483647), .erase 2147483647,
      .erase (-2147483648), .insertRange 5 3]).ends =
    [(-2147483647, -2147483647), (2147483645, 2147483646)] := by decide

end TokenSet

end SyntaxRecovery
