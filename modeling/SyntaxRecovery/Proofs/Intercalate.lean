import Mathlib

/-!
# Lists put together with a separator

What stands in such a list stands in a part or in the separator. The parts can be told from the list
if the separator begins with a mark that no part has: the first mark in the list is where the first
part ends, and behind the separator it is the same with the parts that are left
(`eq_of_intercalate_eq`).
-/

set_option autoImplicit false

namespace SyntaxRecovery

variable {α : Type} {a : α} {front front' rest rest' sep part : List α}
  {parts parts' : List (List α)}

/-- Behind the first part, each part has a separator before it. -/
theorem intercalate_cons (p : List α) (parts : List (List α)) :
    sep.intercalate (p :: parts) = p ++ parts.flatMap (sep ++ ·) := by
  induction parts generalizing p with
  | nil => simp
  | cons q parts ih =>
    rw [List.intercalate_cons_cons, ih q, List.flatMap_cons, List.append_assoc, List.append_assoc]

theorem intercalate_ne_nil {p : List α} (hp : p ≠ []) (parts : List (List α)) :
    sep.intercalate (p :: parts) ≠ [] := by
  rw [intercalate_cons]
  exact List.append_ne_nil_of_left_ne_nil hp _

/-! ## Elements -/

theorem mem_intercalate_of_mem (hpart : part ∈ parts) (ha : a ∈ part) :
    a ∈ sep.intercalate parts := by
  cases parts with
  | nil => cases hpart
  | cons p parts =>
    rw [intercalate_cons, List.mem_append, List.mem_flatMap]
    rcases List.mem_cons.1 hpart with rfl | hrest
    · exact Or.inl ha
    · exact Or.inr ⟨part, hrest, List.mem_append_right sep ha⟩

theorem mem_of_mem_intercalate (h : a ∈ sep.intercalate parts) :
    a ∈ sep ∨ ∃ part ∈ parts, a ∈ part := by
  cases parts with
  | nil => cases h
  | cons p parts =>
    rw [intercalate_cons, List.mem_append, List.mem_flatMap] at h
    rcases h with hp | ⟨q, hq, ha⟩
    · exact Or.inr ⟨p, List.mem_cons_self, hp⟩
    · rcases List.mem_append.1 ha with hsep | ha
      · exact Or.inl hsep
      · exact Or.inr ⟨q, List.mem_cons_of_mem p hq, ha⟩

/-! ## Cuts at a mark -/

/-- Two lists that are the same are cut in the same place by the first mark in each. -/
theorem eq_and_eq_of_cut (hfront : a ∉ front) (hfront' : a ∉ front')
    (h : front ++ a :: rest = front' ++ a :: rest') : front = front' ∧ rest = rest' := by
  induction front generalizing front' with
  | nil =>
    cases front' with
    | nil => exact ⟨rfl, List.tail_eq_of_cons_eq h⟩
    | cons b front' =>
      -- the mark would be the first element of the other front
      rw [List.nil_append, List.cons_append, List.cons.injEq] at h
      exact absurd (by simp [h.1]) hfront'
  | cons b front ih =>
    cases front' with
    | nil =>
      rw [List.nil_append, List.cons_append, List.cons.injEq] at h
      exact absurd (by simp [h.1]) hfront
    | cons b' front' =>
      simp only [List.cons_append, List.cons.injEq] at h
      obtain ⟨rfl, h⟩ := h
      obtain ⟨rfl, hrest⟩ := ih (List.not_mem_of_not_mem_cons hfront)
        (List.not_mem_of_not_mem_cons hfront') h
      exact ⟨rfl, hrest⟩

/-- Parts without the first element of the separator, none of them empty, can be told from what they
make when put together. -/
theorem eq_of_intercalate_eq (hparts : ∀ p ∈ parts, p ≠ [] ∧ a ∉ p)
    (hparts' : ∀ p ∈ parts', p ≠ [] ∧ a ∉ p)
    (h : (a :: sep).intercalate parts = (a :: sep).intercalate parts') : parts = parts' := by
  induction parts generalizing parts' with
  | nil =>
    cases parts' with
    | nil => rfl
    | cons p' parts' =>
      have hne := (hparts' p' List.mem_cons_self).1
      exact absurd h.symm (intercalate_ne_nil hne parts')
  | cons p parts ih =>
    obtain ⟨⟨hne, hp⟩, hrest⟩ := List.forall_mem_cons.1 hparts
    cases parts' with
    | nil => exact absurd h (intercalate_ne_nil hne parts)
    | cons p' parts' =>
      obtain ⟨⟨-, hp'⟩, hrest'⟩ := List.forall_mem_cons.1 hparts'
      cases parts with
      | nil =>
        cases parts' with
        | nil => simpa using h
        | cons q' parts' =>
          -- a single part has no separator
          rw [List.intercalate_singleton, List.intercalate_cons_cons] at h
          exact absurd (by simp [h]) hp
      | cons q parts =>
        cases parts' with
        | nil =>
          rw [List.intercalate_singleton, List.intercalate_cons_cons] at h
          exact absurd (by simp [← h]) hp'
        | cons q' parts' =>
          simp only [List.intercalate_cons_cons, List.append_assoc, List.cons_append] at h
          obtain ⟨rfl, hcut⟩ := eq_and_eq_of_cut hp hp' h
          rw [ih hrest hrest' (List.append_cancel_left hcut)]

end SyntaxRecovery
