import Mathlib
import SyntaxRecovery.Proofs.Settings.Overlay

/-!
# Settings from members in any order

An object of settings is read as an overlay on the defaults. Its members can stand in any order, with
blank space between their parts and their keys in any spelling (`Overlay.WrittenBy`): the reader strikes
each key off the list of those that are left (`Settings.members?_of_gives`) and chooses one value after
the other, so that what comes out is the overlay and nothing else. A member more makes the text
malformed, wherever it stands, if its key is none of the choices or one that is there already: before
its other occurrence the key is struck off by the new member, and the reader stops at the old one
(`Settings.members?_of_mem_not_left`). The main statement is `Settings.read_of_writtenBy`.
-/

set_option autoImplicit false

namespace SyntaxRecovery

open Json

/-! ## Keys of the choices -/

namespace Choice

variable {c d : Choice} {text name : List Char}

theorem mem_all (c : Choice) : c ∈ all := by
  cases c <;> decide

theorem nodup_all : all.Nodup := by decide

theorem ofKey?_key (c : Choice) : ofKey? c.key.toList = some c := by
  cases c <;> decide

theorem key_of_ofKey? (h : ofKey? name = some c) : name = c.key.toList := by
  have hkey := List.find?_some h
  exact (eq_of_beq hkey).symm

/-- A key spells itself. -/
theorem spelling_key (c : Choice) : Spelling c.key.toList c.key.toList := by
  cases c <;> exact spelling_self (List.all_iff_forall_prop.1 (by decide))

/-- No text spells two keys. -/
theorem eq_of_spelling (h : Spelling text c.key.toList) (h' : Spelling text d.key.toList) : c = d := by
  have hread := ofKey?_key c
  rw [h.unique h', ofKey?_key] at hread
  cases hread
  rfl

end Choice

/-! ## Members that write an overlay -/

/-- A member that writes the value that an overlay has for a choice. -/
structure Overlay.Gives (o : Overlay) (m : Member) (c : Choice) : Prop where
  spaced : m.Spaced
  key : Spelling m.key c.key.toList
  value : ∃ v, o.value? c = some v ∧ c.Writes v m.value

/-- Members that write an overlay: one for each of its values, in some order, and no other. -/
def Overlay.WrittenBy (o : Overlay) (members : List Member) : Prop :=
  ∃ cs : List Choice, cs.Nodup ∧ (∀ c, c ∈ cs ↔ (o.value? c).isSome = true) ∧
    List.Forall₂ o.Gives members cs

theorem Overlay.Gives.form {o : Overlay} {m : Member} {c : Choice} (h : o.Gives m c) :
    ValueForm m.value := by
  obtain ⟨v, -, hv⟩ := h.value
  exact hv.form

namespace Settings

variable {o : Overlay} {m : Member} {members pre post : List Member} {c : Choice}
variable {cs left : List Choice} {s t : Settings} {l rest tail gap : List Char}

/-! ## The key of a member -/

/-- A key is read from each of its spellings. -/
theorem key?_of_spelling (hm : m.Spaced) (hkey : Spelling m.key c.key.toList)
    (hvalue : ValueForm m.value) (tail : List Char) :
    key? (skipBlank (m.chars ++ tail)) = some (c, m.value ++ (m.after ++ tail)) := by
  have hread (l : List Char) : string? ('"' :: m.key ++ '"' :: l) = some (c.key.toList, l) :=
    string?_eq_some_iff.2 ⟨m.key, hkey, rfl⟩
  have hcolon (l : List Char) : word? [':'] (skipBlank (m.beforeColon ++ ':' :: l)) = some l :=
    mark?_skipBlank (by decide) hm.beforeColon
  rw [Member.skipBlank_chars hm, key?, hread]
  simp only [Option.bind_eq_bind, Option.bind_some, Choice.ofKey?_key, hcolon, skipBlank_append hm.afterColon,
    hvalue.skipBlank]

/-- What is read as a key spells it. -/
theorem of_key?_eq_some (hm : m.Spaced) (hkey : StringForm m.key) (hvalue : ValueForm m.value)
    (h : key? (skipBlank (m.chars ++ tail)) = some (c, l)) :
    Spelling m.key c.key.toList ∧ l = m.value ++ (m.after ++ tail) := by
  rw [Member.skipBlank_chars hm, key?] at h
  simp only [Option.bind_eq_bind, Option.bind_eq_some_iff] at h
  obtain ⟨⟨name, behind⟩, hname, c', hc, colon, hcolon, heq⟩ := h
  cases heq
  obtain ⟨hspelling, rfl⟩ := of_string?_eq_some hkey hname
  rw [mark?_skipBlank (by decide) hm.beforeColon] at hcolon
  cases hcolon
  rw [skipBlank_append hm.afterColon, hvalue.skipBlank]
  exact ⟨Choice.key_of_ofKey? hc ▸ hspelling, rfl⟩

/-! ## One member -/

theorem members?_of_key?_eq_none (h : key? l = none) : members? left s l = none := by
  rw [members?, h]

/-- A key that is not left is refused. -/
theorem members?_of_not_left (h : key? l = some (c, tail)) (hc : c ∉ left) :
    members? left s l = none := by
  rw [members?, h]
  simp [hc]

theorem members?_of_readValue?_eq_none (h : key? l = some (c, tail)) (hread : readValue? s c tail = none) :
    members? left s l = none := by
  rw [members?, h]
  simp [hread]

/-- Behind a value with a comma behind it the next member is read, and the key is struck off. -/
theorem members?_comma (h : key? l = some (c, tail)) (hc : c ∈ left)
    (hread : readValue? s c tail = some (t, gap ++ ',' :: rest)) (hgap : Blank gap) :
    members? left s l = members? (left.erase c) t (skipBlank rest) := by
  rw [members?, h]
  simp [hc, hread, skipBlank_append hgap, skipBlank_cons (c := ',') (by decide)]

/-- Behind a value with a closing brace behind it the object has been read. -/
theorem members?_brace (h : key? l = some (c, tail)) (hc : c ∈ left)
    (hread : readValue? s c tail = some (t, gap ++ '}' :: rest)) (hgap : Blank gap) :
    members? left s l = some (t, rest) := by
  rw [members?, h]
  simp [hc, hread, skipBlank_append hgap, skipBlank_cons (c := '}') (by decide)]

/-- Behind a value a fraction or an exponent is refused. -/
theorem members?_partMark {a : Char} (h : key? l = some (c, tail)) (ha : a ∈ partMarks)
    (hread : readValue? s c tail = some (t, a :: rest)) : members? left s l = none := by
  rw [members?, h]
  simp only [partMarks, List.mem_cons, List.not_mem_nil, or_false] at ha
  rcases ha with rfl | rfl | rfl <;> simp [hread, skipBlank, isBlank]

/-- The value of a member is read and chosen. -/
theorem readValue?_of_gives (h : o.Gives m c) (hrest : Stops rest) :
    readValue? s c (m.value ++ rest) = some (o.update s c, rest) := by
  obtain ⟨v, hv, hwrites⟩ := h.value
  rw [readValue?_of_writes hwrites hrest, Overlay.update, hv]

/-- A member with others behind it is read, and its key is struck off. -/
theorem members?_of_gives (h : o.Gives m c) (hc : c ∈ left) (hne : members ≠ []) :
    members? left s (skipBlank (membersThen (m :: members) rest)) =
      members? (left.erase c) (o.update s c) (skipBlank (membersThen members rest)) := by
  rw [membersThen_cons_of_ne_nil hne]
  exact members?_comma (key?_of_spelling h.spaced h.key h.form _) hc
    (readValue?_of_gives h (stops_of_blank h.spaced.after (by decide))) h.spaced.after

/-- The last member is read. -/
theorem members?_of_gives_last (h : o.Gives m c) (hc : c ∈ left) :
    members? left s (skipBlank (membersThen [m] rest)) = some (o.update s c, rest) := by
  rw [membersThen_singleton]
  exact members?_brace (key?_of_spelling h.spaced h.key h.form _) hc
    (readValue?_of_gives h (stops_of_blank h.spaced.after (by decide))) h.spaced.after

/-! ## Members after members -/

theorem ne_nil_of_gives (hmembers : List.Forall₂ o.Gives members cs) (hc : c ∈ cs) : members ≠ [] := by
  rintro rfl
  cases hmembers
  exact absurd hc List.not_mem_nil

theorem mem_erase_of_nodup {cs : List Choice} (hnodup : (c :: cs).Nodup)
    (hleft : ∀ d ∈ c :: cs, d ∈ left) : ∀ d ∈ cs, d ∈ left.erase c := by
  intro d hd
  have hne : d ≠ c := by
    rintro rfl
    exact (List.nodup_cons.1 hnodup).1 hd
  exact (List.mem_erase_of_ne hne).2 (hleft d (List.mem_cons_of_mem c hd))

/-- Members with different keys that are left are read one after the other. -/
theorem members?_append (hpre : List.Forall₂ o.Gives pre cs) (hnodup : cs.Nodup)
    (hleft : ∀ c ∈ cs, c ∈ left) (hne : members ≠ []) :
    members? left s (skipBlank (membersThen (pre ++ members) rest)) =
      members? (left.diff cs) (cs.foldl o.update s) (skipBlank (membersThen members rest)) := by
  induction hpre generalizing left s with
  | nil => rfl
  | @cons m c pre cs hm _ ih =>
    rw [List.cons_append, members?_of_gives hm (hleft c List.mem_cons_self) (by simp [hne]),
      ih (List.nodup_cons.1 hnodup).2 (mem_erase_of_nodup hnodup hleft), List.diff_cons, List.foldl_cons]

/-- Members with different keys that are left are read to the closing brace. -/
theorem members?_of_forall₂ (hmembers : List.Forall₂ o.Gives members cs) (hnodup : cs.Nodup)
    (hleft : ∀ c ∈ cs, c ∈ left) (hne : members ≠ []) :
    members? left s (skipBlank (membersThen members rest)) = some (cs.foldl o.update s, rest) := by
  induction hmembers generalizing left s with
  | nil => exact absurd rfl hne
  | @cons m c members cs hm hmembers ih =>
    have hc := hleft c List.mem_cons_self
    by_cases hlast : members = []
    · subst hlast
      cases hmembers
      exact members?_of_gives_last hm hc
    · rw [members?_of_gives hm hc hlast,
        ih (List.nodup_cons.1 hnodup).2 (mem_erase_of_nodup hnodup hleft) hlast, List.foldl_cons]

/-- Members one of whose keys is not left are refused: the reader gets as far as the first such key. -/
theorem members?_of_mem_not_left (hmembers : List.Forall₂ o.Gives members cs) (hc : c ∈ cs)
    (hleft : c ∉ left) : members? left s (skipBlank (membersThen members rest)) = none := by
  induction hmembers generalizing left s with
  | nil => exact absurd hc List.not_mem_nil
  | @cons m d members cs hm hmembers ih =>
    obtain ⟨tail, htail, -⟩ := membersThen_cons m members rest
    by_cases hd : d ∈ left
    · have hcs : c ∈ cs := by
        rcases List.mem_cons.1 hc with rfl | hcs
        · exact absurd hd hleft
        · exact hcs
      rw [members?_of_gives hm hd (ne_nil_of_gives hmembers hcs)]
      exact ih hcs fun h => hleft (List.mem_of_mem_erase h)
    · rw [htail]
      exact members?_of_not_left (key?_of_spelling hm.spaced hm.key hm.form tail) hd

/-! ## A member more -/

/-- A member is refused if its key is none of the choices, or is not left, or is that of a member behind
it. -/
theorem members?_of_refused (hm : m.Spaced) (hkey : StringForm m.key) (hvalue : ValueForm m.value)
    (hpost : List.Forall₂ o.Gives post cs) (hnodup : left.Nodup)
    (hrefused : ∀ c : Choice, Spelling m.key c.key.toList → c ∉ left ∨ c ∈ cs) :
    members? left s (skipBlank (membersThen (m :: post) rest)) = none := by
  obtain ⟨tail, htail, -⟩ := membersThen_cons m post rest
  rcases hread : key? (skipBlank (m.chars ++ tail)) with - | ⟨c, l⟩
  · rw [htail]
    exact members?_of_key?_eq_none hread
  · obtain ⟨hspelling, rfl⟩ := of_key?_eq_some hm hkey hvalue hread
    by_cases hc : c ∈ left
    · -- the key is struck off here, and found again behind
      have hcs : c ∈ cs := (hrefused c hspelling).resolve_left (not_not_intro hc)
      rw [membersThen_cons_of_ne_nil (ne_nil_of_gives hpost hcs)] at htail ⊢
      obtain rfl := List.append_cancel_left htail
      rcases hv : readValue? s c (m.value ++ (m.after ++ ',' :: membersThen post rest)) with - | ⟨t, l⟩
      · exact members?_of_readValue?_eq_none hread hv
      · -- the comma comes next, unless a number of which only the whole part has been read goes on
        rcases left_of_readValue? hvalue (stops_of_blank hm.after (by decide)) hv with
          rfl | ⟨a, ha, l, rfl⟩
        · rw [members?_comma hread hc hv hm.after]
          exact members?_of_mem_not_left hpost hcs hnodup.not_mem_erase
        · exact members?_partMark hread ha hv
    · rw [htail]
      exact members?_of_not_left hread hc

/-! ## Objects -/

theorem value?_of_no_members (hgap : Blank gap) : value? (object gap [] ++ rest) = some ({}, rest) := by
  rw [object_append, value?, skipBlank_append hgap]
  rfl

/-- Where there is a member, the members are read. -/
theorem value?_of_members (hgap : Blank gap) (hm : m.Spaced) :
    value? (object gap (m :: members) ++ rest) =
      members? Choice.all {} (skipBlank (membersThen (m :: members) rest)) := by
  obtain ⟨tail, htail, -⟩ := membersThen_cons m members rest
  rw [object_append, value?, skipBlank_append hgap, htail, Member.skipBlank_chars hm]
  rfl

/-- The object that members make is read as the overlay that they write. -/
theorem value?_of_writtenBy (h : o.WrittenBy members) (hgap : Blank gap) :
    value? (object gap members ++ rest) = some (o.settings, rest) := by
  obtain ⟨cs, hnodup, hcs, hmembers⟩ := h
  rw [← Overlay.foldl_update_eq_settings hcs]
  cases hmembers with
  | nil => exact value?_of_no_members hgap
  | @cons m c members cs hm hmembers =>
    rw [value?_of_members hgap hm.spaced]
    exact members?_of_forall₂ (.cons hm hmembers) hnodup (fun c _ => c.mem_all) (List.cons_ne_nil m members)

/-- With a member more whose key is none of the choices or one that is there already, no object is
read. -/
theorem value?_of_refused (h : o.WrittenBy (pre ++ post)) (hgap : Blank gap) (hm : m.Spaced)
    (hkey : StringForm m.key) (hvalue : ValueForm m.value)
    (hrefused : ∀ c : Choice, Spelling m.key c.key.toList → (o.value? c).isSome = true) :
    value? (object gap (pre ++ m :: post) ++ rest) = none := by
  obtain ⟨cs, hnodup, hcs, hmembers⟩ := h
  -- the choices fall into those before the new member and those behind it
  have hpre : List.Forall₂ o.Gives pre (cs.take pre.length) :=
    (List.forall₂_take_append cs pre post hmembers.flip).flip
  have hpost : List.Forall₂ o.Gives post (cs.drop pre.length) :=
    (List.forall₂_drop_append cs pre post hmembers.flip).flip
  have hfirst : value? (object gap (pre ++ m :: post) ++ rest) =
      members? Choice.all {} (skipBlank (membersThen (pre ++ m :: post) rest)) := by
    cases pre with
    | nil => exact value?_of_members hgap hm
    | cons p pre =>
      obtain ⟨c, cs', hp, -, -⟩ := List.forall₂_cons_left_iff.1 hmembers
      exact value?_of_members hgap hp.spaced
  rw [hfirst, members?_append hpre (hnodup.sublist (List.take_sublist _ _)) (fun c _ => c.mem_all)
    (List.cons_ne_nil m post)]
  apply members?_of_refused hm hkey hvalue hpost Choice.nodup_all.diff
  intro c hc
  have hmem : c ∈ cs.take pre.length ++ cs.drop pre.length := by
    rw [List.take_append_drop, hcs]
    exact hrefused c hc
  rcases List.mem_append.1 hmem with hbefore | hbehind
  · -- what stands before has been struck off
    exact Or.inl fun hleft => (Choice.nodup_all.mem_sdiff_iff.1 hleft).2 hbefore
  · exact Or.inr hbehind

/-! ## Texts of settings -/

variable {before after : List Char}

/-- Blank space before an object makes no difference, and only blank space may stand behind it. -/
theorem parse?_object (hbefore : Blank before) :
    parse? (before ++ (object gap members ++ after)) =
      (value? (object gap members ++ after)).bind fun read =>
        if skipBlank read.2 = [] then some read.1 else none := by
  rw [parse?, skipBlank_append hbefore, object_append, skipBlank_cons (by decide)]
  rcases value? ('{' :: (gap ++ membersThen members after)) with - | ⟨s, rest⟩ <;> rfl

/-- What members write, between blank space, is the overlay that they write. -/
theorem parse?_of_writtenBy (h : o.WrittenBy members) (hbefore : Blank before) (hgap : Blank gap)
    (hafter : Blank after) : parse? (before ++ (object gap members ++ after)) = some o.settings := by
  rw [parse?_object hbefore, value?_of_writtenBy h hgap, Option.bind_some,
    if_pos (skipBlank_of_blank hafter)]

/-- Where an overlay does not limit the budget to zero, its settings are valid. -/
theorem valid_of_budget (h : o.value? .budget ≠ some (some 0)) : o.settings.Valid := by
  rw [Valid]
  change (o.value? .budget).getD none ≠ some 0
  rcases hvalue : o.value? .budget with - | v
  · simp
  · rintro rfl
    exact h hvalue

/-- An object whose keys are different choices, in any order and any spelling, with values that can be
chosen and blank space wherever there can be some, is read as the defaults with these values in their
places. With one member more, wherever it stands and whatever its value, the text is malformed if the
key of that member is no choice or one that the object has already. -/
theorem read_of_writtenBy (o : Overlay) (hbudget : o.value? .budget ≠ some (some 0))
    (members : List Member) (hmembers : o.WrittenBy members) (before gap after : List Char)
    (hbefore : Blank before) (hgap : Blank gap) (hafter : Blank after) :
    read (before ++ (object gap members ++ after)) = .ok o.settings ∧
    ∀ (pre post : List Member) (m : Member), members = pre ++ post → m.Spaced → StringForm m.key →
      ValueForm m.value →
      ((∀ c : Choice, ¬ Spelling m.key c.key.toList) ∨
        ∃ c : Choice, (o.value? c).isSome = true ∧ Spelling m.key c.key.toList) →
      read (before ++ (object gap (pre ++ m :: post) ++ after)) = .error .malformed := by
  constructor
  · rw [read, parse?_of_writtenBy hmembers hbefore hgap hafter]
    simp only
    rw [if_pos (valid_of_budget hbudget)]
  · rintro pre post m rfl hm hkey hvalue hrefused
    have hnone : value? (object gap (pre ++ m :: post) ++ after) = none := by
      apply value?_of_refused hmembers hgap hm hkey hvalue
      intro c hc
      rcases hrefused with hunknown | ⟨d, hd, hspelling⟩
      · exact absurd hc (hunknown c)
      · rwa [Choice.eq_of_spelling hc hspelling]
    rw [read, parse?_object hbefore, hnone, Option.bind_none]

/-- The limit before the deletion, whose key has an escape in it. A member that is no choice, or a second
one for the deletion with its key in another spelling, makes the text malformed. -/
theorem read_of_two_members :
    let o : Overlay := ⟨fun
      | .deletion => some false
      | .budget => some (some 64)
      | _ => none⟩
    let limit : Member := ⟨[], "maxRecoveryConsume".toList, [' '], [' '], "64".toList, []⟩
    let deletion : Member := ⟨['\n'], "\\u0073ingleTokenDeletion".toList, [], [], "false".toList, ['\t']⟩
    let unknown : Member := ⟨[], "tokens".toList, [], [], "[]".toList, []⟩
    let again : Member := ⟨[], "singleTokenDeletion".toList, [], [], "0".toList, []⟩
    let text := " \x7b\"maxRecoveryConsume\" : 64,\n\"\\u0073ingleTokenDeletion\":false\t\x7d"
    o.value? .budget ≠ some (some 0) ∧ o.WrittenBy [limit, deletion] ∧
      read text.toList = .ok { deletion := false, budget := some 64 } ∧
      read ([' '] ++ (object [] [unknown, limit, deletion] ++ [])) = .error .malformed ∧
      read ([' '] ++ (object [] [limit, again, deletion] ++ [])) = .error .malformed := by
  intro o limit deletion unknown again text
  have hbudget : o.value? .budget ≠ some (some 0) := by decide
  have hletter : CharSpelling "\\u0073".toList 's' :=
    .unit (@HexQuad.mk '0' '0' '7' '3' 0 0 7 3 (.inl rfl) (.inl rfl) (.inl rfl) (.inl rfl))
  have hdigits : IntegerForm limit.value :=
    Or.inr ⟨⟨by decide, List.all_eq_true.1 (by decide)⟩, by decide⟩
  have hlimit : o.Gives limit .budget :=
    { spaced := ⟨by decide, by decide, by decide, by decide⟩
      key := Choice.spelling_key .budget
      value := ⟨some 64, rfl, hdigits, by decide⟩ }
  have hdeletion : o.Gives deletion .deletion :=
    { spaced := ⟨by decide, by decide, by decide, by decide⟩
      key := .cons hletter (spelling_self (List.all_iff_forall_prop.1 (by decide)))
      value := ⟨false, rfl, rfl⟩ }
  have hwritten : o.WrittenBy [limit, deletion] := by
    refine ⟨[.budget, .deletion], by decide, ?_, .cons hlimit (.cons hdeletion .nil)⟩
    intro c
    cases c <;> decide
  have htext : [' '] ++ (object [] [limit, deletion] ++ []) = text.toList := by decide +kernel
  obtain ⟨hread, hrefused⟩ := read_of_writtenBy o hbudget [limit, deletion] hwritten [' '] [] []
    (by decide) (by decide) (by decide)
  rw [htext] at hread
  refine ⟨hbudget, hwritten, hread, ?_, ?_⟩
  · have hkey : Spelling unknown.key "tokens".toList :=
      spelling_self (List.all_iff_forall_prop.1 (by decide))
    apply hrefused [] [limit, deletion] unknown rfl ⟨by decide, by decide, by decide, by decide⟩ hkey.form
    · exact @ValueForm.array [] [] (by decide) (List.forall_mem_nil _) (List.forall_mem_nil _)
    · refine Or.inl fun c hc => ?_
      have heq := hkey.unique hc
      cases c <;> exact absurd heq (by decide)
  · have hkey : Spelling again.key Choice.deletion.key.toList := Choice.spelling_key .deletion
    apply hrefused [limit] [deletion] again rfl ⟨by decide, by decide, by decide, by decide⟩ hkey.form
    · exact .number (IntegerForm.number (Or.inl rfl))
    · exact Or.inr ⟨.deletion, rfl, hkey⟩

end Settings

end SyntaxRecovery
