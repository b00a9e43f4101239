import Mathlib
import SyntaxRecovery.Message.Catalogue
import SyntaxRecovery.Proofs.Word

/-!
# Templates are gone over once

What a template is made of can be told without the arguments, from their number alone: characters that
stand for themselves, and places for arguments (`Template.Piece`). `Template.Scanned` says how the pieces
are found, from left to right. Each template has its pieces and no others (`Template.exists_unique_scanned`),
and to fill it is to put the arguments into their places (`Template.Scanned.fillChars_eq`), so whatever an
argument has in it, a brace too, stays as it is.
-/

set_option autoImplicit false

namespace SyntaxRecovery

namespace Template

variable {args : List (List Char)} {c : Char} {l rest arg words digits : List Char} {n count : Nat}

/-! ## Placeholders -/

/-- Behind an opening brace, the placeholder of argument `n` of so many arguments, and then the rest: one
decimal digit or more and a closing brace. The number fits into a word. -/
def Placeholder (count : Nat) (l : List Char) (n : Nat) (rest : List Char) : Prop :=
  ∃ digits : List Char, l = digits ++ '}' :: rest ∧ digits ≠ [] ∧ (∀ d ∈ digits, d.isDigit = true) ∧
    Nat.ofDigitChars 10 digits 0 = n ∧ n < Word.limit ∧ n < count

theorem takeWhile_digits (h : ∀ d ∈ digits, d.isDigit = true) :
    (digits ++ '}' :: rest).takeWhile Char.isDigit = digits := by
  rw [List.takeWhile_append_of_pos h, List.takeWhile_cons_of_neg (by decide), List.append_nil]

theorem dropWhile_digits (h : ∀ d ∈ digits, d.isDigit = true) :
    (digits ++ '}' :: rest).dropWhile Char.isDigit = '}' :: rest := by
  rw [List.dropWhile_append_of_pos h, List.dropWhile_cons_of_neg (by decide)]

theorem placeholder?_digits (hne : digits ≠ []) (h : ∀ d ∈ digits, d.isDigit = true) :
    placeholder? args (digits ++ '}' :: rest) =
      (args[Nat.ofDigitChars 10 digits 0]?).map fun arg => (arg, rest) := by
  obtain ⟨d, ds, rfl⟩ := List.exists_cons_of_ne_nil hne
  rw [placeholder?, takeWhile_digits h, dropWhile_digits h]
  rfl

theorem Placeholder.lt_count (h : Placeholder count l n rest) : n < count := by
  obtain ⟨-, -, -, -, -, -, hlt⟩ := h
  exact hlt

theorem Placeholder.length_lt (h : Placeholder count l n rest) : rest.length < l.length := by
  obtain ⟨digits, rfl, -⟩ := h
  rw [List.length_append, List.length_cons]
  omega

/-- Where a placeholder is found, there are digits, a closing brace and an argument. -/
theorem digits_of_placeholder? (h : placeholder? args l = some (arg, rest)) :
    ∃ digits : List Char, l = digits ++ '}' :: rest ∧ digits ≠ [] ∧
      (∀ d ∈ digits, d.isDigit = true) ∧ args[Nat.ofDigitChars 10 digits 0]? = some arg := by
  have hl := (List.takeWhile_append_dropWhile (p := Char.isDigit) (l := l)).symm
  unfold placeholder? at h
  split at h
  · next d ds after htake hdrop =>
    obtain ⟨a, harg, heq⟩ := Option.map_eq_some_iff.1 h
    cases heq
    rw [htake, hdrop] at hl
    refine ⟨d :: ds, hl, List.cons_ne_nil d ds, fun x hx => ?_, harg⟩
    exact List.mem_takeWhile_imp (htake ▸ hx)
  · cases h

/-- The placeholders found are those of arguments at hand, as the number of an argument fits into a
word. -/
theorem placeholder?_eq_some_iff (hargs : args.length ≤ Word.limit) :
    placeholder? args l = some (arg, rest) ↔
      ∃ n, Placeholder args.length l n rest ∧ args[n]? = some arg := by
  constructor
  · intro h
    obtain ⟨digits, hl, hne, hdigits, harg⟩ := digits_of_placeholder? h
    have hlt := (List.getElem?_eq_some_iff.1 harg).1
    exact ⟨_, ⟨digits, hl, hne, hdigits, rfl, hlt.trans_le hargs, hlt⟩, harg⟩
  · rintro ⟨n, ⟨digits, rfl, hne, hdigits, rfl, -, -⟩, harg⟩
    rw [placeholder?_digits hne hdigits, harg, Option.map_some]

theorem placeholder?_eq_none_iff (hargs : args.length ≤ Word.limit) :
    placeholder? args l = none ↔ ∀ n rest, ¬ Placeholder args.length l n rest := by
  constructor
  · intro hnone n rest hp
    have hsome := (placeholder?_eq_some_iff hargs).2 ⟨n, hp, List.getElem?_eq_getElem hp.lt_count⟩
    rw [hnone] at hsome
    cases hsome
  · intro hnone
    refine Option.eq_none_iff_forall_ne_some.2 fun found hsome => ?_
    obtain ⟨n, hp, -⟩ := (placeholder?_eq_some_iff hargs).1 hsome
    exact hnone n found.2 hp

/-- There is one placeholder at most, and it ends at one place. -/
theorem Placeholder.unique {n' : Nat} {rest' : List Char} (h : Placeholder count l n rest)
    (h' : Placeholder count l n' rest') : n = n' ∧ rest = rest' := by
  obtain ⟨digits, hl, -, hd, rfl, -⟩ := h
  obtain ⟨digits', hl', -, hd', rfl, -⟩ := h'
  -- the digits are all those that the text begins with, so the text tells them
  have hdigits : digits = digits' := by rw [← takeWhile_digits hd, ← hl, hl', takeWhile_digits hd']
  have hrest : '}' :: rest = '}' :: rest' := by
    rw [← dropWhile_digits hd, ← hl, hl', dropWhile_digits hd']
  exact ⟨by rw [hdigits], List.tail_eq_of_cons_eq hrest⟩

/-! ## Pieces -/

/-- A piece of a template. -/
inductive Piece where
  /-- A character that stands for itself. -/
  | char (c : Char)
  /-- The place of an argument. -/
  | argument (n : Nat)
deriving DecidableEq, Repr

/-- What stands for a piece once the arguments are known. -/
def Piece.chars (args : List (List Char)) : Piece → List Char
  | char c => [c]
  | argument n => args.getD n []

/-- Pieces of a template for so many arguments, found from left to right: a brace with a placeholder is the
place of an argument, and what follows is read from behind its closing brace. Any other character stands
for itself. -/
inductive Scanned (count : Nat) : List Char → List Piece → Prop where
  | done : Scanned count [] []
  | argument {l rest : List Char} {n : Nat} {pieces : List Piece} :
      Placeholder count l n rest → Scanned count rest pieces →
      Scanned count ('{' :: l) (.argument n :: pieces)
  | char {c : Char} {l : List Char} {pieces : List Piece} :
      (c = '{' → ∀ n rest, ¬ Placeholder count l n rest) → Scanned count l pieces →
      Scanned count (c :: l) (.char c :: pieces)

theorem exists_scanned (count : Nat) (l : List Char) : ∃ pieces, Scanned count l pieces := by
  -- the rest behind a placeholder is no tail of the template, but it is shorter
  induction hlen : l.length using Nat.strong_induction_on generalizing l with
  | _ len ih =>
    subst hlen
    cases l with
    | nil => exact ⟨[], .done⟩
    | cons c l =>
      by_cases hfound : c = '{' ∧ ∃ n rest, Placeholder count l n rest
      · obtain ⟨rfl, n, rest, hp⟩ := hfound
        obtain ⟨pieces, hpieces⟩ := ih _ (hp.length_lt.trans (Nat.lt_succ_self _)) rest rfl
        exact ⟨_, .argument hp hpieces⟩
      · obtain ⟨pieces, hpieces⟩ := ih _ (Nat.lt_succ_self _) l rfl
        exact ⟨_, .char (fun hc n rest hp => hfound ⟨hc, n, rest, hp⟩) hpieces⟩

theorem Scanned.unique {pieces pieces' : List Piece} (h : Scanned count l pieces)
    (h' : Scanned count l pieces') : pieces = pieces' := by
  induction h generalizing pieces' with
  | done => cases h'; rfl
  | argument hp _ ih =>
    cases h' with
    | argument hp' htail =>
      obtain ⟨rfl, rfl⟩ := hp.unique hp'
      rw [ih htail]
    | char hnone => exact absurd hp (hnone rfl _ _)
  | char hnone _ ih =>
    -- a brace that starts no placeholder in one reading starts none in the other
    cases h' with
    | argument hp' => exact absurd hp' (hnone rfl _ _)
    | char _ htail => rw [ih htail]

/-- A template has its pieces, and no others. -/
theorem exists_unique_scanned (count : Nat) (l : List Char) :
    ∃ pieces, ∀ pieces', Scanned count l pieces' ↔ pieces' = pieces := by
  obtain ⟨pieces, h⟩ := exists_scanned count l
  exact ⟨pieces, fun pieces' => ⟨fun h' => h'.unique h, fun heq => heq ▸ h⟩⟩

/-! ## Filling -/

theorem fillChars_nil : fillChars args [] = [] := by rw [fillChars]

theorem fillChars_placeholder (h : placeholder? args l = some (arg, rest)) :
    fillChars args ('{' :: l) = arg ++ fillChars args rest := by
  rw [fillChars, if_pos rfl]
  split
  · next hsome => rw [h] at hsome; cases hsome; rfl
  · next hnone => rw [h] at hnone; cases hnone

theorem fillChars_char (h : c = '{' → placeholder? args l = none) :
    fillChars args (c :: l) = c :: fillChars args l := by
  rw [fillChars]
  split
  · next hc =>
    split
    · next hsome => rw [h hc] at hsome; cases hsome
    · rfl
  · rfl

theorem fillChars_words (h : '{' ∉ words) :
    fillChars args (words ++ l) = words ++ fillChars args l := by
  induction words with
  | nil => rfl
  | cons c words ih =>
    obtain ⟨hc, hwords⟩ := not_or.1 (mt List.mem_cons.2 h)
    rw [List.cons_append, fillChars_char fun heq => absurd heq.symm hc, ih hwords, List.cons_append]

/-- To fill a template is to put the arguments into their places among its pieces. -/
theorem Scanned.fillChars_eq {pieces : List Piece} (hargs : args.length ≤ Word.limit)
    (h : Scanned args.length l pieces) :
    fillChars args l = pieces.flatMap (Piece.chars args) := by
  induction h with
  | done => exact fillChars_nil
  | @argument l rest n pieces hp _ ih =>
    have harg : args[n]? = some (args.getD n []) := by
      rw [List.getD_eq_getElem _ _ hp.lt_count, List.getElem?_eq_getElem hp.lt_count]
    rw [fillChars_placeholder ((placeholder?_eq_some_iff hargs).2 ⟨n, hp, harg⟩), ih,
      List.flatMap_cons, Piece.chars]
  | char hnone _ ih =>
    rw [fillChars_char fun hc => (placeholder?_eq_none_iff hargs).2 (hnone hc), ih,
      List.flatMap_cons, Piece.chars, List.singleton_append]

theorem placeholder?_no_args : placeholder? [] l = none := by
  exact (placeholder?_eq_none_iff (Nat.zero_le _)).2 fun n rest h => Nat.not_lt_zero n h.lt_count

/-- Without arguments a template stands for itself. -/
theorem fill_no_args (template : String) : fill template [] = template := by
  have hchars (l : List Char) : fillChars [] l = l := by
    induction l with
    | nil => exact fillChars_nil
    | cons c l ih => rw [fillChars_char fun _ => placeholder?_no_args, ih]
  rw [fill, List.map_nil, hchars, String.ofList_toList]

/-! ## Texts of the kinds -/

/-- Words, and then the place of an argument. -/
theorem fillChars_words_slot (hwords : '{' ∉ words) (h : placeholder? args l = some (arg, rest)) :
    fillChars args (words ++ '{' :: l) = words ++ (arg ++ fillChars args rest) := by
  rw [fillChars_words hwords, fillChars_placeholder h]

theorem fillChars_only_words (h : '{' ∉ words) : fillChars args words = words := by
  calc fillChars args words = fillChars args (words ++ []) := by rw [List.append_nil]
    _ = words := by rw [fillChars_words h, fillChars_nil, List.append_nil]

end Template

namespace MessageKind

open Template

theorem toList_text (k : MessageKind) (args : List String) :
    (k.text args).toList = fillChars (args.map String.toList) k.template.toList := String.toList_ofList

theorem text_noViableAlternative (a : String) :
    noViableAlternative.text [a] = "no viable alternative at input " ++ a := by
  have htemplate : noViableAlternative.template.toList =
      "no viable alternative at input ".toList ++ '{' :: ['0', '}'] := by decide
  refine String.toList_inj.1 ?_
  rw [toList_text, htemplate, fillChars_words_slot (by decide) rfl, fillChars_nil, List.append_nil,
    String.toList_append]

/-- Words, the first argument, more words, and the second argument. -/
theorem text_of_two_slots {k : MessageKind} {before between : String} (hbefore : '{' ∉ before.toList)
    (hbetween : '{' ∉ between.toList)
    (htemplate : k.template.toList =
      before.toList ++ '{' :: '0' :: '}' :: (between.toList ++ '{' :: ['1', '}'])) (a b : String) :
    k.text [a, b] = before ++ a ++ between ++ b := by
  refine String.toList_inj.1 ?_
  rw [toList_text, htemplate, fillChars_words_slot hbefore rfl, fillChars_words_slot hbetween rfl,
    fillChars_nil]
  simp only [String.toList_append, List.append_assoc, List.append_nil]

theorem text_mismatch (a b : String) :
    mismatch.text [a, b] = "mismatched input " ++ a ++ " expecting " ++ b :=
  text_of_two_slots (by decide) (by decide) (by decide) a b

theorem text_extraneous (a b : String) :
    extraneous.text [a, b] = "extraneous input " ++ a ++ " expecting " ++ b :=
  text_of_two_slots (by decide) (by decide) (by decide) a b

theorem text_missing (a b : String) : missing.text [a, b] = "missing " ++ a ++ " at " ++ b :=
  text_of_two_slots (by decide) (by decide) (by decide) a b

/-- The condition stands between braces: the first of the two before it starts no placeholder, as no
digit follows, and the second of the two behind it is behind the placeholder. -/
theorem text_failedPredicate (rule condition : String) :
    failedPredicate.text [rule, condition] =
      "rule " ++ rule ++ " failed predicate: \x7b" ++ condition ++ "\x7d?" := by
  have htemplate : failedPredicate.template.toList =
      "rule ".toList ++ '{' :: '0' :: '}' ::
        (" failed predicate: ".toList ++ '{' :: '{' :: '1' :: '}' :: "\x7d?".toList) := by decide
  have hbrace : " failed predicate: \x7b".toList = " failed predicate: ".toList ++ ['{'] := by decide
  refine String.toList_inj.1 ?_
  -- the literal brace is gone past as a character, and the next one has its placeholder
  rw [toList_text, htemplate, fillChars_words_slot (by decide) rfl, fillChars_words (by decide),
    fillChars_char fun _ => rfl, fillChars_placeholder rfl, fillChars_only_words (by decide)]
  simp only [String.toList_append, hbrace, List.append_assoc, List.cons_append, List.nil_append]

end MessageKind

end SyntaxRecovery
