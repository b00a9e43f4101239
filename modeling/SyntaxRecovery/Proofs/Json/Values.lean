import Mathlib
import SyntaxRecovery.Proofs.Json.Strings

/-!
# Forms of values

The texts of JSON values, with blank space wherever the grammar has it (`Json.ValueForm`): words, numbers,
strings, arrays and objects. The members of an object are kept as they are written (`Json.Member`), so
that an object is the list of its members in the order of the text. The lemmas say what the readers of
single pieces make of a value of any kind: a word is read if it is the value and from no other value
(`Json.word?_of_form`), and a whole number is read from a number up to its fraction or exponent
(`Json.left_of_natural?`).
-/

set_option autoImplicit false

namespace SyntaxRecovery

namespace Json

variable {c d : Char} {n : Nat} {l rest text gap : List Char} {w : String}

/-! ## Blank space -/

/-- Spaces, tabs and line breaks. -/
def Blank (l : List Char) : Prop := ∀ c ∈ l, c ∈ [' ', '\t', '\n', '\r']

instance (l : List Char) : Decidable (Blank l) := List.decidableBAll _ l

theorem isBlank_iff : isBlank c = true ↔ c ∈ [' ', '\t', '\n', '\r'] := by
  simp [isBlank, or_assoc]

theorem skipBlank_append (h : Blank gap) : skipBlank (gap ++ l) = skipBlank l := by
  rw [skipBlank, List.dropWhile_append_of_pos fun c hc => isBlank_iff.2 (h c hc), skipBlank]

theorem skipBlank_of_blank (h : Blank gap) : skipBlank gap = [] := by
  have hskip := skipBlank_append (l := []) h
  rwa [List.append_nil] at hskip

theorem skipBlank_cons (h : isBlank c = false) : skipBlank (c :: l) = c :: l := by
  simp [skipBlank, h]

/-! ## Numbers -/

/-- One decimal digit or more. -/
def Digits (l : List Char) : Prop := l ≠ [] ∧ ∀ d ∈ l, d.isDigit = true

/-- A zero, or digits that do not begin with one. -/
def IntegerForm (l : List Char) : Prop := l = ['0'] ∨ Digits l ∧ l.head? ≠ some '0'

/-- A point and digits, or nothing. -/
def FractionForm (l : List Char) : Prop := l = [] ∨ ∃ ds, Digits ds ∧ l = '.' :: ds

/-- A letter, a sign or none, and digits, or nothing. -/
def ExponentForm (l : List Char) : Prop :=
  l = [] ∨ ∃ e ∈ ['e', 'E'], ∃ sign ∈ [[], ['+'], ['-']], ∃ ds, Digits ds ∧ l = e :: (sign ++ ds)

/-- A number. -/
def NumberForm (l : List Char) : Prop :=
  ∃ sign ∈ [[], ['-']], ∃ int fraction exponent, IntegerForm int ∧ FractionForm fraction ∧
    ExponentForm exponent ∧ l = sign ++ (int ++ (fraction ++ exponent))

/-! ## Values -/

/-- An element of an array, with the blank space around it. -/
structure Element where
  /-- Blank space before the value. -/
  before : List Char
  /-- The value. -/
  value : List Char
  /-- Blank space behind the value. -/
  after : List Char

/-- The text of an element. -/
def Element.chars (x : Element) : List Char := x.before ++ (x.value ++ x.after)

/-- The space around the value is blank. -/
def Element.Spaced (x : Element) : Prop := Blank x.before ∧ Blank x.after

/-- A member of an object as it is written. -/
structure Member where
  /-- Blank space before the key. -/
  before : List Char
  /-- The key, without its quotes. -/
  key : List Char
  /-- Blank space before the colon. -/
  beforeColon : List Char
  /-- Blank space behind the colon. -/
  afterColon : List Char
  /-- The value. -/
  value : List Char
  /-- Blank space behind the value. -/
  after : List Char

/-- The text of a member. -/
def Member.chars (m : Member) : List Char :=
  m.before ++ '"' :: (m.key ++ '"' :: (m.beforeColon ++ ':' :: (m.afterColon ++ (m.value ++ m.after))))

/-- The space around the key and the value is blank. -/
structure Member.Spaced (m : Member) : Prop where
  before : Blank m.before
  beforeColon : Blank m.beforeColon
  afterColon : Blank m.afterColon
  after : Blank m.after

/-- The text of an object, with blank space behind the opening brace. -/
def object (gap : List Char) (members : List Member) : List Char :=
  '{' :: (gap ++ ([','].intercalate (members.map Member.chars) ++ ['}']))

/-- The words that are values. -/
def words : List String := ["null", "true", "false"]

/-- The text of a value. -/
inductive ValueForm : List Char → Prop where
  | word {w : String} : w ∈ words → ValueForm w.toList
  | number {l : List Char} : NumberForm l → ValueForm l
  | string {text : List Char} : StringForm text → ValueForm ('"' :: (text ++ ['"']))
  | array {gap : List Char} {elements : List Element} :
      Blank gap → (∀ x ∈ elements, x.Spaced) → (∀ x ∈ elements, ValueForm x.value) →
      ValueForm ('[' :: (gap ++ ([','].intercalate (elements.map Element.chars) ++ [']'])))
  | object {gap : List Char} {members : List Member} :
      Blank gap → (∀ m ∈ members, m.Spaced) → (∀ m ∈ members, StringForm m.key) →
      (∀ m ∈ members, ValueForm m.value) → ValueForm (object gap members)

/-! ## First characters -/

theorem IntegerForm.digits (h : IntegerForm l) : Digits l := by
  rcases h with rfl | ⟨h, -⟩
  · refine ⟨by simp, ?_⟩
    intro d hd
    rw [List.mem_singleton.1 hd]
    rfl
  · exact h

theorem IntegerForm.number (h : IntegerForm l) : NumberForm l :=
  ⟨[], by simp, l, [], [], h, Or.inl rfl, Or.inl rfl, by simp⟩

theorem Digits.head (h : Digits l) : ∃ d ds, l = d :: ds ∧ d.isDigit = true := by
  obtain ⟨d, ds, rfl⟩ := List.exists_cons_of_ne_nil h.1
  exact ⟨d, ds, rfl, h.2 d List.mem_cons_self⟩

theorem NumberForm.head (h : NumberForm l) : ∃ d ds, l = d :: ds ∧ (d = '-' ∨ d.isDigit = true) := by
  obtain ⟨sign, hsign, int, fraction, exponent, hint, -, -, rfl⟩ := h
  obtain ⟨d, ds, rfl, hd⟩ := hint.digits.head
  simp only [List.mem_cons, List.not_mem_nil, or_false] at hsign
  rcases hsign with rfl | rfl
  · exact ⟨d, _, rfl, Or.inr hd⟩
  · exact ⟨'-', _, rfl, Or.inl rfl⟩

/-- Other characters than those that a number begins with. -/
theorem NumberForm.head_ne (h : NumberForm (d :: l)) (hminus : c ≠ '-') (hdigit : c.isDigit = false) :
    c ≠ d := by
  rintro rfl
  obtain ⟨d, ds, heq, hd⟩ := h.head
  cases heq
  rcases hd with rfl | hd
  · exact hminus rfl
  · rw [hd] at hdigit
    cases hdigit

/-- A value does not begin with blank space. -/
theorem ValueForm.head (h : ValueForm text) : ∃ c l, text = c :: l ∧ isBlank c = false := by
  cases h with
  | word hw =>
    simp only [words, List.mem_cons, List.not_mem_nil, or_false] at hw
    rcases hw with rfl | rfl | rfl
    · exact ⟨'n', "ull".toList, by decide, by decide⟩
    · exact ⟨'t', "rue".toList, by decide, by decide⟩
    · exact ⟨'f', "alse".toList, by decide, by decide⟩
  | number hnumber =>
    obtain ⟨d, ds, rfl, -⟩ := hnumber.head
    refine ⟨d, ds, rfl, ?_⟩
    rw [Bool.eq_false_iff]
    intro hblank
    rw [isBlank_iff] at hblank
    simp only [List.mem_cons, List.not_mem_nil, or_false] at hblank
    rcases hblank with rfl | rfl | rfl | rfl <;>
      exact hnumber.head_ne (by decide) (by decide) rfl
  | string => exact ⟨_, _, rfl, by decide⟩
  | array => exact ⟨_, _, rfl, by decide⟩
  | object => exact ⟨_, _, rfl, by decide⟩

theorem ValueForm.skipBlank (h : ValueForm text) : skipBlank (text ++ l) = text ++ l := by
  obtain ⟨c, t, rfl, hc⟩ := h.head
  exact skipBlank_cons hc

/-! ## Reading a word -/

theorem word?_append (w l : List Char) : word? w (w ++ l) = some l := by
  have hprefix : w.isPrefixOf (w ++ l) = true := by simp
  rw [word?, if_pos hprefix, List.drop_left]

theorem word?_of_head_ne {ws : List Char} (h : c ≠ d) : word? (c :: ws) (d :: l) = none := by
  simp [word?, h]

/-- The words begin with letters, and each with its own. -/
theorem eq_of_head?_eq {w' : String} (hw : w ∈ words) (hw' : w' ∈ words)
    (h : w.toList.head? = w'.toList.head?) : w = w' := by
  simp only [words, List.mem_cons, List.not_mem_nil, or_false] at hw hw'
  rcases hw with rfl | rfl | rfl <;> rcases hw' with rfl | rfl | rfl <;>
    first | rfl | exact absurd h (by decide)

theorem head?_of_mem_words (hw : w ∈ words) :
    ∃ a ws, w.toList = a :: ws ∧ a ∈ ['n', 't', 'f'] := by
  simp only [words, List.mem_cons, List.not_mem_nil, or_false] at hw
  rcases hw with rfl | rfl | rfl
  · exact ⟨'n', "ull".toList, by decide, by decide⟩
  · exact ⟨'t', "rue".toList, by decide, by decide⟩
  · exact ⟨'f', "alse".toList, by decide, by decide⟩

/-- A value that begins as a word does is that word. -/
theorem ValueForm.eq_word (hw : w ∈ words) (h : ValueForm text)
    (hhead : text.head? = w.toList.head?) : text = w.toList := by
  obtain ⟨a, ws, hws, ha⟩ := head?_of_mem_words hw
  simp only [List.mem_cons, List.not_mem_nil, or_false] at ha
  cases h with
  | word hw' => rw [eq_of_head?_eq hw' hw hhead]
  | number hnumber =>
    obtain ⟨d, ds, rfl, -⟩ := hnumber.head
    rw [hws, List.head?_cons, List.head?_cons, Option.some.injEq] at hhead
    subst hhead
    rcases ha with rfl | rfl | rfl <;> exact absurd rfl (hnumber.head_ne (by decide) (by decide))
  | string => rw [hws] at hhead; rcases ha with rfl | rfl | rfl <;> cases hhead
  | array => rw [hws] at hhead; rcases ha with rfl | rfl | rfl <;> cases hhead
  | object => rw [hws] at hhead; rcases ha with rfl | rfl | rfl <;> cases hhead

/-- A word is read from itself, and from no value of another kind and no other word. -/
theorem word?_of_form (hw : w ∈ words) (h : ValueForm text) (rest : List Char) :
    word? w.toList (text ++ rest) = if text = w.toList then some rest else none := by
  split
  · next heq => rw [heq, word?_append]
  · next hne =>
    obtain ⟨d, l, rfl, -⟩ := h.head
    obtain ⟨a, ws, hws, -⟩ := head?_of_mem_words hw
    rw [hws]
    apply word?_of_head_ne
    rintro rfl
    apply hne
    apply h.eq_word hw
    rw [hws, List.head?_cons, List.head?_cons]

/-! ## Reading a whole number -/

/-- No digit follows. -/
def Stops (l : List Char) : Prop := ∀ c ∈ l.head?, c.isDigit = false

theorem stops_of_blank (hgap : Blank gap) (hc : c.isDigit = false) : Stops (gap ++ c :: l) := by
  intro d hd
  cases gap with
  | nil =>
    cases hd
    exact hc
  | cons b gap =>
    cases hd
    have hblank := hgap d List.mem_cons_self
    simp only [List.mem_cons, List.not_mem_nil, or_false] at hblank
    rcases hblank with rfl | rfl | rfl | rfl <;> decide

theorem natural?_of_head (h : c.isDigit = false) : natural? (c :: l) = none := by
  simp [natural?, h]

/-- Where no digit follows, a whole number is read from its digits. -/
theorem natural?_of_integer (h : IntegerForm text) (hrest : Stops rest) :
    natural? (text ++ rest) = some (Nat.ofDigitChars 10 text 0, rest) := by
  have htail : rest.takeWhile Char.isDigit = [] ∧ rest.dropWhile Char.isDigit = rest := by
    cases rest with
    | nil => simp
    | cons c rest => simp [hrest c rfl]
  have htake : (text ++ rest).takeWhile Char.isDigit = text := by
    rw [List.takeWhile_append_of_pos h.digits.2, htail.1, List.append_nil]
  have hdrop : (text ++ rest).dropWhile Char.isDigit = rest := by
    rw [List.dropWhile_append_of_pos h.digits.2, htail.2]
  obtain ⟨d, ds, rfl, -⟩ := h.digits.head
  rw [natural?, htake, hdrop]
  simp only
  -- a zero has no digits behind it
  rw [if_neg]
  rintro ⟨rfl, hds⟩
  rcases h with hzero | ⟨-, hzero⟩
  · exact hds (List.cons.inj hzero).2
  · exact hzero rfl

/-- The first characters of fractions and exponents. -/
def partMarks : List Char := ['.', 'e', 'E']

/-- Behind the whole part a number ends, or there is a fraction or an exponent. -/
theorem fraction_exponent_cases {fraction exponent : List Char} (hfraction : FractionForm fraction)
    (hexponent : ExponentForm exponent) :
    fraction ++ exponent = [] ∨ ∃ c l, fraction ++ exponent = c :: l ∧ c ∈ partMarks := by
  rcases hfraction with rfl | ⟨ds, -, rfl⟩
  · rcases hexponent with rfl | ⟨e, he, sign, -, ds, -, rfl⟩
    · exact Or.inl rfl
    · exact Or.inr ⟨e, _, rfl, List.mem_cons_of_mem '.' he⟩
  · exact Or.inr ⟨'.', _, rfl, List.mem_cons_self⟩

theorem stops_of_mem_partMarks (h : c ∈ partMarks) : Stops (c :: l) := by
  intro d hd
  cases hd
  simp only [partMarks, List.mem_cons, List.not_mem_nil, or_false] at h
  rcases h with rfl | rfl | rfl <;> decide

/-- What may be left of a value and the rest behind it: the rest, or what begins as a fraction or an
exponent does. -/
def Left (rest l : List Char) : Prop := l = rest ∨ ∃ a ∈ partMarks, ∃ t, l = a :: t

theorem left_of_natural?_number (h : NumberForm text) (hrest : Stops rest)
    (hread : natural? (text ++ rest) = some (n, l)) : Left rest l := by
  obtain ⟨sign, hsign, int, fraction, exponent, hint, hfraction, hexponent, rfl⟩ := h
  simp only [List.mem_cons, List.not_mem_nil, or_false] at hsign
  rcases hsign with rfl | rfl
  · rw [List.nil_append, List.append_assoc] at hread
    rcases fraction_exponent_cases hfraction hexponent with hend | ⟨a, t, hpart, ha⟩
    · rw [hend, List.nil_append, natural?_of_integer hint hrest] at hread
      cases hread
      exact Or.inl rfl
    · rw [hpart, List.cons_append, natural?_of_integer hint (stops_of_mem_partMarks ha)] at hread
      cases hread
      exact Or.inr ⟨a, ha, t ++ rest, rfl⟩
  · rw [List.cons_append, List.cons_append, natural?_of_head (by decide)] at hread
    cases hread

/-- A whole number is read from a number only, to its end or up to its fraction or exponent. -/
theorem left_of_natural? (h : ValueForm text) (hrest : Stops rest)
    (hread : natural? (text ++ rest) = some (n, l)) : Left rest l := by
  have hnone (a : Char) (t : List Char) (ha : a.isDigit = false)
      (hread : natural? (a :: t) = some (n, l)) : Left rest l := by
    rw [natural?_of_head ha] at hread
    cases hread
  cases h with
  | word hw =>
    obtain ⟨a, ws, hws, ha⟩ := head?_of_mem_words hw
    rw [hws] at hread
    refine hnone a _ ?_ hread
    simp only [List.mem_cons, List.not_mem_nil, or_false] at ha
    rcases ha with rfl | rfl | rfl <;> decide
  | number hnumber => exact left_of_natural?_number hnumber hrest hread
  | string => exact hnone '"' _ (by decide) hread
  | array => exact hnone '[' _ (by decide) hread
  | object => exact hnone '{' _ (by decide) hread

/-! ## Members in their text -/

/-- A member at the front: its key, and what stands behind the key. -/
theorem Member.skipBlank_chars {m : Member} (hm : m.Spaced) (tail : List Char) :
    skipBlank (m.chars ++ tail) =
      '"' :: m.key ++ '"' :: (m.beforeColon ++ ':' :: (m.afterColon ++ (m.value ++ (m.after ++ tail)))) := by
  rw [chars, List.append_assoc, skipBlank_append hm.before, List.cons_append,
    skipBlank_cons (by decide)]
  simp only [List.append_assoc, List.cons_append]

/-- A mark behind blank space is read. -/
theorem mark?_skipBlank (hc : isBlank c = false) (h : Blank gap) :
    word? [c] (skipBlank (gap ++ c :: l)) = some l := by
  rw [skipBlank_append h, skipBlank_cons hc]
  exact word?_append [c] l

/-- No mark is read from another one. -/
theorem mark?_skipBlank_of_ne (hd : isBlank d = false) (hne : c ≠ d) (h : Blank gap) :
    word? [c] (skipBlank (gap ++ d :: l)) = none := by
  rw [skipBlank_append h, skipBlank_cons hd]
  exact word?_of_head_ne hne

/-- Members with the commas between them, and a closing brace before the rest. -/
def membersThen (members : List Member) (rest : List Char) : List Char :=
  [','].intercalate (members.map Member.chars) ++ '}' :: rest

theorem membersThen_singleton (m : Member) : membersThen [m] rest = m.chars ++ '}' :: rest := by
  simp [membersThen]

theorem membersThen_cons_of_ne_nil {m : Member} {members : List Member} (h : members ≠ []) :
    membersThen (m :: members) rest = m.chars ++ ',' :: membersThen members rest := by
  obtain ⟨m', members, rfl⟩ := List.exists_cons_of_ne_nil h
  simp [membersThen]

/-- Behind the first member stands the closing brace, if there is no other, or a comma. -/
theorem membersThen_cons (m : Member) (members : List Member) (rest : List Char) :
    ∃ tail, membersThen (m :: members) rest = m.chars ++ tail ∧
      (tail = '}' :: rest ∨ ∃ l, tail = ',' :: l) := by
  cases members with
  | nil => exact ⟨_, membersThen_singleton m, Or.inl rfl⟩
  | cons m' members => exact ⟨_, membersThen_cons_of_ne_nil (List.cons_ne_nil _ _), Or.inr ⟨_, rfl⟩⟩

theorem object_append (gap : List Char) (members : List Member) (rest : List Char) :
    object gap members ++ rest = '{' :: (gap ++ membersThen members rest) := by
  simp [object, membersThen]

end Json

end SyntaxRecovery
