import Mathlib
import SyntaxRecovery.Proofs.Json.Values
import SyntaxRecovery.Recovery.Settings.Reader

/-!
# Settings laid over the defaults

What a user writes is a value for some of the choices (`Overlay`), and the settings have these values and
keep the default of every other choice (`Overlay.settings`). `Choice.Writes` says which texts write a
value of a choice. The value of such a text is chosen when the text is read
(`Settings.readValue?_of_writes`), and of any other value no more is read than the value, so that a reader
cannot run over its end (`Settings.left_of_readValue?`).
-/

set_option autoImplicit false

namespace SyntaxRecovery

open Json

variable {rest text gap : List Char}

/-! ## Values of the choices -/

/-- What can be chosen. -/
@[reducible] def Choice.Value : Choice → Type
  | .deletion => Bool
  | .insertion => InsertionRule
  | .logsRecoverySet => Bool
  | .budget => Option UInt64

namespace Settings

variable {s t : Settings} {c d : Choice}

/-- The value of a choice. -/
def get (s : Settings) : (c : Choice) → c.Value
  | .deletion => s.deletion
  | .insertion => s.insertion
  | .logsRecoverySet => s.logsRecoverySet
  | .budget => s.budget

/-- The settings with another value of a choice. -/
def set (s : Settings) : (c : Choice) → c.Value → Settings
  | .deletion, v => { s with deletion := v }
  | .insertion, v => { s with insertion := v }
  | .logsRecoverySet, v => { s with logsRecoverySet := v }
  | .budget, v => { s with budget := v }

@[simp] theorem get_set_self (s : Settings) (c : Choice) (v : c.Value) : (s.set c v).get c = v := by
  cases c <;> rfl

theorem get_set_of_ne (h : d ≠ c) (v : c.Value) : (s.set c v).get d = s.get d := by
  cases c <;> cases d <;> first | rfl | exact absurd rfl h

/-- Settings with the same values are the same. -/
theorem eq_of_get_eq (h : ∀ c, s.get c = t.get c) : s = t := by
  have hdeletion := h .deletion
  have hinsertion := h .insertion
  have hlogs := h .logsRecoverySet
  have hbudget := h .budget
  cases s
  cases t
  simp only [get] at hdeletion hinsertion hlogs hbudget
  subst hdeletion hinsertion hlogs hbudget
  rfl

end Settings

/-- Values for some of the choices. -/
structure Overlay where
  /-- The value of a choice, if there is one. -/
  value? : (c : Choice) → Option c.Value

namespace Overlay

/-- The defaults, with the values of the overlay in their places. -/
def settings (o : Overlay) : Settings :=
  let defaults : Settings := {}
  { deletion := (o.value? .deletion).getD defaults.deletion
    insertion := (o.value? .insertion).getD defaults.insertion
    logsRecoverySet := (o.value? .logsRecoverySet).getD defaults.logsRecoverySet
    budget := (o.value? .budget).getD defaults.budget }

theorem get_settings (o : Overlay) (c : Choice) :
    o.settings.get c = (o.value? c).getD (({} : Settings).get c) := by
  cases c <;> rfl

/-- The settings with the value that the overlay has for a choice, if it has one. -/
def update (o : Overlay) (s : Settings) (c : Choice) : Settings :=
  match o.value? c with
  | some v => s.set c v
  | none => s

theorem get_update_self (o : Overlay) (s : Settings) (c : Choice) :
    (o.update s c).get c = (o.value? c).getD (s.get c) := by
  rw [update]
  cases o.value? c with
  | none => rfl
  | some v => exact Settings.get_set_self s c v

theorem get_update_of_ne {c d : Choice} (h : d ≠ c) (o : Overlay) (s : Settings) :
    (o.update s c).get d = s.get d := by
  rw [update]
  cases o.value? c with
  | none => rfl
  | some v => exact Settings.get_set_of_ne h v

/-- Updates of other choices leave a value, and those of a choice give it the value of the overlay. -/
theorem get_foldl_update (o : Overlay) (cs : List Choice) (s : Settings) (d : Choice) :
    (cs.foldl o.update s).get d = if d ∈ cs then (o.value? d).getD (s.get d) else s.get d := by
  induction cs generalizing s with
  | nil => simp
  | cons c cs ih =>
    rw [List.foldl_cons, ih]
    by_cases hd : d = c
    · subst hd
      rw [get_update_self, if_pos List.mem_cons_self]
      cases o.value? d <;> simp
    · rw [get_update_of_ne hd]
      simp [hd]

/-- The order in which the values come in makes no difference. -/
theorem foldl_update_eq_settings {o : Overlay} {cs : List Choice}
    (h : ∀ c, c ∈ cs ↔ (o.value? c).isSome = true) : cs.foldl o.update {} = o.settings := by
  apply Settings.eq_of_get_eq
  intro d
  rw [get_foldl_update, get_settings]
  split
  · rfl
  · next hd =>
    rw [h, Option.not_isSome_iff_eq_none] at hd
    rw [hd]
    rfl

end Overlay

/-! ## Texts of values -/

/-- The texts of an insertion rule: its name, or an object with its name as the only key and no value. -/
def InsertionRule.Writes (r : InsertionRule) (text : List Char) : Prop :=
  (∃ name, Spelling name r.name.toList ∧ text = '"' :: (name ++ ['"'])) ∨
  ∃ gap m, Blank gap ∧ m.Spaced ∧ Spelling m.key r.name.toList ∧ m.value = "null".toList ∧
    text = object gap [m]

/-- The texts of a value of a choice. -/
def Choice.Writes : (c : Choice) → c.Value → List Char → Prop
  | .deletion, v, text => text = (if v then "true" else "false").toList
  | .insertion, v, text => v.Writes text
  | .logsRecoverySet, v, text => text = (if v then "true" else "false").toList
  | .budget, none, text => text = "null".toList
  | .budget, some n, text => IntegerForm text ∧ Nat.ofDigitChars 10 text 0 = n.toNat

theorem InsertionRule.Writes.form {r : InsertionRule} (h : r.Writes text) : ValueForm text := by
  rcases h with ⟨name, hname, rfl⟩ | ⟨gap, m, hgap, hm, hkey, hvalue, rfl⟩
  · exact .string hname.form
  · apply ValueForm.object hgap
    · simpa using hm
    · simpa using hkey.form
    · simpa [hvalue] using ValueForm.word (w := "null") (by decide)

/-- What writes a value of a choice is a value. -/
theorem Choice.Writes.form {c : Choice} {v : c.Value} (h : c.Writes v text) : ValueForm text := by
  have hbool : ∀ b : Bool, ValueForm (if b then "true" else "false").toList := by
    intro b
    cases b
    · exact .word (w := "false") (by decide)
    · exact .word (w := "true") (by decide)
  cases c with
  | deletion => exact h ▸ hbool v
  | insertion => exact InsertionRule.Writes.form h
  | logsRecoverySet => exact h ▸ hbool v
  | budget =>
    cases v with
    | none => exact h ▸ .word (w := "null") (by decide)
    | some n => exact .number h.1.number

/-! ## Reading a value -/

theorem InsertionRule.ofName?_name (r : InsertionRule) : ofName? r.name.toList = some r := by
  cases r <;> decide

namespace Settings

variable {s t : Settings} {c : Choice}

/-- A truth value is read from its two words only. -/
theorem bool?_of_form (h : ValueForm text) :
    bool? (text ++ rest) = if text = "true".toList then some (true, rest)
      else if text = "false".toList then some (false, rest) else none := by
  rw [bool?, word?_of_form (by decide) h rest, word?_of_form (by decide) h rest]
  by_cases htrue : text = "true".toList
  · rw [if_pos htrue, if_pos htrue]
  · rw [if_neg htrue, if_neg htrue]
    by_cases hfalse : text = "false".toList
    · rw [if_pos hfalse, if_pos hfalse, Option.map_some]
    · rw [if_neg hfalse, if_neg hfalse, Option.map_none]

theorem bool?_of_text (v : Bool) :
    bool? ((if v then "true" else "false").toList ++ rest) = some (v, rest) := by
  cases v
  · rw [if_neg (by decide), bool?_of_form (.word (by decide)), if_neg (by decide), if_pos rfl]
  · rw [if_pos rfl, bool?_of_form (.word (by decide)), if_pos rfl]

/-- In quotes an insertion rule is read as a string. -/
theorem insertion?_quote (l : List Char) : insertion? ('"' :: l) =
    (string? ('"' :: l)).bind fun (name, rest) =>
      (InsertionRule.ofName? name).map fun r => (r, rest) := by
  rw [insertion?]
  · simp only [Option.bind_eq_bind, Option.map_eq_bind]
    rfl
  · intro rest h
    cases h

/-- An insertion rule is read from each of its texts. -/
theorem insertion?_of_writes {r : InsertionRule} (h : r.Writes text) :
    insertion? (text ++ rest) = some (r, rest) := by
  rcases h with ⟨name, hname, rfl⟩ | ⟨gap, m, hgap, hm, hkey, hvalue, rfl⟩
  · have hread : string? ('"' :: (name ++ '"' :: rest)) = some (r.name.toList, rest) :=
      string?_eq_some_iff.2 ⟨name, hname, rfl⟩
    simp [insertion?_quote, hread, InsertionRule.ofName?_name]
  · have hread (l : List Char) : string? ('"' :: m.key ++ '"' :: l) = some (r.name.toList, l) :=
      string?_eq_some_iff.2 ⟨m.key, hkey, rfl⟩
    have hnull (l : List Char) : skipBlank ("null".toList ++ l) = "null".toList ++ l :=
      (ValueForm.word (by decide)).skipBlank
    have hcolon (l : List Char) : word? [':'] (skipBlank (m.beforeColon ++ ':' :: l)) = some l :=
      mark?_skipBlank (by decide) hm.beforeColon
    have hbrace : word? ['}'] (skipBlank (m.after ++ '}' :: rest)) = some rest :=
      mark?_skipBlank (by decide) hm.after
    rw [object_append, insertion?, skipBlank_append hgap, membersThen_singleton,
      Member.skipBlank_chars hm, hread]
    simp only [Option.bind_eq_bind, Option.bind_some, InsertionRule.ofName?_name, hcolon,
      skipBlank_append hm.afterColon, hvalue, hnull, word?_append, hbrace]

theorem insertion?_of_head {a : Char} {l : List Char} (hbrace : a ≠ '{') (hquote : a ≠ '"') :
    insertion? (a :: l) = none := by
  have hstring : string? (a :: l) = none := by
    rw [string?]
    intro rest h
    exact hquote (List.cons.inj h).1
  rw [insertion?]
  · simp [hstring]
  · intro rest h
    exact hbrace (List.cons.inj h).1

/-- Of an object no more is read as an insertion rule than the object: where it has more than one member,
a comma stands in the place of the closing brace. -/
theorem rest_of_insertion?_object {members : List Member} {r : InsertionRule} {l : List Char}
    (hgap : Blank gap) (hm : ∀ m ∈ members, m.Spaced) (hkey : ∀ m ∈ members, StringForm m.key)
    (hvalue : ∀ m ∈ members, ValueForm m.value)
    (hread : insertion? (object gap members ++ rest) = some (r, l)) : l = rest := by
  rw [object_append, insertion?, skipBlank_append hgap] at hread
  cases members with
  | nil => cases hread
  | cons m members =>
    obtain ⟨hm, -⟩ := List.forall_mem_cons.1 hm
    obtain ⟨hvalue, -⟩ := List.forall_mem_cons.1 hvalue
    obtain ⟨tail, htail, hend⟩ := membersThen_cons m members rest
    rw [htail, Member.skipBlank_chars hm] at hread
    simp only [Option.bind_eq_bind, Option.bind_eq_some_iff] at hread
    obtain ⟨⟨name, behind⟩, hname, r', -, colon, hcolon, null, hnull, brace, hbrace, heq⟩ := hread
    cases heq
    obtain ⟨-, rfl⟩ := of_string?_eq_some (hkey m List.mem_cons_self) hname
    rw [mark?_skipBlank (by decide) hm.beforeColon] at hcolon
    cases hcolon
    rw [skipBlank_append hm.afterColon, hvalue.skipBlank, word?_of_form (by decide) hvalue] at hnull
    split at hnull
    · cases hnull
      -- behind the word for no value the object ends, or its next member begins
      rcases hend with rfl | ⟨t, rfl⟩
      · rw [mark?_skipBlank (by decide) hm.after] at hbrace
        cases hbrace
        rfl
      · rw [mark?_skipBlank_of_ne (by decide) (by decide) hm.after] at hbrace
        cases hbrace
    · cases hnull

/-- Of a value no more is read as an insertion rule than the value. -/
theorem rest_of_insertion? {r : InsertionRule} {l : List Char} (h : ValueForm text)
    (hread : insertion? (text ++ rest) = some (r, l)) : l = rest := by
  have hnone (a : Char) (t : List Char) (hbrace : a ≠ '{') (hquote : a ≠ '"')
      (hread : insertion? (a :: t) = some (r, l)) : l = rest := by
    rw [insertion?_of_head hbrace hquote] at hread
    cases hread
  cases h with
  | word hw =>
    obtain ⟨a, ws, hws, ha⟩ := head?_of_mem_words hw
    rw [hws] at hread
    simp only [List.mem_cons, List.not_mem_nil, or_false] at ha
    rcases ha with rfl | rfl | rfl <;> exact hnone _ _ (by decide) (by decide) hread
  | number hnumber =>
    obtain ⟨d, ds, rfl, -⟩ := hnumber.head
    have hbrace : '{' ≠ d := hnumber.head_ne (by decide) (by decide)
    have hquote : '"' ≠ d := hnumber.head_ne (by decide) (by decide)
    exact hnone d _ hbrace.symm hquote.symm hread
  | @string text htext =>
    have hsplit : '"' :: (text ++ ['"']) ++ rest = '"' :: text ++ '"' :: rest := by simp
    rw [hsplit, List.cons_append, insertion?_quote, ← List.cons_append] at hread
    obtain ⟨⟨name, behind⟩, hname, hrule⟩ := Option.bind_eq_some_iff.1 hread
    obtain ⟨r', -, heq⟩ := Option.map_eq_some_iff.1 hrule
    cases heq
    exact (of_string?_eq_some htext hname).2
  | array => exact hnone '[' _ (by decide) (by decide) hread
  | object hgap hm hkey hvalue => exact rest_of_insertion?_object hgap hm hkey hvalue hread

/-- A limit is read from its digits, where no other digit follows, or from the word for none. -/
theorem budget?_of_writes {v : Option UInt64} (h : Choice.budget.Writes v text) (hrest : Stops rest) :
    budget? (text ++ rest) = some (v, rest) := by
  have hnull := word?_of_form (w := "null") (by decide) h.form rest
  cases v with
  | none =>
    obtain rfl : text = "null".toList := h
    rw [budget?, hnull, if_pos rfl]
  | some n =>
    obtain ⟨hinteger, hvalue⟩ := h
    have hne : text ≠ "null".toList := by
      rintro rfl
      exact absurd (hinteger.digits.2 'n' (by decide)) (by decide)
    have hlt := n.toNat_lt_size
    rw [budget?, hnull, if_neg hne, natural?_of_integer hinteger hrest]
    simp [hvalue, hlt]

/-- The value that a text writes is chosen. -/
theorem readValue?_of_writes {v : c.Value} (h : c.Writes v text) (hrest : Stops rest) :
    readValue? s c (text ++ rest) = some (s.set c v, rest) := by
  cases c with
  | deletion =>
    obtain rfl : text = _ := h
    rw [readValue?, bool?_of_text]
    rfl
  | insertion =>
    rw [readValue?, insertion?_of_writes h]
    rfl
  | logsRecoverySet =>
    obtain rfl : text = _ := h
    rw [readValue?, bool?_of_text]
    rfl
  | budget =>
    rw [readValue?, budget?_of_writes h hrest]
    rfl

/-- Of a value no more is read as a truth value than the value. -/
theorem rest_of_bool? {v : Bool} {l : List Char} (h : ValueForm text)
    (hread : bool? (text ++ rest) = some (v, l)) : l = rest := by
  rw [bool?_of_form h] at hread
  split at hread
  · cases hread
    rfl
  · split at hread
    · cases hread
      rfl
    · cases hread

/-- Of a value no more is read as a limit than the value. -/
theorem left_of_budget? {v : Option UInt64} {l : List Char} (h : ValueForm text) (hrest : Stops rest)
    (hread : budget? (text ++ rest) = some (v, l)) : Left rest l := by
  rw [budget?, word?_of_form (by decide) h] at hread
  by_cases hnull : text = "null".toList
  · rw [if_pos hnull] at hread
    cases hread
    exact Or.inl rfl
  · rw [if_neg hnull] at hread
    simp only [Option.bind_eq_bind, Option.bind_eq_some_iff] at hread
    obtain ⟨⟨n, behind⟩, hn, heq⟩ := hread
    split at heq
    · cases heq
      exact left_of_natural? h hrest hn
    · cases heq

/-- Of a value no more is read than the value, and less only of a number with a fraction or an exponent. -/
theorem left_of_readValue? {l : List Char} (h : ValueForm text) (hrest : Stops rest)
    (hread : readValue? s c (text ++ rest) = some (t, l)) : Left rest l := by
  cases c with
  | deletion =>
    obtain ⟨⟨v, behind⟩, hv, heq⟩ := Option.map_eq_some_iff.1 hread
    cases heq
    exact Or.inl (rest_of_bool? h hv)
  | insertion =>
    obtain ⟨⟨v, behind⟩, hv, heq⟩ := Option.map_eq_some_iff.1 hread
    cases heq
    exact Or.inl (rest_of_insertion? h hv)
  | logsRecoverySet =>
    obtain ⟨⟨v, behind⟩, hv, heq⟩ := Option.map_eq_some_iff.1 hread
    cases heq
    exact Or.inl (rest_of_bool? h hv)
  | budget =>
    obtain ⟨⟨v, behind⟩, hv, heq⟩ := Option.map_eq_some_iff.1 hread
    cases heq
    exact left_of_budget? h hrest hv

end Settings

end SyntaxRecovery
