import Mathlib
import SyntaxRecovery.Json.Scan

/-!
# Spellings of strings

A string can be written in many ways: most characters stand for themselves, some have an escape of two
characters, and every one can be written by the hexadecimal numbers of its code units
(`Json.CharSpelling`). A text between quotes spells a string if it is made of such pieces
(`Json.Spelling`). Each reader of a piece takes exactly the spellings of that piece off the front, and a
string is read exactly from its spellings (`Json.string?_eq_some_iff`).

A text can also have the form of a string and spell none, with half of a pair of code units
(`Json.StringForm`). Such a text is not read.
-/

set_option autoImplicit false

namespace SyntaxRecovery

namespace Json

variable {c e : Char} {n : Nat} {l rest rest' text text' quad name : List Char}

/-! ## Spellings -/

/-- A hexadecimal digit, in lower or upper case, and its value. -/
def HexDigit (c : Char) (n : Nat) : Prop :=
  "0123456789abcdef".toList[n]? = some c ∨ "0123456789ABCDEF".toList[n]? = some c

/-- Four hexadecimal digits and the number that they write. -/
inductive HexQuad : List Char → Nat → Prop where
  | mk {a b c d : Char} {i j k m : Nat} :
      HexDigit a i → HexDigit b j → HexDigit c k → HexDigit d m →
      HexQuad [a, b, c, d] (i * 16 ^ 3 + j * 16 ^ 2 + k * 16 + m)

/-- The characters that can be written with a backslash and a letter: the letter and the character. -/
def letterEscapes : List (Char × Char) :=
  [('"', '"'), ('\\', '\\'), ('/', '/'), ('b', '\x08'), ('f', '\x0c'), ('n', '\n'), ('r', '\r'),
    ('t', '\t')]

/-- Ways to write a character within a string. -/
inductive CharSpelling : List Char → Char → Prop where
  /-- The character itself. -/
  | plain {c : Char} : c ≠ '"' → c ≠ '\\' → ' ' ≤ c → CharSpelling [c] c
  /-- A backslash and a letter. -/
  | letter {e c : Char} : (e, c) ∈ letterEscapes → CharSpelling ['\\', e] c
  /-- The number of a character that is one code unit. -/
  | unit {quad : List Char} {c : Char} : HexQuad quad c.toNat → CharSpelling ('\\' :: 'u' :: quad) c
  /-- The numbers of the two code units of any other character, each with ten bits of what the character
  is beyond the characters that are one code unit. -/
  | pair {quad quad' : List Char} {high low : Nat} {c : Char} :
      high < 0x400 → low < 0x400 → HexQuad quad (0xD800 + high) → HexQuad quad' (0xDC00 + low) →
      c.toNat = 0x10000 + high * 0x400 + low →
      CharSpelling ('\\' :: 'u' :: (quad ++ '\\' :: 'u' :: quad')) c

/-- Ways to write a string between its quotes. -/
inductive Spelling : List Char → List Char → Prop where
  | nil : Spelling [] []
  | cons {piece text cs : List Char} {c : Char} :
      CharSpelling piece c → Spelling text cs → Spelling (piece ++ text) (c :: cs)

/-! ## Reading a character -/

theorem le_iff_toNat {a b : Char} : a ≤ b ↔ a.toNat ≤ b.toNat := by
  rw [Char.le_def, UInt32.le_iff_toNat_le]
  rfl

theorem isDigit_iff_toNat : c.isDigit = true ↔ 48 ≤ c.toNat ∧ c.toNat ≤ 57 := by
  rw [Char.isDigit, Bool.and_eq_true, decide_eq_true_iff, decide_eq_true_iff, ge_iff_le,
    UInt32.le_iff_toNat_le, UInt32.le_iff_toNat_le]
  rfl

theorem HexDigit.lt (h : HexDigit c n) : n < 16 := by
  rcases h with h | h <;> exact (List.getElem?_eq_some_iff.1 h).1

/-- A character is read as a hexadecimal digit with the value that it has. -/
theorem hexDigit?_eq_some_iff : hexDigit? c = some n ↔ HexDigit c n := by
  constructor
  · -- three ranges of characters, gone through one by one
    intro h
    have hc := Char.ofNat_toNat c
    unfold hexDigit? at h
    split at h
    · next hdigit =>
      rw [isDigit_iff_toNat] at hdigit
      cases h
      generalize c.toNat = k at *
      obtain ⟨hlo, hhi⟩ := hdigit
      subst hc
      interval_cases k <;> exact Or.inl rfl
    · split at h
      · next hlower =>
        rw [le_iff_toNat, le_iff_toNat] at hlower
        cases h
        generalize c.toNat = k at *
        obtain ⟨hlo, hhi⟩ := hlower
        change 97 ≤ k at hlo
        change k ≤ 102 at hhi
        subst hc
        interval_cases k <;> exact Or.inl rfl
      · split at h
        · next hupper =>
          rw [le_iff_toNat, le_iff_toNat] at hupper
          cases h
          generalize c.toNat = k at *
          obtain ⟨hlo, hhi⟩ := hupper
          change 65 ≤ k at hlo
          change k ≤ 70 at hhi
          subst hc
          interval_cases k <;> exact Or.inr rfl
        · cases h
  · intro h
    have hlt := h.lt
    rcases h with h | h <;> interval_cases n <;> cases h <;> rfl

/-- Four digits are read off the front with the number that they write. -/
theorem hexQuad?_eq_some_iff :
    hexQuad? l = some (n, rest) ↔ ∃ quad, HexQuad quad n ∧ l = quad ++ rest := by
  constructor
  · intro h
    unfold hexQuad? at h
    split at h
    · simp only [Option.bind_eq_bind, Option.bind_eq_some_iff] at h
      obtain ⟨i, hi, j, hj, k, hk, m, hm, heq⟩ := h
      rw [hexDigit?_eq_some_iff] at hi hj hk hm
      cases heq
      have hquad := HexQuad.mk hi hj hk hm
      have hvalue : i * 16 ^ 3 + j * 16 ^ 2 + k * 16 + m = ((i * 16 + j) * 16 + k) * 16 + m := by ring
      rw [hvalue] at hquad
      exact ⟨_, hquad, rfl⟩
    · cases h
  · rintro ⟨quad, ⟨hi, hj, hk, hm⟩, rfl⟩
    rw [← hexDigit?_eq_some_iff] at hi hj hk hm
    simp only [List.cons_append, List.nil_append, hexQuad?, hi, hj, hk, hm, Option.bind_eq_bind,
      Option.bind_some, Option.some.injEq, Prod.mk.injEq, and_true]
    ring

theorem HexQuad.lt (h : HexQuad quad n) : n < 0x10000 := by
  obtain ⟨hi, hj, hk, hm⟩ := h
  have := hi.lt
  have := hj.lt
  have := hk.lt
  have := hm.lt
  omega

/-- A number below the surrogates or above them, and no greater than the last character, is that of a
character. -/
theorem toNat_ofNat (h : n < 0xD800 ∨ 0xDFFF < n ∧ n < 0x110000) : (Char.ofNat n).toNat = n := by
  have hvalid : n.isValidChar := h
  rw [Char.ofNat, dif_pos hvalid]
  rfl

/-- No character has the number of a surrogate. -/
theorem toNat_cases (c : Char) : c.toNat < 0xD800 ∨ 0xDFFF < c.toNat ∧ c.toNat < 0x110000 := c.valid

/-- The letter before the number of a code unit is the letter of no other escape. -/
theorem not_mem_letterEscapes : ('u', c) ∉ letterEscapes := by simp [letterEscapes]

/-- Behind the letter of the escape, the numbers of the code units of a character are read. -/
theorem codeUnit?_eq_some_iff :
    codeUnit? l = some (c, rest) ↔ ∃ text, CharSpelling ('\\' :: 'u' :: text) c ∧ l = text ++ rest := by
  constructor
  · intro h
    unfold codeUnit? at h
    split at h
    · cases h
    · next high after hhigh =>
      obtain ⟨quad, hquad, rfl⟩ := hexQuad?_eq_some_iff.1 hhigh
      have hlt := hquad.lt
      split at h
      · next hleading =>
        split at h
        · next after' =>
          split at h
          · next low rest' hlow =>
            obtain ⟨quad', hquad', rfl⟩ := hexQuad?_eq_some_iff.1 hlow
            split at h
            · next htrailing =>
              simp only [Option.some.injEq, Prod.mk.injEq] at h
              obtain ⟨rfl, rfl⟩ := h
              rw [← Nat.add_sub_of_le hleading.1] at hquad
              rw [← Nat.add_sub_of_le htrailing.1] at hquad'
              refine ⟨_, .pair (by omega) (by omega) hquad hquad' ?_, by simp⟩
              exact toNat_ofNat (by omega)
            · cases h
          · cases h
        · cases h
      · next hleading =>
        split at h
        · cases h
        · next htrailing =>
          cases h
          refine ⟨quad, .unit ?_, rfl⟩
          rwa [toNat_ofNat (by omega)]
  · rintro ⟨text, hspelling, rfl⟩
    cases hspelling with
    | letter hletter => exact absurd hletter not_mem_letterEscapes
    | unit hquad =>
      have hc := toNat_cases c
      rw [codeUnit?, hexQuad?_eq_some_iff.2 ⟨_, hquad, rfl⟩]
      simp only
      rw [if_neg (by omega), if_neg (by omega), Char.ofNat_toNat]
    | @pair quad quad' high low _ hhigh hlow hquad hquad' hc =>
      have hfirst := hexQuad?_eq_some_iff.2 ⟨_, hquad, List.append_assoc quad ('\\' :: 'u' :: quad') rest⟩
      have hsecond := hexQuad?_eq_some_iff.2 ⟨_, hquad', Eq.refl (quad' ++ rest)⟩
      rw [codeUnit?, hfirst]
      simp only [List.cons_append]
      rw [if_pos (by omega), hsecond]
      simp only
      rw [if_pos (by omega), Nat.add_sub_cancel_left, Nat.add_sub_cancel_left, ← hc, Char.ofNat_toNat]

/-- A letter is read as the character that it is an escape of. -/
theorem letterEscape?_eq_some_iff : letterEscape? e = some c ↔ (e, c) ∈ letterEscapes := by
  constructor
  · intro h
    unfold letterEscape? at h
    split at h <;> cases h <;> decide
  · intro h
    simp only [letterEscapes, List.mem_cons, Prod.mk.injEq, List.not_mem_nil, or_false] at h
    rcases h with ⟨rfl, rfl⟩ | ⟨rfl, rfl⟩ | ⟨rfl, rfl⟩ | ⟨rfl, rfl⟩ | ⟨rfl, rfl⟩ | ⟨rfl, rfl⟩ |
      ⟨rfl, rfl⟩ | ⟨rfl, rfl⟩ <;> rfl

theorem escape?_eq_some_iff :
    escape? l = some (c, rest) ↔ ∃ text, CharSpelling ('\\' :: text) c ∧ l = text ++ rest := by
  constructor
  · intro h
    unfold escape? at h
    split at h
    · cases h
    · split at h
      · next hu =>
        obtain ⟨text, htext, rfl⟩ := codeUnit?_eq_some_iff.1 h
        exact ⟨_, htext, by rw [hu, List.cons_append]⟩
      · obtain ⟨_, hletter, heq⟩ := Option.map_eq_some_iff.1 h
        cases heq
        exact ⟨_, .letter (letterEscape?_eq_some_iff.1 hletter), rfl⟩
  · rintro ⟨text, hspelling, rfl⟩
    have hunit : ∀ t, CharSpelling ('\\' :: 'u' :: t) c → escape? ('u' :: t ++ rest) = some (c, rest) := by
      intro t ht
      exact codeUnit?_eq_some_iff.2 ⟨t, ht, rfl⟩
    cases hspelling with
    | plain _ hslash => exact absurd rfl hslash
    | @letter e _ hletter =>
      have hu : e ≠ 'u' := by
        rintro rfl
        exact not_mem_letterEscapes hletter
      rw [List.singleton_append, escape?, if_neg hu, letterEscape?_eq_some_iff.2 hletter]
      rfl
    | unit hquad => exact hunit _ (.unit hquad)
    | pair hhigh hlow hquad hquad' hc => exact hunit _ (.pair hhigh hlow hquad hquad' hc)

/-- A character is read exactly from its spellings. -/
theorem character?_eq_some_iff :
    character? l = some (c, rest) ↔ ∃ piece, CharSpelling piece c ∧ l = piece ++ rest := by
  constructor
  · intro h
    unfold character? at h
    split at h
    · cases h
    · split at h
      · next hslash =>
        obtain ⟨text, htext, rfl⟩ := escape?_eq_some_iff.1 h
        exact ⟨_, htext, by rw [hslash, List.cons_append]⟩
      · next hslash =>
        split at h
        · cases h
        · next hplain =>
          cases h
          rw [not_or] at hplain
          exact ⟨[c], .plain hplain.1 hslash (not_lt.1 hplain.2), rfl⟩
  · rintro ⟨piece, hspelling, rfl⟩
    have hescape : ∀ t, CharSpelling ('\\' :: t) c → character? ('\\' :: t ++ rest) = some (c, rest) := by
      intro t ht
      exact escape?_eq_some_iff.2 ⟨t, ht, rfl⟩
    cases hspelling with
    | plain hquote hslash hspace =>
      rw [List.singleton_append, character?, if_neg hslash, if_neg]
      rw [not_or]
      exact ⟨hquote, not_lt.2 hspace⟩
    | letter hletter => exact hescape _ (.letter hletter)
    | unit hquad => exact hescape _ (.unit hquad)
    | pair hhigh hlow hquad hquad' hc => exact hescape _ (.pair hhigh hlow hquad hquad' hc)

/-! ## Reading a string -/

/-- The spelling of a character does not begin with the quote that ends a string. -/
theorem CharSpelling.head (h : CharSpelling text c) : ∃ d t, text = d :: t ∧ d ≠ '"' := by
  cases h with
  | plain hquote => exact ⟨c, [], rfl, hquote⟩
  | letter => exact ⟨_, _, rfl, by decide⟩
  | unit => exact ⟨_, _, rfl, by decide⟩
  | pair => exact ⟨_, _, rfl, by decide⟩

/-- The rest of a string is read up to the first quote that is not in the spelling of a character. -/
theorem characters?_eq_some_iff :
    characters? l = some (name, rest) ↔ ∃ text, Spelling text name ∧ l = text ++ '"' :: rest := by
  constructor
  · intro h
    fun_induction characters? l generalizing name with
    | case1 rest' =>
      cases h
      exact ⟨[], .nil, rfl⟩
    | case2 l hquote hnone => cases h
    | case3 l hquote d after hd _ ih =>
      obtain ⟨⟨cs, rest'⟩, hrest, heq⟩ := Option.map_eq_some_iff.1 h
      cases heq
      obtain ⟨piece, hpiece, rfl⟩ := character?_eq_some_iff.1 hd
      obtain ⟨text, htext, rfl⟩ := ih hrest
      exact ⟨piece ++ text, .cons hpiece htext, by rw [List.append_assoc]⟩
  · rintro ⟨text, hspelling, rfl⟩
    induction hspelling with
    | nil => rw [List.nil_append, characters?]
    | @cons piece text cs c hpiece _ ih =>
      obtain ⟨d, t, rfl, hd⟩ := hpiece.head
      have hread : character? (d :: t ++ (text ++ '"' :: rest)) = some (c, text ++ '"' :: rest) :=
        character?_eq_some_iff.2 ⟨_, hpiece, rfl⟩
      rw [List.append_assoc, characters?.eq_def]
      split
      · next heq => exact absurd (List.cons.inj heq).1 hd
      · split
        · next hnone => rw [hread] at hnone; cases hnone
        · next hsome => rw [hread] at hsome; cases hsome; rw [ih]; rfl

/-- A string is read exactly from its spellings between quotes. -/
theorem string?_eq_some_iff :
    string? l = some (name, rest) ↔ ∃ text, Spelling text name ∧ l = '"' :: text ++ '"' :: rest := by
  constructor
  · intro h
    unfold string? at h
    split at h
    · obtain ⟨text, htext, rfl⟩ := characters?_eq_some_iff.1 h
      exact ⟨text, htext, rfl⟩
    · cases h
  · rintro ⟨text, htext, rfl⟩
    exact characters?_eq_some_iff.2 ⟨text, htext, rfl⟩

/-- No text spells two strings. -/
theorem Spelling.unique {name' : List Char} (h : Spelling text name) (h' : Spelling text name') :
    name = name' := by
  have hread : string? ('"' :: text ++ '"' :: []) = some (name, []) :=
    string?_eq_some_iff.2 ⟨text, h, rfl⟩
  have hread' : string? ('"' :: text ++ '"' :: []) = some (name', []) :=
    string?_eq_some_iff.2 ⟨text, h', rfl⟩
  rw [hread] at hread'
  cases hread'
  rfl

/-- A text without quotes, backslashes and control characters spells itself. -/
theorem spelling_self (h : ∀ c ∈ text, c ≠ '"' ∧ c ≠ '\\' ∧ ' ' ≤ c) : Spelling text text := by
  induction text with
  | nil => exact .nil
  | cons c text ih =>
    obtain ⟨⟨hquote, hslash, hspace⟩, htext⟩ := List.forall_mem_cons.1 h
    exact .cons (.plain hquote hslash hspace) (ih htext)

/-! ## The form of a string -/

/-- The form of one character of a string, which may be half of a pair of code units. -/
inductive CharForm : List Char → Prop where
  | plain {c : Char} : c ≠ '"' → c ≠ '\\' → ' ' ≤ c → CharForm [c]
  | letter {e c : Char} : (e, c) ∈ letterEscapes → CharForm ['\\', e]
  | unit {quad : List Char} {n : Nat} : HexQuad quad n → CharForm ('\\' :: 'u' :: quad)

/-- The form of a string between its quotes. -/
inductive StringForm : List Char → Prop where
  | nil : StringForm []
  | cons {piece text : List Char} : CharForm piece → StringForm text → StringForm (piece ++ text)

/-- What spells a string has the form of one. -/
theorem Spelling.form (h : Spelling text name) : StringForm text := by
  induction h with
  | nil => exact .nil
  | @cons piece text cs c hpiece _ ih =>
    cases hpiece with
    | plain hquote hslash hspace => exact .cons (.plain hquote hslash hspace) ih
    | letter hletter => exact .cons (.letter hletter) ih
    | unit hquad => exact .cons (.unit hquad) ih
    | @pair quad quad' _ _ _ _ _ hquad hquad' _ =>
      have hsplit : '\\' :: 'u' :: (quad ++ '\\' :: 'u' :: quad') ++ text =
          '\\' :: 'u' :: quad ++ ('\\' :: 'u' :: quad' ++ text) := by simp
      rw [hsplit]
      exact .cons (.unit hquad) (.cons (.unit hquad') ih)

theorem HexQuad.length (h : HexQuad quad n) : quad.length = 4 := by
  obtain ⟨-, -, -, -⟩ := h
  rfl

/-- The form of a character ends where it ends in whatever text it stands. -/
theorem CharForm.unique {piece piece' : List Char} (h : CharForm piece) (h' : CharForm piece')
    (heq : piece ++ rest = piece' ++ rest') : piece = piece' ∧ rest = rest' := by
  -- the first character tells escapes from others, and the second the two kinds of escapes
  cases h with
  | plain _ hslash _ =>
    cases h' with
    | plain => simpa using heq
    | letter => exact absurd (List.cons.inj heq).1 hslash
    | unit => exact absurd (List.cons.inj heq).1 hslash
  | letter hletter =>
    cases h' with
    | plain _ hslash _ => exact absurd (List.cons.inj heq).1.symm hslash
    | letter => simpa using heq
    | unit =>
      rw [(List.cons.inj (List.cons.inj heq).2).1] at hletter
      exact absurd hletter not_mem_letterEscapes
  | unit hquad =>
    cases h' with
    | plain _ hslash _ => exact absurd (List.cons.inj heq).1.symm hslash
    | letter hletter =>
      rw [← (List.cons.inj (List.cons.inj heq).2).1] at hletter
      exact absurd hletter not_mem_letterEscapes
    | unit hquad' =>
      simp only [List.cons_append, List.cons.injEq, true_and] at heq
      obtain ⟨rfl, rfl⟩ := List.append_inj heq (hquad.length.trans hquad'.length.symm)
      exact ⟨rfl, rfl⟩

theorem CharForm.head (h : CharForm text) : ∃ d t, text = d :: t ∧ d ≠ '"' := by
  cases h with
  | plain hquote => exact ⟨_, _, rfl, hquote⟩
  | letter => exact ⟨_, _, rfl, by decide⟩
  | unit => exact ⟨_, _, rfl, by decide⟩

/-- The form of a string ends at one quote only. -/
theorem StringForm.unique (h : StringForm text) (h' : StringForm text')
    (heq : text ++ '"' :: rest = text' ++ '"' :: rest') : text = text' ∧ rest = rest' := by
  induction h generalizing text' with
  | nil =>
    cases h' with
    | nil => simpa using heq
    | cons hpiece _ =>
      obtain ⟨d, t, rfl, hd⟩ := hpiece.head
      exact absurd (List.cons.inj heq).1.symm hd
  | cons hpiece _ ih =>
    cases h' with
    | nil =>
      obtain ⟨d, t, rfl, hd⟩ := hpiece.head
      exact absurd (List.cons.inj heq).1 hd
    | cons hpiece' hrest' =>
      rw [List.append_assoc, List.append_assoc] at heq
      obtain ⟨rfl, hrest⟩ := hpiece.unique hpiece' heq
      obtain ⟨rfl, rfl⟩ := ih hrest' hrest
      exact ⟨rfl, rfl⟩

/-- What has the form of a string is read to its end, if it is read at all, and then it is a spelling
of what is read. -/
theorem of_string?_eq_some (h : StringForm text)
    (hread : string? ('"' :: text ++ '"' :: rest) = some (name, l)) : Spelling text name ∧ l = rest := by
  obtain ⟨text', htext', heq⟩ := string?_eq_some_iff.1 hread
  obtain ⟨rfl, rfl⟩ := h.unique htext'.form (List.cons.inj heq).2
  exact ⟨htext', rfl⟩

end Json

end SyntaxRecovery
