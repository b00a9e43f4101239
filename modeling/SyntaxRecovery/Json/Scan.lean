/-!
# Scanning JSON

Readers for the pieces of a JSON text over its characters: blank space, fixed words, whole numbers and
strings. A reader gives the value of the piece at the front and what follows it, or nothing if there
is no such piece. Strings are read strictly: no control characters, and every escaped surrogate is
one of a pair.
-/

set_option autoImplicit false

namespace SyntaxRecovery

namespace Json

/-- The four characters that may stand between the pieces of a text. -/
def isBlank (c : Char) : Bool := c = ' ' || c = '\t' || c = '\n' || c = '\r'

/-- What follows the blank space at the front. -/
def skipBlank (l : List Char) : List Char := l.dropWhile isBlank

/-- What follows a fixed word at the front. -/
def word? (w l : List Char) : Option (List Char) :=
  if w.isPrefixOf l then some (l.drop w.length) else none

/-- A whole number without a sign, in decimal and without a leading zero. -/
def natural? (l : List Char) : Option (Nat × List Char) :=
  match l.takeWhile Char.isDigit with
  | [] => none
  | d :: ds =>
    if d = '0' ∧ ds ≠ [] then none
    else some (Nat.ofDigitChars 10 (d :: ds) 0, l.dropWhile Char.isDigit)

/-! ## Strings -/

/-- Value of a hexadecimal digit. -/
def hexDigit? (c : Char) : Option Nat :=
  if c.isDigit then some (c.toNat - '0'.toNat)
  else if 'a' ≤ c ∧ c ≤ 'f' then some (c.toNat - 'a'.toNat + 10)
  else if 'A' ≤ c ∧ c ≤ 'F' then some (c.toNat - 'A'.toNat + 10)
  else none

/-- A number of four hexadecimal digits. -/
def hexQuad? : List Char → Option (Nat × List Char)
  | a :: b :: c :: d :: rest => do
    let a ← hexDigit? a
    let b ← hexDigit? b
    let c ← hexDigit? c
    let d ← hexDigit? d
    some (((a * 16 + b) * 16 + c) * 16 + d, rest)
  | _ => none

/-- The character behind `\u`. A leading surrogate has to be followed by the escape of a trailing
one, and a trailing one stands only there. -/
def codeUnit? (l : List Char) : Option (Char × List Char) :=
  match hexQuad? l with
  | none => none
  | some (high, rest) =>
    if 0xD800 ≤ high ∧ high < 0xDC00 then
      match rest with
      | '\\' :: 'u' :: rest =>
        match hexQuad? rest with
        | some (low, rest) =>
          if 0xDC00 ≤ low ∧ low < 0xE000 then
            -- ten bits from each half, counted from the first character that needs two
            some (Char.ofNat (0x10000 + (high - 0xD800) * 0x400 + (low - 0xDC00)), rest)
          else none
        | none => none
      | _ => none
    else if 0xDC00 ≤ high ∧ high < 0xE000 then none
    else some (Char.ofNat high, rest)

/-- What a single letter behind a backslash stands for. -/
def letterEscape? : Char → Option Char
  | '"' => some '"'
  | '\\' => some '\\'
  | '/' => some '/'
  | 'b' => some '\x08'
  | 'f' => some '\x0c'
  | 'n' => some '\n'
  | 'r' => some '\r'
  | 't' => some '\t'
  | _ => none

/-- The character behind a backslash. -/
def escape? : List Char → Option (Char × List Char)
  | [] => none
  | c :: rest =>
    if c = 'u' then codeUnit? rest else (letterEscape? c).map fun c => (c, rest)

/-- A character within a string, other than the quote that ends it. -/
def character? : List Char → Option (Char × List Char)
  | [] => none
  | c :: rest =>
    if c = '\\' then escape? rest
    else if c = '"' ∨ c < ' ' then none
    else some (c, rest)

theorem hexQuad?_length {l rest : List Char} {n : Nat} (h : hexQuad? l = some (n, rest)) :
    l.length = rest.length + 4 := by
  unfold hexQuad? at h
  split at h
  · simp only [Option.bind_eq_bind, Option.bind_eq_some_iff] at h
    obtain ⟨_, _, _, _, _, _, _, _, heq⟩ := h
    cases heq
    rfl
  · cases h

theorem codeUnit?_length_lt {l rest : List Char} {c : Char} (h : codeUnit? l = some (c, rest)) :
    rest.length < l.length := by
  unfold codeUnit? at h
  split at h
  · cases h
  · next high after hquad =>
    have hlen := hexQuad?_length hquad
    split at h
    · split at h
      · next after' =>
        split at h
        · next low rest' hquad' =>
          have hlen' := hexQuad?_length hquad'
          split at h
          · simp only [Option.some.injEq, Prod.mk.injEq] at h
            obtain ⟨-, rfl⟩ := h
            simp only [List.length_cons] at hlen
            omega
          · cases h
        · cases h
      · cases h
    · split at h
      · cases h
      · simp only [Option.some.injEq, Prod.mk.injEq] at h
        obtain ⟨-, rfl⟩ := h
        omega

theorem escape?_length_lt {l rest : List Char} {c : Char} (h : escape? l = some (c, rest)) :
    rest.length < l.length := by
  unfold escape? at h
  split at h
  · cases h
  · split at h
    · have := codeUnit?_length_lt h
      simp only [List.length_cons]
      omega
    · obtain ⟨_, -, heq⟩ := Option.map_eq_some_iff.1 h
      cases heq
      simp

/-- A character takes something off the front. -/
theorem character?_length_lt {l rest : List Char} {c : Char} (h : character? l = some (c, rest)) :
    rest.length < l.length := by
  unfold character? at h
  split at h
  · cases h
  · split at h
    · have := escape?_length_lt h
      simp only [List.length_cons]
      omega
    · split at h
      · cases h
      · cases h
        simp

/-- The rest of a string behind its opening quote. -/
def characters? (l : List Char) : Option (List Char × List Char) :=
  match l with
  | '"' :: rest => some ([], rest)
  | l =>
    match h : character? l with
    | none => none
    | some (c, rest) =>
      have := character?_length_lt h
      (characters? rest).map fun (cs, rest) => (c :: cs, rest)
termination_by l.length

/-- A string. -/
def string? : List Char → Option (List Char × List Char)
  | '"' :: rest => characters? rest
  | _ => none

end Json

end SyntaxRecovery
