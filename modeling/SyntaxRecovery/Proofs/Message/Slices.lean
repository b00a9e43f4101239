import Mathlib
import SyntaxRecovery.Proofs.Message.Scan

/-!
# Templates cut at bytes

A template can also be filled by cutting it at numbers of bytes of its UTF-8 encoding, where a cut inside a
character fails, and so does a cut past the end (`Template.cut?`). Each turn cuts at the first brace and
behind it, behind the digit bytes that follow, and behind the closing brace (`Template.turn?`). None of
these cuts fails, and what comes out is what filling character by character gives
(`Template.fillSliced?_eq`).
-/

set_option autoImplicit false

namespace SyntaxRecovery

namespace Template

variable {args : List (List Char)} {c : Char} {n brace : Nat}
variable {l front back after behind words digits arg out : List Char}

/-! ## Cutting -/

/-- Number of bytes of the characters. -/
def byteSize (l : List Char) : Nat := (l.map Char.utf8Size).sum

/-- The characters before a byte, and those from it on. -/
def cut? : Nat → List Char → Option (List Char × List Char)
  | 0, l => some ([], l)
  | _ + 1, [] => none
  | n + 1, c :: l =>
    if c.utf8Size ≤ n + 1 then
      (cut? (n + 1 - c.utf8Size) l).map fun (front, back) => (c :: front, back)
    else none

theorem byteSize_cons : byteSize (c :: l) = c.utf8Size + byteSize l := by
  rw [byteSize, List.map_cons, List.sum_cons, ← byteSize]

theorem byteSize_append : byteSize (front ++ back) = byteSize front + byteSize back := by
  rw [byteSize, List.map_append, List.sum_append, ← byteSize, ← byteSize]

/-- Between two characters a text can be cut. -/
theorem cut?_append : cut? (byteSize front) (front ++ back) = some (front, back) := by
  induction front with
  | nil => exact cut?.eq_1 back
  | cons c front ih =>
    obtain ⟨n, hn⟩ := Nat.exists_eq_succ_of_ne_zero
      (Nat.ne_of_gt (Nat.add_pos_left c.utf8Size_pos (byteSize front)))
    have hrest : n + 1 - c.utf8Size = byteSize front := by omega
    rw [byteSize_cons, hn, List.cons_append, cut?, if_pos (by omega), hrest, ih, Option.map_some]

/-- A text can be cut behind a character of one byte. -/
theorem cut?_append_cons (hc : c.utf8Size = 1) :
    cut? (byteSize front + 1) (front ++ c :: back) = some (front ++ [c], back) := by
  have hsize : byteSize front + 1 = byteSize (front ++ [c]) := by
    rw [byteSize_append, byteSize_cons, hc]
    rfl
  rw [hsize, List.append_cons front c back]
  exact cut?_append

/-- A cut takes nothing away. -/
theorem append_of_cut? (h : cut? n l = some (front, back)) : l = front ++ back := by
  induction l generalizing n front with
  | nil =>
    cases n with
    | zero => cases h; rfl
    | succ n => cases h
  | cons c l ih =>
    cases n with
    | zero => cases h; rfl
    | succ n =>
      rw [cut?] at h
      split at h
      · obtain ⟨⟨tail, after⟩, htail, heq⟩ := Option.map_eq_some_iff.1 h
        cases heq
        rw [ih htail, List.cons_append]
      · cases h

/-- Behind a cut past the first byte there are fewer characters. -/
theorem length_lt_of_cut? (h : cut? (n + 1) l = some (front, back)) : back.length < l.length := by
  -- with nothing before the cut it would be at the first byte
  cases front with
  | nil =>
    cases l with
    | nil => cases h
    | cons c l =>
      rw [cut?] at h
      split at h
      · obtain ⟨found, -, heq⟩ := Option.map_eq_some_iff.1 h
        cases heq
      · cases h
  | cons c front =>
    rw [append_of_cut? h, List.length_append, List.length_cons]
    omega

theorem length_le_of_cut? (h : cut? n l = some (front, back)) : back.length ≤ l.length := by
  rw [append_of_cut? h, List.length_append]
  exact Nat.le_add_left _ _

/-! ## Digit bytes -/

/-- The bytes of the decimal digits. -/
def isDigitByte (b : UInt8) : Bool := 48 ≤ b && b ≤ 57

/-- Number of digit bytes with which the encoded characters begin. -/
def digitBytes (l : List Char) : Nat :=
  ((l.flatMap String.utf8EncodeChar).takeWhile isDigitByte).length

theorem isDigitByte_iff {b : UInt8} : isDigitByte b = true ↔ 48 ≤ b.toNat ∧ b.toNat ≤ 57 := by
  rw [isDigitByte, Bool.and_eq_true, decide_eq_true_iff, decide_eq_true_iff, UInt8.le_iff_toNat_le,
    UInt8.le_iff_toNat_le]
  rfl

theorem isDigit_iff : c.isDigit = true ↔ 48 ≤ c.val.toNat ∧ c.val.toNat ≤ 57 := by
  rw [Char.isDigit, Bool.and_eq_true, decide_eq_true_iff, decide_eq_true_iff, ge_iff_le,
    UInt32.le_iff_toNat_le, UInt32.le_iff_toNat_le]
  rfl

/-- A character is encoded by its number alone, or else begins with a byte that has the two upper bits
set. -/
theorem utf8EncodeChar_cases (c : Char) :
    ∃ b bytes, String.utf8EncodeChar c = b :: bytes ∧
      ((b.toNat = c.val.toNat ∧ bytes = []) ∨ (192 ≤ b.toNat ∧ 127 < c.val.toNat)) := by
  have hhead : ∀ v : Nat, 192 ≤ v % 256 → 192 ≤ (UInt8.ofNat v).toNat := by
    intro v hv
    rwa [UInt8.toNat_ofNat']
  unfold String.utf8EncodeChar
  dsimp only
  split
  · next hone =>
    refine ⟨_, _, rfl, Or.inl ⟨?_, rfl⟩⟩
    rw [UInt8.toNat_ofNat']
    omega
  · next hmore =>
    -- two, three or four bytes
    split
    · exact ⟨_, _, rfl, Or.inr ⟨hhead _ (by omega), by omega⟩⟩
    · split
      · exact ⟨_, _, rfl, Or.inr ⟨hhead _ (by omega), by omega⟩⟩
      · exact ⟨_, _, rfl, Or.inr ⟨hhead _ (by omega), by omega⟩⟩

/-- A digit is one byte, a digit byte. -/
theorem utf8EncodeChar_digit (h : c.isDigit = true) :
    ∃ b, String.utf8EncodeChar c = [b] ∧ isDigitByte b = true := by
  obtain ⟨b, bytes, hbytes, ⟨hb, rfl⟩ | ⟨-, hc⟩⟩ := utf8EncodeChar_cases c
  · exact ⟨b, hbytes, isDigitByte_iff.2 (hb ▸ isDigit_iff.1 h)⟩
  · have := isDigit_iff.1 h
    omega

/-- The first byte of a character that is no digit is no digit byte. -/
theorem utf8EncodeChar_of_not_digit (h : ¬ c.isDigit = true) :
    ∃ b bytes, String.utf8EncodeChar c = b :: bytes ∧ ¬ isDigitByte b = true := by
  obtain ⟨b, bytes, hbytes, ⟨hb, -⟩ | ⟨hb, -⟩⟩ := utf8EncodeChar_cases c
  · exact ⟨b, bytes, hbytes, fun hdigit => h (isDigit_iff.2 (hb ▸ isDigitByte_iff.1 hdigit))⟩
  · refine ⟨b, bytes, hbytes, fun hdigit => ?_⟩
    have := isDigitByte_iff.1 hdigit
    omega

theorem byteSize_digits (h : ∀ d ∈ digits, d.isDigit = true) : byteSize digits = digits.length := by
  induction digits with
  | nil => rfl
  | cons d digits ih =>
    obtain ⟨hd, hdigits⟩ := List.forall_mem_cons.1 h
    obtain ⟨b, hb, -⟩ := utf8EncodeChar_digit hd
    have hsize : d.utf8Size = 1 := by rw [← String.length_utf8EncodeChar, hb, List.length_singleton]
    rw [byteSize_cons, hsize, ih hdigits, List.length_cons, Nat.add_comm]

/-- The digit bytes at the beginning are those of the digits at the beginning. -/
theorem digitBytes_eq : digitBytes l = byteSize (l.takeWhile Char.isDigit) := by
  rw [byteSize_digits fun _ => List.mem_takeWhile_imp]
  induction l with
  | nil => rfl
  | cons c l ih =>
    rw [digitBytes] at ih ⊢
    rw [List.flatMap_cons]
    by_cases hc : c.isDigit = true
    · obtain ⟨b, hbytes, hb⟩ := utf8EncodeChar_digit hc
      rw [hbytes, List.singleton_append, List.takeWhile_cons_of_pos hb, List.takeWhile_cons_of_pos hc,
        List.length_cons, List.length_cons, ih]
    · obtain ⟨b, bytes, hbytes, hb⟩ := utf8EncodeChar_of_not_digit hc
      rw [hbytes, List.cons_append, List.takeWhile_cons_of_neg hb, List.takeWhile_cons_of_neg hc]
      rfl

/-! ## Filling in turns -/

/-- The byte of the first opening brace. -/
def braceAt? : List Char → Option Nat
  | [] => none
  | c :: l => if c = '{' then some 0 else (braceAt? l).map (c.utf8Size + ·)

/-- The number that the digits write, if it fits into a word. -/
def readWord? (digits : List Char) : Option Nat :=
  if Nat.ofDigitChars 10 digits 0 < Word.limit then some (Nat.ofDigitChars 10 digits 0) else none

/-- The argument, if there is one, whose placeholder stands behind an opening brace. Where digit bytes
follow the brace, the text is cut behind them. -/
def argument? (args : List (List Char)) (after : List Char) : Option (Option (List Char)) :=
  if 0 < digitBytes after then
    (cut? (digitBytes after) after).map fun (digits, behind) =>
      if behind.head? = some '}' then (readWord? digits).bind fun n => args[n]? else none
  else some none

/-- What is put out up to the first opening brace and for it, and what is left. -/
def turn? (args : List (List Char)) (l : List Char) (brace : Nat) :
    Option (List Char × List Char) := do
  let (front, _) ← cut? brace l
  let (_, after) ← cut? (brace + 1) l
  match ← argument? args after with
  | some arg =>
    let (_, behind) ← cut? (digitBytes after + 1) after
    some (front ++ arg, behind)
  | none => some (front ++ ['{'], after)

theorem length_lt_of_turn? (h : turn? args l brace = some (out, after)) :
    after.length < l.length := by
  unfold turn? at h
  obtain ⟨⟨front, from_⟩, -, h⟩ := Option.bind_eq_some_iff.1 h
  obtain ⟨⟨upto, rest⟩, hrest, h⟩ := Option.bind_eq_some_iff.1 h
  obtain ⟨arg?, -, h⟩ := Option.bind_eq_some_iff.1 h
  have hlt := length_lt_of_cut? hrest
  cases arg? with
  | none => cases h; exact hlt
  | some arg =>
    obtain ⟨⟨slot, behind⟩, hbehind, h⟩ := Option.bind_eq_some_iff.1 h
    cases h
    exact (length_le_of_cut? hbehind).trans_lt hlt

/-- A template filled turn by turn, as long as there is an opening brace. -/
def fillSliced? (args : List (List Char)) (l : List Char) : Option (List Char) :=
  match braceAt? l with
  | none => some l
  | some brace =>
    match h : turn? args l brace with
    | none => none
    | some (out, after) =>
      have := length_lt_of_turn? h
      (fillSliced? args after).map (out ++ ·)
termination_by l.length

/-- The words before the first opening brace. -/
theorem words_of_braceAt? (h : braceAt? l = some brace) :
    ∃ words after, l = words ++ '{' :: after ∧ '{' ∉ words ∧ brace = byteSize words := by
  induction l generalizing brace with
  | nil => cases h
  | cons c l ih =>
    rw [braceAt?] at h
    split at h
    · next hc =>
      cases h
      exact ⟨[], l, congrArg (· :: l) hc, List.not_mem_nil, rfl⟩
    · next hc =>
      obtain ⟨n, hn, rfl⟩ := Option.map_eq_some_iff.1 h
      obtain ⟨words, after, rfl, hwords, rfl⟩ := ih hn
      refine ⟨c :: words, after, rfl, ?_, byteSize_cons.symm⟩
      rw [List.mem_cons, not_or]
      exact ⟨Ne.symm hc, hwords⟩

theorem not_mem_of_braceAt? (h : braceAt? l = none) : '{' ∉ l := by
  induction l with
  | nil => exact List.not_mem_nil
  | cons c l ih =>
    rw [braceAt?] at h
    split at h
    · cases h
    · next hc =>
      rw [List.mem_cons, not_or]
      exact ⟨Ne.symm hc, ih (Option.map_eq_none_iff.1 h)⟩

/-- A number that does not fit into a word is not that of an argument. -/
theorem bind_readWord? (hargs : args.length ≤ Word.limit) :
    ((readWord? digits).bind fun n => args[n]?) = args[Nat.ofDigitChars 10 digits 0]? := by
  rw [readWord?]
  split
  · rfl
  · next hlimit => exact (List.getElem?_eq_none (hargs.trans (Nat.le_of_not_lt hlimit))).symm

theorem cut?_digitBytes : cut? (digitBytes l) l =
    some (l.takeWhile Char.isDigit, l.dropWhile Char.isDigit) := by
  calc cut? (digitBytes l) l
      = cut? (byteSize (l.takeWhile Char.isDigit))
          (l.takeWhile Char.isDigit ++ l.dropWhile Char.isDigit) := by
        rw [digitBytes_eq, List.takeWhile_append_dropWhile]
    _ = _ := cut?_append

/-- The bytes name the argument that the characters name. -/
theorem argument?_eq (hargs : args.length ≤ Word.limit) :
    argument? args l = some ((placeholder? args l).map Prod.fst) := by
  unfold argument? placeholder?
  rw [cut?_digitBytes, digitBytes_eq, byteSize_digits fun _ => List.mem_takeWhile_imp, Option.map_some]
  -- no digits; then digits at the end, before a closing brace and before another character
  cases l.takeWhile Char.isDigit with
  | nil => rfl
  | cons d ds =>
    rw [List.length_cons, if_pos (Nat.succ_pos ds.length)]
    dsimp only
    rw [bind_readWord? hargs]
    cases l.dropWhile Char.isDigit with
    | nil => rfl
    | cons c rest =>
      by_cases hc : c = '}'
      · subst hc
        change some args[Nat.ofDigitChars 10 (d :: ds) 0]? =
          some ((args[Nat.ofDigitChars 10 (d :: ds) 0]?.map fun arg => (arg, rest)).map Prod.fst)
        rw [Option.map_map, Function.comp_def, Option.map_id']
      · rw [List.head?_cons, if_neg (mt Option.some.inj hc)]
        split
        · next heq => cases heq; exact absurd rfl hc
        · rfl

/-- The cut behind a placeholder. -/
theorem cut?_placeholder (h : placeholder? args l = some (arg, behind)) :
    ∃ slot, cut? (digitBytes l + 1) l = some (slot, behind) := by
  obtain ⟨digits, rfl, -, hdigits, -⟩ := digits_of_placeholder? h
  rw [digitBytes_eq, takeWhile_digits hdigits]
  exact ⟨_, cut?_append_cons rfl⟩

/-- A turn puts out the words before the first brace, and what the brace stands for. -/
theorem turn?_eq (hargs : args.length ≤ Word.limit) :
    turn? args (words ++ '{' :: l) (byteSize words) =
      some (match placeholder? args l with
        | some (arg, behind) => (words ++ arg, behind)
        | none => (words ++ ['{'], l)) := by
  refine Option.bind_eq_some_iff.2 ⟨_, cut?_append, Option.bind_eq_some_iff.2
    ⟨_, cut?_append_cons rfl, Option.bind_eq_some_iff.2 ⟨_, argument?_eq hargs, ?_⟩⟩⟩
  cases hp : placeholder? args l with
  | none => rfl
  | some found =>
    obtain ⟨slot, hslot⟩ := cut?_placeholder hp
    exact Option.bind_eq_some_iff.2 ⟨_, hslot, rfl⟩

/-- No cut fails, and the text is that of filling character by character. -/
theorem fillSliced?_eq (hargs : args.length ≤ Word.limit) :
    fillSliced? args l = some (fillChars args l) := by
  fun_induction fillSliced? args l with
  | case1 l hnone => rw [fillChars_only_words (not_mem_of_braceAt? hnone)]
  | case2 l brace hbrace hfail =>
    obtain ⟨words, after, rfl, -, rfl⟩ := words_of_braceAt? hbrace
    rw [turn?_eq hargs] at hfail
    cases hfail
  | case3 l brace hbrace out rest hturn _ ih =>
    obtain ⟨words, after, rfl, hwords, rfl⟩ := words_of_braceAt? hbrace
    rw [turn?_eq hargs] at hturn
    rw [ih, Option.map_some, fillChars_words hwords]
    cases hp : placeholder? args after with
    | none =>
      rw [hp] at hturn
      cases hturn
      rw [fillChars_char fun _ => hp, List.append_assoc, List.singleton_append]
    | some found =>
      rw [hp] at hturn
      cases hturn
      rw [fillChars_placeholder hp, List.append_assoc]

/-! ## Filling is one scan -/

/-- To fill a template is to go over it once. Its pieces are found from the number of arguments alone, and
are the same for all arguments, which stand in their places as they are; without arguments the template is
left. Cut at bytes, the template is never cut inside a character. So the texts made of the kinds are
their words around what they are about. -/
theorem fill_of_pieces (template : String) (args : List String) (hargs : args.length ≤ Word.limit) :
    (∃ pieces : List Piece,
      (∀ pieces', Scanned args.length template.toList pieces' ↔ pieces' = pieces) ∧
      ∀ others : List String, others.length = args.length →
        (fill template others).toList = pieces.flatMap (Piece.chars (others.map String.toList))) ∧
    fill template [] = template ∧
    fillSliced? (args.map String.toList) template.toList = some (fill template args).toList ∧
    ∀ (v : Vocabulary) (t : Option Token) (expected : TokenSet) (rule condition : String),
      noViableAlternativeText t = "no viable alternative at input " ++ Token.quoted t ∧
      mismatchText v t expected =
        "mismatched input " ++ Token.quoted t ++ " expecting " ++ expected.describe v ∧
      extraneousText v t expected =
        "extraneous input " ++ Token.quoted t ++ " expecting " ++ expected.describe v ∧
      missingText v t expected = "missing " ++ expected.describe v ++ " at " ++ Token.quoted t ∧
      failedPredicateText rule condition =
        "rule " ++ rule ++ " failed predicate: \x7b" ++ condition ++ "\x7d?" := by
  have hchars : (args.map String.toList).length ≤ Word.limit := by rwa [List.length_map]
  refine ⟨?_, fill_no_args template, ?_, fun v t expected rule condition => ?_⟩
  · obtain ⟨pieces, hpieces⟩ := exists_unique_scanned args.length template.toList
    refine ⟨pieces, hpieces, fun others hothers => ?_⟩
    have hlength : (others.map String.toList).length = args.length := by
      rw [List.length_map, hothers]
    have hscan : Scanned (others.map String.toList).length template.toList pieces :=
      hlength.symm ▸ (hpieces pieces).2 rfl
    rw [fill, String.toList_ofList]
    exact hscan.fillChars_eq (hlength ▸ hargs)
  · rw [fill, String.toList_ofList]
    exact fillSliced?_eq hchars
  · exact ⟨MessageKind.text_noViableAlternative _, MessageKind.text_mismatch _ _,
      MessageKind.text_extraneous _ _, MessageKind.text_missing _ _,
      MessageKind.text_failedPredicate rule condition⟩

/-- Braces around a placeholder and behind it, zeros before a number, a number that fits into no word, one
without an argument, and an argument that looks like a placeholder. -/
theorem fill_of_pieces_nested :
    ["\x7b1\x7d", "ü\x7b0\x7d"].length ≤ Word.limit ∧
      fillSliced? (["\x7b1\x7d", "ü\x7b0\x7d"].map String.toList)
        "é\x7b\x7b1\x7d\x7d\x7b000\x7d\x7b18446744073709551616\x7d\x7b2\x7d\x7bx".toList =
      some "é\x7bü\x7b0\x7d\x7d\x7b1\x7d\x7b18446744073709551616\x7d\x7b2\x7d\x7bx".toList := by
  have hargs : ["\x7b1\x7d", "ü\x7b0\x7d"].length ≤ Word.limit := by decide
  refine ⟨hargs, (fill_of_pieces _ _ hargs).2.2.1.trans ?_⟩
  cbv

end Template

end SyntaxRecovery
