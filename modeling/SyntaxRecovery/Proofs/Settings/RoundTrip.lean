import Mathlib
import SyntaxRecovery.Proofs.Settings.Members

/-!
# Settings read back from their text

The text of settings is an object that writes all their values (`Settings.writtenBy_members`), so that it
is read as an overlay that leaves nothing to the defaults. A limit is written without a zero in front
(`Json.integerForm_toDigits`) and read back as the number that it is. The main statement is
`Settings.read_print`: what is valid comes back from its text, and nothing else than what is valid comes
from any text.
-/

set_option autoImplicit false

namespace SyntaxRecovery

/-! ## Digits of a number -/

namespace Json

/-- The digits of a positive number do not begin with a zero. -/
theorem head?_toDigits_ne {n : Nat} (h : 0 < n) : (Nat.toDigits 10 n).head? ≠ some '0' := by
  induction n using Nat.strong_induction_on with
  | h n ih =>
    by_cases hn : n < 10
    · rw [Nat.toDigits_of_lt_base hn]
      interval_cases n <;> decide
    · -- the first digit is that of what is left without the last one
      rw [Nat.toDigits_of_base_le (by decide) (by omega),
        List.head?_append_of_ne_nil _ Nat.toDigits_ne_nil]
      exact ih (n / 10) (by omega) (by omega)

/-- The digits of a number write it as a whole number is to be written. -/
theorem integerForm_toDigits (n : Nat) : IntegerForm (Nat.toDigits 10 n) := by
  rcases Nat.eq_zero_or_pos n with rfl | hn
  · exact Or.inl (Nat.toDigits_zero 10)
  · have hdigits : ∀ d ∈ Nat.toDigits 10 n, d.isDigit = true := by
      intro d hd
      exact Nat.isDigit_of_mem_toDigits (by decide) (by decide) hd
    exact Or.inr ⟨⟨Nat.toDigits_ne_nil, hdigits⟩, head?_toDigits_ne hn⟩

end Json

open Json

/-- The name of an insertion rule spells itself. -/
theorem InsertionRule.spelling_name (r : InsertionRule) : Spelling r.name.toList r.name.toList := by
  cases r <;> exact spelling_self (List.all_iff_forall_prop.1 (by decide))

namespace Settings

/-! ## The text of settings -/

/-- All values of the settings. -/
def overlay (s : Settings) : Overlay := ⟨fun c => some (s.get c)⟩

theorem settings_overlay (s : Settings) : s.overlay.settings = s := rfl

/-- The member that is printed for a choice. -/
def member (s : Settings) (c : Choice) : Member :=
  ⟨[], c.key.toList, [], [], s.printValue c, []⟩

theorem chars_member (s : Settings) (c : Choice) : (s.member c).chars = s.printMember c := by
  simp [member, Member.chars, printMember, quote]

theorem print_eq_object (s : Settings) : s.print = object [] (Choice.all.map s.member) := by
  have hchars : Member.chars ∘ s.member = s.printMember := funext s.chars_member
  rw [print, object, List.map_map, hchars]
  rfl

/-- What is printed for a choice writes its value. -/
theorem writes_printValue (s : Settings) (c : Choice) : c.Writes (s.get c) (s.printValue c) := by
  cases c with
  | deletion => rfl
  | insertion => exact Or.inl ⟨_, s.insertion.spelling_name, rfl⟩
  | logsRecoverySet => rfl
  | budget =>
    rw [get, printValue]
    cases s.budget with
    | none => rfl
    | some n => exact ⟨integerForm_toDigits n.toNat, Nat.ofDigitChars_ten_toDigits⟩

theorem gives_member (s : Settings) (c : Choice) : s.overlay.Gives (s.member c) c where
  spaced := by constructor <;> exact List.forall_mem_nil _
  key := Choice.spelling_key c
  value := ⟨s.get c, rfl, s.writes_printValue c⟩

/-- The members that are printed write all values. -/
theorem writtenBy_members (s : Settings) : s.overlay.WrittenBy (Choice.all.map s.member) := by
  refine ⟨Choice.all, Choice.nodup_all, fun c => iff_of_true c.mem_all rfl, ?_⟩
  rw [List.forall₂_map_left_iff, List.forall₂_same]
  intro c _
  exact s.gives_member c

/-- Settings are read back from their text, whatever the limit. -/
theorem parse?_print (s : Settings) : parse? s.print = some s := by
  have hnil : Blank [] := List.forall_mem_nil _
  have hread := parse?_of_writtenBy s.writtenBy_members hnil hnil hnil
  rw [List.nil_append, List.append_nil, ← print_eq_object, settings_overlay] at hread
  exact hread

/-- What is read is valid. -/
theorem valid_of_read {text : List Char} {s : Settings} (h : read text = .ok s) : s.Valid := by
  rw [read] at h
  split at h
  · cases h
  · split at h
    · next hvalid =>
      cases h
      exact hvalid
    · cases h

/-- Every text of settings gives them back, if they are valid, and otherwise the error that says what is
not valid about them. No text at all gives settings that are not valid. -/
theorem read_print :
    (∀ s : Settings, read s.print = if s.Valid then .ok s else .error .zeroBudget) ∧
    ∀ (text : List Char) (s : Settings), read text = .ok s → s.Valid := by
  constructor
  · intro s
    rw [read, parse?_print]
  · intro text s hread
    exact valid_of_read hread

/-- The greatest limit that there is comes back, and a limit of zero does not. -/
theorem read_print_of_greatest :
    let s : Settings := { insertion := .followConsistent, budget := some 0xFFFFFFFFFFFFFFFF }
    let t : Settings := { budget := some 0 }
    let text := "\x7b\"singleTokenDeletion\":true,\"insertion\":\"followConsistent\"," ++
      "\"traceRecoverySet\":false,\"maxRecoveryConsume\":18446744073709551615\x7d"
    read text.toList = .ok s ∧ s.Valid ∧ read t.print = .error .zeroBudget := by
  intro s t text
  obtain ⟨hprint, hvalid⟩ := read_print
  have hs : read s.print = .ok s := hprint s
  have htext : s.print = text.toList := by decide +kernel
  rw [← htext]
  exact ⟨hs, hvalid s.print s hs, hprint t⟩

end Settings

end SyntaxRecovery
