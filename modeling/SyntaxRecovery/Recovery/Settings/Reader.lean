import SyntaxRecovery.Json.Scan
import SyntaxRecovery.Recovery.Settings.Printer

/-!
# Settings from text

Settings are read from a JSON object with members in any order, or from an array of values in the
order of the choices. What is left out keeps its default; an unknown or repeated key, a value of the
wrong kind and text after the value are errors.
-/

set_option autoImplicit false

namespace SyntaxRecovery

/-- Why a text gives no settings. Where and in what it departs from the form is not kept. -/
inductive SettingsError where
  /-- It is not a text of settings. -/
  | malformed
  /-- The limit leaves no room for a token. -/
  | zeroBudget
deriving DecidableEq, Repr

/-- An error in words. -/
def SettingsError.message : SettingsError → String
  | malformed => "failed to parse recovery options"
  | zeroBudget => "maxRecoveryConsume must be greater than zero"

/-- Why a file gives no settings. -/
inductive SettingsFileError where
  /-- The file cannot be read as text, whether it is missing, barred or no UTF-8. -/
  | unreadable
  /-- The text gives no settings. -/
  | invalid (e : SettingsError)
deriving DecidableEq, Repr

/-- An error with a file in words. -/
def SettingsFileError.message (path : String) : SettingsFileError → String
  | unreadable => "failed to read recovery options " ++ path
  | invalid e => "invalid recovery options in " ++ path ++ ": " ++ e.message

namespace Settings

open Json

/-- A truth value. -/
def bool? (l : List Char) : Option (Bool × List Char) :=
  match word? "true".toList l with
  | some rest => some (true, rest)
  | none => (word? "false".toList l).map fun rest => (false, rest)

/-- An insertion rule: its name, or an object with its name as the only key and no value. -/
def insertion? (l : List Char) : Option (InsertionRule × List Char) :=
  match l with
  | '{' :: rest => do
    let (name, rest) ← string? (skipBlank rest)
    let rule ← InsertionRule.ofName? name
    let rest ← word? [':'] (skipBlank rest)
    let rest ← word? "null".toList (skipBlank rest)
    let rest ← word? ['}'] (skipBlank rest)
    some (rule, rest)
  | l => do
    let (name, rest) ← string? l
    let rule ← InsertionRule.ofName? name
    some (rule, rest)

/-- A limit: no limit, or a number that fits into 64 bits. -/
def budget? (l : List Char) : Option (Option UInt64 × List Char) :=
  match word? "null".toList l with
  | some rest => some (none, rest)
  | none => do
    let (n, rest) ← natural? l
    if n < UInt64.size then some (some (UInt64.ofNat n), rest) else none

/-- The settings with the value at the front chosen. -/
def readValue? (s : Settings) (c : Choice) (l : List Char) : Option (Settings × List Char) :=
  match c with
  | .deletion => (bool? l).map fun (v, rest) => ({ s with deletion := v }, rest)
  | .insertion => (insertion? l).map fun (v, rest) => ({ s with insertion := v }, rest)
  | .logsRecoverySet => (bool? l).map fun (v, rest) => ({ s with logsRecoverySet := v }, rest)
  | .budget => (budget? l).map fun (v, rest) => ({ s with budget := v }, rest)

/-- The key of a member and the colon after it. -/
def key? (l : List Char) : Option (Choice × List Char) := do
  let (key, rest) ← string? l
  let c ← Choice.ofKey? key
  let rest ← word? [':'] (skipBlank rest)
  some (c, skipBlank rest)

/-- The members of an object from the key of one of them to the closing brace. Every key is one of
those `left`, which the members before have not used. -/
def members? (left : List Choice) (s : Settings) (l : List Char) : Option (Settings × List Char) :=
  match key? l with
  | none => none
  | some (c, rest) =>
    if _left : c ∈ left then
      match readValue? s c rest with
      | none => none
      | some (s, rest) =>
        match skipBlank rest with
        -- a key read once is not left for the members that follow
        | ',' :: rest => members? (left.erase c) s (skipBlank rest)
        | '}' :: rest => some (s, rest)
        | _ => none
    else none
termination_by left.length
decreasing_by
  have := List.length_erase_of_mem _left
  have := List.length_pos_of_mem _left
  omega

/-- The values of an array for some choices in their order, to the closing bracket. -/
def elements? (s : Settings) : List Choice → List Char → Option (Settings × List Char)
  | [], _ => none
  | c :: left, l =>
    match readValue? s c l with
    | none => none
    | some (s, rest) =>
      match skipBlank rest with
      | ',' :: rest => elements? s left (skipBlank rest)
      | ']' :: rest => some (s, rest)
      | _ => none

/-- An object or an array of settings. -/
def value? (l : List Char) : Option (Settings × List Char) :=
  match l with
  | '{' :: rest =>
    match skipBlank rest with
    | '}' :: rest => some ({}, rest)
    | rest => members? Choice.all {} rest
  | '[' :: rest =>
    match skipBlank rest with
    | ']' :: rest => some ({}, rest)
    | rest => elements? {} Choice.all rest
  | _ => none

/-- The settings that a text holds between blank space, whatever the limit. -/
def parse? (l : List Char) : Option Settings :=
  match value? (skipBlank l) with
  | some (s, rest) => if skipBlank rest = [] then some s else none
  | none => none

/-- Reads settings from a text. -/
def read (l : List Char) : Except SettingsError Settings :=
  match parse? l with
  | none => .error .malformed
  | some s => if s.Valid then .ok s else .error .zeroBudget

/-- Reads settings from the content of a file, which is not there if it cannot be read. -/
def ofContent (content : Option ByteArray) : Except SettingsFileError Settings :=
  match content.bind String.fromUTF8? with
  | none => .error .unreadable
  | some text =>
    match read text.toList with
    | .ok s => .ok s
    | .error e => .error (.invalid e)

end Settings

end SyntaxRecovery
