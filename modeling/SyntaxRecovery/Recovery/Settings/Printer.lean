import SyntaxRecovery.Recovery.Settings

/-!
# Settings as text

Settings are kept as a JSON object with one member for each choice.
-/

set_option autoImplicit false

namespace SyntaxRecovery

/-- A choice that the settings leave to the user. -/
inductive Choice where
  | deletion
  | insertion
  | logsRecoverySet
  | budget
deriving DecidableEq, Repr

namespace Choice

/-- All choices in their order in the text. -/
def all : List Choice := [deletion, insertion, logsRecoverySet, budget]

/-- Key of a choice. -/
def key : Choice → String
  | deletion => "singleTokenDeletion"
  | insertion => "insertion"
  | logsRecoverySet => "traceRecoverySet"
  | budget => "maxRecoveryConsume"

/-- The choice with a key. -/
def ofKey? (key : List Char) : Option Choice := all.find? fun c => c.key.toList == key

end Choice

namespace InsertionRule

/-- Name of a rule. -/
def name : InsertionRule → String
  | never => "never"
  | followConsistent => "followConsistent"

/-- The rule with a name. -/
def ofName? (name : List Char) : Option InsertionRule :=
  [never, followConsistent].find? fun r => r.name.toList == name

end InsertionRule

namespace Settings

/-- A text between double quotes; the texts quoted here need no escapes. -/
def quote (text : String) : List Char := '"' :: text.toList ++ ['"']

/-- The value chosen. -/
def printValue (s : Settings) : Choice → List Char
  | .deletion => (if s.deletion then "true" else "false").toList
  | .insertion => quote s.insertion.name
  | .logsRecoverySet => (if s.logsRecoverySet then "true" else "false").toList
  | .budget =>
    match s.budget with
    | some n => Nat.toDigits 10 n.toNat
    | none => "null".toList

/-- A key and the value chosen. -/
def printMember (s : Settings) (c : Choice) : List Char :=
  quote c.key ++ ':' :: s.printValue c

/-- The settings as a JSON object. -/
def print (s : Settings) : List Char :=
  '{' :: [','].intercalate (Choice.all.map s.printMember) ++ ['}']

end Settings

end SyntaxRecovery
