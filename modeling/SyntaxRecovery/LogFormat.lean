/-!
# Log formats

The form in which a log is written, and how a setting names it: by its name in letters of either
case. Every other setting means plain text.
-/

set_option autoImplicit false

namespace SyntaxRecovery

/-- The form in which a log is written. -/
inductive LogFormat where
  /-- One line for each event. -/
  | text
  /-- Nested events, indented. -/
  | tree
  /-- One JSON object for each event. -/
  | json
deriving DecidableEq, Repr

namespace LogFormat

/-- The name of a format. -/
def name : LogFormat → String
  | text => "text"
  | tree => "tree"
  | json => "json"

/-- The format that a setting names, plain text if it names none. Only Latin letters matter to the
names, and no other letter becomes one of theirs in lower case. -/
def ofSetting (setting : String) : LogFormat :=
  let lower := setting.toList.map Char.toLower
  if lower = tree.name.toList then tree
  else if lower = json.name.toList then json
  else text

end LogFormat

end SyntaxRecovery
