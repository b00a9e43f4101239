import SyntaxRecovery.SyntaxError

/-!
# Diagnostics

What a parser tells its user: a message with a place, a severity and a number. Number and severity
follow from the cause of the error; a report without a cause has the general number.
-/

set_option autoImplicit false

namespace SyntaxRecovery

/-- A message at a place in the input. -/
structure Diagnostic where
  /-- Line of the place. -/
  line : Nat
  /-- Column of the place. -/
  column : Nat
  /-- The message. -/
  text : String
  /-- How grave it is. -/
  severity : Severity
  /-- Number of the kind of message. -/
  number : Nat
deriving DecidableEq, Repr

namespace Diagnostic

/-- The diagnostic for a text at a line and column, of the kind that the error's cause asks for. -/
def ofReport (position : Nat × Nat) (text : String) (error : Option SyntaxError) : Diagnostic :=
  let kind := match error with
    | some e => e.cause.kind
    | none => .general
  { line := position.1, column := position.2, text, severity := kind.severity, number := kind.number }

end Diagnostic

/-- The greatest number of errors that a tally can show. -/
def tallyLimit : Nat := 18446744073709551615

/-- A tally after one more error. -/
def countError (tally : Nat) : Nat := min (tally + 1) tallyLimit

end SyntaxRecovery
