/-!
# Recovery settings

What a user can choose about recovery. A limit on the number of tokens passed over has to leave room
for at least one (`Settings.Valid`).
-/

set_option autoImplicit false

namespace SyntaxRecovery

/-- When a token may be made up. -/
inductive InsertionRule where
  /-- Never. -/
  | never
  /-- When the current token may come after the one that is missing. -/
  | followConsistent
deriving DecidableEq, Repr

/-- What a user can choose about recovery. -/
structure Settings where
  /-- Whether a token is dropped when the one after it is expected. -/
  deletion : Bool := true
  /-- When a token is made up. -/
  insertion : InsertionRule := .never
  /-- Whether the set of codes at which recovery stops goes into the log. -/
  logsRecoverySet : Bool := false
  /-- The number of tokens that recovery passes over at most, if there is a limit. -/
  budget : Option UInt64 := none
deriving DecidableEq, Repr, Inhabited

/-- A limit leaves room for a token. -/
def Settings.Valid (s : Settings) : Prop := s.budget ≠ some 0

instance (s : Settings) : Decidable s.Valid := inferInstanceAs (Decidable (s.budget ≠ some 0))

end SyntaxRecovery
