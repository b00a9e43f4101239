import SyntaxRecovery.Message.Catalogue

/-!
# Syntax errors

An error is a cause and the token at which it was found. `SyntaxError.summary` is its text without a
vocabulary, with numbers for token codes and rules.
-/

set_option autoImplicit false

namespace SyntaxRecovery

/-- Why parsing cannot go on. -/
inductive ErrorCause where
  /-- No alternative of a decision fits the input. -/
  | noViableAlternative
  /-- The token is not one of those expected. -/
  | mismatch (expected : TokenSet)
  /-- A condition of a rule does not hold. -/
  | failedPredicate (rule : Nat) (condition : String)
  /-- Anything else, in words. -/
  | other (description : String)
deriving DecidableEq

/-- A syntax error. -/
structure SyntaxError where
  /-- Why parsing cannot go on. -/
  cause : ErrorCause
  /-- The token at which it was found, if there was one. -/
  token : Option Token
deriving DecidableEq

namespace ErrorCause

/-- The kind of message that reports the cause. -/
def kind : ErrorCause → MessageKind
  | noViableAlternative => .noViableAlternative
  | mismatch _ => .mismatch
  | failedPredicate _ _ => .failedPredicate
  | other _ => .other

end ErrorCause

namespace SyntaxError

/-- Line and column of the error. -/
def position (e : SyntaxError) : Nat × Nat := Token.position e.token

/-- The error in words, without names for codes and rules. -/
def summary (e : SyntaxError) : String :=
  match e.cause with
  | .noViableAlternative => "no viable alternative at input " ++ Token.quoted e.token
  | .mismatch expected =>
    "mismatched input " ++ Token.quoted e.token ++ " expecting " ++ expected.text
  | .failedPredicate rule condition =>
    "rule " ++ toString rule ++ " failed predicate: \x7b" ++ condition ++ "\x7d?"
  | .other description => description

end SyntaxError

end SyntaxRecovery
