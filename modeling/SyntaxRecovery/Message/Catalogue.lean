import SyntaxRecovery.Message.Template
import SyntaxRecovery.TokenSet.Text
import SyntaxRecovery.Token

/-!
# Catalogue of messages

The kinds of messages with their numbers, severities and templates, and the texts made from them.
-/

set_option autoImplicit false

namespace SyntaxRecovery

/-- How grave a message is. -/
inductive Severity where
  | warning
  | error
deriving DecidableEq, Repr

/-- What a message is about. -/
inductive MessageKind where
  /-- An error of which nothing more is known. -/
  | general
  /-- No alternative of a decision fits the input. -/
  | noViableAlternative
  /-- A token other than those expected. -/
  | mismatch
  /-- A condition of a rule does not hold. -/
  | failedPredicate
  /-- A token too many. -/
  | extraneous
  /-- A token too few. -/
  | missing
  /-- An error described by its own text. -/
  | other
deriving DecidableEq, Repr

namespace MessageKind

/-- All kinds in the order of their numbers. -/
def all : List MessageKind :=
  [general, noViableAlternative, mismatch, failedPredicate, extraneous, missing, other]

/-- Number of the kind. -/
def number : MessageKind → Nat
  | general => 1000
  | noViableAlternative => 1001
  | mismatch => 1002
  | failedPredicate => 1003
  | extraneous => 1004
  | missing => 1005
  | other => 1006

/-- Severity of the kind; only an error described by its own text is a warning. -/
def severity : MessageKind → Severity
  | other => .warning
  | _ => .error

/-- Template of the kind. -/
def template : MessageKind → String
  | general => "syntax error"
  | noViableAlternative => "no viable alternative at input \x7b0\x7d"
  | mismatch => "mismatched input \x7b0\x7d expecting \x7b1\x7d"
  | failedPredicate => "rule \x7b0\x7d failed predicate: \x7b\x7b1\x7d\x7d?"
  | extraneous => "extraneous input \x7b0\x7d expecting \x7b1\x7d"
  | missing => "missing \x7b0\x7d at \x7b1\x7d"
  | other => "\x7b0\x7d"

/-- The kind with a number. -/
def ofNumber? (n : Nat) : Option MessageKind := all.find? fun k => k.number == n

/-- The template of the kind with the given arguments. -/
def text (k : MessageKind) (args : List String) : String := Template.fill k.template args

end MessageKind

/-! ## Texts of the kinds -/

/-- No alternative fits at a token. -/
def noViableAlternativeText (t : Option Token) : String :=
  MessageKind.noViableAlternative.text [Token.quoted t]

/-- A token stands where others are expected. -/
def mismatchText (v : Vocabulary) (t : Option Token) (expected : TokenSet) : String :=
  MessageKind.mismatch.text [Token.quoted t, expected.describe v]

/-- A condition of a rule does not hold. -/
def failedPredicateText (rule condition : String) : String :=
  MessageKind.failedPredicate.text [rule, condition]

/-- A token is to be passed over. -/
def extraneousText (v : Vocabulary) (t : Option Token) (expected : TokenSet) : String :=
  MessageKind.extraneous.text [Token.quoted t, expected.describe v]

/-- A token is missing before another. -/
def missingText (v : Vocabulary) (t : Option Token) (expected : TokenSet) : String :=
  MessageKind.missing.text [expected.describe v, Token.quoted t]

end SyntaxRecovery
