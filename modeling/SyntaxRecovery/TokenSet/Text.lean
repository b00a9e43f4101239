import SyntaxRecovery.TokenSet.Basic
import SyntaxRecovery.Vocabulary

/-!
# Text of a set of token codes

Two renderings. `TokenSet.text` writes spans of numbers, as in `{1..4, 7}`; `TokenSet.describe` writes
every member by its name in a vocabulary, as in `{ID, INT}`. Both leave out the braces around a
single member and write the reserved codes below zero by name.
-/

set_option autoImplicit false

namespace SyntaxRecovery

/-- The parts separated by commas, between braces. -/
def braced (parts : List String) : String :=
  "\x7b" ++ ", ".intercalate parts ++ "\x7d"

/-- A span by its two ends, or by its only code. -/
def Span.text (s : Span) : String :=
  if s.lo = s.hi then s.lo.label else s.lo.label ++ ".." ++ s.hi.label

/-- A member of a set by its name in a vocabulary. -/
def Vocabulary.label (v : Vocabulary) (c : TokenCode) : String :=
  if c = .endOfInput ∨ c = .ruleEnd then c.label else v.describe c

namespace TokenSet

/-- The spans of a set in numbers; a single member stands without braces. -/
def text (s : TokenSet) : String :=
  match s.spans with
  | [r] => if r.lo = r.hi then r.text else braced [r.text]
  | spans => braced (spans.map Span.text)

/-- The members of a set by name; a single member stands without braces. -/
def describe (v : Vocabulary) (s : TokenSet) : String :=
  match s.toList.map v.label with
  | [name] => name
  | names => braced names

end TokenSet

end SyntaxRecovery
