import SyntaxRecovery.Recovery.Report
import SyntaxRecovery.Recovery.Resynchronization

/-!
# Repair of a single token

When one token stands in the place of another, the parser may go on as if the input were right: by
dropping the token if the one after it is expected, or by making up the expected one. Otherwise the
mismatch is an error.
-/

set_option autoImplicit false

namespace SyntaxRecovery

/-- Text of a token that is made up. -/
def madeUpText (v : Vocabulary) (code : TokenCode) : String :=
  let name := if code = .endOfInput then "EOF" else v.describe code
  "<missing " ++ name ++ ">"

namespace Session

variable {κ ω : Type} [Cursor κ] [FollowSource ω]

/-- Whether the input reads as if an expected token were missing before the current one. -/
def lacksToken (policy : Policy) (site : Site ω) (s : Session κ) (expected : TokenSet) :
    Noted Bool :=
  if policy.decides.isNone ∧ policy.settings.insertion = .never then pure false
  else do
    let follow ← FollowSource.afterMatch site.grammar site.stack site.state site.context
    let lookahead := Cursor.code s.input 1
    match policy.decides with
    | some decide =>
      let q : Inquiry := { lookahead, expected, follow }
      { value := decide q, notes := [.inquiry q] }
    | none =>
      pure <| match follow with
        | some codes => codes.contains lookahead
        | none => false

/-- The token whose place a made-up token takes: the current one, or the one before the end of the
input. -/
def anchor? (s : Session κ) : Option Token :=
  match s.current? with
  | some t => if t.isEnding then (Cursor.token? s.input (-1)).or (some t) else some t
  | none => none

/-- A token made up for one of those expected. -/
def madeUpToken (site : Site ω) (s : Session κ) (expected : TokenSet) : Token :=
  let code := expected.min?.getD .absent
  let (line, column) := Token.position s.anchor?
  { code
    text := some (madeUpText site.vocabulary code)
    line
    column
    channel := 0
    source := s.current?.bind Token.source }

/-- Drops the current token if the one after it is expected, and reads that one. -/
def deleteToken (policy : Policy) (site : Site ω) (s : Session κ) (expected : TokenSet) :
    Noted (Option Token × Session κ) :=
  if policy.settings.deletion ∧ Cursor.code s.input 2 ∈ expected then
    let s := s.reportExtraneous site expected
    let next := s.advance
    -- the note shows the token dropped; the token read is the one after it
    .after (.deleted (Token.quoted s.current?)) (next.current?, next.advance)
  else pure (none, s)

/-- Makes up an expected token if the input lacks one; else the mismatch is an error. -/
def insertToken (policy : Policy) (site : Site ω) (s : Session κ) (expected : TokenSet) :
    Noted (Except SyntaxError Token × Session κ) := do
  if ← s.lacksToken policy site expected then
    pure (.ok (s.madeUpToken site expected), s.reportMissing site expected)
  else
    pure (.error { cause := .mismatch expected, token := s.current? }, s)

/-- Repairs the input at the current token: gives the token to go on with, or the error. -/
def repair (policy : Policy) (site : Site ω) (s : Session κ) :
    Noted (Except SyntaxError Token × Session κ) := do
  let expected ← site.expected
  match ← s.deleteToken policy site expected with
  | (some t, s) => pure (.ok t, s)
  | (none, s) => s.insertToken policy site expected

end Session

end SyntaxRecovery
