import SyntaxRecovery.Recovery.Session

/-!
# Reporting errors

Each kind of error has its text. Within one recovery only the first error is reported, except for
errors described by their own text, which are always reported and begin no recovery.
-/

set_option autoImplicit false

namespace SyntaxRecovery

namespace Session

variable {κ ω : Type}

/-- Reports that no alternative fits. -/
def reportNoViableAlternative (s : Session κ) (e : SyntaxError) : Session κ :=
  s.announce e.position (noViableAlternativeText e.token) (some e)

/-- Reports a token in the place of expected ones. -/
def reportMismatch (site : Site ω) (s : Session κ) (e : SyntaxError) (expected : TokenSet) :
    Session κ :=
  s.announce e.position (mismatchText site.vocabulary e.token expected) (some e)

/-- Reports that a condition of a rule does not hold. -/
def reportFailedPredicate (site : Site ω) (s : Session κ) (e : SyntaxError) (rule : Nat)
    (condition : String) : Session κ :=
  s.announce e.position (failedPredicateText (site.ruleName rule) condition) (some e)

/-- Reports the current token as one too many. -/
def reportExtraneous [Cursor κ] (site : Site ω) (s : Session κ) (expected : TokenSet) : Session κ :=
  s.announce (Token.position s.current?) (extraneousText site.vocabulary s.current? expected) none

/-- Reports that a token is missing before the current one. -/
def reportMissing [Cursor κ] (site : Site ω) (s : Session κ) (expected : TokenSet) : Session κ :=
  s.announce (Token.position s.current?) (missingText site.vocabulary s.current? expected) none

/-- Reports an error as its cause asks for. -/
def report (site : Site ω) (s : Session κ) (e : SyntaxError) : Noted (Session κ) :=
  match e.cause with
  | .noViableAlternative => pure (s.reportNoViableAlternative e)
  | .mismatch expected => pure (s.reportMismatch site e expected)
  | .failedPredicate rule condition => pure (s.reportFailedPredicate site e rule condition)
  | .other description =>
    .after (.unknownError description) (s.notify e.position description (some e))

end Session

end SyntaxRecovery
