import SyntaxRecovery.Recovery.Session

/-!
# Resynchronization

After an error the input is passed over up to a token with which some rule being parsed can go on.
The codes of such tokens form the recovery set: for each call on the chain of callers, what may come
after it in the calling rule. The input may already stand at such a token and the parser fail there
again; a second resynchronization in the same state and at the same position therefore passes over
one token first.
-/

set_option autoImplicit false

namespace SyntaxRecovery

namespace Site

variable {ω : Type} [FollowSource ω]

/-- The codes that may come after the calls from which frames were entered, up to a frame that no
state called. -/
def afterCalls (site : Site ω) : List Frame → TokenSet → Noted TokenSet
  | [], codes => pure codes
  | f :: rest, codes =>
    if f.isOutermost then pure codes
    else do
      let next ← FollowSource.afterReturn site.grammar f.invoking
      site.afterCalls rest (codes ∪ next)

/-- The frames whose calls count for recovery, innermost first. -/
def chain (site : Site ω) : List Frame :=
  ((site.stack.ancestors site.context).take CallStack.chainLimit).map Prod.snd

/-- The codes of the tokens at which recovery stops. -/
def recoverySet (policy : Policy) (site : Site ω) : Noted TokenSet := do
  let codes ← site.afterCalls site.chain ∅
  if policy.settings.logsRecoverySet then
    .after (.recoverySet (codes.describe site.vocabulary)) codes
  else pure codes

end Site

section Drain

variable {κ : Type} [Cursor κ]

/-- Whether recovery stops at the current token: at the end of the input and at the given codes. -/
def stopsAt (codes : TokenSet) (input : κ) : Bool :=
  Cursor.code input 1 = .endOfInput || codes.contains (Cursor.code input 1)

/-- Passes over tokens to the next at which recovery stops, but over no more than a number of them.
Gives how many it has passed. -/
def drainAtMost (codes : TokenSet) : Nat → κ → Noted (Nat × κ)
  | 0, input => pure (0, input)
  | n + 1, input =>
    if stopsAt codes input then pure (0, input)
    else do
      let input ← Noted.after (.skipped (Cursor.code input 1)) (Cursor.advance input)
      (fun (passed, input) => (passed + 1, input)) <$> drainAtMost codes n input

/-- Passes over tokens to the next at which recovery stops, within the limit of the settings. Without
a limit the tokens that remain are as many as can be passed over, and a stream has its end among them.
An input that runs out without such an end may have no token at which recovery stops. A loop that looks
for one would go on for ever there; this one ends where the tokens end. -/
def drain (settings : Settings) (codes : TokenSet) (input : κ) : Noted (Nat × κ) :=
  match settings.budget with
  | none => drainAtMost codes (Cursor.remaining input) input
  | some budget => do
    let (passed, input) ← drainAtMost codes budget.toNat input
    if stopsAt codes input then pure (passed, input)
    else .after (.budgetSpent budget.toNat) (passed, input)

end Drain

namespace Session

variable {κ ω : Type} [Cursor κ]

/-- Whether there has been a resynchronization in a state and the last one was at this position. -/
def isStuck (s : Session κ) (state : StateRef) : Bool :=
  s.memory.position = some (Cursor.position s.input) && s.memory.states.contains state

/-- Passes over one token if the session is stuck in a state. -/
def unstick (s : Session κ) (state : StateRef) : Noted (Session κ) :=
  if s.isStuck state then .after (.noProgress (Cursor.position s.input)) s.advance
  else pure s

/-- Keeps in mind that there is a resynchronization in a state. -/
def remember (s : Session κ) (state : StateRef) : Session κ :=
  { s with
    memory.position := some (Cursor.position s.input)
    memory.states := s.memory.states.insert state }

/-- Passes over the input up to a token with which a rule being parsed can go on. -/
def resynchronize [FollowSource ω] (policy : Policy) (site : Site ω) (s : Session κ) :
    Noted (Session κ) := do
  let s ← s.unstick site.state
  -- the position kept is the one after the token passed over, if one was
  let s := s.remember site.state
  let codes ← site.recoverySet policy
  (fun (_, input) => { s with input }) <$> drain policy.settings codes s.input

end Session

end SyntaxRecovery
