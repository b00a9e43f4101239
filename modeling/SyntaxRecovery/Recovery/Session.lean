import SyntaxRecovery.Diagnostic
import SyntaxRecovery.Network.Follow
import SyntaxRecovery.Recovery.Settings
import SyntaxRecovery.TokenStream

/-!
# Recovery sessions

What recovery looks at and what it changes. A `Policy` is fixed for a parse. A `Site` is where the
parser stands in the grammar; recovery only reads it. A `Session` is the input, the diagnostics and
the memory of earlier errors; every step of recovery is a function on sessions.
-/

set_option autoImplicit false

namespace SyntaxRecovery

/-- How errors are to be handled. -/
structure Policy where
  /-- The user's choices. -/
  settings : Settings := {}
  /-- Decides whether a token is made up, whatever the settings say about it. -/
  decides : Option (Inquiry → Bool) := none

/-- Where a parser stands in its grammar. -/
structure Site (ω : Type) where
  /-- What answers questions about the grammar. -/
  grammar : ω
  /-- The rules being parsed. -/
  stack : CallStack
  /-- State of the network. -/
  state : StateRef
  /-- Frame of the rule to which the state belongs. -/
  context : FrameRef
  /-- Names of the rules. -/
  ruleNames : Array String
  /-- Names of the token codes. -/
  vocabulary : Vocabulary

namespace Site

variable {ω : Type}

/-- A rule by its name, or by its number if it has none. -/
def ruleName (site : Site ω) (rule : Nat) : String :=
  match site.ruleNames[rule]? with
  | some name => name
  | none => toString rule

/-- The codes that may come next. -/
def expected [FollowSource ω] (site : Site ω) : Noted TokenSet :=
  FollowSource.expected site.grammar site.stack site.state site.context

end Site

/-- What recovery keeps in mind from one error to the next. -/
structure Memory where
  /-- Whether an error has been reported and no token matched since. -/
  recovering : Bool := false
  /-- Position of the input at the last resynchronization. -/
  position : Option Nat := none
  /-- The states in which there has been a resynchronization. -/
  states : List StateRef := []
deriving DecidableEq

/-- What recovery changes. -/
structure Session (κ : Type) where
  /-- The input at its reading position. -/
  input : κ
  /-- The diagnostics so far. -/
  diagnostics : Array Diagnostic := #[]
  /-- Number of errors counted so far. -/
  tally : Nat := 0
  /-- What is kept in mind. -/
  memory : Memory := {}

namespace Session

variable {κ : Type}

/-- The token not yet passed. -/
def current? [Cursor κ] (s : Session κ) : Option Token := Cursor.current? s.input

/-- The session after one more token of the input. -/
def advance [Cursor κ] (s : Session κ) : Session κ := { s with input := Cursor.advance s.input }

/-- The session with one more diagnostic. -/
def notify (s : Session κ) (position : Nat × Nat) (text : String) (error : Option SyntaxError) :
    Session κ :=
  { s with diagnostics := s.diagnostics.push (.ofReport position text error) }

/-- The session with one more error counted and recovery begun. -/
def countError (s : Session κ) : Session κ :=
  { s with tally := SyntaxRecovery.countError s.tally, memory.recovering := true }

/-- Reports an error unless recovery from another one has begun. -/
def announce (s : Session κ) (position : Nat × Nat) (text : String) (error : Option SyntaxError) :
    Session κ :=
  if s.memory.recovering then s else s.countError.notify position text error

/-- Ends recovery: a token has matched. -/
def endRecovery (s : Session κ) : Session κ := { s with memory.recovering := false }

/-- Forgets all earlier errors; what has been reported stays. -/
def forget (s : Session κ) : Session κ := { s with memory := {} }

end Session

end SyntaxRecovery
