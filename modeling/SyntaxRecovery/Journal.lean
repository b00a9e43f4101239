import SyntaxRecovery.Reference
import SyntaxRecovery.TokenSet.Basic

/-!
# Journals

What happens beside a result: events for a log, and the questions put to an insertion rule. `Noted`
is a result with its journal, in the order in which things happened.
-/

set_option autoImplicit false

namespace SyntaxRecovery

/-- How important an event is. -/
inductive Level where
  | error
  | warn
  | info
  | debug
  | trace
deriving DecidableEq, Repr

/-- Name of a level. -/
def Level.name : Level → String
  | error => "ERROR"
  | warn => "WARN"
  | info => "INFO"
  | debug => "DEBUG"
  | trace => "TRACE"

/-- An event for the log. -/
inductive Event where
  /-- A call of a rule that the network does not have. -/
  | undeclaredRule (rule : Nat)
  /-- An edge from a state that the network does not have. -/
  | unknownSource (state : StateRef)
  /-- An analysis came to a state with as many configurations behind it as it may have. -/
  | analysisLimit (state : StateRef) (limit : Nat)
  /-- A state that called a rule does not start with a call. -/
  | noReturnState (state : StateRef)
  /-- The codes at which recovery stops. -/
  | recoverySet (codes : String)
  /-- Recovery passed over as many tokens as it may. -/
  | budgetSpent (budget : Nat)
  /-- Recovery passed over a token. -/
  | skipped (code : TokenCode)
  /-- An error of a kind without a message of its own. -/
  | unknownError (description : String)
  /-- Recovery came to a token a second time in one state. -/
  | noProgress (position : Nat)
  /-- A token was dropped from the input. -/
  | deleted (token : String)
deriving DecidableEq, Repr

/-- A value that an event carries. -/
inductive EventValue where
  | number (n : Int)
  | text (s : String)
deriving DecidableEq, Repr

namespace Event

/-- How important the event is. -/
def level : Event → Level
  | undeclaredRule _ | unknownSource _ | analysisLimit _ _ | noReturnState _ | unknownError _ => .warn
  | recoverySet _ | budgetSpent _ | noProgress _ | deleted _ => .debug
  | skipped _ => .trace

/-- The event in words. -/
def message : Event → String
  | undeclaredRule _ => "rule call to an undeclared rule ignored"
  | unknownSource _ => "transition from an unknown state ignored"
  | analysisLimit _ _ => "follow analysis exceeded its configuration limit"
  | noReturnState _ => "invoking state has no rule transition; no follow tokens"
  | recoverySet _ => "computed error recovery set"
  | budgetSpent _ => "recovery consumption budget exhausted"
  | skipped _ => "consume during recover"
  | unknownError _ => "unknown recognition error type"
  | noProgress _ => "no progress since last recovery; consuming one token"
  | deleted _ => "single-token deletion"

/-- What the event is about, each value under its name. -/
def details : Event → List (String × EventValue)
  | undeclaredRule rule => [("rule_index", .number rule)]
  | unknownSource state => [("state", .number (referenceNumber state))]
  | analysisLimit state limit =>
    [("state", .number (referenceNumber state)), ("limit", .number limit)]
  | noReturnState state => [("state", .number (referenceNumber state))]
  | recoverySet codes => [("recover_set", .text codes)]
  | budgetSpent budget => [("budget", .number budget)]
  | skipped code => [("token_type", .number code.toInt)]
  | unknownError description => [("description", .text description)]
  | noProgress position => [("index", .number position)]
  | deleted token => [("deleted", .text token)]

end Event

/-- What an insertion rule is asked about. -/
structure Inquiry where
  /-- Code of the current token. -/
  lookahead : TokenCode
  /-- The codes expected in its place. -/
  expected : TokenSet
  /-- The codes that may come after the expected token, if they are known. -/
  follow : Option TokenSet
deriving DecidableEq

/-- An entry of a journal. -/
inductive Note where
  /-- Something happened. -/
  | event (e : Event)
  /-- An insertion rule was asked. -/
  | inquiry (q : Inquiry)

/-- A result and what happened on the way to it. -/
structure Noted (α : Type) where
  /-- The result. -/
  value : α
  /-- What happened, first things first. -/
  notes : List Note := []

namespace Noted

instance : Monad Noted where
  pure a := { value := a }
  bind x f :=
    let y := f x.value
    { value := y.value, notes := x.notes ++ y.notes }
  map f x := { value := f x.value, notes := x.notes }

/-- A result after an event. -/
def after {α : Type} (e : Event) (a : α) : Noted α := { value := a, notes := [.event e] }

variable {α β : Type}

@[simp] theorem value_pure (a : α) : (pure a : Noted α).value = a := rfl

@[simp] theorem notes_pure (a : α) : (pure a : Noted α).notes = [] := rfl

@[simp] theorem value_bind (x : Noted α) (f : α → Noted β) :
    (x >>= f).value = (f x.value).value := rfl

@[simp] theorem notes_bind (x : Noted α) (f : α → Noted β) :
    (x >>= f).notes = x.notes ++ (f x.value).notes := rfl

@[simp] theorem value_map (f : α → β) (x : Noted α) : (f <$> x).value = f x.value := rfl

@[simp] theorem notes_map (f : α → β) (x : Noted α) : (f <$> x).notes = x.notes := rfl

@[simp] theorem value_after (e : Event) (a : α) : (after e a).value = a := rfl

@[simp] theorem notes_after (e : Event) (a : α) : (after e a).notes = [.event e] := rfl

end Noted

end SyntaxRecovery
