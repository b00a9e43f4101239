import SyntaxRecovery.Reference
import SyntaxRecovery.TokenSet.Basic

/-!
# Transition networks

A grammar as a network of states, one part for each rule. An edge reads a token, moves on without
reading one, or calls a rule: it leads to the start of the called rule and keeps the state in which
the caller goes on.
-/

set_option autoImplicit false

namespace SyntaxRecovery

/-- Part that a state plays in its rule. -/
inductive StateKind where
  | basic
  | ruleStart
  | ruleStop
  | blockStart
  | blockEnd
  | loopEntry
deriving DecidableEq, Repr

/-- What it takes to go along an edge. -/
inductive Move where
  /-- Nothing. -/
  | epsilon
  /-- A token with one code. -/
  | one (code : TokenCode)
  /-- A token with a code from a range, empty if it is inverted. -/
  | range (lo hi : TokenCode)
  /-- A token with a code from a set. -/
  | among (codes : TokenSet)
  /-- A token with any code that the grammar gives out. -/
  | any
  /-- A condition of a rule; an analysis takes it to hold. -/
  | predicate (rule index : Nat)
  /-- A whole rule, after which the caller goes on at `follow`. -/
  | call (rule : Nat) (follow : StateRef)
deriving DecidableEq

/-- An edge of a network. -/
structure Edge where
  /-- State that it leads to. -/
  target : StateRef
  /-- What it takes. -/
  move : Move
deriving DecidableEq

namespace Move

/-- The codes of the tokens read on the move, none if it reads no token; `greatest` is the greatest
code that the grammar gives out. -/
def label? (greatest : TokenCode) : Move → Option TokenSet
  | one code => some {code}
  | range lo hi => some (.range lo hi)
  | among codes => some codes
  | any => some (.range .firstNamed greatest)
  | epsilon | predicate _ _ | call _ _ => none

/-- Whether no token is read on the move. -/
def isSilent : Move → Bool
  | epsilon | predicate _ _ | call _ _ => true
  | one _ | range _ _ | among _ | any => false

/-- The moves that read a token are those with a label. -/
theorem isSilent_eq_false_iff {greatest : TokenCode} {m : Move} :
    m.isSilent = false ↔ ∃ codes, m.label? greatest = some codes := by
  cases m <;> simp [isSilent, label?]

end Move

/-- A state of a network. -/
structure State where
  /-- Reference to the state, given out when it was added. -/
  ref : StateRef
  /-- Part that it plays. -/
  kind : StateKind
  /-- Rule that it belongs to. -/
  rule : Nat
  /-- Edges that leave it, in the order in which they were added. -/
  edges : List Edge := []
deriving DecidableEq

/-- Whether the state ends its rule. -/
def State.isStop (s : State) : Bool := s.kind = .ruleStop

/-- A transition network. -/
structure Network where
  /-- The states in the order of their references. -/
  states : Array State := #[]
  /-- For each rule the state in which it starts. -/
  starts : Array StateRef := #[]
  /-- For each rule the state in which it stops. -/
  stops : Array StateRef := #[]
  /-- The greatest code that the grammar gives to a token. -/
  greatest : TokenCode := .absent
deriving DecidableEq

namespace Network

/-- The state under a reference. -/
def state? (net : Network) (r : StateRef) : Option State :=
  match r with
  | some p => net.states[p.val]?
  | none => none

/-- The state in which a rule starts. -/
def start? (net : Network) (rule : Nat) : Option StateRef := net.starts[rule]?

/-- The state in which a rule stops. -/
def stop? (net : Network) (rule : Nat) : Option StateRef := net.stops[rule]?

/-- Number of rules. -/
def ruleCount (net : Network) : Nat := net.starts.size

/-- Where the caller goes on after a rule called from a state, if the first edge of that state is a
call. -/
def returnState? (net : Network) (invoking : StateRef) : Option StateRef :=
  match (net.state? invoking).bind fun s => s.edges.head? with
  | some { move := .call _ follow, .. } => some follow
  | _ => none

end Network

end SyntaxRecovery
