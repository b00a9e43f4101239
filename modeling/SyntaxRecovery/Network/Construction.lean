import SyntaxRecovery.Network.Basic
import SyntaxRecovery.Journal

/-!
# Building networks

A network grows from one without states by instructions: a new rule, a new state, a new edge. An
instruction that names a state or a rule that is not there changes nothing and is noted.
-/

set_option autoImplicit false

namespace SyntaxRecovery

namespace Network

/-- A network without states. -/
def empty (greatest : TokenCode) : Network := { greatest }

/-- Adds a state to a rule; gives the reference to it. -/
def addState (net : Network) (rule : Nat) (kind : StateKind) : StateRef × Network :=
  let ref := referTo net.states.size
  (ref, { net with states := net.states.push { ref, kind, rule } })

/-- Adds a rule, numbered in the order of adding; gives the states in which it starts and stops. -/
def addRule (net : Network) : (StateRef × StateRef) × Network :=
  let rule := net.ruleCount
  let (start, net) := net.addState rule .ruleStart
  let (stop, net) := net.addState rule .ruleStop
  ((start, stop), { net with starts := net.starts.push start, stops := net.stops.push stop })

/-- Adds an edge to those that leave a state. -/
def addEdge (net : Network) (source : StateRef) (edge : Edge) : Noted Network :=
  match source with
  | some p =>
    if p.val < net.states.size then
      pure { net with states := net.states.modify p.val fun s => { s with edges := s.edges ++ [edge] } }
    else .after (.unknownSource source) net
  | none => .after (.unknownSource source) net

/-- Adds a condition, numbered within the rule of the state it leaves. -/
def addPredicate (net : Network) (source target : StateRef) (index : Nat) : Noted Network :=
  let rule := match net.state? source with
    | some s => s.rule
    | none => 0
  net.addEdge source { target, move := .predicate rule index }

/-- Adds a call of a rule that is already there. -/
def addCall (net : Network) (source : StateRef) (rule : Nat) (follow : StateRef) : Noted Network :=
  match net.start? rule with
  | some target => net.addEdge source { target, move := .call rule follow }
  | none => .after (.undeclaredRule rule) net

/-- An instruction for building a network. -/
inductive Instruction where
  /-- A new rule. -/
  | rule
  /-- A new state of a rule. -/
  | state (rule : Nat) (kind : StateKind)
  /-- An edge that takes nothing. -/
  | epsilon (source target : StateRef)
  /-- An edge for one code. -/
  | one (source target : StateRef) (code : TokenCode)
  /-- An edge for a range of codes. -/
  | range (source target : StateRef) (lo hi : TokenCode)
  /-- An edge for a set of codes. -/
  | among (source target : StateRef) (codes : TokenSet)
  /-- An edge for any code of the grammar. -/
  | any (source target : StateRef)
  /-- A condition. -/
  | predicate (source target : StateRef) (index : Nat)
  /-- A call. -/
  | call (source : StateRef) (rule : Nat) (follow : StateRef)

/-- The references that an instruction gives out. -/
inductive Made where
  /-- Start and stop of a new rule. -/
  | rule (start stop : StateRef)
  /-- A new state. -/
  | state (ref : StateRef)
  /-- No new state. -/
  | nothing

/-- Carries out an instruction. -/
def build (net : Network) : Instruction → Noted (Made × Network)
  | .rule =>
    let ((start, stop), net) := net.addRule
    pure (.rule start stop, net)
  | .state rule kind =>
    let (ref, net) := net.addState rule kind
    pure (.state ref, net)
  | .epsilon source target => Prod.mk .nothing <$> net.addEdge source { target, move := .epsilon }
  | .one source target code => Prod.mk .nothing <$> net.addEdge source { target, move := .one code }
  | .range source target lo hi =>
    Prod.mk .nothing <$> net.addEdge source { target, move := .range lo hi }
  | .among source target codes =>
    Prod.mk .nothing <$> net.addEdge source { target, move := .among codes }
  | .any source target => Prod.mk .nothing <$> net.addEdge source { target, move := .any }
  | .predicate source target index => Prod.mk .nothing <$> net.addPredicate source target index
  | .call source rule follow => Prod.mk .nothing <$> net.addCall source rule follow

/-- Carries out instructions in order; gives what each of them made. -/
def buildAll (net : Network) : List Instruction → Noted (List Made × Network)
  | [] => pure ([], net)
  | i :: rest => do
    let (made, net) ← net.build i
    let (all, net) ← net.buildAll rest
    pure (made :: all, net)

end Network

end SyntaxRecovery
