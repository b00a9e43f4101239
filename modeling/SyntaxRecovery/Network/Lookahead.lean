import Std.Data.TreeSet
import SyntaxRecovery.CallStack
import SyntaxRecovery.Journal
import SyntaxRecovery.Network.Basic

/-!
# Lookahead

The codes of the tokens that can be read next from a state. A depth-first search goes along the edges
that read no token. A called rule is entered with the state in which its caller goes on on top of a
list of returns, and left to that state. Where the rule in which the search began stops, the call
stack says what comes next: the state in which the caller of its frame goes on, the end of the input
for the outermost rule, or, where no frame tells, the marker `TokenCode.ruleEnd`.

A rule is not entered again while it is open on the path, a configuration is looked at once, and a
search looks at a limited number of configurations (`Survey.refused` tells whether that was enough).
-/

set_option autoImplicit false

namespace SyntaxRecovery

/-- A place that a search has come to. -/
structure Configuration where
  /-- The state. -/
  state : StateRef
  /-- The states in which the callers of the rules entered by the search go on, innermost first. -/
  returns : List StateRef
  /-- Frame of the rule that is left when there is no return. -/
  base : FrameRef
  /-- The rules open on the path, which may not be entered. -/
  barred : List Nat
deriving DecidableEq

/-- What tells configurations apart: all but the barred rules. -/
def Configuration.key (c : Configuration) : List Nat :=
  referenceNumber c.state :: referenceNumber c.base :: c.returns.map referenceNumber

/-- What there is to see at a configuration. -/
structure Outlook where
  /-- Codes of the tokens that can be read there. -/
  codes : TokenSet := ∅
  /-- Places to go on to without reading a token, in order. -/
  next : List Configuration := []

namespace Network

/-- The place to which an edge leads from a configuration without reading a token. -/
def follow? (c : Configuration) (e : Edge) : Option Configuration :=
  match e.move with
  | .epsilon | .predicate _ _ => some { c with state := e.target }
  | .call rule follow =>
    if rule ∈ c.barred then none
    else some { c with state := e.target, returns := follow :: c.returns, barred := rule :: c.barred }
  | _ => none

/-- What comes after a rule whose frame is `base`, if that rule is not one that the search entered. -/
def leave (net : Network) (frames : CallStack) (c : Configuration) (rule : Nat) : Outlook :=
  match frames.get? c.base with
  | none => { codes := {TokenCode.ruleEnd} }
  | some frame =>
    if frame.isOutermost then { codes := {TokenCode.endOfInput} }
    else match net.returnState? frame.invoking with
      | none => { codes := {TokenCode.ruleEnd} }
      | some state =>
        { next := [{ c with state, base := frame.parent, barred := c.barred.erase rule }] }

/-- The codes on the edges of a state. -/
def labels (net : Network) (s : State) : TokenSet :=
  (s.edges.filterMap fun e => e.move.label? net.greatest).foldl (· ∪ ·) ∅

/-- What there is to see at a configuration. -/
def outlook (net : Network) (frames : CallStack) (c : Configuration) : Outlook :=
  match net.state? c.state with
  | none => {}
  | some s =>
    if s.isStop then
      match c.returns with
      -- the rule was entered by the search: back to its caller, and it may be entered again
      | state :: returns => { next := [{ c with state, returns, barred := c.barred.erase s.rule }] }
      | [] => net.leave frames c s.rule
    else { codes := net.labels s, next := s.edges.filterMap (follow? c) }

end Network

/-- The state of a search. -/
structure Survey where
  /-- The codes found. -/
  look : TokenSet := ∅
  /-- Keys of the configurations looked at. -/
  seen : Std.TreeSet (List Nat) := ∅
  /-- State of the first configuration that was one too many, if any was. -/
  refused : Option StateRef := none

namespace Survey

/-- The survey with a configuration left out as one too many. -/
def refuse (v : Survey) (c : Configuration) : Survey :=
  { v with refused := v.refused.or (some c.state) }

/-- The survey after a look at a configuration. -/
def record (v : Survey) (c : Configuration) (o : Outlook) : Survey :=
  { v with look := v.look ∪ o.codes, seen := v.seen.insert c.key }

end Survey

namespace Network

/-- Looks at the places on the agenda, first things first, and at all that can be reached from
them. Each look takes one from the number still allowed or shortens the agenda. -/
def explore (net : Network) (frames : CallStack) (limit : Nat) (v : Survey) :
    List Configuration → Survey
  | [] => v
  | c :: agenda =>
    if limit ≤ v.seen.size then net.explore frames limit (v.refuse c) agenda
    else if _seen : v.seen.contains c.key then net.explore frames limit v agenda
    else
      let o := net.outlook frames c
      -- what is reached from `c` comes before what was waiting
      net.explore frames limit (v.record c o) (o.next ++ agenda)
termination_by agenda => (limit - v.seen.size, agenda.length)
decreasing_by
  · right
    simp
  · right
    simp
  · left
    have hsize : (v.record c (net.outlook frames c)).seen.size = v.seen.size + 1 := by
      simp [Survey.record, Std.TreeSet.size_insert, _seen]
    omega

/-- The search from a state whose rule runs in a frame. -/
def survey (net : Network) (limit : Nat) (frames : CallStack) (state : StateRef) (frame : FrameRef) :
    Survey :=
  net.explore frames limit {} [{ state, returns := [], base := frame, barred := [] }]

/-- Number of configurations that a search looks at unless told otherwise. -/
def surveyLimit : Nat := 100000

/-- The codes of the tokens that can be read next from a state whose rule runs in a frame. -/
def lookahead (net : Network) (frames : CallStack) (state : StateRef) (frame : FrameRef) :
    Noted TokenSet :=
  let v := net.survey surveyLimit frames state frame
  match v.refused with
  | some refused => .after (.analysisLimit refused surveyLimit) v.look
  | none => pure v.look

/-- The codes of the tokens that can be read next from a state within its own rule. -/
def localLookahead (net : Network) (state : StateRef) : Noted TokenSet :=
  net.lookahead ∅ state none

end Network

end SyntaxRecovery
