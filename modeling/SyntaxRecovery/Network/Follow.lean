import SyntaxRecovery.Network.Lookahead

/-!
# Follow sets

Recovery asks three questions about the grammar (`FollowSource`). A network answers them by search, a
`FollowTable` by answers given beforehand.
-/

set_option autoImplicit false

namespace SyntaxRecovery

/-- What recovery asks about a grammar. -/
class FollowSource (ω : Type) where
  /-- The codes that may come next at a state whose rule runs in a frame. -/
  expected : ω → CallStack → StateRef → FrameRef → Noted TokenSet
  /-- The codes that may come after the rule called from a state, within the calling rule. -/
  afterReturn : ω → StateRef → Noted TokenSet
  /-- The codes that may come after the token expected at a state, if they are known. -/
  afterMatch : ω → CallStack → StateRef → FrameRef → Noted (Option TokenSet) :=
    fun _ _ _ _ => pure none

namespace Network

/-- The codes that may come after the rule called from a state; none if its first edge is no call. -/
def afterReturn (net : Network) (invoking : StateRef) : Noted TokenSet :=
  match net.returnState? invoking with
  | some state => net.localLookahead state
  | none => .after (.noReturnState invoking) ∅

/-- The codes that may come next after one of some edges. -/
def afterEdges (net : Network) (frames : CallStack) (frame : FrameRef) :
    List Edge → TokenSet → Noted TokenSet
  | [], codes => pure codes
  | e :: rest, codes => do
    let next ← net.lookahead frames e.target frame
    net.afterEdges frames frame rest (codes ∪ next)

/-- The codes that may come after a token read on an edge of a state; not known if no edge of the
state reads one. -/
def afterMatch (net : Network) (frames : CallStack) (state : StateRef) (frame : FrameRef) :
    Noted (Option TokenSet) :=
  match net.state? state with
  | none => pure none
  | some s =>
    match s.edges.filter fun e => !e.move.isSilent with
    | [] => pure none
    | edges => some <$> net.afterEdges frames frame edges ∅

instance : FollowSource Network where
  expected := lookahead
  afterReturn := afterReturn
  afterMatch := afterMatch

end Network

/-- Answers given beforehand. -/
structure FollowTable where
  /-- The codes that may come next, wherever the parser is. -/
  expected : TokenSet := ∅
  /-- For some states the codes that may come after the rule called from there; the first entry for
  a state counts, and there are no codes for other states. -/
  returns : List (StateRef × TokenSet) := []
  /-- The codes that may come after an expected token, if they are known. -/
  afterMatch : Option TokenSet := none

namespace FollowTable

/-- The codes that may come after the rule called from a state. -/
def afterReturn (t : FollowTable) (invoking : StateRef) : TokenSet :=
  match t.returns.lookup invoking with
  | some codes => codes
  | none => ∅

instance : FollowSource FollowTable where
  expected t _ _ _ := pure t.expected
  afterReturn t invoking := pure (t.afterReturn invoking)
  afterMatch t _ _ _ := pure t.afterMatch

end FollowTable

end SyntaxRecovery
