import SyntaxRecovery.LogFormat
import SyntaxRecovery.Network.Construction
import SyntaxRecovery.Parser
import SyntaxRecovery.Recovery.Settings.Reader
import SyntaxRecovery.Proofs.Lookahead.Search
import SyntaxRecovery.Proofs.Network.Links
import SyntaxRecovery.Proofs.Lookahead.OpenRules
import SyntaxRecovery.Proofs.Lookahead.Exactness
import SyntaxRecovery.Proofs.CallStack.Chain
import SyntaxRecovery.Proofs.Recovery.FollowCover
import SyntaxRecovery.Proofs.Recovery.Motion
import SyntaxRecovery.Proofs.Recovery.Progress
import SyntaxRecovery.Proofs.Recovery.Repeats
import SyntaxRecovery.Proofs.Lookahead.Places
import SyntaxRecovery.Proofs.Lookahead.Frames
import SyntaxRecovery.Proofs.Lookahead.Calls
import SyntaxRecovery.Proofs.Recovery.Landing
import SyntaxRecovery.Proofs.Recovery.Episodes
import SyntaxRecovery.Proofs.Recovery.Repairs
import SyntaxRecovery.Proofs.TokenSet.History
import SyntaxRecovery.Proofs.Recovery.Insertion
import SyntaxRecovery.Proofs.Recovery.Deliveries
import SyntaxRecovery.Proofs.Lookahead.Turns
import SyntaxRecovery.Proofs.Lookahead.Bounds
import SyntaxRecovery.Proofs.Recovery.Discipline
import SyntaxRecovery.Proofs.TokenStream.Endless
import SyntaxRecovery.Proofs.Lookahead.Readers
import SyntaxRecovery.Proofs.Recovery.Deletion
import SyntaxRecovery.Proofs.Recovery.Draining
import SyntaxRecovery.Proofs.Recovery.AfterMatch
import SyntaxRecovery.Proofs.Recovery.Acceptance
import SyntaxRecovery.Proofs.Lookahead.EdgeOrder
import SyntaxRecovery.Proofs.TokenSet.Equality
import SyntaxRecovery.Proofs.Network.Coherence
import SyntaxRecovery.Proofs.Recovery.FirstStop
import SyntaxRecovery.Proofs.CallStack.OpenCalls
import SyntaxRecovery.Proofs.Reference.LastPlace
import SyntaxRecovery.Proofs.Recovery.Nesting
import SyntaxRecovery.Proofs.Message.Scan
import SyntaxRecovery.Proofs.Message.Slices
import SyntaxRecovery.Proofs.TokenSet.Enumeration
import SyntaxRecovery.Proofs.Message.Summary
import SyntaxRecovery.Proofs.Json.Strings
import SyntaxRecovery.Proofs.Json.Values
import SyntaxRecovery.Proofs.Settings.Overlay
import SyntaxRecovery.Proofs.Settings.Members
import SyntaxRecovery.Proofs.Settings.RoundTrip
import SyntaxRecovery.Proofs.TokenSet.Rendering
import SyntaxRecovery.Proofs.Lookahead.Descent
import SyntaxRecovery.Proofs.Lookahead.InPlace
