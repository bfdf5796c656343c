import SiliconDm.Base.Fallible
import SiliconDm.Base.Handler
import SiliconDm.Base.Numeral
import SiliconDm.Base.PointerJump
import SiliconDm.Base.ReadCommitted
import SiliconDm.Base.SelfDelimiting
import SiliconDm.Base.Serial
import SiliconDm.Base.System
import SiliconDm.Base.Table
import SiliconDm.Client.Order
import SiliconDm.Client.Profile
import SiliconDm.Client.Queue
import SiliconDm.Client.Refresh
import SiliconDm.Client.Relay
import SiliconDm.Client.Resend
import SiliconDm.Client.Rotation
import SiliconDm.Client.SentAs
import SiliconDm.Client.SignIn
import SiliconDm.Client.Terminal
import SiliconDm.Link.Canonical
import SiliconDm.Link.CanonicalRuns
import SiliconDm.Link.Links
import SiliconDm.Link.Mapping
import SiliconDm.Link.OneCanonical
import SiliconDm.Link.CanonicalCalls
import SiliconDm.Link.ParticipantSet
import SiliconDm.Link.Readable
import SiliconDm.Link.Run
import SiliconDm.Link.Steps
import SiliconDm.Link.Supersession
import SiliconDm.Protocol.Codes
import SiliconDm.Server.Accounts
import SiliconDm.Server.Addresses
import SiliconDm.Server.Authority
import SiliconDm.Server.Backend
import SiliconDm.Server.Claims
import SiliconDm.Server.ContactBudget
import SiliconDm.Server.Custody
import SiliconDm.Server.Database
import SiliconDm.Server.Deletion
import SiliconDm.Server.Directs
import SiliconDm.Server.ExactlyOnce
import SiliconDm.Server.FanOut
import SiliconDm.Server.FirstContact
import SiliconDm.Server.Footprint
import SiliconDm.Server.Handoffs
import SiliconDm.Server.HandoffRuns
import SiliconDm.Server.IdCache
import SiliconDm.Server.IdHistory
import SiliconDm.Server.Idempotency
import SiliconDm.Server.Identity
import SiliconDm.Server.Management
import SiliconDm.Server.Mutations
import SiliconDm.Server.Ownership
import SiliconDm.Server.Proofs
import SiliconDm.Server.Redelivery
import SiliconDm.Server.Removal
import SiliconDm.Server.Repeats
import SiliconDm.Server.Retried
import SiliconDm.Server.Roster
import SiliconDm.Server.Selectors
import SiliconDm.Server.SignOut
import SiliconDm.Server.Standing
import SiliconDm.Server.Steady
import SiliconDm.Server.Streams
import SiliconDm.Server.Sync
import SiliconDm.Server.Ting
import SiliconDm.Server.Transactions
import SiliconDm.Server.Walk
import SiliconDm.Server.Webhook
import SiliconDm.Server.Writing
import SiliconDm.Server.MessageContent
import SiliconDm.Server.Storage
import SiliconDm.Server.Sending
import SiliconDm.Server.Routes
import SiliconDm.Server.Recipients
import SiliconDm.Server.Passes
import SiliconDm.Server.PassRuns
import SiliconDm.Server.WaitingHandoffs
import SiliconDm.Client.Lanes
import SiliconDm.Server.History
import SiliconDm.Server.Expansion
import SiliconDm.Server.Drafts
import SiliconDm.Server.Receipts
import SiliconDm.Server.ProofTokens
import SiliconDm.Server.Leases
