import SiliconDm.Server.Accounts

/-!
# The tables behind conversations, groups and the delivery outbox

Rows, the views `eligible_group_members` and `effective_conversation_participants`, and the row
writes that statements make. Every row of one conversation carries the conversation's storage
partition (composite foreign keys), so `organization_id` is left out here; of the delivery
streams only the accounts' own ones, in the `@accounts` partition, are read or written. Sources:
`migrations/0020_groups.sql:6–25`, `migrations/0039_accounts_identity.sql:103–134,162–166`,
`migrations/0040_accounts_partition_behaviour.sql:21–56`,
`migrations/0003_delivery_presence_and_idempotency.sql:70–95`.
-/

namespace SiliconDm.Server

open Base

/-- An account as the tables name it. `src/domain/actor.rs`. -/
structure ActorRef where
  actorType : ActorType
  id : String
  deriving DecidableEq, Repr

/-- A direct conversation, or the conversation of a group (`dm.groups` has one row for it). -/
structure Conversation where
  id : Nat
  isGroup : Bool
  nextMessageSequence : Nat
  deriving DecidableEq, Repr

/-- A roster anchor: the account took part at some time. Anchors are never removed. -/
structure Participant where
  conversation : Nat
  actor : ActorRef
  addedAt : Nat
  deriving DecidableEq, Repr

structure Owner where
  conversation : Nat
  actor : ActorRef
  deriving DecidableEq, Repr

inductive InvitationStatus where
  | pending
  | accepted
  deriving DecidableEq, Repr

/-- An invitation; an accepted one is a membership. -/
structure Invitation where
  conversation : Nat
  actor : ActorRef
  status : InvitationStatus
  invitedAt : Option Nat
  acceptedAt : Option Nat
  deriving DecidableEq, Repr

def Invitation.key (i : Invitation) : Nat × ActorRef :=
  (i.conversation, i.actor)

structure Message where
  id : Nat
  conversation : Nat
  sender : ActorRef
  sequence : Nat
  deriving DecidableEq, Repr

/-- Edits and the deletion of a message: its current content when it was edited, and the
contents that were replaced (`none` is the original). `migrations/0025_message_history.sql`. -/
structure MessageHistory where
  message : Nat
  content : Option String
  history : List (Option String)
  updatedAt : Option Nat
  deletedAt : Option Nat
  deriving DecidableEq, Repr

inductive MessageStatus where
  | waiting
  | sent
  | delivered
  | read
  | failed
  deriving DecidableEq, Repr

/-- What a delivery refers to, by its `delivery_kind`. One target has at most one delivery of a
reference (three partial unique indexes). -/
inductive DeliveryRef where
  | message (id revision : Nat)
  | messageStatus (id : Nat) (status : MessageStatus)
  | systemEvent (id : Nat)
  deriving DecidableEq, Repr

structure Delivery where
  target : ActorRef
  ref : DeliveryRef
  conversation : Option Nat
  sequence : Nat
  attemptCount : Nat
  leaseOwner : Option String
  ackedAt : Option Nat
  retainUntil : Option Nat
  deadLetteredAt : Option Nat
  deriving DecidableEq, Repr

/-- The delivery stream of an account: sequences above `syncFloor` and below `nextSequence` are
its own. -/
structure Stream where
  actor : ActorRef
  nextSequence : Nat
  syncFloor : Nat
  deriving DecidableEq, Repr

structure Database where
  accounts : List Account
  conversations : List Conversation
  participants : List Participant
  owners : List Owner
  invitations : List Invitation
  messages : List Message
  histories : List MessageHistory
  deliveries : List Delivery
  streams : List Stream

namespace Database

def empty : Database where
  accounts := []
  conversations := []
  participants := []
  owners := []
  invitations := []
  messages := []
  histories := []
  deliveries := []
  streams := []

variable (d : Database)

def deleted (uuid : String) : Bool :=
  isDeleted d.accounts uuid

def conversation (c : Nat) : Option Conversation :=
  getRow Conversation.id d.conversations c

def isGroup (c : Nat) : Option Bool :=
  (d.conversation c).map (·.isGroup)

def invitation (c : Nat) (a : ActorRef) : Option Invitation :=
  getRow Invitation.key d.invitations (c, a)

def message (m : Nat) : Option Message :=
  getRow Message.id d.messages m

def history (m : Nat) : Option MessageHistory :=
  getRow MessageHistory.message d.histories m

def stream (a : ActorRef) : Option Stream :=
  getRow Stream.actor d.streams a

/-- The account accepted its invitation. -/
def member (c : Nat) (a : ActorRef) : Bool :=
  (d.invitation c a).any (·.status = .accepted)

def owns (c : Nat) (a : ActorRef) : Bool :=
  ⟨c, a⟩ ∈ d.owners

/-- The view `eligible_group_members`, for one group. -/
def eligibleGroupMembers (c : Nat) : List ActorRef :=
  (d.invitations.filter fun i =>
    i.conversation = c && i.status = .accepted && !d.deleted i.actor.id).map (·.actor)

/-- The view `effective_conversation_participants`, for one conversation. -/
def effectiveParticipants (c : Nat) : List ActorRef :=
  match d.isGroup c with
  | none => []
  | some group =>
    (d.participants.filter fun p =>
      p.conversation = c && (!group || p.actor ∈ d.eligibleGroupMembers c) &&
        !d.deleted p.actor.id).map (·.actor)

/-- Some owner of the group still has an account: the condition of `require_an_owner` and of
`ensure_owner_in`. `groups.rs:594–597,614–617`. -/
def hasOwner (c : Nat) : Bool :=
  d.owners.any fun o => o.conversation = c && !d.deleted o.actor.id

def deliveriesOf (a : ActorRef) : List Delivery :=
  d.deliveries.filter (·.target = a)

end Database

/-! ### Writes -/

/-- A row that a statement inserts, changes or deletes. Account rows are written by the two
upserts of `Accounts`, which say themselves what they do to an existing row; `advance` takes
the next message sequence of a conversation. -/
inductive Write where
  | markDeleted (uuid : String) (occurred : Nat)
  | lookup (found : AccountLookup) (now : Nat)
  | conversation (row : Conversation)
  | advance (conversation : Nat)
  | participant (row : Participant)
  | owner (row : Owner)
  | disown (row : Owner)
  | invitation (row : Invitation)
  | uninvite (conversation : Nat) (actor : ActorRef)
  | message (row : Message)
  | history (row : MessageHistory)
  | stream (row : Stream)
  | delivery (row : Delivery)
  | acknowledge (target : ActorRef) (ref : DeliveryRef) (now retainUntil : Nat)
  | expire (target : ActorRef) (ref : DeliveryRef)
  deriving DecidableEq, Repr

def Write.apply (d : Database) : Write → Database
  | .markDeleted uuid occurred =>
    { d with accounts := Server.markDeleted d.accounts uuid occurred }
  | .lookup found now =>
    { d with accounts := (recordLookup d.accounts found now).toOption.getD d.accounts }
  | .conversation row => { d with conversations := d.conversations ++ [row] }
  | .advance c =>
    { d with
      conversations := d.conversations.map fun row =>
        if row.id = c then { row with nextMessageSequence := row.nextMessageSequence + 1 }
        else row }
  | .participant row => { d with participants := d.participants ++ [row] }
  | .owner row => { d with owners := d.owners ++ [row] }
  | .disown row => { d with owners := d.owners.filter (· ≠ row) }
  | .invitation row => { d with invitations := put Invitation.key row d.invitations }
  | .uninvite c a => { d with invitations := d.invitations.filter (·.key ≠ (c, a)) }
  | .message row => { d with messages := d.messages ++ [row] }
  | .history row => { d with histories := put MessageHistory.message row d.histories }
  | .stream row => { d with streams := put Stream.actor row d.streams }
  | .delivery row => { d with deliveries := d.deliveries ++ [row] }
  | .acknowledge target ref now retainUntil =>
    { d with
      deliveries := d.deliveries.map fun row =>
        if row.target = target ∧ row.ref = ref then
          { row with ackedAt := some now, retainUntil := some retainUntil }
        else row }
  | .expire target ref =>
    { d with deliveries := d.deliveries.filter fun row => (row.target, row.ref) ≠ (target, ref) }

/-- What a row lock is held on. Anchors are inserted under the lock of their conversation
(`guard_conversation_participant_insert`) and histories under the lock of their message
(`guard_message_history`), so these rows have no lock of their own. -/
inductive Lock where
  | account (uuid : String)
  | conversation (id : Nat)
  | owner (conversation : Nat) (actor : ActorRef)
  | invitation (conversation : Nat) (actor : ActorRef)
  | message (id : Nat)
  | stream (actor : ActorRef)
  | delivery (target : ActorRef) (ref : DeliveryRef)
  deriving DecidableEq, Repr

/-- The lock a write needs. -/
def Write.key : Write → Lock
  | .markDeleted uuid _ => .account uuid
  | .lookup found _ => .account found.uuid
  | .conversation row => .conversation row.id
  | .advance c => .conversation c
  | .participant row => .conversation row.conversation
  | .owner row => .owner row.conversation row.actor
  | .disown row => .owner row.conversation row.actor
  | .invitation row => .invitation row.conversation row.actor
  | .uninvite c a => .invitation c a
  | .message row => .message row.id
  | .history row => .message row.message
  | .stream row => .stream row.actor
  | .delivery row => .delivery row.target row.ref
  | .acknowledge target ref _ _ => .delivery target ref
  | .expire target ref => .delivery target ref

end SiliconDm.Server
