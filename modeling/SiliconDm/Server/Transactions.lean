import SiliconDm.Base.ReadCommitted
import SiliconDm.Server.Database

/-!
# The transactions of the message store

Each transaction of `PostgresStore` as the statements it executes, with what the triggers do
inside them. The idempotency claim at the head of most requests is not modelled: `acquired`
says whether the claim was new (a replayed group request still refreshes the roster, a
replayed message request does nothing). Directory anchors, recent GIFs, drafts and Ting
handoffs are written in the same transactions and read by none of these statements.

Sources: `src/infrastructure/postgres/groups.rs:164–434,490–638`, `accounts.rs:554–611`,
`messages.rs:565–761,858–960`, `revisions.rs:60–244`, `delivery.rs:37–48`; triggers in
`migrations/0020_groups.sql:82–180`, `migrations/0025_message_history.sql:27–64` and
`migrations/0040_accounts_partition_behaviour.sql:45–56,141–232`.
-/

namespace SiliconDm.Server

open Base

inductive AppError where
  | notFound
  | refused (code message : String)
  | forbidden (code message : String)
  | conflict (message : String)
  | constraint (message : String)
  deriving DecidableEq, Repr

/-! ### Statements -/

inductive GroupStatement where
  | create
  | lock
  | invite (invitee : ActorRef) (accepted : Bool) (now : Nat)
  | uninvite (actor : ActorRef)
  | accept (actor : ActorRef) (now : Nat)
  | decline (actor : ActorRef)
  | leave (actor : ActorRef)
  | own (actor : ActorRef)
  | disown (actor : ActorRef)
  | requireMember (actor : ActorRef)
  | requireAnOwner
  | sync (now : Nat)
  | anchor (actor : ActorRef) (now : Nat)
  | touch
  deriving DecidableEq, Repr

/-- Statements of `delete_account`; they all name one account. -/
inductive DeletionStatement where
  | mark (occurred : Nat)
  | groups
  | disownAll
  | uninviteAll
  | disown (conversation : Nat) (actor : ActorRef)
  | uninvite (conversation : Nat) (actor : ActorRef)
  | ensureOwner (conversation : Nat)
  | succeed (conversation : Nat)
  | own (conversation : Nat) (actor : ActorRef)
  deriving DecidableEq, Repr

/-- Who changes a message. `revisions.rs:20–30`. -/
inductive Reviser where
  | sender
  | custodianOfSender
  deriving DecidableEq, Repr

/-- Statements that publish a message, an edit, a tombstone or a status. -/
inductive MessageStatement where
  | requireReviser (reviser : Reviser) (edits : Bool)
  | requireParticipant (conversation : Nat) (actor : ActorRef)
  | insert (message conversation : Nat) (sender : ActorRef)
  | original (message conversation : Nat) (actor : ActorRef) (reviser : Reviser)
  | requireNotDeleted (message : Nat)
  | edit (message : Nat) (content : String) (now : Nat)
  | tombstone (message : Nat) (now : Nat)
  | nextRevision (message conversation : Nat)
  | touch (conversation : Nat)
  | fanOut (message conversation revision : Nat)
  | reportStatus (message : Nat) (status : MessageStatus)
  | deliver (target : ActorRef) (ref : DeliveryRef) (conversation : Nat)
  | openStream (target : ActorRef) (legacyHigh : Nat)
  | enqueue (target : ActorRef) (ref : DeliveryRef) (conversation : Nat)
  deriving DecidableEq, Repr

inductive UpkeepStatement where
  | acknowledge (target : ActorRef) (ref : DeliveryRef) (now retainUntil : Nat)
  | compact (now : Nat)
  | expire (target : ActorRef) (ref : DeliveryRef) (now : Nat)
  deriving DecidableEq, Repr

inductive Statement where
  | group (conversation : Nat) (statement : GroupStatement)
  | deletion (uuid : String) (statement : DeletionStatement)
  | message (statement : MessageStatement)
  | lookup (found : AccountLookup) (now : Nat)
  | upkeep (statement : UpkeepStatement)
  deriving DecidableEq, Repr

/-- Checks that deferred constraint triggers make at the commit. -/
inductive Check where
  | messageOutboxComplete (message : Nat)
  | historyOutbox (message : Nat)
  deriving DecidableEq, Repr

abbrev Result : Type :=
  Except AppError (Outcome Statement Check Write Lock)

/-! ### Group statements -/

/-- `INSERT … ON CONFLICT (conversation_id, actor_kind, actor_id) DO UPDATE`: an accepted
invitation stays accepted, and keeps its time. `groups.rs:517–523`. -/
def invitedRow (d : Database) (g : Nat) (invitee : ActorRef) (accepted : Bool) (now : Nat) :
    Invitation :=
  match d.invitation g invitee with
  | none =>
    { conversation := g
      actor := invitee
      status := if accepted then .accepted else .pending
      invitedAt := some now
      acceptedAt := if accepted then some now else none }
  | some row =>
    { row with
      status := if row.status = .accepted || accepted then .accepted else .pending
      acceptedAt := row.acceptedAt.or (if accepted then some now else none) }

def groupStatement (g : Nat) (statement : GroupStatement) (d : Database) : Result :=
  match statement with
  | .create =>
    if (d.conversation g).isSome then .error (.constraint "conversations_pkey")
    else .ok { writes := [.conversation { id := g, isGroup := true, nextMessageSequence := 1 }] }
  | .lock =>
    if d.isGroup g = some true then .ok { locks := [.conversation g] } else .error .notFound
  | .invite invitee accepted now =>
    .ok { writes := [.invitation (invitedRow d g invitee accepted now)] }
  | .uninvite a =>
    .ok { writes := if (d.invitation g a).isSome then [.uninvite g a] else [] }
  | .accept a now =>
    match d.invitation g a with
    | some row =>
      if row.status = .pending then
        .ok { writes := [.invitation { row with status := .accepted, acceptedAt := some now }] }
      else .error (.refused "invitation_not_found" invitationNotFound)
    | none => .error (.refused "invitation_not_found" invitationNotFound)
  | .decline a =>
    if (d.invitation g a).any (·.status = .pending) then .ok { writes := [.uninvite g a] }
    else .error (.refused "invitation_not_found" invitationNotFound)
  | .leave a =>
    if d.member g a then .ok { writes := [.uninvite g a] } else .error .notFound
  | .own a => .ok { writes := if d.owns g a then [] else [.owner ⟨g, a⟩] }
  | .disown a => .ok { writes := if d.owns g a then [.disown ⟨g, a⟩] else [] }
  | .requireMember a =>
    if a ∈ d.eligibleGroupMembers g then .ok {}
    else .error (.refused "not_a_member"
      "Only members who accepted their invitation can become owners.")
  | .requireAnOwner =>
    if d.hasOwner g then .ok {}
    else .error (.refused "last_owner" ("A group always keeps at least one owner. " ++
      "Make another member an owner first (POST /api/v1/groups/\x7bgroup\x7d/owners)."))
  | .sync now =>
    .ok { next := (d.eligibleGroupMembers g).map fun a => .group g (.anchor a now) }
  | .anchor a now =>
    -- the guard trigger locks the conversation before the conflict is looked for
    if (d.conversation g).isSome then
      .ok {
        locks := [.conversation g]
        writes := if d.participants.any fun p => p.conversation = g && p.actor = a then []
          else [.participant { conversation := g, actor := a, addedAt := now }] }
    else .error (.constraint s!"conversation {g} does not exist in organization")
  | .touch => .ok { locks := if (d.conversation g).isSome then [.conversation g] else [] }
where
  invitationNotFound : String :=
    "There is no pending invitation to this group for this account " ++
      "(it may have been accepted, declined or cancelled already)."

/-! ### Account deletion -/

/-- When an eligible member joined: `COALESCE(i.accepted_at, i.invited_at, p.added_at)`.
`groups.rs:631`. -/
def joinedAt (d : Database) (g : Nat) (a : ActorRef) : Option Nat :=
  let invitation := d.invitation g a
  ((invitation.bind (·.acceptedAt)).or (invitation.bind (·.invitedAt))).or
    ((d.participants.find? fun p => p.conversation = g ∧ p.actor = a).map (·.addedAt))

/-- `ORDER BY … NULLS LAST, e.actor_id`: whether `a` comes before `b`. -/
def joinedBefore (d : Database) (g : Nat) (a b : ActorRef) : Bool :=
  match joinedAt d g a, joinedAt d g b with
  | some m, some n => m < n || m = n && a.id < b.id
  | some _, none => true
  | none, some _ => false
  | none, none => a.id < b.id

/-- The first of the eligible members in that order (`LIMIT 1`). -/
def longestStanding (d : Database) (g : Nat) : Option ActorRef :=
  (d.eligibleGroupMembers g).foldl
    (fun first a => match first with
      | none => some a
      | some b => if joinedBefore d g a b then some a else some b) none

/-- The groups an account owns or is invited to. `accounts.rs:591–594`. -/
def groupsOf (d : Database) (uuid : String) : List Nat :=
  (((d.owners.filter (·.actor.id = uuid)).map (·.conversation)) ++
    ((d.invitations.filter (·.actor.id = uuid)).map (·.conversation))).dedup

def deletionStatement (uuid : String) (statement : DeletionStatement) (d : Database) : Result :=
  match statement with
  | .mark occurred => .ok { writes := [.markDeleted uuid occurred] }
  | .groups =>
    .ok { next := .deletion uuid .disownAll :: .deletion uuid .uninviteAll ::
      (groupsOf d uuid).map fun g => .deletion uuid (.ensureOwner g) }
  | .disownAll =>
    .ok { next := (d.owners.filter (·.actor.id = uuid)).map fun o =>
      .deletion uuid (.disown o.conversation o.actor) }
  | .uninviteAll =>
    .ok { next := (d.invitations.filter (·.actor.id = uuid)).map fun i =>
      .deletion uuid (.uninvite i.conversation i.actor) }
  | .disown g a => .ok { writes := if d.owns g a then [.disown ⟨g, a⟩] else [] }
  | .uninvite g a => .ok { writes := if (d.invitation g a).isSome then [.uninvite g a] else [] }
  | .ensureOwner g =>
    .ok { next := if d.hasOwner g then [] else [.deletion uuid (.succeed g)] }
  | .succeed g =>
    .ok { next := ((longestStanding d g).map fun a => .deletion uuid (.own g a)).toList }
  | .own g a => .ok { writes := if d.owns g a then [] else [.owner ⟨g, a⟩] }

/-! ### Messages and deliveries -/

def revisionsOf (d : Database) (m : Nat) : List Nat :=
  d.deliveries.filterMap fun row =>
    match row.ref with
    | .message id revision => if id = m then some revision else none
    | _ => none

/-- `COALESCE(max(…), 0)`. -/
def coalesceMax (xs : List Nat) : Nat :=
  xs.foldr max 0

theorem le_coalesceMax {xs : List Nat} {x : Nat} (h : x ∈ xs) : x ≤ coalesceMax xs := by
  induction xs with
  | nil => cases h
  | cons y ys ih =>
    have hmax : coalesceMax (y :: ys) = max y (coalesceMax ys) := rfl
    rcases List.mem_cons.mp h with rfl | h
    · omega
    · have := ih h
      omega

/-- A new outbox row; the trigger has already taken its sequence. -/
def newDelivery (target : ActorRef) (ref : DeliveryRef) (c sequence : Nat) : Delivery where
  target := target
  ref := ref
  conversation := some c
  sequence := sequence
  attemptCount := 0
  leaseOwner := none
  ackedAt := none
  retainUntil := none
  deadLetteredAt := none

/-- The row that an edit leaves. `revisions.rs:205–208`. -/
def editedHistory (d : Database) (m : Nat) (content : String) (now : Nat) : MessageHistory :=
  match d.history m with
  | none =>
    { message := m
      content := some content
      history := [none]
      updatedAt := some now
      deletedAt := none }
  | some row =>
    { row with
      content := some content
      history := row.history ++ [row.content]
      updatedAt := some now }

/-- The row that a tombstone leaves. `revisions.rs:210–211`. -/
def deletedHistory (d : Database) (m : Nat) (now : Nat) : MessageHistory :=
  match d.history m with
  | none =>
    { message := m
      content := none
      history := []
      updatedAt := none
      deletedAt := some now }
  | some row => { row with deletedAt := some now }

/-- Who may change a message. `revisions.rs:111–126`. -/
def mayRevise (d : Database) (row : Message) (actor : ActorRef) : Reviser → Bool
  | .sender => row.sender = actor
  | .custodianOfSender =>
    row.sender.actorType = .silicon && d.accounts.any fun a =>
      a.uuid = row.sender.id && a.custodianUuid = some actor.id

/-- Write a history row under the lock of its message; the outbox check waits for the commit.
`guard_message_history`, `message_history_outbox`. -/
def historyStatement (d : Database) (row : MessageHistory) : Result :=
  if (d.history row.message).any (·.deletedAt.isSome) then
    .error (.constraint "deleted messages cannot be changed")
  else .ok { writes := [.history row], deferred := [.historyOutbox row.message] }

/-- The rest of `assign_actor_delivery_sequence`, under the lock of the stream: a reference the
target already has consumes no sequence. -/
def enqueueStatement (target : ActorRef) (ref : DeliveryRef) (c : Nat) (d : Database) : Result :=
  match d.stream target with
  | none => .error (.constraint "delivery target actor does not exist")
  | some stream =>
    if d.deliveries.any fun row => row.target = target ∧ row.ref = ref then
      .ok { locks := [.stream target] }
    else
      .ok {
        writes := [.stream { stream with nextSequence := stream.nextSequence + 1 },
          .delivery (newDelivery target ref c stream.nextSequence)] }

def messageStatement (statement : MessageStatement) (d : Database) : Result :=
  match statement with
  | .requireReviser reviser edits =>
    if reviser = .custodianOfSender ∧ edits = true then
      .error (.forbidden "custodian_read_only" ("A custodian may tombstone its Silicon's " ++
        "messages but never edit them: DM never lets anyone write as a Silicon."))
    else .ok {}
  | .requireParticipant c a =>
    if a ∈ d.effectiveParticipants c then .ok {} else .error .notFound
  | .insert m c sender =>
    -- `assign_message_sequence` advances the conversation's counter
    match d.conversation c, d.message m with
    | none, _ => .error (.constraint "conversation does not exist")
    | some _, some _ => .error (.constraint "messages_pkey")
    | some conversation, none =>
      .ok {
        writes := [.advance c,
          .message
            { id := m
              conversation := c
              sender := sender
              sequence := conversation.nextMessageSequence }]
        deferred := [.messageOutboxComplete m] }
  | .original m c actor reviser =>
    match d.message m with
    | none => .error .notFound
    | some row =>
      if row.conversation ≠ c then .error .notFound
      else if mayRevise d row actor reviser then .ok { locks := [.message m] }
      else .error (.forbidden "not_message_sender" ("Only the message's sender can change it " ++
        "(and the custodian of a Silicon can tombstone that Silicon's messages)."))
  | .requireNotDeleted m =>
    if (d.history m).any (·.deletedAt.isSome) then .error (.conflict "message has been deleted")
    else .ok {}
  | .edit m content now => historyStatement d (editedHistory d m content now)
  | .tombstone m now => historyStatement d (deletedHistory d m now)
  | .nextRevision m c =>
    .ok { next := [.message (.touch c),
      .message (.fanOut m c (coalesceMax (revisionsOf d m) + 1))] }
  | .touch c => .ok { locks := if (d.conversation c).isSome then [.conversation c] else [] }
  | .fanOut m c revision =>
    .ok { next := (d.effectiveParticipants c).map fun a =>
      .message (.deliver a (.message m revision) c) }
  | .reportStatus m status =>
    match d.message m with
    | none => .error .notFound
    | some row =>
      .ok {
        locks := [.message m]
        next := [.message (.deliver row.sender (.messageStatus m status) row.conversation)] }
  | .deliver target ref c =>
    let enqueue := Statement.message (.enqueue target ref c)
    match d.stream target with
    | some _ => .ok { next := [enqueue] }
    | none =>
      let legacyHigh := coalesceMax ((d.deliveriesOf target).map (·.sequence))
      .ok { next := [.message (.openStream target legacyHigh), enqueue] }
  | .openStream target legacyHigh =>
    match d.stream target with
    | some _ => .ok {}
    | none =>
      .ok {
        writes := [.stream
          { actor := target, nextSequence := legacyHigh + 1, syncFloor := legacyHigh }] }
  | .enqueue target ref c => enqueueStatement target ref c d

/-- Acknowledged rows may be deleted once their retention has passed. `delivery.rs:38–46`. -/
def Delivery.expired (row : Delivery) (now : Nat) : Bool :=
  row.ackedAt.isSome && row.retainUntil.any (· ≤ now)

def upkeepStatement (statement : UpkeepStatement) (d : Database) : Result :=
  match statement with
  | .acknowledge target ref now retainUntil =>
    .ok { writes := if d.deliveries.any fun row => row.target = target ∧ row.ref = ref then
      [.acknowledge target ref now retainUntil] else [] }
  | .compact now =>
    .ok { next := (d.deliveries.filter (·.expired now)).map fun row =>
      .upkeep (.expire row.target row.ref now) }
  | .expire target ref now =>
    .ok { writes := if d.deliveries.any fun row =>
        row.target = target ∧ row.ref = ref ∧ row.expired now = true
      then [.expire target ref] else [] }

/-- Record a lookup. `accounts.rs:189–240`. -/
def lookupStatement (found : AccountLookup) (now : Nat) (d : Database) : Result :=
  match recordLookup d.accounts found now with
  | .ok _ => .ok { writes := [.lookup found now] }
  | .error (.constraint name) => .error (.constraint name)
  | .error (.invalidWebhookBody message) => .error (.constraint message)

def Statement.exec (statement : Statement) (d : Database) : Result :=
  match statement with
  | .group g statement => groupStatement g statement d
  | .deletion uuid statement => deletionStatement uuid statement d
  | .message statement => messageStatement statement d
  | .lookup found now => lookupStatement found now d
  | .upkeep statement => upkeepStatement statement d

/-! ### Deferred checks -/

/-- A message delivery that nobody has claimed, acknowledged or given up. -/
def Delivery.pristine (row : Delivery) (m : Nat) : Bool :=
  (match row.ref with
    | .message id _ => id = m
    | _ => false) &&
    row.attemptCount = 0 && row.leaseOwner.isNone && row.ackedAt.isNone &&
    row.deadLetteredAt.isNone

/-- `assert_message_outbox_complete`: every participant but the sender has a pristine delivery.
`migrations/0020_groups.sql:139–180`. -/
def messageOutboxComplete (d : Database) (m : Nat) : Bool :=
  (d.message m).all fun row =>
    (d.effectiveParticipants row.conversation).all fun a =>
      a = row.sender || d.deliveries.any fun delivery =>
        delivery.target = a && delivery.pristine m

/-- `enforce_history_outbox`: every participant has a delivery of the latest revision that this
transaction inserted. `migrations/0025_message_history.sql:27–43`. -/
def historyOutbox (d : Database) (written : List Write) (m : Nat) : Bool :=
  let latest := coalesceMax (revisionsOf d m)
  (d.message m).all fun row =>
    (d.effectiveParticipants row.conversation).all fun a =>
      d.deliveries.any fun delivery =>
        delivery.target = a && delivery.ref = .message m latest && .delivery delivery ∈ written

def Check.holds (check : Check) (written : List Write) (d : Database) : Bool :=
  match check with
  | .messageOutboxComplete m => Server.messageOutboxComplete d m
  | .historyOutbox m => Server.historyOutbox d written m

/-! ### Transactions -/

structure Invitee where
  actor : ActorRef
  accepted : Bool
  deriving DecidableEq, Repr

/-- The requests that run a transaction. `resyncGroup` is a replayed `create_group`. -/
inductive Task where
  | createGroup (group : Nat) (creator : ActorRef) (invitees : List Invitee) (now : Nat)
  | resyncGroup (group now : Nat)
  | inviteToGroup (group : Nat) (invitees : List Invitee) (acquired : Bool) (now : Nat)
  | removeFromGroup (group : Nat) (members : List ActorRef) (acquired : Bool) (now : Nat)
  | respondToInvitation (group : Nat) (invitee : ActorRef) (accept : Bool) (now : Nat)
  | leaveGroup (group : Nat) (member : ActorRef) (now : Nat)
  | setGroupOwners (group : Nat) (members : List ActorRef) (promote acquired : Bool) (now : Nat)
  | deleteAccount (uuid : String) (occurred : Nat)
  | recordLookup (found : AccountLookup) (now : Nat)
  | sendMessage (message conversation : Nat) (sender : ActorRef)
  | reviseMessage (message conversation : Nat) (actor : ActorRef) (reviser : Reviser)
      (content : Option String) (now : Nat)
  | reportStatus (message : Nat) (status : MessageStatus)
  | acknowledge (target : ActorRef) (ref : DeliveryRef) (now retainUntil : Nat)
  | compactDeliveryState (now : Nat)
  deriving DecidableEq, Repr

/-- `invitees.dedup_by(|a, b| a.actor == b.actor)` after sorting: the first of each account. -/
def dedupInvitees : List Invitee → List Invitee
  | [] => []
  | i :: is => i :: (dedupInvitees is).filter (·.actor ≠ i.actor)

def inviteIn (invitees : List Invitee) (now : Nat) : List GroupStatement :=
  invitees.map fun i => .invite i.actor i.accepted now

/-- `finish_group`: anchor the new members, then touch the conversation. `groups.rs:582–590`. -/
def finishGroup (now : Nat) : List GroupStatement :=
  [.sync now, .touch]

/-- A group request behind an idempotency key: a replay only finishes. -/
def claimed (acquired : Bool) (body : List GroupStatement) (now : Nat) : List GroupStatement :=
  .lock :: (if acquired then body else []) ++ finishGroup now

/-- `groups.rs:164–219`. -/
def createGroup (creator : ActorRef) (invitees : List Invitee) (now : Nat) :
    List GroupStatement :=
  let invitees := dedupInvitees (invitees.filter (·.actor ≠ creator))
  [.create, .own creator] ++ inviteIn (⟨creator, true⟩ :: invitees) now ++ [.sync now]

/-- `groups.rs:294–326`. -/
def removeFromGroup (members : List ActorRef) : List GroupStatement :=
  (members.flatMap fun a => [.uninvite a, .disown a]) ++ [.requireAnOwner]

/-- `groups.rs:328–358`. -/
def respondToInvitation (invitee : ActorRef) (accept : Bool) (now : Nat) :
    List GroupStatement :=
  .lock :: (if accept then .accept invitee now else .decline invitee) :: finishGroup now

/-- `groups.rs:364–382`. -/
def leaveGroup (member : ActorRef) (now : Nat) : List GroupStatement :=
  [.lock, .leave member, .disown member, .requireAnOwner] ++ finishGroup now

/-- `groups.rs:388–434`. -/
def setGroupOwners (members : List ActorRef) (promote : Bool) : List GroupStatement :=
  (members.flatMap fun a => if promote then [.requireMember a, .own a] else [.disown a]) ++
    [.requireAnOwner]

/-- `revisions.rs:62–236`. -/
def reviseMessage (m c : Nat) (actor : ActorRef) (reviser : Reviser) (content : Option String)
    (now : Nat) : List MessageStatement :=
  [.requireReviser reviser content.isSome, .original m c actor reviser, .requireNotDeleted m,
    match content with
    | some content => .edit m content now
    | none => .tombstone m now,
    .nextRevision m c]

def Task.code : Task → List Statement
  | .createGroup g creator invitees now => (Server.createGroup creator invitees now).map (.group g)
  | .resyncGroup g now => [.group g (.sync now)]
  | .inviteToGroup g invitees acquired now =>
    (claimed acquired (inviteIn invitees now) now).map (.group g)
  | .removeFromGroup g members acquired now =>
    (claimed acquired (Server.removeFromGroup members) now).map (.group g)
  | .respondToInvitation g invitee accept now =>
    (Server.respondToInvitation invitee accept now).map (.group g)
  | .leaveGroup g member now => (Server.leaveGroup member now).map (.group g)
  | .setGroupOwners g members promote acquired now =>
    (claimed acquired (Server.setGroupOwners members promote) now).map (.group g)
  | .deleteAccount uuid occurred => [.deletion uuid (.mark occurred), .deletion uuid .groups]
  | .recordLookup found now => [.lookup found now]
  | .sendMessage m c sender =>
    [.message (.requireParticipant c sender), .message (.insert m c sender),
      .message (.fanOut m c 1)]
  | .reviseMessage m c actor reviser content now =>
    (Server.reviseMessage m c actor reviser content now).map .message
  | .reportStatus m status => [.message (.reportStatus m status)]
  | .acknowledge target ref now retainUntil => [.upkeep (.acknowledge target ref now retainUntil)]
  | .compactDeliveryState now => [.upkeep (.compact now)]

def store : Language Database Statement Check Write Lock Task where
  apply := Write.apply
  key := Write.key
  code := Task.code
  exec statement d := (statement.exec d).toOption
  holds := Check.holds

/-- All runs of the store over one of the given databases. -/
def server (initial : Database → Prop) :
    System (Sessions Database Statement Check Write Lock Task) (Action Task) :=
  store.sessions initial

abbrev Open : Type := Transaction Database Statement Check Write Lock Task

def directDatabase : Database :=
  { Database.empty with
    conversations := [⟨1, false, 1⟩]
    participants := [⟨1, ⟨.carbon, "ada"⟩, 0⟩, ⟨1, ⟨.silicon, "bot"⟩, 0⟩] }

end SiliconDm.Server
