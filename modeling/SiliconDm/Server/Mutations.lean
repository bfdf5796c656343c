import SiliconDm.Server.Backend

/-!
# Requests that change something

The twenty requests of the relay that the service answers with a change: what each resolves and
checks, its transactions, and what it reads back.

Sources: `src/api/access.rs:20–227`, `extract.rs:141–202`, `groups.rs:57–287`, `me.rs:96–184`,
`handlers.rs:50–432`, `sync.rs:205–223`; `src/application/accounts.rs:254–374`;
`src/infrastructure/postgres/groups.rs:164–434`, `conversations.rs:67–362`,
`messages.rs:171–515`, `revisions.rs:60–244`, `drafts.rs:80–274`, `bundles.rs:68–220`,
`allow_list.rs:58–103`, `http_presence.rs:60–240`.
-/

namespace SiliconDm.Server

open Base Management

/-! ### Requests -/

/-- Who calls, with which app's proof if not with its own sign-in, and from which device. -/
structure Caller where
  actor : ActorRef
  issuingApp : Option String
  device : String
  deriving DecidableEq, Repr

/-- What a conversation path names once its ids are resolved: a conversation (its uuid or group
id), the two accounts of a direct address, or one recipient. -/
inductive Target where
  | conversation (id : Nat)
  | accounts (first second : String)
  | recipient (uuid : String)
  deriving DecidableEq, Repr

structure ConversationPath where
  text : String
  target : Target
  deriving DecidableEq, Repr

/-- The operations of the relay that change backend state. Accounts and groups are named by the
keys their ids resolve to. `relay.rs:12–183`. -/
inductive Mutation where
  | createGroup (settings : Settings) (members : List String) (key : String)
  | updateGroup (group : Nat) (settings : Settings) (version : Int) (key : String)
  | inviteGroupMembers (group : Nat) (members : List String) (key : String)
  | removeGroupMembers (group : Nat) (members : List String) (key : String)
  | addGroupOwners (group : Nat) (members : List String) (key : String)
  | removeGroupOwners (group : Nat) (members : List String) (key : String)
  | acceptInvitation (group : Nat)
  | declineInvitation (group : Nat) (forAccount : Option String)
  | leaveGroup (group : Nat)
  | allow (accounts : List String) (forAccount : Option String)
  | disallow (accounts : List String) (forAccount : Option String)
  | createConversation (participants : List String) (key : String)
  | sendMessage (path : ConversationPath) (content key : String)
  | editMessage (path : ConversationPath) (message : Nat) (content key : String)
  | deleteMessage (path : ConversationPath) (message : Nat) (key : String)
  | receipt (path : ConversationPath) (message : Nat) (status : ReceiptStatus) (device : String)
  | putDraft (path : ConversationPath) (content : String) (version : Int)
  | deleteDraft (path : ConversationPath)
  | createBundle (path : ConversationPath) (messages : List Nat) (display key : String)
  | setPresence (activity : Option Activity)
  deriving DecidableEq, Repr

/-- The resource that an answer renders. -/
inductive Rendered where
  | conversation (id : Nat)
  | group (id : Nat)
  | declined (group : Nat)
  | left (group : Nat)
  | allowList (silicon : String)
  | message (id : Nat)
  | draft (conversation version : Nat)
  | draftDeleted
  | bundle (id : Nat)
  | lease (leaseExpiresAt : Nat) (activityExpiresAt : Option Nat)
  deriving DecidableEq, Repr

structure Moment where
  now : Nat
  conversationId : Nat
  messageId : Nat
  bundleId : Nat
  deriving DecidableEq, Repr

/-- What an idempotency key is bound to. -/
inductive Hashed where
  | group (settings : Settings) (invitees : List Invitee)
  | update (group : Nat) (settings : Settings) (version : Int)
  | invitees (group : Nat) (invitees : List Invitee)
  | members (group : Nat) (members : List ActorRef)
  | participants (participants : List ActorRef)
  | message (conversation : Nat) (content : String)
  | revision (message conversation : Nat) (content : Option String)
  | bundle (conversation : Nat) (messages : List Nat) (display : String)
  deriving DecidableEq, Repr

structure Deployment where
  requestHash : Hashed → Nat
  heartbeatTimeout : Nat
  activityTtl : Nat

def Account.actor (a : Account) : ActorRef :=
  ⟨a.kind, a.uuid⟩

def Account.displayId (a : Account) : String :=
  a.currentId.getD a.uuid

namespace Backend

def require (p : Bool) (otherwise : Refusal) : Except Refusal Unit :=
  if p then .ok () else .error otherwise

/-- A check of `Management` or `Writing`. -/
def lift {α : Type} : Except AppError α → Except Refusal α
  | .ok a => .ok a
  | .error e => .error e.refusal

/-- `require_own_session`. -/
def ownSession (caller : Caller) (what : String) : Except Refusal Unit :=
  lift (requireOwnSession caller.issuingApp what)

/-! ### Accounts -/

/-- The account a selector names. `application/accounts.rs:254–334`. -/
def resolve (accounts : List Account) (uuid : String) : Except Refusal Account :=
  match account accounts uuid with
  | none => .error (.accountNotFound uuid)
  | some row => if row.status = .deleted then .error (.accountDeleted uuid) else .ok row

/-- An account that is named twice counts once. `application/accounts.rs:292–309`. -/
def resolveAll (accounts : List Account) (uuids : List String) : Except Refusal (List Account) :=
  uuids.foldlM (fun known uuid => do
    let row ← resolve accounts uuid
    .ok (if known.any (·.uuid = row.uuid) then known else known ++ [row])) []

/-- `api/groups.rs:252–259`. -/
def resolveMembers (accounts : List Account) (uuids : List String) :
    Except Refusal (List Account) := do
  require (!uuids.isEmpty && uuids.length ≤ 100)
    (.validation "member_ids must name 1 to 100 accounts per request")
  resolveAll accounts uuids

/-- `postgres/accounts.rs:451–466`. -/
def mayReachSilicon (b : Backend) (silicon other : String) : Bool :=
  b.db.accounts.any fun s => s.uuid = silicon &&
    (s.uuid = other || s.custodianUuid = some other ||
      (b.db.accounts.any fun o => o.uuid = other && o.kind = .silicon &&
        o.custodianUuid.isSome && o.custodianUuid = s.custodianUuid) ||
      b.allowances.any fun a => a.silicon = s.uuid && a.allowed.id = other)

def custodianName (b : Backend) (target : Account) : String :=
  ((target.custodianUuid.bind fun uuid => (account b.db.accounts uuid).bind (·.currentId)).map
    ("its custodian " ++ ·)).getD "its custodian"

/-- `application/accounts.rs:341–374`. -/
def requireMayReach (b : Backend) (who : ActorRef) (target : Account) : Except Refusal Unit :=
  if target.kind ≠ .silicon || target.uuid = who.id then .ok ()
  else require (b.mayReachSilicon target.uuid who.id)
    (.forbidden "contact_not_allowed" (s!"{target.displayId} only accepts new conversations " ++
      "and invitations from its custodian, the custodian's other Silicons and accounts it has " ++
      s!"allowed. Ask {target.displayId} (`dm allow add <your id>`) or {b.custodianName target} " ++
      "(DM website, Silicons) to allow you first."))

/-- `api/groups.rs:263–287`. -/
def invitees (b : Backend) (actor : ActorRef) (uuids : List String) :
    Except Refusal (List Invitee) :=
  if uuids.isEmpty then .ok []
  else do
    let accounts ← resolveMembers b.db.accounts uuids
    accounts.mapM fun row => do
      require (row.status ≠ .deleted) (.accountDeleted row.displayId)
      b.requireMayReach actor row
      .ok { actor := row.actor, accepted := row.custodianUuid = some actor.id }

/-- The Silicon of `?for=`, if the caller looks after it. `handlers.rs:52–74`. -/
def lookedAfter (accounts : List Account) (caller : Caller) (selector : String) :
    Except Refusal ActorRef := do
  ownSession caller "Acting as a Silicon's custodian"
  let row ← resolve accounts selector
  if row.uuid = caller.actor.id then .ok caller.actor
  else if row.kind ≠ .silicon || row.custodianUuid ≠ some caller.actor.id then
    .error (.forbidden "not_custodian" (s!"You are not the custodian of {row.displayId}; `for` " ++
      "only works for Silicons you look after."))
  else .ok row.actor

def actsFor (accounts : List Account) (caller : Caller) : Option String → Except Refusal ActorRef
  | none => .ok caller.actor
  | some selector => lookedAfter accounts caller selector

/-! ### Conversations and groups by their path -/

def access (caller : ActorRef) (c : Nat) (b : Backend) : Except Refusal ConversationAccess :=
  match b.db.conversationAccess caller c with
  | some a => .ok a
  | none => .error .notFound

/-- `access.rs:55–84`. -/
def resolveGroupPath (caller : ActorRef) (g : Nat) (b : Backend) :
    Except Refusal ConversationAccess := do
  require (b.db.isGroup g = some true) .notFound
  access caller g b

/-- Two participant sets have one hash. -/
def sameSet (x y : List ActorRef) : Bool :=
  x.all (· ∈ y) && y.all (· ∈ x)

/-- `conversations.rs:156–171`. -/
def canonicalDirect (b : Backend) (participants : List ActorRef) : Option Nat :=
  (b.directs.find? fun row =>
    sameSet row.participants participants && (b.supersededBy.lookup row.conversation).isNone).map
    (·.conversation)

def hour : Nat := 3600000

/-- `conversations.rs:177–188`. -/
def startedLastHour (b : Backend) (actor : ActorRef) (now : Nat) : Nat :=
  b.directs.countP fun row => row.createdBy = actor && now < row.createdAt + hour

def firstContactsPerHour : Nat := 100

/-- The rows of a new direct conversation; nothing supersedes it. `conversations.rs:326–360`. -/
def insertDirect (e : Moment) (creator : ActorRef) (participants : List ActorRef) (b : Backend) :
    Backend :=
  { b with
    db := { b.db with
      conversations := b.db.conversations ++ [⟨e.conversationId, false, 1⟩]
      participants := b.db.participants ++ participants.map (⟨e.conversationId, ·, e.now⟩) }
    directs := b.directs ++ [⟨e.conversationId, participants, creator, e.now⟩]
    supersededBy := b.supersededBy.filter (·.1 ≠ e.conversationId)
    updatedAt := Function.update b.updatedAt e.conversationId e.now }

/-- `canonical_or_insert_in`. `conversations.rs:305–362`. -/
def canonicalOrInsert (e : Moment) (creator : ActorRef) (participants : List ActorRef) :
    Transact Nat := do
  match ← query fun b => .ok (b.canonicalDirect participants) with
  | some id => pure id
  | none =>
    query fun b => require (b.db.conversation e.conversationId).isNone
      (constraintRefusal "conversations_pkey")
    write (insertDirect e creator participants)
    pure e.conversationId

/-- `create_conversation` up to its commit. `conversations.rs:73–131`. -/
def createConversation (d : Deployment) (e : Moment) (creator : ActorRef)
    (participants : List ActorRef) (key : String) : Transact Nat := do
  let participants := participants.dedup
  query fun _ => require (2 ≤ participants.length)
    (.validation "a conversation requires at least two unique participants")
  query fun _ => require (participants.length ≤ 100)
    (.validation "a conversation may contain at most 100 unique participants")
  keyed e.now ⟨creator, "conversations.create", key⟩ (d.requestHash (.participants participants))
    (canonicalOrInsert e creator participants) fun _ => pure ()

/-- `get_conversation`. `conversations.rs:424–443`. -/
def getConversation (viewer : ActorRef) (c : Nat) (b : Backend) : Except Refusal Rendered :=
  match b.db.conversationAccess viewer c with
  | some .participant | some .custodian => .ok (.conversation c)
  | _ => .error .notFound

/-- The reach rules for a conversation that does not exist yet. `access.rs:181–203`. -/
def requireFirstContact (e : Moment) (actor : ActorRef) (others : List Account) (b : Backend) :
    Except Refusal Unit := do
  others.forM fun other => do
    require (other.status ≠ .deleted) (.accountDeleted other.displayId)
    b.requireMayReach actor other
  require (b.startedLastHour actor e.now < firstContactsPerHour)
    ⟨429, "first_contact_limit", s!"You started {firstContactsPerHour} new conversations in " ++
      "the last hour, the most DM allows. Existing conversations keep working; start new ones " ++
      "later."⟩

/-- `start_conversation`. Without a key of the request the participant set is the key.
`access.rs:165–227`. -/
def startConversation (d : Deployment) (e : Moment) (actor : ActorRef) (others : List Account)
    (key : Option String) : Serve Nat := do
  let participants := others.map Account.actor ++ [actor]
  match ← Handler.read fun b => .ok (b.canonicalDirect participants) with
  | some existing => pure existing
  | none =>
    Handler.read (requireFirstContact e actor others)
    let id ← transaction (createConversation d e actor participants
      (key.getD ("recipient-chat:" ++ toString (d.requestHash (.participants participants)))))
    let _ ← Handler.read (getConversation actor id)
    pure id

/-- The accounts of `POST /conversations` without the caller. `handlers.rs:145–166`. -/
def createOthers (caller : ActorRef) (uuids : List String) (b : Backend) :
    Except Refusal (List Account) := do
  require (!uuids.isEmpty) (.validation "participant_ids must contain at least one account id")
  require (uuids.length < 100)
    (.validation "a conversation may contain at most 100 unique participants")
  let accounts ← resolveAll b.db.accounts uuids
  let others := accounts.filter (·.uuid ≠ caller.id)
  require (!others.isEmpty)
    (.validation "a conversation requires at least two unique participants")
  .ok others

/-- The conversation of two accounts. `access.rs:105–136`. -/
def directAddress (first second : String) (b : Backend) : Except Refusal Nat := do
  let x ← resolve b.db.accounts first
  let y ← resolve b.db.accounts second
  match b.canonicalDirect [x.actor, y.actor] with
  | some c => .ok c
  | none => .error .notFound

/-- The other account of a recipient path. `access.rs:145–150`. -/
def otherAccount (actor : ActorRef) (uuid : String) (b : Backend) : Except Refusal Account := do
  let recipient ← resolve b.db.accounts uuid
  require (recipient.uuid ≠ actor.id)
    (.validation "the recipient must be another account (you cannot message yourself)")
  .ok recipient

/-- The canonical direct conversation with one recipient; created when sending.
`access.rs:139–163`. -/
def recipientConversation (d : Deployment) (e : Moment) (actor : ActorRef) (uuid : String)
    (create : Bool) : Serve Nat := do
  let recipient ← Handler.read (otherAccount actor uuid)
  match ← Handler.read fun b => .ok (b.canonicalDirect [actor, recipient.actor]) with
  | some c => pure c
  | none =>
    Handler.read fun _ => require create .notFound
    startConversation d e actor [recipient] none

def targetConversation (d : Deployment) (e : Moment) (actor : ActorRef) (target : Target)
    (create : Bool) : Serve Nat :=
  match target with
  | .conversation c => pure c
  | .accounts first second => Handler.read (directAddress first second)
  | .recipient uuid => recipientConversation d e actor uuid create

def custodianReadOnly : Refusal :=
  .forbidden "custodian_read_only" ("You can read this conversation because you are custodian of " ++
    "a Silicon in it, but you are not a participant: DM never lets a custodian write as its " ++
    "Silicon. Only tombstoning that Silicon's own messages is allowed.")

/-- Resolve a conversation path and decide access. A custodian only deletes; an invitee does
nothing. `extract.rs:141–159`. -/
def conversationPath (d : Deployment) (e : Moment) (caller : ActorRef) (path : ConversationPath)
    (create deletes : Bool) : Serve (Nat × ConversationAccess) := do
  let c ← targetConversation d e caller path.target create
  let a ← Handler.read (access caller c)
  Handler.read fun _ => require (a = .participant || (a = .custodian && deletes)) custodianReadOnly
  pure (c, a)

/-! ### Groups -/

/-- `UPDATE conversations SET updated_at = …`; the trigger never moves it back. -/
def touch (c now : Nat) (b : Backend) : Backend :=
  { b with updatedAt := Function.update b.updatedAt c (max (b.updatedAt c) now) }

/-- `UPDATE groups SET version = version + 1`. -/
def bump (g : Nat) (b : Backend) : Backend :=
  { b with
    groups := b.groups.map fun row =>
      if row.conversation = g then { row with version := row.version + 1 } else row }

/-- `finish_group`. `groups.rs:582–590`. -/
def finishGroup (e : Moment) (g : Nat) : Transact Unit := do
  statements ((Server.finishGroup e.now).map (.group g))
  write (touch g e.now)

/-- A request of a manager behind its key. A replay only finishes. `groups.rs:490–503`. -/
def changeGroup (e : Moment) (actor : ActorRef) (g : Nat) (operation key : String) (hash : Nat)
    (body : Transact Unit) : Transact Unit := do
  statements [.group g .lock]
  let _ ← keyed e.now ⟨actor, operation, key⟩ hash (do body; pure g) fun _ => pure ()
  finishGroup e g

/-- `group_details`. -/
def groupDetails (g : Nat) (b : Backend) : Except Refusal Rendered := do
  require (b.db.isGroup g = some true) .notFound
  .ok (.group g)

/-- `require_manager`, behind the path of the group. -/
def managerOf (caller : Caller) (g : Nat) (b : Backend) : Except Refusal Unit := do
  let _ ← resolveGroupPath caller.actor g b
  lift (requireManager b.db caller.issuingApp caller.actor g)

/-- `groups.rs:164–219`; the last statement is the refresh that a replay makes as well. -/
def createGroup (d : Deployment) (e : Moment) (creator : ActorRef) (settings : Settings)
    (invitees : List Invitee) (key : String) : Transact Nat :=
  keyed e.now ⟨creator, "groups.create", key⟩
    (d.requestHash (.group settings (dedupInvitees (invitees.filter (·.actor ≠ creator)))))
    (do
      statements ((Server.createGroup creator invitees e.now).map (.group e.conversationId))
      write fun b =>
        { b with
          groups := b.groups ++ [⟨e.conversationId, settings, 1⟩]
          updatedAt := Function.update b.updatedAt e.conversationId e.now }
      pure e.conversationId)
    fun id => statements [.group id (.sync e.now)]

/-- `update_group`'s own statement: the row of the expected version. `groups.rs:247–255`. -/
def updateRow (g : Nat) (settings : Settings) (version : Int) : Transact Unit := do
  query fun b => require (b.groups.any fun row => row.conversation = g && row.version = version)
    (.conflict "group version changed; fetch the group and retry with its current version")
  write fun b =>
    { b with
      groups := b.groups.map fun row =>
        if row.conversation = g then { row with settings, version := row.version + 1 } else row }

/-- Statements of a group, then a new version. -/
def bumped (g : Nat) (code : List GroupStatement) : Transact Unit := do
  statements (code.map (.group g))
  write (bump g)

/-- What an update asks for. `api/groups.rs:72–82`, `extract.rs:222–248`. -/
def updatable (caller : Caller) (g : Nat) (version : Int) (b : Backend) : Except Refusal Unit := do
  let _ ← resolveGroupPath caller.actor g b
  require (0 ≤ version) (.validation "If-Match must contain a non-negative draft version")
  lift (requireManager b.db caller.issuingApp caller.actor g)
  require (1 ≤ version) (.validation "If-Match must be a positive group version")

/-- What an invitation asks for, and whom it invites. `api/groups.rs:87–101`. -/
def invitable (caller : Caller) (g : Nat) (uuids : List String) (b : Backend) :
    Except Refusal (List Invitee) := do
  managerOf caller g b
  b.invitees caller.actor uuids

/-- What a removal asks for, and whom it names. `api/groups.rs:110–130`. -/
def removedMembers (caller : Caller) (g : Nat) (uuids : List String) (b : Backend) :
    Except Refusal (List ActorRef) := do
  let _ ← resolveGroupPath caller.actor g b
  let accounts ← resolveMembers b.db.accounts uuids
  lift (requireRemover b.db ⟨caller.actor, g, accounts⟩)
  .ok (accounts.map Account.actor)

/-- What a change of owners asks for, and whom it names. `api/groups.rs:156–172`. -/
def namedOwners (caller : Caller) (g : Nat) (uuids : List String) (b : Backend) :
    Except Refusal (List ActorRef) := do
  managerOf caller g b
  let accounts ← resolveMembers b.db.accounts uuids
  .ok (accounts.map Account.actor)

def setOwners (d : Deployment) (e : Moment) (caller : Caller) (g : Nat) (uuids : List String)
    (promote : Bool) (key : String) : Serve Rendered := do
  let members ← Handler.read (namedOwners caller g uuids)
  transaction (changeGroup e caller.actor g
    (if promote then "groups.owners.add" else "groups.owners.remove") key
    (d.requestHash (.members g members)) (bumped g (setGroupOwners members promote)))
  Handler.read (groupDetails g)

/-- `respond_to_invitation`. `groups.rs:328–358`. -/
def respond (e : Moment) (g : Nat) (invitee : ActorRef) (accept : Bool) : Transact Unit := do
  statements ((respondToInvitation invitee accept e.now).map (.group g))
  write (bump g)
  write (touch g e.now)

/-- `leave_group`. `groups.rs:364–382`. -/
def leave (e : Moment) (g : Nat) (member : ActorRef) : Transact Unit := do
  statements ((Server.leaveGroup member e.now).map (.group g))
  write (bump g)
  write (touch g e.now)

/-! ### Allow-lists -/

/-- The Silicon whose list is managed, and the accounts named. `me.rs:99–114,141–184`. -/
def listed (caller : Caller) (uuids : List String) (forAccount : Option String) (b : Backend) :
    Except Refusal (ActorRef × List Account) := do
  ownSession caller "Managing an allow-list"
  let silicon ← actsFor b.db.accounts caller forAccount
  require (silicon.actorType = .silicon) (.forbidden "carbon_has_no_allow_list" ("Only Silicons " ++
    "have an allow-list: any account signed in to DM can message a Carbon. A custodian manages " ++
    "a Silicon's list with ?for=si:handle."))
  require (!uuids.isEmpty && uuids.length ≤ 100)
    (.validation "account_ids must name 1 to 100 accounts")
  let accounts ← resolveAll b.db.accounts uuids
  .ok (silicon, accounts)

/-- `INSERT … ON CONFLICT DO NOTHING`. `allow_list.rs:62–82`. -/
def allowContact (e : Moment) (silicon : ActorRef) (addedBy : String) (who : Account) :
    Serve Unit := do
  Handler.read fun _ => require (who.uuid ≠ silicon.id)
    (.validation "a Silicon is always allowed to reach itself")
  transaction (write fun b =>
    if b.allowances.any fun a => a.silicon = silicon.id && a.allowed = who.actor then b
    else { b with allowances := b.allowances ++ [⟨silicon.id, who.actor, addedBy, e.now⟩] })

/-- `allow_list.rs:89–103`. -/
def disallowContact (silicon : ActorRef) (who : Account) : Serve Unit :=
  transaction (write fun b =>
    { b with
      allowances := b.allowances.filter fun a =>
        !(a.silicon = silicon.id && a.allowed = who.actor) })

/-! ### Messages -/

/-- What `send` checks before its transaction. `handlers.rs:219–226`. -/
def requireCurrent (c : Nat) (b : Backend) : Except Refusal Unit := do
  lift (Writing.requireOpen b.db c)
  lift (Writing.requireCurrent b.supersededBy c)

/-- The columns of a new message, and the time of its conversation. `messages.rs:594–720`. -/
def newMessage (m c now : Nat) (b : Backend) : Backend :=
  touch c now { b with aggregates := Function.update b.aggregates m ⟨.sent, none, none⟩ }

/-- A draft with the content of the message is cleared. `messages.rs:262–330`. -/
def clearDraft (c : Nat) (actor : ActorRef) (content : String) (b : Backend) : Backend :=
  { b with
    drafts := b.drafts.filter fun row =>
      !(row.conversation = c && row.actor = actor && row.content = content) }

/-- `send_message` up to its commit. `messages.rs:171–350`. -/
def send (d : Deployment) (e : Moment) (sender : ActorRef) (c : Nat) (content key : String) :
    Transact Nat := do
  statements [.message (.requireParticipant c sender)]
  keyed e.now ⟨sender, "messages.create", key⟩ (d.requestHash (.message c content))
    (do
      statements [.message (.insert e.messageId c sender), .message (.fanOut e.messageId c 1)]
      write (newMessage e.messageId c e.now)
      write (clearDraft c sender content)
      pure e.messageId)
    fun _ => pure ()

/-- `load_message`. -/
def loadMessage (m : Nat) (b : Backend) : Except Refusal Rendered := do
  require (b.db.message m).isSome .notFound
  .ok (.message m)

/-- Whether the reviser may still see the conversation. `revisions.rs:85–91`. -/
def requireReviser (actor : ActorRef) (reviser : Reviser) (c : Nat) (b : Backend) :
    Except Refusal Unit :=
  match reviser with
  | .sender => require (actor ∈ b.db.effectiveParticipants c) .notFound
  | .custodianOfSender =>
    match b.db.requireReader actor c with
    | .ok () => .ok ()
    | .error .notFound => .error .notFound

/-- `revise_message` up to its commit. `revisions.rs:62–236`. -/
def revise (d : Deployment) (e : Moment) (actor : ActorRef) (reviser : Reviser) (c m : Nat)
    (content : Option String) (key : String) : Transact Nat := do
  statements [.message (.requireReviser reviser content.isSome),
    .message (.original m c actor reviser)]
  keyed e.now ⟨actor, if content.isSome then "messages.edit" else "messages.delete", key⟩
    (d.requestHash (.revision m c content))
    (do
      statements [.message (.requireNotDeleted m),
        match content with
        | some content => .message (.edit m content e.now)
        | none => .message (.tombstone m e.now),
        .message (.nextRevision m c)]
      write (touch c e.now)
      pure m)
    fun _ => pure ()

def reviseMessage (d : Deployment) (e : Moment) (actor : ActorRef) (reviser : Reviser) (c m : Nat)
    (content : Option String) (key : String) : Serve Rendered := do
  Handler.read (requireReviser actor reviser c)
  let _ ← transaction (revise d e actor reviser c m content key)
  Handler.read (loadMessage m)

/-- The reviser that an access makes. `handlers.rs:112–116`. -/
def reviserOf : ConversationAccess → Reviser
  | .custodian => .custodianOfSender
  | .participant | .invitee => .sender

/-! ### Receipts -/

/-- `char::is_control`. -/
def isControl (c : Char) : Bool :=
  c.toNat < 32 || (127 ≤ c.toNat && c.toNat < 160)

/-- `validate_device_id`. `messaging.rs:22–29`. -/
def validDevice (device : String) : Except Refusal Unit :=
  require (!device.toList.isEmpty && device.utf8ByteSize ≤ 255 && !device.toList.any isControl)
    (.validation "device_id must contain 1 to 255 non-control characters")

/-- The message a receipt is for. `messages.rs:388–415`. -/
def receivedMessage (recipient : ActorRef) (c m : Nat) (b : Backend) : Except Refusal Unit :=
  match b.db.message m with
  | none => .error .notFound
  | some row => do
    require (row.conversation = c) .notFound
    require (row.sender ≠ recipient)
      (.validation "a message sender cannot acknowledge their own message")

/-- A receipt never goes back from read. `messages.rs:441–478`. -/
def advanceReceipt (status : ReceiptStatus) (now : Nat) (r : Receipt) : Receipt :=
  match r.status with
  | .read => r
  | .delivered =>
    { r with
      status
      readAt := match status with
        | .read => some (max r.deliveredAt now)
        | .delivered => none }

def putReceipt (m : Nat) (recipient : ActorRef) (device : String) (status : ReceiptStatus)
    (now : Nat) (b : Backend) : Backend :=
  { b with
    receipts := upsert Receipt.key (m, recipient, device)
      { message := m
        recipient
        device
        status
        deliveredAt := now
        readAt := match status with
          | .read => some now
          | .delivered => none }
      (advanceReceipt status now) b.receipts }

/-- Everyone the message was first delivered to, apart from its sender.
`migrations/0020_groups.sql:243–247`. -/
def recipientsOf (b : Backend) (m : Nat) : List ActorRef :=
  match b.db.message m with
  | none => []
  | some row => (b.db.deliveries.filter fun delivery =>
      delivery.ref = .message m 1 && delivery.conversation = some row.conversation &&
        delivery.target ≠ row.sender).map (·.target)

def received (b : Backend) (m : Nat) (read : Bool) : Bool :=
  !(b.recipientsOf m).isEmpty && (b.recipientsOf m).all fun a =>
    b.receipts.any fun r => r.message = m && r.recipient = a && (!read || r.status = .read)

/-- `advance_message_aggregate_status`. `migrations/0020_groups.sql:206–266`. -/
def advanceAggregate (m now : Nat) (b : Backend) : Backend :=
  let row := b.aggregates m
  if b.received m true then
    if row.status = .read || row.status = .failed then b
    else
      { b with
        aggregates := Function.update b.aggregates m
          { status := .read
            deliveredAt := row.deliveredAt.or (some now)
            readAt := row.readAt.or (some (max (row.deliveredAt.getD 0) now)) } }
  else if b.received m false then
    if row.status = .waiting || row.status = .sent then
      { b with
        aggregates := Function.update b.aggregates m
          { row with status := .delivered, deliveredAt := row.deliveredAt.or (some now) } }
    else b
  else b

/-- The sender hears of a status that is new. `messages.rs:494–512`. -/
def announceStatus (m : Nat) (previous : MessageStatus) : Transact Unit := do
  let status ← query fun b => .ok (b.aggregates m).status
  if status ≠ previous && (status = .delivered || status = .read) then
    statements [.message (.reportStatus m status)]
  else pure ()

/-- `record_receipt_without_payload`. `messages.rs:375–515`. -/
def recordReceipt (e : Moment) (recipient : ActorRef) (c m : Nat) (device : String)
    (status : ReceiptStatus) : Transact Unit := do
  statements [.message (.requireParticipant c recipient)]
  query (receivedMessage recipient c m)
  let previous ← query fun b => .ok (b.aggregates m).status
  write (putReceipt m recipient device status e.now)
  write (advanceAggregate m e.now)
  announceStatus m previous

/-! ### Drafts -/

def draftOf (b : Backend) (c : Nat) (actor : ActorRef) : Option Draft :=
  b.drafts.find? fun row => row.conversation = c && row.actor = actor

def draftConflict : Refusal :=
  ⟨409, "draft_conflict", "The draft changed since the supplied version. Your save was not " ++
    "applied. Resolve against this draft and retry with its current version."⟩

/-- The row that a save leaves, if the expected version is the current one.
`drafts.rs:126–206`. -/
def savedDraft (c : Nat) (actor : ActorRef) (content : String) (expected : Int) (b : Backend) :
    Except Refusal Draft :=
  match b.draftOf c actor with
  | none =>
    if expected = 0 then .ok ⟨c, actor, 1, content⟩
    else .error (.conflict "draft was deleted after the supplied version was observed")
  | some row =>
    if expected = row.version then .ok ⟨c, actor, row.version + 1, content⟩
    else .error draftConflict

def putDraftRow (row : Draft) (b : Backend) : Backend :=
  { b with
    drafts := (b.drafts.filter fun other =>
      !(other.conversation = row.conversation && other.actor = row.actor)) ++ [row] }

/-- `put_draft`. `drafts.rs:80–220`. -/
def saveDraft (c : Nat) (actor : ActorRef) (content : String) (expected : Int) :
    Transact Draft := do
  statements [.message (.requireParticipant c actor)]
  let row ← query (savedDraft c actor content expected)
  write (putDraftRow row)
  pure row

def withoutDraft (c : Nat) (actor : ActorRef) (b : Backend) : Backend :=
  { b with drafts := b.drafts.filter fun row => !(row.conversation = c && row.actor = actor) }

/-- `delete_draft`. `drafts.rs:228–273`. -/
def deleteDraft (c : Nat) (actor : ActorRef) : Transact Unit := do
  statements [.message (.requireParticipant c actor)]
  write (withoutDraft c actor)

/-! ### Bundles -/

def bundled (b : Backend) (m : Nat) : Bool :=
  b.bundles.any fun bundle => bundle.display = m || m ∈ bundle.members

/-- `lock_bundle_members_in`. `bundles.rs:356–397`. -/
def availableMembers (c : Nat) (messages : List Nat) (b : Backend) : Except Refusal Unit :=
  require (decide messages.Nodup && messages.all fun m =>
      (b.db.message m).any (·.conversation = c) && !b.bundled m)
    (.conflict "one or more bundle messages are unavailable or already bundled")

/-- `create_bundle` up to its commit. `bundles.rs:75–205`. -/
def bundle (d : Deployment) (e : Moment) (creator : ActorRef) (c : Nat) (messages : List Nat)
    (display key : String) : Transact Nat := do
  statements [.message (.requireParticipant c creator)]
  keyed e.now ⟨creator, "bundles.create", key⟩ (d.requestHash (.bundle c messages display))
    (do
      query (availableMembers c messages)
      statements [.message (.insert e.messageId c creator)]
      write (newMessage e.messageId c e.now)
      write fun b =>
        { b with
          bundles := b.bundles ++ [⟨e.bundleId, c, creator, e.messageId, messages⟩] }
      statements [.message (.fanOut e.messageId c 1)]
      pure e.bundleId)
    fun _ => pure ()

/-- `load_bundle`. `bundles.rs:272–325`. -/
def loadBundle (c id : Nat) (b : Backend) : Except Refusal Rendered := do
  require (b.bundles.any fun row => row.id = id && row.conversation = c) .notFound
  .ok (.bundle id)

/-! ### Presence -/

/-- The last device went offline. `http_presence.rs:192–232`. -/
def recordOffline (actor : ActorRef) (now : Nat) (p : Presence) : Presence :=
  let devices := (p.leases ++ p.sessions).filter (·.actor = actor)
  if devices.any fun l => l.disconnectedAt.isNone && now < l.leaseExpiresAt then p
  else
    match (devices.map fun l => l.disconnectedAt.getD l.leaseExpiresAt).max? with
    | none => p
    | some seen =>
      { p with
        lastSeen := upsert Prod.fst actor (actor, seen) (fun row => (row.1, max row.2 seen))
          p.lastSeen }

/-- The renewed lease. `http_presence.rs:93–123`. -/
def renewLease (d : Deployment) (now : Nat) (activity : Option Activity) (l : Lease) : Lease :=
  { l with
    heartbeatAt := now
    leaseExpiresAt := now + d.heartbeatTimeout
    activity
    activityExpiresAt := activity.map fun _ => now + min d.activityTtl d.heartbeatTimeout
    disconnectedAt := none
    lastSeenAt :=
      match l.disconnectedAt.or (if l.leaseExpiresAt ≤ now then some l.leaseExpiresAt else none) with
      | none => l.lastSeenAt
      | some seen => some (max (l.lastSeenAt.getD 0) seen) }

/-- `renew_http_presence`. `http_presence.rs:64–141`. -/
def renewPresence (d : Deployment) (e : Moment) (actor : ActorRef) (device : String)
    (activity : Option Activity) : Transact Unit :=
  write fun b =>
    let p := recordOffline actor e.now b.presence
    let fresh : Lease :=
      { actor, device
        heartbeatAt := e.now
        leaseExpiresAt := e.now + d.heartbeatTimeout
        activity
        activityExpiresAt := activity.map fun _ => e.now + min d.activityTtl d.heartbeatTimeout
        disconnectedAt := none
        lastSeenAt := none }
    { b with
      presence := { p with
        leases := upsert Lease.key (actor, device) fresh (renewLease d e.now activity) p.leases } }

/-- The checks of a renewal. -/
def renewable (d : Deployment) (device : String) : Except Refusal Unit := do
  validDevice device
  require (0 < d.heartbeatTimeout && 0 < d.activityTtl)
    (.validation "presence duration must be positive")

/-! ### Execution -/

def execute (d : Deployment) (e : Moment) (caller : Caller) : Mutation → Serve Rendered
  | .createGroup settings members key => do
    let invited ← Handler.read fun b => do
      ownSession caller "Creating a group"
      b.invitees caller.actor members
    let id ← transaction (createGroup d e caller.actor settings invited key)
    Handler.read (getConversation caller.actor id)
  | .updateGroup g settings version key => do
    Handler.read (updatable caller g version)
    transaction (changeGroup e caller.actor g "groups.update" key
      (d.requestHash (.update g settings version)) (updateRow g settings version))
    Handler.read (groupDetails g)
  | .inviteGroupMembers g members key => do
    let invited ← Handler.read (invitable caller g members)
    transaction (changeGroup e caller.actor g "groups.invite" key
      (d.requestHash (.invitees g invited)) (bumped g (inviteIn invited e.now)))
    Handler.read (groupDetails g)
  | .removeGroupMembers g members key => do
    let removed ← Handler.read (removedMembers caller g members)
    transaction (changeGroup e caller.actor g "groups.uninvite" key
      (d.requestHash (.members g removed)) (bumped g (removeFromGroup removed)))
    Handler.read (groupDetails g)
  | .addGroupOwners g members key => setOwners d e caller g members true key
  | .removeGroupOwners g members key => setOwners d e caller g members false key
  | .acceptInvitation g => do
    let _ ← Handler.read (resolveGroupPath caller.actor g)
    Handler.read fun _ => ownSession caller "Accepting an invitation"
    transaction (respond e g caller.actor true)
    Handler.read (getConversation caller.actor g)
  | .declineInvitation g forAccount => do
    let _ ← Handler.read (resolveGroupPath caller.actor g)
    let invitee ← Handler.read fun b => actsFor b.db.accounts caller forAccount
    transaction (respond e g invitee false)
    pure (.declined g)
  | .leaveGroup g => do
    let _ ← Handler.read (resolveGroupPath caller.actor g)
    Handler.read fun _ => ownSession caller "Leaving a group"
    transaction (leave e g caller.actor)
    pure (.left g)
  | .allow accounts forAccount => do
    let (silicon, accounts) ← Handler.read (listed caller accounts forAccount)
    accounts.forM (allowContact e silicon caller.actor.id)
    pure (.allowList silicon.id)
  | .disallow accounts forAccount => do
    let (silicon, accounts) ← Handler.read (listed caller accounts forAccount)
    accounts.forM (disallowContact silicon)
    pure (.allowList silicon.id)
  | .createConversation participants key => do
    let others ← Handler.read (createOthers caller.actor participants)
    let id ← startConversation d e caller.actor others (some key)
    Handler.read (getConversation caller.actor id)
  | .sendMessage path content key => do
    let (c, _) ← conversationPath d e caller.actor path true false
    Handler.read (requireCurrent c)
    let m ← transaction (send d e caller.actor c content key)
    Handler.read (loadMessage m)
  | .editMessage path m content key => do
    let (c, _) ← conversationPath d e caller.actor path false false
    reviseMessage d e caller.actor .sender c m (some content) key
  | .deleteMessage path m key => do
    let (c, a) ← conversationPath d e caller.actor path false true
    reviseMessage d e caller.actor (reviserOf a) c m none key
  | .receipt path m status device => do
    let (c, _) ← conversationPath d e caller.actor path false false
    Handler.read fun _ => validDevice device
    transaction (recordReceipt e caller.actor c m device status)
    Handler.read (loadMessage m)
  | .putDraft path content version => do
    let (c, _) ← conversationPath d e caller.actor path false false
    Handler.read fun _ => require (0 ≤ version)
      (.validation "If-Match must contain a non-negative draft version")
    let row ← transaction (saveDraft c caller.actor content version)
    pure (.draft c row.version)
  | .deleteDraft path => do
    let (c, a) ← conversationPath d e caller.actor path false true
    Handler.read fun _ => require (a = .participant) (.forbidden "custodian_read_only" ("A " ++
      "custodian can read its Silicon's drafts (`?for=si:x`) but never write or delete them."))
    transaction (deleteDraft c caller.actor)
    pure .draftDeleted
  | .createBundle path messages display key => do
    let (c, _) ← conversationPath d e caller.actor path false false
    Handler.read fun _ => require (caller.actor.actorType = .silicon)
      (.forbidden "silicon_only" "Only Silicons bundle messages.")
    let id ← transaction (bundle d e caller.actor c messages display key)
    Handler.read (loadBundle c id)
  | .setPresence activity => do
    Handler.read fun _ => renewable d caller.device
    transaction (renewPresence d e caller.actor caller.device activity)
    pure (.lease (e.now + d.heartbeatTimeout)
      (activity.map fun _ => e.now + min d.activityTtl d.heartbeatTimeout))

end Backend

end SiliconDm.Server
