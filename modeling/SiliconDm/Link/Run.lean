import Mathlib.Data.Multiset.MapFold
import SiliconDm.Link.Mapping

/-!
# Re-keying identities

`dm-migrate link-identities`: one transaction that resolves the rows of the mapping, decides
each identity's current storage key from the existing links, rewrites that key everywhere,
merges the direct conversations that became one participant set, lifts the delivery streams,
and records the links. Source: `src/infrastructure/postgres/link_identities.rs:164–662`.

Triggers, foreign keys and the canonical index are suspended during the rewrite; primary keys
and other unique constraints are not. Keys that are rewritten never are keys that are written
(`link_identities.rs:425–431`), so the intermediate states of an `UPDATE` violate a unique
constraint only if its result does.
-/

namespace SiliconDm.Link

open Base
open Server (ActorType Account account validPublicId publicIdParts kindMatchesId)

/-! ## Tables -/

/-- A row of `identity_links`. `migrations/0039_accounts_identity.sql:59–75`. -/
structure IdentityLink where
  publicId : String
  principal : Option Nat
  kind : ActorType
  uuid : String
  previous : Option String
  source : String
  deriving DecidableEq, Repr

/-- A row of `actor_snapshots`: the anchor other tables' identities refer to. -/
structure Anchor where
  organization : String
  kind : ActorType
  id : String
  deriving DecidableEq, Repr

/-- A row of `conversation_participants`. -/
structure Participant where
  conversation : Nat
  organization : String
  kind : ActorType
  id : String
  deriving DecidableEq, Repr

/-- A row of `conversations`; `setHash` is `participant_set_hash`. -/
structure Conversation (H : Type) where
  id : Nat
  organization : String
  isGroup : Bool
  setHash : H
  supersededBy : Option Nat
  updatedAt : Nat
  deriving DecidableEq, Repr

/-- A row of `actor_deliveries`. -/
structure Delivery where
  organization : String
  kind : ActorType
  id : String
  sequence : Nat
  deriving DecidableEq, Repr

/-- A row of `actor_delivery_streams`. -/
structure Stream where
  organization : String
  kind : ActorType
  id : String
  nextSequence : Nat
  syncFloor : Nat
  deriving DecidableEq, Repr

/-- The value of another declared identity column in one row. `link_identities.rs:20–33`. -/
structure Cell where
  relation : String
  column : String
  row : Nat
  value : String
  deriving DecidableEq, Repr

/-- The tables a run reads and writes. `authenticated` holds the accounts whose
`last_authenticated_at` is set, `projections` the principals and public ids of
`iam_membership_projections`. -/
structure Tables (H : Type) where
  links : List IdentityLink
  projections : List (Nat × Option String)
  accounts : List Account
  authenticated : List String
  anchors : List Anchor
  participants : List Participant
  conversations : List (Conversation H)
  deliveries : List Delivery
  streams : List Stream
  cells : List Cell
  deriving DecidableEq, Repr

variable {H : Type}

/-- `SELECT accounts_uuid FROM identity_links WHERE iam_public_id = $1`. -/
def Tables.link (s : Tables H) (publicId : String) : Option String :=
  (getRow IdentityLink.publicId s.links publicId).map (·.uuid)

/-- `SELECT iam_public_id FROM identity_links WHERE accounts_uuid = $1`. -/
def Tables.holder (s : Tables H) (uuid : String) : Option String :=
  (s.links.find? (·.uuid = uuid)).map (·.publicId)

/-- The key an identity's rows are stored under. -/
def Tables.storageKey (s : Tables H) (publicId : String) : String :=
  (s.link publicId).getD publicId

/-! ## Resolution and the link map -/

/-- A lookup of a mapped uuid. `link_identities.rs:55–66`. -/
structure VerifiedAccount where
  kind : String
  currentId : Option String
  displayName : Option String
  custodianUuid : Option String
  deriving DecidableEq, Repr

/-- `link_identities.rs:68–76`. -/
structure LinkOptions where
  dryRun : Bool
  source : String
  forceRelink : Bool
  deriving DecidableEq, Repr

/-- The report of a run, without the counts per column and the warnings.
`link_identities.rs:78–104`. -/
structure LinkReport where
  dryRun : Bool
  mappingRows : Nat
  linked : List String
  relinked : List String
  unchanged : List String
  superseded : Nat
  accountsSeeded : Nat
  deriving DecidableEq, Repr

/-- A resolved row. `link_identities.rs:303–308`. -/
structure Pair where
  publicId : String
  principal : Option Nat
  kind : ActorType
  uuid : String
  deriving DecidableEq, Repr

/-- A row of the temporary table `link_map`. -/
structure Entry where
  oldKey : String
  newKey : String
  publicId : String
  deriving DecidableEq, Repr

def kindText : ActorType → String
  | .carbon => "carbon"
  | .silicon => "silicon"

/-- The kind a public id has. `link_identities.rs:370–374`. -/
def kindOf (publicId : String) : ActorType :=
  if "si:".toList.isPrefixOf publicId.toList then .silicon else .carbon

/-- The public id of a row: its own, or the one DM stored for its principal.
`link_identities.rs:342–369`. -/
def resolve (uuids : UuidText) (s : Tables H) (row : MappingRow) :
    Except LinkError (String × Option Nat) :=
  let line := row.line
  if validPublicId row.iamKey then .ok (row.iamKey, none)
  else
    match uuids.parseStr row.iamKey with
    | none => .error .internal
    | some principal =>
      let shown := uuids.display principal
      match ((s.projections.filter (·.1 = principal)).filterMap (·.2)).dedup with
      | [only] => .ok (only, some principal)
      | [] =>
        .error (.validation s!"line {line}: IAM principal {shown} is not in DM's IAM projections; map its public id (c:/si:) instead")
      | ids =>
        let joined := ", ".intercalate ids
        .error (.validation s!"line {line}: IAM principal {shown} had several public ids ({joined}); map each public id instead")

/-- One row resolved and its kind checked against what is known of the account.
`link_identities.rs:341–400`. -/
def toPair (uuids : UuidText) (verified : List (String × VerifiedAccount)) (s : Tables H)
    (row : MappingRow) : Except LinkError Pair := do
  let (publicId, principal) ← resolve uuids s row
  let line := row.line
  let uuid := row.accountsUuid
  let kind := kindOf publicId
  let shown := kindText kind
  match (verified.lookup uuid).filter (·.kind ≠ shown) with
  | some found =>
    let other := found.kind
    .error (.validation s!"line {line}: {publicId} is a {shown} but Silicon Accounts says {uuid} is a {other}")
  | none =>
    match (account s.accounts uuid).filter (·.kind ≠ kind) with
    | some cached =>
      let other := kindText cached.kind
      .error (.validation s!"line {line}: {publicId} is a {shown} but DM knows {uuid} as a {other}")
    | none => .ok { publicId, principal, kind, uuid }

/-- `INSERT INTO link_map`, whose old and new keys are unique. `link_identities.rs:454–467`. -/
def insertEntry (e : Entry) (map : List Entry) : Except LinkError (List Entry) :=
  let publicId := e.publicId
  if map.any fun e' => e'.oldKey = e.oldKey || e'.newKey = e.newKey then
    .error (.validation s!"{publicId} appears twice in the mapping after resolving principals")
  else .ok (map ++ [e])

/-- The existing links decide an identity's current storage key; an identity already linked to
its uuid is not entered. `link_identities.rs:406–468`. -/
def mapPair (s : Tables H) (options : LinkOptions) (state : List Entry × LinkReport)
    (pair : Pair) : Except LinkError (List Entry × LinkReport) :=
  let (map, report) := state
  let publicId := pair.publicId
  let uuid := pair.uuid
  match (s.holder uuid).filter (· ≠ publicId) with
  | some holder =>
    .error (.validation s!"{publicId} cannot become {uuid}: that uuid is already linked to {holder}")
  | none =>
    match s.link publicId with
    | some current =>
      if current = uuid then
        .ok (map, { report with unchanged := report.unchanged ++ [publicId] })
      else if s.authenticated.contains current && !options.forceRelink then
        .error (.validation s!"{publicId} is linked to {current}, which has already signed in to DM; re-pointing it would move that account's new data too. Pass --force-relink if that is intended.")
      else do
        let map ← insertEntry { oldKey := current, newKey := uuid, publicId } map
        .ok (map, { report with
          relinked := report.relinked ++ [s!"{publicId}: {current} -> {uuid}"] })
    | none => do
      let map ← insertEntry { oldKey := publicId, newKey := uuid, publicId } map
      .ok (map, { report with linked := report.linked ++ [s!"{publicId} -> {uuid}"] })

def rekey (map : List Entry) (key : String) : String :=
  (getRow Entry.oldKey map key).elim key (·.newKey)

/-! ## The rewrite -/

def participantSet (participants : List Participant) (conversation : Nat) :
    Multiset (ActorType × String) :=
  ((participants.filter (·.conversation = conversation)).map fun p => (p.kind, p.id) :
    List (ActorType × String))

/-- An anchor is left where the new key has one in its partition.
`link_identities.rs:199–203`. -/
def rewriteAnchors (map : List Entry) (anchors : List Anchor) : List Anchor :=
  anchors.map fun a =>
    if { a with id := rekey map a.id } ∈ anchors then a else { a with id := rekey map a.id }

/-- The hash of a direct conversation that has a re-keyed participant is computed again.
`link_identities.rs:214–231`. -/
def rehash [DecidableEq H] (digest : Multiset (ActorType × String) → H) (map : List Entry)
    (participants : List Participant) (conversations : List (Conversation H)) :
    List (Conversation H) :=
  conversations.map fun c =>
    if !c.isGroup &&
        participants.any (fun p => p.conversation = c.id && map.any (·.newKey = p.id)) then
      { c with setHash := digest (participantSet participants c.id) }
    else c

/-- Every identity column through the link map. `link_identities.rs:195–232`. -/
def rewrite [DecidableEq H] (digest : Multiset (ActorType × String) → H) (map : List Entry)
    (s : Tables H) : Tables H :=
  let participants := s.participants.map fun p => { p with id := rekey map p.id }
  { s with
    anchors := rewriteAnchors map s.anchors
    participants := participants
    conversations := rehash digest map participants s.conversations
    deliveries := s.deliveries.map fun d => { d with id := rekey map d.id }
    streams := s.streams.map fun st => { st with id := rekey map st.id }
    cells := s.cells.map fun c => { c with value := rekey map c.value } }

/-- The unique constraint a rewritten table violates, if any.
`migrations/0001_directory_and_conversations.sql:173–176`,
`migrations/0003_delivery_presence_and_idempotency.sql:92`. -/
def Tables.duplicate [DecidableEq H] (s : Tables H) : Option String :=
  if ¬ (s.participants.map fun p => (p.conversation, p.kind, p.id)).Nodup then
    some "conversation_participants_pkey"
  else if ¬ (s.conversations.map fun c => (c.organization, c.setHash)).Nodup then
    some "conversations_exact_participant_set"
  else if ¬ (s.deliveries.map fun d => (d.organization, d.kind, d.id, d.sequence)).Nodup then
    some "actor_deliveries_organization_id_target_kind_target_id_sequ_key"
  else if ¬ (s.streams.map fun st => (st.organization, st.kind, st.id)).Nodup then
    some "actor_delivery_streams_pkey"
  else none

/-! ## Direct conversations of one participant set -/

/-- The window order `updated_at DESC, id DESC`. -/
def ahead (d c : Conversation H) : Bool :=
  c.updatedAt < d.updatedAt || (c.updatedAt = d.updatedAt && c.id < d.id)

/-- A direct conversation that is not superseded. -/
def Conversation.isCanonical (c : Conversation H) : Bool :=
  !c.isGroup && c.supersededBy.isNone

/-- The window of a conversation: the canonical ones with its participant set. -/
def directSet [DecidableEq H] (conversations : List (Conversation H)) (hash : H) :
    List (Conversation H) :=
  conversations.filter fun d => d.isCanonical && d.setHash = hash

/-- `first_value(id)` of the window. -/
def firstValue [DecidableEq H] (conversations : List (Conversation H)) (hash : H) : Option Nat :=
  ((directSet conversations hash).find? fun d =>
    (directSet conversations hash).all fun e => !ahead e d).map (·.id)

/-- The conversation a canonical one is superseded by: the first of its window, unless that is
itself. `link_identities.rs:236–247`. -/
def successor [DecidableEq H] (conversations : List (Conversation H)) (c : Conversation H) :
    Option Nat :=
  if c.isCanonical then (firstValue conversations c.setHash).filter (· ≠ c.id) else none

/-- `SUPERSEDE`. -/
def supersede [DecidableEq H] (conversations : List (Conversation H)) : List (Conversation H) :=
  conversations.map fun c =>
    { c with supersededBy := c.supersededBy.or (successor conversations c) }

/-- The `superseded_by` of a conversation. -/
def pointer (conversations : List (Conversation H)) (id : Nat) : Option Nat :=
  (getRow Conversation.id conversations id).bind (·.supersededBy)

/-- The conversations one `FLATTEN` changes: they point at a superseded one. -/
def stale (conversations : List (Conversation H)) (c : Conversation H) : Bool :=
  (c.supersededBy.bind (pointer conversations)).isSome

/-- `FLATTEN`, for all rows at once. `link_identities.rs:252–256`. -/
def flattenRound (conversations : List (Conversation H)) : List (Conversation H) :=
  conversations.map fun c =>
    { c with supersededBy := c.supersededBy.bind fun target =>
        (pointer conversations target).or (some target) }

/-- `while … rows_affected() > 0`. `link_identities.rs:514–520`. -/
def flatten : Nat → List (Conversation H) → Option (List (Conversation H))
  | 0, _ => none
  | fuel + 1, conversations =>
    if conversations.any (stale conversations) then flatten fuel (flattenRound conversations)
    else some conversations

/-! ## Delivery streams -/

/-- The sequences of the rows delivered to one actor, of every partition. -/
def sequencesOf (deliveries : List Delivery) (kind : ActorType) (id : String) : List Nat :=
  (deliveries.filter fun d => d.kind = kind && d.id = id).map (·.sequence)

/-- `STREAMS` on one row. `link_identities.rs:259–270`. -/
def raiseStream (map : List Entry) (deliveries : List Delivery) (st : Stream) : Stream :=
  if st.organization = "@accounts" && map.any (·.newKey = st.id) then
    match (sequencesOf deliveries st.kind st.id).max? with
    | some high =>
      if st.nextSequence ≤ high then
        { st with
          nextSequence := max st.nextSequence (high + 1)
          syncFloor := max st.syncFloor high }
      else st
    | none => st
  else st

/-! ## Restoring what was suspended -/

/-- The constraint that cannot be restored, if any. `link_identities.rs:273–289`. -/
def Tables.broken [DecidableEq H] (s : Tables H) : Option String :=
  if ¬ ((s.conversations.filter (·.isCanonical)).map (·.setHash)).Nodup then
    some "conversations_canonical_direct_idx"
  else if ¬ ∀ c ∈ s.conversations, ∀ target ∈ c.supersededBy,
      target ∈ s.conversations.map (·.id) then
    some "conversations_superseded_by_fk"
  else if ¬ ∀ p ∈ s.participants, ⟨p.organization, p.kind, p.id⟩ ∈ s.anchors then
    some "conversation_participants_actor_fk"
  else if ¬ ∀ d ∈ s.deliveries, ⟨d.organization, d.kind, d.id⟩ ∈ s.anchors then
    some "actor_deliveries_target_fk"
  else if ¬ ∀ st ∈ s.streams, ⟨st.organization, st.kind, st.id⟩ ∈ s.anchors then
    some "actor_delivery_streams_actor_fk"
  else none

/-- The third step: rewrite, merge and restore, if anything is re-keyed. `fuel` bounds the
rounds of the model's `FLATTEN` loop. `link_identities.rs:506–526`. -/
def rekeyTables [DecidableEq H] (digest : Multiset (ActorType × String) → H) (fuel : Nat)
    (map : List Entry) (s : Tables H) : Except LinkError (Tables H × Nat) :=
  if map = [] then .ok (s, 0)
  else
    let s := rewrite digest map s
    match s.duplicate with
    | some name => .error (.constraint name)
    | none =>
      let superseded := s.conversations.countP fun c => (successor s.conversations c).isSome
      match flatten fuel (supersede s.conversations) with
      | none => .error .unsettled
      | some conversations =>
        let s := { s with
          conversations := conversations
          streams := s.streams.map (raiseStream map s.deliveries) }
        match s.broken with
        | some error =>
          .error (.validation s!"the re-keyed data would break a database invariant, so nothing was changed: {error}")
        | none => .ok (s, superseded)

/-! ## Recording the links -/

/-- The check of `identity_links` a new link violates, if any.
`migrations/0039_accounts_identity.sql:68–73`. -/
def IdentityLink.violated (l : IdentityLink) : Option String :=
  if !(publicIdParts l.publicId).any fun parts =>
      3 ≤ parts.2.length && validPublicId l.publicId then
    some "identity_links_public_id_format"
  else if !kindMatchesId l.kind l.publicId then some "identity_links_kind_matches"
  else if !isAccountUuid l.uuid then some "identity_links_uuid_format"
  else if !(1 ≤ l.source.length && l.source.length ≤ 1024) then
    some "identity_links_source_length"
  else none

/-- The account row a link seeds. `link_identities.rs:570–592`. -/
def seed (verified : List (String × VerifiedAccount)) (pair : Pair) : Account :=
  let found := verified.lookup pair.uuid
  { Account.new pair.uuid pair.kind with
    currentId := (found.bind (·.currentId)).or (some pair.publicId)
    displayName := found.bind (·.displayName)
    custodianUuid := found.bind (·.custodianUuid) }

/-- The check of `accounts` a seeded row violates, if any: its id and custodian come from the
lookup as they are. `migrations/0039_accounts_identity.sql:34–47`. -/
def seedViolated (a : Account) : Option String :=
  if !a.currentId.all validPublicId then some "accounts_current_id_format"
  else if !a.custodianUuid.all isAccountUuid then some "accounts_custodian_format"
  else if !a.displayName.all (·.length ≤ 200) then some "accounts_display_name_length"
  else a.violated

/-- The upsert of a link keeps the uuid it replaces. `link_identities.rs:552–569`. -/
def upsertLink (source : String) (pair : Pair) (links : List IdentityLink) : List IdentityLink :=
  upsert IdentityLink.publicId pair.publicId
    { publicId := pair.publicId, principal := pair.principal, kind := pair.kind,
      uuid := pair.uuid, previous := none, source }
    (fun l => { l with
      uuid := pair.uuid
      previous := some l.uuid
      source
      principal := pair.principal.or l.principal })
    links

/-- The fourth step for one pair; it reads the links it is changing.
`link_identities.rs:543–594`. -/
def recordPair (verified : List (String × VerifiedAccount)) (source : String)
    (state : Tables H × Nat) (pair : Pair) : Except LinkError (Tables H × Nat) :=
  let (s, seeded) := state
  if s.link pair.publicId = some pair.uuid then .ok (s, seeded)
  else
    let proposed : IdentityLink :=
      { publicId := pair.publicId, principal := pair.principal, kind := pair.kind,
        uuid := pair.uuid, previous := none, source }
    match proposed.violated with
    | some name => .error (.constraint name)
    | none =>
      if s.links.any fun l => l.uuid = pair.uuid && l.publicId ≠ pair.publicId then
        .error (.constraint "identity_links_one_identity_per_account")
      else
        let s := { s with links := upsertLink source pair s.links }
        match seedViolated (seed verified pair) with
        | some name => .error (.constraint name)
        | none =>
          if (account s.accounts pair.uuid).isSome then .ok (s, seeded)
          else .ok ({ s with accounts := s.accounts ++ [seed verified pair] }, seeded + 1)

/-! ## The run -/

/-- `link_identities`. A dry run does all of it and rolls back. `link_identities.rs:321–662`. -/
def linkIdentities [DecidableEq H] (uuids : UuidText)
    (digest : Multiset (ActorType × String) → H) (fuel : Nat) (s : Tables H)
    (rows : List MappingRow) (verified : List (String × VerifiedAccount))
    (options : LinkOptions) : Except LinkError (Tables H × LinkReport) := do
  let report : LinkReport :=
    { dryRun := options.dryRun, mappingRows := rows.length, linked := [], relinked := []
      unchanged := [], superseded := 0, accountsSeeded := 0 }
  let pairs ← rows.mapM (toPair uuids verified s)
  let (map, report) ← pairs.foldlM (mapPair s options) ([], report)
  let (rekeyed, superseded) ← rekeyTables digest fuel map s
  let (recorded, accountsSeeded) ←
    pairs.foldlM (recordPair verified options.source) (rekeyed, 0)
  .ok (if options.dryRun then s else recorded, { report with superseded, accountsSeeded })

end SiliconDm.Link
