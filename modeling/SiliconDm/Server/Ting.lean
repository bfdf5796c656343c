import Mathlib.Data.String.Basic
import SiliconDm.Base.System
import SiliconDm.Base.Table
import SiliconDm.Link.Mapping
import SiliconDm.Protocol.Codes
import SiliconDm.Server.Mutations
import SiliconDm.Server.Selectors

/-!
# Handoffs to Ting

Each delivery of a message or of its status has one row of `ting_handoffs`. Workers claim due
rows under a lease, send the stored request and record the acceptance or a retry; handoffs that
cannot be sent are discarded. What a statement may do to a row is limited by its `WHERE` clause,
by the trigger `guard_ting_handoff` and by the checks of the table.

Sources: `src/infrastructure/postgres/ting.rs:83–304,455–521`, `src/worker/ting.rs:148–247`,
`accounts.rs:562–590`, `migrations/0028_ting_handoffs.sql`, `0031_ting_originators.sql:74–91`,
`0039_accounts_identity.sql:174–187`.
-/

namespace SiliconDm.Server.Ting

open Base
open Link (isAccountUuid isWhitespace trim)
open Backend (isControl require)

/-! ### Rows -/

/-- The columns the guard trigger fixes. -/
structure Reference where
  deliveryId : Nat
  target : ActorRef
  conversation : Nat
  publicConversation : String
  messageSequence : Nat
  deliverySequence : Nat
  event : String
  routingAddress : Option String
  originator : Option ActorRef
  deriving DecidableEq, Repr

/-- `lease_id`, `lease_owner` and `lease_expires_at`: all set or none. -/
structure Lease where
  id : Nat
  owner : String
  expiresAt : Nat
  deriving DecidableEq, Repr

/-- `accepted_at`, `ting_id`, `ting_created_at` and `silent`: all set or none. -/
structure Acceptance where
  acceptedAt : Nat
  tingId : String
  createdAt : Nat
  silent : Bool
  deriving DecidableEq, Repr

/-- `discarded_at` and `discard_reason`: both set or none. -/
structure Discard where
  discardedAt : Nat
  reason : String
  deriving DecidableEq, Repr

structure Handoff where
  reference : Reference
  requestBody : Option String
  attemptCount : Nat
  nextAttemptAt : Nat
  lastErrorCode : Option String
  lease : Option Lease
  acceptance : Option Acceptance
  discard : Option Discard
  deriving DecidableEq, Repr

def Handoff.id (h : Handoff) : Nat :=
  h.reference.deliveryId

/-- A row as the trigger of `actor_deliveries` inserts it. -/
def Handoff.enqueued (reference : Reference) (now : Nat) : Handoff where
  reference := reference
  requestBody := none
  attemptCount := 0
  nextAttemptAt := now
  lastErrorCode := none
  lease := none
  acceptance := none
  discard := none

/-! ### Requests -/

inductive Json where
  | null
  | text (s : String)
  | number (n : Nat)
  | object (fields : List (String × Json))

/-- `value[name]`, which is null where there is no such field. -/
def Json.field (name : String) : Json → Json
  | .object fields => (fields.lookup name).getD .null
  | _ => .null

/-- `serde_json` and PostgreSQL's `jsonb`: writing a document, reading a text, and whether a
text is a JSON object to PostgreSQL. -/
structure Serde where
  toText : Json → Option String
  parse : String → Option Json
  jsonbObject : String → Bool

/-- `ActorId::from_str`. `src/domain/actor.rs:186–199`. -/
def parseActorId (value : String) : Option String :=
  let normalized := String.ofList (trim value.toList)
  if normalized.toList.isEmpty || 255 < normalized.utf8ByteSize ||
      normalized.toList.any isControl then none
  else some normalized

/-- What stands before the first `@` is no routing prefix, or what follows names no Silicon. -/
def badPrefix (isi actor : List Char) : Bool :=
  isi.isEmpty || isi.any (fun c => isWhitespace c || c = ':' || c = '@') ||
    !("si:".toList.isPrefixOf actor || isAccountUuid (String.ofList actor))

/-- A public id with 3 to 30 characters behind `c:`, or 50 behind `si:`. -/
def validActorId (actor : List Char) : Bool :=
  (publicIdParts (String.ofList actor)).any fun parts =>
    3 ≤ parts.2.length && parts.2.length ≤ (if parts.1 = .carbon then 30 else 50) &&
      parts.2.all fun c => c.isLower || c.isDigit || c = '-' || c = '_'

/-- The account of an address and its routing prefix. `src/domain/actor.rs:108–141`. -/
def addressParts (value : String) : Option (String × Option String) :=
  let read (actor : List Char) (isi : Option String) : Option (String × Option String) :=
    if isAccountUuid (String.ofList actor) || validActorId actor then
      some (String.ofList actor, isi)
    else none
  match Selector.splitOnce '@' value.toList with
  | some (isi, actor) => if badPrefix isi actor then none else read actor (some (String.ofList isi))
  | none => read value.toList none

/-- The `metadata` of a request: the routing prefix, where it addresses the target. -/
def metadata (h : Handoff) (publicId : Option String) : Except Refusal Json :=
  match h.reference.routingAddress with
  | none => .ok (.object [])
  | some address =>
    match parseActorId address with
    | none => .error .internal
    | some address =>
      match addressParts address with
      | some (base, some isi) =>
        if (base = h.reference.target.id || publicId = some base) &&
            h.reference.target.actorType = .silicon then .ok (.object [("isi", .text isi)])
        else .ok (.object [])
      | _ => .ok (.object [])

/-- `prepared_body`: the stored request if there is one. `display` writes a delivery id.
`ting.rs:471–511`. -/
def preparedBody (serde : Serde) (display : Nat → String) (appId : String)
    (publicId : Option String) (h : Handoff) : Except Refusal String :=
  let eventType := appId ++ ".sync.changed"
  match h.requestBody with
  | some body =>
    match (serde.parse body).map (Json.field "type") with
    | none => .error .internal
    | some (.text type) =>
      if type = eventType then .ok body
      else .error (.conflict "prepared Ting request belongs to another producer")
    | some _ => .error (.conflict "prepared Ting request belongs to another producer")
  | none =>
    match Protocol.messageCode h.reference.messageSequence with
    | none => .error .internal
    | some messageId =>
      match metadata h publicId with
      | .error e => .error e
      | .ok metadata =>
        let body := Json.object [
          ("type", .text eventType),
          ("for", .object [("uuid", .text h.reference.target.id),
            ("id", publicId.elim .null .text)]),
          ("key", .text (display h.id)),
          ("data", .object [
            ("schema_version", .number 2),
            ("event", .text h.reference.event),
            ("conversation_id", .text h.reference.publicConversation),
            ("message_id", .text messageId),
            ("delivery_id", .text (display h.id)),
            ("delivery_sequence", .number h.reference.deliverySequence)]),
          ("metadata", metadata)]
        (serde.toText body).elim (.error .internal) .ok

/-- `is_prepared_before_cutover`. `ting.rs:465–469`. -/
def isPreparedBeforeCutover (serde : Serde) (body : String) : Bool :=
  match serde.parse body with
  | none => true
  | some value =>
    (match value with
      | .object fields => (fields.lookup "org_id").isSome
      | _ => false) ||
    (match value.field "for" with
      | .text _ => true
      | _ => false)

/-! ### Updates -/

def lengthBetween (low high : Nat) (s : String) : Bool :=
  low ≤ s.length && s.length ≤ high

def Handoff.violated (serde : Serde) (h : Handoff) : Option String :=
  if !h.requestBody.all fun b => b.utf8ByteSize ≤ 262144 && serde.jsonbObject b then
    some "ting_handoffs_request_body_check"
  else if !h.lastErrorCode.all (lengthBetween 1 255) then
    some "ting_handoffs_last_error_code_check"
  else if !h.lease.all fun l => lengthBetween 1 255 l.owner then some "ting_handoffs_check"
  else if !h.acceptance.all fun a =>
      lengthBetween 1 255 a.tingId && h.requestBody.isSome && h.lease.isNone then
    some "ting_handoffs_check1"
  else if !h.discard.all fun d => lengthBetween 1 255 d.reason then
    some "ting_handoffs_discard_reason_length"
  else if h.discard.isSome && h.acceptance.isSome then
    some "ting_handoffs_discarded_not_accepted"
  else none

/-- `map_constraint_error` on a violated check or an exception of the trigger, both `23514`.
`postgres/mod.rs:214–226`. -/
def durableInvariant : Refusal :=
  .validation "request violates a durable data invariant"

/-- An `UPDATE` of one row under `guard_ting_handoff` and the checks.
`migrations/0031_ting_originators.sql:74–91`. -/
def Handoff.update (serde : Serde) (old new : Handoff) : Except Refusal Handoff :=
  if new.reference ≠ old.reference ||
      (old.requestBody.isSome && new.requestBody ≠ old.requestBody) then .error durableInvariant
  else if old.acceptance.isSome && new ≠ old then .error durableInvariant
  else (new.violated serde).elim (.ok new) fun _ => .error durableInvariant

/-- `validate_text`. `ting.rs:513–521`. -/
def validateText (value field : String) : Except Refusal Unit :=
  require (!value.toList.isEmpty && value.utf8ByteSize ≤ 255 && !value.toList.any isControl)
    (.validation s!"{field} must contain 1 to 255 bytes without controls")

theorem length_le_utf8ByteSize (s : String) : s.length ≤ s.utf8ByteSize := by
  have main : ∀ l : List Char, l.length ≤ String.utf8Len l := by
    intro l
    induction l with
    | nil => rfl
    | cons c l ih =>
      have := c.utf8Size_pos
      simp only [List.length_cons, String.utf8Len]
      omega
  calc s.length = s.toList.length := String.length_toList.symm
    _ ≤ String.utf8Len s.toList := main _
    _ = (String.ofList s.toList).utf8ByteSize := (String.utf8ByteSize_ofList _).symm
    _ = s.utf8ByteSize := by rw [String.ofList_toList]

theorem one_le_length {s : String} (h : s ≠ "") : 1 ≤ s.length := by
  rw [← String.length_toList, Nat.one_le_iff_ne_zero]
  intro h0
  exact h (String.toList_eq_nil_iff.mp (List.length_eq_zero_iff.mp h0))

/-! ### Claims -/

/-- What a worker gets for a leased row. `ting.rs:28–45`. -/
structure Claim where
  deliveryId : Nat
  leaseId : Nat
  target : ActorRef
  originator : Option ActorRef
  conversation : Nat
  sequence : Nat
  requestBody : String
  attemptCount : Nat
  deriving DecidableEq, Repr

/-- A claim with the end of its lease, which the worker does not see. -/
structure Handed where
  claim : Claim
  expiresAt : Nat
  deriving DecidableEq, Repr

/-- Whether a row is due, unleased or with an expired lease, and its target still takes part.
`ting.rs:115–120`. -/
def Handoff.due (now : Nat) (participants : List (Nat × ActorRef)) (h : Handoff) : Bool :=
  h.acceptance.isNone && h.discard.isNone && h.nextAttemptAt ≤ now &&
    h.lease.all (·.expiresAt ≤ now) &&
    participants.contains (h.reference.conversation, h.reference.target)

/-- Why a selected row is not sent. `ting.rs:132–143`. -/
def discardReason (serde : Serde) (h : Handoff) : Option String :=
  if h.requestBody.any (isPreparedBeforeCutover serde) then
    some "prepared_before_accounts_cutover"
  else if isAccountUuid h.reference.target.id then none
  else some "recipient_without_account"

/-- The parameters of a deployment: the producer's id, and how ids are written. -/
structure Producer where
  serde : Serde
  display : Nat → String
  appId : String

/-- `parse_actor_id` of the originator, where there is one. `ting.rs:170–176`. -/
def parsedOriginator : Option ActorRef → Except Refusal (Option ActorRef)
  | none => .ok none
  | some actor => (parseActorId actor.id).elim (.error .internal) fun id =>
      .ok (some ⟨actor.actorType, id⟩)

/-- One selected row: discarded, or leased with its request. The id of a target that is not
discarded is an account's uuid, which always parses. `ting.rs:131–181`. -/
def handleRecord (p : Producer) (now leaseId leaseMillis : Nat) (owner : String)
    (publicId : Option String) (h : Handoff) : Except Refusal (Handoff × Option Handed) :=
  match discardReason p.serde h with
  | some reason => do
    let h ← h.update p.serde { h with discard := some ⟨now, reason⟩ }
    .ok (h, none)
  | none => do
    let body ← preparedBody p.serde p.display p.appId publicId h
    let h ← h.update p.serde
      { h with requestBody := some body, lease := some ⟨leaseId, owner, now + leaseMillis⟩ }
    let originator ← parsedOriginator h.reference.originator
    .ok (h, some ⟨⟨h.id, leaseId, h.reference.target, originator, h.reference.conversation,
      h.reference.deliverySequence, body, h.attemptCount⟩, now + leaseMillis⟩)

/-- The checks of the arguments of a claim. `ting.rs:90–102`. -/
def claimArguments (p : Producer) (owner : String) (limit leaseMillis : Nat) :
    Except Refusal Unit := do
  validateText owner "Ting lease owner"
  validateText p.appId "Ting producer app ID"
  require (p.appId.utf8ByteSize + ".sync.changed".utf8ByteSize ≤ 255)
    (.validation "Ting type exceeds 255 bytes")
  require (1 ≤ limit && limit ≤ 100) (.validation "Ting claim limit must be 1 to 100")
  require (1 ≤ leaseMillis) (.validation "Ting lease duration must be positive")

/-- `MAX_DISCARDS_PER_CLAIM`. -/
def maxDiscardsPerClaim : Nat := 500

/-! ### Progress -/

/-- `lease_id=$2 AND lease_expires_at>clock_timestamp()`. -/
def Handoff.leasedTo (now leaseId : Nat) (h : Handoff) : Bool :=
  h.lease.any fun l => l.id = leaseId && now < l.expiresAt

/-- The `UPDATE` of a row its worker leases, and the `SELECT` after one that found no such row:
the worker is told so unless `settled` holds of the row. -/
def recordProgress (p : Producer) (now leaseId : Nat) (new : Handoff → Handoff)
    (settled : Handoff → Bool) (row : Option Handoff) : Except Refusal (Option Handoff) :=
  match row.filter fun h => h.leasedTo now leaseId && h.acceptance.isNone with
  | some h => (h.update p.serde (new h)).map some
  | none =>
    if row.any settled then .ok none
    else .error (.conflict "Ting delivery claim is no longer owned")

def Handoff.accepted (h : Handoff) (a : Acceptance) : Handoff :=
  { h with acceptance := some a, lease := none, lastErrorCode := none }

/-- `accept_ting_delivery`: the row after it. A repeated acceptance finds its own record.
`ting.rs:240–269`. -/
def acceptTingDelivery (p : Producer) (now leaseId : Nat) (tingId : String) (createdAt : Nat)
    (silent : Bool) (row : Option Handoff) : Except Refusal (Option Handoff) := do
  validateText tingId "Ting ID"
  recordProgress p now leaseId (·.accepted ⟨now, tingId, createdAt, silent⟩)
    (fun h => h.acceptance.any fun a =>
      a.tingId = tingId && a.createdAt = createdAt && a.silent = silent) row

/-- The row a retry leaves; the count saturates. -/
def Handoff.retried (h : Handoff) (nextAttemptAt : Nat) (errorCode : String) : Handoff :=
  { h with
    nextAttemptAt := nextAttemptAt
    lastErrorCode := some errorCode
    attemptCount := if h.attemptCount < 9223372036854775807 then h.attemptCount + 1
      else h.attemptCount
    lease := none }

/-- `retry_ting_delivery`: the row after it. `ting.rs:276–304`. -/
def retryTingDelivery (p : Producer) (now leaseId nextAttemptAt : Nat) (errorCode : String)
    (row : Option Handoff) : Except Refusal (Option Handoff) := do
  validateText errorCode "Ting retry error code"
  recordProgress p now leaseId (·.retried nextAttemptAt errorCode) (·.acceptance.isSome) row

/-- `ting_delivery_authorized`. `ting.rs:192–214`. -/
def tingDeliveryAuthorized (now : Nat) (participants : List (Nat × ActorRef)) (c : Claim)
    (row : Option Handoff) : Bool :=
  row.any fun h => h.leasedTo now c.leaseId && h.reference.target = c.target &&
    h.acceptance.isNone && h.discard.isNone &&
    participants.contains (h.reference.conversation, h.reference.target)

/-- Rows `discard_ting_handoffs` may pick. `ting.rs:223–227`. -/
def Handoff.unsent (now : Nat) (h : Handoff) : Bool :=
  h.acceptance.isNone && h.discard.isNone && h.lease.all (·.expiresAt ≤ now)

end SiliconDm.Server.Ting
