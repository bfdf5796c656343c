import SiliconDm.Base.ReadCommitted
import SiliconDm.Link.ParticipantSet

/-!
# Canonical direct conversations

Callers of `create_conversation` and `ensure_direct_conversation` find the canonical direct
conversation of a participant set or insert it, in transactions that run beside each other, and
`link-identities` rewrites the participants between them. The run locks every table in
`ACCESS EXCLUSIVE` mode first, so it waits for every transaction that has executed a statement
and the others wait for it.

Sources: `src/infrastructure/postgres/conversations.rs:68–160,306–360`, `idempotency.rs:39–176`,
`directory.rs:33–84`, `link_identities.rs:164–289`,
`migrations/0040_accounts_partition_behaviour.sql:60–77`.
-/

namespace SiliconDm.Link.Canonical

open Base
open Server (ActorType)

/-! ## Tables -/

/-- The primary key of an idempotency record of `create_conversation`. -/
structure RecordKey where
  actor : ActorType × String
  idempotencyKey : String
  deriving DecidableEq, Repr

/-- An idempotency record; one in progress has no resource. -/
structure Record (R : Type) where
  key : RecordKey
  hash : R
  resource : Option Nat
  deriving DecidableEq, Repr

/-- A call: the participants it names, the id it would insert and when it began. -/
inductive Call where
  | create (creator : ActorType × String) (names : List (ActorType × String)) (key : String)
      (candidate now : Nat)
  | ensure (a b : ActorType × String) (candidate now : Nat)
  deriving DecidableEq, Repr

namespace Call

def names : Call → List (ActorType × String)
  | .create _ names .. => names
  | .ensure a b .. => [a, b]

def candidate : Call → Nat
  | .create _ _ _ candidate _ => candidate
  | .ensure _ _ candidate _ => candidate

def now : Call → Nat
  | .create _ _ _ _ now => now
  | .ensure _ _ _ now => now

def recordKey : Call → Option RecordKey
  | .create creator _ key .. => some ⟨creator, key⟩
  | .ensure .. => none

/-- The participants as `canonicalize_participants` leaves them. -/
def participants (c : Call) : List (ActorType × String) :=
  canonicalize c.names

/-- The checks before the transaction. `conversations.rs:79–93,145–150`. -/
def accepted (c : Call) : Bool :=
  match c with
  | .create creator .. =>
    2 ≤ c.participants.length && c.participants.length ≤ 100 && c.participants.contains creator
  | .ensure .. => c.participants.length = 2

end Call

structure Answer where
  call : Call
  conversation : Nat
  deriving DecidableEq, Repr

/-- The tables, the records, and the answers as history, which no statement reads. -/
structure Store (H R : Type) where
  tables : Tables H
  records : List (Record R)
  answers : List Answer
  deriving DecidableEq, Repr

/-- The two hash functions: SHA-256 of a participant set's bytes, and the request hash of the
canonical participants. -/
structure Hashing (H R : Type) where
  sha256 : List UInt8 → H
  request : List (ActorType × String) → R

/-! ## Statements -/

inductive Write (H R : Type) where
  | anchor (row : Anchor)
  | conversation (row : Conversation H)
  | participant (row : Participant)
  | record (row : Record R)
  | forget (key : RecordKey)
  | answer (answer : Answer)
  deriving DecidableEq, Repr

/-- `set` is the entry of a hash in the canonical index, `row` that of an id in the primary
key, `call` stands for the caller's own memory. -/
inductive Lock (H : Type) where
  | organization
  | anchor (row : Anchor)
  | set (hash : H)
  | row (id : Nat)
  | participant (row : Participant)
  | record (key : RecordKey)
  | call (candidate : Nat)
  deriving DecidableEq, Repr

inductive Statement where
  | reject
  | refreshOrganization
  | refreshActor (actor : ActorType × String)
  | claim (c : Call) (key : RecordKey)
  | replay (c : Call) (key : RecordKey)
  | select (c : Call)
  | insert (c : Call)
  | reselect (c : Call)
  | participant (c : Call) (actor : ActorType × String)
  | complete (c : Call) (key : RecordKey) (conversation : Nat)
  | answer (c : Call) (conversation : Nat)
  | forget (key : RecordKey)
  deriving DecidableEq, Repr

/-- A call whose names are strings of the machine, or the deletion of a record whose retention
has passed. -/
inductive Task where
  | call (c : Call) (fits : ∀ a ∈ c.names, Fits a.2)
  | forget (key : RecordKey)

section

variable {H R : Type} [DecidableEq H] [DecidableEq R]

def Store.apply (d : Store H R) : Write H R → Store H R
  | .anchor row =>
    if row ∈ d.tables.anchors then d
    else { d with tables := { d.tables with anchors := d.tables.anchors ++ [row] } }
  | .conversation row =>
    { d with tables := { d.tables with conversations := d.tables.conversations ++ [row] } }
  | .participant row =>
    { d with tables := { d.tables with participants := d.tables.participants ++ [row] } }
  | .record row => { d with records := put Record.key row d.records }
  | .forget key => { d with records := d.records.filter (·.key ≠ key) }
  | .answer answer => { d with answers := d.answers ++ [answer] }

def Write.lock : Write H R → Lock H
  | .anchor row => .anchor row
  | .conversation row => .set row.setHash
  | .participant row => .participant row
  | .record row => .record row.key
  | .forget key => .record key
  | .answer a => .call a.call.candidate

def Store.record (d : Store H R) (key : RecordKey) : Option (Record R) :=
  getRow Record.key d.records key

/-- `SELECT id … WHERE participant_set_hash = $1 AND NOT is_group AND superseded_by IS NULL`. -/
def canonicalOf (s : Tables H) (hash : H) : Option Nat :=
  (s.conversations.find? fun c => c.isCanonical && c.setHash = hash).map (·.id)

variable (e : Hashing H R)

/-- The hash a call looks for. -/
def Call.hash (c : Call) : H :=
  participantSetHash e.sha256 c.participants

def Call.row (c : Call) : Conversation H where
  id := c.candidate
  organization := "@accounts"
  isGroup := false
  setHash := c.hash e
  supersededBy := none
  updatedAt := c.now

def Call.participantRow (c : Call) (a : ActorType × String) : Participant where
  conversation := c.candidate
  organization := "@accounts"
  kind := a.1
  id := a.2

/-- What follows once the conversation is known. `conversations.rs:113–133,155–157`. -/
def Call.finish (c : Call) (conversation : Nat) : List Statement :=
  (c.recordKey.toList.map fun key => .complete c key conversation) ++ [.answer c conversation]

def Call.code (c : Call) : List Statement :=
  if c.accepted then
    .refreshOrganization :: c.participants.map .refreshActor ++
      [(c.recordKey.elim (.select c) (.claim c))]
  else [.reject]

def Task.code : Task → List Statement
  | .call c _ => c.code
  | .forget key => [.forget key]

/-- One statement. `none` is an error, which rolls the transaction back. -/
def Statement.exec (stmt : Statement) (d : Store H R) :
    Option (Outcome Statement Unit (Write H R) (Lock H)) :=
  match stmt with
  | .reject => none
  -- every transaction of the partition refreshes its one organization row
  | .refreshOrganization => some { locks := [.organization] }
  | .refreshActor a => some { writes := [.anchor ⟨"@accounts", a.1, a.2⟩] }
  | .claim c key =>
    match d.record key with
    | none => some
      { writes := [.record ⟨key, e.request c.participants, none⟩], next := [.select c] }
    | some _ => some { next := [.replay c key] }
  | .replay c key =>
    match d.record key with
    | none => none
    | some r =>
      if r.hash = e.request c.participants then
        r.resource.map fun id => { locks := [.record key], next := [.answer c id] }
      else none
  | .select c =>
    match canonicalOf d.tables (c.hash e) with
    | some id => some { next := c.finish id }
    | none => some { next := [.insert c] }
  | .insert c =>
    match canonicalOf d.tables (c.hash e) with
    | some _ => some { next := [.reselect c] }
    | none =>
      if d.tables.conversations.any fun row => row.id = c.candidate ||
          (row.organization = "@accounts" && row.setHash = c.hash e) then none
      else some
        { writes := [.conversation (c.row e)], locks := [.row c.candidate]
          next := c.participants.map (.participant c) ++ c.finish c.candidate }
  | .reselect c =>
    (canonicalOf d.tables (c.hash e)).map fun id => { next := c.finish id }
  | .participant c a => some { writes := [.participant (c.participantRow a)] }
  | .complete _ key id =>
    match d.record key with
    | some ⟨_, hash, none⟩ => some { writes := [.record ⟨key, hash, some id⟩] }
    | _ => none
  | .answer c id => some { writes := [.answer ⟨c, id⟩] }
  | .forget key => some { writes := [.forget key] }

/-- The transactions of the service. -/
def language : Language (Store H R) Statement Unit (Write H R) (Lock H) Task where
  apply := Store.apply
  key := Write.lock
  code := Task.code
  exec := Statement.exec e
  holds := fun _ _ _ => true

abbrev State (H R : Type) := Sessions (Store H R) Statement Unit (Write H R) (Lock H) Task

/-! ## Runs of link-identities -/

/-- What the operator gives a run, in strings of the machine. -/
structure LinkRun where
  request : Request
  fits : ∀ row ∈ request.rows, Fits row.accountsUuid

def LinkRun.rekeys (uuids : UuidText) (d : Store H R) (run : LinkRun) : List (String × String) :=
  if commitsRekey uuids (rowsHash e.sha256) (d.tables.conversations.length + 2) d.tables
      run.request then
    Link.rekeys uuids d.tables run.request.rows
  else []

/-- The records are re-keyed like every table; their primary key may forbid it. -/
def linked (uuids : UuidText) (d : Store H R) (run : LinkRun) : Store H R :=
  let map := run.rekeys e uuids d
  let records := d.records.map fun r =>
    { r with key.actor.2 := (map.lookup r.key.actor.2).getD r.key.actor.2 }
  if (records.map Record.key).Nodup then
    { d with
      tables := runOnce uuids (rowsHash e.sha256) (d.tables.conversations.length + 2) d.tables
        run.request
      records := records }
  else d

/-- A row without its activity. -/
def inactive (c : Conversation H) : Conversation H :=
  { c with updatedAt := 0 }

/-- Tables that differ in nothing that names a direct conversation: messages raise the activity
of a conversation, accounts sign in, deliveries are made. -/
def sameDirects (s s' : Tables H) : Bool :=
  s'.participants = s.participants &&
    s'.conversations.map inactive = s.conversations.map inactive

inductive Label (H : Type) where
  | session (action : Action Task)
  | link (run : LinkRun)
  | other (tables : Tables H)

def step (uuids : UuidText) (s : State H R) : Label H → Option (State H R)
  | .session action => (language e).step s action
  | .link run =>
    -- the run's locks: no open transaction has touched a table
    if s.active.all (·.views.isEmpty) then
      some { s with committed := linked e uuids s.committed run }
    else none
  | .other tables =>
    if sameDirects s.committed.tables tables then
      some { s with committed := { s.committed with tables := tables } }
    else none

end

end SiliconDm.Link.Canonical
