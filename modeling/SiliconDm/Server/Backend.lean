import SiliconDm.Base.Handler
import SiliconDm.Server.Idempotency
import SiliconDm.Server.Management
import SiliconDm.Server.Writing

/-!
# The service that a client calls

Every request that changes something, from its route to its last answer: how its path is
resolved, what it checks on the pool, its transactions and what it reads back. A request is
executed alone; the transactions are the statements of `Transactions`.

Texts are what a digest of them would identify: the settings of a group and the content of a
message or a draft are compared, never read. Left out are checks of the input alone (lengths,
control characters, the number of bundled messages), the routing addresses of a message, GIFs
and attachments, the lookups that complete the account cache (accounts are named by their uuid)
and times that no request reads (`refreshed_at`, `updated_at` of receipts and drafts). The
sign-in of the caller is checked before all of this and is not changed by it.

Sources: `src/api/extract.rs:106–190`, `access.rs`, `handlers.rs`, `groups.rs`, `me.rs`,
`sync.rs:198–223`; `src/infrastructure/postgres/` as named below.
-/

namespace SiliconDm.Server

open Base List

/-! ### Refusals -/

/-- A refused request as its client sees it. `error.rs:110–196`. -/
structure Refusal where
  status : Nat
  code : String
  message : String
  deriving DecidableEq, Repr

namespace Refusal

def notFound : Refusal :=
  ⟨404, "not_found", "resource not found"⟩

def validation (message : String) : Refusal :=
  ⟨422, "validation_error", message⟩

def conflict (message : String) : Refusal :=
  ⟨409, "conflict", message⟩

def forbidden (code message : String) : Refusal :=
  ⟨403, code, message⟩

def internal : Refusal :=
  ⟨500, "internal_error", "internal server error"⟩

def accountNotFound (id : String) : Refusal :=
  ⟨404, "account_not_found", s!"No Silicon Accounts account has the id {id} now. " ++
    "Ids can change: use the account's current c:/si: id (an id released by a rename is not " ++
    "followed)."⟩

def accountDeleted (id : String) : Refusal :=
  ⟨404, "account_deleted", s!"{id} belongs to a deleted Silicon Accounts account; it cannot " ++
    "receive messages or invitations."⟩

end Refusal

/-- `map_constraint_error`, where the statement goes through it. `postgres/mod.rs:214–226`. -/
def constraintRefusal (message : String) : Refusal :=
  if message ∈ ["conversations_pkey", "messages_pkey"] then .conflict "resource already exists"
  else if message ∈ ["conversation does not exist", "delivery target actor does not exist"] then
    .notFound
  else .internal

/-- Of the refusals with a code of their own only this one is a 404; the others conflict. -/
def AppError.refusal : AppError → Refusal
  | .notFound => .notFound
  | .refused code message => ⟨if code = "invitation_not_found" then 404 else 409, code, message⟩
  | .forbidden code message => .forbidden code message
  | .conflict message => .conflict message
  | .constraint message => constraintRefusal message

/-! ### Tables -/

/-- A direct conversation and the set of accounts it is canonical for. -/
structure Direct where
  conversation : Nat
  participants : List ActorRef
  createdBy : ActorRef
  createdAt : Nat
  deriving DecidableEq, Repr

/-- A row of `silicon_contact_allowances`. -/
structure Allowance where
  silicon : String
  allowed : ActorRef
  addedBy : String
  addedAt : Nat
  deriving DecidableEq, Repr

structure Draft where
  conversation : Nat
  actor : ActorRef
  version : Nat
  content : String
  deriving DecidableEq, Repr

inductive ReceiptStatus where
  | delivered
  | read
  deriving DecidableEq, Repr

structure Receipt where
  message : Nat
  recipient : ActorRef
  device : String
  status : ReceiptStatus
  deliveredAt : Nat
  readAt : Option Nat
  deriving DecidableEq, Repr

def Receipt.key (r : Receipt) : Nat × ActorRef × String :=
  (r.message, r.recipient, r.device)

/-- The columns of a message that its receipts advance. -/
structure Aggregate where
  status : MessageStatus
  deliveredAt : Option Nat
  readAt : Option Nat
  deriving DecidableEq, Repr

structure Bundle where
  id : Nat
  conversation : Nat
  createdBy : ActorRef
  display : Nat
  members : List Nat
  deriving DecidableEq, Repr

inductive Activity where
  | typing
  | recordingVoice
  | transcribingVoice
  | uploadingFile
  | searchingGifs
  deriving DecidableEq, Repr

/-- A row of `client_presence_leases`. -/
structure Lease where
  actor : ActorRef
  device : String
  heartbeatAt : Nat
  leaseExpiresAt : Nat
  activity : Option Activity
  activityExpiresAt : Option Nat
  disconnectedAt : Option Nat
  lastSeenAt : Option Nat
  deriving DecidableEq, Repr

def Lease.key (l : Lease) : ActorRef × String :=
  (l.actor, l.device)

/-- The device leases, those of the retired realtime sessions, and when an account was last seen. -/
structure Presence where
  leases : List Lease
  sessions : List Lease
  lastSeen : List (ActorRef × Nat)
  deriving DecidableEq, Repr

/-- What the service stores. `updatedAt` orders the list of conversations; `supersededBy` names
the canonical conversation of one that was merged. -/
structure Backend where
  db : Database
  groups : List Management.Group
  directs : List Direct
  supersededBy : List (Nat × Nat)
  records : List Idempotency.Record
  allowances : List Allowance
  drafts : List Draft
  receipts : List Receipt
  aggregates : Nat → Aggregate
  bundles : List Bundle
  updatedAt : Nat → Nat
  presence : Presence

def Backend.empty : Backend where
  db := .empty
  groups := []
  directs := []
  supersededBy := []
  records := []
  allowances := []
  drafts := []
  receipts := []
  aggregates _ := ⟨.sent, none, none⟩
  bundles := []
  updatedAt _ := 0
  presence := ⟨[], [], []⟩

/-! ### Transactions -/

/-- An open transaction: the database as it sees it, and the checks that wait for its commit. -/
structure Work where
  backend : Backend
  writes : List Write
  deferred : List Check

namespace Backend

abbrev Transact (α : Type) : Type :=
  Tx Refusal Work α

abbrev Serve (α : Type) : Type :=
  Handler Refusal Backend α

end Backend

def Work.wrote (w : Work) (o : Outcome Statement Check Write Lock) : Work where
  backend := { w.backend with db := store.applyAll w.backend.db o.writes }
  writes := w.writes ++ o.writes
  deferred := w.deferred ++ o.deferred

/-- Execute statements and those they lead to, down to a depth. -/
def runStatements : Nat → List Statement → Work → Except AppError Work
  | 0, [], w => .ok w
  | 0, _ :: _, _ => .error (.constraint "statements nest too deep")
  | depth + 1, code, w =>
    code.foldlM (fun w statement => do
      let o ← statement.exec w.backend.db
      runStatements depth o.next (w.wrote o)) w

/-- No statement leads further: a revision fans out, which delivers, which enqueues. -/
def nesting : Nat := 4

namespace Backend

def statements (code : List Statement) : Transact Unit := fun w =>
  match runStatements nesting code w with
  | .ok w' => .ok ((), w')
  | .error e => .error e.refusal

/-- A query inside a transaction. -/
def query {α : Type} (c : Backend → Except Refusal α) : Transact α :=
  Tx.read fun w => c w.backend

/-- A write to a table that only this module has. -/
def write (f : Backend → Backend) : Transact Unit :=
  Tx.alter fun w => { w with backend := f w.backend }

def finish (w : Work) : Except Refusal Backend :=
  if w.deferred.all (·.holds w.writes w.backend.db) then .ok w.backend
  else .error (.validation "request violates a durable data invariant")

def transaction {α : Type} (x : Transact α) : Serve α :=
  Handler.transaction (fun b => { backend := b, writes := [], deferred := [] }) finish x

/-! ### Idempotency keys -/

/-- `claim`: the resource of a completed record, or a new record. `idempotency.rs:39–126`. -/
def claim (now : Nat) (key : Idempotency.Key) (hash : Nat) : Transact (Option Nat) := fun w =>
  match getRow Idempotency.Record.key w.backend.records key with
  | none =>
    .ok (none, { w with
      backend := { w.backend with
        records := put Idempotency.Record.key
          { key
            hash
            status := .inProgress (now + Idempotency.lease)
            expiresAt := now + Idempotency.retention } w.backend.records } })
  | some row =>
    if row.hash ≠ hash then
      .error (.conflict "idempotency key was already used with different request content")
    else
      match row.status with
      | .completed resource => .ok (some resource, w)
      | .inProgress _ => .error (.conflict "idempotent request is still in progress")

/-- `complete`. `idempotency.rs:129–176`. -/
def complete (key : Idempotency.Key) (resource : Nat) : Transact Unit := fun w =>
  match getRow Idempotency.Record.key w.backend.records key with
  | some { key, hash, status := .inProgress _, expiresAt } =>
    .ok ((), { w with
      backend := { w.backend with
        records := put Idempotency.Record.key
          { key, hash, status := .completed resource, expiresAt } w.backend.records } })
  | _ => .error (.conflict "idempotent request no longer owns its mutation lease")

/-- The work of a request behind its key: `body` under a new claim, `again` on a replay. -/
def keyed (now : Nat) (key : Idempotency.Key) (hash : Nat) (body : Transact Nat)
    (again : Nat → Transact Unit) : Transact Nat := do
  match ← claim now key hash with
  | some resource =>
    again resource
    pure resource
  | none =>
    let resource ← body
    complete key resource
    pure resource

end Backend

/-! ### Statements alone -/

/-- How deep a statement can nest. -/
def Statement.rank : Statement → Nat
  | .deletion _ .groups | .message (.nextRevision ..) => 4
  | .deletion _ (.ensureOwner _) | .message (.fanOut ..) | .message (.reportStatus ..) => 3
  | .group _ (.sync _) | .deletion _ .disownAll | .deletion _ .uninviteAll
  | .deletion _ (.succeed _) | .message (.deliver ..) | .upkeep (.compact _) => 2
  | _ => 1

theorem Statement.rank_le (s : Statement) : s.rank ≤ nesting := by
  unfold Statement.rank nesting
  split <;> decide

variable {d : Database} {w w' : Work}

/-- A statement only leads to statements that nest less. -/
theorem rank_next {s s' : Statement} {o : Outcome Statement Check Write Lock} (h : s.exec d = .ok o)
    (hs : s' ∈ o.next) : s'.rank < s.rank := by
  cases s with
  | group g s =>
    cases s with
    | sync now =>
      cases h
      obtain ⟨a, -, rfl⟩ := List.mem_map.mp hs
      exact Nat.one_lt_two
    | _ =>
      simp only [Statement.exec, groupStatement] at h
      repeat' split at h
      all_goals cases h
      all_goals cases hs
  | deletion uuid s =>
    cases s with
    | groups =>
      cases h
      simp only [mem_cons, List.mem_map] at hs
      rcases hs with rfl | rfl | ⟨g, -, rfl⟩ <;> simp [Statement.rank]
    | disownAll | uninviteAll =>
      cases h
      obtain ⟨row, -, rfl⟩ := List.mem_map.mp hs
      exact Nat.one_lt_two
    | ensureOwner g =>
      cases h
      simp only at hs
      split at hs
      · cases hs
      · obtain rfl := mem_singleton.mp hs
        simp [Statement.rank]
    | succeed g =>
      cases h
      obtain ⟨a, -, rfl⟩ := Option.map_eq_some_iff.mp (Option.mem_toList.mp hs)
      exact Nat.one_lt_two
    | _ =>
      cases h
      cases hs
  | message s =>
    simp only [Statement.exec, messageStatement, historyStatement, enqueueStatement] at h
    cases s with
    | fanOut m c revision =>
      cases h
      obtain ⟨a, -, rfl⟩ := List.mem_map.mp hs
      simp [Statement.rank]
    | _ =>
      simp only at h
      repeat' split at h
      all_goals cases h
      all_goals simp only [mem_cons, not_mem_nil, or_false] at hs
      all_goals rcases hs with rfl | rfl
      all_goals simp [Statement.rank]
  | lookup found now =>
    simp only [Statement.exec, lookupStatement] at h
    split at h <;> cases h
    cases hs
  | upkeep s =>
    cases s with
    | compact now =>
      cases h
      obtain ⟨row, -, rfl⟩ := List.mem_map.mp hs
      exact Nat.one_lt_two
    | _ =>
      cases h
      cases hs

def Work.onlyDatabase (w w' : Work) : Prop :=
  w'.backend = { w.backend with db := w'.backend.db }

theorem Work.onlyDatabase_trans {w'' : Work} (h : w.onlyDatabase w') (h' : w'.onlyDatabase w'') :
    w.onlyDatabase w'' := by
  unfold Work.onlyDatabase at *
  rw [h', h]

variable {n : Nat} {code : List Statement}

/-- Statements executed in depth are a run of the store. -/
theorem runs_of_runStatements (h : runStatements n code w = .ok w') :
    store.Runs w.backend.db code w'.backend.db ∧ w.onlyDatabase w' := by
  induction n generalizing code w w' with
  | zero =>
    cases code with
    | nil =>
      obtain rfl : w = w' := Except.ok.inj h
      exact ⟨.nil _, rfl⟩
    | cons s code => cases h
  | succ n ih =>
    -- along the code, each statement with what it leads to
    induction code generalizing w with
    | nil =>
      obtain rfl : w = w' := Except.ok.inj h
      exact ⟨.nil _, rfl⟩
    | cons s code ihc =>
      simp only [runStatements, foldlM_cons] at h
      obtain ⟨m, hm, hrest⟩ := bind_eq_ok.mp h
      obtain ⟨o, ho, hnext⟩ := bind_eq_ok.mp hm
      obtain ⟨hruns, honly⟩ := ih hnext
      obtain ⟨hruns', honly'⟩ := ihc (by simpa only [runStatements] using hrest)
      refine ⟨.cons ?_ (hruns.append hruns'), ?_⟩
      · show (s.exec w.backend.db).toOption = some o
        rw [ho]
        rfl
      · exact Work.onlyDatabase_trans (Work.onlyDatabase_trans rfl honly) honly'

/-- A run of the store is executed to its end when the depth allows for its statements. -/
theorem runStatements_of_runs (hrank : ∀ s ∈ code, s.rank ≤ n)
    (h : store.Runs w.backend.db code d) :
    ∃ w', runStatements n code w = .ok w' ∧ w'.backend.db = d := by
  induction n generalizing code w d with
  | zero =>
    cases code with
    | nil =>
      cases h
      exact ⟨w, rfl, rfl⟩
    | cons s code =>
      have hs := hrank s mem_cons_self
      unfold Statement.rank at hs
      split at hs <;> omega
  | succ n ih =>
    induction code generalizing w with
    | nil =>
      cases h
      exact ⟨w, rfl, rfl⟩
    | cons s code ihc =>
      cases h with
      | @cons _ _ _ _ o ho hrest =>
        obtain ⟨m, hnext, hrest⟩ := hrest.split
        have ho : s.exec w.backend.db = .ok o := eq_ok_of_toOption ho
        have hlow : ∀ s' ∈ o.next, s'.rank ≤ n := by
          intro s' hs'
          have := rank_next ho hs'
          have := hrank s mem_cons_self
          omega
        obtain ⟨w₁, hw₁, rfl⟩ := ih (w := w.wrote o) hlow hnext
        obtain ⟨w₂, hw₂, rfl⟩ := ihc (fun s' hs' => hrank s' (mem_cons_of_mem _ hs'))
          hrest
        refine ⟨w₂, ?_, rfl⟩
        simp only [runStatements, foldlM_cons]
        refine bind_eq_ok.mpr ⟨w₁, bind_eq_ok.mpr ⟨o, ho, hw₁⟩, ?_⟩
        simpa only [runStatements] using hw₂

theorem runStatements_append (n : Nat) (p q : List Statement) (w : Work) :
    runStatements (n + 1) (p ++ q) w =
      runStatements (n + 1) p w >>= runStatements (n + 1) q := by
  simp only [runStatements, foldlM_append]

/-- Statements that only look leave the transaction as it was. -/
theorem runStatements_silent (h : ∀ s ∈ code, ∃ locks, s.exec w.backend.db = .ok { locks }) :
    runStatements (n + 1) code w = .ok w := by
  induction code with
  | nil => rfl
  | cons s code ih =>
    obtain ⟨locks, ho⟩ := h s mem_cons_self
    simp only [runStatements, foldlM_cons]
    refine bind_eq_ok.mpr ⟨w, bind_eq_ok.mpr ⟨_, ho, ?_⟩, ?_⟩
    · have hw : w.wrote { locks } = w := by simp [Work.wrote, Language.applyAll]
      rw [hw]
      cases n <;> rfl
    · simpa only [runStatements] using ih fun s' hs' => h s' (mem_cons_of_mem _ hs')

namespace Backend

variable {w w' : Work} {α : Type} {key : Idempotency.Key} {hash resource now : Nat}
  {body : Transact Nat} {again : Nat → Transact Unit}

theorem statements_eq_ok {code : List Statement} {u : Unit} :
    statements code w = .ok (u, w') ↔ runStatements nesting code w = .ok w' := by
  unfold statements
  cases runStatements nesting code w with
  | error e | ok m => simp

/-- Requests execute statements, and all that those lead to, exactly as the store runs them: none
nests too deep. -/
theorem statements_run_to_the_end (code : List Statement) (w : Work) (d : Database) :
    (∃ w', statements code w = .ok ((), w') ∧ w'.backend.db = d) ↔
      store.Runs w.backend.db code d := by
  constructor
  · rintro ⟨w', hrun, rfl⟩
    exact (runs_of_runStatements (statements_eq_ok.mp hrun)).1
  · intro hruns
    obtain ⟨w', hrun, hd⟩ := runStatements_of_runs (fun s _ => s.rank_le) hruns
    exact ⟨w', statements_eq_ok.mpr hrun, hd⟩

variable {x : Transact α} {b b' : Backend}

theorem transaction_eq_ok {a : α} :
    transaction x b = (.ok a, b') ↔
      ∃ w, x ⟨b, [], []⟩ = .ok (a, w) ∧ finish w = .ok b' :=
  Handler.transaction_eq_ok

theorem transaction_eq_error {refusal : Refusal} (h : transaction x b = (.error refusal, b')) :
    b' = b :=
  Handler.transaction_eq_error h

theorem backend_of_finish (h : finish w = .ok b) : w.backend = b := by
  unfold finish at h
  split at h
  · exact Except.ok.inj h
  · cases h

/-- A transaction that writes no row of the store has no checks to wait for. -/
theorem transaction_of_silent {a : α} (h : x ⟨b, [], []⟩ = .ok (a, ⟨b', [], []⟩)) :
    transaction x b = (.ok a, b') :=
  transaction_eq_ok.mpr ⟨_, h, rfl⟩

/-! ### Keys -/

def Recorded (key : Idempotency.Key) (hash resource : Nat) (b : Backend) : Prop :=
  ∃ expiresAt, getRow Idempotency.Record.key b.records key =
    some { key, hash, status := .completed resource, expiresAt }

theorem Recorded.of_eq (h : Recorded key hash resource b) (he : b'.records = b.records) :
    Recorded key hash resource b' := by
  unfold Recorded
  rw [he]
  exact h

def SameRecords (w w' : Work) : Prop :=
  w'.backend.records = w.backend.records

instance : Std.Refl SameRecords := ⟨fun _ => rfl⟩

instance : IsTrans Work SameRecords := ⟨fun _ _ _ h h' => Eq.trans h' h⟩

theorem sameRecords_statements (code : List Statement) : (statements code).Moves SameRecords := by
  intro w w' u h
  have honly := (runs_of_runStatements (statements_eq_ok.mp h)).2
  unfold SameRecords
  rw [honly]

theorem claim_eq_ok {found : Option Nat} (h : claim now key hash w = .ok (found, w')) :
    (∃ resource, found = some resource ∧ Recorded key hash resource w.backend ∧ w = w') ∨
      found = none ∧ ∃ expiresAt leaseExpiresAt records,
        w' = { w with backend := { w.backend with records } } ∧
        getRow Idempotency.Record.key records key =
          some { key, hash, status := .inProgress leaseExpiresAt, expiresAt } ∧
        getRow Idempotency.Record.key w.backend.records key = none := by
  unfold claim at h
  split at h
  next hn =>
    obtain ⟨rfl, rfl⟩ : none = found ∧ _ = w' := by simpa using h
    refine .inr ⟨rfl, now + Idempotency.retention, now + Idempotency.lease, _, rfl, ?_, hn⟩
    rw [getRow_put, if_pos rfl]
  next row hr =>
    split at h
    · cases h
    next hhash =>
      rw [not_not] at hhash
      split at h
      next resource hstat =>
        obtain ⟨rfl, rfl⟩ : some resource = found ∧ w = w' := by simpa using h
        refine .inl ⟨resource, rfl, ⟨row.expiresAt, ?_⟩, rfl⟩
        have hk := (mem_of_getRow_eq_some hr).2
        rw [hr, ← hk, ← hhash, ← hstat]
      next => cases h

theorem complete_eq_ok {expiresAt leaseExpiresAt : Nat} {u : Unit}
    (hr : getRow Idempotency.Record.key w.backend.records key =
      some { key, hash, status := .inProgress leaseExpiresAt, expiresAt })
    (h : complete key resource w = .ok (u, w')) :
    ∃ records, w' = { w with backend := { w.backend with records } } ∧
      Recorded key hash resource w'.backend := by
  unfold complete at h
  rw [hr] at h
  obtain rfl : _ = w' := congrArg Prod.snd (Except.ok.inj h)
  refine ⟨_, rfl, expiresAt, ?_⟩
  rw [getRow_put, if_pos rfl]

/-- Under its key a request either did its work and recorded it, or found it recorded. -/
theorem keyed_eq_ok (hbody : body.Moves SameRecords)
    (h : keyed now key hash body again w = .ok (resource, w')) :
    (Recorded key hash resource w.backend ∧ again resource w = .ok ((), w')) ∨
      ∃ records w₂ records', body { w with backend := { w.backend with records } } =
          .ok (resource, w₂) ∧
        w' = { w₂ with backend := { w₂.backend with records := records' } } ∧
        Recorded key hash resource w'.backend ∧
        getRow Idempotency.Record.key w.backend.records key = none := by
  obtain ⟨found, w₁, hclaim, h⟩ := Tx.bind_eq_ok.mp h
  obtain ⟨r, rfl, hrec, rfl⟩ | ⟨rfl, expiresAt, leaseExpiresAt, records, rfl, hr, hn⟩ :=
    claim_eq_ok hclaim
  · obtain ⟨u, w₂, hrep, h⟩ := Tx.bind_eq_ok.mp h
    obtain ⟨rfl, rfl⟩ := Tx.pure_eq_ok.mp h
    exact .inl ⟨hrec, hrep⟩
  · obtain ⟨r, w₂, hrun, h⟩ := Tx.bind_eq_ok.mp h
    obtain ⟨u, w₃, hcmp, h⟩ := Tx.bind_eq_ok.mp h
    obtain ⟨rfl, rfl⟩ := Tx.pure_eq_ok.mp h
    have hsame : w₂.backend.records = records := hbody _ _ _ hrun
    rw [← hsame] at hr
    obtain ⟨records', rfl, hrec⟩ := complete_eq_ok hr hcmp
    exact .inr ⟨records, w₂, records', hrun, rfl, hrec, hn⟩

/-- The body of a request matters only where its claim leads. -/
theorem keyed_congr {body' : Transact Nat}
    (h : ∀ records, body { w with backend := { w.backend with records } } =
      body' { w with backend := { w.backend with records } }) :
    keyed now key hash body again w = keyed now key hash body' again w := by
  refine Tx.bind_congr fun found w₁ hclaim => ?_
  obtain ⟨resource, rfl, -, rfl⟩ | ⟨rfl, _, _, records, rfl, -⟩ := claim_eq_ok hclaim
  · rfl
  · exact Tx.bind_congr_left (h records)

/-- A request under a new key does its work and records it. -/
theorem keyed_of_unrecorded {P : Work → Prop}
    (hn : getRow Idempotency.Record.key w.backend.records key = none)
    (hbody : ∀ records, ∃ w', body { w with backend := { w.backend with records } } =
      .ok (resource, w') ∧ w'.backend.records = records ∧ P w') :
    ∃ w' records, keyed now key hash body again w =
        .ok (resource, { w' with backend := { w'.backend with records } }) ∧ P w' ∧
      ∀ row ∈ records, row ∈ w.backend.records ∨ row.key = key := by
  let claimed : List Idempotency.Record := put Idempotency.Record.key ⟨key, hash,
    .inProgress (now + Idempotency.lease), now + Idempotency.retention⟩ w.backend.records
  obtain ⟨w', hrun, hsame, hP⟩ := hbody claimed
  have hclaim : claim now key hash w =
      .ok (none, { w with backend := { w.backend with records := claimed } }) := by
    unfold claim
    rw [hn]
  refine ⟨w', put Idempotency.Record.key
      ⟨key, hash, .completed resource, now + Idempotency.retention⟩ claimed,
    Tx.bind_eq_ok.mpr ⟨none, _, hclaim, Tx.bind_eq_ok.mpr ⟨_, _, hrun,
      Tx.bind_eq_ok.mpr ⟨(), _, ?_, rfl⟩⟩⟩, hP, ?_⟩
  · simp [complete, hsame, claimed, getRow_put]
  · intro row hr
    rcases mem_put hr with rfl | ⟨hr, hne⟩
    · exact .inr rfl
    · rcases mem_put hr with rfl | ⟨hr, -⟩
      · exact .inr rfl
      · exact .inl hr

/-- A recorded request is replayed. -/
theorem keyed_of_recorded (h : Recorded key hash resource w.backend)
    (hrep : again resource w = .ok ((), w')) :
    keyed now key hash body again w = .ok (resource, w') := by
  obtain ⟨expiresAt, hr⟩ := h
  refine Tx.bind_eq_ok.mpr ⟨some resource, w, ?_, ?_⟩
  · simp [claim, hr]
  · exact Tx.bind_eq_ok.mpr ⟨(), w', hrep, rfl⟩

end Backend

end SiliconDm.Server
