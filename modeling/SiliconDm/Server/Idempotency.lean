import SiliconDm.Base.ReadCommitted
import SiliconDm.Base.Table
import SiliconDm.Server.Transactions

/-!
# Idempotency keys

`claim` and `complete` around the statements of any operation. A request claims its key inside
its own transaction, does its work only if the claim was new, and completes the claim before it
commits; a later request with the key is answered with the recorded resource. Compaction deletes
records whose retention has passed. The operations are the statements of an arbitrary
transaction language over tables of their own.

The clock is a row of the database that only `tick` writes, so that time passes between any two
statements. `done` and `answers` are history, which no statement reads: the claims that were
completed and the resources that requests were answered with.

Sources: `src/infrastructure/postgres/idempotency.rs:39–176`, `messages.rs:171–351`,
`delivery.rs:37–64`, `migrations/0003_delivery_presence_and_idempotency.sql:892–1008`.
-/

namespace SiliconDm.Server

open Base List

namespace Idempotency

/-! ### Tables -/

structure Key where
  actor : ActorRef
  operation : String
  idempotencyKey : String
  deriving DecidableEq, Repr

/-- The `status` column with what it comes with. -/
inductive Status where
  | inProgress (leaseExpiresAt : Nat)
  | completed (resource : Nat)
  deriving DecidableEq, Repr

structure Record where
  key : Key
  hash : Nat
  status : Status
  expiresAt : Nat
  deriving DecidableEq, Repr

/-- A claimed key with its resource: by which attempt and when it was claimed, and until when
the record is retained. -/
structure Reply where
  attempt : Nat
  key : Key
  hash : Nat
  resource : Nat
  claimedAt : Nat
  expiresAt : Nat
  deriving DecidableEq, Repr

structure Ledger where
  now : Nat
  records : List Record
  done : List Reply
  answers : List Reply
  deriving DecidableEq, Repr

structure Store (A : Type) where
  app : A
  ledger : Ledger

inductive LedgerWrite where
  | clock (now : Nat)
  | record (row : Record)
  | forget (key : Key)
  | done (reply : Reply)
  | answer (reply : Reply)
  deriving DecidableEq, Repr

def Ledger.apply (l : Ledger) : LedgerWrite → Ledger
  | .clock now => { l with now }
  | .record row => { l with records := put Record.key row l.records }
  | .forget key => { l with records := l.records.filter (·.key ≠ key) }
  | .done reply => { l with done := l.done ++ [reply] }
  | .answer reply => { l with answers := l.answers ++ [reply] }

def Ledger.record (l : Ledger) (key : Key) : Option Record :=
  getRow Record.key l.records key

/-! ### Statements -/

/-- One attempt at a request: what it executes before its claim, under a new claim, and after
it either way. `resource` is the id it would create. -/
structure Request (S : Type) where
  attempt : Nat
  key : Key
  hash : Nat
  resource : Nat
  before : List S
  body : List S
  after : List S

inductive Statement (S : Type) where
  | app (statement : S)
  | start (r : Request S)
  | insert (r : Request S) (transactionTimestamp : Nat)
  | select (r : Request S)
  | complete (r : Request S) (claimedAt : Nat)
  | compact
  | expire (key : Key) (transactionTimestamp : Nat)
  | tick (elapsed : Nat)

inductive Write (W : Type) where
  | app (write : W)
  | ledger (write : LedgerWrite)

inductive Lock (K : Type) where
  | app (key : K)
  | clock
  | record (key : Key)
  deriving DecidableEq

inductive Failure where
  | conflict (message : String)
  | app
  deriving DecidableEq, Repr

/-- 30 days and two minutes, in milliseconds. -/
def retention : Nat := 2592000000

def lease : Nat := 120000

inductive Task (S : Type) where
  | request (r : Request S)
  | compact
  | tick (elapsed : Nat)

section

variable {A S C W K T : Type}

abbrev Result (S C W K : Type) : Type :=
  Except Failure (Outcome (Statement S) C (Write W) (Lock K))

/-- `INSERT … ON CONFLICT DO NOTHING`: the new record, and the work under it, or the record that
is there. `idempotency.rs:47–85`. -/
def insertClaim (r : Request S) (transactionTimestamp : Nat) (l : Ledger) : Result S C W K :=
  match l.record r.key with
  | none =>
    .ok {
      writes := [.ledger (.record
        { key := r.key
          hash := r.hash
          status := .inProgress (transactionTimestamp + lease)
          expiresAt := transactionTimestamp + retention })]
      next := r.body.map .app ++ [.complete r l.now] }
  | some _ => .ok { next := [.select r] }

/-- `SELECT … FOR UPDATE` of the record that is there. `idempotency.rs:87–126`. -/
def selectClaim (r : Request S) (l : Ledger) : Result S C W K :=
  match l.record r.key with
  | none => .error (.conflict "idempotency request could not be serialized")
  | some row =>
    if row.hash ≠ r.hash then
      .error (.conflict "idempotency key was already used with different request content")
    else
      match row.status with
      | .completed resource =>
        .ok {
          locks := [.record r.key]
          writes := [.ledger (.answer
            { attempt := r.attempt, key := r.key, hash := r.hash, resource
              claimedAt := l.now, expiresAt := row.expiresAt })] }
      | .inProgress _ => .error (.conflict "idempotent request is still in progress")

/-- `complete`. `idempotency.rs:129–176`. -/
def completeClaim (r : Request S) (claimedAt : Nat) (l : Ledger) : Result S C W K :=
  match l.record r.key with
  | some { key, hash, status := .inProgress _, expiresAt } =>
    let reply : Reply :=
      { attempt := r.attempt, key, hash, resource := r.resource, claimedAt, expiresAt }
    .ok {
      writes := [.ledger (.record { key, hash, status := .completed r.resource, expiresAt }),
        .ledger (.done reply), .ledger (.answer reply)] }
  | _ => .error (.conflict "idempotent request no longer owns its mutation lease")

/-- The condition of the compaction. `delivery.rs:51–56`. -/
def Record.compactable (row : Record) (now : Nat) : Bool :=
  row.expiresAt ≤ now &&
    match row.status with
    | .completed _ => true
    | .inProgress leaseExpiresAt => leaseExpiresAt ≤ now

def Statement.exec (L : Language A S C W K T) (statement : Statement S) (d : Store A) :
    Result S C W K :=
  match statement with
  | .app statement =>
    match L.exec statement d.app with
    | none => .error .app
    | some o =>
      .ok {
        writes := o.writes.map .app
        locks := o.locks.map .app
        next := o.next.map .app
        deferred := o.deferred }
  | .start r =>
    .ok { next := r.before.map .app ++ .insert r d.ledger.now :: r.after.map .app }
  | .insert r transactionTimestamp => insertClaim r transactionTimestamp d.ledger
  | .select r => selectClaim r d.ledger
  | .complete r claimedAt => completeClaim r claimedAt d.ledger
  | .compact =>
    .ok { next := (d.ledger.records.filter (·.compactable d.ledger.now)).map fun row =>
      .expire row.key d.ledger.now }
  | .expire key transactionTimestamp =>
    .ok {
      writes := if (d.ledger.record key).any (·.compactable transactionTimestamp) then
        [.ledger (.forget key)] else [] }
  | .tick elapsed => .ok { writes := [.ledger (.clock (d.ledger.now + elapsed))] }

def Write.apply (L : Language A S C W K T) (d : Store A) : Write W → Store A
  | .app write => { d with app := L.apply d.app write }
  | .ledger write => { d with ledger := d.ledger.apply write }

def LedgerWrite.key : LedgerWrite → Lock K
  | .clock _ => .clock
  | .record row => .record row.key
  | .forget key => .record key
  | .done reply | .answer reply => .record reply.key

def Write.key (L : Language A S C W K T) : Write W → Lock K
  | .app write => .app (L.key write)
  | .ledger write => write.key

def Write.appWrite : Write W → Option W
  | .app write => some write
  | .ledger _ => none

/-- The operations of a language behind idempotency keys. -/
def claims (L : Language A S C W K T) :
    Language (Store A) (Statement S) C (Write W) (Lock K) (Task S) where
  apply := Write.apply L
  key := Write.key L
  code
    | .request r => [.start r]
    | .compact => [.compact]
    | .tick elapsed => [.tick elapsed]
  exec statement d := (statement.exec L d).toOption
  holds check writes d := L.holds check (writes.filterMap Write.appWrite) d.app

end

/-! ### The ledger under writes -/

def Write.ledgerWrite {W : Type} : Write W → Option LedgerWrite
  | .app _ => none
  | .ledger write => some write

section

variable {A S C W K T : Type} {L : Language A S C W K T}

/-- The writes of a transaction to the ledger. -/
def own (writes : List (Write W)) : List LedgerWrite :=
  writes.filterMap Write.ledgerWrite

@[simp] theorem own_append (x y : List (Write W)) : own (x ++ y) = own x ++ own y := by
  simp [own]

@[simp] theorem own_app (ws : List W) : own (ws.map Write.app) = [] := by
  simp [own, Write.ledgerWrite]

theorem mem_own {w : LedgerWrite} {ws : List (Write W)} : w ∈ own ws ↔ .ledger w ∈ ws := by
  unfold own
  rw [mem_filterMap]
  constructor
  · rintro ⟨write, hm, he⟩
    cases write with
    | app => cases he
    | ledger w' =>
      cases he
      exact hm
  · intro hm
    exact ⟨_, hm, rfl⟩

theorem ledger_applyAll (d : Store A) (ws : List (Write W)) :
    ((claims L).applyAll d ws).ledger = (own ws).foldl Ledger.apply d.ledger := by
  unfold Language.applyAll
  induction ws generalizing d with
  | nil => rfl
  | cons w ws ih =>
    rw [foldl_cons, ih]
    cases w <;> rfl

end

theorem now_foldl {ws : List LedgerWrite} (h : ∀ now, .clock now ∉ ws) (l : Ledger) :
    (ws.foldl Ledger.apply l).now = l.now := by
  induction ws generalizing l with
  | nil => rfl
  | cons w ws ih =>
    rw [foldl_cons, ih fun now hm => h now (mem_cons_of_mem _ hm)]
    cases w with
    | clock now => exact absurd mem_cons_self (h now)
    | record | forget | done | answer => rfl

theorem done_foldl (ws : List LedgerWrite) (l : Ledger) :
    (ws.foldl Ledger.apply l).done = l.done ++ ws.filterMap fun
      | .done reply => some reply
      | _ => none := by
  induction ws generalizing l with
  | nil => simp
  | cons w ws ih =>
    rw [foldl_cons, ih]
    cases w <;> simp [Ledger.apply]

theorem answers_foldl (ws : List LedgerWrite) (l : Ledger) :
    (ws.foldl Ledger.apply l).answers = l.answers ++ ws.filterMap fun
      | .answer reply => some reply
      | _ => none := by
  induction ws generalizing l with
  | nil => simp
  | cons w ws ih =>
    rw [foldl_cons, ih]
    cases w <;> simp [Ledger.apply]

/-- The record of a key that is not written. -/
theorem record_foldl {K : Type} {ws : List LedgerWrite} {key : Key}
    (h : ∀ w ∈ ws, (w.key : Lock K) ≠ .record key) (l : Ledger) :
    (ws.foldl Ledger.apply l).record key = l.record key := by
  induction ws generalizing l with
  | nil => rfl
  | cons w ws ih =>
    rw [foldl_cons, ih fun w' hm => h w' (mem_cons_of_mem _ hm)]
    have hw := h w mem_cons_self
    cases w with
    | clock | done | answer => rfl
    | record row =>
      have hne : key ≠ row.key := fun he => hw (by simp [LedgerWrite.key, he])
      simp only [Ledger.record, Ledger.apply, getRow_put, hne, if_false]
    | forget key' =>
      have hne : key ≠ key' := fun he => hw (by simp [LedgerWrite.key, he])
      apply getRow_filter_of_true
      rintro row rfl
      simpa using hne

/-- `send_message`: the participant check, the claim, and under it the message with its
deliveries. `messages.rs:194–347`. -/
def sendRequest (attempt : Nat) (sender : ActorRef) (idempotencyKey : String) (hash : Nat)
    (message conversation : Nat) : Request Server.Statement where
  attempt := attempt
  key := { actor := sender, operation := "messages.create", idempotencyKey }
  hash := hash
  resource := message
  before := [.message (.requireParticipant conversation sender)]
  body := [.message (.insert message conversation sender),
    .message (.fanOut message conversation 1)]
  after := []

end Idempotency

end SiliconDm.Server
