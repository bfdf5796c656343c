import Mathlib
import SiliconDm.Server.HandoffRuns

/-!
# Passes of the worker

`process_once` as a program over the table of handoffs: one row is claimed, checked, published
and recorded at a time, and between any two statements the other workers, account deletions and
the clock go on. A pass that is over may be followed by the next one. Unlike in the system of the
table alone, the errors of the worker's own statements are seen here, and its `SELECT` takes the
row that has been due for longest.

All clocks are one. The next attempt that a worker records is later than the time at which it
records it.

Sources: `src/worker/ting.rs:143–262`, `src/infrastructure/ting.rs:48–84,291–328`,
`src/infrastructure/postgres/ting.rs:69–304`, `accounts.rs:583–584`.
-/

namespace SiliconDm.Server.Ting

open Base List Option
open Backend (isControl require)

/-! ### Publishing -/

inductive TingFailure where
  | transport
  | timeout
  | protocol
  | rejected (code : String)
  | invalidRequest
  | authorityUnavailable
  deriving DecidableEq, Repr

def TingFailure.code : TingFailure → String
  | .transport => "ting_transport_unavailable"
  | .timeout => "ting_acceptance_uncertain"
  | .protocol => "ting_protocol_error"
  | .rejected code => code
  | .invalidRequest => "ting_invalid_prepared_request"
  | .authorityUnavailable => "ting_authority_unavailable"

/-- The codes that the socket passes on from Ting. `src/infrastructure/ting.rs:292–301`. -/
def isRejection (code : String) : Bool :=
  !code.toList.isEmpty && code.utf8ByteSize ≤ 100 &&
    code.toList.all fun c => c.isLower || c.isDigit || c = '_'

inductive Outcome where
  | accepted (id : String) (createdAt : Nat) (silent : Bool)
  | failed (failure : TingFailure)
  deriving DecidableEq, Repr

/-- The outcomes of a round: without authority nothing is published. The id of an acceptance has
been checked by the socket. `worker/ting.rs:187–199`, `src/infrastructure/ting.rs:307–328`. -/
def Outcome.possible (authorized : Bool) : Outcome → Bool
  | .accepted id _ _ =>
    authorized && !id.toList.isEmpty && id.utf8ByteSize ≤ 255 && !id.toList.any isControl
  | .failed .timeout => true
  | .failed (.rejected code) =>
    if authorized then isRejection code else code = "ting_recipient_no_longer_participant"
  | .failed _ => authorized

/-- `retry_delay`, in milliseconds. `worker/ting.rs:258–261`. -/
def retryDelay (attempt maximum : Nat) : Nat :=
  min (1000 * 2 ^ min attempt 31) (max maximum 1000)

/-- `AppError::Conflict`. -/
def isConflict (e : Refusal) : Bool :=
  e.code = "conflict"

/-! ### The pass -/

structure Settings where
  instanceId : String
  leaseMillis : Nat
  batchSize : Nat
  maxRetryMillis : Nat
  /-- Whether Ting is configured. -/
  publisher : Bool

def Settings.rounds (settings : Settings) : Nat :=
  min settings.batchSize 100

/-- Where the worker is in `process_once`. -/
inductive Phase where
  | idle
  | ready
  | claiming (tx : Nat)
  | claimed (c : Claim)
  | publishing (c : Claim) (authorized : Bool)
  | storing (c : Claim) (outcome : Outcome)
  | finished
  | failed (e : Refusal)
  deriving DecidableEq, Repr

/-- The table and the worker. `processed` counts the rounds of the pass; `log`, the rows that its
passes have selected, is history. -/
structure Worker where
  table : State
  phase : Phase
  processed : Nat
  log : List Nat
  deriving DecidableEq, Repr

inductive Move where
  /-- A step of anyone else. -/
  | elsewhere (a : Action)
  | start
  | discardUnsent (picks : List Nat)
  | beginClaim
  | select (pick : Option Nat)
  | handle
  | commit
  | authorize
  | publish (outcome : Outcome)
  | store
  deriving DecidableEq, Repr

def Action.transaction : Action → Option Nat
  | .select tx _ => some tx
  | .handle tx => some tx
  | .commit tx _ => some tx
  | .rollback tx => some tx
  | _ => none

/-- The transaction of the worker's own claim is its own, and other workers too put a retry
off. -/
def Worker.allows (w : Worker) (a : Action) : Bool :=
  (match w.phase with
    | .claiming tx => a.transaction ≠ some tx
    | _ => true) &&
  match a with
  | .retry _ _ nextAttemptAt _ => w.table.now < nextAttemptAt
  | _ => true

/-- The rows that the `SELECT` of a claim finds. -/
def State.candidates (s : State) (t : Open) : List Handoff :=
  s.rows.filter fun h => s.unlocked t.id h.id &&
    (s.seen t h.id).any fun h => h.due s.now s.participants

/-- `ORDER BY next_attempt_at … LIMIT 1`. -/
def State.first (s : State) (t : Open) (pick : Option Nat) : Bool :=
  (s.candidates t).all fun h =>
    pick.any fun id => (s.row id).any fun k => k.nextAttemptAt ≤ h.nextAttemptAt

def State.handleError (p : Producer) (s : State) (t : Open) (owner : String)
    (leaseMillis : Nat) : Option Refusal :=
  t.records.head?.bind fun id => (s.seen t id).bind fun h =>
    match handleRecord p s.now s.fresh leaseMillis owner
        (s.publicIds.lookup h.reference.target.id) h with
    | .error e => some e
    | .ok _ => none

/-- What a round records of its claim, and the result. `worker/ting.rs:200–234`. -/
def recording (p : Producer) (settings : Settings) (s : State) (c : Claim) :
    Outcome → Action × Except Refusal (Option Handoff)
  | .accepted id createdAt silent =>
    (.accept c.deliveryId c.leaseId id createdAt silent,
      acceptTingDelivery p s.now c.leaseId id createdAt silent (s.row c.deliveryId))
  | .failed failure =>
    let next := s.now + retryDelay c.attemptCount settings.maxRetryMillis
    (.retry c.deliveryId c.leaseId next failure.code,
      retryTingDelivery p s.now c.leaseId next failure.code (s.row c.deliveryId))

/-- The end of a round: a conflict is a lost lease. `worker/ting.rs:235–243`. -/
def Worker.recorded (w : Worker) (s : State) : Except Refusal (Option Handoff) → Worker
  | .ok _ => { w with table := s, phase := .ready, processed := w.processed + 1 }
  | .error e =>
    if isConflict e then { w with table := s, phase := .ready, processed := w.processed + 1 }
    else { w with table := s, phase := .failed e }

def Worker.begin (p : Producer) (settings : Settings) (w : Worker) : Option Worker :=
  if w.processed = settings.rounds then some { w with phase := .finished }
  else match claimArguments p settings.instanceId 1 settings.leaseMillis with
    | .error e => some { w with phase := .failed e }
    | .ok _ => (step p w.table (.beginClaim settings.instanceId 1 settings.leaseMillis)).map
        fun s => { w with table := s, phase := .claiming w.table.fresh }

def Worker.step (p : Producer) (settings : Settings) (w : Worker) (m : Move) : Option Worker :=
  match m, w.phase with
  | .elsewhere a, _ =>
    if w.allows a then (Ting.step p w.table a).map fun s => { w with table := s } else none
  | .start, .idle | .start, .finished | .start, .failed _ =>
    if settings.publisher && settings.leaseMillis ≤ 500 then
      some { w with
        phase := .failed (.validation "Ting lease must exceed 500 milliseconds")
        processed := 0 }
    else some { w with phase := .ready, processed := 0 }
  | .discardUnsent picks, .ready =>
    if settings.publisher then none
    else match w.table.discarding p "ting_not_configured" picks with
      | .error e => some { w with phase := .failed e }
      | .ok writes => (Ting.step p w.table (.discard "ting_not_configured" picks)).map
          fun s => { w with table := s, phase := .finished, processed := writes.length }
  | .beginClaim, .ready => if settings.publisher then w.begin p settings else none
  | .select pick, .claiming tx =>
    (w.table.find tx).bind fun t =>
      if w.table.first t pick then
        (Ting.step p w.table (.select tx pick.toList)).map
          fun s => { w with table := s, log := w.log ++ pick.toList }
      else none
  | .handle, .claiming tx =>
    (w.table.find tx).bind fun t =>
      (Ting.step p w.table (.handle tx)).map fun s => { w with
        table := s
        phase := (w.table.handleError p t settings.instanceId settings.leaseMillis).elim
          (.claiming tx) .failed }
  | .commit, .claiming tx =>
    (w.table.find tx).bind fun t =>
      (Ting.step p w.table (.commit tx true)).map fun s => { w with
        table := s
        phase := t.handed.getLast?.elim .finished fun x => .claimed x.claim }
  | .authorize, .claimed c =>
    if tingDeliveryAuthorized w.table.now w.table.participants c (w.table.row c.deliveryId) then
      (Ting.step p w.table (.authorize c)).map
        fun s => { w with table := s, phase := .publishing c true }
    else some { w with phase := .publishing c false }
  | .publish outcome, .publishing c authorized =>
    if outcome.possible authorized then some { w with phase := .storing c outcome } else none
  | .store, .storing c outcome =>
    let (a, result) := recording p settings w.table c outcome
    (Ting.step p w.table a).map fun s => w.recorded s result
  | _, _ => none

/-- Any table that meets its checks, before the first pass. -/
def passes (p : Producer) (settings : Settings) : System Worker Move where
  init w := Initial p w.table ∧ w.phase = .idle
  step := Worker.step p settings

variable {p : Producer} {settings : Settings} {w w' : Worker} {m : Move} {s s' : State}
  {a : Action}

inductive Moved (p : Producer) (settings : Settings) (w : Worker) : Move → Worker → Prop
  | elsewhere {a : Action} {s : State} (hallowed : w.allows a = true)
      (hs : step p w.table a = some s) : Moved p settings w (.elsewhere a) { w with table := s }
  | started (hphase : w.phase = .idle ∨ w.phase = .finished ∨ ∃ e, w.phase = .failed e) :
      Moved p settings w .start { w with phase := .ready, processed := 0 }
  | misconfigured {e : Refusal} (hlease : settings.leaseMillis ≤ 500) :
      Moved p settings w .start { w with phase := .failed e, processed := 0 }
  | unsent {picks : List Nat} {processed : Nat} {s : State} (hoff : settings.publisher = false)
      (hs : step p w.table (.discard "ting_not_configured" picks) = some s) :
      Moved p settings w (.discardUnsent picks)
        { w with table := s, phase := .finished, processed := processed }
  | unsentFailed {picks : List Nat} {e : Refusal}
      (he : w.table.discarding p "ting_not_configured" picks = .error e) :
      Moved p settings w (.discardUnsent picks) { w with phase := .failed e }
  | exhausted (hready : w.phase = .ready) (hall : w.processed = settings.rounds) :
      Moved p settings w .beginClaim { w with phase := .finished }
  | refused {e : Refusal}
      (he : claimArguments p settings.instanceId 1 settings.leaseMillis = .error e) :
      Moved p settings w .beginClaim { w with phase := .failed e }
  | begun {s : State} (hready : w.phase = .ready)
      (hs : step p w.table (.beginClaim settings.instanceId 1 settings.leaseMillis) = some s) :
      Moved p settings w .beginClaim { w with table := s, phase := .claiming w.table.fresh }
  | selected {tx : Nat} {t : Open} {pick : Option Nat} {s : State}
      (hphase : w.phase = .claiming tx) (ht : w.table.find tx = some t)
      (hfirst : w.table.first t pick = true)
      (hs : step p w.table (.select tx pick.toList) = some s) :
      Moved p settings w (.select pick) { w with table := s, log := w.log ++ pick.toList }
  | handled {tx : Nat} {t : Open} {s : State} (hphase : w.phase = .claiming tx)
      (ht : w.table.find tx = some t)
      (hs : step p w.table (.handle tx) = some s) :
      Moved p settings w .handle { w with
        table := s
        phase := (w.table.handleError p t settings.instanceId settings.leaseMillis).elim
          (.claiming tx) .failed }
  | committed {tx : Nat} {t : Open} {s : State} (hphase : w.phase = .claiming tx)
      (ht : w.table.find tx = some t) (hs : step p w.table (.commit tx true) = some s) :
      Moved p settings w .commit { w with
        table := s
        phase := t.handed.getLast?.elim .finished fun x => .claimed x.claim }
  | authorized {c : Claim} {s : State} (hphase : w.phase = .claimed c)
      (hs : step p w.table (.authorize c) = some s) :
      Moved p settings w .authorize { w with table := s, phase := .publishing c true }
  | unauthorized {c : Claim} (hphase : w.phase = .claimed c) :
      Moved p settings w .authorize { w with phase := .publishing c false }
  | published {c : Claim} {authorized : Bool} {outcome : Outcome}
      (hphase : w.phase = .publishing c authorized) (hpossible : outcome.possible authorized = true) :
      Moved p settings w (.publish outcome) { w with phase := .storing c outcome }
  | stored {c : Claim} {outcome : Outcome} {s : State} (hphase : w.phase = .storing c outcome)
      (hs : step p w.table (recording p settings w.table c outcome).1 = some s) :
      Moved p settings w .store (w.recorded s (recording p settings w.table c outcome).2)

theorem moved_of_step (h : w.step p settings m = some w') : Moved p settings w m w' := by
  unfold Worker.step at h
  split at h
  case h_1 =>
    split_ifs at h with halwd
    obtain ⟨s, hs, rfl⟩ := map_eq_some_iff.mp h
    exact .elsewhere halwd hs
  case h_5 hready =>
    split_ifs at h with hoff
    split at h
    case h_1 he =>
      cases h
      exact .unsentFailed he
    case h_2 =>
      obtain ⟨s, hs, rfl⟩ := map_eq_some_iff.mp h
      exact .unsent (Bool.eq_false_iff.mpr hoff) hs
  case h_6 hready =>
    split_ifs at h
    unfold Worker.begin at h
    split_ifs at h with hall
    · cases h
      exact .exhausted hready hall
    · split at h
      case h_1 he =>
        cases h
        exact .refused he
      case h_2 =>
        obtain ⟨s, hs, rfl⟩ := map_eq_some_iff.mp h
        exact .begun hready hs
  case h_7 hph =>
    obtain ⟨t, ht, h⟩ := bind_eq_some_iff.mp h
    split_ifs at h with hfst
    obtain ⟨s, hs, rfl⟩ := map_eq_some_iff.mp h
    exact .selected hph ht hfst hs
  case h_8 hph =>
    obtain ⟨t, ht, h⟩ := bind_eq_some_iff.mp h
    obtain ⟨s, hs, rfl⟩ := map_eq_some_iff.mp h
    exact .handled hph ht hs
  case h_9 hph =>
    obtain ⟨t, ht, h⟩ := bind_eq_some_iff.mp h
    obtain ⟨s, hs, rfl⟩ := map_eq_some_iff.mp h
    exact .committed hph ht hs
  case h_10 hph =>
    split_ifs at h
    · obtain ⟨s, hs, rfl⟩ := map_eq_some_iff.mp h
      exact .authorized hph hs
    · cases h
      exact .unauthorized hph
  case h_11 hph =>
    split_ifs at h with hposs
    cases h
    exact .published hph hposs
  case h_12 hph =>
    obtain ⟨s, hs, rfl⟩ := map_eq_some_iff.mp h
    exact .stored hph hs
  case h_13 => cases h
  -- a pass starts after a stop, a success or a failure
  all_goals
    rename_i hph
    split_ifs at h with hls
    all_goals cases h
    · simp only [Bool.and_eq_true, decide_eq_true_eq] at hls
      exact .misconfigured hls.2
    · exact .started (by simp [hph])

/-! ### Orderly tables -/

def Json.isText (expected : String) : Json → Bool
  | .text s => s = expected
  | _ => false

/-- A row that can be handled: its request is this producer's or older than the cutover, its
message has a sequence, its addresses are addresses, and a request that is written for it fits
the column. -/
def Handoff.sendable (p : Producer) (publicIds : List (String × String)) (h : Handoff) : Bool :=
  (h.requestBody.all fun body => isPreparedBeforeCutover p.serde body ||
    (p.serde.parse body).any fun v => (v.field "type").isText (p.appId ++ ".sync.changed")) &&
  1 ≤ h.reference.messageSequence && h.reference.messageSequence ≤ Protocol.i64Max &&
  (h.reference.routingAddress.all fun address => (parseActorId address).isSome) &&
  (h.reference.originator.all fun actor => (parseActorId actor.id).isSome) &&
  (preparedBody p.serde p.display p.appId (publicIds.lookup h.reference.target.id) h).toOption.all
    fun body => body.utf8ByteSize ≤ 262144 && p.serde.jsonbObject body

/-- A pending row that the next claim discards. -/
def Handoff.legacy (serde : Serde) (h : Handoff) : Bool :=
  h.acceptance.isNone && h.discard.isNone && (discardReason serde h).isSome

/-- Every row can be handled, fewer than five hundred wait to be discarded, and no account is
deleted while a handoff to it is under a running lease. -/
def Worker.orderly (p : Producer) (w : Worker) (m : Move) : Bool :=
  (w.table.rows.all fun h => h.sendable p w.table.publicIds) &&
  (w.table.rows.filter fun h => h.legacy p.serde).length < maxDiscardsPerClaim &&
  match m with
  | .elsewhere (.beginDelete uuid) => w.table.rows.all fun h =>
      h.reference.target.id ≠ uuid || h.lease.all (·.expiresAt ≤ w.table.now)
  | _ => true

/-! ### Statements that pass -/

variable {serde : Serde} {h v r : Handoff} {tx processed : Nat} {t : Open} {phase : Phase}

theorem update_of_checked {old new : Handoff} (href : new.reference = old.reference)
    (hbody : ∀ b ∈ old.requestBody, new.requestBody = some b) (hopen : old.acceptance = none)
    (hv : new.violated serde = none) :
    old.update serde new = .ok new := by
  unfold Handoff.update
  rw [if_neg, if_neg, hv]
  · rfl
  · simp [hopen]
  · simp only [href, ne_eq, not_true_eq_false, decide_false, Bool.false_or, Bool.and_eq_true,
      decide_eq_true_eq, not_and, Decidable.not_not]
    intro hsome
    obtain ⟨b, hb⟩ := isSome_iff_exists.mp hsome
    rw [hbody b hb, hb]

/-- An open row can be discarded. -/
theorem update_discard {d : Discard} (hv : h.violated serde = none) (hopen : h.acceptance = none)
    (hd : lengthBetween 1 255 d.reason = true) :
    h.update serde { h with discard := some d } = .ok { h with discard := some d } := by
  obtain ⟨h1, h2, h3, h4, -, -⟩ := violated_eq_none_iff.mp hv
  refine update_of_checked rfl (fun _ hb => hb) hopen (violated_eq_none_iff.mpr
    ⟨h1, h2, h3, h4, ?_, ?_⟩)
  · rintro _ ⟨⟩
    exact hd
  · simp [hopen]

theorem lengthBetween_of_text {s : String} (hne : s.toList.isEmpty = false)
    (hsize : s.utf8ByteSize ≤ 255) : lengthBetween 1 255 s = true := by
  have hlong : 1 ≤ s.length := by
    apply one_le_length
    rintro rfl
    cases hne
  have hshort := (length_le_utf8ByteSize s).trans hsize
  simp only [lengthBetween, Bool.and_eq_true, decide_eq_true_eq]
  exact ⟨hlong, hshort⟩

theorem validateText_eq_ok {value field : String} :
    validateText value field = .ok () ↔ value.toList.isEmpty = false ∧
      value.utf8ByteSize ≤ 255 ∧ value.toList.any isControl = false := by
  unfold validateText require
  split_ifs with hok
  · simp only [Bool.and_eq_true, Bool.not_eq_true', decide_eq_true_eq] at hok
    exact iff_of_true rfl ⟨hok.1.1, hok.1.2, hok.2⟩
  · refine iff_of_false nofun ?_
    rintro ⟨h1, h2, h3⟩
    exact hok (by simp [h1, h2, h3])

theorem Json.isText_eq_true {expected : String} {v : Json} (h : v.isText expected = true) :
    v = .text expected := by
  cases v with
  | text s => rw [of_decide_eq_true h]
  | null | number n | object fields => cases h

theorem exists_metadata (publicId : Option String)
    (haddr : (h.reference.routingAddress.all fun a => (parseActorId a).isSome) = true) :
    ∃ v, metadata h publicId = .ok v := by
  unfold metadata
  cases hrtg : h.reference.routingAddress with
  | none => exact ⟨_, rfl⟩
  | some address =>
    rw [hrtg, all_some] at haddr
    obtain ⟨id, hid⟩ := isSome_iff_exists.mp haddr
    simp only [hid]
    split
    · split <;> exact ⟨_, rfl⟩
    · exact ⟨_, rfl⟩

variable {publicIds : List (String × String)} {now leaseId id leaseMillis : Nat}
  {new : Handoff → Handoff} {authorized : Bool} {c : Claim} {outcome : Outcome}
  {publicId : Option String} {handed : Option Handed}

/-- A row that can be handled and is not discarded has a request, which fits the column. -/
theorem preparedBody_of_sendable (hws : ∀ v, (p.serde.toText v).isSome = true)
    (hs : h.sendable p publicIds = true) (hd : discardReason p.serde h = none) :
    ∃ body, preparedBody p.serde p.display p.appId (publicIds.lookup h.reference.target.id) h
        = .ok body ∧ (body.utf8ByteSize ≤ 262144 ∧ p.serde.jsonbObject body = true) ∧
      ∀ b ∈ h.requestBody, some body = some b := by
  unfold Handoff.sendable at hs
  simp only [Bool.and_eq_true, decide_eq_true_eq] at hs
  obtain ⟨⟨⟨⟨⟨hbody, hlow⟩, hhigh⟩, haddr⟩, -⟩, hfits⟩ := hs
  suffices hok : ∃ body, preparedBody p.serde p.display p.appId
      (publicIds.lookup h.reference.target.id) h = .ok body ∧
        ∀ b ∈ h.requestBody, some body = some b by
    obtain ⟨body, hok, hsame⟩ := hok
    rw [hok] at hfits
    simp only [Except.toOption, all_some, Bool.and_eq_true, decide_eq_true_eq] at hfits
    exact ⟨body, hok, hfits, hsame⟩
  cases hrqst : h.requestBody with
  | some body =>
    refine ⟨body, ?_, by simp⟩
    have hn : isPreparedBeforeCutover p.serde body = false := by
      by_contra hbef
      rw [Bool.not_eq_false] at hbef
      simp [discardReason, hrqst, hbef] at hd
    rw [hrqst, all_some, hn, Bool.false_or] at hbody
    obtain ⟨v, hprs, htype⟩ := (Option.any_eq_true _ _).mp hbody
    simp only [preparedBody, hrqst, hprs, map_some, Json.isText_eq_true htype, if_true]
  | none =>
    obtain ⟨v, hmetadata⟩ := exists_metadata (publicIds.lookup h.reference.target.id) haddr
    have hcode : ∃ code, Protocol.messageCode h.reference.messageSequence = some code :=
      ⟨_, Protocol.messageCode_eq_some.mpr ⟨by omega, by omega, rfl⟩⟩
    obtain ⟨code, hcode⟩ := hcode
    simp only [preparedBody, hrqst, hcode, hmetadata]
    obtain ⟨text, htext⟩ := isSome_iff_exists.mp (hws _)
    rw [htext]
    exact ⟨text, rfl, by simp⟩

/-- No row of an orderly table ends a claim. -/
theorem exists_handleRecord (hws : ∀ v, (p.serde.toText v).isSome = true)
    (hs : h.sendable p publicIds = true) {owner : String} (leaseId leaseMillis : Nat)
    (hi : h.Idle now) (hv : h.violated p.serde = none) (how : lengthBetween 1 255 owner = true) :
    ∃ result, handleRecord p now leaseId leaseMillis owner
      (publicIds.lookup h.reference.target.id) h = .ok result := by
  unfold handleRecord
  cases hd : discardReason p.serde h with
  | some reason =>
    have hreason : lengthBetween 1 255 reason = true := by
      unfold discardReason at hd
      split_ifs at hd
      all_goals
        cases hd
        decide
    have hok := update_discard (d := ⟨now, reason⟩) hv hi.unaccepted hreason
    exact ⟨_, bind_eq_ok.mpr ⟨_, hok, rfl⟩⟩
  | none =>
    obtain ⟨body, hbody, hfits, hsame⟩ := preparedBody_of_sendable hws hs hd
    obtain ⟨originator, horiginator⟩ : ∃ o, parsedOriginator h.reference.originator = .ok o := by
      unfold Handoff.sendable at hs
      simp only [Bool.and_eq_true] at hs
      have hprs := hs.1.2
      unfold parsedOriginator
      cases ho : h.reference.originator with
      | none => exact ⟨_, rfl⟩
      | some actor =>
        rw [ho, all_some] at hprs
        obtain ⟨id, hid⟩ := isSome_iff_exists.mp hprs
        exact ⟨_, by simp only [hid, elim_some]; rfl⟩
    obtain ⟨-, h2, -, -, h5, -⟩ := violated_eq_none_iff.mp hv
    have hok : h.update p.serde { h with
        requestBody := some body
        lease := some ⟨leaseId, owner, now + leaseMillis⟩ } = .ok _ :=
      update_of_checked rfl hsame hi.unaccepted (violated_eq_none_iff.mpr
        ⟨by rintro _ ⟨⟩; exact hfits, h2, by rintro _ ⟨⟩; exact how,
          by simp [hi.unaccepted], h5, by simp [hi.unaccepted]⟩)
    exact ⟨_, bind_eq_ok.mpr ⟨_, hbody, bind_eq_ok.mpr ⟨_, hok,
      bind_eq_ok.mpr ⟨_, horiginator, rfl⟩⟩⟩⟩

/-- Progress on a row its worker leases, or a lost lease. -/
theorem recordProgress_cases (settled : Handoff → Bool) {row : Option Handoff}
    (hpasses : ∀ h ∈ row, h.leasedTo now leaseId = true → h.acceptance = none →
      h.update p.serde (new h) = .ok (new h)) :
    (∃ h ∈ row, (h.leasedTo now leaseId = true ∧ h.acceptance = none) ∧
      recordProgress p now leaseId new settled row = .ok (some (new h))) ∨
    ((∀ h ∈ row, h.leasedTo now leaseId = true → h.acceptance.isSome = true) ∧
      (recordProgress p now leaseId new settled row = .ok none ∧ row.any settled = true ∨
        recordProgress p now leaseId new settled row =
          .error (.conflict "Ting delivery claim is no longer owned"))) := by
  unfold recordProgress
  cases hmine : row.filter (fun h => h.leasedTo now leaseId && h.acceptance.isNone) with
  | some h =>
    obtain ⟨hr, hmine⟩ := filter_eq_some_iff.mp hmine
    simp only [Bool.and_eq_true, isNone_iff_eq_none] at hmine
    refine .inl ⟨h, hr, hmine, ?_⟩
    exact congrArg (Except.map some) (hpasses h hr hmine.1 hmine.2)
  | none =>
    refine .inr ⟨?_, ?_⟩
    · intro h hr hls
      have hn := filter_eq_none_iff.mp hmine h hr
      rw [hls, Bool.true_and, Bool.not_eq_true, isNone_eq_false_iff] at hn
      exact hn
    · split_ifs with hsett
      · exact .inl ⟨rfl, hsett⟩
      · exact .inr rfl

theorem lt_add_retryDelay (now attempt maximum : Nat) : now < now + retryDelay attempt maximum := by
  have hpos : 0 < 2 ^ min attempt 31 := Nat.two_pow_pos _
  unfold retryDelay
  omega

theorem not_isControl_of_rejection {c : Char}
    (h : (c.isLower || c.isDigit || c = '_') = true) : isControl c = false := by
  simp only [Char.isLower, Char.isDigit, Bool.or_eq_true, Bool.and_eq_true, decide_eq_true_eq,
    UInt32.le_iff_toNat_le, ge_iff_le] at h
  change ((97 ≤ c.toNat ∧ c.toNat ≤ 122) ∨ (48 ≤ c.toNat ∧ c.toNat ≤ 57)) ∨ c = '_' at h
  rcases h with (h | h) | rfl
  · simp only [isControl, Bool.or_eq_false_iff, Bool.and_eq_false_iff, decide_eq_false_iff_not]
    omega
  · simp only [isControl, Bool.or_eq_false_iff, Bool.and_eq_false_iff, decide_eq_false_iff_not]
    omega
  · decide

/-- The code of every failure can be recorded. -/
theorem TingFailure.validateText_code {failure : TingFailure}
    (h : (Outcome.failed failure).possible authorized = true) (field : String) :
    validateText failure.code field = .ok () := by
  rw [validateText_eq_ok]
  cases failure with
  | rejected code =>
    by_cases hyes : authorized = true
    · simp only [Outcome.possible, hyes, if_true, isRejection, Bool.and_eq_true,
        decide_eq_true_eq, List.all_eq_true, Bool.not_eq_true'] at h
      refine ⟨h.1.1, h.1.2.trans (by decide), ?_⟩
      rw [List.any_eq_false]
      intro c hc
      rw [not_isControl_of_rejection (h.2 c hc)]
      exact Bool.false_ne_true
    · simp only [Outcome.possible, hyes, Bool.false_eq_true, if_false, decide_eq_true_eq] at h
      obtain rfl := h
      decide +kernel
  | transport | timeout | protocol | invalidRequest | authorityUnavailable => decide +kernel

/-- What a round records: a new version of a row its worker leases, or nothing. -/
inductive Records (s : State) (c : Claim) : Except Refusal (Option Handoff) → Prop
  | progress {h h' : Handoff} (hrow : s.row c.deliveryId = some h) (hid : h'.id = h.id)
      (hdone : h'.acceptance.isSome = true ∨ s.now < h'.nextAttemptAt) : Records s c (.ok (some h'))
  | settled {h : Handoff} (hrow : s.row c.deliveryId = some h)
      (haccepted : h.acceptance.isSome = true) : Records s c (.ok none)
  | lost {message : String} (hlost : ∀ h ∈ s.row c.deliveryId,
      h.leasedTo s.now c.leaseId = true → h.acceptance.isSome = true) :
      Records s c (.error (.conflict message))

theorem records_of_progress {settled : Handoff → Bool}
    (hpasses : ∀ h ∈ s.row c.deliveryId, h.leasedTo s.now c.leaseId = true →
      h.acceptance = none → h.update p.serde (new h) = .ok (new h)) (hnew : ∀ h, (new h).id = h.id ∧
      ((new h).acceptance.isSome = true ∨ s.now < (new h).nextAttemptAt))
    (hsett : ∀ h, settled h = true → h.acceptance.isSome = true) :
    Records s c (recordProgress p s.now c.leaseId new settled (s.row c.deliveryId)) := by
  rcases recordProgress_cases settled hpasses with
    ⟨h, hr, -, hok⟩ | ⟨hlost, ⟨hok, hsome⟩ | herror⟩
  · rw [hok]
    exact .progress hr (hnew h).1 (hnew h).2
  · rw [hok]
    obtain ⟨h, hr, hh⟩ := (Option.any_eq_true _ _).mp hsome
    exact .settled hr (hsett h hh)
  · rw [herror]
    exact .lost hlost

/-- A round never fails on a row that has a request and is not discarded under its lease. -/
theorem records_recording (hposs : outcome.possible authorized = true)
    (hr : ∀ h ∈ s.row c.deliveryId, h.violated p.serde = none ∧ h.requestBody.isSome = true ∧
      (h.leasedTo s.now c.leaseId = true → h.discard = none)) :
    Records s c (recording p settings s c outcome).2 := by
  cases outcome with
  | accepted id createdAt silent =>
    simp only [Outcome.possible, Bool.and_eq_true, Bool.not_eq_true', decide_eq_true_eq] at hposs
    obtain ⟨⟨⟨-, hne⟩, hsize⟩, hcontrol⟩ := hposs
    have hval : validateText id "Ting ID" = .ok () :=
      validateText_eq_ok.mpr ⟨hne, hsize, hcontrol⟩
    unfold recording acceptTingDelivery
    simp only [hval]
    refine records_of_progress ?_ (fun h => ⟨rfl, .inl rfl⟩) ?_
    · intro h hh hls hopen
      obtain ⟨hv, hbody, hkept⟩ := hr h hh
      obtain ⟨h1, -, -, -, h5, -⟩ := violated_eq_none_iff.mp hv
      refine update_of_checked rfl (fun _ hb => hb) hopen (violated_eq_none_iff.mpr
        ⟨h1, nofun, nofun, ?_, h5, ?_⟩)
      · rintro _ ⟨⟩
        exact ⟨⟨lengthBetween_of_text hne hsize, hbody⟩, rfl⟩
      · simp [Handoff.accepted, hkept hls]
    · intro h hsett
      obtain ⟨accepted, hacc, -⟩ := (Option.any_eq_true _ _).mp hsett
      rw [hacc]
      rfl
  | failed failure =>
    have hval := TingFailure.validateText_code hposs "Ting retry error code"
    obtain ⟨hne, hsize, -⟩ := validateText_eq_ok.mp hval
    unfold recording retryTingDelivery
    simp only [hval]
    refine records_of_progress ?_ (fun h => ⟨rfl, .inr (lt_add_retryDelay _ _ _)⟩) fun h hh => hh
    intro h hh hls hopen
    obtain ⟨hv, -, -⟩ := hr h hh
    obtain ⟨h1, -, -, -, h5, -⟩ := violated_eq_none_iff.mp hv
    refine update_of_checked rfl (fun _ hb => hb) hopen (violated_eq_none_iff.mpr
      ⟨h1, ?_, nofun, ?_, h5, ?_⟩)
    · rintro _ ⟨⟩
      exact lengthBetween_of_text hne hsize
    · simp [Handoff.retried, hopen]
    · simp [Handoff.retried, hopen]

end SiliconDm.Server.Ting
