import SiliconDm.Base.Fallible
import SiliconDm.Base.System
import SiliconDm.Server.Database
import SiliconDm.Server.Webhook

/-!
# Sign-ins, webhook deliveries and Ting enrolments side by side

The parts of the server that hold something for an account's sign-in: the webhook handler, the
admission of requests, and the enrolment and re-enrolment with Ting. Each is a job whose store
calls and remote answers are single steps, so that any of them falls between any two of another;
a failure or a crash drops a job where it stands. What a step answers from outside (the clock,
Silicon Accounts, Ting) is part of its label. Sources: `src/api/webhook.rs:29–166`,
`src/application/accounts.rs:72–138,377–399`, `src/api/extract.rs:125–133`,
`src/infrastructure/ting_enrollment.rs:32–126,226–329`,
`src/infrastructure/postgres/ting.rs:324–460`, `accounts.rs:486–571`.

Left out: the text of refusals, `last_error` and `subscription_id` of an enrolment and the
outcome column of receipts, which nothing reads, and the custodian conversation, which is no
part of this state.
-/

namespace SiliconDm.Server

open Base List Option

/-! ### Tables -/

/-- A stored proof refresh token of an account (`ting_proof_grants`, for one app and purpose).
`origin` is no column: it is when the sign-in credential that the proof descends from was
obtained. -/
structure Grant where
  actor : ActorRef
  proofId : String
  origin : Nat
  deriving DecidableEq, Repr

/-- A row of `ting_automatic_enrollments` in the `@accounts` partition. -/
structure Enrolment where
  actor : ActorRef
  attemptedAt : Nat
  enrolledAt : Option Nat
  deriving DecidableEq, Repr

/-- What is stored about accounts and their sign-ins. `receipts` are the ids of recorded events;
`retired` are the keys that `accounts_uuid128_map` replaced. -/
structure Directory where
  accounts : List Account
  grants : List Grant
  enrolments : List Enrolment
  receipts : List String
  retired : List String
  deriving DecidableEq, Repr

/-! ### Applying an event -/

/-- One store call of `apply`. The times of `profile` and `endProofs` are those of their
event; the calls do not use them. -/
inductive Effect where
  | idChange (change : IdChanged)
  | profile (found : AccountLookup) (version : Int) (occurredAt : Nat)
  | custodian (silicon : String) (custodian : String × String) (occurredAt : Nat)
  | revoke (uuid : String) (cutoff : Nat)
  | endProofs (uuid : String) (occurredAt : Nat)
  | delete (uuid : String) (occurredAt : Nat)
  deriving DecidableEq, Repr

/-- The store calls of an event. DM's own revocation of one refresh family ends nothing.
`webhook.rs:104–165`. -/
def AccountEvent.effects (event : AccountEvent) (occurredAt : Nat) : List Effect :=
  match event with
  | .idChanged uuid kind newId => [.idChange { uuid, kind, newId, occurredAt }]
  | .updated _ (some found) version => [.profile found version occurredAt]
  | .updated _ none _ => []
  | .custodianChanged uuid (some custodian) => [.custodian uuid custodian occurredAt]
  | .custodianChanged _ none => []
  | .signedOut uuid reason =>
    if reason = some "app_revoked" then []
    else [.revoke uuid occurredAt, .endProofs uuid occurredAt]
  | .accessRemoved uuid => [.revoke uuid occurredAt, .endProofs uuid occurredAt]
  | .deleted uuid => [.delete uuid occurredAt]
  | .ping | .unknown => []

/-- `end_stored_proofs`, and the same deletions in `delete_account`. `accounts.rs:531–548`. -/
def Directory.endStoredProofs (d : Directory) (uuid : String) : Directory :=
  { d with
    grants := d.grants.filter (·.actor.id ≠ uuid)
    enrolments := d.enrolments.filter (·.actor.id ≠ uuid) }

/-- A store call; a refused one rolls back. -/
def Effect.apply (d : Directory) : Effect → Except AccountError Directory
  | .idChange change => do
    let (accounts, _) ← applyIdChange d.accounts change
    .ok { d with accounts }
  | .profile found version _ => do
    let (accounts, _) ← applyProfileUpdate d.accounts found version
    .ok { d with accounts }
  | .custodian silicon owner occurredAt => do
    let (accounts, _) ← applyCustodianChange d.accounts silicon owner occurredAt
    .ok { d with accounts }
  | .revoke uuid cutoff =>
    .ok { d with accounts := revokeSessionsBefore d.accounts uuid cutoff }
  | .endProofs uuid _ => .ok (d.endStoredProofs uuid)
  | .delete uuid occurredAt =>
    .ok { d.endStoredProofs uuid with accounts := markDeleted d.accounts uuid occurredAt }

/-! ### Admission -/

/-- How a caller authenticated. The issue time of an access token is exact here; its `iat`, if
it has one, is whole seconds. -/
inductive Credential where
  | bearer (issued : Nat) (iat : Bool)
  | proof (issuedAt : Option Nat)
  deriving DecidableEq, Repr

structure Context where
  actor : ActorRef
  publicId : String
  credential : Credential
  deriving DecidableEq, Repr

/-- `context.issued_at`. -/
def Context.issuedAt (c : Context) : Option Nat :=
  match c.credential with
  | .bearer issued iat => if iat then some (issued / 1000 * 1000) else none
  | .proof issuedAt => issuedAt

/-- When the access token was issued, if it came with one. -/
def Context.token (c : Context) : Option Nat :=
  match c.credential with
  | .bearer issued _ => some issued
  | .proof _ => none

/-- Where a token stands against a cutoff. `application/accounts.rs:377–399`. -/
inductive Order where
  | before
  | after
  | sameSecond
  deriving DecidableEq, Repr

def order (issued cutoff : Nat) : Order :=
  if issued + 1000 ≤ cutoff then .before
  else if cutoff < issued then .after
  else .sameSecond

/-- Whether `admit` accepts a caller whose row it read; `live` is the answer of Silicon Accounts
for a token of the cutoff's own second. `application/accounts.rs:100–128`. -/
def admits (c : Context) (row : Account) (live : Bool) : Bool :=
  if row.status = .deleted then false
  else
    match c.token, row.revokedBefore with
    | some _, some cutoff =>
      match c.issuedAt.map (order · cutoff) with
      | none | some .before => false
      | some .after => true
      | some .sameSecond => live
    | _, _ => true

/-! ### Enrolments -/

/-- Ten minutes. -/
def enrolmentRetry : Nat := 600000

/-- `reserve_ting_enrolment`: no enrolment, and no attempt in the last ten minutes.
`ting.rs:333–351`. -/
def Directory.reserve (d : Directory) (actor : ActorRef) (now : Nat) : Directory × Bool :=
  match getRow Enrolment.actor d.enrolments actor with
  | some row =>
    if row.enrolledAt.isNone && row.attemptedAt + enrolmentRetry < now then
      ({ d with enrolments := put Enrolment.actor { row with attemptedAt := now } d.enrolments },
        true)
    else (d, false)
  | none =>
    ({ d with
      enrolments := d.enrolments ++ [{ actor, attemptedAt := now, enrolledAt := none }] }, true)

/-- `finish_ting_enrolment`. `ting.rs:357–381`. -/
def Directory.finish (d : Directory) (actor : ActorRef) (enrolledAt : Option Nat) : Directory :=
  { d with
    enrolments := d.enrolments.map fun row =>
      if row.actor = actor then { row with enrolledAt } else row }

/-- `save_ting_proof_grant`: an unconditional upsert. `ting.rs:388–415`. -/
def Directory.saveGrant (d : Directory) (g : Grant) : Directory :=
  { d with grants := put Grant.actor g d.grants }

/-- `forget_ting_enrolment`. `ting.rs:447–460`. -/
def Directory.forget (d : Directory) (actor : ActorRef) : Directory :=
  { d with enrolments := d.enrolments.filter (·.actor ≠ actor) }

/-! ### Jobs -/

/-- A job, by the store call or remote answer it makes next. -/
inductive Job where
  | receive (event : VerifiedEvent)
  | apply (event : VerifiedEvent) (occurredAt done : Nat) (rest : List Effect)
  | authenticate (c : Context)
  | read (c : Context)
  | decide (c : Context) (row : Account)
  | reserve (c : Context)
  | issue (c : Context)
  | save (c : Context) (proofId : String)
  | subscribe (c : Context)
  | reenrol (actor : ActorRef)
  | refresh (g : Grant)
  | resave (g : Grant) (proofId : String)
  | resubscribe (actor : ActorRef)
  deriving DecidableEq, Repr

/-- What a step is answered from outside: the clock, whether the sign-in is live, whether the
enrolment of the caller is due, a proof (and whether a refresh token came with it), and whether
Ting accepted the subscription. -/
structure Answer where
  now : Nat
  live : Bool
  enrol : Bool
  proof : Option (String × Bool)
  subscribed : Bool
  deriving DecidableEq, Repr

/-- What happened, in order: a record for statements about runs, which no step reads. -/
inductive Entry where
  | applied (event : VerifiedEvent) (index : Nat) (effect : Effect)
  | handled (event : AccountEvent) (occurredAt : Nat)
  | looked (found : AccountLookup) (readAt : Nat)
  | admitted (c : Context)
  deriving DecidableEq, Repr

/-- The tables after a step, what is left of the job, and what happened. -/
structure Progress where
  directory : Directory
  job : Option Job
  entries : List Entry := []

/-- The webhook handler. `webhook.rs:29–91`. -/
def receiveStep (d : Directory) (event : VerifiedEvent) (now : Nat) : Progress :=
  if event.eventId ∈ d.receipts then { directory := d, job := none }
  else if event.event.identities.any (· ∈ d.retired) then
    { directory := { d with receipts := d.receipts ++ [event.eventId] }, job := none }
  else
    -- an event without a time takes that of its delivery
    let occurredAt := event.occurredAt.getD now
    { directory := d
      job := some (.apply event occurredAt 0 (event.event.effects occurredAt)) }

/-- One store call of `apply`, or the receipt at its end. -/
def applyStep (d : Directory) (event : VerifiedEvent) (occurredAt done : Nat) :
    List Effect → Progress
  | [] =>
    { directory := { d with
        receipts := if event.eventId ∈ d.receipts then d.receipts
          else d.receipts ++ [event.eventId] }
      job := none
      entries := [.handled event.event occurredAt] }
  | effect :: rest =>
    match effect.apply d with
    | .ok d' =>
      { directory := d'
        job := some (.apply event occurredAt (done + 1) rest)
        entries := [.applied event done effect] }
    | .error _ => { directory := d, job := none }

def Job.advance (d : Directory) (a : Answer) : Job → Progress
  | .receive event => receiveStep d event a.now
  | .apply event occurredAt done rest => applyStep d event occurredAt done rest
  | .authenticate c =>
    if c.actor.id ∈ d.retired then { directory := d, job := none }
    else
      match recordAuthentication d.accounts c.actor.id c.actor.actorType
          ((some c.publicId).filter validPublicId) c.issuedAt with
      | .ok (accounts, _) => { directory := { d with accounts }, job := some (.read c) }
      | .error _ => { directory := d, job := none }
  | .read c =>
    match account d.accounts c.actor.id with
    | some row => { directory := d, job := some (.decide c row) }
    | none => { directory := d, job := none }
  | .decide c row =>
    if admits c row a.live then
      -- a caller with its own access token may be enrolled in the background
      { directory := d
        job := if a.enrol && c.token.isSome then some (.reserve c) else none
        entries := [.admitted c] }
    else { directory := d, job := none }
  | .reserve c =>
    let (d, reserved) := d.reserve c.actor a.now
    { directory := d, job := if reserved then some (.issue c) else none }
  | .issue c =>
    match a.proof with
    | some (proofId, renewable) =>
      { directory := d, job := some (if renewable then .save c proofId else .subscribe c) }
    | none => { directory := d.finish c.actor none, job := none }
  | .save c proofId =>
    { directory := d.saveGrant { actor := c.actor, proofId, origin := c.token.getD 0 }
      job := some (.subscribe c) }
  | .subscribe c =>
    { directory := d.finish c.actor (if a.subscribed then some a.now else none), job := none }
  | .reenrol actor =>
    match getRow Grant.actor d.grants actor with
    | some g => { directory := d, job := some (.refresh g) }
    | none => { directory := d.forget actor, job := none }
  | .refresh g =>
    match a.proof with
    | some (proofId, renewable) =>
      { directory := d
        job := some (if renewable then .resave g proofId else .resubscribe g.actor) }
    | none => { directory := d.forget g.actor, job := none }
  | .resave g proofId =>
    { directory := d.saveGrant { g with proofId }, job := some (.resubscribe g.actor) }
  | .resubscribe actor =>
    { directory := if a.subscribed then d else d.forget actor, job := none }

/-- The account a re-enrolment holds the advisory lock of. `ting_enrollment.rs:238–249`. -/
def Job.reenrols : Job → Option ActorRef
  | .reenrol actor | .resubscribe actor => some actor
  | .refresh g | .resave g _ => some g.actor
  | _ => none

/-! ### The server -/

structure Service where
  directory : Directory
  jobs : List (Nat × Job)
  log : List Entry

def Service.job (s : Service) (id : Nat) : Option Job :=
  s.jobs.lookup id

/-- A delivery, a request and a re-enrolment begin with a store call each. -/
inductive Begin where
  | deliver (event : VerifiedEvent)
  | request (c : Context)
  | reenrol (actor : ActorRef)
  deriving DecidableEq, Repr

def Begin.job : Begin → Job
  | .deliver event => .receive event
  | .request c => .authenticate c
  | .reenrol actor => .reenrol actor

inductive Label where
  | start (id : Nat) (what : Begin)
  | advance (id : Nat) (answer : Answer)
  | drop (id : Nat)
  | lookup (found : AccountLookup) (readAt now : Nat)
  | memberProfile (uuid : String) (displayName pfpUrl : Option String)
  deriving DecidableEq, Repr

def Service.replace (s : Service) (id : Nat) (job : Option Job) : List (Nat × Job) :=
  (job.map (id, ·)).toList ++ s.jobs.filter (·.1 ≠ id)

def Service.step (s : Service) : Label → Option Service
  | .start id what =>
    if (s.job id).isSome then none
    -- the advisory lock of a re-enrolment is taken or the call returns at once
    else if what.job.reenrols.any fun actor => s.jobs.any (·.2.reenrols = some actor) then none
    else some { s with jobs := (id, what.job) :: s.jobs }
  | .advance id answer =>
    (s.job id).map fun job =>
      let progress := job.advance s.directory answer
      { directory := progress.directory
        jobs := s.replace id progress.job
        log := s.log ++ progress.entries }
  | .drop id => some { s with jobs := s.replace id none }
  | .lookup found readAt now =>
    match recordLookup s.directory.accounts found now with
    | .ok accounts =>
      some { s with
        directory := { s.directory with accounts }
        log := s.log ++ [.looked found readAt] }
    | .error _ => some s
  | .memberProfile uuid displayName pfpUrl =>
    some { s with
      directory := { s.directory with
        accounts := recordMemberProfile s.directory.accounts uuid displayName pfpUrl } }

def identity (initial : Directory → Prop) : System Service Label where
  init s := initial s.directory ∧ s.jobs = [] ∧ s.log = []
  step := Service.step

/-! ### What a step does to the accounts -/

/-- The ways a step writes the accounts table, with what it records. -/
inductive Wrote (s : Service) : Label → List Account → List Entry → Prop where
  | applied {id : Nat} {a : Answer} {event : VerifiedEvent} {occurredAt done : Nat}
      {effect : Effect} {rest : List Effect} {d : Directory}
      (job : s.job id = some (.apply event occurredAt done (effect :: rest)))
      (ok : effect.apply s.directory = .ok d) :
      Wrote s (.advance id a) d.accounts [.applied event done effect]
  | handled {id : Nat} {a : Answer} {event : VerifiedEvent} {occurredAt done : Nat}
      (job : s.job id = some (.apply event occurredAt done [])) :
      Wrote s (.advance id a) s.directory.accounts [.handled event.event occurredAt]
  | authenticated {id : Nat} {a : Answer} {c : Context} {accounts : List Account}
      {applied : Applied} (job : s.job id = some (.authenticate c))
      (ok : recordAuthentication s.directory.accounts c.actor.id c.actor.actorType
        ((some c.publicId).filter validPublicId) c.issuedAt = .ok (accounts, applied)) :
      Wrote s (.advance id a) accounts []
  | admitted {id : Nat} {a : Answer} {c : Context} {row : Account}
      (job : s.job id = some (.decide c row)) (ok : admits c row a.live = true) :
      Wrote s (.advance id a) s.directory.accounts [.admitted c]
  | looked {found : AccountLookup} {readAt now : Nat} {accounts : List Account}
      (ok : recordLookup s.directory.accounts found now = .ok accounts) :
      Wrote s (.lookup found readAt now) accounts [.looked found readAt]
  | memberProfile {uuid : String} {displayName pfpUrl : Option String} :
      Wrote s (.memberProfile uuid displayName pfpUrl)
        (recordMemberProfile s.directory.accounts uuid displayName pfpUrl) []
  | silent {l : Label} : Wrote s l s.directory.accounts []

@[simp] theorem accounts_reserve (d : Directory) (actor : ActorRef) (now : Nat) :
    (d.reserve actor now).1.accounts = d.accounts := by
  unfold Directory.reserve
  split
  · split <;> rfl
  · rfl

variable {s s' : Service} {id : Nat} {a : Answer} {job : Job} {l : Label} {effect : Effect}
  {accounts : List Account} {entries : List Entry}

private theorem wrote_of_advance (hj : s.job id = some job) :
    Wrote s (.advance id a) (job.advance s.directory a).directory.accounts
      (job.advance s.directory a).entries := by
  cases job with
  | receive event =>
    simp only [Job.advance, receiveStep]
    split
    · exact .silent
    · split <;> exact .silent
  | apply event occurredAt done rest =>
    cases rest with
    | nil => exact .handled hj
    | cons effect rest =>
      simp only [Job.advance, applyStep]
      split
      case h_1 d hd => exact .applied hj hd
      case h_2 => exact .silent
  | authenticate c =>
    simp only [Job.advance]
    split
    · exact .silent
    · split
      case h_1 accounts applied hok => exact .authenticated hj hok
      case h_2 => exact .silent
  | read c | issue c | reenrol actor | refresh g | resubscribe actor =>
    simp only [Job.advance]
    split <;> exact .silent
  | decide c row =>
    simp only [Job.advance]
    split
    case isTrue hok => exact .admitted hj hok
    case isFalse => exact .silent
  | reserve c =>
    simp only [Job.advance, accounts_reserve]
    exact .silent
  | save c proofId | subscribe c | resave g proofId => exact .silent

theorem wrote_of_step (h : s.step l = some s') :
    ∃ entries, s'.log = s.log ++ entries ∧ Wrote s l s'.directory.accounts entries := by
  cases l with
  | start id what =>
    simp only [Service.step] at h
    split at h
    · cases h
    · split at h
      · cases h
      · cases h
        exact ⟨[], by simp, .silent⟩
  | advance id a =>
    obtain ⟨job, hj, rfl⟩ := map_eq_some_iff.mp h
    exact ⟨_, rfl, wrote_of_advance hj⟩
  | drop id =>
    cases h
    exact ⟨[], by simp, .silent⟩
  | lookup found readAt now =>
    simp only [Service.step] at h
    split at h
    case h_1 accounts hok =>
      cases h
      exact ⟨_, rfl, .looked hok⟩
    case h_2 =>
      cases h
      exact ⟨[], by simp, .silent⟩
  | memberProfile uuid displayName pfpUrl =>
    cases h
    exact ⟨[], by simp, .memberProfile⟩

/-- What a store call that succeeds writes to the accounts. -/
inductive Effect.Writes (x : List Account) : Effect → List Account → Prop where
  | idChange {change : IdChanged} {y : List Account} {applied : Applied}
      (ok : applyIdChange x change = .ok (y, applied)) : Writes x (.idChange change) y
  | profile {found : AccountLookup} {version : Int} {t : Nat} {y : List Account} {applied : Applied}
      (ok : applyProfileUpdate x found version = .ok (y, applied)) :
      Writes x (.profile found version t) y
  | custodian {silicon : String} {owner : String × String} {t : Nat} {y : List Account}
      {applied : Applied} (ok : applyCustodianChange x silicon owner t = .ok (y, applied)) :
      Writes x (.custodian silicon owner t) y
  | revoke {uuid : String} {cutoff : Nat} :
      Writes x (.revoke uuid cutoff) (revokeSessionsBefore x uuid cutoff)
  | endProofs {uuid : String} {t : Nat} : Writes x (.endProofs uuid t) x
  | delete {uuid : String} {t : Nat} : Writes x (.delete uuid t) (markDeleted x uuid t)

theorem Effect.writes {d d' : Directory} (h : effect.apply d = .ok d') :
    effect.Writes d.accounts d'.accounts := by
  cases effect with
  | idChange | profile | custodian =>
    obtain ⟨⟨accounts, applied⟩, hok, he⟩ := bind_eq_ok.mp h
    cases he
    constructor
    exact hok
  | revoke | endProofs | delete =>
    cases h
    constructor

theorem Effect.Writes.laterRows {x y : List Account} (h : effect.Writes x y) : LaterRows x y := by
  cases h with
  | idChange ok => exact laterRows_applyIdChange ok
  | profile ok => exact laterRows_applyProfileUpdate ok
  | custodian ok => exact laterRows_applyCustodianChange ok
  | revoke => exact laterRows_revokeSessionsBefore _ _ _
  | endProofs => exact .refl _
  | delete => exact laterRows_markDeleted _ _ _

theorem Wrote.laterRows (h : Wrote s l accounts entries) :
    LaterRows s.directory.accounts accounts := by
  cases h with
  | applied _ ok => exact (Effect.writes ok).laterRows
  | handled | admitted | silent => exact .refl _
  | authenticated _ ok => exact laterRows_recordAuthentication ok
  | looked ok => exact laterRows_recordLookup ok
  | memberProfile => exact laterRows_recordMemberProfile _ _ _ _

/-! ### Unique keys -/

theorem Effect.Writes.keyed {x y : List Account} (h : effect.Writes x y)
    (hk : Keyed Account.uuid x) : Keyed Account.uuid y := by
  cases h with
  | idChange ok => exact keyed_applyIdChange hk ok
  | profile ok => exact keyed_guardedUpsert hk ok fun _ => rfl
  | custodian ok =>
    refine keyed_guardedUpsert ?_ (applyCustodianChange_eq_ok ok).2 fun _ => rfl
    exact hk.upsert rfl fun _ _ => rfl
  | revoke =>
    apply hk.map
    intro a
    split <;> rfl
  | endProofs => exact hk
  | delete => exact hk.upsert rfl fun _ _ => rfl

theorem Wrote.keyed (h : Wrote s l accounts entries) (hk : Keyed Account.uuid s.directory.accounts) :
    Keyed Account.uuid accounts := by
  cases h with
  | applied _ ok => exact (Effect.writes ok).keyed hk
  | authenticated _ ok => exact keyed_guardedUpsert hk ok fun _ => rfl
  | looked ok => exact keyed_recordLookup hk ok
  | memberProfile =>
    apply hk.map
    intro a
    split <;> rfl
  | handled | admitted | silent => exact hk

/-! ### What a step does to the jobs -/

/-- Where the jobs after a step come from. -/
theorem job_of_step (h : s.step l = some s') (hj : (id, job) ∈ s'.jobs) :
    (id, job) ∈ s.jobs ∨ (∃ what, l = .start id what ∧ job = what.job) ∨
      ∃ a before, l = .advance id a ∧ s.job id = some before ∧
        (before.advance s.directory a).job = some job := by
  cases l with
  | start id' what =>
    simp only [Service.step] at h
    split at h
    · cases h
    · split at h
      · cases h
      · cases h
        cases mem_cons.mp hj with
        | inl he =>
          cases he
          exact .inr (.inl ⟨what, rfl, rfl⟩)
        | inr hj => exact .inl hj
  | advance id' a =>
    obtain ⟨before, hb, rfl⟩ := map_eq_some_iff.mp h
    simp only [Service.replace, mem_append, mem_toList, mem_filter] at hj
    cases hj with
    | inl hj =>
      obtain ⟨after, haft, he⟩ := map_eq_some_iff.mp hj
      cases he
      exact .inr (.inr ⟨a, before, rfl, hb, haft⟩)
    | inr hj => exact .inl hj.1
  | drop id' =>
    cases h
    simp only [Service.replace, map_none, toList_none, nil_append,
      mem_filter] at hj
    exact .inl hj.1
  | lookup found readAt now =>
    simp only [Service.step] at h
    split at h <;>
    · cases h
      exact .inl hj
  | memberProfile uuid displayName pfpUrl =>
    cases h
    exact .inl hj

theorem mem_of_job (h : s.job id = some job) : (id, job) ∈ s.jobs :=
  mem_of_lookup h

theorem advance_eq_some (h : s.step (.advance id a) = some s') (hj : s.job id = some job) :
    s'.directory = (job.advance s.directory a).directory ∧
      s'.log = s.log ++ (job.advance s.directory a).entries := by
  obtain ⟨before, hb, rfl⟩ := map_eq_some_iff.mp h
  obtain rfl : before = job := Option.some.inj (hb.symm.trans hj)
  exact ⟨rfl, rfl⟩

inductive Next (d : Directory) (a : Answer) : Job → Job → Prop where
  | delivered {event : VerifiedEvent} {t : Nat} :
      Next d a (.receive event) (.apply event t 0 (event.event.effects t))
  | applied {event : VerifiedEvent} {t done : Nat} {effect : Effect} {rest : List Effect}
      {d' : Directory} (ok : effect.apply d = .ok d') :
      Next d a (.apply event t done (effect :: rest)) (.apply event t (done + 1) rest)
  | authenticated {c : Context} : Next d a (.authenticate c) (.read c)
  | read {c : Context} {row : Account} (found : account d.accounts c.actor.id = some row) :
      Next d a (.read c) (.decide c row)
  | admitted {c : Context} {row : Account} (ok : admits c row a.live = true)
      (token : c.token.isSome) : Next d a (.decide c row) (.reserve c)
  | reserved {c : Context} : Next d a (.reserve c) (.issue c)
  | issued {c : Context} {proofId : String} : Next d a (.issue c) (.save c proofId)
  | issuedOnce {c : Context} : Next d a (.issue c) (.subscribe c)
  | saved {c : Context} {proofId : String} : Next d a (.save c proofId) (.subscribe c)
  | granted {actor : ActorRef} {g : Grant}
      (found : getRow Grant.actor d.grants actor = some g) :
      Next d a (.reenrol actor) (.refresh g)
  | refreshed {g : Grant} {proofId : String} : Next d a (.refresh g) (.resave g proofId)
  | refreshedOnce {g : Grant} : Next d a (.refresh g) (.resubscribe g.actor)
  | resaved {g : Grant} {proofId : String} :
      Next d a (.resave g proofId) (.resubscribe g.actor)

theorem next_of_advance {d : Directory} {before : Job} (h : (before.advance d a).job = some job) :
    Next d a before job := by
  cases before with
  | receive event =>
    simp only [Job.advance, receiveStep] at h
    split_ifs at h
    cases h
    exact .delivered
  | apply event t done rest =>
    cases rest with
    | nil => cases h
    | cons effect rest =>
      simp only [Job.advance, applyStep] at h
      split at h
      case h_1 hok =>
        cases h
        exact .applied hok
      case h_2 => cases h
  | authenticate c =>
    simp only [Job.advance] at h
    split at h
    · cases h
    · split at h
      · cases h
        exact .authenticated
      · cases h
  | read c =>
    simp only [Job.advance] at h
    split at h
    case h_1 hr =>
      cases h
      exact .read hr
    case h_2 => cases h
  | decide c row =>
    simp only [Job.advance] at h
    split at h
    case isTrue hok =>
      simp only [ite_none_right_eq_some, Bool.and_eq_true] at h
      obtain ⟨⟨-, htok⟩, he⟩ := h
      cases he
      exact .admitted hok htok
    case isFalse => cases h
  | reserve c =>
    simp only [Job.advance] at h
    split_ifs at h
    cases h
    exact .reserved
  | issue c =>
    simp only [Job.advance] at h
    split at h
    · split_ifs at h
      · cases h
        exact .issued
      · cases h
        exact .issuedOnce
    · cases h
  | save c proofId =>
    cases h
    exact .saved
  | subscribe c | resubscribe actor => cases h
  | reenrol actor =>
    simp only [Job.advance] at h
    split at h
    case h_1 hg =>
      cases h
      exact .granted hg
    case h_2 => cases h
  | refresh g =>
    simp only [Job.advance] at h
    split at h
    · split_ifs at h
      · cases h
        exact .refreshed
      · cases h
        exact .refreshedOnce
    · cases h
  | resave g proofId =>
    cases h
    exact .resaved

/-- Where an apply job comes from, with its time. -/
theorem apply_of_advance {d : Directory} {before : Job} {event : VerifiedEvent} {t done : Nat}
    {rest : List Effect}
    (h : (before.advance d a).job = some (.apply event t done rest)) :
    (before = .receive event ∧ t = event.occurredAt.getD a.now ∧ done = 0 ∧
        rest = event.event.effects t) ∨
      ∃ earlier effect, done = earlier + 1 ∧
        before = .apply event t earlier (effect :: rest) := by
  cases next_of_advance h with
  | delivered =>
    simp only [Job.advance, receiveStep] at h
    split_ifs at h
    cases h
    exact .inl ⟨rfl, rfl, rfl, rfl⟩
  | applied ok => exact .inr ⟨_, _, rfl, rfl⟩

def HasApplied (log : List Entry) (effect : Effect) : Prop :=
  ∃ event index, .applied event index effect ∈ log

/-- A handler has applied the store calls of its event in order, and all of them when it is
done. -/
structure Handling (s : Service) : Prop where
  applying : ∀ id event t done rest, (id, .apply event t done rest) ∈ s.jobs →
    ∃ taken, event.event.effects t = taken ++ rest ∧ ∀ effect ∈ taken, HasApplied s.log effect
  handled : ∀ event t, .handled event t ∈ s.log →
    ∀ effect ∈ event.effects t, HasApplied s.log effect

theorem HasApplied.append {log : List Entry} (h : HasApplied log effect) (entries : List Entry) :
    HasApplied (log ++ entries) effect := by
  obtain ⟨event, index, hm⟩ := h
  exact ⟨event, index, mem_append_left _ hm⟩

theorem Handling.step (h : Handling s) (hs : s.step l = some s') : Handling s' := by
  obtain ⟨entries, hlog, hw⟩ := wrote_of_step hs
  constructor
  case applying =>
    intro id event t done rest hj
    obtain hj | ⟨what, -, he⟩ | ⟨a, before, rfl, hb, hjob⟩ := job_of_step hs hj
    · obtain ⟨taken, he, happ⟩ := h.applying id event t done rest hj
      rw [hlog]
      exact ⟨taken, he, fun effect hm => (happ effect hm).append _⟩
    · cases what <;> cases he
    · cases next_of_advance hjob with
      | delivered => exact ⟨[], rfl, by simp⟩
      | @applied _ _ earlier effect _ d ok =>
        obtain ⟨taken, he, happ⟩ := h.applying id event t earlier _ (mem_of_job hb)
        rw [(advance_eq_some hs hb).2]
        simp only [Job.advance, applyStep, ok]
        refine ⟨taken ++ [effect], by simp [he], ?_⟩
        intro effect' hm
        cases mem_append.mp hm with
        | inl hm => exact (happ effect' hm).append _
        | inr hm =>
          obtain rfl := mem_singleton.mp hm
          exact ⟨event, earlier, by simp⟩
  case handled =>
    intro event t hm effect heffect
    rw [hlog] at hm ⊢
    cases mem_append.mp hm with
    | inl hm => exact (h.handled event t hm effect heffect).append _
    | inr hm =>
      -- only the last step of a handler records it as done
      generalize s'.directory.accounts = accounts at hw
      cases hw with
      | handled job =>
        cases mem_singleton.mp hm
        obtain ⟨taken, he, happ⟩ := h.applying _ _ _ _ _ (mem_of_job job)
        rw [append_nil] at he
        rw [he] at heffect
        exact (happ effect heffect).append _
      | applied | admitted | looked => cases mem_singleton.mp hm
      | authenticated | memberProfile | silent => cases hm

theorem handling_of_reachable {initial : Directory → Prop} {C : Service → Label → Prop}
    (h : (identity initial).ReachableWhile C s) : Handling s := by
  refine h.invariant ?_ (fun s l s' hs _ hl => hs.step hl)
  rintro s ⟨-, hjobs, hlog⟩
  constructor
  · simp [hjobs]
  · simp [hlog]

end SiliconDm.Server
