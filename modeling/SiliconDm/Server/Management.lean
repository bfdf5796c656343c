import SiliconDm.Server.Custody
import SiliconDm.Server.Standing

/-!
# Requests that change a group

Owners manage a group, and so do the custodians of its Silicon owners; a custodian may also take
its own Silicons out. The handlers ask for this on the pool, before the transaction that locks
the group.

The settings and the version of a group are written by transactions that hold its lock, and are
written here when they commit. Which account a selector names comes with the label. Of the
account events only those that name a custodian are steps; the others write no column that is
read here.

Sources: `src/api/groups.rs:60–172,236–259`, `src/infrastructure/postgres/groups.rs:88–103,164–434,
560–575`, `src/application/auth.rs:74–88`, `src/application/accounts.rs:254–312`,
`src/infrastructure/postgres/accounts.rs:326–406`.
-/

namespace SiliconDm.Server

open Base Option

namespace Management

/-! ### Requests -/

structure Settings where
  name : String
  description : String
  deriving DecidableEq, Repr

/-- A row of `groups`. -/
structure Group where
  conversation : Nat
  settings : Settings
  version : Nat
  deriving DecidableEq, Repr

inductive Change where
  | update (settings : Settings) (version : Nat)
  | invite (invitees : List Invitee)
  | remove (members : List ActorRef)
  | owners (members : List ActorRef) (promote : Bool)
  deriving DecidableEq, Repr

structure Request where
  actor : ActorRef
  group : Nat
  change : Change
  deriving DecidableEq, Repr

/-- Its transaction; `update_group` only locks and finishes, apart from the row of `groups`. -/
def Request.task (x : Request) (acquired : Bool) (now : Nat) : Task :=
  match x.change with
  | .update .. => .inviteToGroup x.group [] acquired now
  | .invite invitees => .inviteToGroup x.group invitees acquired now
  | .remove members => .removeFromGroup x.group members acquired now
  | .owners members promote => .setGroupOwners x.group members promote acquired now

def Request.removes (x : Request) : Bool :=
  match x.change with
  | .remove _ => true
  | _ => false

/-- The handler of a removal while it resolves its members: the accounts as they were read. -/
structure Removal where
  actor : ActorRef
  group : Nat
  accounts : List Account
  deriving DecidableEq, Repr

def Removal.request (r : Removal) : Request where
  actor := r.actor
  group := r.group
  change := .remove (r.accounts.map fun a => ⟨a.kind, a.uuid⟩)

/-- An account that is named twice counts once. `application/accounts.rs:296–308`. -/
def Removal.resolve (r : Removal) (row : Account) : Removal :=
  if r.accounts.any (·.uuid = row.uuid) then r
  else { r with accounts := r.accounts ++ [row] }

def Removal.custodial (r : Removal) : Bool :=
  r.accounts.all (·.custodianUuid = some r.actor.id)

/-! ### The checks -/

/-- The actor owns the group as this owner, or is the custodian of this Silicon owner. -/
def managesThrough (d : Database) (actor : ActorRef) (o : Owner) : Bool :=
  (o.actor = actor || d.custodianReads actor o.actor) && !d.deleted o.actor.id

/-- `groups.rs:88–103`. -/
def managesGroup (d : Database) (actor : ActorRef) (g : Nat) : Bool :=
  d.owners.any fun o => o.conversation = g && managesThrough d actor o

def notManager : AppError :=
  .forbidden "not_group_owner" ("Only the group's owners (and the custodian of a Silicon owner) " ++
    "manage it. Ask an owner to make you an owner.")

/-- `issuingApp` is the app of a caller that came with a proof. `auth.rs:78–88`. -/
def requireOwnSession (issuingApp : Option String) (what : String) : Except AppError Unit :=
  match issuingApp with
  | none => .ok ()
  | some app =>
    .error (.forbidden "proof_not_accepted" (s!"{what} needs the account's own DM sign-in; " ++
      s!"{app} is acting through a User verification proof, which DM does not accept here."))

/-- `api/groups.rs:236–243`. -/
def requireManager (d : Database) (issuingApp : Option String) (actor : ActorRef) (g : Nat) :
    Except AppError Unit := do
  requireOwnSession issuingApp "Managing a group"
  if managesGroup d actor g then .ok () else .error notManager

/-- `api/groups.rs:119–128`. -/
def requireRemover (d : Database) (r : Removal) : Except AppError Unit :=
  if !managesGroup d r.actor r.group && !r.custodial then .error notManager else .ok ()

/-- What a request was permitted for. -/
inductive Ground where
  | manager
  | custodian
  deriving DecidableEq, Repr

structure Permit where
  request : Request
  ground : Ground
  deriving DecidableEq, Repr

/-- A removal is permitted to a manager, and else to a custodian. -/
def Removal.permit (r : Removal) (d : Database) : Permit where
  request := r.request
  ground := if managesGroup d r.actor r.group then .manager else .custodian

/-! ### Account events -/

inductive Naming where
  | custodianChanged (silicon : String) (custodian : String × String) (occurredAt : Nat)
  | updated (found : AccountLookup) (version : Int)
  deriving DecidableEq, Repr

def Naming.apply (accounts : List Account) : Naming → Option (List Account)
  | .custodianChanged silicon custodian occurredAt =>
    (applyCustodianChange accounts silicon custodian occurredAt).toOption.map (·.1)
  | .updated found version => (applyProfileUpdate accounts found version).toOption.map (·.1)

def Naming.rows : Naming → List String
  | .custodianChanged silicon custodian _ => [silicon, custodian.1]
  | .updated found _ => [found.uuid]

/-! ### Steps -/

/-- The store with the rows of `groups`, the requests before their transaction, and which
request or creation a transaction serves. -/
structure State where
  sessions : Sessions Database Statement Check Write Lock Task
  groups : List Group
  resolving : List Removal
  permitted : List Permit
  serving : List (Nat × Permit)
  creating : List (Nat × Settings)

inductive Label where
  | requireManager (issuingApp : Option String) (x : Request)
  | openRemoval (actor : ActorRef) (group : Nat)
  | resolve (r : Removal) (uuid : String)
  | requireRemover (r : Removal)
  | serve (p : Permit) (acquired : Bool) (now : Nat)
  | create (settings : Settings) (group : Nat) (creator : ActorRef) (invitees : List Invitee)
      (now : Nat)
  | db (action : Action Task)
  | commit (id : Nat)
  | naming (e : Naming)

def State.committed (s : State) : Database :=
  s.sessions.committed

def managing : Task → Bool
  | .inviteToGroup .. | .removeFromGroup .. | .setGroupOwners .. => true
  | _ => false

def reserved : Action Task → Bool
  | .start (.createGroup ..) => true
  | .start task => managing task
  | .commit _ => true
  | .exec _ | .rollback _ => false

/-- The group whose version a transaction raises. -/
def bumps : Task → Option Nat
  | .inviteToGroup g _ acquired _ | .removeFromGroup g _ acquired _
  | .setGroupOwners g _ _ acquired _ => if acquired then some g else none
  | .respondToInvitation g .. | .leaveGroup g .. => some g
  | _ => none

def State.update (s : State) (id : Nat) : Option (Settings × Nat) :=
  (s.serving.lookup id).bind fun p =>
    match p.request.change with
    | .update settings version => some (settings, version)
    | _ => none

/-- `UPDATE groups … WHERE conversation_id = $1 AND version = $4` finds its row. -/
def State.upToDate (s : State) (t : Open) : Bool :=
  match s.update t.id, bumps t.task with
  | some (_, version), some g => s.groups.any fun row => row.conversation = g && row.version = version
  | _, _ => true

/-- A row of `groups` after a transaction. -/
def State.rewritten (s : State) (t : Open) (row : Group) : Group :=
  if bumps t.task = some row.conversation then
    { row with
      settings := ((s.update t.id).map (·.1)).getD row.settings
      version := row.version + 1 }
  else row

def State.inserted (s : State) (t : Open) : List Group :=
  match t.task, s.creating.lookup t.id with
  | .createGroup g .., some settings => [{ conversation := g, settings, version := 1 }]
  | _, _ => []

/-- A stale version fails the request, which rolls back. -/
def State.commit (s : State) (t : Open) : Option State :=
  if s.upToDate t then
    (store.step s.sessions (.commit t.id)).map fun sessions =>
      { s with
        sessions
        groups := if store.commits s.committed t then s.groups.map (s.rewritten t) ++ s.inserted t
          else s.groups }
  else (store.step s.sessions (.rollback t.id)).map fun sessions => { s with sessions }

def State.step (s : State) : Label → Option State
  | .requireManager issuingApp x =>
    match requireManager s.committed issuingApp x.actor x.group with
    | .ok () => if x.removes then none else some { s with permitted := s.permitted ++ [⟨x, .manager⟩] }
    | .error _ => none
  | .openRemoval actor group => some { s with resolving := s.resolving ++ [⟨actor, group, []⟩] }
  | .resolve r uuid =>
    if r ∈ s.resolving then
      (account s.committed.accounts uuid).map fun row =>
        { s with resolving := s.resolving.erase r ++ [r.resolve row] }
    else none
  | .requireRemover r =>
    if r ∈ s.resolving ∧ r.accounts ≠ [] then
      match requireRemover s.committed r with
      | .ok () =>
        some { s with
          resolving := s.resolving.erase r
          permitted := s.permitted ++ [r.permit s.committed] }
      | .error _ => none
    else none
  | .serve p acquired now =>
    if p ∈ s.permitted then
      (store.step s.sessions (.start (p.request.task acquired now))).map fun sessions =>
        { s with
          sessions
          permitted := s.permitted.erase p
          serving := s.serving ++ [(s.sessions.fresh, p)] }
    else none
  | .create settings group creator invitees now =>
    (store.step s.sessions (.start (.createGroup group creator invitees now))).map fun sessions =>
      { s with sessions, creating := s.creating ++ [(s.sessions.fresh, settings)] }
  | .db action =>
    if reserved action then none
    else (store.step s.sessions action).map fun sessions => { s with sessions }
  | .commit id => (s.sessions.find id).bind s.commit
  | .naming e =>
    if s.sessions.active.all fun t => e.rows.all fun uuid => .account uuid ∉ t.locks then
      (e.apply s.committed.accounts).map fun accounts =>
        { s with sessions := { s.sessions with committed := { s.committed with accounts } } }
    else none

def managed (initial : Database → List Group → Prop) : System State Label where
  init s := ∃ d groups, initial d groups ∧
    s = { sessions := .boot d, groups, resolving := [], permitted := [], serving := [],
          creating := [] }
  step := State.step

inductive Stepped (s : State) : Label → State → Prop
  | requireManager (issuingApp : Option String) (x : Request)
      (hok : Management.requireManager s.committed issuingApp x.actor x.group = .ok ()) :
      Stepped s (.requireManager issuingApp x)
        { s with permitted := s.permitted ++ [⟨x, .manager⟩] }
  | openRemoval (actor : ActorRef) (group : Nat) :
      Stepped s (.openRemoval actor group)
        { s with resolving := s.resolving ++ [⟨actor, group, []⟩] }
  | resolve (r : Removal) (uuid : String) (row : Account) (hr : r ∈ s.resolving)
      (hrow : account s.committed.accounts uuid = some row) :
      Stepped s (.resolve r uuid) { s with resolving := s.resolving.erase r ++ [r.resolve row] }
  | requireRemover (r : Removal) (hr : r ∈ s.resolving)
      (hok : Management.requireRemover s.committed r = .ok ()) :
      Stepped s (.requireRemover r)
        { s with
          resolving := s.resolving.erase r
          permitted := s.permitted ++ [r.permit s.committed] }
  | serve (p : Permit) (acquired : Bool) (now : Nat)
      (sessions : Sessions Database Statement Check Write Lock Task) (hp : p ∈ s.permitted)
      (hstep : store.step s.sessions (.start (p.request.task acquired now)) = some sessions) :
      Stepped s (.serve p acquired now)
        { s with
          sessions
          permitted := s.permitted.erase p
          serving := s.serving ++ [(s.sessions.fresh, p)] }
  | create (settings : Settings) (group : Nat) (creator : ActorRef) (invitees : List Invitee)
      (now : Nat) (sessions : Sessions Database Statement Check Write Lock Task)
      (hstep : store.step s.sessions (.start (.createGroup group creator invitees now)) =
        some sessions) :
      Stepped s (.create settings group creator invitees now)
        { s with sessions, creating := s.creating ++ [(s.sessions.fresh, settings)] }
  | db (action : Action Task) (sessions : Sessions Database Statement Check Write Lock Task)
      (hreserved : reserved action = false) (hstep : store.step s.sessions action = some sessions) :
      Stepped s (.db action) { s with sessions }
  | commit (t : Open) (sessions : Sessions Database Statement Check Write Lock Task)
      (ht : s.sessions.find t.id = some t)
      (hstep : store.step s.sessions (.commit t.id) = some sessions) :
      Stepped s (.commit t.id)
        { s with
          sessions
          groups := if store.commits s.committed t then
            s.groups.map (s.rewritten t) ++ s.inserted t else s.groups }
  | conflict (t : Open) (sessions : Sessions Database Statement Check Write Lock Task)
      (hstep : store.step s.sessions (.rollback t.id) = some sessions) :
      Stepped s (.commit t.id) { s with sessions }
  | naming (e : Naming) (accounts : List Account)
      (happly : e.apply s.committed.accounts = some accounts) :
      Stepped s (.naming e)
        { s with sessions := { s.sessions with committed := { s.committed with accounts } } }

variable {s s' : State} {x y : List Account} {c silicon : String} {e : Naming}

theorem stepped_of_commit {t : Open} (ht : s.sessions.find t.id = some t)
    (h : s.commit t = some s') : Stepped s (.commit t.id) s' := by
  unfold State.commit at h
  split at h
  next =>
    obtain ⟨sessions, hstep, rfl⟩ := map_eq_some_iff.mp h
    exact .commit t sessions ht hstep
  next =>
    obtain ⟨sessions, hstep, rfl⟩ := map_eq_some_iff.mp h
    exact .conflict t sessions hstep

theorem stepped_of_step {l : Label} (h : s.step l = some s') : Stepped s l s' := by
  cases l <;> simp only [State.step] at h
  case requireManager issuingApp x =>
    split at h
    next hok =>
      split at h <;> cases h
      exact .requireManager issuingApp x hok
    next => cases h
  case openRemoval actor group =>
    cases h
    exact .openRemoval actor group
  case resolve r uuid =>
    split at h
    next hr =>
      obtain ⟨row, hrow, rfl⟩ := map_eq_some_iff.mp h
      exact .resolve r uuid row hr hrow
    next => cases h
  case requireRemover r =>
    split at h
    next hr =>
      split at h <;> cases h
      next hok => exact .requireRemover r hr.1 hok
    next => cases h
  case serve p acquired now =>
    split at h
    next hp =>
      obtain ⟨sessions, hstep, rfl⟩ := map_eq_some_iff.mp h
      exact .serve p acquired now sessions hp hstep
    next => cases h
  case create settings group creator invitees now =>
    obtain ⟨sessions, hstep, rfl⟩ := map_eq_some_iff.mp h
    exact .create settings group creator invitees now sessions hstep
  case db action =>
    split at h
    next => cases h
    next hresv =>
      obtain ⟨sessions, hstep, rfl⟩ := map_eq_some_iff.mp h
      exact .db action sessions (by simpa using hresv) hstep
  case commit id =>
    obtain ⟨t, ht, hcmt⟩ := bind_eq_some_iff.mp h
    obtain ⟨-, rfl⟩ := Sessions.mem_of_find ht
    exact stepped_of_commit ht hcmt
  case naming e =>
    split at h
    next =>
      obtain ⟨accounts, happ, rfl⟩ := map_eq_some_iff.mp h
      exact .naming e accounts happ
    next => cases h

/-! ### Custodians after a commit or an event -/

/-- The lookup names another custodian of the Silicon. -/
def taskReassigns (silicon custodian : String) : Task → Bool
  | .recordLookup found _ => found.uuid = silicon && found.custodian.any (·.1 ≠ custodian)
  | _ => false

def Naming.reassigns (silicon custodian : String) : Naming → Bool
  | .custodianChanged uuid owner _ => uuid = silicon && owner.1 ≠ custodian
  | .updated found _ => found.uuid = silicon && found.custodian.any (·.1 ≠ custodian)

variable {d : Database} {u : Open}

/-- A table whose rows name no new custodian, or only for Silicons. -/
theorem OnlySilicons.later (h : OnlySilicons x) (hl : LaterRows x y)
    (hn : ∀ u, Names x y u none ∨
      ∀ a, account y u = some a → a.custodianUuid.isSome → a.kind = .silicon) :
    OnlySilicons y := by
  intro u a ha hc
  rcases hn u with hn | hsil
  · exact h.of_names hl hn ha hc
  · exact hsil a ha hc

/-- What a write does to the accounts: nothing, a deletion, or a lookup. -/
theorem accounts_apply (d : Database) (w : Write) :
    (w.apply d).accounts = d.accounts ∨
      (∃ uuid occurred, w = .markDeleted uuid occurred ∧
        (w.apply d).accounts = markDeleted d.accounts uuid occurred) ∨
      ∃ found now, w = .lookup found now ∧
        recordLookup d.accounts found now = .ok (w.apply d).accounts := by
  cases w with
  | markDeleted uuid occurred => exact .inr (.inl ⟨uuid, occurred, rfl, rfl⟩)
  | lookup found now =>
    cases h : recordLookup d.accounts found now with
    | error e => exact .inl (by simp [Write.apply, h, Except.toOption])
    | ok y => exact .inr (.inr ⟨found, now, rfl, by simp [Write.apply, h, Except.toOption]⟩)
  | _ => exact .inl rfl

theorem onlySilicons_apply (h : OnlySilicons d.accounts) (w : Write) :
    OnlySilicons (w.apply d).accounts := by
  rcases accounts_apply d w with he | ⟨uuid, occurred, -, he⟩ | ⟨found, now, -, hok⟩
  · exact he ▸ h
  · rw [he]
    exact OnlySilicons.later h (laterRows_markDeleted _ _ _) fun u => .inl (names_markDeleted ..)
  · refine OnlySilicons.later h (laterRows_recordLookup hok) fun u => ?_
    have hn := names_recordLookup hok u
    by_cases hu : u = found.uuid
    · subst hu
      exact .inr fun a ha hc => kind_recordLookup hok ha hc
    · rw [if_neg hu] at hn
      exact .inl hn

theorem onlySilicons_applyAll {ws : List Write} (h : OnlySilicons d.accounts) :
    OnlySilicons (store.applyAll d ws).accounts :=
  store.applyAll_invariant (P := fun d => OnlySilicons d.accounts) h
    fun w _ _ hd => onlySilicons_apply hd w

/-- What a description leaves of a custodian it does not contradict. -/
theorem or_eq_some_of_any {named : Option (String × String)} {old : Option String}
    (h : old = some c) (hn : named.any (·.1 ≠ c) = false) :
    (named.map (·.1)).or old = some c := by
  cases named with
  | none => exact h
  | some owner => simpa using hn

theorem custodianOf_apply {w : Write}
    (h : custodianOf d.accounts silicon = some c)
    (hw : ∀ found now, w = .lookup found now → found.uuid = silicon →
      found.custodian.any (·.1 ≠ c) = false) :
    custodianOf (w.apply d).accounts silicon = some c := by
  rcases accounts_apply d w with he | ⟨uuid, occurred, -, he⟩ | ⟨found, now, rfl, hok⟩
  · rw [he]
    exact h
  · rw [he, (names_markDeleted ..).1]
    exact h
  · rw [(names_recordLookup hok silicon).1]
    split
    next hu => exact or_eq_some_of_any h (hw found now rfl hu.symm)
    next => exact h

theorem custodianOf_view (hu : Standing d u) (hr : taskReassigns silicon c u.task = false)
    (h : custodianOf d.accounts silicon = some c) :
    custodianOf (store.view d u).accounts silicon = some c := by
  -- a lookup that the transaction writes is its own
  have hown : ∀ found now, .lookup found now ∈ u.writes → found.uuid = silicon →
      found.custodian.any (·.1 ≠ c) = false := by
    intro found now hw hs
    have halw := hu.disciplined.writes _ hw
    cases htask : u.task <;> simp_all [Task.scope, Scope.allows, taskReassigns]
  have hws : ∀ ws ⊆ u.writes, ∀ d : Database, custodianOf d.accounts silicon = some c →
      custodianOf (store.applyAll d ws).accounts silicon = some c := by
    intro ws
    induction ws with
    | nil => exact fun _ d hd => hd
    | cons w ws ih =>
      intro hsub d hd
      apply ih (fun w' hw' => hsub (List.mem_cons_of_mem _ hw'))
      refine custodianOf_apply hd fun found now he => hown found now ?_
      exact he ▸ hsub List.mem_cons_self
  exact hws u.writes (List.Subset.refl _) d h

theorem Naming.apply_eq_some (h : e.apply x = some y) :
    (∃ silicon custodian occurredAt applied, e = .custodianChanged silicon custodian occurredAt ∧
      applyCustodianChange x silicon custodian occurredAt = .ok (y, applied)) ∨
    ∃ found version applied, e = .updated found version ∧
      applyProfileUpdate x found version = .ok (y, applied) := by
  cases e with
  | custodianChanged silicon custodian occurredAt =>
    obtain ⟨⟨z, applied⟩, hok, rfl⟩ := map_eq_some_iff.mp h
    exact .inl ⟨silicon, custodian, occurredAt, applied, rfl, eq_ok_of_toOption hok⟩
  | updated found version =>
    obtain ⟨⟨z, applied⟩, hok, rfl⟩ := map_eq_some_iff.mp h
    exact .inr ⟨found, version, applied, rfl, eq_ok_of_toOption hok⟩

theorem Naming.onlySilicons (h : e.apply x = some y) (hx : OnlySilicons x) : OnlySilicons y := by
  rcases e.apply_eq_some h with ⟨silicon, custodian, occurredAt, applied, -, hok⟩ |
    ⟨found, version, applied, -, hok⟩
  · refine OnlySilicons.later hx (laterRows_applyCustodianChange hok) fun u => ?_
    rcases applyCustodianChange_cases hok u with ⟨hn, -⟩ | ⟨-, -, -, b, hb, hk⟩
    · exact .inl hn
    · exact .inr fun a ha _ => by
        obtain rfl : a = b := Option.some.inj (ha.symm.trans hb)
        exact hk
  · refine OnlySilicons.later hx (laterRows_applyProfileUpdate hok) fun u => ?_
    rcases names_applyProfileUpdate hok u with hn | ⟨rfl, -, -⟩
    · exact .inl hn
    · rcases violated_guardedUpsert hok (fun _ => rfl) with rfl | hval
      · exact .inl (.refl _ _)
      · exact .inr fun a ha hc => Account.kind_of_violated (hval a ha) hc

theorem Naming.custodian (h : e.apply x = some y) (hr : e.reassigns silicon c = false)
    (hc : custodianOf x silicon = some c) : custodianOf y silicon = some c := by
  rcases e.apply_eq_some h with ⟨uuid, custodian, occurredAt, applied, rfl, hok⟩ |
    ⟨found, version, applied, rfl, hok⟩
  · rcases applyCustodianChange_cases hok silicon with ⟨hn, -⟩ | ⟨rfl, hnew, -, -⟩
    · rw [hn.1]
      exact hc
    · rw [hnew]
      simpa [Naming.reassigns] using hr
  · rcases names_applyProfileUpdate hok silicon with hn | ⟨rfl, hn, -⟩
    · rw [hn.1]
      exact hc
    · rw [hn.1]
      exact or_eq_some_of_any hc (by simpa [Naming.reassigns] using hr)

/-- A guarded upsert that keeps the status deletes nobody. -/
theorem isDeleted_guardedUpsert {proposed : Account} {accepts : Account → Bool}
    {update : Account → Account} {applied : Applied}
    (h : guardedUpsert x proposed accepts update = .ok (y, applied))
    (hu : ∀ a, (update a).uuid = a.uuid) (hnew : proposed.status = .active)
    (hs : ∀ a, (update a).status = a.status) (u : String) : isDeleted y u = isDeleted x u := by
  obtain ⟨-, ⟨a, -, -, rfl, -⟩ | ⟨-, rfl, -⟩⟩ := guardedUpsert_eq_ok h
  · rfl
  · rw [isDeleted_upsert rfl hu]
    split
    next he =>
      subst he
      unfold isDeleted
      cases account x proposed.uuid <;> simp [hnew, hs]
    next => rfl

/-- Events that name a custodian delete no account. -/
theorem Naming.deleted (h : e.apply x = some y) (u : String) :
    isDeleted y u = isDeleted x u := by
  rcases e.apply_eq_some h with ⟨silicon, custodian, occurredAt, applied, -, hok⟩ |
    ⟨found, version, applied, -, hok⟩
  · unfold applyCustodianChange at hok
    split at hok
    next => cases hok
    next =>
      rw [isDeleted_guardedUpsert hok (fun _ => rfl) rfl fun _ => rfl]
      exact isDeleted_custodianRow x custodian u
  · exact isDeleted_guardedUpsert hok (fun _ => rfl) rfl (fun _ => rfl) u

end Management

end SiliconDm.Server
