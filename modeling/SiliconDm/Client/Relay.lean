import SiliconDm.Base.System
import SiliconDm.Client.Queue

/-!
# The relay of one home and the processes around it

One step is one SQLite statement, one configuration update or one move of the relay between
two of them, by any process of the home. The worker and payload budgets are shared with
other homes, so a scheduling pass meets any number of free permits. Source:
`crates/client/src/runtime/daemon.rs:168–177,403–455,782–1009`, `mod.rs:394–503,606–668`.
-/

namespace SiliconDm.Client

/-- A sign-in to store: Silicon Accounts said which account signed in, or `save_sign_in`
stops before it takes the profile lock. `mod.rs:394–404`. -/
structure SignIn where
  target : SignInTarget
  session : Session
  account : ProfileAccount
  method : String
  device : String
  named : session.account = some account

/-- How far a `save_sign_in` that holds its profile lock has come. -/
inductive SignInStage where
  | counted (pending : Nat)
  | installed (released : Option Bool)

/-- What a task of `execute_request` holds: nothing yet, or the profile it authenticates
with. -/
inductive Phase where
  | started
  | authenticated (profile : Profile)

def Phase.isStarted : Phase → Bool
  | .started => true
  | .authenticated _ => false

structure Task where
  id : Nat
  request : RelayRequest
  phase : Phase

/-- A home: its clock, configuration file, outbox, sign-ins in progress by profile lock, the
rest of the current scheduling pass, the tasks in flight and the lanes the relay counts as
running. `queuedAs` and `sent` only record history: the account a request's profile held
when it was queued, and with whose credentials requests were executed. -/
structure Home where
  now : Nat
  config : ConfigFile
  rows : List Row
  signIns : String → Option (SignIn × SignInStage)
  candidates : List RequestCandidate
  tasks : List Task
  running : List (Nat × (String × String))
  nextTask : Nat
  queuedAs : Nat → Option String
  sent : List (Nat × String)

/-- A failed refresh as `execute_request` reports it. `daemon.rs:931–935`. -/
structure AuthError where
  reason : Option String
  message : String
  hint : Option String
  deriving DecidableEq, Repr

structure ClientError where
  unauthorized : Bool
  retryable : Bool
  detail : Detail
  deriving DecidableEq, Repr

/-- How a task ended. `daemon.rs:911–1009`. -/
inductive Ending where
  | retiredEnvironment
  | unauthenticated (error : AuthError)
  | misconfigured
  | answered (value : String)
  | refused (error : ClientError)
  deriving DecidableEq, Repr

/-- Presence describes the present moment. `daemon.rs:886–888`. -/
def transientRequest (request : RelayRequest) : Bool :=
  request.request = .setPresence

/-- Retry, or answer a transient request with the error. `daemon.rs:890–898`. -/
def retryOrFinish (request : RelayRequest) (detail : Detail) (now : Nat) (rows : List Row) :
    List Row :=
  if transientRequest request then finish request.requestId none (some detail) rows
  else retry request.requestId detail now rows

/-- The answer to a request that could not be authenticated. `daemon.rs:930–959`. -/
def settleUnauthenticated (request : RelayRequest) (error : AuthError) (now : Nat)
    (rows : List Row) : List Row :=
  let detail : Detail :=
    { code := "authentication_required"
      message := error.message
      reason := error.reason
      hint := error.hint }
  if transientRequest request then
    finish request.requestId none (some { detail with
      message := "This activity could not be authenticated: " ++ error.message }) rows
  else if request.request.isMutation then
    retry request.requestId { detail with
      message := error.message ++
        " Pending requests resume after the profile signs in again." } now rows
  else finish request.requestId none (some detail) rows

/-- The one write of a task to the outbox. `daemon.rs:911–1009`. -/
def settle (request : RelayRequest) (now : Nat) (rows : List Row) : Ending → List Row
  | .retiredEnvironment =>
    finish request.requestId none (some
      { code := "testing_environments_retired"
        message := "This request names a test environment; test environments were retired with the move to Silicon Accounts, so it was not sent."
        reason := none
        hint := none }) rows
  | .unauthenticated error => settleUnauthenticated request error now rows
  | .misconfigured =>
    retryOrFinish request
      { code := "configuration_error"
        message := "The profile's HTTP client could not be configured; check its DM API URL (dm profiles list)."
        reason := none
        hint := none } now rows
  | .answered value => finish request.requestId (some value) none rows
  | .refused error =>
    if !transientRequest request &&
        ((request.request.isMutation && error.retryable) || error.unauthorized) then
      retry request.requestId error.detail now rows
    else finish request.requestId none (some error.detail) rows

/-- Every ending is one `finish` or one `retry` of the task's own request. -/
theorem settle_eq (request : RelayRequest) (now : Nat) (rows : List Row) (e : Ending) :
    (∃ result error, settle request now rows e =
      finish request.requestId result error rows) ∨
    ∃ error, settle request now rows e = retry request.requestId error now rows := by
  cases e with
  | retiredEnvironment | answered value => exact .inl ⟨_, _, rfl⟩
  | unauthenticated error =>
    simp only [settle, settleUnauthenticated]
    split
    · exact .inl ⟨_, _, rfl⟩
    · split
      · exact .inr ⟨_, rfl⟩
      · exact .inl ⟨_, _, rfl⟩
  | misconfigured =>
    simp only [settle, retryOrFinish]
    split
    · exact .inl ⟨_, _, rfl⟩
    · exact .inr ⟨_, rfl⟩
  | refused error =>
    simp only [settle]
    split
    · exact .inr ⟨_, rfl⟩
    · exact .inl ⟨_, _, rfl⟩

theorem rewrites_settle (request : RelayRequest) (now : Nat) (rows : List Row) (e : Ending) :
    Rewrites rows (settle request now rows e) := by
  obtain ⟨result, error, h⟩ | ⟨error, h⟩ := settle_eq request now rows e
  · rw [h]
    exact rewrites_finish ..
  · rw [h]
    exact rewrites_retry ..

/-- A task writes no other request's row. -/
theorem mem_settle_of_ne {rows : List Row} {r : Row} (request : RelayRequest) (now : Nat)
    (e : Ending) (hr : r ∈ rows) (hne : r.requestId ≠ request.requestId) :
    r ∈ settle request now rows e := by
  obtain ⟨result, error, h⟩ | ⟨error, h⟩ := settle_eq request now rows e
  · rw [h]
    exact mem_updateRequest_of_ne _ hr hne
  · rw [h]
    exact mem_updateRequest_of_ne _ hr hne

/-! ### Steps -/

inductive Event where
  | tick (now : Nat)
  | damage
  | recover
  | enqueue (original : Envelope)
  | countPending (signIn : SignIn)
  | install (key : String)
  | finishSignIn (key : String)
  | abandonSignIn (key : String)
  | refresh (key : String) (current : Profile) (session : Session)
  | endRefresh (key : String) (current : Profile) (ended : EndedSignIn)
  | logout (key refresh : String)
  | expireToken (key : String) (attempted : Option String)
  | confirm (key uuid id : String) (displayName : Option String)
      (custodian : Option (Option AccountRef))
  | attachPort (port : Nat)
  | expireTransientCommands
  | retireTestEnvironmentRequests
  | stop
  | scan
  | consider (worker : Bool) (permits : Nat)
  | authenticate (task : Nat)
  | send (task : Nat)
  | settle (task : Nat) (ending : Ending)
  | lose (task : Nat)
  | join (task : Nat)

/-- The error of requests that a legacy sign-in with another id left. `mod.rs:472–478`. -/
def accountChanged (account : ProfileAccount) : Detail where
  code := "account_changed"
  message := s!"This request was queued before DM moved to Silicon Accounts by a sign-in with another id; the profile is now signed in as {account.id}, so it was not sent. Resubmit it if {account.id} should send it."
  reason := none
  hint := none

/-- Permits of one MiB a payload takes from the shared budget. `daemon.rs:168–177`. -/
def payloadPermits (bytes : Nat) : Nat :=
  min 128 (max 1 ((bytes + 1024 * 1024 - 1) / (1024 * 1024)))

namespace Home

/-- A submission, by the relay or directly by another process. `queue.rs:133–165`. -/
def enqueue (s : Home) (original : Envelope) : Option Home :=
  match Client.enqueue s.rows original s.now with
  | .error _ => none
  | .ok rows =>
    some { s with
      rows := rows
      queuedAs := if s.rows.any (·.requestId = original.request.requestId) then s.queuedAs
        else Function.update s.queuedAs original.request.requestId
          (s.config.accountUuid (sessionKey original.request.profile)) }

/-- `save_sign_in` takes the profile lock and counts. `mod.rs:405–408`. -/
def countPending (s : Home) (signIn : SignIn) : Option Home :=
  let key := sessionKey signIn.target.profile
  match s.signIns key with
  | some _ => none
  | none =>
    some { s with
      signIns := Function.update s.signIns key
        (some (signIn, .counted (pendingCount s.rows key))) }

/-- `save_sign_in` updates the configuration, or is refused and gives up its lock.
`mod.rs:410–468`. -/
def install (s : Home) (key : String) : Option Home :=
  match s.signIns key with
  | some (signIn, .counted pending) =>
    match saveSignIn signIn.target signIn.account signIn.session signIn.method signIn.device
        s.now pending s.config.contents with
    | .error _ => some { s with signIns := Function.update s.signIns key none }
    | .ok (config, effect) =>
      some { s with
        config := .readable config
        signIns := Function.update s.signIns key
          (some (signIn, .installed effect.released)) }
  | _ => none

/-- `save_sign_in` fails the requests of a legacy sign-in with another id, and is done.
`mod.rs:470–484`. -/
def finishSignIn (s : Home) (key : String) : Option Home :=
  match s.signIns key with
  | some (signIn, .installed released) =>
    some { s with
      signIns := Function.update s.signIns key none
      rows := if released = some false then
        failPending key (accountChanged signIn.account) s.rows else s.rows }
  | _ => none

/-- Look at the next candidate of the pass: skip it, end the pass, or start it.
`daemon.rs:814–834`. -/
def consider (s : Home) (worker : Bool) (permits : Nat) : Option Home :=
  match s.candidates with
  | [] => none
  | c :: rest =>
    if s.running.any (·.2 = (c.session, c.lane)) then some { s with candidates := rest }
    else if !worker then some { s with candidates := [] }
    else if permits < payloadPermits c.payloadBytes then some { s with candidates := rest }
    else
      match loadRequest s.rows c.requestId s.now with
      | none => some { s with candidates := rest }
      | some request =>
        some { s with
          candidates := rest
          tasks := { id := s.nextTask, request := request, phase := .started } :: s.tasks
          running := (s.nextTask, (c.session, c.lane)) :: s.running
          nextTask := s.nextTask + 1 }

/-- A started task gets the signed-in profile it will execute with; refreshes before that are
steps of their own. `daemon.rs:918–929`, `store.rs:790–867`. -/
def authenticate (s : Home) (task : Nat) : Option Home :=
  match s.tasks.find? (·.id = task) with
  | some { id := _, request, phase := .started } =>
    if request.testingEnvironmentId.isSome then none
    else
      match s.config.contents.signedInAt (sessionKey request.profile) with
      | none => none
      | some p =>
        some { s with
          tasks := s.tasks.map fun t =>
            if t.id = task then { t with phase := .authenticated p } else t }
  | _ => none

/-- An authenticated task executes its request at the service. `daemon.rs:975–985`. -/
def send (s : Home) (task : Nat) : Option Home :=
  match s.tasks.find? (·.id = task) with
  | some { id := _, request, phase := .authenticated p } =>
    match p.accountUuid with
    | none => none
    | some uuid => some { s with sent := s.sent ++ [(request.requestId, uuid)] }
  | _ => none

/-- Which endings a task can have in its phase. -/
def endingFits (request : RelayRequest) : Phase → Ending → Bool
  | .started, .retiredEnvironment => request.testingEnvironmentId.isSome
  | .started, .unauthenticated _ => request.testingEnvironmentId.isNone
  | .authenticated _, .misconfigured => true
  | .authenticated _, .answered _ => true
  | .authenticated _, .refused _ => true
  | _, _ => false

/-- A task writes its answer and ends. `daemon.rs:911–1009`. -/
def settle (s : Home) (task : Nat) (ending : Ending) : Option Home :=
  match s.tasks.find? (·.id = task) with
  | some t =>
    if endingFits t.request t.phase ending then
      some { s with
        rows := Client.settle t.request s.now s.rows ending
        tasks := s.tasks.filter (·.id ≠ task) }
    else none
  | none => none

def step (s : Home) : Event → Option Home
  | .tick now => if s.now ≤ now then some { s with now := now } else none
  | .damage => some { s with config := .unreadable }
  | .recover => some { s with config := s.config.update id }
  | .enqueue original => s.enqueue original
  | .countPending signIn => s.countPending signIn
  | .install key => s.install key
  | .finishSignIn key => s.finishSignIn key
  | .abandonSignIn key => some { s with signIns := Function.update s.signIns key none }
  | .refresh key current session =>
    if (s.signIns key).isNone && current.signedIn && refreshAccepted current session then
      some { s with config := s.config.update (·.applyRefresh key current session) }
    else none
  | .endRefresh key current ended =>
    if (s.signIns key).isNone then
      some { s with config := s.config.update (·.endRefresh key current ended) }
    else none
  | .logout key refresh =>
    if (s.signIns key).isNone then
      some { s with config := s.config.update (·.logout key refresh) }
    else none
  | .expireToken key attempted =>
    some { s with config := s.config.update (·.modify key (·.expireToken attempted)) }
  | .confirm key uuid id displayName custodian =>
    some { s with
      config := s.config.update (·.modify key (·.confirm uuid id displayName custodian)) }
  | .attachPort port =>
    some { s with config := s.config.update fun config => { config with relayPort := port } }
  | .expireTransientCommands => some { s with rows := expireTransientCommands s.rows }
  | .retireTestEnvironmentRequests =>
    some { s with rows := retireTestEnvironmentRequests s.rows }
  | .stop => some { s with candidates := [], tasks := [], running := [] }
  | .scan =>
    match s.candidates with
    | [] => some { s with candidates := requestCandidates s.rows s.now }
    | _ :: _ => none
  | .consider worker permits => s.consider worker permits
  | .authenticate task => s.authenticate task
  | .send task => s.send task
  | .settle task ending => s.settle task ending
  -- a task that panics, or whose answer SQLite does not take, ends without one
  | .lose task => some { s with tasks := s.tasks.filter (·.id ≠ task) }
  | .join task =>
    if s.tasks.any (·.id = task) then none
    else some { s with running := s.running.filter (·.1 ≠ task) }

/-- Which pending rows an event fails in bulk, if it does. -/
def bulkHit (s : Home) : Event → Option (Row → Bool)
  | .finishSignIn key =>
    match s.signIns key with
    | some (_, .installed (some false)) => some (·.session = key)
    | _ => none
  | .expireTransientCommands => some (·.request.request.request = .setPresence)
  | .retireTestEnvironmentRequests => some (fun r => !likeProduction r.session)
  | _ => none

/-- A home before its relay runs: nothing is in flight, and every request still pending was
queued by the account its profile holds now. -/
structure Initial (s : Home) : Prop where
  keyed : WellKeyed s.rows
  noSignIns : ∀ key, s.signIns key = none
  noCandidates : s.candidates = []
  noTasks : s.tasks = []
  noRunning : s.running = []
  unsent : s.sent = []
  queued : ∀ r ∈ s.rows, r.state = .pending → ∀ uuid, s.queuedAs r.requestId = some uuid →
    s.config.accountUuid (sessionKey r.request.request.profile) = some uuid

/-- A home with a new outbox and whatever its configuration file holds. -/
def idle (config : ConfigFile) : Home where
  now := 0
  config := config
  rows := []
  signIns := fun _ => none
  candidates := []
  tasks := []
  running := []
  nextTask := 0
  queuedAs := fun _ => none
  sent := []

theorem initial_idle (config : ConfigFile) : Initial (idle config) where
  keyed := ⟨List.nodup_nil, by simp [idle]⟩
  noSignIns _ := rfl
  noCandidates := rfl
  noTasks := rfl
  noRunning := rfl
  unsent := rfl
  queued := by simp [idle]

/-- Everything a step can do, by what it touches. -/
inductive Effect (s : Home) : Event → Home → Prop
  | clock {e} (now : Nat) : Effect s e { s with now := now }
  | config {e} (file : ConfigFile)
      (h : ∀ key, file.accountUuid key = s.config.accountUuid key ∨
        file.accountUuid key = none) : Effect s e { s with config := file }
  | locks {e} (signIns : String → Option (SignIn × SignInStage)) :
      Effect s e { s with signIns := signIns }
  | enqueue {original rows} (h : Client.enqueue s.rows original s.now = .ok rows) :
      Effect s (.enqueue original) { s with
        rows := rows
        queuedAs := if s.rows.any (·.requestId = original.request.requestId) then s.queuedAs
          else Function.update s.queuedAs original.request.requestId
            (s.config.accountUuid (sessionKey original.request.profile)) }
  | install {key signIn pending config effect}
      (hs : s.signIns key = some (signIn, .counted pending))
      (h : saveSignIn signIn.target signIn.account signIn.session signIn.method signIn.device
        s.now pending s.config.contents = .ok (config, effect)) :
      Effect s (.install key) { s with
        config := .readable config
        signIns := Function.update s.signIns key
          (some (signIn, .installed effect.released)) }
  | bulk {e hit} (error : Detail) (signIns : String → Option (SignIn × SignInStage))
      (h : s.bulkHit e = some hit) :
      Effect s e { s with rows := failWhere hit error s.rows, signIns := signIns }
  | stop : Effect s .stop { s with candidates := [], tasks := [], running := [] }
  | scan (h : s.candidates = []) :
      Effect s .scan { s with candidates := requestCandidates s.rows s.now }
  | skip {e} (candidates : List RequestCandidate) (h : candidates ⊆ s.candidates) :
      Effect s e { s with candidates := candidates }
  | start {e c rest request} (hc : s.candidates = c :: rest)
      (hfree : ∀ entry ∈ s.running, entry.2 ≠ (c.session, c.lane))
      (hl : loadRequest s.rows c.requestId s.now = some request) :
      Effect s e { s with
        candidates := rest
        tasks := { id := s.nextTask, request := request, phase := .started } :: s.tasks
        running := (s.nextTask, (c.session, c.lane)) :: s.running
        nextTask := s.nextTask + 1 }
  | authenticate {task t p} (ht : s.tasks.find? (·.id = task) = some t)
      (hp : t.phase = .started)
      (h : s.config.contents.signedInAt (sessionKey t.request.profile) = some p) :
      Effect s (.authenticate task) { s with
        tasks := s.tasks.map fun t =>
          if t.id = task then { t with phase := .authenticated p } else t }
  | send {task t p uuid} (ht : s.tasks.find? (·.id = task) = some t)
      (hp : t.phase = .authenticated p) (hu : p.accountUuid = some uuid) :
      Effect s (.send task) { s with sent := s.sent ++ [(t.request.requestId, uuid)] }
  | settle {task ending t} (ht : s.tasks.find? (·.id = task) = some t) :
      Effect s (.settle task ending) { s with
        rows := Client.settle t.request s.now s.rows ending
        tasks := s.tasks.filter (·.id ≠ task) }
  | lose (task : Nat) : Effect s (.lose task) { s with tasks := s.tasks.filter (·.id ≠ task) }
  | join {task} (h : ∀ t ∈ s.tasks, t.id ≠ task) :
      Effect s (.join task) { s with running := s.running.filter (·.1 ≠ task) }

variable {s s' : Home} {key : String} {task : Nat}

private theorem effect_consider {worker : Bool} {permits : Nat}
    (h : s.consider worker permits = some s') : Effect s (.consider worker permits) s' := by
  unfold consider at h
  split at h
  next => simp at h
  next c rest hc =>
    have hrest : rest ⊆ s.candidates := by simp [hc]
    split at h
    next =>
      cases h
      exact .skip rest hrest
    next hfree =>
      split at h
      next =>
        cases h
        exact .skip [] (by simp)
      next =>
        split at h
        next =>
          cases h
          exact .skip rest hrest
        next =>
          split at h
          next =>
            cases h
            exact .skip rest hrest
          next request hl =>
            cases h
            refine .start hc (fun entry he hlane => hfree ?_) hl
            exact List.any_eq_true.mpr ⟨entry, he, decide_eq_true hlane⟩

private theorem effect_install (h : s.install key = some s') :
    Effect s (.install key) s' := by
  unfold install at h
  split at h
  next signIn pending hs =>
    split at h
    next =>
      cases h
      exact .locks _
    next config effect hok =>
      cases h
      exact .install hs hok
  next => simp at h

private theorem effect_finishSignIn (h : s.finishSignIn key = some s') :
    Effect s (.finishSignIn key) s' := by
  unfold finishSignIn at h
  split at h
  next signIn released hs =>
    cases h
    split
    next hr =>
      subst hr
      exact .bulk _ _ (by simp [bulkHit, hs])
    next => exact .locks _
  next => simp at h

private theorem effect_authenticate (h : s.authenticate task = some s') :
    Effect s (.authenticate task) s' := by
  unfold authenticate at h
  split at h
  next id request ht =>
    split at h
    next => simp at h
    next =>
      split at h
      next => simp at h
      next p hp =>
        cases h
        exact .authenticate ht rfl hp
  next => simp at h

private theorem effect_send (h : s.send task = some s') :
    Effect s (.send task) s' := by
  unfold send at h
  split at h
  next id request p ht =>
    split at h
    next => simp at h
    next uuid hu =>
      cases h
      exact .send ht rfl hu
  next => simp at h

/-- Inversion of a step: every property of runs is proved from these cases. -/
theorem effect_of_step {e : Event} (h : s.step e = some s') : Effect s e s' := by
  cases e with
  | tick now =>
    simp only [step] at h
    split at h
    · cases h
      exact .clock now
    · simp at h
  | damage =>
    cases h
    exact .config _ fun key => .inr rfl
  | recover | attachPort port =>
    cases h
    exact .config _ fun key => .inl rfl
  | enqueue original =>
    simp only [step, Home.enqueue] at h
    split at h
    next => simp at h
    next rows hok =>
      cases h
      exact .enqueue hok
  | countPending signIn =>
    simp only [step, countPending] at h
    split at h
    next => simp at h
    next =>
      cases h
      exact .locks _
  | install key => exact effect_install h
  | finishSignIn key => exact effect_finishSignIn h
  | abandonSignIn key =>
    cases h
    exact .locks _
  | refresh key current session =>
    simp only [step] at h
    split at h
    next hg =>
      simp only [Bool.and_eq_true] at hg
      cases h
      refine .config _ fun key' => .inl ?_
      exact Config.accountUuid_applyRefresh hg.1.2 hg.2 key'
    next => simp at h
  | endRefresh key current ended =>
    simp only [step] at h
    split at h
    next =>
      cases h
      refine .config _ fun key' => .inl ?_
      exact Config.accountUuid_endRefresh _ key key' current ended
    next => simp at h
  | logout key refresh =>
    simp only [step] at h
    split at h
    next =>
      cases h
      refine .config _ fun key' => .inl ?_
      exact Config.accountUuid_logout _ key key' refresh
    next => simp at h
  | expireToken key attempted =>
    cases h
    refine .config _ fun key' => .inl ?_
    exact Config.accountUuid_expireToken _ key key' attempted
  | confirm key uuid id displayName custodian =>
    cases h
    refine .config _ fun key' => .inl ?_
    exact Config.accountUuid_confirm _ key key' uuid id displayName custodian
  | expireTransientCommands | retireTestEnvironmentRequests =>
    cases h
    exact .bulk _ s.signIns rfl
  | stop =>
    cases h
    exact .stop
  | scan =>
    simp only [step] at h
    split at h
    next hc =>
      cases h
      exact .scan hc
    next => simp at h
  | consider worker permits => exact effect_consider h
  | authenticate task => exact effect_authenticate h
  | send task => exact effect_send h
  | settle task ending =>
    simp only [step, Home.settle] at h
    split at h
    next t ht =>
      split at h
      · cases h
        exact .settle ht
      · simp at h
    next => simp at h
  | lose task =>
    cases h
    exact .lose task
  | join task =>
    simp only [step] at h
    split at h
    next => simp at h
    next hn =>
      cases h
      exact .join (by simpa using hn)

end Home

def relay : Base.System Home Event where
  init := Home.Initial
  step := Home.step

end SiliconDm.Client
