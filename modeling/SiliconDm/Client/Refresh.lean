import SiliconDm.Client.Relay

/-!
# One refresh token at a time

Refresh tokens rotate, and presenting a used one ends the whole sign-in. Every call that
exchanges, replaces or revokes the token of a profile holds the profile's lock; the file itself
is changed in single updates under its own lock, also by calls that do not hold the first one.

A step is one load, one update, one answer of Silicon Accounts or one move of the lock, by any
process or task of the home. Silicon Accounts issues tokens that it has not issued before. Its
responses are delivered, so a failure it answers means that it has not exchanged the token. What
it answers, the clock, and whether an update could be written come with the label.

Source: `crates/client/src/runtime/store.rs:757–873`, `mod.rs:394–503,509–668`,
`daemon.rs:900–909`, `inbox.rs:101–121`, `crates/client/src/accounts.rs:419–436,556–598`.
-/

namespace SiliconDm.Client

namespace Refresh

/-- The answer to a presented refresh token: the first two have exchanged it, the second without
a session that can be read. -/
inductive Answer where
  | session (session : Session)
  | unreadable (message : String)
  | refused (message : String)
  | failed (message : String)
  deriving DecidableEq, Repr

/-- A call on the profile, by what it does next. `fresh_profile_within` loads the profile, waits
for the lock, decides, presents the token and stores the answer; `save_sign_in` waits and stores;
`logout` waits, revokes and forgets. -/
inductive Job where
  | load (margin : Nat)
  | wait (margin : Nat) (profile : Profile)
  | decide (margin : Nat) (profile : Profile)
  | present (current : Profile)
  | store (current : Profile) (answer : Answer)
  | signIn (x : SignIn)
  | save (x : SignIn)
  | signOut
  | revoke
  | forget (refresh : String)

def Job.locked : Job → Bool
  | .decide .. | .present .. | .store .. | .save .. | .revoke | .forget .. => true
  | .load .. | .wait .. | .signIn .. | .signOut => false

/-- The profile under the lock, and everything Silicon Accounts issued and exchanged. -/
structure State where
  file : ConfigFile
  lock : Option Nat
  jobs : Nat → Option Job
  fresh : Nat
  issued : List String
  exchanged : List String

inductive Label where
  | freshProfile (margin : Nat)
  | signIn (x : SignIn)
  | logout
  | load (id now : Nat)
  | acquire (id : Nat)
  | decide (id now : Nat)
  | answer (id : Nat) (answer : Answer)
  | store (id now : Nat) (written : Bool)
  | save (id pending now : Nat) (written : Bool)
  | revoke (id : Nat)
  | forget (id : Nat) (written : Bool)
  | refused (attempted : String)
  | confirm (uuid id : String) (displayName : Option String)
      (custodian : Option (Option AccountRef))
  | giveUp (id : Nat)

namespace State

def start (s : State) (job : Job) : State :=
  { s with jobs := Function.update s.jobs s.fresh (some job), fresh := s.fresh + 1 }

def goTo (s : State) (id : Nat) (job : Job) : State :=
  { s with jobs := Function.update s.jobs id (some job) }

/-- The call returns; the lock goes with its file handle. -/
def finish (s : State) (id : Nat) : State :=
  { s with
    jobs := Function.update s.jobs id none
    lock := if s.lock = some id then none else s.lock }

def update (s : State) (written : Bool) (mutate : Config → Config) : State :=
  if written then { s with file := s.file.update mutate } else s

def acquire (s : State) (id : Nat) (job : Job) : Option State :=
  if s.lock.isNone then some { s.goTo id job with lock := some id } else none

/-- Silicon Accounts answers; a used token is refused. `accounts.rs:419–436`. -/
def answer (s : State) (id : Nat) (current : Profile) (answer : Answer) : Option State :=
  let token := current.refreshToken.getD ""
  let s' := s.goTo id (.store current answer)
  match answer with
  | .session session =>
    if token ∉ s.exchanged ∧ session.refreshToken ∉ s.issued then
      some { s' with
        issued := s.issued ++ [session.refreshToken]
        exchanged := s.exchanged ++ [token] }
    else none
  | .unreadable _ =>
    if token ∉ s.exchanged then some { s' with exchanged := s.exchanged ++ [token] } else none
  | .refused _ | .failed _ => some s'

/-- What `fresh_profile_within` does with the answer. `store.rs:812–867`. -/
def storeAnswer (s : State) (key : String) (current : Profile) (now : Nat) (written : Bool) :
    Answer → State
  | .session session =>
    if refreshAccepted current session then s.update written (·.applyRefresh key current session)
    else s
  | .refused message =>
    s.update written (·.endRefresh key current
      { reason := "refresh_refused", message, endedAt := now })
  | .unreadable _ | .failed _ => s

end State

/-- One step of a call on the profile `name`. -/
def State.step (name : String) (s : State) (l : Label) : Option State :=
  let key := sessionKey name
  match l with
  | .freshProfile margin => some (s.start (.load margin))
  | .signIn x =>
    if x.target.profile = name ∧ x.session.refreshToken ∉ s.issued then
      some { s.start (.signIn x) with issued := s.issued ++ [x.session.refreshToken] }
    else none
  | .logout => some (s.start .signOut)
  | .load id now =>
    match s.jobs id with
    | some (.load margin) =>
      match s.file.contents.signedInAt key with
      | some profile =>
        if now + margin < profile.expiresAt then some (s.finish id)
        else some (s.goTo id (.wait margin profile))
      | none => some (s.finish id)
    | _ => none
  | .acquire id =>
    match s.jobs id with
    | some (.wait margin profile) => s.acquire id (.decide margin profile)
    | some (.signIn x) => s.acquire id (.save x)
    | some .signOut => s.acquire id .revoke
    | _ => none
  | .decide id now =>
    match s.jobs id with
    | some (.decide margin profile) =>
      match s.file.contents.signedInAt key with
      | some current =>
        if now + margin < current.expiresAt || !current.sameSignIn profile then
          some (s.finish id)
        else some (s.goTo id (.present current))
      | none => some (s.finish id)
    | _ => none
  | .answer id answer =>
    match s.jobs id with
    | some (.present current) => s.answer id current answer
    | _ => none
  | .store id now written =>
    match s.jobs id with
    | some (.store current answer) =>
      some ((s.storeAnswer key current now written answer).finish id)
    | _ => none
  | .save id pending now written =>
    match s.jobs id with
    | some (.save x) =>
      match saveSignIn x.target x.account x.session x.method x.device now pending
          s.file.contents with
      | .ok (config, _) => some ((s.update written fun _ => config).finish id)
      | .error _ => some (s.finish id)
    | _ => none
  | .revoke id =>
    match s.jobs id with
    | some .revoke =>
      match (s.file.contents.profiles key).bind Profile.refreshToken with
      | some refresh => some (s.goTo id (.forget refresh))
      | none => some (s.finish id)
    | _ => none
  | .forget id written =>
    match s.jobs id with
    | some (.forget refresh) => some ((s.update written (·.logout key refresh)).finish id)
    | _ => none
  | .refused attempted => some (s.update true (·.modify key (·.expireToken (some attempted))))
  | .confirm uuid id displayName custodian =>
    some (s.update true (·.modify key (·.confirm uuid id displayName custodian)))
  | .giveUp id =>
    -- an error before the token is presented, or before a sign-in is stored
    match s.jobs id with
    | some (.store ..) | none => none
    | some _ => some (s.finish id)

def State.token (name : String) (s : State) : Option String :=
  (s.file.contents.profiles (sessionKey name)).bind Profile.refreshToken

/-- The calls on one profile, whose refresh token was not used before. -/
def calls (name : String) : Base.System State Label where
  init s := s.lock = none ∧ (∀ id, s.jobs id = none) ∧ (∀ r ∈ s.exchanged, r ∈ s.issued) ∧
    ∀ r, s.token name = some r → r ∈ s.issued ∧ r ∉ s.exchanged
  step := State.step name

/-! ### The property -/

def State.presents (s : State) (id : Nat) : Option String :=
  match s.jobs id with
  | some (.present current) => some (current.refreshToken.getD "")
  | _ => none

/-- An exchange ends with its session in the file: Silicon Accounts answers with a session that
can be read, of the same account, and the update is written. -/
def stores (s : State) : Label → Bool
  | .answer _ (.unreadable _) => false
  | .store id _ written =>
    match s.jobs id with
    | some (.store current (.session session)) => written && refreshAccepted current session
    | _ => true
  | _ => true

end Refresh

end SiliconDm.Client
