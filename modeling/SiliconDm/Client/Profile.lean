import Mathlib.Logic.Function.Basic

/-!
# Profiles and the configuration file

One DM home keeps its profiles in `config.json`: each profile is one Silicon Accounts
sign-in of one account, stored under its session key. Every change goes through
`Store::update`, which holds `config.lock` and replaces the file at once, so a change is one
atomic function on the stored configuration. Source:
`crates/client/src/runtime/store.rs:68–412,698–873`.
-/

namespace SiliconDm.Client

/-- Carbons are people, Silicons are agents. `crates/client/src/models.rs`. -/
inductive ActorType where
  | carbon
  | silicon
  deriving DecidableEq, Repr

/-- A custodian named inside a session. `crates/client/src/accounts.rs`. -/
structure AccountRef where
  uuid : String
  id : String
  deriving DecidableEq, Repr

/-- The account a profile is signed in as, kept after sign-out. `store.rs:70–78`. -/
structure ProfileAccount where
  uuid : String
  kind : ActorType
  id : String
  displayName : Option String
  custodian : Option AccountRef
  deriving DecidableEq, Repr

/-- The current token pair. `store.rs:98–108`. -/
structure Tokens where
  accessToken : String
  refreshToken : String
  scope : Option String
  expiresIn : Nat
  refreshExpiresAt : Option Nat
  deriving DecidableEq, Repr

/-- A sign-in from before Silicon Accounts. `store.rs:112–120`. -/
structure LegacySignIn where
  actorId : Option String
  testingEnvironmentId : Option Nat
  migratedAt : Nat
  deriving DecidableEq, Repr

/-- Why the last sign-in ended without a sign-out. `store.rs:124–128`. -/
structure EndedSignIn where
  reason : String
  message : String
  endedAt : Nat
  deriving DecidableEq, Repr

/-- What Silicon Accounts answers to a sign-in or a refresh. `accounts.rs:123–136`. -/
structure Session where
  accessToken : String
  refreshToken : String
  expiresIn : Nat
  expiresAt : Nat
  refreshExpiresAt : Option Nat
  scope : Option String
  account : Option ProfileAccount
  deriving DecidableEq, Repr

/-- One local profile. `store.rs:159–178`. -/
structure Profile where
  name : String
  baseUrl : String
  accountsUrl : String
  appId : String
  account : Option ProfileAccount
  tokens : Option Tokens
  deviceId : String
  expiresAt : Nat
  enabled : Bool
  signedInAt : Option Nat
  method : Option String
  legacy : Option LegacySignIn
  ended : Option EndedSignIn
  deriving DecidableEq, Repr

namespace Profile

/-- A profile with no sign-in yet; the source draws `deviceId` at random. `store.rs:237–253`. -/
def new (name baseUrl accountsUrl appId deviceId : String) : Profile where
  name := name
  baseUrl := baseUrl
  accountsUrl := accountsUrl
  appId := appId
  account := none
  tokens := none
  deviceId := deviceId
  expiresAt := 0
  enabled := false
  signedInAt := none
  method := none
  legacy := none
  ended := none

/-- Whether the profile holds a usable sign-in. `store.rs:283–285`. -/
def signedIn (p : Profile) : Bool :=
  p.enabled && p.tokens.isSome && p.account.isSome

/-- The stored access token. `store.rs:286–290`. -/
def accessToken (p : Profile) : Option String :=
  p.tokens.map (·.accessToken)

/-- The stored refresh token, as sign-out compares it. `store.rs:291–295`. -/
def refreshToken (p : Profile) : Option String :=
  p.tokens.map (·.refreshToken)

/-- The account identity the profile holds, whatever its tokens. -/
def accountUuid (p : Profile) : Option String :=
  p.account.map (·.uuid)

/-- Same account and same refresh token. `store.rs:291–295`. -/
def sameSignIn (p other : Profile) : Bool :=
  p.accountUuid == other.accountUuid && p.refreshToken == other.refreshToken

/-- Store a fresh sign-in or a refreshed token pair. `store.rs:297–311`. -/
def applySession (p : Profile) (session : Session) : Profile :=
  { p with
    account := session.account.or p.account
    tokens := some
      { accessToken := session.accessToken
        refreshToken := session.refreshToken
        scope := session.scope
        expiresIn := session.expiresIn
        refreshExpiresAt := session.refreshExpiresAt }
    expiresAt := session.expiresAt
    enabled := true
    ended := none }

/-- Forget the tokens, keep who it was. `store.rs:313–319`. -/
def clearSignIn (p : Profile) (ended : Option EndedSignIn) : Profile :=
  { p with tokens := none, enabled := false, expiresAt := 0, ended := ended }

/-- Mark a refused access token as expired if it is still the stored one.
`daemon.rs:900–909`, `mod.rs:573–580,661–668`, `inbox.rs:108–115`. -/
def expireToken (p : Profile) (attempted : Option String) : Profile :=
  if p.accessToken = attempted then { p with expiresAt := 0 } else p

/-- Take over the id, name and custodian the service reported for the same account.
`mod.rs:537–553`. -/
def confirm (p : Profile) (uuid id : String) (displayName : Option String)
    (custodian : Option (Option AccountRef)) : Profile :=
  { p with
    account := p.account.map fun a =>
      if a.uuid = uuid then
        { a with
          id := id
          displayName := displayName.or a.displayName
          custodian := custodian.getD a.custodian }
      else a }

@[simp] theorem accountUuid_clearSignIn (p : Profile) (ended : Option EndedSignIn) :
    (p.clearSignIn ended).accountUuid = p.accountUuid := rfl

@[simp] theorem accountUuid_expireToken (p : Profile) (attempted : Option String) :
    (p.expireToken attempted).accountUuid = p.accountUuid := by
  unfold expireToken
  split <;> rfl

@[simp] theorem accountUuid_confirm (p : Profile) (uuid id : String)
    (displayName : Option String) (custodian : Option (Option AccountRef)) :
    (p.confirm uuid id displayName custodian).accountUuid = p.accountUuid := by
  cases ha : p.account with
  | none => simp [confirm, accountUuid, ha]
  | some a =>
    simp only [confirm, accountUuid, ha, Option.map_some, Option.some.injEq]
    split <;> rfl

/-- A session that names no other account leaves the profile's account identity alone. -/
theorem accountUuid_applySession (p : Profile) (session : Session)
    (h : ∀ a, session.account = some a → p.accountUuid = some a.uuid) :
    (p.applySession session).accountUuid = p.accountUuid := by
  cases ha : session.account with
  | none => simp [applySession, accountUuid, ha]
  | some a => simpa [applySession, accountUuid, ha] using (h a ha).symm

/-- A signed-in profile names its account. -/
theorem exists_accountUuid_of_signedIn {p : Profile} (h : p.signedIn = true) :
    ∃ uuid, p.accountUuid = some uuid := by
  simp only [signedIn, Bool.and_eq_true, Option.isSome_iff_exists] at h
  obtain ⟨-, a, ha⟩ := h
  exact ⟨a.uuid, by simp [accountUuid, ha]⟩

end Profile

/-- The key of a profile in `config.json` and in the queue. `store.rs:388–390`. -/
def sessionKey (name : String) : String :=
  name ++ ":production"

/-- One home's settings; profiles by session key. `store.rs:323–343`. -/
structure Config where
  profiles : String → Option Profile
  relayPort : Nat

/-- A fresh state: no profiles, the default relay port. `store.rs:355–366`. -/
def Config.default : Config where
  profiles := fun _ => none
  relayPort := 19780

/-- What stands at `config.json`: nothing, bytes that are not DM state, or a configuration. -/
inductive ConfigFile where
  | missing
  | unreadable
  | readable (config : Config)

/-- What `update` and `load` work on: a file that cannot be read as DM state is moved aside
and replaced by defaults. `store.rs:698–755`. -/
def ConfigFile.contents : ConfigFile → Config
  | .readable config => config
  | .missing | .unreadable => .default

/-- `Store::update` with a change that cannot fail. `store.rs:719–755`. -/
def ConfigFile.update (file : ConfigFile) (mutate : Config → Config) : ConfigFile :=
  .readable (mutate file.contents)

/-- Change one stored profile, if it is there (`profiles.get_mut(key)`). -/
def Config.modify (config : Config) (key : String) (f : Profile → Profile) : Config :=
  { config with profiles := Function.update config.profiles key ((config.profiles key).map f) }

def Config.insert (config : Config) (key : String) (p : Profile) : Config :=
  { config with profiles := Function.update config.profiles key (some p) }

def Config.accountUuid (config : Config) (key : String) : Option String :=
  (config.profiles key).bind Profile.accountUuid

def ConfigFile.accountUuid (file : ConfigFile) (key : String) : Option String :=
  file.contents.accountUuid key

@[simp] theorem ConfigFile.contents_update (file : ConfigFile) (f : Config → Config) :
    (file.update f).contents = f file.contents := rfl

@[simp] theorem Config.accountUuid_default (key : String) :
    Config.default.accountUuid key = none := rfl

/-- Inserting a profile decides the account of its own key only. -/
theorem Config.accountUuid_insert (config : Config) (key key' : String) (p : Profile) :
    (config.insert key p).accountUuid key' =
      if key' = key then p.accountUuid else config.accountUuid key' := by
  by_cases h : key' = key
  · subst h
    simp [accountUuid, insert]
  · simp [accountUuid, insert, h]

/-- A change that keeps the account of the stored profile keeps the account of every key. -/
theorem Config.accountUuid_modify (config : Config) (key key' : String) (f : Profile → Profile)
    (h : ∀ p, config.profiles key = some p → (f p).accountUuid = p.accountUuid) :
    (config.modify key f).accountUuid key' = config.accountUuid key' := by
  by_cases hk : key' = key
  · subst hk
    cases hp : config.profiles key' with
    | none => simp [accountUuid, modify, hp]
    | some p => simpa [accountUuid, modify, hp] using h p hp
  · simp [accountUuid, modify, hk]

/-- The signed-in profile at a key, or nothing. `store.rs:404–413,869–872`. -/
def Config.signedInAt (config : Config) (key : String) : Option Profile :=
  (config.profiles key).filter Profile.signedIn

/-- What `signedInAt` returns is stored and names its account. -/
theorem Config.signedInAt_eq_some {config : Config} {key : String} {p : Profile}
    (h : config.signedInAt key = some p) :
    ∃ uuid, p.accountUuid = some uuid ∧ config.accountUuid key = some uuid := by
  obtain ⟨hp, hs⟩ := Option.filter_eq_some_iff.mp h
  obtain ⟨uuid, hu⟩ := Profile.exists_accountUuid_of_signedIn hs
  exact ⟨uuid, hu, by simp [accountUuid, hp, hu]⟩

/-- The change a refresh stores: only if the profile is still the sign-in that was refreshed.
`store.rs:824–831`. -/
def Config.applyRefresh (config : Config) (key : String) (current : Profile)
    (session : Session) : Config :=
  config.modify key fun stored =>
    if stored.sameSignIn current then stored.applySession session else stored

/-- The change a refused refresh stores. `store.rs:842–849`. -/
def Config.endRefresh (config : Config) (key : String) (current : Profile)
    (ended : EndedSignIn) : Config :=
  config.modify key fun stored =>
    if stored.sameSignIn current then stored.clearSignIn (some ended) else stored

/-- The change a sign-out stores. `mod.rs:628–635`. -/
def Config.logout (config : Config) (key refresh : String) : Config :=
  config.modify key fun stored =>
    if stored.refreshToken = some refresh then stored.clearSignIn none else stored

/-- The refreshed session is of the account that was refreshed: `fresh_profile_within`
bails out before storing anything else. `store.rs:814–822`. -/
def refreshAccepted (current : Profile) (session : Session) : Bool :=
  match session.account, current.account with
  | some new, some old => new.uuid = old.uuid
  | _, _ => true

/-- A refresh never changes the account stored under any key. -/
theorem Config.accountUuid_applyRefresh {config : Config} {key : String} {current : Profile}
    {session : Session} (hs : current.signedIn = true)
    (hr : refreshAccepted current session = true) (key' : String) :
    (config.applyRefresh key current session).accountUuid key' = config.accountUuid key' := by
  refine config.accountUuid_modify key key' _ fun p _ => ?_
  split
  next hsame =>
    obtain ⟨uuid, hu⟩ := Profile.exists_accountUuid_of_signedIn hs
    have hp : p.accountUuid = some uuid := by
      simp only [Profile.sameSignIn, Bool.and_eq_true, beq_iff_eq] at hsame
      rw [hsame.1, hu]
    refine p.accountUuid_applySession session fun a ha => ?_
    obtain ⟨old, ho, hou⟩ : ∃ old, current.account = some old ∧ old.uuid = uuid := by
      simpa [Profile.accountUuid] using hu
    simp only [refreshAccepted, ha, ho, decide_eq_true_eq] at hr
    rw [hp, hr, hou]
  next => rfl

@[simp] theorem Config.accountUuid_endRefresh (config : Config) (key key' : String)
    (current : Profile) (ended : EndedSignIn) :
    (config.endRefresh key current ended).accountUuid key' = config.accountUuid key' := by
  refine config.accountUuid_modify key key' _ fun p _ => ?_
  split <;> simp

@[simp] theorem Config.accountUuid_logout (config : Config) (key key' refresh : String) :
    (config.logout key refresh).accountUuid key' = config.accountUuid key' := by
  refine config.accountUuid_modify key key' _ fun p _ => ?_
  split <;> simp

@[simp] theorem Config.accountUuid_confirm (config : Config) (key key' uuid id : String)
    (displayName : Option String) (custodian : Option (Option AccountRef)) :
    (config.modify key (·.confirm uuid id displayName custodian)).accountUuid key' =
      config.accountUuid key' :=
  config.accountUuid_modify key key' _ fun p _ => p.accountUuid_confirm uuid id displayName custodian

@[simp] theorem Config.accountUuid_expireToken (config : Config) (key key' : String)
    (attempted : Option String) :
    (config.modify key (·.expireToken attempted)).accountUuid key' =
      config.accountUuid key' :=
  config.accountUuid_modify key key' _ fun p _ => p.accountUuid_expireToken attempted

end SiliconDm.Client
