import SiliconDm.Client.Profile

/-!
# Storing a sign-in

`save_sign_in` counts the profile's pending requests, then changes the configuration in one
update, then fails what a legacy sign-in with another id left behind. The three are separate
atomic steps; this module is the middle one. Source:
`crates/client/src/runtime/mod.rs:394–503`, `store.rs:41–67`.
-/

namespace SiliconDm.Client

/-- A sign-in problem reported with its code, reason and next step. `store.rs:41–45`. -/
structure SessionError where
  code : String
  message : String
  hint : String
  deriving DecidableEq, Repr

/-- The profile, services and app a sign-in is stored for. `mod.rs`. -/
structure SignInTarget where
  profile : String
  apiUrl : String
  accountsUrl : String
  appId : String
  deriving DecidableEq, Repr

/-- `trim_end_matches('/')` of a URL. -/
def trimSlashes (url : String) : List Char :=
  (url.toList.reverse.dropWhile (· = '/')).reverse

/-- The stored profile belongs to another account than the one signing in. `mod.rs:413–416`. -/
def otherAccount (existing : Profile) (account : ProfileAccount) : Bool :=
  existing.account.any fun previous => previous.uuid ≠ account.uuid

/-- The stored profile talks to another DM service. `mod.rs:417–418`. -/
def otherService (existing : Profile) (target : SignInTarget) : Bool :=
  trimSlashes existing.baseUrl ≠ trimSlashes target.apiUrl

/-- The refusal that keeps queued requests from being sent as someone else.
`mod.rs:424–433`. -/
def profileInUse (target : SignInTarget) (existing : Profile) (account : ProfileAccount)
    (pending : Nat) : SessionError :=
  let who := (existing.account.map (·.id)).getD "another account"
  { code := "profile_in_use"
    message := s!"The DM profile `{target.profile}` has {pending} queued request(s) from {who} at {existing.baseUrl}; signing in as {account.id} at {target.apiUrl} would send them as someone else, so nothing changed."
    hint := s!"Sign in to another profile (dm --profile <name> login), or sign in as {who} again so the queue drains." }

/-- What the update reports besides the stored profile: whether a legacy sign-in's requests
are released, and the replaced sign-in to revoke. -/
structure SignInEffect where
  released : Option Bool
  replaced : Option (String × String × String)
  deriving DecidableEq, Repr

/-- The profile a successful sign-in stores. `mod.rs:448–464`. -/
def installedProfile (target : SignInTarget) (account : ProfileAccount) (session : Session)
    (method device : String) (now : Nat) (existing : Option Profile) : Profile :=
  let profile := existing.getD
    (Profile.new target.profile target.apiUrl target.accountsUrl target.appId device)
  let profile := { profile with
    name := target.profile
    baseUrl := target.apiUrl
    accountsUrl := target.accountsUrl
    appId := target.appId
    account := some account }
  { profile.applySession session with
    signedInAt := some now
    method := some method
    legacy := none }

/-- A pending request of a sign-in with an account (not a legacy one) blocks the update when
the account or the service differs. `mod.rs:419`. -/
def blocksSignIn (target : SignInTarget) (account : ProfileAccount) (pending : Nat)
    (existing : Profile) : Bool :=
  0 < pending && existing.legacy.isNone &&
    (otherAccount existing account || otherService existing target)

/-- The configuration update of `save_sign_in`, with the pending count read before it.
`mod.rs:410–467`. -/
def saveSignIn (target : SignInTarget) (account : ProfileAccount) (session : Session)
    (method device : String) (now pending : Nat) (config : Config) :
    Except SessionError (Config × SignInEffect) :=
  let key := sessionKey target.profile
  let existing := config.profiles key
  match existing.filter (blocksSignIn target account pending) with
  | some blocked => .error (profileInUse target blocked account pending)
  | none =>
    let profile := installedProfile target account session method device now existing
    .ok (config.insert key profile,
      { released := existing.bind fun p =>
          p.legacy.map fun legacy => legacy.actorId = some account.id
        replaced := existing.bind fun p =>
          p.tokens.map fun t => (p.accountsUrl, p.appId, t.refreshToken) })

variable {target : SignInTarget} {account : ProfileAccount} {session : Session}

/-- The stored profile is the session's account whatever stood there before; the session of
a sign-in names that account (`mod.rs:401–404`). -/
theorem accountUuid_installedProfile {method device : String} {now : Nat}
    {existing : Option Profile} (h : session.account = some account) :
    (installedProfile target account session method device now existing).accountUuid =
      some account.uuid := by
  simp [installedProfile, Profile.applySession, Profile.accountUuid, h]

/-- What an accepted sign-in update changes: one key, to the signed-in account, and only past
the pending check. -/
theorem saveSignIn_eq_ok {method device : String} {now pending : Nat} {config config' : Config}
    {effect : SignInEffect} (hs : session.account = some account)
    (h : saveSignIn target account session method device now pending config =
      .ok (config', effect)) :
    (∀ key, config'.accountUuid key =
      if key = sessionKey target.profile then some account.uuid else config.accountUuid key) ∧
    ∀ p, config.profiles (sessionKey target.profile) = some p →
      blocksSignIn target account pending p = false := by
  simp only [saveSignIn] at h
  split at h
  next => simp at h
  next hb =>
    simp only [Except.ok.injEq, Prod.mk.injEq] at h
    obtain ⟨rfl, -⟩ := h
    refine ⟨fun key => ?_, fun p hp => ?_⟩
    · rw [Config.accountUuid_insert, accountUuid_installedProfile hs]
    · simpa [hp, Option.filter] using hb

end SiliconDm.Client
