import SiliconDm.Client.Refresh

/-!
# A refresh token is used once

Every unused refresh token has one place: the file, or one call that is about to store it. The
stored token is exchanged by the holder of the lock, who has read it under the lock, and the
holder replaces it before the lock goes on. Where an exchange does not end with its session in
the file, the used token stays there and the next call presents it again.
-/

namespace SiliconDm.Client

open List Option

namespace Refresh

/-! ### The stored sign-in -/

/-- What `same_sign_in` compares. -/
def signInOf (p : Profile) : Option String × Option String :=
  (p.accountUuid, p.refreshToken)

variable {p : Profile} {session : Session} {r : String} {job' : Job}

theorem sameSignIn_iff {q : Profile} : p.sameSignIn q = true ↔ signInOf p = signInOf q := by
  simp [Profile.sameSignIn, signInOf]

def State.stored (name : String) (s : State) : Option (Option String × Option String) :=
  (s.file.contents.profiles (sessionKey name)).map signInOf

variable {name : String} {s s' : State} {id : Nat} {job : Job}

theorem token_eq : s.token name = (s.stored name).bind (·.2) := by
  unfold State.token State.stored
  cases s.file.contents.profiles (sessionKey name) <;> rfl

variable {f : Profile → Profile}

/-- A change of the stored profile that keeps its sign-in. -/
theorem stored_modify (hf : ∀ p, signInOf (f p) = signInOf p) :
    (s.update true (·.modify (sessionKey name) f)).stored name = s.stored name := by
  unfold State.stored State.update
  simp only [if_true, ConfigFile.contents_update, Config.modify, Function.update_self]
  cases s.file.contents.profiles (sessionKey name) with
  | none => rfl
  | some p => exact congrArg some (hf p)

theorem signInOf_expireToken (p : Profile) (attempted : Option String) :
    signInOf (p.expireToken attempted) = signInOf p := by
  unfold Profile.expireToken
  split <;> rfl

theorem signInOf_confirm (p : Profile) (uuid id : String) (displayName : Option String)
    (custodian : Option (Option AccountRef)) :
    signInOf (p.confirm uuid id displayName custodian) = signInOf p := by
  unfold signInOf
  rw [Profile.accountUuid_confirm]
  rfl

/-- A refresh of the stored sign-in stores its session. -/
theorem token_applyRefresh {current : Profile} (h : s.stored name = some (signInOf current)) :
    (s.update true (·.applyRefresh (sessionKey name) current session)).token name =
      some session.refreshToken := by
  obtain ⟨p, hp, hsame⟩ := map_eq_some_iff.mp h
  unfold State.token State.update
  simp only [if_true, ConfigFile.contents_update, Config.applyRefresh, Config.modify,
    Function.update_self, hp, map_some, bind_some, sameSignIn_iff.mpr hsame]
  rfl

/-- A refused refresh of the stored sign-in leaves no token, a sign-out leaves none or the one
that was there. -/
theorem token_modify_clear
    (hf : ∀ p, (f p).refreshToken = none ∨ (f p).refreshToken = p.refreshToken)
    (h : (s.update true (·.modify (sessionKey name) f)).token name = some r) :
    s.token name = some r := by
  unfold State.token State.update at *
  simp only [if_true, ConfigFile.contents_update, Config.modify, Function.update_self] at h
  cases hp : s.file.contents.profiles (sessionKey name) with
  | none => simp [hp] at h
  | some p =>
    rw [hp] at h
    simp only [map_some, bind_some] at h ⊢
    rcases hf p with hn | hsame
    · simp [hn] at h
    · rw [← hsame]
      exact h

theorem refreshToken_endRefresh (current p : Profile) (ended : EndedSignIn) :
    (if p.sameSignIn current then p.clearSignIn (some ended) else p).refreshToken = none ∨
      (if p.sameSignIn current then p.clearSignIn (some ended) else p).refreshToken =
        p.refreshToken := by
  split
  · exact .inl rfl
  · exact .inr rfl

theorem refreshToken_logout (p : Profile) (refresh : String) :
    (if p.refreshToken = some refresh then p.clearSignIn none else p).refreshToken = none ∨
      (if p.refreshToken = some refresh then p.clearSignIn none else p).refreshToken =
        p.refreshToken := by
  split
  · exact .inl rfl
  · exact .inr rfl

/-- A stored sign-in has the token of its session. -/
theorem token_saveSignIn {x : SignIn} {now pending : Nat} {config : Config}
    {effect : SignInEffect} (hname : x.target.profile = name)
    (h : saveSignIn x.target x.account x.session x.method x.device now pending s.file.contents =
      .ok (config, effect)) :
    (s.update true fun _ => config).token name = some x.session.refreshToken := by
  subst hname
  simp only [saveSignIn] at h
  split at h
  next => cases h
  next =>
    cases h
    unfold State.token State.update
    simp only [if_true, ConfigFile.contents_update, Config.insert, Function.update_self]
    rfl

/-! ### Every token has one place -/

def Job.brings : Job → Option String
  | .signIn x | .save x => some x.session.refreshToken
  | .store _ (.session session) => some session.refreshToken
  | _ => none

def Job.current : Job → Option Profile
  | .present current | .store current _ => some current
  | _ => none

/-- The job has exchanged the stored token and not yet stored the new one. -/
def Job.exchanging : Job → Bool
  | .store _ (.session _) => true
  | _ => false

structure Once (name : String) (s : State) : Prop where
  fresh : ∀ id, s.fresh ≤ id → s.jobs id = none
  issued : ∀ r ∈ s.exchanged, r ∈ s.issued
  holder : ∀ id job, s.jobs id = some job → job.locked = true → s.lock = some id
  token : ∀ r, s.token name = some r → r ∈ s.issued
  unused : ∀ r, s.token name = some r → r ∈ s.exchanged →
    ∃ id job, s.jobs id = some job ∧ job.exchanging = true
  current : ∀ id job p, s.jobs id = some job → job.current = some p →
    p.signedIn = true ∧ s.stored name = some (signInOf p)
  brings : ∀ id job r, s.jobs id = some job → job.brings = some r →
    r ∈ s.issued ∧ r ∉ s.exchanged ∧ s.token name ≠ some r
  distinct : ∀ id id' job job' r, s.jobs id = some job → s.jobs id' = some job' →
    job.brings = some r → job'.brings = some r → id = id'
  named : ∀ id x, s.jobs id = some (.signIn x) ∨ s.jobs id = some (.save x) →
    x.target.profile = name

theorem Job.locked_of_exchanging (h : job.exchanging = true) : job.locked = true := by
  cases job with
  | store current answer => rfl
  | _ => cases h

theorem Job.locked_of_current (h : job.current = some p) : job.locked = true := by
  cases job with
  | present | store => rfl
  | _ => cases h

/-- Only the job that holds the lock is beyond it. -/
theorem Once.eq_holder (h : Once name s) {id' : Nat} (hj : s.jobs id = some job)
    (hlk : job.locked = true) (hj' : s.jobs id' = some job') (hlk' : job'.locked = true) :
    id' = id ∧ job' = job := by
  have hlock := h.holder id job hj hlk
  have hlock' := h.holder id' job' hj' hlk'
  have hid : id' = id := Option.some.inj (hlock'.symm.trans hlock)
  subst hid
  exact ⟨rfl, Option.some.inj (hj'.symm.trans hj)⟩

/-- Under the lock the stored token is unused, until the holder itself exchanges it. -/
theorem Once.not_mem_exchanged (h : Once name s) (hj : s.jobs id = some job)
    (hlk : job.locked = true) (hn : job.exchanging = false) (hr : s.token name = some r) :
    r ∉ s.exchanged := by
  intro hm
  obtain ⟨id', job', hj', hexch⟩ := h.unused r hr hm
  obtain ⟨-, rfl⟩ := h.eq_holder hj hlk hj' (Job.locked_of_exchanging hexch)
  rw [hn] at hexch
  cases hexch

/-! ### What each kind of step keeps -/

/-- A step of one call: `next` is what it does then. A new token in the file was brought by the
call, a token is exchanged while it is stored, and the sign-in changes under the lock only. -/
structure Move (name : String) (s s' : State) (id : Nat) (next : Option Job) : Prop where
  jobs : s'.jobs = Function.update s.jobs id next
  fresh : s.fresh ≤ s'.fresh ∧ id < s'.fresh
  issued : s.issued ⊆ s'.issued
  exchanged : ∀ r ∈ s'.exchanged, r ∈ s.exchanged ∨ s.token name = some r
  lock : ∀ id', id' ≠ id → s.lock = some id' → (s.jobs id').isSome → s'.lock = some id'
  token : ∀ r, s'.token name = some r →
    s.token name = some r ∨ ∃ job, s.jobs id = some job ∧ job.brings = some r
  stored : s'.stored name = s.stored name ∨ ∃ job, s.jobs id = some job ∧ job.locked = true
  unused : ∀ r, s'.token name = some r → r ∈ s'.exchanged →
    (∃ job, next = some job ∧ job.exchanging = true) ∨
      s.token name = some r ∧ r ∈ s.exchanged ∧ ∀ job, s.jobs id = some job → job.exchanging = false
  locked : ∀ job, next = some job → job.locked = true → s'.lock = some id
  current : ∀ job p, next = some job → job.current = some p →
    p.signedIn = true ∧ s'.stored name = some (signInOf p)
  brings : ∀ job r, next = some job → job.brings = some r → r ∈ s'.issued ∧ (r ∉ s.issued ∨
    (∃ old, s.jobs id = some old ∧ old.brings = some r) ∧ s'.token name = s.token name)
  named : ∀ x, next = some (.signIn x) ∨ next = some (.save x) → x.target.profile = name

section

variable {next : Option Job}

variable {id' : Nat} {r : String}

/-- The jobs after a step: the next one of its call, and the others. -/
theorem Move.cases (m : Move name s s' id next) (h : s'.jobs id' = some job') :
    id' = id ∧ next = some job' ∨ id' ≠ id ∧ s.jobs id' = some job' := by
  rw [m.jobs, Function.update_apply] at h
  split at h
  next hid => exact .inl ⟨hid, h⟩
  next hid => exact .inr ⟨hid, h⟩

theorem Move.other (m : Move name s s' id next) (hid : id' ≠ id) : s'.jobs id' = s.jobs id' := by
  rw [m.jobs]
  exact Function.update_of_ne hid _ _

theorem Once.token_issued (h : Once name s) (m : Move name s s' id next)
    (hr : s'.token name = some r) : r ∈ s.issued := by
  rcases m.token r hr with hold | ⟨job, hj, hbr⟩
  · exact h.token r hold
  · exact (h.brings id job r hj hbr).1

theorem Once.exchanged_issued (h : Once name s) (m : Move name s s' id next) (hr : r ∈ s'.exchanged) :
    r ∈ s.issued := by
  rcases m.exchanged r hr with hold | htok
  · exact h.issued r hold
  · exact h.token r htok

/-- What another call brings stays its own. -/
theorem Once.brings_other (h : Once name s) (m : Move name s s' id next) (hid : id' ≠ id)
    (hj : s.jobs id' = some job') (hr : job'.brings = some r) :
    r ∈ s'.issued ∧ r ∉ s'.exchanged ∧ s'.token name ≠ some r := by
  obtain ⟨hiss, hunu, hn⟩ := h.brings id' job' r hj hr
  refine ⟨m.issued hiss, fun hm => ?_, fun htok => ?_⟩
  · exact (m.exchanged r hm).elim hunu hn
  · rcases m.token r htok with hold | ⟨job, hj', hr'⟩
    · exact hn hold
    · exact hid (h.distinct id' id job' job r hj hj' hr hr')

/-- What the call brings next is new, or what it brought. -/
theorem Once.brings_next (h : Once name s) (m : Move name s s' id next) {job : Job}
    (hnext : next = some job) (hr : job.brings = some r) :
    r ∈ s'.issued ∧ r ∉ s'.exchanged ∧ s'.token name ≠ some r := by
  obtain ⟨hiss, hnew | ⟨⟨old, hold, hbr⟩, htok⟩⟩ := m.brings job r hnext hr
  · exact ⟨hiss, fun hm => hnew (h.exchanged_issued m hm),
      fun htok => hnew (h.token_issued m htok)⟩
  · obtain ⟨-, hunu, hn⟩ := h.brings id old r hold hbr
    refine ⟨hiss, fun hm => ?_, htok ▸ hn⟩
    exact (m.exchanged r hm).elim hunu hn

theorem Once.move (h : Once name s) (m : Move name s s' id next) : Once name s' := by
  constructor
  case fresh =>
    intro id' hid'
    obtain ⟨hle, hlt⟩ := m.fresh
    rw [m.other (by omega)]
    exact h.fresh id' (by omega)
  case issued => exact fun r hr => m.issued (h.exchanged_issued m hr)
  case holder =>
    intro id' job' hj hl
    rcases m.cases hj with ⟨rfl, hnext⟩ | ⟨hid, hold⟩
    · exact m.locked job' hnext hl
    · exact m.lock id' hid (h.holder id' job' hold hl) (isSome_of_eq_some hold)
  case token => exact fun r hr => m.issued (h.token_issued m hr)
  case unused =>
    intro r hr hm
    rcases m.unused r hr hm with ⟨job, hnext, hex⟩ | ⟨hold, hused, hn⟩
    · exact ⟨id, job, by rw [m.jobs, Function.update_self, hnext], hex⟩
    · obtain ⟨id', job', hj, hex⟩ := h.unused r hold hused
      refine ⟨id', job', (m.other ?_).trans hj, hex⟩
      rintro rfl
      rw [hn job' hj] at hex
      cases hex
  case current =>
    intro id' job' p hj hp
    rcases m.cases hj with ⟨rfl, hnext⟩ | ⟨hid, hold⟩
    · exact m.current job' p hnext hp
    · rcases m.stored with hsto | ⟨job, hj', hlk⟩
      · rw [hsto]
        exact h.current id' job' p hold hp
      · exact absurd (h.eq_holder hj' hlk hold (Job.locked_of_current hp)).1 hid
  case brings =>
    intro id' job' r hj hr
    rcases m.cases hj with ⟨-, hnext⟩ | ⟨hid, hold⟩
    · exact h.brings_next m hnext hr
    · exact h.brings_other m hid hold hr
  case distinct =>
    -- of two calls that bring one token at most one has moved
    have hone : ∀ {i j r}, s.jobs i = some j → i ≠ id → j.brings = some r →
        ∀ {job}, next = some job → job.brings ≠ some r := by
      intro i j r hi hid hr job hnext hr'
      rcases (m.brings job r hnext hr').2 with hnew | ⟨⟨old, hold, hbr⟩, -⟩
      · exact hnew (h.brings i j r hi hr).1
      · exact hid (h.distinct i id j old r hi hold hr hbr)
    intro i i' j j' r hi hi' hr hr'
    rcases m.cases hi with ⟨hid, hnext⟩ | ⟨hid, hold⟩ <;>
      rcases m.cases hi' with ⟨hid', hnext'⟩ | ⟨hid', hold'⟩
    · exact hid.trans hid'.symm
    · exact absurd hr (hone hold' hid' hr' hnext)
    · exact absurd hr' (hone hold hid hr hnext')
    · exact h.distinct i i' j j' r hold hold' hr hr'
  case named =>
    intro id' x hx
    rcases hx with hx | hx
    · rcases m.cases hx with ⟨-, hnext⟩ | ⟨-, hold⟩
      · exact m.named x (.inl hnext)
      · exact h.named id' x (.inl hold)
    · rcases m.cases hx with ⟨-, hnext⟩ | ⟨-, hold⟩
      · exact m.named x (.inr hnext)
      · exact h.named id' x (.inr hold)

end

theorem Once.lt_fresh (h : Once name s) (hj : s.jobs id = some job) : id < s.fresh := by
  by_contra hle
  rw [h.fresh id (by omega)] at hj
  cases hj

/-- A new call waits outside the lock; what it brings was just issued. -/
theorem Once.start (h : Once name s) (hlk : job.locked = false) {issued : List String}
    (hsub : s.issued ⊆ issued)
    (hbr : ∀ r, job.brings = some r → r ∈ issued ∧ r ∉ s.issued)
    (hnamed : ∀ x, job = .signIn x ∨ job = .save x → x.target.profile = name) :
    Once name { s.start job with issued } := by
  have hn : s.jobs s.fresh = none := h.fresh _ (Nat.le_refl _)
  suffices hmove : Move name s { s.start job with issued } s.fresh (some job) from h.move hmove
  constructor
  case jobs => rfl
  case fresh => exact ⟨Nat.le_succ _, Nat.lt_succ_self _⟩
  case issued => exact hsub
  case exchanged => exact fun r hr => .inl hr
  case lock => exact fun _ _ hl _ => hl
  case token => exact fun r hr => .inl hr
  case stored => exact .inl rfl
  case unused => exact fun r hr hm => .inr ⟨hr, hm, by simp [hn]⟩
  case locked =>
    intro job' hj hl
    rw [← Option.some.inj hj, hlk] at hl
    cases hl
  case current =>
    intro job' p hj hp
    rw [← Option.some.inj hj] at hp
    rw [Job.locked_of_current hp] at hlk
    cases hlk
  case brings =>
    intro job' r hj hr
    rw [← Option.some.inj hj] at hr
    exact ⟨(hbr r hr).1, .inl (hbr r hr).2⟩
  case named => exact fun x hx => hnamed x (by simpa using hx)

variable {job' : Job} {file : ConfigFile} {current : Profile}

/-- A call goes on: it brings what it brought, and what it has read is stored. -/
theorem Once.goTo (h : Once name s) (hj : s.jobs id = some job) {lock : Option Nat}
    (hlock : job'.locked = true → lock = some id)
    (hoths : ∀ id', s.lock = some id' → lock = some id')
    (hbr : ∀ r, job'.brings = some r → job.brings = some r)
    (hcur : ∀ p, job'.current = some p →
      p.signedIn = true ∧ s.stored name = some (signInOf p)) (hexch : job.exchanging = false)
    (hnamed : ∀ x, job' = .signIn x ∨ job' = .save x → x.target.profile = name) :
    Once name { s.goTo id job' with lock } := by
  suffices hmove : Move name s { s.goTo id job' with lock } id (some job') from h.move hmove
  constructor
  case jobs => rfl
  case fresh => exact ⟨Nat.le_refl _, h.lt_fresh hj⟩
  case issued => exact List.Subset.refl _
  case exchanged => exact fun r hr => .inl hr
  case lock => exact fun id' _ hl _ => hoths id' hl
  case token => exact fun r hr => .inl hr
  case stored => exact .inl rfl
  case unused => exact fun r hr hm => .inr ⟨hr, hm, by simpa [hj] using hexch⟩
  case locked => exact fun job'' he hl => hlock (Option.some.inj he ▸ hl)
  case current => exact fun job'' p he hp => hcur p (Option.some.inj he ▸ hp)
  case brings =>
    intro job'' r he hr
    rw [← Option.some.inj he] at hr
    exact ⟨(h.brings id job r hj (hbr r hr)).1, .inr ⟨⟨job, hj, hbr r hr⟩, rfl⟩⟩
  case named => exact fun x hx => hnamed x (by simpa using hx)

/-- A call ends, with the file as it was or with the token it brings. -/
theorem Once.finish (h : Once name s) (hj : s.jobs id = some job)
    (hsto : job.locked = true ∨ ({ s with file } : State).stored name = s.stored name)
    (htok : ∀ r, ({ s with file } : State).token name = some r →
      job.brings = some r ∨ s.token name = some r ∧ job.exchanging = false) :
    Once name (({ s with file } : State).finish id) := by
  suffices hmove : Move name s (({ s with file } : State).finish id) id none from h.move hmove
  constructor
  case jobs => rfl
  case fresh => exact ⟨Nat.le_refl _, h.lt_fresh hj⟩
  case issued => exact List.Subset.refl _
  case exchanged => exact fun r hr => .inl hr
  case lock =>
    intro id' hid hl _
    refine (if_neg fun he => ?_).trans hl
    exact hid (Option.some.inj (hl.symm.trans he))
  case token => exact fun r hr => (htok r hr).symm.imp And.left fun hb => ⟨job, hj, hb⟩
  case stored => exact hsto.symm.imp_right fun hl => ⟨job, hj, hl⟩
  case unused =>
    intro r hr hm
    rcases htok r hr with hbr | ⟨hold, hexch⟩
    · exact absurd hm (h.brings id job r hj hbr).2.1
    · exact .inr ⟨hold, hm, by simpa [hj] using hexch⟩
  all_goals simp

/-- The file changes and keeps the sign-in. -/
theorem Once.rewrite (h : Once name s)
    (hsto : ({ s with file } : State).stored name = s.stored name) :
    Once name { s with file } := by
  have htok : ({ s with file } : State).token name = s.token name := by
    rw [token_eq, token_eq, hsto]
  constructor
  case fresh => exact h.fresh
  case issued => exact h.issued
  case holder => exact h.holder
  case token => exact fun r hr => h.token r (htok ▸ hr)
  case unused => exact fun r hr => h.unused r (htok ▸ hr)
  case current =>
    intro id job p hj hp
    obtain ⟨hsgn, hp⟩ := h.current id job p hj hp
    exact ⟨hsgn, hsto.trans hp⟩
  case brings =>
    intro id job r hj hr
    rw [htok]
    exact h.brings id job r hj hr
  case distinct => exact h.distinct
  case named => exact h.named

/-- A signed-in profile has a refresh token. -/
theorem refreshToken_of_signedIn (h : p.signedIn = true) :
    p.refreshToken = some (p.refreshToken.getD "") := by
  simp only [Profile.signedIn, Bool.and_eq_true, isSome_iff_exists] at h
  obtain ⟨⟨-, t, ht⟩, -⟩ := h
  simp [Profile.refreshToken, ht]

section

variable (h : Once name s)
include h

/-- What a job presents is the stored token, and was not used. -/
theorem Once.present (hj : s.jobs id = some (.present current)) :
    s.token name = some (current.refreshToken.getD "") ∧
      current.refreshToken.getD "" ∉ s.exchanged := by
  obtain ⟨hsgn, hsto⟩ := h.current id _ current hj rfl
  have htok : s.token name = some (current.refreshToken.getD "") := by
    rw [token_eq, hsto]
    exact refreshToken_of_signedIn hsgn
  exact ⟨htok, h.not_mem_exchanged hj rfl rfl htok⟩

/-- Silicon Accounts exchanges the stored token for a new one. -/
theorem Once.exchange (hj : s.jobs id = some (.present current))
    (hnew : session.refreshToken ∉ s.issued) :
    Once name { s.goTo id (.store current (.session session)) with
      issued := s.issued ++ [session.refreshToken]
      exchanged := s.exchanged ++ [current.refreshToken.getD ""] } := by
  suffices hmove : Move name s _ id (some (.store current (.session session))) from h.move hmove
  constructor
  case jobs => rfl
  case fresh => exact ⟨Nat.le_refl _, h.lt_fresh hj⟩
  case issued => exact subset_append_left _ _
  case exchanged =>
    intro r hr
    rcases mem_append.mp hr with hr | hr
    · exact .inl hr
    · rw [mem_singleton.mp hr]
      exact .inr (h.present hj).1
  case lock => exact fun _ _ hl _ => hl
  case token => exact fun r hr => .inl hr
  case stored => exact .inl rfl
  case unused => exact fun r _ _ => .inl ⟨_, rfl, rfl⟩
  case locked => exact fun _ _ _ => h.holder id _ hj rfl
  case current =>
    intro job p he hp
    cases he
    cases hp
    exact h.current id _ current hj rfl
  case brings =>
    intro job r he hr
    cases he
    cases hr
    exact ⟨mem_append_right _ (mem_singleton_self _), .inl hnew⟩
  case named => simp

/-! ### Every step -/

/-- A call that ends without having exchanged a token leaves the file. -/
theorem Once.giveUp (hj : s.jobs id = some job) (hexch : job.exchanging = false) :
    Once name (s.finish id) := by
  have hsame : ∀ r, ({ s with file := s.file } : State).token name = some r →
      job.brings = some r ∨ s.token name = some r ∧ job.exchanging = false :=
    fun r hr => .inr ⟨hr, hexch⟩
  exact h.finish hj (.inr rfl) hsame

/-- A call goes on without the lock changing hands. -/
theorem Once.advance (hj : s.jobs id = some job) (hlk : job'.locked = true → job.locked = true)
    (hbr : job'.brings = none)
    (hcur : ∀ p, job'.current = some p → p.signedIn = true ∧ s.stored name = some (signInOf p))
    (hexch : job.exchanging = false) :
    Once name (s.goTo id job') := by
  have hlock : job'.locked = true → s.lock = some id := fun hl =>
    h.holder id job hj (hlk hl)
  refine h.goTo hj hlock (fun _ hl => hl) (fun r hr => ?_) hcur hexch fun x hx => ?_
  · rw [hbr] at hr
    cases hr
  · rcases hx with rfl | rfl <;> cases hbr

/-- A call takes the free lock. -/
theorem Once.acquire (hj : s.jobs id = some job) (hs : s.acquire id job' = some s')
    (hbr : ∀ r, job'.brings = some r → job.brings = some r) (hcur : job'.current = none)
    (hexch : job.exchanging = false)
    (hnamed : ∀ x, job' = .signIn x ∨ job' = .save x → x.target.profile = name) : Once name s' := by
  unfold State.acquire at hs
  split at hs <;> cases hs
  next hfree =>
    refine h.goTo hj (fun _ => rfl) (fun id' hl => ?_) hbr (fun p hp => ?_) hexch hnamed
    · rw [hl] at hfree
      cases hfree
    · rw [hcur] at hp
      cases hp

theorem Once.answer {answer : Answer} (hj : s.jobs id = some (.present current))
    (hs : s.answer id current answer = some s') (hread : ∀ message, answer ≠ .unreadable message) :
    Once name s' := by
  have hcur := h.current id _ current hj rfl
  cases answer with
  | session session =>
    simp only [State.answer] at hs
    split at hs <;> cases hs
    next hnew => exact h.exchange hj hnew.2
  | unreadable message => exact absurd rfl (hread message)
  | refused | failed =>
    cases hs
    refine h.advance hj (fun _ => rfl) rfl (fun p hp => ?_) rfl
    cases hp
    exact hcur

theorem Once.store {answer : Answer} {now : Nat} {written : Bool}
    (hj : s.jobs id = some (.store current answer))
    (hstores : ∀ session, answer = .session session →
      written = true ∧ refreshAccepted current session = true) :
    Once name ((s.storeAnswer (sessionKey name) current now written answer).finish id) := by
  obtain ⟨-, hsto⟩ := h.current id _ current hj rfl
  cases answer with
  | session session =>
    obtain ⟨rfl, hacc⟩ := hstores session rfl
    simp only [State.storeAnswer, hacc, if_true]
    refine h.finish hj (.inl rfl) fun r hr => .inl ?_
    exact (token_applyRefresh hsto).symm.trans hr
  | refused message =>
    cases written with
    | false => exact h.giveUp hj rfl
    | true =>
      refine h.finish hj (.inl rfl) fun r hr => .inr ⟨?_, rfl⟩
      exact token_modify_clear (refreshToken_endRefresh current · _) hr
  | unreadable | failed => exact h.giveUp hj rfl

theorem Once.step {l : Label} (hc : stores s l = true) (hs : s.step name l = some s') :
    Once name s' := by
  cases l <;> simp only [State.step] at hs
  case freshProfile margin =>
    cases hs
    exact h.start rfl (List.Subset.refl _) (by simp [Job.brings]) (by simp)
  case signIn x =>
    split at hs <;> cases hs
    next hx =>
      refine h.start rfl (subset_append_left _ _) (fun r hr => ?_) (fun y hy => ?_)
      · cases hr
        exact ⟨mem_append_right _ (mem_singleton_self _), hx.2⟩
      · rcases hy with hy | hy <;> cases hy
        exact hx.1
  case logout =>
    cases hs
    exact h.start rfl (List.Subset.refl _) (by simp [Job.brings]) (by simp)
  case load id now =>
    split at hs
    next margin hj =>
      split at hs
      next profile _ =>
        split at hs <;> cases hs
        · exact h.giveUp hj rfl
        · exact h.advance hj (by simp [Job.locked]) rfl (by simp [Job.current]) rfl
      next =>
        cases hs
        exact h.giveUp hj rfl
    next => cases hs
  case acquire id =>
    split at hs
    next margin profile hj => exact h.acquire hj hs (by simp [Job.brings]) rfl rfl (by simp)
    next x hj =>
      refine h.acquire hj hs (fun _ hr => hr) rfl rfl fun y hy => ?_
      rcases hy with hy | hy <;> cases hy
      exact h.named id x (.inl hj)
    next hj => exact h.acquire hj hs (by simp [Job.brings]) rfl rfl (by simp)
    next => cases hs
  case decide id now =>
    split at hs
    next margin profile hj =>
      split at hs
      next current hcur =>
        split at hs <;> cases hs
        · exact h.giveUp hj rfl
        · refine h.advance hj (fun _ => rfl) rfl (fun p hp => ?_) rfl
          cases hp
          obtain ⟨hsto, hsgn⟩ := filter_eq_some_iff.mp hcur
          exact ⟨hsgn, by simp [State.stored, hsto]⟩
      next =>
        cases hs
        exact h.giveUp hj rfl
    next => cases hs
  case answer id answer =>
    split at hs
    next current hj =>
      refine h.answer hj hs fun message he => ?_
      simp [stores, he] at hc
    next => cases hs
  case store id now written =>
    split at hs
    next current answer hj =>
      cases hs
      refine h.store hj fun session he => ?_
      simpa [stores, hj, he] using hc
    next => cases hs
  case save id pending now written =>
    split at hs
    next x hj =>
      split at hs <;> cases hs
      next config effect hok =>
        cases written with
        | false => exact h.giveUp hj rfl
        | true =>
          refine h.finish hj (.inl rfl) fun r hr => .inl ?_
          exact (token_saveSignIn (h.named id x (.inr hj)) hok).symm.trans hr
      next => exact h.giveUp hj rfl
    next => cases hs
  case revoke id =>
    split at hs
    next hj =>
      split at hs <;> cases hs
      · exact h.advance hj (fun _ => rfl) rfl (by simp [Job.current]) rfl
      · exact h.giveUp hj rfl
    next => cases hs
  case forget id written =>
    split at hs
    next refresh hj =>
      cases hs
      cases written with
      | false => exact h.giveUp hj rfl
      | true =>
        refine h.finish hj (.inl rfl) fun r hr => .inr ⟨?_, rfl⟩
        exact token_modify_clear (refreshToken_logout · refresh) hr
    next => cases hs
  case refused attempted =>
    cases hs
    exact h.rewrite (stored_modify (signInOf_expireToken · (some attempted)))
  case confirm uuid account displayName custodian =>
    cases hs
    exact h.rewrite (stored_modify (signInOf_confirm · uuid account displayName custodian))
  case giveUp id =>
    split at hs
    next => cases hs
    next => cases hs
    next _ job hn hj =>
      cases hs
      refine h.giveUp hj ?_
      cases job with
      | store current answer => exact absurd rfl (hn current answer)
      | _ => rfl

end

theorem once_of_reachable
    (h : (calls name).ReachableWhile (fun s l => stores s l = true) s) : Once name s := by
  apply h.invariant
  · rintro s ⟨-, hjobs, hiss, htok⟩
    constructor
    case issued => exact hiss
    case token => exact fun r hr => (htok r hr).1
    case unused => exact fun r hr hm => absurd hm (htok r hr).2
    all_goals simp [hjobs]
  · intro s l s' hs hc hstep
    exact hs.step hc hstep

/-- A token that Silicon Accounts has exchanged is never presented again, in every run in which
each exchange ends with its session in the file; and a refusal expires the access token that was
attempted, in every state, and changes no profile with another one. -/
theorem refresh_token_used_once (name : String) :
    (∀ s, (calls name).ReachableWhile (fun s l => stores s l = true) s →
      ∀ id answer s', (calls name).step s (.answer id answer) = some s' →
        ∃ r, s.presents id = some r ∧ r ∉ s.exchanged) ∧
    ∀ s attempted, ∃ s', (calls name).step s (.refused attempted) = some s' ∧
      s'.file.contents.profiles (sessionKey name) =
        (s.file.contents.profiles (sessionKey name)).map fun p =>
          if p.accessToken = some attempted then { p with expiresAt := 0 } else p := by
  constructor
  · intro s hs id answer s' hstep
    have honce := once_of_reachable hs
    have hstep : s.step name (.answer id answer) = some s' := hstep
    simp only [State.step] at hstep
    split at hstep
    next current hjob =>
      exact ⟨_, by simp [State.presents, hjob], (honce.present hjob).2⟩
    next => cases hstep
  · intro s attempted
    refine ⟨_, rfl, ?_⟩
    simp [State.update, Config.modify, Profile.expireToken]

/-! ### Concrete runs -/

def accountOf (uuid : String) : ProfileAccount :=
  ⟨uuid, .carbon, "c:" ++ uuid, none, none⟩

/-- The `n`-th session that Silicon Accounts gives an account. -/
def sessionOf (uuid : String) (n : Nat) : Session :=
  ⟨s!"access-{n}", s!"refresh-{n}", 1800, 1000 * n, none, none, some (accountOf uuid)⟩

/-- Ada's profile, with a session that has expired. -/
def adaProfile : Profile :=
  { (Profile.new "default" "https://dm" "https://accounts" "dm" "device").applySession
      (sessionOf "ada" 0) with account := some (accountOf "ada") }

def adaStart : State where
  file := .readable (Config.default.insert (sessionKey "default") adaProfile)
  lock := none
  jobs := fun _ => none
  fresh := 0
  issued := ["refresh-0"]
  exchanged := []

theorem adaStart_init : (calls "default").init adaStart := by
  refine ⟨rfl, fun _ => rfl, by simp [adaStart], ?_⟩
  intro r hr
  obtain rfl : "refresh-0" = r := Option.some.inj hr
  simp [adaStart]

/-- A call of `fresh_profile` at a time, up to the answer. -/
def refreshing (id now : Nat) : List Label :=
  [.freshProfile 60, .load id now, .acquire id, .decide id now]

/-- Of two calls one refreshes; its token is refused early, and a third call refreshes. -/
def twoRefreshes : List Label :=
  [.freshProfile 60, .load 0 500] ++ refreshing 1 500 ++
    [.answer 1 (.session (sessionOf "ada" 1)), .refused "access-0", .store 1 500 true, .acquire 0,
      .decide 0 500, .refused "access-1"] ++ refreshing 2 600

theorem refresh_token_used_once_twice : ∃ s s',
    (calls "default").ReachableWhile (fun s l => stores s l = true) s ∧
      (calls "default").step s (.answer 2 (.session (sessionOf "ada" 2))) = some s' ∧
      ∃ r, s.presents 2 = some r ∧ r ∉ s.exchanged := by
  have hs := Base.System.reachableWhile_get (C := fun s l => stores s l = true) twoRefreshes
    adaStart_init (by decide +kernel)
  exact ⟨_, _, hs, (Option.some_get (by decide +kernel)).symm,
    (refresh_token_used_once "default").1 _ hs 2 (.session (sessionOf "ada" 2)) _
      (Option.some_get (by decide +kernel)).symm⟩

/-- The answer to a used token. -/
def alreadyUsed : Answer :=
  .refused "The refresh token was already used."

/-- After a run the second call presents a token that was exchanged. -/
def Reused (ls : List Label) : Prop :=
  (calls "default").init adaStart ∧ ∃ s s' r, (calls "default").run adaStart ls = some s ∧
    (calls "default").step s (.answer 1 alreadyUsed) = some s' ∧ s.presents 1 = some r ∧
    r ∈ s.exchanged

theorem reused_of_run {ls : List Label}
    (h : ((calls "default").run adaStart ls).any (fun s => (s.presents 1).any (· ∈ s.exchanged)) =
      true) : Reused ls := by
  simp only [Option.any_eq_true, decide_eq_true_eq] at h
  obtain ⟨s, hrun, r, hr, hm⟩ := h
  have hpresents := hr
  unfold State.presents at hr
  split at hr
  next current hj =>
    have hstep : s.step "default" (.answer 1 alreadyUsed) =
        some (s.goTo 1 (.store current alreadyUsed)) := by
      simp only [State.step, hj]
      rfl
    exact ⟨adaStart_init, s, _, r, hrun, hstep, hpresents, hm⟩
  next => cases hr

/-- Silicon Accounts answers a refresh for another account, without a refresh token, or the new
session cannot be written: the exchanged token stays in the profile and is presented again. -/
theorem exchanged_token_presented_again :
    Reused (refreshing 0 500 ++ [.answer 0 (.session (sessionOf "eve" 1)), .store 0 500 true] ++
      refreshing 1 600) ∧
    Reused (refreshing 0 500 ++ [.answer 0 (.unreadable "Silicon Accounts returned no refresh token"),
      .store 0 500 true] ++ refreshing 1 600) ∧
    Reused (refreshing 0 500 ++ [.answer 0 (.session (sessionOf "ada" 1)), .store 0 500 false] ++
      refreshing 1 600) :=
  ⟨reused_of_run (by decide +kernel), reused_of_run (by decide +kernel),
    reused_of_run (by decide +kernel)⟩

end Refresh

end SiliconDm.Client
