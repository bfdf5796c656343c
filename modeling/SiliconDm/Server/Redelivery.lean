import SiliconDm.Server.Custody
import SiliconDm.Server.SignOut

/-!
# Each event takes effect once

A delivery is looked up, applied and recorded in separate steps, so a repeated, concurrent or
crash-replayed delivery may apply an event again. Compared are the server and a reference in
which a store call that was applied before is passed over. Most store calls carry a guard that
refuses their repetition; the deletions of proofs and of an account's profile carry none.
Source: `src/api/webhook.rs:29–166`, `src/infrastructure/postgres/accounts.rs:274–431,490–611`.
-/

namespace SiliconDm.Server

open Base List Option

/-! ### The reference -/

def appliedBefore (log : List Entry) (eventId : String) (index : Nat) : Bool :=
  log.any fun
    | .applied event index' _ => event.eventId = eventId && index' = index
    | _ => false

/-- A store call that was applied before is passed over; all else is as it is. -/
def Service.stepOnce (s : Service) : Label → Option Service
  | .advance id a =>
    match s.job id with
    | some (.apply event occurredAt done (effect :: rest)) =>
      if appliedBefore s.log event.eventId done then
        some { s with
          jobs := s.replace id (some (.apply event occurredAt (done + 1) rest))
          log := s.log ++ [.applied event done effect] }
      else s.step (.advance id a)
    | _ => s.step (.advance id a)
  | l => s.step l

/-- All runs in which each event is applied once. -/
def identityOnce (initial : Directory → Prop) : System Service Label where
  init := (identity initial).init
  step := Service.stepOnce

/-! ### What an applied store call leaves -/

/-- What a store call leaves in the accounts, and no later step takes back. -/
def Effect.Kept (accounts : List Account) : Effect → Prop
  | .idChange e => validPublicId e.newId = true ∧ e.proposed.violated = none ∧
    ∃ a, account accounts e.uuid = some a ∧
      (a.status = .deleted ∨ ∃ t ∈ a.idChangedAt, e.occurredAt ≤ t)
  | .profile found version _ => (found.profile version).violated = none ∧
    ∃ a, account accounts found.uuid = some a ∧
      (a.status = .deleted ∨ version.toNat ≤ a.profileVersion)
  | .custodian silicon owner t => (custodianRow owner).violated = none ∧
    ((Account.new silicon .silicon).withCustodian owner.1 t).violated = none ∧
    (account accounts owner.1).isSome ∧
    ∃ a, account accounts silicon = some a ∧
      (a.kind ≠ .silicon ∨ ∃ t' ∈ a.custodianChangedAt, t ≤ t')
  | .revoke u t => ∃ a, account accounts u = some a ∧ ∃ t' ∈ a.revokedBefore, t ≤ t'
  | .endProofs _ _ => True
  | .delete u t => ∃ a, account accounts u = some a ∧ a.status = .deleted ∧
    a.deletedAt.isSome ∧ ∃ t' ∈ a.revokedBefore, t ≤ t'

variable {effect : Effect} {accepts : Account → Bool} {update : Account → Account}
  {applied : Applied} {d : Directory} {event : VerifiedEvent} {t done id : Nat} {rest : List Effect}
  {events : List VerifiedEvent} {s s' : Service} {l : Label}

variable {x y : List Account} {a : Answer}

theorem Effect.Kept.later (h : effect.Kept x) (hl : LaterRows x y) :
    effect.Kept y := by
  cases effect with
  | idChange e =>
    obtain ⟨hid, hval, a, ha, hr⟩ := h
    obtain ⟨a', ha', later⟩ := hl _ a ha
    refine ⟨hid, hval, a', ha', ?_⟩
    cases hr with
    | inl hd => exact .inl (later.deleted hd)
    | inr ht =>
      obtain ⟨t, ht, hle⟩ := ht
      obtain ⟨t', ht', hle'⟩ := later.idChanged t ht
      exact .inr ⟨t', ht', Nat.le_trans hle hle'⟩
  | profile found version occurredAt =>
    obtain ⟨hval, a, ha, hr⟩ := h
    obtain ⟨a', ha', later⟩ := hl _ a ha
    refine ⟨hval, a', ha', ?_⟩
    cases hr with
    | inl hd => exact .inl (later.deleted hd)
    | inr hv => exact .inr (Nat.le_trans hv later.version)
  | custodian silicon owner t =>
    obtain ⟨how, hval, hsome, a, ha, hr⟩ := h
    obtain ⟨b, hb⟩ := isSome_iff_exists.mp hsome
    obtain ⟨b', hb', -⟩ := hl _ b hb
    obtain ⟨a', ha', later⟩ := hl _ a ha
    refine ⟨how, hval, by simp [hb'], a', ha', ?_⟩
    cases hr with
    | inl hk => exact .inl (later.kind ▸ hk)
    | inr ht =>
      obtain ⟨t', ht', hle⟩ := ht
      obtain ⟨t'', ht'', hle'⟩ := later.custodianChanged t' ht'
      exact .inr ⟨t'', ht'', Nat.le_trans hle hle'⟩
  | revoke u t =>
    obtain ⟨a, ha, t', ht', hle⟩ := h
    obtain ⟨a', ha', later⟩ := hl _ a ha
    obtain ⟨t'', ht'', hle'⟩ := later.revoked t' ht'
    exact ⟨a', ha', t'', ht'', Nat.le_trans hle hle'⟩
  | endProofs u t => trivial
  | delete u t =>
    obtain ⟨a, ha, hd, hat, t', ht', hle⟩ := h
    obtain ⟨a', ha', later⟩ := hl _ a ha
    obtain ⟨t'', ht'', hle'⟩ := later.revoked t' ht'
    exact ⟨a', ha', later.deleted hd, later.dated hat, t'', ht'', Nat.le_trans hle hle'⟩

/-- The row of a guarded upsert, once it ran: it fails the guard. -/
theorem row_of_guardedUpsert {proposed : Account}
    (h : guardedUpsert x proposed accepts update = .ok (y, applied))
    (hu : ∀ a, (update a).uuid = a.uuid) (hnew : accepts proposed = false)
    (hupd : ∀ a, accepts (update a) = false) :
    proposed.violated = none ∧
      ∃ a, account y proposed.uuid = some a ∧ accepts a = false := by
  obtain ⟨hval, ⟨a, ha, hno, rfl, -⟩ | ⟨-, rfl, -⟩⟩ := guardedUpsert_eq_ok h
  · exact ⟨hval, a, ha, hno⟩
  · refine ⟨hval, _, account_upsert_self rfl hu, ?_⟩
    cases account x proposed.uuid with
    | none => exact hnew
    | some a => exact hupd a

theorem kept_applyIdChange {e : IdChanged} (h : applyIdChange x e = .ok (y, applied)) :
    (Effect.idChange e).Kept y := by
  have hval : validPublicId e.newId = true ∧ e.proposed.violated = none := by
    unfold applyIdChange at h
    split at h
    · cases h
    case isFalse hid =>
      obtain ⟨_, hok, -⟩ := bind_eq_ok.mp h
      exact ⟨by simpa using hid, (guardedUpsert_eq_ok hok).1⟩
  refine ⟨hval.1, hval.2, ?_⟩
  obtain ⟨a, ha, hno, rfl, -⟩ | ⟨-, rfl⟩ := applyIdChange_eq_ok h
  · refine ⟨a, ha, ?_⟩
    cases hs : a.status with
    | deleted => exact .inl rfl
    | active =>
      right
      simp only [acceptsIdChange, hs, decide_true, Bool.true_and, Option.all_eq_false,
        decide_eq_false_iff_not, Nat.not_lt] at hno
      exact hno
  · refine ⟨_, (account_idChanged x e e.uuid).trans (if_pos rfl), .inr ⟨e.occurredAt, ?_,
      Nat.le_refl _⟩⟩
    cases account x e.uuid <;> rfl

/-- The first application finds what it writes to. A cutoff needs the account's row; the other
store calls make sure of theirs. -/
def Effect.lands (d : Directory) : Effect → Bool
  | .revoke u _ => (account d.accounts u).isSome
  | _ => true

theorem Effect.kept_of_apply {d' : Directory} (h : effect.apply d = .ok d')
    (hl : effect.lands d = true) : effect.Kept d'.accounts := by
  have hw := Effect.writes h
  generalize d'.accounts = y at hw
  cases hw with
  | idChange ok => exact kept_applyIdChange ok
  | profile ok =>
    obtain ⟨hval, a, ha, hno⟩ := row_of_guardedUpsert ok (fun _ => rfl) (by simp) (by simp)
    refine ⟨hval, a, ha, ?_⟩
    cases hs : a.status with
    | deleted => exact .inl rfl
    | active =>
      right
      simpa [hs, AccountLookup.profile] using hno
  | custodian ok =>
    obtain ⟨how, hok⟩ := applyCustodianChange_eq_ok ok
    obtain ⟨hval, a, ha, hno⟩ := row_of_guardedUpsert hok (fun _ => rfl)
      (by simp [Account.withCustodian]) (by simp [Account.withCustodian])
    -- the new custodian's row was made sure of first
    obtain ⟨b, hb, -⟩ := laterRows_guardedUpsert hok (fun _ => rfl)
      (fun a ha => later_withCustodian ha) _ _ (account_upsert_self rfl fun _ => rfl)
    refine ⟨how, hval, by simp [hb], a, ha, ?_⟩
    by_cases hk : a.kind = .silicon
    · right
      simp only [hk, decide_true, Bool.true_and, Option.all_eq_false, decide_eq_false_iff_not,
        Nat.not_lt] at hno
      exact hno
    · exact .inl hk
  | revoke =>
    obtain ⟨a, ha⟩ := isSome_iff_exists.mp hl
    exact revokedBefore_revoke ha
  | endProofs => trivial
  | @delete u t =>
    refine ⟨_, account_upsert_self rfl fun _ => rfl, ?_⟩
    cases account d.accounts u with
    | none => exact ⟨rfl, rfl, t, rfl, Nat.le_refl t⟩
    | some a => exact ⟨rfl, rfl, _, rfl, Nat.le_max_right _ t⟩

/-- What the repetition of an unguarded store call would take away is not there. -/
def Effect.quiet (d : Directory) : Effect → Bool
  | .endProofs u _ => d.grants.all (·.actor.id ≠ u) && d.enrolments.all (·.actor.id ≠ u)
  | .delete u _ =>
    d.grants.all (·.actor.id ≠ u) && d.enrolments.all (·.actor.id ≠ u) &&
      (account d.accounts u).all fun a =>
        a.currentId.isNone && a.displayName.isNone && a.pfpUrl.isNone
  | _ => true

theorem endStoredProofs_eq_self {u : String} (hg : d.grants.all (·.actor.id ≠ u) = true)
    (he : d.enrolments.all (·.actor.id ≠ u) = true) : d.endStoredProofs u = d := by
  unfold Directory.endStoredProofs
  rw [filter_eq_self.mpr (List.all_eq_true.mp hg),
    filter_eq_self.mpr (List.all_eq_true.mp he)]

theorem guardedUpsert_stale {proposed a : Account} (hval : proposed.violated = none)
    (ha : account x proposed.uuid = some a) (hno : accepts a = false) :
    guardedUpsert x proposed accepts update = .ok (x, .stale) := by
  unfold guardedUpsert
  rw [hval, ha]
  simp [hno]

/-- The repetition of a store call changes nothing. -/
theorem Effect.Kept.repeated (h : effect.Kept d.accounts) (hk : Keyed Account.uuid d.accounts)
    (hq : effect.quiet d = true) : effect.apply d = .ok d := by
  cases effect with
  | idChange e =>
    obtain ⟨hid, hval, a, ha, hrow⟩ := h
    have hno : acceptsIdChange a e.occurredAt = false := by
      cases hrow with
      | inl hd => simp [acceptsIdChange, hd]
      | inr ht =>
        obtain ⟨t, ht, hle⟩ := ht
        simp [acceptsIdChange, mem_def.mp ht, hle]
    have happ : applyIdChange d.accounts e = .ok (d.accounts, .stale) := by
      unfold applyIdChange
      rw [hid]
      exact bind_eq_ok.mpr ⟨_, guardedUpsert_stale hval ha hno, rfl⟩
    exact bind_eq_ok.mpr ⟨_, happ, rfl⟩
  | profile found version occurredAt =>
    obtain ⟨hval, a, ha, hrow⟩ := h
    refine bind_eq_ok.mpr ⟨_, guardedUpsert_stale hval ha ?_, rfl⟩
    cases hrow with
    | inl hd => simp [hd]
    | inr hv =>
      have hn : ¬ a.profileVersion < (found.profile version).profileVersion :=
        Nat.not_lt.mpr hv
      simp [hn]
  | custodian silicon owner t =>
    obtain ⟨how, hval, hsome, a, ha, hrow⟩ := h
    obtain ⟨b, hb⟩ := isSome_iff_exists.mp hsome
    refine bind_eq_ok.mpr ⟨(d.accounts, .stale), ?_, rfl⟩
    unfold applyCustodianChange
    rw [how, hk.upsert_eq_self hb rfl]
    refine guardedUpsert_stale hval ha ?_
    cases hrow with
    | inl hkind => simp [hkind]
    | inr ht =>
      obtain ⟨t', ht', hle⟩ := ht
      simp [mem_def.mp ht', hle]
  | revoke u t =>
    obtain ⟨a, ha, t', ht', hle⟩ := h
    have hsame : revokeSessionsBefore d.accounts u t = d.accounts := by
      unfold revokeSessionsBefore
      conv_rhs => rw [← List.map_id d.accounts]
      apply map_congr_left
      intro r hr
      by_cases hu : r.uuid = u
      · obtain ⟨hm, hkey⟩ := mem_of_getRow_eq_some ha
        obtain rfl : r = a := hk.unique hr hm (hu.trans hkey.symm)
        have hn : ¬ t' < t := by omega
        simp [mem_def.mp ht', hn]
      · simp [hu]
    simp [Effect.apply, hsame]
  | endProofs u t =>
    simp only [Effect.quiet, Bool.and_eq_true] at hq
    simp [Effect.apply, endStoredProofs_eq_self hq.1 hq.2]
  | delete u t =>
    obtain ⟨a, ha, hd, hat, t', ht', hle⟩ := h
    simp only [Effect.quiet, Bool.and_eq_true, ha, all_some, isNone_iff_eq_none] at hq
    obtain ⟨⟨hg, he⟩, ⟨hid, hname⟩, hphoto⟩ := hq
    obtain ⟨deletedAt, hat⟩ := isSome_iff_exists.mp hat
    have hsame : markDeleted d.accounts u t = d.accounts := by
      refine hk.upsert_eq_self ha ?_
      have hmax : max t' t = t' := by omega
      cases a
      simp_all
    simp [Effect.apply, endStoredProofs_eq_self hg he, hsame]

/-! ### The condition -/

/-- Deliveries are of the given events. -/
def deliversFrom (events : List VerifiedEvent) : Label → Bool
  | .start _ (.deliver event) => event ∈ events
  | _ => true

/-- Delivered events have a time; the first application of a store call lands, and a repetition
is quiet. -/
def repeatsQuietly (s : Service) : Label → Bool
  | .start _ (.deliver event) => event.occurredAt.isSome
  | .advance id _ =>
    match s.job id with
    | some (.apply event _ done (effect :: _)) =>
      if appliedBefore s.log event.eventId done then effect.quiet s.directory
      else effect.lands s.directory
    | _ => true
  | _ => true

/-! ### The invariant -/

def CallOf (events : List VerifiedEvent) (eventId : String) (index : Nat) (effect : Effect) :
    Prop :=
  ∃ event ∈ events, event.eventId = eventId ∧
    ∃ t, event.occurredAt = some t ∧ (event.event.effects t)[index]? = some effect

def UniqueIds (events : List VerifiedEvent) : Prop :=
  ∀ e ∈ events, ∀ e' ∈ events, e.eventId = e'.eventId → e = e'

theorem CallOf.unique (hids : UniqueIds events) {eventId : String} {index : Nat} {effect' : Effect}
    (h : CallOf events eventId index effect) (h' : CallOf events eventId index effect') :
    effect = effect' := by
  obtain ⟨event, hm, rfl, t, ht, hcall⟩ := h
  obtain ⟨event', hm', hid, t', ht', hcall'⟩ := h'
  obtain rfl := hids event' hm' event hm hid
  obtain rfl : t = t' := Option.some.inj (ht.symm.trans ht')
  exact Option.some.inj (hcall.symm.trans hcall')

structure AppliedOnce (events : List VerifiedEvent) (s : Service) : Prop where
  keyed : Keyed Account.uuid s.directory.accounts
  delivered : ∀ id event, (id, .receive event) ∈ s.jobs → event ∈ events ∧
    event.occurredAt.isSome
  applying : ∀ id event t done rest, (id, .apply event t done rest) ∈ s.jobs →
    event ∈ events ∧ event.occurredAt = some t ∧ (event.event.effects t).drop done = rest
  applied : ∀ event index effect, .applied event index effect ∈ s.log →
    CallOf events event.eventId index effect ∧ effect.Kept s.directory.accounts

/-- The store call that a handler makes next. -/
theorem AppliedOnce.callOf (h : AppliedOnce events s)
    (hj : s.job id = some (.apply event t done (effect :: rest))) :
    CallOf events event.eventId done effect := by
  obtain ⟨hm, ht, hdrop⟩ := h.applying _ _ _ _ _ (mem_of_job hj)
  refine ⟨event, hm, rfl, t, ht, ?_⟩
  rw [← head?_drop, hdrop]
  rfl

section

variable (hids : UniqueIds events)
include hids

/-- What a repeated store call finds. -/
theorem AppliedOnce.kept (h : AppliedOnce events s)
    (hj : s.job id = some (.apply event t done (effect :: rest)))
    (hb : appliedBefore s.log event.eventId done = true) : effect.Kept s.directory.accounts := by
  obtain ⟨entry, hm, hent⟩ := List.any_eq_true.mp hb
  cases entry with
  | applied event' index' effect' =>
    simp only [Bool.and_eq_true, decide_eq_true_eq] at hent
    obtain ⟨hid, rfl⟩ := hent
    obtain ⟨hcall, hkept⟩ := h.applied _ _ _ hm
    rw [hid] at hcall
    obtain rfl := (h.callOf hj).unique hids hcall
    exact hkept
  | handled | looked | admitted => cases hent

/-- A store call that was applied before is a step without effect. -/
theorem AppliedOnce.repeated (h : AppliedOnce events s)
    (hj : s.job id = some (.apply event t done (effect :: rest)))
    (hb : appliedBefore s.log event.eventId done = true)
    (hc : repeatsQuietly s (.advance id a) = true) :
    effect.apply s.directory = .ok s.directory := by
  apply (h.kept hids hj hb).repeated h.keyed
  simpa only [repeatsQuietly, hj, hb, if_true] using hc

theorem AppliedOnce.step_applied (h : AppliedOnce events s) (hc : repeatsQuietly s l = true)
    (hs : s.step l = some s') (event : VerifiedEvent) (index : Nat)
    (effect : Effect) (hm : .applied event index effect ∈ s'.log) :
    CallOf events event.eventId index effect ∧ effect.Kept s'.directory.accounts := by
  obtain ⟨entries, hlog, hw⟩ := wrote_of_step hs
  have hlat := hw.laterRows
  rw [hlog] at hm
  cases mem_append.mp hm with
  | inl hm =>
    obtain ⟨hcall, hkept⟩ := h.applied _ _ _ hm
    exact ⟨hcall, hkept.later hlat⟩
  | inr hm =>
    generalize s'.directory.accounts = accounts at hw hlat
    cases hw with
    | @applied _ _ event _ _ _ _ _ job ok =>
      cases mem_singleton.mp hm
      refine ⟨h.callOf job, ?_⟩
      by_cases hb : appliedBefore s.log event.eventId index = true
      · exact (h.kept hids job hb).later hlat
      · apply Effect.kept_of_apply ok
        simpa only [repeatsQuietly, job, hb, Bool.false_eq_true, if_false] using hc
    | handled | admitted | looked => cases mem_singleton.mp hm
    | authenticated | memberProfile | silent => cases hm

theorem AppliedOnce.step (h : AppliedOnce events s) (hd : deliversFrom events l = true)
    (hc : repeatsQuietly s l = true) (hs : s.step l = some s') :
    AppliedOnce events s' where
  keyed := by
    obtain ⟨entries, -, hw⟩ := wrote_of_step hs
    exact hw.keyed h.keyed
  delivered id event hj := by
    obtain hj | ⟨what, rfl, he⟩ | ⟨a, before, rfl, hb, hjob⟩ := job_of_step hs hj
    · exact h.delivered id event hj
    · cases what with
      | deliver event' =>
        cases he
        exact ⟨by simpa [deliversFrom] using hd, hc⟩
      | request | reenrol => cases he
    · cases next_of_advance hjob
  applying id event t done rest hj := by
    obtain hj | ⟨what, rfl, he⟩ | ⟨a, before, rfl, hb, hjob⟩ := job_of_step hs hj
    · exact h.applying id event t done rest hj
    · cases what <;> cases he
    · obtain hreceive | happ := apply_of_advance hjob
      · obtain ⟨rfl, rfl, rfl, rfl⟩ := hreceive
        obtain ⟨hm, hsome⟩ := h.delivered id event (mem_of_job hb)
        obtain ⟨t, ht⟩ := isSome_iff_exists.mp hsome
        exact ⟨hm, by simp [ht], rfl⟩
      · obtain ⟨earlier, effect, rfl, rfl⟩ := happ
        obtain ⟨hm, ht, hdrop⟩ := h.applying id event t earlier _ (mem_of_job hb)
        refine ⟨hm, ht, ?_⟩
        rw [← drop_drop, hdrop]
        rfl
  applied := h.step_applied hids hc hs

/-- Under the condition the reference takes the same steps. -/
theorem AppliedOnce.stepOnce_eq (h : AppliedOnce events s) (hc : repeatsQuietly s l = true) :
    s.stepOnce l = s.step l := by
  cases l with
  | advance id a =>
    simp only [Service.stepOnce]
    split
    case h_1 event t done effect rest hj =>
      split
      case isTrue hb =>
        have hsame := h.repeated hids hj hb hc
        simp [Service.step, hj, Job.advance, applyStep, hsame]
      case isFalse => rfl
    case h_2 => rfl
  | start | drop | lookup | memberProfile => rfl

end

/-! ### Results -/

def KeyedAccounts (d : Directory) : Prop :=
  Keyed Account.uuid d.accounts

/-- Every run that delivers the given events, each under its own id, any number of times, with
crashes anywhere and anything in between, and that meets the condition, ends in the state of the
run in which each event is applied once. -/
theorem redelivery_without_effect {events : List VerifiedEvent} (hids : UniqueIds events)
    {s₀ s : Service} {ls : List Label} (hi : (identity KeyedAccounts).init s₀)
    (hrun : ((identity KeyedAccounts).guard fun s l =>
      deliversFrom events l && repeatsQuietly s l).run s₀ ls = some s) :
    (identity KeyedAccounts).run s₀ ls = some s ∧
      (identityOnce KeyedAccounts).run s₀ ls = some s := by
  have hinit : AppliedOnce events s₀ := by
    obtain ⟨hk, hjobs, hlog⟩ := hi
    exact ⟨hk, by simp [hjobs], by simp [hjobs], by simp [hlog]⟩
  clear hi
  -- the invariant makes the two step functions agree along the run
  induction ls generalizing s₀ with
  | nil => exact ⟨hrun, hrun⟩
  | cons l ls ih =>
    obtain ⟨s₁, hstep, hrest⟩ := bind_eq_some_iff.mp hrun
    simp only [System.guard, ite_none_right_eq_some, Bool.and_eq_true] at hstep
    obtain ⟨⟨hd, hc⟩, hstep⟩ := hstep
    obtain ⟨hreal, honce⟩ := ih hrest (hinit.step hids hd hc hstep)
    refine ⟨bind_eq_some_iff.mpr ⟨s₁, hstep, hreal⟩,
      bind_eq_some_iff.mpr ⟨s₁, ?_, honce⟩⟩
    exact (hinit.stepOnce_eq hids hc).trans hstep

/-- The handler of `ada`'s sign-out up to the receipt, and a crash there. -/
def crashBeforeReceipt (id : Nat) : List Label :=
  .start id (.deliver adaSignedOut) :: List.replicate 3 (.advance id (answerAt 6000)) ++ [.drop id]

/-- A request of `ada` that signs in with a token of time 9000 and stores a renewable proof. -/
def signInAndEnrol (id : Nat) : List Label :=
  .start id (.request (adaWithToken 9000)) ::
    List.replicate 7 (.advance id
      { now := 700000, live := false, enrol := true, proof := some ("prf_1", true),
        subscribed := true })

def adaKnown : Service :=
  freshService [Account.new "ada" .carbon]

theorem adaKnown_init : (identity KeyedAccounts).init adaKnown := by
  refine ⟨?_, rfl, rfl⟩
  unfold KeyedAccounts Keyed
  decide

/-- A replay after a crash before the receipt, with no sign-in in between. -/
theorem redelivery_without_effect_crash : ∃ s,
    (identity KeyedAccounts).run adaKnown
        (crashBeforeReceipt 0 ++ signOutRun 1 adaSignedOut) = some s ∧
      (identityOnce KeyedAccounts).run adaKnown
        (crashBeforeReceipt 0 ++ signOutRun 1 adaSignedOut) = some s := by
  have hids : UniqueIds [adaSignedOut] := by
    unfold UniqueIds
    decide
  cases hr : ((identity KeyedAccounts).guard fun s l =>
      deliversFrom [adaSignedOut] l && repeatsQuietly s l).run adaKnown
        (crashBeforeReceipt 0 ++ signOutRun 1 adaSignedOut) with
  | some s => exact ⟨s, redelivery_without_effect hids adaKnown_init hr⟩
  | none =>
    have hsome : (((identity KeyedAccounts).guard fun s l =>
        deliversFrom [adaSignedOut] l && repeatsQuietly s l).run adaKnown
          (crashBeforeReceipt 0 ++ signOutRun 1 adaSignedOut)).isSome = true := by
      decide +kernel
    simp [hr] at hsome

/-- `ada` signs in again and enrols between the crash and the replay of the sign-out: the replay
deletes the new proof and the new enrolment, which the reference keeps. -/
theorem replay_deletes_new_proof : ∃ s s',
    (identity KeyedAccounts).run adaKnown
        (crashBeforeReceipt 0 ++ signInAndEnrol 1 ++ signOutRun 2 adaSignedOut) = some s ∧
      (identityOnce KeyedAccounts).run adaKnown
        (crashBeforeReceipt 0 ++ signInAndEnrol 1 ++ signOutRun 2 adaSignedOut) = some s' ∧
      s.directory.grants = [] ∧ s.directory.enrolments = [] ∧
      s'.directory.grants = [⟨⟨.carbon, "ada"⟩, "prf_1", 9000⟩] ∧
      s'.directory.enrolments = [⟨⟨.carbon, "ada"⟩, 700000, some 700000⟩] := by
  have hruns : ((identity KeyedAccounts).run adaKnown
        (crashBeforeReceipt 0 ++ signInAndEnrol 1 ++ signOutRun 2 adaSignedOut)).any (fun s =>
          s.directory.grants = [] && s.directory.enrolments = []) = true ∧
      ((identityOnce KeyedAccounts).run adaKnown
        (crashBeforeReceipt 0 ++ signInAndEnrol 1 ++ signOutRun 2 adaSignedOut)).any (fun s =>
          s.directory.grants = [⟨⟨.carbon, "ada"⟩, "prf_1", 9000⟩] &&
            s.directory.enrolments = [⟨⟨.carbon, "ada"⟩, 700000, some 700000⟩]) = true := by
    decide +kernel
  simp only [Option.any_eq_true, Bool.and_eq_true, decide_eq_true_eq] at hruns
  obtain ⟨⟨s, hs, hg, he⟩, s', hs', hg', he'⟩ := hruns
  exact ⟨s, s', hs, hs', hg, he, hg', he'⟩

end SiliconDm.Server
