import SiliconDm.Server.Identity

/-!
# An ended sign-in stays ended

A sign-out or a removed access sets the cutoff of the account's row, and an admission compares
the issue time of its access token with the cutoff it read. The cutoff is in milliseconds, the
token's time in whole seconds; within the cutoff's own second Silicon Accounts decides.
Source: `src/infrastructure/postgres/accounts.rs:412–431`,
`src/application/accounts.rs:78–138,377–399`, `src/application/ports.rs:150–162`.
-/

namespace SiliconDm.Server

open Base

/-- The account whose sign-ins an event ends, except for DM's own revocation of one refresh
family. -/
def AccountEvent.endsSignIn : AccountEvent → Option String
  | .signedOut uuid reason => if reason = some "app_revoked" then none else some uuid
  | .accessRemoved uuid => some uuid
  | _ => none

variable {u : String} {c : Context} {row : Account} {issued t : Nat} {s : Service} {l : Label}

theorem AccountEvent.revoke_mem_effects {event : AccountEvent} (t : Nat)
    (h : event.endsSignIn = some u) : .revoke u t ∈ event.effects t := by
  cases event with
  | signedOut uuid reason =>
    simp only [endsSignIn] at h
    split_ifs at h with hr
    cases h
    simp [effects, hr]
  | accessRemoved uuid =>
    cases h
    simp [effects]
  | idChanged | updated | deleted | custodianChanged | ping | unknown => cases h

/-! ### Admission against a cutoff -/

/-- Silicon Accounts says a token is live only if it was issued at the cutoff or later. It is
asked only within the cutoff's second. -/
def truthful (s : Service) : Label → Bool
  | .advance id a =>
    match s.job id with
    | some (.decide c row) =>
      match c.token, c.issuedAt, row.revokedBefore with
      | some issued, some iat, some cutoff =>
        !(order iat cutoff = .sameSecond && a.live) || cutoff ≤ issued
      | _, _, _ => true
    | _ => true
  | _ => true

/-- An admitted token was issued at the cutoff of the row that was read, or later. -/
theorem le_of_admits {live : Bool} {cutoff : Nat}
    (h : admits c row live = true) (ht : c.token = some issued)
    (hcut : row.revokedBefore = some cutoff)
    (hlive : ∀ iat, c.issuedAt = some iat → order iat cutoff = .sameSecond → live = true →
      cutoff ≤ issued) : cutoff ≤ issued := by
  unfold admits at h
  split_ifs at h with hdead
  rw [ht, hcut] at h
  cases hi : c.issuedAt with
  | none => simp [hi] at h
  | some iat =>
    rw [hi] at h
    cases ho : order iat cutoff with
    | before => simp [ho] at h
    | sameSecond =>
      apply hlive iat hi ho
      simpa [ho] using h
    | after =>
      have hlt : cutoff < iat := by
        unfold order at ho
        split_ifs at ho with h1 h2
        exact h2
      -- the token's own time is rounded down
      have hle : iat ≤ issued := by
        unfold Context.token at ht
        unfold Context.issuedAt at hi
        cases hcred : c.credential with
        | proof issuedAt => simp [hcred] at ht
        | bearer exact' iat' =>
          simp only [hcred, Option.some.injEq] at ht hi
          split_ifs at hi
          cases hi
          subst ht
          exact Nat.div_mul_le_self _ _
      omega

/-! ### The condition -/

/-- A decision on a row that was read earlier is pending for the account. -/
def Job.decides (u : String) : Job → Bool
  | .decide c _ => c.actor.id = u
  | _ => false

/-- The cutoff of a sign-out is stored, and no admission that read the row before is under way:
the account has a row, and none of its requests stands between reading it and deciding. -/
def cutoffStored (s : Service) : Label → Bool
  | .advance id _ =>
    match s.job id with
    | some (.apply _ _ _ (.revoke u _ :: _)) =>
      (account s.directory.accounts u).isSome && !s.jobs.any (·.2.decides u)
    | _ => true
  | _ => true

/-! ### The invariant -/

structure CutOff (s : Service) : Prop where
  /-- Every applied cutoff is in the account's row, or a later one is. -/
  stored : ∀ u t, HasApplied s.log (.revoke u t) →
    ∃ a, account s.directory.accounts u = some a ∧ ∃ t' ∈ a.revokedBefore, t ≤ t'
  /-- And in every row that an admission has read. -/
  seen : ∀ id c row, (id, .decide c row) ∈ s.jobs → ∀ t,
    HasApplied s.log (.revoke c.actor.id t) → ∃ t' ∈ row.revokedBefore, t ≤ t'

theorem revokedBefore_revoke {x : List Account} {a : Account} (ha : account x u = some a) :
    ∃ a', account (revokeSessionsBefore x u t) u = some a' ∧ ∃ t' ∈ a'.revokedBefore, t ≤ t' := by
  have huuid : a.uuid = u := (mem_of_getRow_eq_some ha).2
  have hmap : account (revokeSessionsBefore x u t) u = (account x u).map fun a =>
      if a.uuid = u && a.revokedBefore.all (· < t) then { a with revokedBefore := some t }
      else a := by
    apply getRow_map
    intro a
    split <;> rfl
  rw [hmap, ha]
  refine ⟨_, rfl, ?_⟩
  by_cases hall : a.revokedBefore.all (· < t) = true
  · simp only [huuid, hall, decide_true, Bool.and_self, if_true]
    exact ⟨t, rfl, Nat.le_refl t⟩
  · simp only [hall, Bool.and_false, Bool.false_eq_true, if_false]
    simp only [Option.all_eq_true, decide_eq_true_eq, not_forall, Nat.not_lt] at hall
    obtain ⟨t', ht', hle⟩ := hall
    exact ⟨t', ht', hle⟩

/-- What a step adds to the applied store calls. -/
theorem hasApplied_of_wrote {accounts : List Account} {entries : List Entry} {effect : Effect}
    (hw : Wrote s l accounts entries) (h : HasApplied (s.log ++ entries) effect) :
    HasApplied s.log effect ∨ ∃ id a event t done rest d, l = .advance id a ∧
      s.job id = some (.apply event t done (effect :: rest)) ∧
      effect.apply s.directory = .ok d ∧ accounts = d.accounts := by
  obtain ⟨eventId, index, hm⟩ := h
  cases List.mem_append.mp hm with
  | inl hm => exact .inl ⟨eventId, index, hm⟩
  | inr hm =>
    cases hw with
    | applied job ok =>
      cases List.mem_singleton.mp hm
      exact .inr ⟨_, _, _, _, _, _, _, rfl, job, ok, rfl⟩
    | handled | admitted | looked => cases List.mem_singleton.mp hm
    | authenticated | memberProfile | silent => cases hm

theorem CutOff.step {s' : Service} (h : CutOff s) (hc : cutoffStored s l = true)
    (hs : s.step l = some s') : CutOff s' := by
  obtain ⟨entries, hlog, hw⟩ := wrote_of_step hs
  have hsto : ∀ u t, HasApplied s'.log (.revoke u t) →
      ∃ a, account s'.directory.accounts u = some a ∧ ∃ t' ∈ a.revokedBefore, t ≤ t' := by
    intro u t happ
    rw [hlog] at happ
    obtain happ | ⟨id, a, event, t', done, rest, d, rfl, hj, hok, haccs⟩ :=
      hasApplied_of_wrote hw happ
    · obtain ⟨a, ha, t', ht', hle⟩ := h.stored u t happ
      obtain ⟨a', ha', hlat⟩ := hw.laterRows u a ha
      obtain ⟨t'', ht'', hle'⟩ := hlat.revoked t' ht'
      exact ⟨a', ha', t'', ht'', Nat.le_trans hle hle'⟩
    · simp only [cutoffStored, hj, Bool.and_eq_true] at hc
      obtain ⟨a, ha⟩ := Option.isSome_iff_exists.mp hc.1
      cases hok
      rw [haccs]
      exact revokedBefore_revoke ha
  refine ⟨hsto, ?_⟩
  intro id c row hj t happ
  obtain hold | ⟨what, -, he⟩ | ⟨a, before, rfl, hb, hjob⟩ := job_of_step hs hj
  · rw [hlog] at happ
    obtain happ | ⟨id', a, event, t', done, rest, d, rfl, hj', -, -⟩ :=
      hasApplied_of_wrote hw happ
    · exact h.seen id c row hold t happ
    · -- a cutoff is not stored while an older row is being judged
      simp only [cutoffStored, hj', Bool.and_eq_true, Bool.not_eq_true', List.any_eq_false] at hc
      exact absurd (by simp [Job.decides]) (hc.2 _ hold)
  · cases what <;> cases he
  · cases next_of_advance hjob with
    | read hr =>
      have hlog' : s'.log = s.log := by
        rw [(advance_eq_some hs hb).2]
        simp [Job.advance, hr]
      rw [hlog'] at happ
      obtain ⟨a', ha', hcut⟩ := h.stored c.actor.id t happ
      obtain rfl : a' = row := Option.some.inj (ha'.symm.trans hr)
      exact hcut

/-! ### Results -/

theorem cutOff_of_reachable {initial : Directory → Prop} {C : Service → Label → Prop}
    (hC : ∀ s l, C s l → cutoffStored s l = true) (h : (identity initial).ReachableWhile C s) :
    CutOff s := by
  refine h.invariant ?_ fun s l s' hs hc hl => hs.step (hC s l hc) hl
  rintro s ⟨-, hjobs, hlog⟩
  constructor
  · rintro u t ⟨_, _, hm⟩
    simp [hlog] at hm
  · simp [hjobs]

/-- A decision admits no token from before an applied cutoff. -/
theorem CutOff.le_of_admits {id : Nat} {a : Answer} (h : CutOff s)
    (htrue : truthful s (.advance id a) = true) (hj : s.job id = some (.decide c row))
    (hok : admits c row a.live = true) (ht : c.token = some issued)
    (happ : HasApplied s.log (.revoke c.actor.id t)) :
    t ≤ issued := by
  obtain ⟨cutoff, hcutoff, hle⟩ := h.seen id c row (mem_of_job hj) t happ
  apply Nat.le_trans hle
  apply Server.le_of_admits hok ht hcutoff
  intro iat hiat hsame hlive
  simpa [truthful, hj, ht, hiat, Option.mem_def.mp hcutoff, hsame, hlive] using htrue

/-- The steps of Silicon Accounts' answers that are correct, and of sign-outs whose cutoff is
stored. -/
def EndsForGood (s : Service) (l : Label) : Prop :=
  truthful s l = true ∧ cutoffStored s l = true

/-- In every such run, from any tables: once an event that ended the account's sign-ins at `t`
has been handled, a step that admits an access token of the account admits one issued at `t` or
later. -/
theorem ended_sign_in_stays_ended {initial : Directory → Prop} {s s' : Service} {l : Label}
    {event : AccountEvent} {u : String} {t issued : Nat} {c : Context}
    (h : (identity initial).ReachableWhile EndsForGood s) (hl : EndsForGood s l)
    (hs : s.step l = some s') (hh : .handled event t ∈ s.log) (he : event.endsSignIn = some u)
    (ha : s'.log = s.log ++ [.admitted c]) (hu : c.actor.id = u) (ht : c.token = some issued) :
    t ≤ issued := by
  have happ : HasApplied s.log (.revoke u t) :=
    (handling_of_reachable h).handled event t hh _ (event.revoke_mem_effects t he)
  have hcut : CutOff s := cutOff_of_reachable (fun _ _ hc => hc.2) h
  obtain ⟨entries, hlog, hw⟩ := wrote_of_step hs
  obtain rfl : [.admitted c] = entries := List.append_cancel_left (ha.symm.trans hlog)
  generalize s'.directory.accounts = accounts at hw
  cases hw with
  | admitted job ok =>
    subst hu
    exact hcut.le_of_admits hl.1 job ok ht happ

/-- `ada` signs out at 5000 with an access token of time 1000. -/
def adaSignedOut : VerifiedEvent :=
  { eventId := "evt_signed_out", occurredAt := some 5000, event := .signedOut "ada" none }

def adaWithToken (issued : Nat) : Context :=
  { actor := ⟨.carbon, "ada"⟩, publicId := "c:ada", credential := .bearer issued true }

def freshService (accounts : List Account) : Service where
  directory := { accounts, grants := [], enrolments := [], receipts := [], retired := [] }
  jobs := []
  log := []

theorem freshService_init (accounts : List Account) :
    (identity fun _ => True).init (freshService accounts) :=
  ⟨trivial, rfl, rfl⟩

def answerAt (now : Nat) : Answer :=
  { now, live := false, enrol := false, proof := none, subscribed := false }

/-- The handler of a sign-out, to its end. -/
def signOutRun (id : Nat) (event : VerifiedEvent) : List Label :=
  .start id (.deliver event) :: List.replicate 4 (.advance id (answerAt 6000))

/-- A request up to the decision about it. -/
def requestRun (id issued : Nat) : List Label :=
  .start id (.request (adaWithToken issued)) :: List.replicate 2 (.advance id (answerAt 7000))

/-- A token of time 9000 is admitted after the sign-out of an account with a row. -/
theorem ended_sign_in_stays_ended_later_token : ∃ s s' : Service,
    (identity fun _ => True).ReachableWhile EndsForGood s ∧
      s'.log = s.log ++ [.admitted (adaWithToken 9000)] ∧ 5000 ≤ 9000 := by
  have hs := Base.System.reachableWhile_get
    (C := fun s l => truthful s l = true ∧ cutoffStored s l = true)
    (signOutRun 0 adaSignedOut ++ requestRun 1 9000)
    (freshService_init [Account.new "ada" .carbon]) (by decide +kernel)
  refine ⟨_, _, hs, ?log, ended_sign_in_stays_ended hs (l := .advance 1 (answerAt 7000))
    ⟨by decide +kernel, by decide +kernel⟩ (Option.some_get (by decide +kernel)).symm
    (show Entry.handled adaSignedOut.event 5000 ∈ _ by decide +kernel) rfl ?log rfl rfl⟩
  decide +kernel

/-- The sign-out of an account without a row stores no cutoff: a token of time 1000 is admitted
after the sign-out at 5000 has been handled. -/
theorem ended_sign_in_admitted : ∃ (s s' : Service) (l : Label),
    (identity fun _ => True).ReachableWhile (fun s l => truthful s l = true) s ∧
      truthful s l = true ∧ s.step l = some s' ∧
      .handled (.signedOut "ada" none) 5000 ∈ s.log ∧
      s'.log = s.log ++ [.admitted (adaWithToken 1000)] ∧
      (adaWithToken 1000).token = some 1000 := by
  exact ⟨_, _, .advance 1 (answerAt 7000),
    Base.System.reachableWhile_get (signOutRun 0 adaSignedOut ++ requestRun 1 1000)
      (freshService_init []) (by decide +kernel),
    by decide +kernel, (Option.some_get (by decide +kernel)).symm, by decide +kernel,
    by decide +kernel, rfl⟩

end SiliconDm.Server
