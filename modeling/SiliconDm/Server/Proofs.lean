import SiliconDm.Server.SignOut

/-!
# Stored proofs end with the sign-in

A sign-out, a removed access and a deletion delete the proof refresh tokens that DM stored for
the account. Enrolments and re-enrolments take a credential, wait for Silicon Accounts, and then
store what they were given, whatever happened meanwhile. `Grant.origin` follows a proof back to
the sign-in it descends from. Source: `src/infrastructure/postgres/accounts.rs:531–611`,
`src/infrastructure/ting_enrollment.rs:50–126,263–329`,
`src/infrastructure/postgres/ting.rs:382–415`.
-/

namespace SiliconDm.Server

open Base

def AccountEvent.endsProofs : AccountEvent → Option String
  | .deleted uuid => some uuid
  | event => event.endsSignIn

/-- The stored proofs of the account have been deleted for an event of time `t`. -/
def ProofsEnded (log : List Entry) (u : String) (t : Nat) : Prop :=
  HasApplied log (.endProofs u t) ∨ HasApplied log (.delete u t)

variable {event : AccountEvent} {u : String} {g : Grant} {a : Answer} {l : Label}

theorem AccountEvent.endProofs_mem_effects (t : Nat) (h : event.endsProofs = some u) :
    .endProofs u t ∈ event.effects t ∨ .delete u t ∈ event.effects t := by
  cases event with
  | deleted uuid =>
    cases h
    exact .inr (by simp [effects])
  | signedOut uuid reason =>
    simp only [endsProofs, endsSignIn] at h
    split_ifs at h with hr
    cases h
    exact .inl (by simp [effects, hr])
  | accessRemoved uuid =>
    cases h
    exact .inl (by simp [effects])
  | idChanged | updated | custodianChanged | ping | unknown => cases h

variable {t t' id : Nat} {effect : Effect} {d : Directory} {s s' : Service}

/-- The cutoff of an event is set before its proofs are deleted. -/
theorem AccountEvent.revoke_of_endProofs {taken rest : List Effect}
    (h : event.effects t = taken ++ .endProofs u t' :: rest) : .revoke u t' ∈ taken := by
  have hpair : ∀ v, [Effect.revoke v t, .endProofs v t] = taken ++ .endProofs u t' :: rest →
      .revoke u t' ∈ taken := by
    intro v he
    cases taken with
    | nil => cases he
    | cons first taken =>
      cases taken with
      | nil =>
        cases he
        simp
      | cons second taken => simp at he
  cases event with
  | signedOut uuid reason =>
    simp only [effects] at h
    split_ifs at h
    · simp at h
    · exact hpair uuid h
  | accessRemoved uuid => exact hpair uuid h
  | updated uuid found version => cases found <;> cases taken <;> simp [effects] at h
  | custodianChanged uuid custodian => cases custodian <;> cases taken <;> simp [effects] at h
  | idChanged | deleted | ping | unknown => cases taken <;> simp [effects] at h

/-! ### Credentials in flight -/

/-- The account whose credential an enrolment or re-enrolment holds, and when the sign-in
behind it was obtained. -/
def Job.credential : Job → Option (String × Nat)
  | .reserve c | .issue c | .save c _ => some (c.actor.id, c.token.getD 0)
  | .refresh g | .resave g _ => some (g.actor.id, g.origin)
  | _ => none

/-- The same for a request that has read its row. -/
def Job.deciding : Job → Option (String × Nat)
  | .decide c _ => c.token.map (c.actor.id, ·)
  | _ => none

/-- No credential of the account from before `t`. -/
def notBefore (u : String) (t : Nat) (credential : Option (String × Nat)) : Bool :=
  credential.all fun held => held.1 ≠ u || t ≤ held.2

/-- While proofs are deleted, no enrolment or re-enrolment holds an older credential of the
account; for a deletion, no request that has read its row does either. -/
def proofsIdle (s : Service) : Label → Bool
  | .advance id _ =>
    match s.job id with
    | some (.apply _ _ _ (.endProofs u t :: _)) => s.jobs.all (notBefore u t ·.2.credential)
    | some (.apply _ _ _ (.delete u t :: _)) =>
      s.jobs.all fun j => notBefore u t j.2.credential && notBefore u t j.2.deciding
    | _ => true
  | _ => true

/-! ### Grants -/

private theorem grant_of_apply {d' : Directory} (h : effect.apply d = .ok d') (hg : g ∈ d'.grants) :
    g ∈ d.grants := by
  cases effect with
  | idChange | profile | custodian =>
    obtain ⟨⟨accounts, applied⟩, -, he⟩ := bind_eq_ok.mp h
    cases he
    exact hg
  | revoke uuid cutoff =>
    cases h
    exact hg
  | endProofs uuid occurredAt | delete uuid occurredAt =>
    cases h
    exact (List.mem_filter.mp hg).1

private theorem grants_reserve (d : Directory) (actor : ActorRef) (now : Nat) :
    (d.reserve actor now).1.grants = d.grants := by
  unfold Directory.reserve
  split
  · split <;> rfl
  · rfl

/-- A job stores a grant only from the credential it holds. -/
theorem grant_of_advance {job : Job} (hg : g ∈ (job.advance d a).directory.grants) :
    g ∈ d.grants ∨ job.credential = some (g.actor.id, g.origin) := by
  cases job with
  | receive event =>
    simp only [Job.advance, receiveStep] at hg
    split_ifs at hg <;> exact .inl hg
  | apply event t done rest =>
    cases rest with
    | nil => exact .inl hg
    | cons effect rest =>
      simp only [Job.advance, applyStep] at hg
      split at hg
      case h_1 hok => exact .inl (grant_of_apply hok hg)
      case h_2 => exact .inl hg
  | authenticate c =>
    simp only [Job.advance] at hg
    split at hg
    · exact .inl hg
    · split at hg <;> exact .inl hg
  | read c | decide c row | issue c | reenrol actor | refresh g' | resubscribe actor =>
    simp only [Job.advance] at hg
    split at hg <;> exact .inl hg
  | reserve c =>
    simp only [Job.advance, grants_reserve] at hg
    exact .inl hg
  | save c proofId | resave g' proofId =>
    obtain rfl | ⟨hg, -⟩ := mem_put hg
    · exact .inr rfl
    · exact .inl hg
  | subscribe c => exact .inl hg

/-- Where the grants after a step come from. -/
theorem grant_of_step (h : s.step l = some s') (hg : g ∈ s'.directory.grants) :
    g ∈ s.directory.grants ∨ ∃ id job, s.job id = some job ∧
      job.credential = some (g.actor.id, g.origin) := by
  cases l with
  | start id what =>
    simp only [Service.step] at h
    split_ifs at h
    cases h
    exact .inl hg
  | drop id | memberProfile uuid displayName pfpUrl =>
    cases h
    exact .inl hg
  | lookup found readAt now =>
    simp only [Service.step] at h
    split at h <;>
    · cases h
      exact .inl hg
  | advance id a =>
    obtain ⟨job, hj, rfl⟩ := Option.map_eq_some_iff.mp h
    cases grant_of_advance hg with
    | inl hg => exact .inl hg
    | inr hc => exact .inr ⟨id, job, hj, hc⟩

/-! ### The invariant -/

structure ProofsGone (s : Service) : Prop where
  /-- No stored proof is older than the events that ended the account's proofs. -/
  stored : ∀ u t, ProofsEnded s.log u t → ∀ g ∈ s.directory.grants, g.actor.id = u → t ≤ g.origin
  /-- Nor is a credential that a job may still store a proof from. -/
  held : ∀ u t, ProofsEnded s.log u t → ∀ j ∈ s.jobs, notBefore u t j.2.credential = true
  revoked : ∀ u t, HasApplied s.log (.endProofs u t) → HasApplied s.log (.revoke u t)
  deleted : ∀ u t, HasApplied s.log (.delete u t) → isDeleted s.directory.accounts u = true
  /-- A request either read the deleted row or came with a newer token. -/
  judged : ∀ id c row, (id, .decide c row) ∈ s.jobs → ∀ t,
    HasApplied s.log (.delete c.actor.id t) →
      row.status = .deleted ∨ notBefore c.actor.id t (Job.decide c row).deciding = true

theorem isDeleted_later {x y : List Account} (h : LaterRows x y) (hd : isDeleted x u = true) :
    isDeleted y u = true := by
  simp only [isDeleted, Option.any_eq_true, decide_eq_true_eq] at *
  obtain ⟨a, ha, hs⟩ := hd
  obtain ⟨a', ha', hlat⟩ := h u a ha
  exact ⟨a', ha', hlat.deleted hs⟩

/-- Whoever holds a credential after a step held it before, was admitted with it, or took it
from a stored proof. -/
theorem credential_of_next {before job : Job} (h : Next d a before job) {held : String × Nat}
    (hc : job.credential = some held) :
    before.credential = some held ∨
      (∃ c row, before = .decide c row ∧ admits c row a.live = true ∧
        before.deciding = some held) ∨
      ∃ g ∈ d.grants, held = (g.actor.id, g.origin) := by
  cases h with
  | admitted ok token =>
    rename_i c row
    obtain ⟨issued, hi⟩ := Option.isSome_iff_exists.mp token
    cases hc
    exact .inr (.inl ⟨c, row, rfl, ok, by simp [Job.deciding, hi]⟩)
  | granted found =>
    cases hc
    exact .inr (.inr ⟨_, (mem_of_getRow_eq_some found).1, rfl⟩)
  | reserved | issued | refreshed => exact .inl hc
  | delivered | applied | authenticated | read | issuedOnce | saved | refreshedOnce | resaved =>
    cases hc

/-- The steps at which proofs end. -/
theorem proofsEnded_of_step (hs : s.step l = some s') (h : ProofsEnded s'.log u t) :
    ProofsEnded s.log u t ∨ (∃ id a event t' done rest, l = .advance id a ∧
        s.job id = some (.apply event t' done (.endProofs u t :: rest))) ∨
      ∃ id a event t' done rest, l = .advance id a ∧
        s.job id = some (.apply event t' done (.delete u t :: rest)) := by
  obtain ⟨entries, hlog, hw⟩ := wrote_of_step hs
  unfold ProofsEnded at h
  rw [hlog] at h
  cases h with
  | inl h =>
    obtain h | ⟨id, a, event, t', done, rest, d, hl, hj, -⟩ := hasApplied_of_wrote hw h
    · exact .inl (.inl h)
    · exact .inr (.inl ⟨id, a, event, t', done, rest, hl, hj⟩)
  | inr h =>
    obtain h | ⟨id, a, event, t', done, rest, d, hl, hj, -⟩ := hasApplied_of_wrote hw h
    · exact .inl (.inr h)
    · exact .inr (.inr ⟨id, a, event, t', done, rest, hl, hj⟩)

/-- The step that ends the proofs of an account leaves none of them. -/
theorem grants_of_ending {event : VerifiedEvent} {done : Nat} {rest : List Effect}
    (hs : s.step (.advance id a) = some s')
    (hj : s.job id = some (.apply event t' done (effect :: rest)))
    (he : effect = .endProofs u t ∨ effect = .delete u t) :
    ∀ g ∈ s'.directory.grants, g.actor.id ≠ u := by
  intro g hg
  rw [(advance_eq_some hs hj).1] at hg
  obtain rfl | rfl := he
  · have hm := (List.mem_filter.mp hg).2
    simpa using hm
  · have hm := (List.mem_filter.mp hg).2
    simpa using hm

theorem le_of_notBefore {origin : Nat} (h : notBefore u t (some (u, origin)) = true) :
    t ≤ origin := by
  simpa [notBefore] using h

section

variable (h : ProofsGone s)
include h

/-- No admitted token is older than the end of the account's proofs. -/
theorem ProofsGone.le_of_admits {c : Context} {row : Account} {issued : Nat} (hcut : CutOff s)
    (htrue : truthful s (.advance id a) = true) (hj : s.job id = some (.decide c row))
    (hok : admits c row a.live = true) (ht : c.token = some issued)
    (hen : ProofsEnded s.log c.actor.id t) : t ≤ issued := by
  cases hen with
  | inl hen => exact hcut.le_of_admits htrue hj hok ht (h.revoked _ _ hen)
  | inr hen =>
    cases h.judged id c row (mem_of_job hj) t hen with
    | inl hdead => simp [admits, hdead] at hok
    | inr hn =>
      apply le_of_notBefore (u := c.actor.id)
      simpa [Job.deciding, ht] using hn

theorem ProofsGone.step_stored (hs : s.step l = some s') (u : String) (t : Nat)
    (hen : ProofsEnded s'.log u t) :
    ∀ g ∈ s'.directory.grants, g.actor.id = u → t ≤ g.origin := by
  intro g hg hu
  obtain hold | ⟨id, a, event, t', done, rest, rfl, hj⟩ | ⟨id, a, event, t', done, rest, rfl, hj⟩ :=
    proofsEnded_of_step hs hen
  · cases grant_of_step hs hg with
    | inl hg => exact h.stored u t hold g hg hu
    | inr hjob =>
      obtain ⟨id, job, hj, hc⟩ := hjob
      have hn := h.held u t hold _ (mem_of_job hj)
      rw [hc, hu] at hn
      exact le_of_notBefore hn
  · exact absurd hu (grants_of_ending hs hj (.inl rfl) g hg)
  · exact absurd hu (grants_of_ending hs hj (.inr rfl) g hg)

theorem ProofsGone.step_held (hcut : CutOff s) (htrue : truthful s l = true)
    (hidle : proofsIdle s l = true) (hs : s.step l = some s') (u : String) (t : Nat)
    (hen : ProofsEnded s'.log u t) :
    ∀ j ∈ s'.jobs, notBefore u t j.2.credential = true := by
  rintro ⟨id, job⟩ hj
  obtain hold | ⟨what, -, rfl⟩ | ⟨a, before, rfl, hb, hjob⟩ := job_of_step hs hj
  · obtain hen | ⟨id', a, event, t', done, rest, rfl, hj'⟩ |
        ⟨id', a, event, t', done, rest, rfl, hj'⟩ := proofsEnded_of_step hs hen
    · exact h.held u t hen _ hold
    · simp only [proofsIdle, hj', List.all_eq_true] at hidle
      exact hidle _ hold
    · simp only [proofsIdle, hj', List.all_eq_true, Bool.and_eq_true] at hidle
      exact (hidle _ hold).1
  · cases what <;> rfl
  · cases hc : job.credential with
    | none => rfl
    | some held =>
      have hnext := next_of_advance hjob
      -- the handler that ends proofs holds no credential
      have hen : ProofsEnded s.log u t := by
        obtain hen | ⟨id', a', event, t', done, rest, he, hj'⟩ |
            ⟨id', a', event, t', done, rest, he, hj'⟩ := proofsEnded_of_step hs hen
        · exact hen
        all_goals
          cases he
          cases hb.symm.trans hj'
          cases hnext
          cases hc
      by_cases hu : held.1 = u
      · have hle : t ≤ held.2 := by
          obtain hc | ⟨c, row, rfl, hok, hc⟩ | ⟨g, hg, rfl⟩ := credential_of_next hnext hc
          · have hn := h.held u t hen _ (mem_of_job hb)
            rw [hc, ← hu] at hn
            exact le_of_notBefore hn
          · obtain ⟨issued, hi, rfl⟩ := Option.map_eq_some_iff.mp hc
            subst hu
            exact h.le_of_admits hcut htrue hb hok hi hen
          · exact h.stored u t hen g hg hu
        simp [notBefore, hle]
      · simp [notBefore, hu]

theorem ProofsGone.step_judged (hidle : proofsIdle s l = true) (hs : s.step l = some s') (id : Nat)
    (c : Context) (row : Account) (hj : (id, .decide c row) ∈ s'.jobs) (t : Nat)
    (hd : HasApplied s'.log (.delete c.actor.id t)) :
    row.status = .deleted ∨ notBefore c.actor.id t (Job.decide c row).deciding = true := by
  obtain ⟨entries, hlog, hw⟩ := wrote_of_step hs
  obtain hold | ⟨what, -, he⟩ | ⟨a, before, rfl, hb, hjob⟩ := job_of_step hs hj
  · rw [hlog] at hd
    obtain hd | ⟨id', a, event, t', done, rest, d, rfl, hj', -, -⟩ := hasApplied_of_wrote hw hd
    · exact h.judged id c row hold t hd
    · simp only [proofsIdle, hj', List.all_eq_true, Bool.and_eq_true] at hidle
      exact .inr (hidle _ hold).2
  · cases what <;> cases he
  · cases next_of_advance hjob with
    | read hr =>
      have hlog' : s'.log = s.log := by
        rw [(advance_eq_some hs hb).2]
        simp [Job.advance, hr]
      rw [hlog'] at hd
      have hdead := h.deleted c.actor.id t hd
      simp only [isDeleted, hr, Option.any_some, decide_eq_true_eq] at hdead
      exact .inl hdead

theorem ProofsGone.step (hcut : CutOff s) (hhandling : Handling s) (htrue : truthful s l = true)
    (hidle : proofsIdle s l = true) (hs : s.step l = some s') :
    ProofsGone s' where
  stored := h.step_stored hs
  held := h.step_held hcut htrue hidle hs
  judged := h.step_judged hidle hs
  revoked u t happ := by
    obtain ⟨entries, hlog, hw⟩ := wrote_of_step hs
    rw [hlog] at happ ⊢
    obtain happ | ⟨id, a, event, t', done, rest, d, -, hj, -, -⟩ := hasApplied_of_wrote hw happ
    · exact (h.revoked u t happ).append _
    · obtain ⟨taken, he, htaken⟩ := hhandling.applying _ _ _ _ _ (mem_of_job hj)
      exact (htaken _ (event.event.revoke_of_endProofs he)).append _
  deleted u t happ := by
    obtain ⟨entries, hlog, hw⟩ := wrote_of_step hs
    rw [hlog] at happ
    obtain happ | ⟨id, a, event, t', done, rest, d, -, -, hok, haccs⟩ :=
      hasApplied_of_wrote hw happ
    · exact isDeleted_later hw.laterRows (h.deleted u t happ)
    · cases hok
      rw [haccs, isDeleted_markDeleted]
      simp

end

/-! ### Results -/

/-- Steps with correct answers, whose sign-outs store their cutoff and whose deletions of proofs
meet no older credential in flight. -/
def EndsProofsForGood (s : Service) (l : Label) : Prop :=
  truthful s l = true ∧ cutoffStored s l = true ∧ proofsIdle s l = true

/-- In every state of every such run, from any tables: once an event of time `t` that ends the
account's proofs has been handled, every stored proof of the account descends from a sign-in of
time `t` or later. -/
theorem proofs_end_with_sign_in {initial : Directory → Prop} {s : Service}
    {event : AccountEvent} {u : String} {t : Nat}
    (h : (identity initial).ReachableWhile EndsProofsForGood s) (hh : .handled event t ∈ s.log)
    (he : event.endsProofs = some u) :
    ∀ g ∈ s.directory.grants, g.actor.id = u → t ≤ g.origin := by
  have hinv : CutOff s ∧ Handling s ∧ ProofsGone s := by
    refine h.invariant (I := fun s => CutOff s ∧ Handling s ∧ ProofsGone s) ?_ ?_
    · rintro s ⟨-, hjobs, hlog⟩
      refine ⟨⟨?_, ?_⟩, ⟨?_, ?_⟩, ⟨?_, ?_, ?_, ?_, ?_⟩⟩ <;>
        simp [hjobs, hlog, HasApplied, ProofsEnded]
    · rintro s l s' ⟨hcut, hhandling, hgone⟩ ⟨htrue, hstored, hidle⟩ hl
      exact ⟨hcut.step hstored hl, hhandling.step hl, hgone.step hcut hhandling htrue hidle hl⟩
  have hended : ProofsEnded s.log u t := by
    have happlied := hinv.2.1.handled event t hh
    cases event.endProofs_mem_effects t he with
    | inl hmem => exact .inl (happlied _ hmem)
    | inr hmem => exact .inr (happlied _ hmem)
  exact hinv.2.2.stored u t hended

/-- Everyone outside answers: a renewable proof, and an accepted subscription. -/
def enrolAnswer : Answer :=
  { now := 700000, live := false, enrol := true, proof := some ("prf_1", true),
    subscribed := true }

/-- A request of `ada` whose enrolment has its proof and has not stored it yet. -/
def enrolRun (id issued : Nat) : List Label :=
  .start id (.request (adaWithToken issued)) :: List.replicate 5 (.advance id enrolAnswer)

/-- `ada` enrols with a token of time 1000, signs out at 5000, and enrols again with a token of
time 9000. -/
theorem proofs_end_with_sign_in_new_sign_in : ∃ s : Service,
    (identity fun _ => True).ReachableWhile EndsProofsForGood s ∧
      s.directory.grants = [⟨⟨.carbon, "ada"⟩, "prf_1", 9000⟩] ∧
      ∀ g ∈ s.directory.grants, g.actor.id = "ada" → 5000 ≤ g.origin := by
  have hs := Base.System.reachableWhile_get
    (C := fun s l => truthful s l = true ∧ cutoffStored s l = true ∧ proofsIdle s l = true)
    (enrolRun 0 1000 ++ List.replicate 2 (.advance 0 enrolAnswer) ++
      signOutRun 1 adaSignedOut ++ enrolRun 2 9000 ++ [.advance 2 enrolAnswer])
    (freshService_init []) (by decide +kernel)
  exact ⟨_, hs, by decide +kernel,
    proofs_end_with_sign_in hs
      (show Entry.handled adaSignedOut.event 5000 ∈ _ by decide +kernel) rfl⟩

/-- An enrolment waits for its proof while `ada` signs out, and then stores a proof that
descends from a token of time 1000. -/
theorem proof_outlives_sign_in : ∃ s : Service,
    (identity fun _ => True).ReachableWhile (fun s l => truthful s l = true) s ∧
      .handled (.signedOut "ada" none) 5000 ∈ s.log ∧
      s.directory.grants = [⟨⟨.carbon, "ada"⟩, "prf_1", 1000⟩] := by
  exact ⟨_, Base.System.reachableWhile_get
    (enrolRun 0 1000 ++ signOutRun 1 adaSignedOut ++ [.advance 0 enrolAnswer])
    (freshService_init []) (by decide +kernel), by decide +kernel, by decide +kernel⟩

end SiliconDm.Server
