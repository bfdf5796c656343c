import SiliconDm.Server.Identity

/-!
# Deleted accounts

`account.deleted` anonymises a cached account: no name, no photo, no current id
(`docs/migration/decisions.md:126–129`). Events of any age, sign-ins, member profiles and lookups
are written after it, each under a guard of its own. `record_lookup` alone has none: it fills the
columns of a deleted row and takes the id it states from every other account. Source:
`src/infrastructure/postgres/accounts.rs:145–406,554–575`.
-/

namespace SiliconDm.Server

open Base

/-! ### What the writers do to a deleted row -/

/-- A row as `delete_account` leaves it. -/
structure Account.Anonymous (a : Account) : Prop where
  deleted : a.status = .deleted
  id : a.currentId = none
  name : a.displayName = none
  photo : a.pfpUrl = none

def KeepsAnonymous : List Account → List Account → Prop :=
  Kept fun a a' => a.Anonymous → a'.Anonymous

def KeepsIds : List Account → List Account → Prop :=
  Kept fun a a' => a.status = .active → a'.status = .active ∧ a'.currentId = a.currentId

theorem KeepsAnonymous.refl (x : List Account) : KeepsAnonymous x x :=
  Kept.refl (fun _ => id) x

variable {x y z accounts : List Account} {u : String} {found : AccountLookup}
  {f : Account → Account} {l : Label} {entries : List Entry}

theorem KeepsAnonymous.trans (h : KeepsAnonymous x y) (h' : KeepsAnonymous y z) :
    KeepsAnonymous x z :=
  Kept.trans (fun _ _ _ hab hbc ha => hbc (hab ha)) h h'

theorem KeepsIds.refl (x : List Account) : KeepsIds x x :=
  Kept.refl (fun _ h => ⟨h, rfl⟩) x

theorem KeepsIds.trans (h : KeepsIds x y) (h' : KeepsIds y z) : KeepsIds x z := by
  refine Kept.trans (fun a b c hab hbc ha => ?_) h h'
  obtain ⟨hb, hid⟩ := hab ha
  obtain ⟨hc, hid'⟩ := hbc hb
  exact ⟨hc, hid'.trans hid⟩

/-- The lookup says that the account is deleted, or states nothing a deleted row lacks. -/
def AccountLookup.respectsDeletion (found : AccountLookup) : Bool :=
  found.deleted || found.id.isNone && found.displayName.isNone && found.pfpUrl.isNone

theorem Account.not_active (h : isDeleted x u = true) {a : Account} (ha : account x u = some a) :
    a.status ≠ .active := by
  rw [isDeleted, ha, Option.any_some, decide_eq_true_eq] at h
  rw [h]
  decide

theorem keepsAnonymous_clearId (id uuid : String) (x : List Account) :
    KeepsAnonymous x (clearId id uuid x) := by
  refine kept_map (uuid_clearId id uuid) fun a ha => ?_
  split
  · exact ⟨ha.deleted, rfl, ha.name, ha.photo⟩
  · exact ha

theorem keepsAnonymous_custodianRow (custodian : String × String) (x : List Account) :
    KeepsAnonymous x
      (upsert Account.uuid custodian.1 (custodianRow custodian) (fun a => a) x) :=
  kept_upsert (fun _ => id) rfl (fun _ => rfl) fun _ _ => id

variable {now : Nat} {effect : Effect} {d d' : Directory} {s : Service}

theorem keepsAnonymous_recordLookup (h : recordLookup x found now = .ok y)
    (hc : isDeleted x found.uuid = true → found.respectsDeletion = true) : KeepsAnonymous x y := by
  obtain ⟨rows, hrs, -, hcase⟩ := recordLookup_eq_ok h
  have hcus : KeepsAnonymous x rows := by
    obtain rfl | ⟨custodian, -, rfl⟩ := hrs
    · exact .refl _
    · exact keepsAnonymous_custodianRow custodian x
  have hsame : isDeleted rows found.uuid = isDeleted x found.uuid := by
    obtain rfl | ⟨custodian, -, rfl⟩ := hrs
    · rfl
    · exact isDeleted_custodianRow x custodian found.uuid
  have hr : KeepsAnonymous rows
      (upsert Account.uuid found.uuid (found.inserted now) (found.updated now) rows) := by
    refine kept_upsert (fun _ => id) rfl (fun _ => rfl) fun a ha han => ?_
    have hdead : isDeleted x found.uuid = true := by
      rw [← hsame, isDeleted, ha, Option.any_some, han.deleted]
      rfl
    have hrespects := hc hdead
    simp only [AccountLookup.respectsDeletion, Bool.or_eq_true, Bool.and_eq_true,
      Option.isNone_iff_eq_none] at hrespects
    obtain hd | ⟨⟨hid, hname⟩, hphoto⟩ := hrespects
    · constructor <;> simp [AccountLookup.updated, hd]
    · have hid' := han.id
      have hname' := han.name
      have hphoto' := han.photo
      constructor <;> simp [AccountLookup.updated, AccountLookup.inserted, Account.new, *,
        han.deleted]
  obtain rfl | ⟨id, -, rfl⟩ := hcase
  · exact hcus.trans hr
  · exact (hcus.trans hr).trans (keepsAnonymous_clearId _ _ _)

theorem Effect.Writes.keepsAnonymous (h : effect.Writes x y) : KeepsAnonymous x y := by
  -- a row that accepts an id change or a profile is active
  have hact : ∀ {a : Account} {p : Bool}, a.Anonymous →
      (decide (a.status = .active) && p) = true → False := by
    intro a p han hacc
    rw [han.deleted] at hacc
    simp at hacc
  cases h with
  | idChange ok =>
    obtain ⟨-, -, -, rfl, -⟩ | ⟨hacc, rfl⟩ := applyIdChange_eq_ok ok
    · exact .refl _
    · refine KeepsAnonymous.trans ?_ (keepsAnonymous_clearId _ _ _)
      exact kept_upsert (fun _ => id) rfl (fun _ => rfl) fun a ha han =>
        (hact han (hacc a ha)).elim
  | profile ok =>
    exact kept_guardedUpsert (fun _ => id) ok (fun _ => rfl) fun a _ hacc han =>
      (hact han hacc).elim
  | @custodian _ owner _ _ _ ok =>
    refine (keepsAnonymous_custodianRow owner _).trans ?_
    exact kept_guardedUpsert (fun _ => id) (applyCustodianChange_eq_ok ok).2 (fun _ => rfl)
      fun a _ _ han => ⟨han.deleted, han.id, han.name, han.photo⟩
  | revoke =>
    refine kept_map (fun a => by split <;> rfl) fun a han => ?_
    split
    · exact ⟨han.deleted, han.id, han.name, han.photo⟩
    · exact han
  | endProofs => exact .refl _
  | delete => exact kept_upsert (fun _ => id) rfl (fun _ => rfl) fun a _ _ => ⟨rfl, rfl, rfl, rfl⟩

/-- `delete_account` leaves the row of its account anonymous. -/
theorem anonymous_markDeleted (x : List Account) (u : String) (occurredAt : Nat) :
    ∃ a, account (markDeleted x u occurredAt) u = some a ∧ a.Anonymous := by
  unfold markDeleted
  rw [account_upsert_self (by rfl) fun _ => by rfl]
  cases account x u with
  | none | some a => exact ⟨_, rfl, rfl, rfl, rfl, rfl⟩

/-! ### What a write on behalf of a deleted account does to others -/

theorem keepsIds_map (hu : ∀ a, (f a).uuid = a.uuid) (hs : ∀ a, (f a).status = a.status)
    (hf : ∀ a, (f a).currentId = a.currentId) : KeepsIds x (x.map f) :=
  kept_map hu fun a ha => ⟨(hs a).trans ha, hf a⟩

theorem keepsIds_custodianRow (custodian : String × String) (x : List Account) :
    KeepsIds x (upsert Account.uuid custodian.1 (custodianRow custodian) (fun a => a) x) :=
  kept_upsert (fun _ h => ⟨h, rfl⟩) rfl (fun _ => rfl) fun _ _ h => ⟨h, rfl⟩

/-- An upsert of a deleted account's row leaves the active ones alone. -/
theorem keepsIds_upsert {new : Account} (hd : isDeleted x u = true) (hn : new.uuid = u)
    (hu : ∀ a, (f a).uuid = a.uuid) : KeepsIds x (upsert Account.uuid u new f x) :=
  kept_upsert (fun _ h => ⟨h, rfl⟩) hn hu fun _ ha hact => (Account.not_active hd ha hact).elim

theorem keepsIds_guardedUpsert {proposed : Account} {accepts : Account → Bool}
    {update : Account → Account} {applied : Applied}
    (h : guardedUpsert x proposed accepts update = .ok (y, applied))
    (hd : isDeleted x proposed.uuid = true) (hu : ∀ a, (update a).uuid = a.uuid) : KeepsIds x y :=
  kept_guardedUpsert (fun _ h => ⟨h, rfl⟩) h hu fun _ ha _ hact =>
    (Account.not_active hd ha hact).elim

/-- The account a store call is about. -/
def Effect.subject : Effect → String
  | .idChange change => change.uuid
  | .profile found _ _ => found.uuid
  | .custodian silicon _ _ => silicon
  | .revoke uuid _ | .endProofs uuid _ | .delete uuid _ => uuid

theorem Effect.Writes.keepsIds (h : effect.Writes x y) (hd : isDeleted x effect.subject = true) :
    KeepsIds x y := by
  cases h with
  | idChange ok =>
    obtain ⟨-, -, -, rfl, -⟩ | ⟨hacc, rfl⟩ := applyIdChange_eq_ok ok
    · exact .refl _
    · -- the guard keeps the event from a deleted row, so it clears nothing
      obtain ⟨a, ha, hdel⟩ := (Option.any_eq_true _ _).mp hd
      have hact := hacc a ha
      rw [acceptsIdChange, of_decide_eq_true hdel] at hact
      simp at hact
  | profile ok => exact keepsIds_guardedUpsert ok hd fun _ => rfl
  | @custodian _ owner _ _ _ ok =>
    refine (keepsIds_custodianRow owner _).trans
      (keepsIds_guardedUpsert (applyCustodianChange_eq_ok ok).2 ?_ fun _ => rfl)
    exact (isDeleted_custodianRow x owner _).trans hd
  | revoke =>
    exact keepsIds_map (fun a => by split <;> rfl) (fun a => by split <;> rfl)
      fun a => by split <;> rfl
  | endProofs => exact .refl _
  | delete => exact keepsIds_upsert hd rfl fun _ => rfl

theorem keepsIds_recordLookup (h : recordLookup x found now = .ok y)
    (hd : isDeleted x found.uuid = true) (hc : found.respectsDeletion = true) : KeepsIds x y := by
  obtain ⟨rows, hrs, -, hcase⟩ := recordLookup_eq_ok h
  have hcus : KeepsIds x rows ∧ isDeleted rows found.uuid = true := by
    obtain rfl | ⟨custodian, -, rfl⟩ := hrs
    · exact ⟨.refl _, hd⟩
    · exact ⟨keepsIds_custodianRow custodian x,
        (isDeleted_custodianRow x custodian found.uuid).trans hd⟩
  obtain rfl | ⟨id, ⟨hid, hdead⟩, -⟩ := hcase
  · exact hcus.1.trans (keepsIds_upsert hcus.2 rfl fun _ => rfl)
  · -- a lookup that clears an id states it of an account it calls active
    simp [AccountLookup.respectsDeletion, hid, hdead] at hc

/-! ### Every run -/

def Service.subject (s : Service) : Label → Option String
  | .advance id _ =>
    match s.job id with
    | some (.apply _ _ _ (effect :: _)) => some effect.subject
    | some (.authenticate c) => some c.actor.id
    | _ => none
  | .lookup found _ _ => some found.uuid
  | .memberProfile uuid _ _ => some uuid
  | .start _ _ | .drop _ => none

/-- No lookup with an id, a name or a photo is recorded for an account that is deleted. -/
def lookupsRespectDeletion (s : Service) : Label → Bool
  | .lookup found _ _ => !isDeleted s.directory.accounts found.uuid || found.respectsDeletion
  | _ => true

theorem Wrote.keepsAnonymous (h : Wrote s l accounts entries)
    (hc : lookupsRespectDeletion s l = true) : KeepsAnonymous s.directory.accounts accounts := by
  cases h with
  | applied _ ok => exact (Effect.writes ok).keepsAnonymous
  | handled | admitted | silent => exact .refl _
  | authenticated _ ok =>
    refine kept_guardedUpsert (fun _ => id) ok (fun _ => rfl) fun a _ _ han => ?_
    exact ⟨han.deleted, by simp [han.deleted, han.id], han.name, han.photo⟩
  | looked ok =>
    refine keepsAnonymous_recordLookup ok fun hd => ?_
    simpa [lookupsRespectDeletion, hd] using hc
  | memberProfile =>
    refine kept_map (fun a => by split <;> rfl) fun a han => ?_
    rw [if_neg (by simp [han.deleted])]
    exact han

/-- A step about a deleted account takes no id from an active one. -/
theorem Wrote.keepsIds (h : Wrote s l accounts entries) (hc : lookupsRespectDeletion s l = true)
    (hu : s.subject l = some u) (hd : isDeleted s.directory.accounts u = true) :
    KeepsIds s.directory.accounts accounts := by
  cases h with
  | applied job ok =>
    rw [Service.subject, job] at hu
    cases hu
    exact (Effect.writes ok).keepsIds hd
  | handled | admitted | silent => exact .refl _
  | authenticated job ok =>
    rw [Service.subject, job] at hu
    cases hu
    exact keepsIds_guardedUpsert ok hd fun _ => rfl
  | looked ok =>
    cases hu
    exact keepsIds_recordLookup ok hd (by simpa [lookupsRespectDeletion, hd] using hc)
  | memberProfile =>
    exact keepsIds_map (fun a => by split <;> rfl) (fun a => by split <;> rfl)
      fun a => by split <;> rfl

/-- Every account whose deletion was applied has an anonymous row. -/
def Forgotten (s : Service) : Prop :=
  ∀ event i u t, Entry.applied event i (.delete u t) ∈ s.log →
    ∃ a, account s.directory.accounts u = some a ∧ a.Anonymous

theorem Forgotten.step {s' : Service} (h : Forgotten s) (hc : lookupsRespectDeletion s l = true)
    (hl : s.step l = some s') : Forgotten s' := by
  obtain ⟨entries, hlog, hw⟩ := wrote_of_step hl
  intro event i u t hm
  rw [hlog, List.mem_append] at hm
  obtain hm | hm := hm
  · obtain ⟨a, ha, han⟩ := h event i u t hm
    obtain ⟨a', ha', hkp⟩ := hw.keepsAnonymous hc u a ha
    exact ⟨a', ha', hkp han⟩
  · -- the step is the deletion itself
    generalize hx : s'.directory.accounts = x at hw
    cases hw with
    | applied job ok =>
      obtain ⟨-, -, rfl⟩ := Entry.applied.inj (List.mem_singleton.mp hm)
      cases ok
      exact anonymous_markDeleted _ _ _
    | handled | admitted | looked => cases List.mem_singleton.mp hm
    | authenticated | memberProfile | silent => cases hm

/-- In every run in which no lookup describes a deleted account as if it existed, an account
stays deleted and without id, name and photo from its deletion on, and no step about it takes an
id from an active account. -/
theorem deleted_stays_deleted {s : Service}
    (h : (identity fun _ => True).ReachableWhile (fun s l => lookupsRespectDeletion s l = true) s)
    {event : VerifiedEvent} {u : String} {i t : Nat} (hdel : .applied event i (.delete u t) ∈ s.log) :
    (∃ a, account s.directory.accounts u = some a ∧ a.Anonymous) ∧
      ∀ l s', s.step l = some s' → lookupsRespectDeletion s l = true → s.subject l = some u →
        KeepsIds s.directory.accounts s'.directory.accounts := by
  have hforgotten : Forgotten s := by
    refine h.invariant ?_ fun s l s' hs hc hl => hs.step hc hl
    rintro s ⟨-, -, hlog⟩ event i u t hmem
    rw [hlog] at hmem
    cases hmem
  obtain ⟨a, ha, han⟩ := hforgotten event i u t hdel
  refine ⟨⟨a, ha, han⟩, fun l s' hl hc hu => ?_⟩
  obtain ⟨entries, -, hw⟩ := wrote_of_step hl
  refine hw.keepsIds hc hu ?_
  rw [isDeleted, ha, Option.any_some, han.deleted]
  rfl

/-- `ada`, who goes by `c:ada`, and `bea`. -/
def adaAndBea : Service where
  directory :=
    { accounts := [{ Account.new "ada" .carbon with
          currentId := some "c:ada", displayName := some "Ada" }, Account.new "bea" .carbon]
      grants := [], enrolments := [], receipts := [], retired := [] }
  jobs := []
  log := []

theorem adaAndBea_init : (identity fun _ => True).init adaAndBea :=
  ⟨trivial, rfl, rfl⟩

/-- `account.deleted` for `ada`. -/
def adaGone : VerifiedEvent :=
  { eventId := "evt_gone", occurredAt := some 10, event := .deleted "ada" }

/-- Silicon Accounts deletes `ada`, and `bea` takes the id over. -/
def adaLeaves : List Label :=
  let answer : Answer :=
    { now := 100, live := false, enrol := false, proof := none, subscribed := false }
  [.start 0 (.deliver adaGone), .advance 0 answer, .advance 0 answer, .advance 0 answer,
    .start 1 (.deliver
      { eventId := "evt_id", occurredAt := some 20, event := .idChanged "bea" none "c:ada" }),
    .advance 1 answer, .advance 1 answer, .advance 1 answer]

/-- What Silicon Accounts said about `ada` before the deletion. -/
def adaBefore : AccountLookup :=
  { uuid := "ada", kind := .carbon, id := some "c:ada", displayName := some "Ada", pfpUrl := none,
    custodian := none, deleted := false }

/-- A lookup that says `ada` is deleted leaves `bea` the id. -/
theorem deleted_stays_deleted_ada : ∃ s,
    (identity fun _ => True).ReachableWhile (fun s l => lookupsRespectDeletion s l = true) s ∧
      (∃ a, account s.directory.accounts "ada" = some a ∧ a.Anonymous) ∧
      ∀ l s', s.step l = some s' → lookupsRespectDeletion s l = true →
        s.subject l = some "ada" → KeepsIds s.directory.accounts s'.directory.accounts := by
  have h := Base.System.reachableWhile_get (M := identity fun _ => True)
    (C := fun s l => lookupsRespectDeletion s l = true)
    (adaLeaves ++ [.lookup { adaBefore with deleted := true } 90 100]) adaAndBea_init
    (by decide +kernel)
  exact ⟨_, h, deleted_stays_deleted h
    (show Entry.applied adaGone 0 (.delete "ada" 10) ∈ _ by decide +kernel)⟩

/-- A lookup answered before the deletion and recorded after it names `ada` again, and takes
`c:ada` from `bea`. -/
theorem late_lookup_names_deleted : ∃ s s',
    (identity fun _ => True).Reachable s ∧ .applied adaGone 0 (.delete "ada" 10) ∈ s.log ∧
      s.step (.lookup adaBefore 5 100) = some s' ∧
      (account s'.directory.accounts "ada").map (fun a => (a.status, a.currentId, a.displayName)) =
        some (.deleted, some "c:ada", some "Ada") ∧
      (account s.directory.accounts "bea").map (fun b => (b.status, b.currentId)) =
        some (.active, some "c:ada") ∧
      (account s'.directory.accounts "bea").map (fun b => (b.status, b.currentId)) =
        some (.active, none) := by
  exact ⟨_, _, Base.System.reachable_get adaLeaves adaAndBea_init (by decide +kernel),
    by decide +kernel, (Option.some_get (by decide +kernel)).symm, by decide +kernel,
    by decide +kernel, by decide +kernel⟩

/-- In every run no account is lost or changes its kind, no deletion is undone, and no version or
time goes back. -/
theorem accounts_only_advance {initial : Directory → Prop} {s s' : Service}
    (h : (identity initial).Steps (fun _ _ => True) s s') :
    LaterRows s.directory.accounts s'.directory.accounts := by
  refine h.preserves (I := fun u => LaterRows s.directory.accounts u.directory.accounts) ?_ (.refl _)
  intro u l u' hu _ hstep
  obtain ⟨entries, -, hw⟩ := wrote_of_step hstep
  exact hu.trans hw.laterRows

/-- The lookup that names `ada` again leaves the account deleted. -/
theorem accounts_only_advance_ada : ∃ s : Service,
    LaterRows adaAndBea.directory.accounts s.directory.accounts ∧
      isDeleted s.directory.accounts "ada" = true :=
  ⟨_, accounts_only_advance (Base.System.steps_get (M := identity fun _ => True)
    (adaLeaves ++ [.lookup adaBefore 5 100]) (by decide +kernel)), by decide +kernel⟩

end SiliconDm.Server
