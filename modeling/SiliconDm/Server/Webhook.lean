import SiliconDm.Server.Accounts

/-!
# Events of Silicon Accounts and what they write

The events of the webhook, and the store calls that apply them: each is one upsert of the
account's row under a guard of its own (the time of the last change, the profile's version, the
sign-in cutoff). A sign-in writes the same rows. Times are milliseconds. Source:
`src/application/ports.rs:74–131`, `src/infrastructure/postgres/accounts.rs:132–183,243–271,
326–431,531–571`, `src/api/webhook.rs:93–166`.
-/

namespace SiliconDm.Server

open Base Option

/-! ### Events -/

inductive AccountEvent where
  | idChanged (uuid : String) (kind : Option ActorType) (newId : String)
  | updated (uuid : String) (account : Option AccountLookup) (version : Int)
  | deleted (uuid : String)
  | signedOut (uuid : String) (reason : Option String)
  | accessRemoved (uuid : String)
  | custodianChanged (uuid : String) (custodian : Option (String × String))
  | ping
  | unknown
  deriving DecidableEq, Repr

structure VerifiedEvent where
  eventId : String
  occurredAt : Option Nat
  event : AccountEvent
  deriving DecidableEq, Repr

/-- The identities an event names. `webhook.rs:38–62`. -/
def AccountEvent.identities : AccountEvent → List String
  | .idChanged uuid _ _ | .deleted uuid | .signedOut uuid _ | .accessRemoved uuid => [uuid]
  | .updated uuid account _ =>
    uuid :: (account.map fun a => a.uuid :: (a.custodian.map (·.1)).toList).getD []
  | .custodianChanged uuid custodian => uuid :: (custodian.map (·.1)).toList
  | .ping | .unknown => []

/-- The row `account.updated` proposes. `accounts.rs:336–349`. -/
def AccountLookup.profile (lookup : AccountLookup) (version : Int) : Account :=
  { Account.new lookup.uuid lookup.kind with
    currentId := lookup.id.filter validPublicId
    displayName := lookup.displayName.map fun name => String.ofList (name.toList.take 200)
    pfpUrl := lookup.pfpUrl.filter (·.utf8ByteSize ≤ 2048)
    custodianUuid := lookup.custodian.map (·.1)
    profileVersion := version.toNat }

/-- `account.updated`, in the order of profile versions. A named custodian replaces the stored
one. `accounts.rs:326–362`. -/
def applyProfileUpdate (accounts : List Account) (lookup : AccountLookup) (version : Int) :
    Except AccountError (List Account × Applied) :=
  let new := lookup.profile version
  guardedUpsert accounts new
    (fun a => a.status = .active && a.profileVersion < new.profileVersion)
    (fun a =>
      { a with
        displayName := new.displayName
        pfpUrl := new.pfpUrl
        custodianUuid := new.custodianUuid.or a.custodianUuid
        profileVersion := new.profileVersion })

/-- A row with its custodian as of a change. `accounts.rs:389–392`. -/
def Account.withCustodian (a : Account) (custodian : String) (occurredAt : Nat) : Account :=
  { a with custodianUuid := some custodian, custodianChangedAt := some occurredAt }

/-- `silicon.custodian_changed`, in the order of its times, after making sure of the new
custodian's row. `accounts.rs:368–406`. -/
def applyCustodianChange (accounts : List Account) (silicon : String)
    (custodian : String × String) (occurredAt : Nat) :
    Except AccountError (List Account × Applied) :=
  match (custodianRow custodian).violated with
  | some name => .error (.constraint name)
  | none =>
    guardedUpsert
      (upsert Account.uuid custodian.1 (custodianRow custodian) (fun a => a) accounts)
      ((Account.new silicon .silicon).withCustodian custodian.1 occurredAt)
      (fun a => a.kind = .silicon && a.custodianChangedAt.all (· < occurredAt))
      (·.withCustodian custodian.1 occurredAt)

/-- Refuse tokens issued before a time. It is an `UPDATE`: an account without a row gets none.
`accounts.rs:412–431`. -/
def revokeSessionsBefore (accounts : List Account) (uuid : String) (cutoff : Nat) :
    List Account :=
  accounts.map fun a =>
    if a.uuid = uuid && a.revokedBefore.all (· < cutoff) then
      { a with revokedBefore := some cutoff }
    else a

/-- Record a verified sign-in. The id of a token replaces the cached one only when the token is
newer than the last id change. Without effect on these columns, the update is skipped within a
minute of the last one. `accounts.rs:139–180`. -/
def recordAuthentication (accounts : List Account) (uuid : String) (kind : ActorType)
    (id : Option String) (issuedAt : Option Nat) : Except AccountError (List Account × Applied) :=
  let id := id.filter validPublicId
  guardedUpsert accounts { Account.new uuid kind with currentId := id } (fun _ => true)
    (fun a =>
      { a with
        currentId :=
          if a.status ≠ .deleted && id.isSome &&
              a.idChangedAt.all (fun changed => issuedAt.any (changed < ·)) then id
          else a.currentId })

/-- The profile a member shared with DM fills a row that no event has described.
`accounts.rs:248–271`. -/
def recordMemberProfile (accounts : List Account) (uuid : String)
    (displayName pfpUrl : Option String) : List Account :=
  accounts.map fun a =>
    if a.uuid = uuid && a.status = .active && a.profileVersion = 0 then
      { a with
        displayName := displayName.map fun name => String.ofList (name.toList.take 200)
        pfpUrl := pfpUrl.filter (·.utf8ByteSize ≤ 2048) }
    else a

/-! ### Kept rows -/

def Kept (R : Account → Account → Prop) (accounts accounts' : List Account) : Prop :=
  ∀ u a, account accounts u = some a → ∃ a', account accounts' u = some a' ∧ R a a'

variable {accounts accounts' x y : List Account} {proposed : Account} {accepts : Account → Bool}
  {update : Account → Account} {applied : Applied}

section Kept

variable {R : Account → Account → Prop} {accounts accounts' : List Account}

theorem Kept.refl (hR : ∀ a, R a a) (accounts : List Account) : Kept R accounts accounts :=
  fun _ a h => ⟨a, h, hR a⟩

theorem Kept.trans (hR : ∀ a b c, R a b → R b c → R a c) {x y z : List Account}
    (h : Kept R x y) (h' : Kept R y z) : Kept R x z := by
  intro u a ha
  obtain ⟨b, hb, hab⟩ := h u a ha
  obtain ⟨c, hc, hbc⟩ := h' u b hb
  exact ⟨c, hc, hR a b c hab hbc⟩

variable {f : Account → Account}

theorem kept_map (hu : ∀ a, (f a).uuid = a.uuid) (hf : ∀ a, R a (f a)) :
    Kept R accounts (accounts.map f) := by
  intro u a ha
  refine ⟨f a, ?_, hf a⟩
  unfold account at *
  rw [getRow_map hu, ha]
  rfl

theorem kept_upsert (hR : ∀ a, R a a) {k : String} {new : Account} (hn : new.uuid = k)
    (hu : ∀ a, (f a).uuid = a.uuid) (hf : ∀ a, account accounts k = some a → R a (f a)) :
    Kept R accounts (upsert Account.uuid k new f accounts) := by
  intro u a ha
  rw [account_upsert hn hu]
  split
  case isTrue he =>
    subst he
    rw [ha]
    exact ⟨f a, rfl, hf a ha⟩
  case isFalse => exact ⟨a, ha, hR a⟩

/-- A guarded upsert keeps every row if its update, where accepted, does. -/
theorem kept_guardedUpsert (hR : ∀ a, R a a)
    (h : guardedUpsert accounts proposed accepts update = .ok (accounts', applied))
    (hu : ∀ a, (update a).uuid = a.uuid)
    (hf : ∀ a, account accounts proposed.uuid = some a → accepts a = true → R a (update a)) :
    Kept R accounts accounts' := by
  obtain ⟨-, ⟨a, -, -, rfl, -⟩ | ⟨hacc, rfl, -⟩⟩ := guardedUpsert_eq_ok h
  · exact .refl hR _
  · exact kept_upsert hR rfl hu fun a ha => hf a ha (hacc a ha)

end Kept

/-! ### What every write keeps -/

/-- What no write takes back: a row is never removed, its kind never changes, a deletion is
final, and its times and versions never decrease. -/
structure Account.Later (a a' : Account) : Prop where
  kind : a'.kind = a.kind
  deleted : a.status = .deleted → a'.status = .deleted
  version : a.profileVersion ≤ a'.profileVersion
  idChanged : ∀ t ∈ a.idChangedAt, ∃ t' ∈ a'.idChangedAt, t ≤ t'
  custodianChanged : ∀ t ∈ a.custodianChangedAt, ∃ t' ∈ a'.custodianChangedAt, t ≤ t'
  revoked : ∀ t ∈ a.revokedBefore, ∃ t' ∈ a'.revokedBefore, t ≤ t'
  dated : a.deletedAt.isSome → a'.deletedAt.isSome

theorem Account.Later.refl (a : Account) : a.Later a :=
  ⟨rfl, id, Nat.le_refl _, fun t h => ⟨t, h, Nat.le_refl t⟩, fun t h => ⟨t, h, Nat.le_refl t⟩,
    fun t h => ⟨t, h, Nat.le_refl t⟩, id⟩

private theorem le_chain {x y z : Option Nat} (h : ∀ t ∈ x, ∃ t' ∈ y, t ≤ t')
    (h' : ∀ t ∈ y, ∃ t' ∈ z, t ≤ t') : ∀ t ∈ x, ∃ t' ∈ z, t ≤ t' := by
  intro t ht
  obtain ⟨t', ht', hle⟩ := h t ht
  obtain ⟨t'', ht'', hle'⟩ := h' t' ht'
  exact ⟨t'', ht'', Nat.le_trans hle hle'⟩

variable {a proposed : Account} {f update : Account → Account} {accepts : Account → Bool}
  {applied : Applied} {lookup : AccountLookup} {occurredAt now : Nat}

theorem Account.Later.trans {b c : Account} (h : a.Later b) (h' : b.Later c) : a.Later c :=
  ⟨h'.kind.trans h.kind, fun hd => h'.deleted (h.deleted hd), Nat.le_trans h.version h'.version,
    le_chain h.idChanged h'.idChanged, le_chain h.custodianChanged h'.custodianChanged,
    le_chain h.revoked h'.revoked, fun hd => h'.dated (h.dated hd)⟩

/-- Every row is kept, and later. -/
def LaterRows (accounts accounts' : List Account) : Prop :=
  ∀ u a, account accounts u = some a → ∃ a', account accounts' u = some a' ∧ a.Later a'

theorem LaterRows.refl (accounts : List Account) : LaterRows accounts accounts :=
  Kept.refl Account.Later.refl accounts

theorem LaterRows.trans {z : List Account} (h : LaterRows x y) (h' : LaterRows y z) :
    LaterRows x z :=
  Kept.trans (R := Account.Later) (fun _ _ _ => .trans) h h'

theorem laterRows_map (hu : ∀ a, (f a).uuid = a.uuid) (hf : ∀ a : Account, a.Later (f a)) :
    LaterRows accounts (accounts.map f) :=
  kept_map hu hf

theorem laterRows_upsert {u : String} {new : Account} (hn : new.uuid = u)
    (hu : ∀ a, (f a).uuid = a.uuid) (hf : ∀ a, account accounts u = some a → a.Later (f a)) :
    LaterRows accounts (upsert Account.uuid u new f accounts) :=
  kept_upsert Account.Later.refl hn hu hf

theorem laterRows_guardedUpsert
    (h : guardedUpsert accounts proposed accepts update = .ok (accounts', applied))
    (hu : ∀ a, (update a).uuid = a.uuid) (hf : ∀ a : Account, accepts a = true → a.Later (update a)) :
    LaterRows accounts accounts' :=
  kept_guardedUpsert Account.Later.refl h hu fun a _ ha => hf a ha

theorem laterRows_recordAuthentication {uuid : String} {kind : ActorType} {id : Option String}
    {issuedAt : Option Nat}
    (h : recordAuthentication accounts uuid kind id issuedAt = .ok (accounts', applied)) :
    LaterRows accounts accounts' :=
  laterRows_guardedUpsert h (fun _ => rfl) fun a _ =>
    let r := Account.Later.refl a
    ⟨rfl, r.deleted, r.version, r.idChanged, r.custodianChanged, r.revoked, r.dated⟩

theorem laterRows_applyProfileUpdate {version : Int}
    (h : applyProfileUpdate accounts lookup version = .ok (accounts', applied)) :
    LaterRows accounts accounts' := by
  refine laterRows_guardedUpsert h (fun _ => rfl) fun a ha => ?_
  have hlt : a.profileVersion < (lookup.profile version).profileVersion := by
    simp only [Bool.and_eq_true, decide_eq_true_eq] at ha
    exact ha.2
  have r := Account.Later.refl a
  exact ⟨rfl, r.deleted, Nat.le_of_lt hlt, r.idChanged, r.custodianChanged, r.revoked, r.dated⟩

theorem later_withCustodian {custodian : String}
    (h : (a.kind = .silicon && a.custodianChangedAt.all (· < occurredAt) : Bool) = true) :
    a.Later (a.withCustodian custodian occurredAt) := by
  have r := Account.Later.refl a
  refine ⟨rfl, r.deleted, r.version, r.idChanged, ?_, r.revoked, r.dated⟩
  intro t ht
  simp only [Bool.and_eq_true, mem_def.mp ht, all_some, decide_eq_true_eq] at h
  exact ⟨occurredAt, rfl, Nat.le_of_lt h.2⟩

theorem applyCustodianChange_eq_ok {silicon : String} {custodian : String × String}
    (h : applyCustodianChange accounts silicon custodian occurredAt = .ok (accounts', applied)) :
    (custodianRow custodian).violated = none ∧ guardedUpsert
      (upsert Account.uuid custodian.1 (custodianRow custodian) (fun a => a) accounts)
      ((Account.new silicon .silicon).withCustodian custodian.1 occurredAt)
      (fun a => a.kind = .silicon && a.custodianChangedAt.all (· < occurredAt))
      (·.withCustodian custodian.1 occurredAt) = .ok (accounts', applied) := by
  unfold applyCustodianChange at h
  split at h
  case h_1 => cases h
  case h_2 hrow => exact ⟨hrow, h⟩

theorem laterRows_applyCustodianChange {silicon : String} {custodian : String × String}
    (h : applyCustodianChange accounts silicon custodian occurredAt = .ok (accounts', applied)) :
    LaterRows accounts accounts' := by
  have hcus := laterRows_guardedUpsert (applyCustodianChange_eq_ok h).2 (fun _ => rfl) fun a ha =>
    later_withCustodian ha
  exact LaterRows.trans (laterRows_upsert (by rfl) (fun _ => rfl) fun a _ => .refl a) hcus

theorem laterRows_revokeSessionsBefore (accounts : List Account) (uuid : String) (cutoff : Nat) :
    LaterRows accounts (revokeSessionsBefore accounts uuid cutoff) := by
  refine laterRows_map ?_ ?_
  · intro a
    split <;> rfl
  · intro a
    have r := Account.Later.refl a
    split
    case isFalse => exact r
    case isTrue hc =>
      refine ⟨rfl, r.deleted, r.version, r.idChanged, r.custodianChanged, ?_, r.dated⟩
      intro t ht
      simp only [Bool.and_eq_true, mem_def.mp ht, all_some,
        decide_eq_true_eq] at hc
      exact ⟨cutoff, rfl, Nat.le_of_lt hc.2⟩

theorem laterRows_recordMemberProfile (accounts : List Account) (uuid : String)
    (displayName pfpUrl : Option String) :
    LaterRows accounts (recordMemberProfile accounts uuid displayName pfpUrl) := by
  refine laterRows_map ?_ ?_
  · intro a
    split <;> rfl
  · intro a
    have r := Account.Later.refl a
    split
    · exact ⟨rfl, r.deleted, r.version, r.idChanged, r.custodianChanged, r.revoked, r.dated⟩
    · exact r

theorem laterRows_clearId (id uuid : String) (accounts : List Account) :
    LaterRows accounts (clearId id uuid accounts) := by
  refine laterRows_map (uuid_clearId id uuid) ?_
  intro a
  have r := Account.Later.refl a
  split
  · exact ⟨rfl, r.deleted, r.version, r.idChanged, r.custodianChanged, r.revoked, r.dated⟩
  · exact r

theorem laterRows_applyIdChange {e : IdChanged}
    (h : applyIdChange accounts e = .ok (accounts', applied)) : LaterRows accounts accounts' := by
  obtain ⟨a, -, -, rfl, -⟩ | ⟨hacc, rfl⟩ := applyIdChange_eq_ok h
  · exact .refl _
  · refine LaterRows.trans ?_ (laterRows_clearId _ _ _)
    refine laterRows_upsert rfl (fun _ => rfl) fun a ha => ?_
    have r := Account.Later.refl a
    refine ⟨rfl, r.deleted, r.version, ?_, r.custodianChanged, r.revoked, r.dated⟩
    intro t ht
    have hlt := hacc a ha
    simp only [acceptsIdChange, Bool.and_eq_true, mem_def.mp ht, all_some,
      decide_eq_true_eq] at hlt
    exact ⟨e.occurredAt, rfl, Nat.le_of_lt hlt.2⟩

theorem laterRows_markDeleted (accounts : List Account) (uuid : String) (occurred : Nat) :
    LaterRows accounts (markDeleted accounts uuid occurred) := by
  refine laterRows_upsert rfl (fun _ => rfl) fun a _ => ?_
  have r := Account.Later.refl a
  refine ⟨rfl, fun _ => rfl, r.version, r.idChanged, r.custodianChanged, ?_, fun _ => rfl⟩
  intro t ht
  exact ⟨max t occurred, by simp [mem_def.mp ht], Nat.le_max_left t occurred⟩

/-- What a recorded lookup did: it made sure of the custodian's row, upserted its own, and may
have cleared its id elsewhere. -/
theorem recordLookup_eq_ok (h : recordLookup accounts lookup now = .ok accounts') :
    ∃ rows, (rows = accounts ∨ ∃ custodian, lookup.custodian = some custodian ∧ rows =
        upsert Account.uuid custodian.1 (custodianRow custodian) (fun a => a) accounts) ∧
      lookup.violated rows now = none ∧
      let upserted :=
        upsert Account.uuid lookup.uuid (lookup.inserted now) (lookup.updated now) rows
      (accounts' = upserted ∨ ∃ id, (lookup.id = some id ∧ lookup.deleted = false) ∧
        accounts' = clearId id lookup.uuid upserted) := by
  unfold recordLookup at h
  simp only [] at h
  split at h
  case h_1 => cases h
  case h_2 hval =>
    cases h
    refine ⟨_, ?_, hval, ?_⟩
    · cases lookup.custodian with
      | none => exact .inl rfl
      | some custodian => exact .inr ⟨custodian, rfl, rfl⟩
    · cases lookup.id with
      | none => exact .inl rfl
      | some id =>
        cases lookup.deleted with
        | true => exact .inl rfl
        | false => exact .inr ⟨id, ⟨rfl, rfl⟩, rfl⟩

theorem laterRows_recordLookup (h : recordLookup accounts lookup now = .ok accounts') :
    LaterRows accounts accounts' := by
  obtain ⟨rows, hrs, -, hcase⟩ := recordLookup_eq_ok h
  have hcus : LaterRows accounts rows := by
    obtain rfl | ⟨custodian, -, rfl⟩ := hrs
    · exact .refl _
    · exact laterRows_upsert rfl (fun _ => rfl) fun a _ => .refl a
  have hr : LaterRows rows
      (upsert Account.uuid lookup.uuid (lookup.inserted now) (lookup.updated now) rows) := by
    refine laterRows_upsert rfl (fun _ => rfl) fun a _ => ?_
    have r := Account.Later.refl a
    refine ⟨rfl, ?_, r.version, r.idChanged, r.custodianChanged, r.revoked, ?_⟩
    · intro hd
      simp only [AccountLookup.updated]
      split
      · rfl
      · exact hd
    · intro hd
      simp only [AccountLookup.updated]
      split
      · rfl
      · exact hd
  obtain rfl | ⟨id, -, rfl⟩ := hcase
  · exact hcus.trans hr
  · exact hcus.trans (hr.trans (laterRows_clearId _ _ _))

/-! ### Unique keys -/

theorem keyed_guardedUpsert (hk : Keyed Account.uuid x)
    (h : guardedUpsert x proposed accepts update = .ok (y, applied))
    (hu : ∀ a, (update a).uuid = a.uuid) : Keyed Account.uuid y := by
  obtain ⟨-, ⟨a, -, -, rfl, -⟩ | ⟨-, rfl, -⟩⟩ := guardedUpsert_eq_ok h
  · exact hk
  · exact hk.upsert rfl fun a _ => hu a

theorem keyed_recordLookup {found : AccountLookup} (hk : Keyed Account.uuid x)
    (h : recordLookup x found now = .ok y) : Keyed Account.uuid y := by
  obtain ⟨rows, hrs, -, hcase⟩ := recordLookup_eq_ok h
  have hkrows : Keyed Account.uuid rows := by
    obtain rfl | ⟨custodian, -, rfl⟩ := hrs
    · exact hk
    · exact hk.upsert rfl fun _ _ => rfl
  have hkrow : Keyed Account.uuid
      (upsert Account.uuid found.uuid (found.inserted now) (found.updated now) rows) :=
    hkrows.upsert rfl fun _ _ => rfl
  obtain rfl | ⟨id, -, rfl⟩ := hcase
  · exact hkrow
  · exact keyed_clearId hkrow

end SiliconDm.Server
