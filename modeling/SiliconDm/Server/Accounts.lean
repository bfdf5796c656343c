import SiliconDm.Base.Fallible
import SiliconDm.Base.Table

/-!
# The cache of Silicon Accounts accounts

Rows of `dm.accounts` and the writes that webhooks and lookups make to them. Silicon Accounts
is authoritative; a row keeps the permanent uuid and what was last heard about the account.
Cache ages (`refreshed_at`, `created_at`, `last_authenticated_at`) are left out. Source:
`src/infrastructure/postgres/accounts.rs:189–324,469–479,554–575`,
`migrations/0039_accounts_identity.sql:17–55`.
-/

namespace SiliconDm.Server

open Base

/-- Carbons are people, Silicons are agents. `src/domain/actor.rs:18–23`. -/
inductive ActorType where
  | carbon
  | silicon
  deriving DecidableEq, Repr

/-- The `status` column. -/
inductive AccountStatus where
  | active
  | deleted
  deriving DecidableEq, Repr

/-- One cached account. `migrations/0039_accounts_identity.sql:17–50`. -/
structure Account where
  uuid : String
  kind : ActorType
  currentId : Option String
  displayName : Option String
  pfpUrl : Option String
  custodianUuid : Option String
  status : AccountStatus
  profileVersion : Nat
  idChangedAt : Option Nat
  custodianChangedAt : Option Nat
  revokedBefore : Option Nat
  deletedAt : Option Nat
  deriving DecidableEq, Repr

/-- A row as an insert that names only some columns leaves it. -/
def Account.new (uuid : String) (kind : ActorType) : Account where
  uuid := uuid
  kind := kind
  currentId := none
  displayName := none
  pfpUrl := none
  custodianUuid := none
  status := .active
  profileVersion := 0
  idChangedAt := none
  custodianChangedAt := none
  revokedBefore := none
  deletedAt := none

def account (accounts : List Account) (uuid : String) : Option Account :=
  getRow Account.uuid accounts uuid

/-- `EXISTS (SELECT 1 FROM accounts a WHERE a.uuid = … AND a.status = 'deleted')`. -/
def isDeleted (accounts : List Account) (uuid : String) : Bool :=
  (account accounts uuid).any (·.status = .deleted)

/-- The kind and handle of `c:handle` or `si:handle`. -/
def publicIdParts (id : String) : Option (ActorType × List Char) :=
  match id.toList with
  | 'c' :: ':' :: handle => some (.carbon, handle)
  | 's' :: 'i' :: ':' :: handle => some (.silicon, handle)
  | _ => none

/-- Whether an id is a well-formed public id. `accounts.rs:471–479`. -/
def validPublicId (id : String) : Bool :=
  (publicIdParts id).any fun parts =>
    1 ≤ parts.2.length && parts.2.length ≤ 50 &&
      parts.2.all fun c => c.isLower || c.isDigit || c = '-' || c = '_'

/-- The check `accounts_kind_matches_id`. `migrations/0039_accounts_identity.sql:36–38`. -/
def kindMatchesId (kind : ActorType) (id : String) : Bool :=
  (publicIdParts id).any (·.1 = kind)

/-- The check constraint a row violates, if any. PostgreSQL checks the row an upsert proposes
before it looks for a conflict, and the updated row after.
`migrations/0039_accounts_identity.sql:36–40`. -/
def Account.violated (a : Account) : Option String :=
  if a.currentId.any (!kindMatchesId a.kind ·) then some "accounts_kind_matches_id"
  else if a.custodianUuid.isSome && a.kind = .carbon then
    some "accounts_custodian_only_for_silicons"
  else none

inductive Applied where
  | changed
  | stale
  deriving DecidableEq, Repr

inductive AccountError where
  | invalidWebhookBody (message : String)
  | constraint (name : String)
  deriving DecidableEq, Repr

/-- `account.id_changed`. -/
structure IdChanged where
  uuid : String
  kind : Option ActorType
  newId : String
  occurredAt : Nat
  deriving DecidableEq, Repr

/-- Nobody else holds the id: `UPDATE accounts SET current_id = NULL WHERE current_id = $1 AND
uuid <> $2`. `accounts.rs:226–234,305–313`. -/
def clearId (id uuid : String) (accounts : List Account) : List Account :=
  accounts.map fun a =>
    if a.currentId = some id && a.uuid ≠ uuid then { a with currentId := none } else a

/-- The timestamp guard of an id change. `accounts.rs:295–296`. -/
def acceptsIdChange (a : Account) (occurredAt : Nat) : Bool :=
  a.status = .active && a.idChangedAt.all (· < occurredAt)

/-- The kind an event states, or the one its id has. `accounts.rs:287–291`. -/
def IdChanged.kindOrDefault (e : IdChanged) : ActorType :=
  e.kind.getD (((publicIdParts e.newId).map (·.1)).getD .carbon)

/-- The row an id change proposes. `accounts.rs:293`. -/
def IdChanged.proposed (e : IdChanged) : Account :=
  { Account.new e.uuid e.kindOrDefault with
    currentId := some e.newId
    idChangedAt := some e.occurredAt }

/-- The change it makes to a row that accepts it. `accounts.rs:294–295`. -/
def IdChanged.update (e : IdChanged) (a : Account) : Account :=
  { a with currentId := some e.newId, idChangedAt := some e.occurredAt }

/-- `INSERT … ON CONFLICT (uuid) DO UPDATE … WHERE guard`: a row that fails the guard is newer
and stays. -/
def guardedUpsert (accounts : List Account) (proposed : Account) (accepts : Account → Bool)
    (update : Account → Account) : Except AccountError (List Account × Applied) :=
  match proposed.violated with
  | some name => .error (.constraint name)
  | none =>
    match account accounts proposed.uuid with
    | none => .ok (accounts ++ [proposed], .changed)
    | some a =>
      if accepts a then
        match (update a).violated with
        | some name => .error (.constraint name)
        | none =>
          .ok (accounts.map fun a => if a.uuid = proposed.uuid then update a else a, .changed)
      else .ok (accounts, .stale)

/-- Apply an id change in `occurred_at` order of its own account. `accounts.rs:274–324`. -/
def applyIdChange (accounts : List Account) (e : IdChanged) :
    Except AccountError (List Account × Applied) :=
  if !validPublicId e.newId then
    .error (.invalidWebhookBody s!"account.id_changed carries an invalid id `{e.newId}`")
  else do
    let (accounts, applied) ←
      guardedUpsert accounts e.proposed (acceptsIdChange · e.occurredAt) e.update
    .ok (if applied = .changed then clearId e.newId e.uuid accounts else accounts, applied)

/-- What `GET /accounts/…` or a webhook snapshot says about an account. -/
structure AccountLookup where
  uuid : String
  kind : ActorType
  id : Option String
  displayName : Option String
  pfpUrl : Option String
  custodian : Option (String × String)
  deleted : Bool
  deriving DecidableEq, Repr

/-- The custodian row a lookup makes sure of. `accounts.rs:191–201`. -/
def custodianRow (custodian : String × String) : Account :=
  { Account.new custodian.1 .carbon with
    currentId := (some custodian.2).filter validPublicId }

/-- The row a lookup inserts. `accounts.rs:203–207`. -/
def AccountLookup.inserted (lookup : AccountLookup) (now : Nat) : Account :=
  { Account.new lookup.uuid lookup.kind with
    currentId := lookup.id.filter validPublicId
    displayName := lookup.displayName.map fun name => String.ofList (name.toList.take 200)
    pfpUrl := lookup.pfpUrl.filter (·.utf8ByteSize ≤ 2048)
    custodianUuid := lookup.custodian.map (·.1)
    status := if lookup.deleted then .deleted else .active
    deletedAt := if lookup.deleted then some now else none }

/-- The change a lookup makes to a row it finds; it never makes a deleted account active
again. `accounts.rs:208–216`. -/
def AccountLookup.updated (lookup : AccountLookup) (now : Nat) (a : Account) : Account :=
  let new := lookup.inserted now
  { a with
    currentId := if lookup.deleted then none else new.currentId.or a.currentId
    displayName := if lookup.deleted then none else new.displayName.or a.displayName
    pfpUrl := if lookup.deleted then none else new.pfpUrl.or a.pfpUrl
    custodianUuid := new.custodianUuid.or a.custodianUuid
    status := if lookup.deleted then .deleted else a.status
    deletedAt := if lookup.deleted then some (a.deletedAt.getD now) else a.deletedAt }

/-- The check constraints a lookup's statements meet, in order. -/
def AccountLookup.violated (lookup : AccountLookup) (accounts : List Account) (now : Nat) :
    Option String :=
  (lookup.custodian.bind fun custodian => (custodianRow custodian).violated).or
    ((lookup.inserted now).violated.or
      ((account accounts lookup.uuid).bind fun a => (lookup.updated now a).violated))

/-- Record an authoritative lookup. `accounts.rs:189–240`. -/
def recordLookup (accounts : List Account) (lookup : AccountLookup) (now : Nat) :
    Except AccountError (List Account) :=
  let accounts := match lookup.custodian with
    | none => accounts
    | some custodian =>
      upsert Account.uuid custodian.1 (custodianRow custodian) (fun a => a) accounts
  match lookup.violated accounts now with
  | some name => .error (.constraint name)
  | none =>
    let accounts :=
      upsert Account.uuid lookup.uuid (lookup.inserted now) (lookup.updated now) accounts
    .ok (match lookup.id with
      | some id => if lookup.deleted then accounts else clearId id lookup.uuid accounts
      | none => accounts)

/-- The account row of `account.deleted`. `accounts.rs:556–571`. -/
def markDeleted (accounts : List Account) (uuid : String) (occurred : Nat) : List Account :=
  upsert Account.uuid uuid
    { Account.new uuid .carbon with
      status := .deleted
      deletedAt := some occurred
      revokedBefore := some occurred }
    (fun a =>
      { a with
        status := .deleted
        currentId := none
        displayName := none
        pfpUrl := none
        deletedAt := some (a.deletedAt.getD occurred)
        revokedBefore := some (max (a.revokedBefore.getD occurred) occurred) }) accounts

/-! ### The views after each write -/

theorem uuid_clearId (id uuid : String) (a : Account) :
    (if a.currentId = some id && a.uuid ≠ uuid then { a with currentId := none } else a).uuid =
      a.uuid := by
  split <;> rfl

theorem account_clearId (id uuid : String) (accounts : List Account) (u : String) :
    account (clearId id uuid accounts) u = (account accounts u).map fun a =>
      if a.currentId = some id && a.uuid ≠ uuid then { a with currentId := none } else a :=
  getRow_map (uuid_clearId id uuid) u

section Upsert

variable {x : List Account} {k u : String} {new : Account} {f : Account → Account}
  (hn : new.uuid = k) (hu : ∀ a, (f a).uuid = a.uuid)
include hn hu

theorem account_upsert (u : String) : account (upsert Account.uuid k new f x) u =
    if u = k then some ((account x k).elim new f) else account x u :=
  getRow_upsert hn (fun a _ => hu a) u

theorem account_upsert_self :
    account (upsert Account.uuid k new f x) k = some ((account x k).elim new f) :=
  (account_upsert hn hu k).trans (if_pos rfl)

theorem account_upsert_of_ne (h : u ≠ k) :
    account (upsert Account.uuid k new f x) u = account x u :=
  (account_upsert hn hu u).trans (if_neg h)

end Upsert

/-- The view after an accepted id change. -/
theorem account_idChanged (accounts : List Account) (e : IdChanged) (u : String) :
    account (clearId e.newId e.uuid (upsert Account.uuid e.uuid e.proposed e.update accounts)) u =
      if u = e.uuid then some ((account accounts e.uuid).elim e.proposed e.update)
      else (account accounts u).map fun a =>
        if a.currentId = some e.newId && a.uuid ≠ e.uuid then { a with currentId := none } else a := by
  have hview : ∀ u, account (upsert Account.uuid e.uuid e.proposed e.update accounts) u =
      if u = e.uuid then some ((account accounts e.uuid).elim e.proposed e.update)
      else account accounts u := account_upsert rfl fun _ => rfl
  rw [account_clearId, hview]
  by_cases hu : u = e.uuid
  · subst hu
    have huuid : ((account accounts e.uuid).elim e.proposed e.update).uuid = e.uuid :=
      (mem_of_getRow_eq_some ((hview e.uuid).trans (if_pos rfl))).2
    simp [huuid]
  · simp [hu]

variable {accounts accounts' : List Account} {e : IdChanged} {applied : Applied}

theorem keyed_clearId {id uuid : String} (h : Keyed Account.uuid accounts) :
    Keyed Account.uuid (clearId id uuid accounts) :=
  h.map (uuid_clearId id uuid)

/-- What a guarded upsert did: nothing to a row that failed the guard, or the upsert. -/
theorem guardedUpsert_eq_ok
    (h : guardedUpsert accounts proposed accepts update = .ok (accounts', applied)) :
    proposed.violated = none ∧
      ((∃ a, account accounts proposed.uuid = some a ∧ accepts a = false ∧
          accounts' = accounts ∧ applied = .stale) ∨
        ((∀ a, account accounts proposed.uuid = some a → accepts a = true) ∧
          accounts' = upsert Account.uuid proposed.uuid proposed update accounts ∧
          applied = .changed ∧
          ∀ a, account accounts proposed.uuid = some a → (update a).violated = none)) := by
  unfold guardedUpsert at h
  split at h
  case h_1 => cases h
  case h_2 hval =>
  refine ⟨hval, ?_⟩
  split at h
  case h_1 hn =>
    cases h
    right
    have hg : getRow Account.uuid accounts proposed.uuid = none := hn
    exact ⟨by simp [hn], by simp [upsert, hg], rfl, by simp [hn]⟩
  case h_2 a hsome =>
    split at h
    case isFalse hno =>
      cases h
      exact .inl ⟨a, hsome, by simpa using hno, rfl, rfl⟩
    case isTrue hyes =>
      split at h
      case h_1 => cases h
      case h_2 hupd =>
        cases h
        right
        have hg : getRow Account.uuid accounts proposed.uuid = some a := hsome
        have hr : ∀ b, account accounts proposed.uuid = some b → b = a := by
          intro b hb
          exact Option.some.inj (hb.symm.trans hsome)
        refine ⟨?_, by simp [upsert, hg], rfl, ?_⟩
        · intro b hb
          rw [hr b hb]
          exact hyes
        · intro b hb
          rw [hr b hb]
          exact hupd

/-- What an accepted delivery does: nothing to a row that is deleted or newer, or the change of
its own row followed by the clearing of the id elsewhere. -/
theorem applyIdChange_eq_ok (h : applyIdChange accounts e = .ok (accounts', applied)) :
    (∃ a, account accounts e.uuid = some a ∧ acceptsIdChange a e.occurredAt = false ∧
      accounts' = accounts ∧ applied = .stale) ∨
    (∀ a, account accounts e.uuid = some a → acceptsIdChange a e.occurredAt = true) ∧
      accounts' = clearId e.newId e.uuid
        (upsert Account.uuid e.uuid e.proposed e.update accounts) := by
  unfold applyIdChange at h
  split at h
  case isTrue => cases h
  case isFalse =>
    obtain ⟨⟨rows, did⟩, hok, he⟩ := bind_eq_ok.mp h
    obtain ⟨-, ⟨a, ha, hno, rfl, rfl⟩ | ⟨hacc, rfl, rfl, -⟩⟩ := guardedUpsert_eq_ok hok
    · cases he
      exact .inl ⟨a, ha, hno, rfl, rfl⟩
    · cases he
      exact .inr ⟨hacc, rfl⟩

theorem keyed_applyIdChange (hk : Keyed Account.uuid accounts)
    (h : applyIdChange accounts e = .ok (accounts', applied)) : Keyed Account.uuid accounts' := by
  rcases applyIdChange_eq_ok h with ⟨a, -, -, rfl, -⟩ | ⟨-, rfl⟩
  · exact hk
  · exact keyed_clearId (hk.upsert rfl fun _ _ => rfl)

/-! ### Deletion is final -/

theorem isDeleted_upsert {uuid : String} {new : Account} {f : Account → Account}
    (hnew : new.uuid = uuid) (hf : ∀ a, (f a).uuid = a.uuid) (u : String) :
    isDeleted (upsert Account.uuid uuid new f accounts) u =
      if u = uuid then decide (((account accounts uuid).elim new f).status = .deleted)
      else isDeleted accounts u := by
  unfold isDeleted
  rw [account_upsert hnew hf]
  split <;> rfl

theorem isDeleted_clearId (id uuid : String) (accounts : List Account) (u : String) :
    isDeleted (clearId id uuid accounts) u = isDeleted accounts u := by
  unfold isDeleted
  rw [account_clearId]
  cases account accounts u with
  | none => rfl
  | some a =>
    simp only [Option.map_some, Option.any_some]
    split <;> rfl

/-- A deletion event deletes its account and no other. -/
theorem isDeleted_markDeleted (accounts : List Account) (uuid : String) (occurred : Nat)
    (u : String) :
    isDeleted (markDeleted accounts uuid occurred) u = (u = uuid || isDeleted accounts u) := by
  refine (isDeleted_upsert (by rfl) (fun _ => by rfl) u).trans ?_
  by_cases hu : u = uuid
  · cases account accounts uuid <;> simp [hu]
  · simp [hu]

/-- Making sure of a custodian's row deletes nobody. -/
theorem isDeleted_custodianRow (accounts : List Account) (custodian : String × String)
    (u : String) :
    isDeleted (upsert Account.uuid custodian.1 (custodianRow custodian) (fun a => a) accounts) u =
      isDeleted accounts u := by
  refine (isDeleted_upsert (by rfl) (fun _ => by rfl) u).trans ?_
  split
  next hu =>
    subst hu
    unfold isDeleted
    cases account accounts custodian.1 <;> rfl
  next => rfl

/-- A lookup deletes its account if it says so, and never makes one active again. -/
theorem isDeleted_recordLookup {lookup : AccountLookup} {now : Nat}
    (h : recordLookup accounts lookup now = .ok accounts') (u : String) :
    isDeleted accounts' u = ((u = lookup.uuid && lookup.deleted) || isDeleted accounts u) := by
  have hupd : ∀ rows : List Account, isDeleted rows u = isDeleted accounts u →
      isDeleted (upsert Account.uuid lookup.uuid (lookup.inserted now) (lookup.updated now) rows) u =
        ((u = lookup.uuid && lookup.deleted) || isDeleted accounts u) := by
    intro rows hrs
    rw [← hrs]
    refine (isDeleted_upsert (by rfl) (fun _ => by rfl) u).trans ?_
    by_cases hu : u = lookup.uuid
    · subst hu
      unfold isDeleted
      cases account rows lookup.uuid <;>
        cases hd : lookup.deleted <;> simp [AccountLookup.inserted, AccountLookup.updated, hd]
    · simp [hu]
  unfold recordLookup at h
  simp only at h
  split at h
  next => cases h
  next =>
    cases h
    have hrs : isDeleted (match lookup.custodian with
        | none => accounts
        | some custodian =>
          upsert Account.uuid custodian.1 (custodianRow custodian) (fun a => a) accounts) u =
        isDeleted accounts u := by
      split
      next => rfl
      next custodian _ => exact isDeleted_custodianRow accounts custodian u
    split
    next id _ =>
      split
      next => exact hupd _ hrs
      next => rw [isDeleted_clearId]; exact hupd _ hrs
    next => exact hupd _ hrs

end SiliconDm.Server
