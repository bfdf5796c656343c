import SiliconDm.Server.Identity
import SiliconDm.Server.Selectors

/-!
# How old a cached id may be

`resolve` answers an id from the cache if exactly one active account has it and the row was
refreshed within `ID_CACHE_TTL`: "how long a cached id → uuid answer is trusted before DM asks
Accounts again". One column, `refreshed_at`, dates everything a row says; it is set by writers
that say nothing about the id. The columns `refreshed_at` and `last_authenticated_at` stand
beside the accounts here; the database and the server share one clock, in milliseconds. Source:
`src/application/accounts.rs:19–21,260–289`, `src/infrastructure/postgres/accounts.rs:129–406,
554–571`, `migrations/0039_accounts_identity.sql:28–30`.
-/

namespace SiliconDm.Server.IdCache

open Base List Option

/-! ### Ages -/

structure Age where
  uuid : String
  refreshedAt : Nat
  lastAuthenticatedAt : Option Nat
  deriving DecidableEq, Repr

/-- `refreshed_at = clock_timestamp()`, also the default of a new row. -/
def refresh (now : Nat) (ages : List Age) (uuid : String) : List Age :=
  upsert Age.uuid uuid ⟨uuid, now, none⟩ (fun age => { age with refreshedAt := now }) ages

/-- The row that making sure of a custodian's makes. -/
def madeFor (accounts : List Account) (custodian : String × String) : List String :=
  if (account accounts custodian.1).isNone then [custodian.1] else []

/-- The rows whose `refreshed_at` a store call of an event sets. -/
def stampedBy (accounts : List Account) : Effect → List String
  | .idChange change =>
    match applyIdChange accounts change with
    | .ok (_, applied) => if applied = .changed then [change.uuid] else []
    | .error _ => []
  | .profile found version _ =>
    match applyProfileUpdate accounts found version with
    | .ok (_, applied) => if applied = .changed then [found.uuid] else []
    | .error _ => []
  | .custodian silicon owner occurredAt =>
    match applyCustodianChange accounts silicon owner occurredAt with
    | .ok (_, applied) => madeFor accounts owner ++ if applied = .changed then [silicon] else []
    | .error _ => []
  | .revoke _ _ | .endProofs _ _ => []
  | .delete uuid _ => [uuid]

/-- The id that a sign-in presents to the cache. -/
def presented (c : Context) : Option String :=
  (some c.publicId).filter validPublicId

/-- One minute: sign-ins with the cached id are written no more often. -/
def authenticationInterval : Nat := 60000

/-- The `WHERE` of `record_authentication`'s update, on a row that is there. -/
def authenticationDue (accounts : List Account) (ages : List Age) (now : Nat) (c : Context) :
    Bool :=
  match getRow Age.uuid ages c.actor.id with
  | none => true
  | some age =>
    age.lastAuthenticatedAt.all (· + authenticationInterval < now) ||
      (account accounts c.actor.id).bind (·.currentId) ≠ presented c

/-- A sign-in was recorded. `accounts.rs:145–166`. -/
def authenticated (now : Nat) (ages : List Age) (uuid : String) : List Age :=
  upsert Age.uuid uuid ⟨uuid, now, some now⟩
    (fun age => { age with
      refreshedAt := max age.refreshedAt now, lastAuthenticatedAt := some now }) ages

/-! ### The cache -/

/-- A token, lookup or id event that was processed said that an account has an id. -/
structure Statement where
  uuid : String
  id : String
  time : Nat
  deriving DecidableEq, Repr

structure Cache where
  service : Service
  ages : List Age
  now : Nat
  said : List Statement

/-- The rows whose `refreshed_at` a step sets. -/
def Cache.stamped (c : Cache) (now : Nat) : Label → List String
  | .advance id _ =>
    match c.service.job id with
    | some (.apply _ _ _ (effect :: _)) => stampedBy c.service.directory.accounts effect
    | some (.authenticate who) =>
      if who.actor.id ∈ c.service.directory.retired then []
      else
        match recordAuthentication c.service.directory.accounts who.actor.id who.actor.actorType
            (presented who) who.issuedAt with
        | .ok _ =>
          if authenticationDue c.service.directory.accounts c.ages now who then [who.actor.id]
          else []
        | .error _ => []
    | _ => []
  | .lookup found _ time =>
    match recordLookup c.service.directory.accounts found time with
    | .ok _ => found.custodian.elim [] (madeFor c.service.directory.accounts) ++ [found.uuid]
    | .error _ => []
  | .memberProfile uuid _ _ =>
    if (account c.service.directory.accounts uuid).any fun a =>
        a.status = .active && a.profileVersion = 0 then [uuid]
    else []
  | .start _ _ | .drop _ => []

def Cache.stamp (c : Cache) (now : Nat) : Label → List Age → String → List Age
  | .advance id _ =>
    match c.service.job id with
    | some (.authenticate _) => authenticated now
    | _ => refresh now
  | _ => refresh now

def Cache.aged (c : Cache) (now : Nat) (l : Label) : List Age :=
  (c.stamped now l).foldl (c.stamp now l) c.ages

def Effect.states : Effect → List (String × String)
  | .idChange change => [(change.uuid, change.newId)]
  | _ => []

def lookupStates (found : AccountLookup) : List (String × String) :=
  if found.deleted then []
  else (found.id.map (found.uuid, ·)).toList ++ found.custodian.toList

/-- What the token, lookup or id event of a step says about ids. -/
def Cache.states (c : Cache) : Label → List (String × String)
  | .advance id _ =>
    match c.service.job id with
    | some (.apply _ _ _ (effect :: _)) => Effect.states effect
    | some (.authenticate who) => [(who.actor.id, who.publicId)]
    | _ => []
  | .lookup found _ _ => lookupStates found
  | _ => []

structure Timed where
  now : Nat
  label : Label
  deriving DecidableEq, Repr

def Cache.step (c : Cache) (l : Timed) : Option Cache :=
  if c.now ≤ l.now then
    (c.service.step l.label).map fun service =>
      { service
        ages := c.aged l.now l.label
        now := l.now
        said := c.said ++ (c.states l.label).map fun s => ⟨s.1, s.2, l.now⟩ }
  else none

/-- `ID_CACHE_TTL`: ten minutes. -/
def ttl : Nat := 600000

/-- The account that `resolve` answers an id with from the cache. -/
def Cache.cached (c : Cache) (now : Nat) (id : String) : Option Account :=
  match c.service.directory.accounts.filter fun a => a.currentId = some id && a.status = .active with
  | [only] =>
    if (getRow Age.uuid c.ages only.uuid).any fun age => now < age.refreshedAt + ttl then
      some only
    else none
  | _ => none

/-- The first half of `resolve`: the account it answers an id with before it asks Accounts. -/
def Cache.resolve (c : Cache) (now : Nat) (selector : String) : Option Account :=
  match Selector.parse selector with
  | .ok (.id id) => c.cached now id
  | _ => none

def Bounded (now : Nat) (ages : List Age) : Prop :=
  ∀ u age, getRow Age.uuid ages u = some age → age.refreshedAt ≤ now

/-- A directory whose ids are older than the lifetime of the cache, as those are that
`link-identities` seeds from a mapping alone. -/
def Cache.Unconfirmed (c : Cache) : Prop :=
  ∀ a ∈ c.service.directory.accounts, ∃ age, getRow Age.uuid c.ages a.uuid = some age ∧
    (a.currentId.isSome → age.refreshedAt + ttl ≤ c.now)

def idCache : System Cache Timed where
  init c := c.service.jobs = [] ∧ c.service.log = [] ∧ c.said = [] ∧
    Keyed Account.uuid c.service.directory.accounts ∧ Bounded c.now c.ages ∧ c.Unconfirmed
  step := Cache.step

/-! ### Stamps -/

/-- A stamp dates its row no later than now, and leaves the others. -/
def Stamps (now : Nat) (stamp : List Age → String → List Age) : Prop :=
  ∀ ages u, Bounded now ages → Bounded now (stamp ages u) ∧
    ∀ v, v ≠ u → getRow Age.uuid (stamp ages u) v = getRow Age.uuid ages v

theorem stamps_upsert {now : Nat} {new : String → Age} {f : Age → Age} (hn : ∀ u, (new u).uuid = u)
    (hu : ∀ age, (f age).uuid = age.uuid) (hnew : ∀ u, (new u).refreshedAt ≤ now)
    (hf : ∀ age, age.refreshedAt ≤ now → (f age).refreshedAt ≤ now) :
    Stamps now fun ages u => upsert Age.uuid u (new u) f ages := by
  intro ages u hb
  have hview : ∀ v, getRow Age.uuid (upsert Age.uuid u (new u) f ages) v = if v = u then
      some ((getRow Age.uuid ages u).elim (new u) f) else getRow Age.uuid ages v :=
    getRow_upsert (hn u) fun age _ => hu age
  refine ⟨fun v age hv => ?_, fun v hv => (hview v).trans (if_neg hv)⟩
  replace hv := (hview v).symm.trans hv
  split at hv
  case isFalse => exact hb v age hv
  case isTrue =>
    cases hr : getRow Age.uuid ages u with
    | none =>
      rw [hr] at hv
      cases hv
      exact hnew u
    | some old =>
      rw [hr] at hv
      cases hv
      exact hf old (hb u old hr)

theorem Cache.stamps_stamp (c : Cache) (now : Nat) (l : Label) : Stamps now (c.stamp now l) := by
  have hrefresh : Stamps now (refresh now) := stamps_upsert (fun _ => rfl) (fun _ => rfl)
    (fun _ => Nat.le_refl now) fun _ _ => Nat.le_refl now
  unfold Cache.stamp
  split
  · split
    · exact stamps_upsert (fun _ => rfl) (fun _ => rfl) (fun _ => Nat.le_refl now)
        fun _ h => Nat.max_le.mpr ⟨h, Nat.le_refl now⟩
    · exact hrefresh
  · exact hrefresh

variable {stamp : List Age → String → List Age} {now : Nat} {ages : List Age} {c : Cache}

theorem Stamps.foldl (h : Stamps now stamp) (us : List String) (hb : Bounded now ages) :
    Bounded now (us.foldl stamp ages) ∧
      ∀ v, v ∉ us → getRow Age.uuid (us.foldl stamp ages) v = getRow Age.uuid ages v := by
  induction us generalizing ages with
  | nil => exact ⟨hb, fun _ _ => rfl⟩
  | cons u us ih =>
    obtain ⟨hbnd, hoth⟩ := h ages u hb
    obtain ⟨hbnds, hoths⟩ := ih hbnd
    refine ⟨hbnds, fun v hv => ?_⟩
    rw [mem_cons, not_or] at hv
    exact (hoths v hv.2).trans (hoth v hv.1)

/-! ### What a step does to ids -/

def heldId (accounts : List Account) (uuid : String) : Option String :=
  (account accounts uuid).bind (·.currentId)

/-- A custodian's row is there, or would be made without an id. -/
def custodianKnown (accounts : List Account) (custodian : String × String) : Bool :=
  (account accounts custodian.1).isSome || !validPublicId custodian.2

/-- A profile update or a change of custodian finds no row with an id, and makes none. -/
def confirmedBy (accounts : List Account) : Effect → Bool
  | .profile found _ _ =>
    (account accounts found.uuid).elim (!found.id.any validPublicId) (·.currentId.isNone)
  | .custodian silicon owner _ =>
    custodianKnown accounts owner && (heldId accounts silicon).isNone
  | .idChange _ | .revoke .. | .endProofs .. | .delete .. => true

/-- A sign-in finds a row without an id or with the id of the token, or its token is newer than
the last change of the id. -/
def confirmedBySignIn (who : Context) (a : Account) : Bool :=
  a.currentId.all (· = who.publicId) || (a.status ≠ .deleted && validPublicId who.publicId &&
    a.idChangedAt.all fun changed => who.issuedAt.any (changed < ·))

/-- A lookup says the id of its account or finds no row with one; one that says that the account
is deleted makes no row with an id. -/
def confirmedByLookup (accounts : List Account) (found : AccountLookup) : Bool :=
  if found.deleted then
    ((account accounts found.uuid).isSome || !found.id.any validPublicId) &&
      found.custodian.all (custodianKnown accounts)
  else found.id.any validPublicId || (heldId accounts found.uuid).isNone

/-- The step is a token, lookup or id event that says the id of the row it refreshes, or no row
that it refreshes has an id. -/
def Cache.confirms (c : Cache) (l : Timed) : Bool :=
  match l.label with
  | .advance id _ =>
    match c.service.job id with
    | some (.apply _ _ _ (effect :: _)) => confirmedBy c.service.directory.accounts effect
    | some (.authenticate who) =>
      (account c.service.directory.accounts who.actor.id).all (confirmedBySignIn who)
    | _ => true
  | .lookup found _ _ => confirmedByLookup c.service.directory.accounts found
  | .memberProfile uuid _ _ => (heldId c.service.directory.accounts uuid).isNone
  | .start .. | .drop _ => true

/-- An id that a row has is stated, or the row had it and is not stamped. -/
def Accounted (x y : List Account) (stamped : List String) (states : List (String × String)) : Prop :=
  ∀ u id, heldId y u = some id → (u, id) ∈ states ∨ u ∉ stamped ∧ heldId x u = some id

namespace Accounted

variable {x y z : List Account} {u k id : String} {stamped stamped' : List String}
  {states : List (String × String)} {f update : Account → Account} {new proposed : Account}
  {accepts : Account → Bool} {applied : Applied} {owner : String × String} {found : AccountLookup}

/-- Rows that are stamped and not there have no id. -/
theorem refl (h : ∀ u ∈ stamped, account x u = none) : Accounted x x stamped states := by
  intro u id hid
  refine .inr ⟨fun hu => ?_, hid⟩
  rw [heldId, h u hu] at hid
  cases hid

theorem nil : Accounted x x [] states :=
  refl (forall_mem_nil _)

theorem append (h : Accounted x y stamped states) (h' : Accounted y z stamped' states) :
    Accounted x z (stamped ++ stamped') states := by
  intro u id hid
  obtain hstated | ⟨hu', hid⟩ := h' u id hid
  · exact .inl hstated
  · refine (h u id hid).imp_right fun ⟨hu, hid⟩ => ⟨?_, hid⟩
    rw [mem_append, not_or]
    exact ⟨hu, hu'⟩

theorem map (h : Accounted x y stamped states) (hu : ∀ a, (f a).uuid = a.uuid)
    (hf : ∀ a id, (f a).currentId = some id → a.currentId = some id) :
    Accounted x (y.map f) stamped states := by
  intro u id hid
  obtain ⟨a, ha, hid⟩ := bind_eq_some_iff.mp hid
  unfold account at ha
  rw [getRow_map hu] at ha
  obtain ⟨b, hb, rfl⟩ := map_eq_some_iff.mp ha
  exact h u id (bind_eq_some_iff.mpr ⟨b, hb, hf b id hid⟩)

theorem clearId (h : Accounted x y stamped states) (id uuid : String) :
    Accounted x (clearId id uuid y) stamped states := by
  refine h.map (uuid_clearId id uuid) fun a i hid => ?_
  split at hid
  · cases hid
  · exact hid

/-- A write of one row that states the id it leaves there. -/
theorem upsert (hn : new.uuid = k) (hu : ∀ a, (f a).uuid = a.uuid) (hk : ∀ u ∈ stamped, u = k)
    (hnew : account x k = none → ∀ id, new.currentId = some id → (k, id) ∈ states)
    (hold : ∀ a, account x k = some a → ∀ id, (f a).currentId = some id → (k, id) ∈ states) :
    Accounted x (upsert Account.uuid k new f x) stamped states := by
  intro u id h
  rw [heldId, account_upsert hn hu] at h
  split at h
  case isTrue he =>
    subst he
    cases hr : account x u with
    | none => exact .inl (hnew hr id (by rw [hr] at h; exact h))
    | some a => exact .inl (hold a hr id (by rw [hr] at h; exact h))
  case isFalse he => exact .inr ⟨fun hs => he (hk u hs), h⟩

theorem guardedUpsert (h : guardedUpsert x proposed accepts update = .ok (y, applied))
    (hk : proposed.uuid = k) (hu : ∀ a, (update a).uuid = a.uuid)
    (hnew : account x k = none → ∀ id, proposed.currentId = some id → (k, id) ∈ states)
    (hold : ∀ a, account x k = some a → ∀ id, (update a).currentId = some id → (k, id) ∈ states) :
    Accounted x y (if applied = .changed then [k] else []) states := by
  subst hk
  obtain ⟨-, ⟨a, -, -, rfl, rfl⟩ | ⟨-, rfl, rfl, -⟩⟩ := guardedUpsert_eq_ok h
  · exact nil
  · exact upsert rfl hu (fun _ => mem_singleton.mp) hnew hold

/-- Making sure of a custodian's row. -/
theorem custodianRow (h : account x owner.1 = none → validPublicId owner.2 = true → owner ∈ states) :
    Accounted x (Base.upsert Account.uuid owner.1 (custodianRow owner) (fun a => a) x)
      (madeFor x owner) states := by
  unfold madeFor
  intro u id hid
  rw [heldId, account_upsert (by rfl) fun _ => rfl] at hid
  by_cases hu : u = owner.1
  · subst hu
    rw [if_pos rfl] at hid
    cases hr : account x owner.1 with
    | none =>
      rw [hr] at hid
      obtain ⟨he, hvalid⟩ : some owner.2 = some id ∧ validPublicId id = true :=
        Option.filter_eq_some_iff.mp hid
      cases he
      exact .inl (h hr hvalid)
    | some row =>
      rw [hr] at hid
      exact .inr ⟨by simp, by rw [heldId, hr]; exact hid⟩
  · rw [if_neg hu] at hid
    exact .inr ⟨by simp [hu], hid⟩

/-- A confirmed store call of an event states the id of a row it stamps. -/
theorem effect {effect : Effect} (h : effect.Writes x y) (hc : confirmedBy x effect = true) :
    Accounted x y (stampedBy x effect) (Effect.states effect) := by
  cases h with
  | @idChange change _ applied ok =>
    simp only [stampedBy, ok]
    obtain ⟨-, -, -, rfl, rfl⟩ | ⟨-, rfl⟩ := applyIdChange_eq_ok ok
    · exact nil
    · apply clearId
      refine upsert rfl (fun _ => rfl) (fun u hu => ?_) ?_ ?_
      · split at hu
        · exact mem_singleton.mp hu
        · cases hu
      all_goals
        intros
        simp_all [Effect.states, IdChanged.proposed, IdChanged.update]
  | @profile found version _ _ _ ok =>
    simp only [stampedBy, ok]
    simp only [confirmedBy] at hc
    refine guardedUpsert ok rfl (fun _ => rfl) (fun hn id hid => ?_) fun a ha id hid => ?_
    · obtain ⟨hsome, hvalid⟩ := Option.filter_eq_some_iff.mp hid
      simp [hn, hsome, hvalid] at hc
    · have hheld : a.currentId = some id := hid
      simp [ha, hheld] at hc
  | @custodian silicon owner t _ _ ok =>
    simp only [stampedBy, ok]
    simp only [confirmedBy, Bool.and_eq_true] at hc
    have howner : Accounted x _ (madeFor x owner) [] := custodianRow fun hn hvalid => by
      simp [custodianKnown, hn, hvalid] at hc
    refine howner.append (guardedUpsert (applyCustodianChange_eq_ok ok).2 rfl (fun _ => rfl)
      (fun _ _ hid => by cases hid) fun a ha id hid => ?_)
    -- the id of the Silicon's row was there before
    obtain hstated | ⟨-, hheld⟩ := howner silicon id (bind_eq_some_iff.mpr ⟨a, ha, hid⟩)
    · cases hstated
    · simp [hheld] at hc
  | revoke =>
    refine map nil (fun a => by split <;> rfl) fun a id hid => ?_
    split at hid <;> exact hid
  | endProofs => exact nil
  | delete =>
    refine upsert rfl (fun _ => rfl) (fun _ => mem_singleton.mp) (fun _ _ h => ?_) fun _ _ _ h => ?_
    all_goals cases h

theorem signIn {who : Context}
    (h : recordAuthentication x who.actor.id who.actor.actorType (presented who) who.issuedAt =
      .ok (y, applied)) (hc : (account x who.actor.id).all (confirmedBySignIn who) = true)
    (hk : ∀ u ∈ stamped, u = who.actor.id) :
    Accounted x y stamped [(who.actor.id, who.publicId)] := by
  have hpresented : ∀ {i}, (presented who).filter validPublicId = some i → i = who.publicId := by
    intro i hi
    have := (Option.filter_eq_some_iff.mp hi).1
    exact (Option.some.inj (Option.filter_eq_some_iff.mp this).1).symm
  obtain ⟨-, ⟨_, -, hno, -⟩ | ⟨-, rfl, -⟩⟩ := guardedUpsert_eq_ok h
  · cases hno
  have hstates : ∀ {id}, id = who.publicId → (who.actor.id, id) ∈ [(who.actor.id, who.publicId)] := by
    rintro _ rfl
    exact mem_cons_self
  refine upsert rfl (fun _ => rfl) hk (fun _ id hid => hstates (hpresented hid)) ?_
  intro a (ha : account x who.actor.id = some a) id hid
  apply hstates
  rw [ha, Option.all_some] at hc
  simp only [] at hid
  split at hid
  case isTrue => exact hpresented hid
  case isFalse hno =>
    simp only [confirmedBySignIn, hid, Option.all_some, Bool.or_eq_true, decide_eq_true_eq] at hc
    refine hc.resolve_right fun htakes => hno ?_
    simp only [Bool.and_eq_true] at htakes ⊢
    refine ⟨⟨htakes.1.1, ?_⟩, htakes.2⟩
    simp [presented, htakes.1.2]

theorem lookup {time : Nat} (h : recordLookup x found time = .ok y)
    (hc : confirmedByLookup x found = true) :
    Accounted x y (found.custodian.elim [] (madeFor x) ++ [found.uuid]) (lookupStates found) := by
  obtain ⟨rows, hrs, -, hcase⟩ := recordLookup_eq_ok h
  unfold confirmedByLookup at hc
  have hrows : Accounted x rows (found.custodian.elim [] (madeFor x)) (lookupStates found) := by
    obtain rfl | ⟨custodian, hcustodian, rfl⟩ := hrs
    · refine refl fun u hu => ?_
      cases hcustodian : found.custodian <;> simp_all [madeFor]
    · rw [hcustodian]
      refine custodianRow fun hn hvalid => ?_
      cases hdel : found.deleted with
      | true => simp [hdel, hcustodian, custodianKnown, hn, hvalid] at hc
      | false => simp [lookupStates, hdel, hcustodian]
  have hrow : Accounted x (Base.upsert Account.uuid found.uuid (found.inserted time)
      (found.updated time) rows) (found.custodian.elim [] (madeFor x) ++ [found.uuid])
      (lookupStates found) := by
    refine hrows.append (upsert rfl (fun _ => rfl) (fun _ => mem_singleton.mp) ?_ ?_)
    · intro hn id hid
      obtain ⟨hsome, hvalid⟩ : found.id = some id ∧ validPublicId id = true :=
        Option.filter_eq_some_iff.mp hid
      have hx : account x found.uuid = none := by
        obtain rfl | ⟨custodian, -, rfl⟩ := hrs
        · exact hn
        · rw [account_upsert (by rfl) fun _ => rfl] at hn
          split at hn
          · cases hn
          · exact hn
      cases hdel : found.deleted with
      | false => simp [lookupStates, hdel, hsome]
      | true => simp [hdel, hx, hsome, hvalid] at hc
    · intro a ha id hid
      cases hdel : found.deleted with
      | true => simp [AccountLookup.updated, hdel] at hid
      | false =>
        simp only [AccountLookup.updated, AccountLookup.inserted, hdel, Bool.false_eq_true,
          if_false] at hid hc
        cases hsaid : found.id.filter validPublicId with
        | some i =>
          rw [hsaid] at hid
          cases hid
          simp [lookupStates, hdel, (Option.filter_eq_some_iff.mp hsaid).1]
        | none =>
          -- an id that the lookup does not say was there before, or is the custodian's
          rw [hsaid, Option.none_or] at hid
          refine (hrows found.uuid id (bind_eq_some_iff.mpr ⟨a, ha, hid⟩)).resolve_right ?_
          rintro ⟨-, hheld⟩
          have hany : found.id.any validPublicId = false := by
            cases hi : found.id <;> simp_all
          simp [hany, hheld] at hc
  obtain rfl | ⟨id, -, rfl⟩ := hcase
  · exact hrow
  · exact hrow.clearId _ _

end Accounted

theorem stampedBy_of_error {effect : Effect} {d : Directory} {e : AccountError}
    (h : effect.apply d = .error e) : stampedBy d.accounts effect = [] := by
  unfold stampedBy
  cases effect with
  | idChange | profile | custodian =>
    dsimp only
    split
    case h_1 hok =>
      rw [Effect.apply, hok] at h
      cases h
    case h_2 => rfl
  | revoke | endProofs => rfl
  | delete => cases h

/-- Every step that is confirmed states the ids of the rows it stamps. -/
theorem Cache.accounted {l : Timed} {s : Service} (h : c.service.step l.label = some s)
    (hc : c.confirms l = true) : Accounted c.service.directory.accounts s.directory.accounts
      (c.stamped l.now l.label) (c.states l.label) := by
  obtain ⟨now, label⟩ := l
  cases label with
  | start id what =>
    simp only [Service.step] at h
    split_ifs at h
    cases h
    exact .nil
  | drop id =>
    cases h
    exact .nil
  | advance i answer =>
    obtain ⟨job, hj, rfl⟩ := map_eq_some_iff.mp h
    have hj : c.service.job i = some job := hj
    simp only [Cache.stamped, Cache.confirms, Cache.states, hj] at hc ⊢
    cases job with
    | apply event occurredAt done rest =>
      cases rest with
      | nil => exact .nil
      | cons effect rest =>
        simp only [Job.advance, applyStep]
        cases happ : effect.apply c.service.directory with
        | error => simpa only [stampedBy_of_error happ] using .nil
        | ok d => exact .effect (Effect.writes happ) hc
    | authenticate who =>
      simp only [Job.advance]
      split
      case isTrue => exact .nil
      case isFalse =>
        cases hok : recordAuthentication c.service.directory.accounts who.actor.id
            who.actor.actorType ((some who.publicId).filter validPublicId) who.issuedAt with
        | error => simpa only [presented, hok] using .nil
        | ok r =>
          simp only [presented, hok]
          refine .signIn hok hc fun u hu => ?_
          split at hu
          · exact mem_singleton.mp hu
          · cases hu
    | reserve =>
      simp only [Job.advance, accounts_reserve]
      exact .nil
    | receive | read | decide | issue | save | subscribe | reenrol | refresh | resave | resubscribe =>
      simp only [Job.advance, receiveStep]
      (repeat' split) <;> exact .nil
  | lookup found readAt time =>
    simp only [Service.step, Cache.stamped] at h ⊢
    cases hok : recordLookup c.service.directory.accounts found time with
    | ok accounts =>
      rw [hok] at h
      cases h
      exact .lookup hok hc
    | error =>
      rw [hok] at h
      cases h
      exact .nil
  | memberProfile uuid displayName pfpUrl =>
    cases h
    intro u id hid
    have hsame : Accounted c.service.directory.accounts
        (recordMemberProfile c.service.directory.accounts uuid displayName pfpUrl) [] [] := by
      refine .map .nil (fun a => by split <;> rfl) fun a id hid => ?_
      split at hid <;> exact hid
    obtain hstated | ⟨-, hheld⟩ := hsame u id hid
    · cases hstated
    · refine .inr ⟨fun hu => ?_, hheld⟩
      simp only [Cache.stamped] at hu
      split at hu
      case isTrue =>
        obtain rfl := mem_singleton.mp hu
        simp [Cache.confirms, hheld] at hc
      case isFalse => cases hu

/-- Each cached id was stated when its row was refreshed or later, or is too old to be used. -/
structure Confirmed (c : Cache) : Prop where
  keyed : Keyed Account.uuid c.service.directory.accounts
  bounded : Bounded c.now c.ages
  past : ∀ s ∈ c.said, s.time ≤ c.now
  stated : ∀ u id age, heldId c.service.directory.accounts u = some id →
    getRow Age.uuid c.ages u = some age →
    age.refreshedAt + ttl ≤ c.now ∨ ∃ s ∈ c.said, s.uuid = u ∧ s.id = id ∧ age.refreshedAt ≤ s.time

theorem Confirmed.step {c' : Cache} {l : Timed} (h : Confirmed c) (hc : c.confirms l = true)
    (hl : c.step l = some c') : Confirmed c' := by
  unfold Cache.step at hl
  split at hl
  case isFalse => cases hl
  case isTrue htime =>
    obtain ⟨s, hs, rfl⟩ := map_eq_some_iff.mp hl
    have hbnd : Bounded l.now c.ages :=
      fun u age hu => Nat.le_trans (h.bounded u age hu) htime
    obtain ⟨hlat, hoths⟩ := (c.stamps_stamp l.now l.label).foldl (c.stamped l.now l.label) hbnd
    refine ⟨?_, hlat, fun s hs => ?_, fun u id age hid hage => ?_⟩
    · obtain ⟨entries, -, hw⟩ := wrote_of_step hs
      exact hw.keyed h.keyed
    · obtain hs | hs := mem_append.mp hs
      · exact Nat.le_trans (h.past s hs) htime
      · obtain ⟨_, -, rfl⟩ := List.mem_map.mp hs
        exact Nat.le_refl _
    · obtain hstated | ⟨hu, hid⟩ := c.accounted hs hc u id hid
      · exact .inr ⟨_, mem_append_right _ (List.mem_map_of_mem hstated), rfl, rfl, hlat u age hage⟩
      · refine (h.stated u id age hid ((hoths u hu).symm.trans hage)).imp (Nat.le_trans · htime) ?_
        exact fun ⟨s, hs, hsaid⟩ => ⟨s, mem_append_left _ hs, hsaid⟩

/-- An id goes to the cache. -/
theorem Cache.resolve_of_parse {selector id : String} (h : Selector.parse selector = .ok (.id id)) :
    c.resolve now selector = c.cached now id := by
  delta Cache.resolve
  rw [h]

/-- In every run whose steps refresh a row with an id only on a token, lookup or id event that
states it, an id that is answered from the cache was stated within the cache's lifetime. -/
theorem id_cache_is_bounded {c : Cache}
    (h : idCache.ReachableWhile (fun c l => c.confirms l = true) c) {now : Nat}
    (hnow : c.now ≤ now) {selector id : String} {a : Account}
    (hid : Selector.parse selector = .ok (.id id)) (ha : c.resolve now selector = some a) :
    ∃ s ∈ c.said, s.uuid = a.uuid ∧ s.id = id ∧ s.time ≤ now ∧ now < s.time + ttl := by
  have hconfirmed : Confirmed c := by
    refine h.invariant ?_ fun c l c' hc hl hs => hc.step hl hs
    rintro c ⟨-, -, hsaid, hkeyed, hbounded, hold⟩
    refine ⟨hkeyed, hbounded, by simp [hsaid], fun u id age hid hage => ?_⟩
    obtain ⟨a, ha, hheld⟩ := bind_eq_some_iff.mp hid
    obtain ⟨hmem, rfl⟩ := mem_of_getRow_eq_some ha
    obtain ⟨age', hage', holder⟩ := hold a hmem
    obtain rfl : age' = age := Option.some.inj (hage'.symm.trans hage)
    exact .inl (holder (by rw [hheld]; rfl))
  rw [Cache.resolve_of_parse hid] at ha
  unfold Cache.cached at ha
  split at ha
  case h_2 => cases ha
  case h_1 only honly =>
    split at ha
    case isFalse => cases ha
    case isTrue hfresh =>
      cases ha
      obtain ⟨hmem, hactive⟩ := mem_filter.mp (honly ▸ mem_singleton_self a)
      simp only [Bool.and_eq_true, decide_eq_true_eq] at hactive
      have hrow := (hconfirmed.keyed.getRow_eq_some_iff).mpr ⟨hmem, rfl⟩
      obtain ⟨age, hage, hfresh⟩ := (Option.any_eq_true _ _).mp hfresh
      rw [decide_eq_true_eq] at hfresh
      obtain hold | ⟨s, hs, hu, hi, hle⟩ :=
        hconfirmed.stated a.uuid id age (bind_eq_some_iff.mpr ⟨a, hrow, hactive.1⟩) hage
      · omega
      · exact ⟨s, hs, hu, hi, Nat.le_trans (hconfirmed.past s hs) hnow, by omega⟩

def emptyCache : Cache where
  service :=
    { directory := { accounts := [], grants := [], enrolments := [], receipts := [], retired := [] }
      jobs := []
      log := [] }
  ages := []
  now := 0
  said := []

theorem emptyCache_init : idCache.init emptyCache := by
  refine ⟨rfl, rfl, rfl, List.Pairwise.nil, ?_, ?_⟩
  · intro u age hage
    cases hage
  · intro a ha
    cases ha

/-- Silicon Accounts says that `ada` is `c:ada`. -/
def adaFound : AccountLookup :=
  { uuid := "ada", kind := .carbon, id := some "c:ada", displayName := none, pfpUrl := none,
    custodian := none, deleted := false }

/-- Nine minutes after a lookup its id is answered from the cache. -/
theorem id_cache_is_bounded_ada : ∃ c a,
    idCache.ReachableWhile (fun c l => c.confirms l = true) c ∧
      c.resolve 541000 "C:Ada" = some a ∧
      ∃ s ∈ c.said, s.uuid = a.uuid ∧ s.id = "c:ada" ∧ s.time ≤ 541000 ∧ 541000 < s.time + ttl := by
  have h := Base.System.reachableWhile_get (M := idCache) (C := fun c l => c.confirms l = true)
    [⟨1000, .lookup adaFound 1000 1000⟩] emptyCache_init (by decide +kernel)
  exact ⟨_, _, h, (Option.some_get (by decide +kernel)).symm,
    id_cache_is_bounded h (by decide +kernel) (by decide +kernel) (Option.some_get _).symm⟩

/-- `account.updated` for `ada`, with a new name and no id. -/
def adaRenamed : VerifiedEvent :=
  { eventId := "evt_profile", occurredAt := some 550000,
    event := .updated "ada" (some { adaFound with id := none, displayName := some "Ada" }) 1 }

/-- A profile update makes the cached id as new as itself: eighteen minutes after the only
lookup, `c:ada` is answered from the cache. -/
theorem profile_update_confirms_id : ∃ c a, idCache.Reachable c ∧
    c.resolve 1100000 "c:ada" = some a ∧ a.uuid = "ada" ∧ c.said = [⟨"ada", "c:ada", 1000⟩] ∧
    1000 + ttl ≤ 1100000 := by
  let answer : Answer :=
    { now := 550000, live := false, enrol := false, proof := none, subscribed := false }
  exact ⟨_, _, Base.System.reachable_get (M := idCache)
    [⟨1000, .lookup adaFound 1000 1000⟩, ⟨550000, .start 0 (.deliver adaRenamed)⟩,
      ⟨550000, .advance 0 answer⟩, ⟨550000, .advance 0 answer⟩, ⟨550000, .advance 0 answer⟩]
    emptyCache_init (by decide +kernel), (Option.some_get (by decide +kernel)).symm,
    by decide +kernel, by decide +kernel, by decide⟩

end SiliconDm.Server.IdCache
