import SiliconDm.Server.Identity

/-!
# The stored custodian of a Silicon

Three writers name the custodian of a Silicon, each under an order of its own: the custodian
change by its time, the profile update by its version, the lookup by none. The custodian reads
the Silicon's conversations, so a description older than the last change must not bring a former
one back. Source: `src/infrastructure/postgres/accounts.rs:189–240,330–406`,
`src/infrastructure/postgres/conversations.rs:199–243`.
-/

namespace SiliconDm.Server

open Base List Option

/-! ### Who reads a conversation -/

inductive ConversationAccess where
  | participant
  | custodian
  | invitee
  deriving DecidableEq, Repr

inductive AccessError where
  | notFound
  deriving DecidableEq, Repr

namespace Database

/-- The caller is a Carbon and the stored custodian of a Silicon. -/
def custodianReads (d : Database) (caller silicon : ActorRef) : Bool :=
  silicon.actorType = .silicon && caller.actorType = .carbon &&
    (account d.accounts silicon.id).any (·.custodianUuid = some caller.id)

/-- How a caller may see a conversation. `conversations.rs:199–231`. -/
def conversationAccess (d : Database) (caller : ActorRef) (c : Nat) :
    Option ConversationAccess :=
  if (d.conversation c).isNone then none
  else if caller ∈ d.effectiveParticipants c then some .participant
  else if (d.effectiveParticipants c).any (d.custodianReads caller) then some .custodian
  else if d.invitations.any fun i => i.conversation = c && i.status = .pending &&
      (i.actor = caller || d.custodianReads caller i.actor) then some .invitee
  else none

/-- `require_reader`. `conversations.rs:238–243`. -/
def requireReader (d : Database) (viewer : ActorRef) (c : Nat) : Except AccessError Unit :=
  match d.conversationAccess viewer c with
  | some .participant | some .custodian => .ok ()
  | _ => .error .notFound

end Database

/-! ### Columns -/

def custodianOf (accounts : List Account) (u : String) : Option String :=
  (account accounts u).bind (·.custodianUuid)

def changedAt (accounts : List Account) (u : String) : Option Nat :=
  (account accounts u).bind (·.custodianChangedAt)

/-- A reader takes part, or is the stored custodian of a Silicon that does. -/
theorem Database.requireReader_eq_ok {d : Database} {viewer : ActorRef} {c : Nat}
    (h : d.requireReader viewer c = .ok ()) :
    viewer ∈ d.effectiveParticipants c ∨
      ∃ silicon ∈ d.effectiveParticipants c, silicon.actorType = .silicon ∧
        custodianOf d.accounts silicon.id = some viewer.id := by
  by_cases hp : viewer ∈ d.effectiveParticipants c
  · exact .inl hp
  · right
    by_cases hk : (d.effectiveParticipants c).any (d.custodianReads viewer) = true
    · obtain ⟨silicon, hm, hreads⟩ := List.any_eq_true.mp hk
      simp only [custodianReads, Bool.and_eq_true, decide_eq_true_eq, Option.any_eq_true] at hreads
      obtain ⟨⟨hs, -⟩, row, hr, hc⟩ := hreads
      exact ⟨silicon, hm, hs, by simp [custodianOf, hr, hc]⟩
    · unfold requireReader conversationAccess at h
      rw [if_neg hp, if_neg hk] at h
      split at h
      case h_1 he =>
        split_ifs at he
        cases he
      case h_2 he =>
        split_ifs at he
        cases he
      case h_3 => cases h

variable {x y z accounts : List Account} {k u silicon c : String} {new proposed a : Account}
  {f update : Account → Account} {named : Option String} {accepts : Account → Bool}
  {applied : Applied} {found : AccountLookup} {now occurredAt t index : Nat}
  {owner : String × String} {log entries : List Entry} {event : VerifiedEvent}

/-- A write named a custodian for an account, or none: the column follows what it names, and the
time of the last change stays. -/
def Names (x y : List Account) (u : String) (named : Option String) : Prop :=
  custodianOf y u = named.or (custodianOf x u) ∧ changedAt y u = changedAt x u

theorem Names.refl (x : List Account) (u : String) : Names x x u none :=
  ⟨rfl, rfl⟩

theorem Names.trans (h : Names x y u none) (h' : Names y z u named) : Names x z u named := by
  refine ⟨?_, h'.2.trans h.2⟩
  rw [h'.1, h.1, none_or]

theorem Names.trans_none (h : Names x y u named) (h' : Names y z u none) : Names x z u named := by
  refine ⟨?_, h'.2.trans h.2⟩
  rw [h'.1, h.1, none_or]

theorem names_map (u : String) (hu : ∀ a, (f a).uuid = a.uuid)
    (hc : ∀ a, (f a).custodianUuid = a.custodianUuid)
    (ht : ∀ a, (f a).custodianChangedAt = a.custodianChangedAt) : Names x (x.map f) u none := by
  unfold Names custodianOf changedAt account
  rw [getRow_map hu]
  cases getRow Account.uuid x u with
  | none => exact ⟨rfl, rfl⟩
  | some a => exact ⟨hc a, ht a⟩

/-- An upsert names what its insert has, if its update keeps to that. -/
theorem names_upsert (u : String) (hn : new.uuid = k) (hu : ∀ a, (f a).uuid = a.uuid)
    (hnew : new.custodianUuid = named) (hnewt : new.custodianChangedAt = none)
    (hc : ∀ a, (f a).custodianUuid = named.or a.custodianUuid)
    (ht : ∀ a, (f a).custodianChangedAt = a.custodianChangedAt) :
    Names x (upsert Account.uuid k new f x) u (if u = k then named else none) := by
  unfold Names custodianOf changedAt
  rw [account_upsert hn hu]
  by_cases hk : u = k
  · subst hk
    rw [if_pos rfl, if_pos rfl]
    cases account x u with
    | none => exact ⟨by simp [hnew], by simp [hnewt]⟩
    | some a => exact ⟨hc a, ht a⟩
  · rw [if_neg hk, if_neg hk]
    exact ⟨rfl, rfl⟩

theorem names_custodianRow (x : List Account) (custodian : String × String) (u : String) :
    Names x (upsert Account.uuid custodian.1 (custodianRow custodian) (fun a => a) x) u none := by
  have h : Names x (upsert Account.uuid custodian.1 (custodianRow custodian) (fun a => a) x) u
      (if u = custodian.1 then none else none) :=
    names_upsert u rfl (fun _ => rfl) rfl rfl (fun _ => rfl) (fun _ => rfl)
  rwa [ite_self] at h

/-- A guarded upsert names the same where it was accepted, and nothing where it was stale. -/
theorem names_guardedUpsert (h : guardedUpsert x proposed accepts update = .ok (y, applied))
    (u : String) (hu : ∀ a, (update a).uuid = a.uuid) (hnew : proposed.custodianUuid = named)
    (hnewt : proposed.custodianChangedAt = none)
    (hc : ∀ a, (update a).custodianUuid = named.or a.custodianUuid)
    (ht : ∀ a, (update a).custodianChangedAt = a.custodianChangedAt) :
    Names x y u none ∨ u = proposed.uuid ∧ Names x y u named ∧
      ∀ a, account x u = some a → accepts a = true := by
  obtain ⟨-, ⟨a, -, -, rfl, -⟩ | ⟨hacc, rfl, -⟩⟩ := guardedUpsert_eq_ok h
  · exact .inl (.refl _ _)
  · have hn := names_upsert (x := x) u rfl hu hnew hnewt hc ht
    by_cases hk : u = proposed.uuid
    · subst hk
      rw [if_pos rfl] at hn
      exact .inr ⟨rfl, hn, hacc⟩
    · rw [if_neg hk] at hn
      exact .inl hn

/-! ### What each writer names -/

theorem names_recordAuthentication {uuid : String} {kind : ActorType} {id : Option String}
    {issuedAt : Option Nat} (h : recordAuthentication x uuid kind id issuedAt = .ok (y, applied))
    (u : String) : Names x y u none := by
  obtain hn | ⟨-, hn, -⟩ := names_guardedUpsert h u (fun _ => rfl) rfl rfl (fun _ => rfl)
    (fun _ => rfl)
  · exact hn
  · exact hn

theorem names_applyProfileUpdate {version : Int}
    (h : applyProfileUpdate x found version = .ok (y, applied)) (u : String) :
    Names x y u none ∨ u = found.uuid ∧ Names x y u (found.custodian.map (·.1)) ∧
      ∀ a, account x u = some a →
        (a.status = .active && a.profileVersion < version.toNat : Bool) = true :=
  names_guardedUpsert h u (fun _ => rfl) rfl rfl (fun _ => rfl) (fun _ => rfl)

theorem names_clearId (x : List Account) (id uuid u : String) :
    Names x (clearId id uuid x) u none := by
  refine names_map u (uuid_clearId id uuid) ?_ ?_
  · intro a
    split <;> rfl
  · intro a
    split <;> rfl

theorem names_recordLookup (h : recordLookup x found now = .ok y) (u : String) :
    Names x y u (if u = found.uuid then found.custodian.map (·.1) else none) := by
  obtain ⟨rows, hrs, -, hcase⟩ := recordLookup_eq_ok h
  have hcus : Names x rows u none := by
    obtain rfl | ⟨custodian, -, rfl⟩ := hrs
    · exact .refl _ _
    · exact names_custodianRow x custodian u
  have hr := names_upsert (x := rows) (k := found.uuid) (f := found.updated now) u
    (show (found.inserted now).uuid = _ from rfl) (fun _ => rfl) rfl rfl (fun _ => rfl) (fun _ => rfl)
  obtain rfl | ⟨id, -, rfl⟩ := hcase
  · exact hcus.trans hr
  · exact (hcus.trans hr).trans_none (names_clearId _ _ _ _)

theorem names_applyIdChange {e : IdChanged} (h : applyIdChange x e = .ok (y, applied)) (u : String) :
    Names x y u none := by
  obtain ⟨a, -, -, rfl, -⟩ | ⟨-, rfl⟩ := applyIdChange_eq_ok h
  · exact .refl _ _
  · have hn : Names x (upsert Account.uuid e.uuid e.proposed e.update x) u
        (if u = e.uuid then none else none) :=
      names_upsert u rfl (fun _ => rfl) rfl rfl (fun _ => rfl) (fun _ => rfl)
    rw [ite_self] at hn
    exact hn.trans (names_clearId _ _ _ _)

theorem names_markDeleted (x : List Account) (uuid : String) (occurred : Nat) (u : String) :
    Names x (markDeleted x uuid occurred) u none := by
  have hn : Names x (markDeleted x uuid occurred) u (if u = uuid then none else none) :=
    names_upsert u rfl (fun _ => rfl) rfl rfl (fun _ => rfl) (fun _ => rfl)
  rwa [ite_self] at hn

theorem names_revokeSessionsBefore (x : List Account) (uuid : String) (cutoff : Nat)
    (u : String) : Names x (revokeSessionsBefore x uuid cutoff) u none := by
  refine names_map u ?_ ?_ ?_ <;>
  · intro a
    split <;> rfl

theorem names_recordMemberProfile (x : List Account) (uuid : String)
    (displayName pfpUrl : Option String) (u : String) :
    Names x (recordMemberProfile x uuid displayName pfpUrl) u none := by
  refine names_map u ?_ ?_ ?_ <;>
  · intro a
    split <;> rfl

/-- A custodian change names the custodian and its time, unless the row is newer or is no
Silicon's; it says nothing about other accounts. -/
theorem applyCustodianChange_cases
    (h : applyCustodianChange x silicon owner occurredAt = .ok (y, applied)) (u : String) :
    Names x y u none ∧ (u = silicon → ∃ a, account y u = some a ∧
        (a.kind = .silicon → ∃ t ∈ a.custodianChangedAt, occurredAt ≤ t)) ∨
      u = silicon ∧ custodianOf y u = some owner.1 ∧ changedAt y u = some occurredAt ∧
        ∃ a, account y u = some a ∧ a.kind = .silicon := by
  obtain ⟨-, h⟩ := applyCustodianChange_eq_ok h
  have hr := names_custodianRow x owner u
  generalize upsert Account.uuid owner.1 (custodianRow owner) (fun a => a) x = rows at h hr
  obtain ⟨-, ⟨a, ha, hno, rfl, -⟩ | ⟨hacc, hy, -⟩⟩ := guardedUpsert_eq_ok h
  · refine .inl ⟨hr, ?_⟩
    rintro rfl
    refine ⟨a, ha, fun hk => ?_⟩
    simp only [hk, decide_true, Bool.true_and, Option.all_eq_false, decide_eq_false_iff_not,
      Nat.not_lt] at hno
    exact hno
  · by_cases hk : u = silicon
    · subst hk
      right
      have hself : account y u = some ((account rows u).elim
          ((Account.new u .silicon).withCustodian owner.1 occurredAt)
          (·.withCustodian owner.1 occurredAt)) := by
        rw [hy]
        exact account_upsert_self rfl fun _ => rfl
      unfold custodianOf changedAt
      rw [hself]
      cases ha : account rows u with
      | none => exact ⟨rfl, rfl, rfl, _, rfl, rfl⟩
      | some a =>
        have hyes := hacc a ha
        simp only [Bool.and_eq_true, decide_eq_true_eq] at hyes
        exact ⟨rfl, rfl, rfl, _, rfl, hyes.1⟩
    · left
      refine ⟨hr.trans ?_, fun he => absurd he hk⟩
      have hne : account y u = account rows u := by
        rw [hy]
        exact account_upsert_of_ne rfl (fun _ => rfl) hk
      unfold Names custodianOf changedAt
      rw [hne]
      exact ⟨rfl, rfl⟩

/-! ### Order of descriptions -/

/-- What an event says by its own time: since `t`, or at `t`, the custodian of `u` is `c`. -/
def VerifiedEvent.names (u c : String) (t : Nat) (e : VerifiedEvent) : Prop :=
  e.occurredAt = some t ∧
    match e.event with
    | .custodianChanged silicon (some owner) => silicon = u ∧ owner.1 = c
    | .updated _ (some found) _ => found.uuid = u ∧ found.custodian.map (·.1) = some c
    | _ => False

/-- What an entry says about the custodian of `u`. -/
def Entry.names (u c : String) (t : Nat) : Entry → Prop
  | .applied event _ _ => event.names u c t
  | .looked found readAt => found.uuid = u ∧ found.custodian.map (·.1) = some c ∧ readAt = t
  | _ => False

/-- The entry applies a custodian change of `u` that occurred at `t`. -/
def Entry.changes (u : String) (t : Nat) : Entry → Prop
  | .applied event _ _ =>
    event.occurredAt = some t ∧ ∃ owner, event.event = .custodianChanged u (some owner)
  | _ => False

/-- A custodian change of the account that occurred at `t` has been applied. -/
def ChangedAt (log : List Entry) (u : String) (t : Nat) : Prop :=
  ∃ e ∈ log, e.changes u t

/-- A description from `t` or later names the custodian. -/
def NamedSince (log : List Entry) (u c : String) (t : Nat) : Prop :=
  ∃ e ∈ log, ∃ t', t ≤ t' ∧ e.names u c t'

def AccountEvent.tellsCustodian : AccountEvent → Bool
  | .custodianChanged .. | .updated .. => true
  | _ => false

/-- A description is no older than the last change, or names the stored custodian. -/
def describesCurrent (accounts : List Account) (u : String)
    (custodian : Option (String × String)) (t : Nat) : Bool :=
  (changedAt accounts u).all (· ≤ t) || custodian.all (custodianOf accounts u = some ·.1)

/-- An event that may write a custodian has a time; a profile update that its version guard
accepts, and a lookup, describe the current custodian. -/
def custodyInOrder (s : Service) : Label → Bool
  | .start _ (.deliver event) => !event.event.tellsCustodian || event.occurredAt.isSome
  | .advance id _ =>
    match s.job id with
    | some (.apply _ _ _ (.profile found version occurredAt :: _)) =>
      (account s.directory.accounts found.uuid).any
          (fun row => !(row.status = .active && row.profileVersion < version.toNat)) ||
        describesCurrent s.directory.accounts found.uuid found.custodian occurredAt
    | _ => true
  | .lookup found readAt _ =>
    describesCurrent s.directory.accounts found.uuid found.custodian readAt
  | _ => true

/-! ### The invariant -/

/-- The check `accounts_custodian_only_for_silicons` on a table. -/
def OnlySilicons (accounts : List Account) : Prop :=
  ∀ u a, account accounts u = some a → a.custodianUuid.isSome → a.kind = .silicon

structure InCustody (accounts : List Account) (log : List Entry) : Prop where
  silicons : OnlySilicons accounts
  /-- The stored custodian was named no earlier than the last change. -/
  named : ∀ u t c, changedAt accounts u = some t → custodianOf accounts u = some c →
    NamedSince log u c t
  /-- An applied change is in the row of a Silicon, or a later one is. -/
  changed : ∀ u t, ChangedAt log u t → ∃ a, account accounts u = some a ∧
    (a.kind = .silicon → ∃ t' ∈ a.custodianChangedAt, t ≤ t')

theorem NamedSince.append (h : NamedSince log u c t) (entries : List Entry) :
    NamedSince (log ++ entries) u c t := by
  obtain ⟨e, he, hn⟩ := h
  exact ⟨e, mem_append_left _ he, hn⟩

/-- The rows of applied changes stay. -/
theorem changed_later (hl : LaterRows x y)
    (h : ∀ u t, ChangedAt log u t → ∃ a, account x u = some a ∧
      (a.kind = .silicon → ∃ t' ∈ a.custodianChangedAt, t ≤ t')) (u : String) (t : Nat)
    (hc : ChangedAt log u t) : ∃ a, account y u = some a ∧
      (a.kind = .silicon → ∃ t' ∈ a.custodianChangedAt, t ≤ t') := by
  obtain ⟨a, ha, ht⟩ := h u t hc
  obtain ⟨a', ha', hlat⟩ := hl u a ha
  refine ⟨a', ha', fun hk => ?_⟩
  obtain ⟨t', ht', hle⟩ := ht (hlat.kind ▸ hk)
  obtain ⟨t'', ht'', hle'⟩ := hlat.custodianChanged t' ht'
  exact ⟨t'', ht'', Nat.le_trans hle hle'⟩

theorem Account.kind_of_violated (h : a.violated = none) (hc : a.custodianUuid.isSome) :
    a.kind = .silicon := by
  unfold Account.violated at h
  split_ifs at h with hid hcarb
  cases hk : a.kind with
  | silicon => rfl
  | carbon => simp [hc, hk] at hcarb

theorem OnlySilicons.of_names (h : OnlySilicons x) (hl : LaterRows x y) (hn : Names x y u none)
    (ha : account y u = some a) (hc : a.custodianUuid.isSome) : a.kind = .silicon := by
  have hsome : (custodianOf x u).isSome := by
    rw [← none_or (o := custodianOf x u), ← hn.1, custodianOf, ha]
    exact hc
  cases hx : account x u with
  | none => simp [custodianOf, hx] at hsome
  | some b =>
    simp only [custodianOf, hx, bind_some] at hsome
    obtain ⟨a', ha', hlat⟩ := hl u b hx
    obtain rfl : a' = a := Option.some.inj (ha'.symm.trans ha)
    exact hlat.kind.trans (h u b hx hsome)

/-- A guarded upsert leaves a row that the checks of the table accept, or the old table. -/
theorem violated_guardedUpsert (h : guardedUpsert x proposed accepts update = .ok (y, applied))
    (hu : ∀ a, (update a).uuid = a.uuid) :
    y = x ∨ ∀ a, account y proposed.uuid = some a → a.violated = none := by
  obtain ⟨hval, ⟨b, -, -, rfl, -⟩ | ⟨-, rfl, -, hupd⟩⟩ := guardedUpsert_eq_ok h
  · exact .inl rfl
  · right
    intro a ha
    rw [account_upsert_self rfl hu] at ha
    cases ha
    cases hb : account x proposed.uuid with
    | none => exact hval
    | some b => exact hupd b hb

theorem kind_recordLookup (h : recordLookup x found now = .ok y)
    (ha : account y found.uuid = some a) (hc : a.custodianUuid.isSome) : a.kind = .silicon := by
  obtain ⟨rows, -, hval, hcase⟩ := recordLookup_eq_ok h
  obtain ⟨-, hval⟩ := or_eq_none_iff.mp hval
  obtain ⟨hins, hupd⟩ := or_eq_none_iff.mp hval
  have hr : ∀ b, account (upsert Account.uuid found.uuid (found.inserted now)
      (found.updated now) rows) found.uuid = some b → b.violated = none := by
    intro b hb
    rw [account_upsert_self (by rfl) (by intros; rfl)] at hb
    cases hb
    cases ho : account rows found.uuid with
    | none => exact hins
    | some o =>
      rw [ho] at hupd
      exact hupd
  obtain rfl | ⟨id, -, rfl⟩ := hcase
  · exact Account.kind_of_violated (hr a ha) hc
  · -- clearing the id elsewhere leaves the row of the lookup as it is
    rw [account_clearId] at ha
    obtain ⟨b, hb, rfl⟩ := map_eq_some_iff.mp ha
    have hkind : b.custodianUuid.isSome → b.kind = .silicon := Account.kind_of_violated (hr b hb)
    by_cases hcleared : (b.currentId = some id && b.uuid ≠ found.uuid : Bool) = true
    · rw [if_pos hcleared] at hc ⊢
      exact hkind hc
    · rw [if_neg hcleared] at hc ⊢
      exact hkind hc

/-! ### One step -/

theorem ChangedAt.append (h : ChangedAt (log ++ entries) u t) :
    ChangedAt log u t ∨ ∃ e ∈ entries, e.changes u t := by
  obtain ⟨e, hm, he⟩ := h
  exact (mem_append.mp hm).imp (fun hm => ⟨e, hm, he⟩) fun hm => ⟨e, hm, he⟩

/-- A write that names nobody. -/
theorem InCustody.of_names (h : InCustody x log) (hl : LaterRows x y) (hn : ∀ u, Names x y u none)
    (he : ∀ u t, ∀ e ∈ entries, ¬ e.changes u t) : InCustody y (log ++ entries) where
  silicons u a ha hc := h.silicons.of_names hl (hn u) ha hc
  named u t c ht hc := by
    rw [(hn u).2] at ht
    rw [(hn u).1, none_or] at hc
    exact (h.named u t c ht hc).append entries
  changed u t hc := by
    obtain hc | ⟨e, hm, hch⟩ := hc.append
    · exact changed_later hl h.changed u t hc
    · exact absurd hch (he u t e hm)

/-- A description that its account's row accepts in order. -/
theorem InCustody.of_description {entry : Entry} {u₀ : String}
    {custodian : Option (String × String)} {t₀ : Nat} (h : InCustody x log) (hl : LaterRows x y)
    (hn : ∀ u, Names x y u (if u = u₀ then custodian.map (·.1) else none))
    (hk : ∀ a, account y u₀ = some a → a.custodianUuid.isSome → a.kind = .silicon)
    (ho : describesCurrent x u₀ custodian t₀ = true)
    (hent : ∀ c, custodian.map (·.1) = some c → entry.names u₀ c t₀)
    (he : ∀ u t, ¬ entry.changes u t) : InCustody y (log ++ [entry]) where
  silicons u a ha hc := by
    by_cases hu : u = u₀
    · subst hu
      exact hk a ha hc
    · have hnu := hn u
      rw [if_neg hu] at hnu
      exact h.silicons.of_names hl hnu ha hc
  named u t c ht hc := by
    rw [(hn u).2] at ht
    rw [(hn u).1] at hc
    by_cases hu : u = u₀
    · subst hu
      rw [if_pos rfl] at hc
      cases hcust : custodian.map (·.1) with
      | none =>
        rw [hcust, none_or] at hc
        exact (h.named u t c ht hc).append _
      | some c' =>
        obtain rfl : c' = c := by simpa [hcust] using hc
        simp only [describesCurrent, ht, all_some, Bool.or_eq_true, decide_eq_true_eq] at ho
        cases ho with
        | inl hle => exact ⟨entry, by simp, t₀, hle, hent c' hcust⟩
        | inr hsame =>
          -- an older description of the custodian that is stored anyway
          obtain ⟨owner, rfl, rfl⟩ := map_eq_some_iff.mp hcust
          simp only [all_some, decide_eq_true_eq] at hsame
          exact (h.named u t owner.1 ht hsame).append _
    · rw [if_neg hu, none_or] at hc
      exact (h.named u t c ht hc).append _
  changed u t hc := by
    obtain hc | ⟨e, hm, hch⟩ := hc.append
    · exact changed_later hl h.changed u t hc
    · rw [mem_singleton.mp hm] at hch
      exact absurd hch (he u t)

/-- A custodian change. -/
theorem InCustody.of_change (h : InCustody x log)
    (hok : applyCustodianChange x silicon owner occurredAt = .ok (y, applied))
    (hev : event.event = .custodianChanged silicon (some owner))
    (htime : event.occurredAt = some occurredAt) :
    InCustody y (log ++ [.applied event index (.custodian silicon owner occurredAt)]) where
  silicons u a ha hc := by
    obtain ⟨hn, -⟩ | ⟨-, -, -, b, hb, hk⟩ := applyCustodianChange_cases hok u
    · exact h.silicons.of_names (laterRows_applyCustodianChange hok) hn ha hc
    · obtain rfl : b = a := Option.some.inj (hb.symm.trans ha)
      exact hk
  named u t c ht hc := by
    obtain ⟨hn, -⟩ | ⟨rfl, hc', ht', -⟩ := applyCustodianChange_cases hok u
    · rw [hn.2] at ht
      rw [hn.1, none_or] at hc
      exact (h.named u t c ht hc).append _
    · obtain rfl : occurredAt = t := Option.some.inj (ht'.symm.trans ht)
      obtain rfl : owner.1 = c := Option.some.inj (hc'.symm.trans hc)
      refine ⟨_, mem_append_right _ (mem_singleton_self _), occurredAt, Nat.le_refl _, htime, ?_⟩
      rw [hev]
      exact ⟨rfl, rfl⟩
  changed u t hc := by
    obtain hc | ⟨e, hm, hch⟩ := hc.append
    · exact changed_later (laterRows_applyCustodianChange hok) h.changed u t hc
    · rw [mem_singleton.mp hm] at hch
      obtain ⟨ht, owner', hev'⟩ := hch
      obtain rfl : occurredAt = t := Option.some.inj (htime.symm.trans ht)
      obtain ⟨rfl, -⟩ := AccountEvent.custodianChanged.inj (hev.symm.trans hev')
      obtain ⟨-, hr⟩ | ⟨-, -, ht, a, ha, -⟩ := applyCustodianChange_cases hok silicon
      · exact hr rfl
      · refine ⟨a, ha, fun _ => ⟨occurredAt, ?_, Nat.le_refl _⟩⟩
        simpa [changedAt, ha] using ht

/-- A profile update either was refused by its version, or describes the current custodian. -/
theorem InCustody.of_profile {version : Int} (h : InCustody x log)
    (hok : applyProfileUpdate x found version = .ok (y, applied)) (ho : ((account x found.uuid).any
          (fun row => !(row.status = .active && row.profileVersion < version.toNat)) ||
        describesCurrent x found.uuid found.custodian occurredAt) = true)
    {uuid : String} (hev : event.event = .updated uuid (some found) version)
    (htime : event.occurredAt = some occurredAt) :
    InCustody y (log ++ [.applied event index (.profile found version occurredAt)]) := by
  have hchanges : ∀ u t, ¬ (Entry.applied event index
      (.profile found version occurredAt)).changes u t := by
    rintro u t ⟨-, owner, he⟩
    cases hev.symm.trans he
  have hl := laterRows_applyProfileUpdate hok
  obtain hn | ⟨-, hn, hacc⟩ := names_applyProfileUpdate hok found.uuid
  · refine h.of_names hl (fun u => ?_) (by simpa using hchanges)
    obtain hn' | ⟨rfl, -, -⟩ := names_applyProfileUpdate hok u
    · exact hn'
    · exact hn
  · have hcur : describesCurrent x found.uuid found.custodian occurredAt = true := by
      cases hr : account x found.uuid with
      | none => simpa [hr] using ho
      | some row =>
        have hyes := hacc row hr
        simpa only [hr, any_some, hyes, Bool.not_true, Bool.false_or] using ho
    refine h.of_description hl (fun u => ?_) ?_ hcur (fun c hc => ⟨htime, ?_⟩) hchanges
    · by_cases hu : u = found.uuid
      · subst hu
        rw [if_pos rfl]
        exact hn
      · rw [if_neg hu]
        obtain hn' | ⟨he, -, -⟩ := names_applyProfileUpdate hok u
        · exact hn'
        · exact absurd he hu
    · intro a ha hc
      obtain rfl | hval := violated_guardedUpsert hok (fun _ => rfl)
      · exact h.silicons _ a ha hc
      · exact Account.kind_of_violated (hval a ha) hc
    · rw [hev]
      exact ⟨rfl, hc⟩

/-- Handlers make the store calls of their events, dated by the events that may write a
custodian. -/
structure Dated (jobs : List (Nat × Job)) : Prop where
  received : ∀ id event, (id, .receive event) ∈ jobs →
    event.event.tellsCustodian = true → event.occurredAt.isSome
  applying : ∀ id event t done rest, (id, .apply event t done rest) ∈ jobs →
    (∀ effect ∈ rest, effect ∈ event.event.effects t) ∧
      (event.event.tellsCustodian = true → event.occurredAt = some t)

theorem Dated.step {s s' : Service} {l : Label} (h : Dated s.jobs)
    (ho : custodyInOrder s l = true) (hs : s.step l = some s') : Dated s'.jobs where
  received id event hj := by
    obtain hj | ⟨what, rfl, he⟩ | ⟨a, before, rfl, hb, hjob⟩ := job_of_step hs hj
    · exact h.received id event hj
    · cases what with
      | deliver event' =>
        cases he
        intro htells
        simpa [custodyInOrder, htells] using ho
      | request | reenrol => cases he
    · cases next_of_advance hjob
  applying id event t done rest hj := by
    obtain hj | ⟨what, rfl, he⟩ | ⟨a, before, rfl, hb, hjob⟩ := job_of_step hs hj
    · exact h.applying id event t done rest hj
    · cases what <;> cases he
    · obtain hreceive | happ := apply_of_advance hjob
      · obtain ⟨rfl, rfl, rfl, rfl⟩ := hreceive
        refine ⟨fun _ hm => hm, fun htells => ?_⟩
        obtain ⟨t, ht⟩ := isSome_iff_exists.mp (h.received id event (mem_of_job hb) htells)
        rw [ht]
        rfl
      · obtain ⟨earlier, effect, rfl, rfl⟩ := happ
        obtain ⟨hcalls, ht⟩ := h.applying id event t earlier _ (mem_of_job hb)
        exact ⟨fun e hm => hcalls e (mem_cons_of_mem _ hm), ht⟩

/-- The store call of a custodian change. -/
theorem effect_of_custodianChanged {e : AccountEvent} {effect : Effect}
    (hev : e = .custodianChanged u (some owner)) (h : effect ∈ e.effects t) :
    effect = .custodian u owner t := by
  subst hev
  exact mem_singleton.mp h

/-- The event of a store call that writes a custodian. -/
theorem event_of_effect {e : AccountEvent} {effect : Effect} (h : effect ∈ e.effects t) :
    (∀ silicon owner occurredAt, effect = .custodian silicon owner occurredAt →
      e = .custodianChanged silicon (some owner) ∧ occurredAt = t) ∧
    ∀ found version occurredAt, effect = .profile found version occurredAt →
      (∃ uuid, e = .updated uuid (some found) version) ∧ occurredAt = t := by
  unfold AccountEvent.effects at h
  split at h
  case h_2 | h_4 =>
    obtain rfl := mem_singleton.mp h
    simp
  all_goals
    try split at h
    all_goals
      constructor
      all_goals
        rintro _ _ _ rfl
        simp at h

theorem InCustody.of_wrote {s : Service} {l : Label} (h : InCustody s.directory.accounts s.log)
    (hd : Dated s.jobs) (ho : custodyInOrder s l = true) (hw : Wrote s l accounts entries) :
    InCustody accounts (s.log ++ entries) := by
  have hl := hw.laterRows
  cases hw with
  | applied job ok =>
    rename_i event at₀ done effect rest d
    obtain ⟨hcalls, htime⟩ := hd.applying _ _ _ _ _ (mem_of_job job)
    have hcall := hcalls effect mem_cons_self
    have hchanges : (∀ u owner, effect ≠ .custodian u owner at₀) →
        ∀ u t, ∀ e ∈ [Entry.applied event done effect], ¬ e.changes u t := by
      intro hne u t e hm hch
      rw [mem_singleton.mp hm] at hch
      obtain ⟨-, owner, hev⟩ := hch
      exact hne u owner (effect_of_custodianChanged hev hcall)
    have hwrites := Effect.writes ok
    generalize d.accounts = y at hl hwrites
    cases hwrites with
    | idChange ok => exact h.of_names hl (names_applyIdChange ok) (hchanges (by simp))
    | profile ok =>
      simp only [custodyInOrder, job] at ho
      obtain ⟨⟨uuid, hev⟩, rfl⟩ := (event_of_effect hcall).2 _ _ _ rfl
      exact h.of_profile ok ho hev (htime (by rw [hev]; rfl))
    | custodian ok =>
      obtain ⟨hev, rfl⟩ := (event_of_effect hcall).1 _ _ _ rfl
      exact h.of_change ok hev (htime (by rw [hev]; rfl))
    | revoke => exact h.of_names hl (names_revokeSessionsBefore _ _ _) (hchanges (by simp))
    | endProofs => exact h.of_names hl (fun u => .refl _ u) (hchanges (by simp))
    | delete => exact h.of_names hl (names_markDeleted _ _ _) (hchanges (by simp))
  | handled | admitted => exact h.of_names hl (fun u => .refl _ u) (by simp [Entry.changes])
  | silent => exact h.of_names hl (fun u => .refl _ u) (by simp)
  | authenticated _ ok => exact h.of_names hl (names_recordAuthentication ok) (by simp)
  | looked ok =>
    exact h.of_description hl (names_recordLookup ok) (fun a => kind_recordLookup ok) ho
      (fun c hc => ⟨rfl, hc, rfl⟩) (by simp [Entry.changes])
  | memberProfile => exact h.of_names hl (names_recordMemberProfile _ _ _ _) (by simp)

theorem InCustody.step {s s' : Service} {l : Label} (h : InCustody s.directory.accounts s.log)
    (hd : Dated s.jobs) (ho : custodyInOrder s l = true) (hs : s.step l = some s') :
    InCustody s'.directory.accounts s'.log := by
  obtain ⟨entries, hlog, hw⟩ := wrote_of_step hs
  rw [hlog]
  exact h.of_wrote hd ho hw

/-- The stored custodian was named no earlier than any applied change. -/
theorem InCustody.namedSince (h : InCustody accounts log) (hc : custodianOf accounts u = some c)
    (ht : ChangedAt log u t) : NamedSince log u c t := by
  obtain ⟨a, ha, hchd⟩ := h.changed u t ht
  have hca : a.custodianUuid = some c := by simpa [custodianOf, ha] using hc
  have hkind := h.silicons u a ha (by simp [hca])
  obtain ⟨t', ht', hle⟩ := hchd hkind
  have hat : changedAt accounts u = some t' := by simpa [changedAt, ha] using ht'
  obtain ⟨e, he, t'', hle', hns⟩ := h.named u t' c hat hc
  exact ⟨e, he, t'', Nat.le_trans hle hle', hns⟩

/-! ### Results -/

/-- Tables that satisfy their checks and that no custodian change has written yet. -/
def UnchangedCustody (d : Directory) : Prop :=
  ∀ a ∈ d.accounts, a.violated = none ∧ a.custodianChangedAt = none

theorem UnchangedCustody.inCustody {d : Directory} (h : UnchangedCustody d) :
    InCustody d.accounts [] where
  silicons u a ha hc := Account.kind_of_violated (h a (mem_of_getRow_eq_some ha).1).1 hc
  named u t c ht _ := by
    obtain ⟨a, ha, hat⟩ := bind_eq_some_iff.mp ht
    rw [(h a (mem_of_getRow_eq_some ha).1).2] at hat
    cases hat
  changed u t hc := by
    obtain ⟨_, hm, -⟩ := hc
    cases hm

/-- In every run where profile updates and lookups describe the current custodian, the stored
custodian of a Silicon is one that a description from the time of each applied change or later
names, and a reader who takes no part in a conversation is such a custodian. -/
theorem custodian_stays_current {s : Service}
    (h : (identity UnchangedCustody).ReachableWhile (fun s l => custodyInOrder s l = true) s) :
    (∀ u c t, custodianOf s.directory.accounts u = some c → ChangedAt s.log u t →
      NamedSince s.log u c t) ∧
    ∀ (db : Database) (viewer : ActorRef) (conversation : Nat),
      db.accounts = s.directory.accounts → db.requireReader viewer conversation = .ok () →
      viewer ∈ db.effectiveParticipants conversation ∨
        ∃ silicon ∈ db.effectiveParticipants conversation, silicon.actorType = .silicon ∧
          ∀ t, ChangedAt s.log silicon.id t → NamedSince s.log silicon.id viewer.id t := by
  obtain ⟨hinv, -⟩ : InCustody s.directory.accounts s.log ∧ Dated s.jobs := by
    refine h.invariant (I := fun s => InCustody s.directory.accounts s.log ∧ Dated s.jobs) ?_ ?_
    · rintro s ⟨hd, hjobs, hlog⟩
      rw [hlog, hjobs]
      exact ⟨hd.inCustody, ⟨by simp, by simp⟩⟩
    · exact fun s l s' ⟨hs, hd⟩ hc hl => ⟨hs.step hd hc hl, hd.step hc hl⟩
  refine ⟨fun u c t hc ht => hinv.namedSince hc ht, ?_⟩
  intro db viewer conversation hdb hread
  obtain hp | ⟨silicon, hmem, hkind, hc⟩ := Database.requireReader_eq_ok hread
  · exact .inl hp
  · rw [hdb] at hc
    exact .inr ⟨silicon, hmem, hkind, fun t ht => hinv.namedSince hc ht⟩

/-- The Silicon `sil`, whose custodian is `ada`. -/
def adasSilicon : Service where
  directory :=
    { accounts := [Account.new "ada" .carbon,
        { Account.new "sil" .silicon with custodianUuid := some "ada" }]
      grants := [], enrolments := [], receipts := [], retired := [] }
  jobs := []
  log := []

theorem adasSilicon_init : (identity UnchangedCustody).init adasSilicon := by
  refine ⟨?_, rfl, rfl⟩
  unfold UnchangedCustody
  decide

/-- At time 20 the custodian becomes `bea`. -/
def toBea : VerifiedEvent :=
  { eventId := "evt_change", occurredAt := some 20,
    event := .custodianChanged "sil" (some ("bea", "c:bea")) }

/-- At time 10 the custodian became `ada`. -/
def toAda : VerifiedEvent :=
  { eventId := "evt_earlier", occurredAt := some 10,
    event := .custodianChanged "sil" (some ("ada", "c:ada")) }

/-- What Silicon Accounts says about `sil` under a custodian. -/
def silUnder (custodian : String × String) : AccountLookup :=
  { uuid := "sil", kind := .silicon, id := none, displayName := some "Sil", pfpUrl := none,
    custodian := some custodian, deleted := false }

def quietAnswer : Answer :=
  { now := 100, live := false, enrol := false, proof := none, subscribed := false }

/-- Deliver an event and run its handler to the end (for an event with one store call). -/
def handled (id : Nat) (event : VerifiedEvent) : List Label :=
  [.start id (.deliver event), .advance id quietAnswer, .advance id quietAnswer,
    .advance id quietAnswer]

/-- `account.updated` for `sil` at a time. -/
def silUpdated (custodian : String × String) (occurredAt : Nat) : VerifiedEvent :=
  { eventId := "evt_profile", occurredAt := some occurredAt,
    event := .updated "sil" (some (silUnder custodian)) 1 }

/-- The change to `bea` is followed by an older one to `ada`, a newer profile and a lookup. -/
theorem custodian_stays_current_bea : ∃ s,
    (identity UnchangedCustody).ReachableWhile (fun s l => custodyInOrder s l = true) s ∧
      NamedSince s.log "sil" "bea" 20 := by
  have h := Base.System.reachableWhile_get (C := fun s l => custodyInOrder s l = true)
    (handled 0 toBea ++ handled 1 toAda ++ handled 2 (silUpdated ("bea", "c:bea") 30) ++
      [.lookup (silUnder ("bea", "c:bea")) 35 40]) adasSilicon_init (by decide +kernel)
  exact ⟨_, h, (custodian_stays_current h).1 "sil" "bea" 20 (by decide +kernel)
    ⟨.applied toBea 0 (.custodian "sil" ("bea", "c:bea") 20), by decide +kernel, rfl, _, rfl⟩⟩

/-- A direct conversation of `sil` and `cyd` over given accounts. -/
def silsConversation (accounts : List Account) : Database :=
  { Database.empty with
    accounts
    conversations := [{ id := 1, isGroup := false, nextMessageSequence := 1 }]
    participants := [⟨1, ⟨.silicon, "sil"⟩, 0⟩, ⟨1, ⟨.carbon, "cyd"⟩, 0⟩] }

/-- A profile update of time 10 that arrives after the change of time 20 makes `ada` the
custodian again, who then reads the conversation of `sil` and `cyd`. -/
theorem former_custodian_returns : ∃ s, (identity UnchangedCustody).Reachable s ∧
    ChangedAt s.log "sil" 20 ∧ custodianOf s.directory.accounts "sil" = some "ada" ∧
    ¬ NamedSince s.log "sil" "ada" 20 ∧
    (silsConversation s.directory.accounts).requireReader ⟨.carbon, "ada"⟩ 1 = .ok () ∧
    ⟨.carbon, "ada"⟩ ∉ (silsConversation s.directory.accounts).effectiveParticipants 1 := by
  refine ⟨_, Base.System.reachable_get
    (handled 0 toBea ++ handled 1 (silUpdated ("ada", "c:ada") 10)) adasSilicon_init
    (by decide +kernel),
    ⟨.applied toBea 0 (.custodian "sil" ("bea", "c:bea") 20), by decide +kernel, rfl, _, rfl⟩,
    by decide +kernel, ?_, rfl, by decide +kernel⟩
  rintro ⟨e, he, t, ht, hn⟩
  have hlog : e ∈ [.applied toBea 0 (.custodian "sil" ("bea", "c:bea") 20),
      .handled toBea.event 20,
      .applied (silUpdated ("ada", "c:ada") 10) 0 (.profile (silUnder ("ada", "c:ada")) 1 10),
      .handled (silUpdated ("ada", "c:ada") 10).event 10] := he
  simp only [mem_cons, not_mem_nil, or_false] at hlog
  obtain rfl | rfl | rfl | rfl := hlog
  · obtain ⟨-, -, hc⟩ := hn
    exact absurd hc (by decide)
  · exact hn
  · obtain ⟨hat, -⟩ := hn
    cases hat
    omega
  · exact hn

end SiliconDm.Server
