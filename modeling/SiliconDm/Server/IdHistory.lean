import SiliconDm.Server.Accounts

/-!
# Deliveries of id changes in any order

`account.id_changed` events reach the webhook late, early and repeatedly. Each one is
guarded by the timestamp of its own account, but clears its id on every other account
without comparing timestamps. Receipts (`src/api/webhook.rs:29–91`) only drop repeats, so a
delivery here is the application of an event. Source:
`src/infrastructure/postgres/accounts.rs:274–324`, `src/api/webhook.rs:1–5,93–111`.
-/

namespace SiliconDm.Server

open Base List

/-- One delivery; a refused one is answered with an error and changes nothing. -/
def deliver (accounts : List Account) (e : IdChanged) : List Account :=
  match applyIdChange accounts e with
  | .ok (accounts', _) => accounts'
  | .error _ => accounts

def deliverAll (accounts : List Account) (deliveries : List IdChanged) : List Account :=
  deliveries.foldl deliver accounts

/-- The id an account holds at a time, going by the events alone: that of its latest event up
to then. -/
def HoldsAt (events : List IdChanged) (uuid id : String) (time : Nat) : Prop :=
  ∃ e ∈ events, e.uuid = uuid ∧ e.newId = id ∧ e.occurredAt ≤ time ∧
    ∀ e' ∈ events, e'.uuid = uuid → e'.occurredAt ≤ time → e'.occurredAt ≤ e.occurredAt

/-- The history never gives one id to two accounts at the same time. -/
def NeverShared (events : List IdChanged) : Prop :=
  ∀ id time u v, HoldsAt events u id time → HoldsAt events v id time → u = v

/-- Events as Silicon Accounts sends them: distinct times, well-formed ids, and one kind for
each account. -/
structure Genuine (events : List IdChanged) : Prop where
  distinct : ∀ e ∈ events, ∀ e' ∈ events, e.occurredAt = e'.occurredAt → e = e'
  valid : ∀ e ∈ events, validPublicId e.newId = true
  matching : ∀ e ∈ events, kindMatchesId e.kindOrDefault e.newId = true
  oneKind : ∀ e ∈ events, ∀ e' ∈ events, e.uuid = e'.uuid → e.kindOrDefault = e'.kindOrDefault

/-- A table before any of the events: no id change was recorded, no id is held twice, and the
accounts of the events are active and of their kind. -/
structure Unchanged (accounts : List Account) (events : List IdChanged) : Prop where
  keyed : Keyed Account.uuid accounts
  unrecorded : ∀ a ∈ accounts, a.idChangedAt = none
  unique : ∀ a ∈ accounts, ∀ b ∈ accounts, a.currentId = b.currentId → a.currentId.isSome →
    a = b
  active : ∀ a ∈ accounts, ∀ e ∈ events, a.uuid = e.uuid → a.status = .active
  kind : ∀ a ∈ accounts, ∀ e ∈ events, a.uuid = e.uuid → a.kind = e.kindOrDefault
  custodian : ∀ a ∈ accounts, a.custodianUuid.isSome → a.kind = .silicon

/-- The event leaves the id of every other account alone that got it at a later time. -/
def SparesNewer (accounts : List Account) (e : IdChanged) : Prop :=
  ∀ a ∈ accounts, a.uuid ≠ e.uuid → ∀ time, a.idChangedAt = some time → e.occurredAt < time →
    account (deliver accounts e) a.uuid = some a

/-- What deliveries should establish: the latest id of each account, no id held twice by active
accounts, and no event that takes an id from its newer holder. -/
structure Converges (events : List IdChanged) (accounts : List Account)
    (deliveries : List IdChanged) : Prop where
  latest : ∀ e ∈ events, (∀ e' ∈ events, e'.uuid = e.uuid → e'.occurredAt ≤ e.occurredAt) →
    ∃ a, account (deliverAll accounts deliveries) e.uuid = some a ∧
      a.currentId = some e.newId
  unique : ∀ a ∈ deliverAll accounts deliveries, ∀ b ∈ deliverAll accounts deliveries,
    a.status = .active → b.status = .active → a.currentId = b.currentId →
      a.currentId.isSome → a = b
  spares : ∀ before e after, deliveries = before ++ e :: after →
    SparesNewer (deliverAll accounts before) e

/-! ### One delivery -/

/-- What the table says about an account after the events in `done` were delivered. -/
structure Tracks (events done : List IdChanged) (accounts : List Account) : Prop where
  keyed : Keyed Account.uuid accounts
  unique : ∀ u v a b, account accounts u = some a → account accounts v = some b →
    a.currentId = b.currentId → a.currentId.isSome → u = v
  active : ∀ e ∈ events, ∀ a, account accounts e.uuid = some a → a.status = .active
  kind : ∀ e ∈ events, ∀ a, account accounts e.uuid = some a → a.kind = e.kindOrDefault
  custodian : ∀ u a, account accounts u = some a → a.custodianUuid.isSome → a.kind = .silicon
  changed : ∀ u a time, account accounts u = some a → a.idChangedAt = some time →
    ∃ e ∈ done, e.uuid = u ∧ e.occurredAt = time ∧ a.currentId = some e.newId
  recorded : ∀ e ∈ done, ∃ a time, account accounts e.uuid = some a ∧
    a.idChangedAt = some time ∧ e.occurredAt ≤ time

variable {accounts : List Account} {events done deliveries : List IdChanged} {e : IdChanged}
  {u : String} {a : Account}

theorem tracks_of_unchanged (h : Unchanged accounts events) : Tracks events [] accounts where
  keyed := h.keyed
  unique u v a b ha hb he hs := by
    obtain ⟨ham, rfl⟩ := mem_of_getRow_eq_some ha
    obtain ⟨hbm, rfl⟩ := mem_of_getRow_eq_some hb
    rw [h.unique a ham b hbm he hs]
  active e he a ha := by
    obtain ⟨ham, hu⟩ := mem_of_getRow_eq_some ha
    exact h.active a ham e he hu
  kind e he a ha := by
    obtain ⟨ham, hu⟩ := mem_of_getRow_eq_some ha
    exact h.kind a ham e he hu
  custodian u a ha := h.custodian a (mem_of_getRow_eq_some ha).1
  changed u a time ha ht := by
    rw [h.unrecorded a (mem_of_getRow_eq_some ha).1] at ht
    simp at ht
  recorded := by simp

/-- A genuine event is never refused. -/
private theorem exists_applyIdChange (hg : Genuine events) (h : Tracks events done accounts)
    (he : e ∈ events) :
    ∃ applied, applyIdChange accounts e = .ok (deliver accounts e, applied) := by
  have hprop : e.proposed.violated = none := by
    simp [Account.violated, IdChanged.proposed, Account.new, hg.matching e he]
  have hupd : ∀ a, account accounts e.uuid = some a → (e.update a).violated = none := by
    intro a ha
    have hk := h.kind e he a ha
    have hc := h.custodian _ a ha
    simp only [Account.violated, IdChanged.update, Option.any_some, hk, hg.matching e he,
      Bool.not_true, Bool.false_eq_true, if_false]
    rw [if_neg]
    simp only [Bool.and_eq_true, decide_eq_true_eq, not_and]
    intro hs
    rw [← hk, hc hs]
    simp
  have hrow : account accounts e.proposed.uuid = account accounts e.uuid := rfl
  unfold deliver applyIdChange guardedUpsert
  simp only [hg.valid e he, Bool.not_true, Bool.false_eq_true, if_false, hprop, hrow]
  cases ha : account accounts e.uuid with
  | none => exact ⟨_, rfl⟩
  | some a =>
    simp only [hupd a ha]
    split <;> exact ⟨_, rfl⟩

/-- Each public id belongs to the events of one account only. -/
def OneOwner (events : List IdChanged) : Prop :=
  ∀ e ∈ events, ∀ e' ∈ events, e.newId = e'.newId → e.uuid = e'.uuid

/-- Where ids have one owner, clearing an id never hits an account that an event described. -/
private theorem not_cleared (ho : OneOwner events) (hsub : ∀ e ∈ done, e ∈ events)
    (h : Tracks events done accounts) (he : e ∈ events) {time : Nat}
    (ha : account accounts u = some a) (hu : u ≠ e.uuid) (ht : a.idChangedAt = some time) :
    a.currentId ≠ some e.newId := by
  obtain ⟨e', he', hu', -, hid⟩ := h.changed u a time ha ht
  intro hsame
  rw [hid] at hsame
  have : e'.uuid = e.uuid := ho e' (hsub e' he') e he (Option.some.inj hsame)
  exact hu (hu'.symm.trans this)

private theorem tracks_stale (h : Tracks events done accounts) (he : e ∈ events)
    (ha : account accounts e.uuid = some a) (hs : acceptsIdChange a e.occurredAt = false) :
    Tracks events (done ++ [e]) accounts where
  keyed := h.keyed
  unique := h.unique
  active := h.active
  kind := h.kind
  custodian := h.custodian
  changed u b time hb ht := by
    obtain ⟨e', he', hrest⟩ := h.changed u b time hb ht
    exact ⟨e', mem_append_left _ he', hrest⟩
  recorded e' he' := by
    rcases mem_concat.mp he' with he' | rfl
    · exact h.recorded e' he'
    · have hact := h.active e' he a ha
      cases ht : a.idChangedAt with
      | none => simp [acceptsIdChange, hact, ht] at hs
      | some time =>
        refine ⟨a, time, ha, ht, ?_⟩
        simpa [acceptsIdChange, hact, ht] using hs

private abbrev change (accounts : List Account) (e : IdChanged) : List Account :=
  clearId e.newId e.uuid (upsert Account.uuid e.uuid e.proposed e.update accounts)

/-- A row after a change: the event's own, or an old one that at most lost the event's id. -/
private theorem row_of_change (h : account (change accounts e) u = some a) :
    (u = e.uuid ∧ a = (account accounts e.uuid).elim e.proposed e.update) ∨
    (u ≠ e.uuid ∧ a.currentId ≠ some e.newId ∧ ∃ b, account accounts u = some b ∧
      (a = b ∨ b.currentId = some e.newId ∧ a = { b with currentId := none })) := by
  rw [account_idChanged] at h
  split at h
  next hu => exact .inl ⟨hu, (Option.some.inj h).symm⟩
  next hu =>
    obtain ⟨b, hb, hab⟩ := Option.map_eq_some_iff.mp h
    have hne : b.uuid ≠ e.uuid := by rw [(mem_of_getRow_eq_some hb).2]; exact hu
    refine .inr ⟨hu, ?_⟩
    split at hab
    next hc =>
      subst hab
      simp only [Bool.and_eq_true, decide_eq_true_eq] at hc
      exact ⟨by simp, b, hb, .inr ⟨hc.1, rfl⟩⟩
    next hc =>
      subst hab
      refine ⟨fun hid => hc ?_, b, hb, .inl rfl⟩
      simp [hid, hne]

/-- An attribute that the proposed row has, and that neither the change nor the clearing of an
id touches, holds of every row after a change if it held before. -/
private theorem attribute_of_change {P : Account → Prop} (hnew : u = e.uuid → P e.proposed)
    (hupd : ∀ b, P b → P (e.update b)) (hclr : ∀ b, P b → P { b with currentId := none })
    (h : ∀ a, account accounts u = some a → P a) :
    ∀ a, account (change accounts e) u = some a → P a := by
  intro a ha
  rcases row_of_change ha with ⟨rfl, rfl⟩ | ⟨-, -, b, hb, rfl | ⟨-, rfl⟩⟩
  · cases hb : account accounts e.uuid with
    | none => exact hnew rfl
    | some b => exact hupd b (h b hb)
  · exact h a hb
  · exact hclr b (h b hb)

private theorem currentId_own (accounts : List Account) (e : IdChanged) :
    ((account accounts e.uuid).elim e.proposed e.update).currentId = some e.newId := by
  cases account accounts e.uuid <;> rfl

private theorem idChangedAt_own (accounts : List Account) (e : IdChanged) :
    ((account accounts e.uuid).elim e.proposed e.update).idChangedAt = some e.occurredAt := by
  cases account accounts e.uuid <;> rfl

private theorem unique_of_change
    (h : ∀ u v a b, account accounts u = some a → account accounts v = some b →
      a.currentId = b.currentId → a.currentId.isSome → u = v) :
    ∀ u v a b, account (change accounts e) u = some a → account (change accounts e) v = some b →
      a.currentId = b.currentId → a.currentId.isSome → u = v := by
  intro u v a b ha hb hid hs
  rcases row_of_change ha with ⟨hu, rfl⟩ | ⟨hu, hane, a₀, ha₀, hac⟩
  · rcases row_of_change hb with ⟨hv, -⟩ | ⟨-, hbne, -⟩
    · rw [hu, hv]
    · exact absurd (hid.symm.trans (currentId_own accounts e)) hbne
  · rcases row_of_change hb with ⟨-, rfl⟩ | ⟨-, -, b₀, hb₀, hbc⟩
    · exact absurd (hid.trans (currentId_own accounts e)) hane
    · rcases hac with rfl | ⟨-, rfl⟩
      · rcases hbc with rfl | ⟨-, rfl⟩
        · exact h u v a b ha₀ hb₀ hid hs
        · simp [hid] at hs
      · simp at hs

private theorem changed_of_change (ho : OneOwner events) (hsub : ∀ e ∈ done, e ∈ events)
    (h : Tracks events done accounts) (he : e ∈ events) :
    ∀ u a time, account (change accounts e) u = some a → a.idChangedAt = some time →
      ∃ e' ∈ done ++ [e], e'.uuid = u ∧ e'.occurredAt = time ∧
        a.currentId = some e'.newId := by
  intro u a time ha ht
  rcases row_of_change ha with ⟨hu, rfl⟩ | ⟨hu, -, b, hb, rfl | ⟨hid, rfl⟩⟩
  · refine ⟨e, by simp, hu.symm, ?_, currentId_own accounts e⟩
    rw [idChangedAt_own] at ht
    exact Option.some.inj ht
  · obtain ⟨e', he', hrest⟩ := h.changed u a time hb ht
    exact ⟨e', mem_append_left _ he', hrest⟩
  · exact absurd hid (not_cleared ho hsub h he hb hu ht)

private theorem recorded_of_change (h : Tracks events done accounts)
    (hacc : ∀ a, account accounts e.uuid = some a → acceptsIdChange a e.occurredAt = true) :
    ∀ e' ∈ done ++ [e], ∃ a time, account (change accounts e) e'.uuid = some a ∧
      a.idChangedAt = some time ∧ e'.occurredAt ≤ time := by
  have hown : account (change accounts e) e.uuid =
      some ((account accounts e.uuid).elim e.proposed e.update) := by
    rw [account_idChanged, if_pos rfl]
  intro e' he'
  rcases mem_concat.mp he' with he' | rfl
  · obtain ⟨a, time, ha, ht, hle⟩ := h.recorded e' he'
    by_cases hu : e'.uuid = e.uuid
    · -- the row accepted this event, so what was recorded for the account is older
      rw [hu] at ha ⊢
      have hlt := hacc a ha
      simp only [acceptsIdChange, ht, Option.all_some, Bool.and_eq_true,
        decide_eq_true_eq] at hlt
      exact ⟨_, _, hown, idChangedAt_own accounts e, by omega⟩
    · rw [account_idChanged, if_neg hu, ha]
      refine ⟨_, time, rfl, ?_, hle⟩
      beta_reduce
      split <;> exact ht
  · exact ⟨_, _, hown, idChangedAt_own accounts e', Nat.le_refl _⟩

section

variable (hg : Genuine events)
include hg

/-- One delivery of an event of the set keeps the table on track. -/
theorem Tracks.deliver (ho : OneOwner events) (hsub : ∀ e ∈ done, e ∈ events)
    (h : Tracks events done accounts) (he : e ∈ events) :
    Tracks events (done ++ [e]) (deliver accounts e) := by
  obtain ⟨applied, hok⟩ := exists_applyIdChange hg h he
  have hk := keyed_applyIdChange h.keyed hok
  rcases applyIdChange_eq_ok hok with ⟨a, ha, hs, heq, -⟩ | ⟨hacc, heq⟩
  · rw [heq]
    exact tracks_stale h he ha hs
  · rw [heq] at hk ⊢
    refine ⟨hk, unique_of_change h.unique, fun e' he' => ?_, fun e' he' => ?_, fun u => ?_,
      changed_of_change ho hsub h he, recorded_of_change h hacc⟩
    · exact attribute_of_change (fun _ => rfl) (fun _ hb => hb) (fun _ hb => hb) (h.active e' he')
    · exact attribute_of_change (fun hu => (hg.oneKind e' he' e he hu).symm) (fun _ hb => hb)
        (fun _ hb => hb) (h.kind e' he')
    · exact attribute_of_change (by simp [IdChanged.proposed, Account.new]) (fun _ hb => hb)
        (fun _ hb => hb) (h.custodian u)

/-- Deliveries from the set, in any order and with repetitions. -/
theorem Tracks.deliverAll (ho : OneOwner events) (hsub : ∀ e ∈ done, e ∈ events)
    (h : Tracks events done accounts) (hd : ∀ e ∈ deliveries, e ∈ events) :
    Tracks events (done ++ deliveries) (deliverAll accounts deliveries) := by
  induction deliveries generalizing done accounts with
  | nil => simpa [Server.deliverAll] using h
  | cons e rest ih =>
    have he : e ∈ events := hd e mem_cons_self
    have hstep := h.deliver hg ho hsub he
    have hsub' : ∀ e' ∈ done ++ [e], e' ∈ events := by
      exact forall_mem_concat.mpr ⟨hsub, he⟩
    have := ih hsub' hstep fun e' he' => hd e' (mem_cons_of_mem _ he')
    simpa [Server.deliverAll] using this

/-! ### All deliveries -/

/-- An event of a table on track takes no id from an account that an event described. -/
private theorem sparesNewer_of_tracks (ho : OneOwner events) (hsub : ∀ e ∈ done, e ∈ events)
    (h : Tracks events done accounts) (he : e ∈ events) :
    SparesNewer accounts e := by
  intro a ha hu time ht _
  have hview : account accounts a.uuid = some a := h.keyed.getRow_eq_some_iff.mpr ⟨ha, rfl⟩
  obtain ⟨applied, hok⟩ := exists_applyIdChange hg h he
  rcases applyIdChange_eq_ok hok with ⟨-, -, -, heq, -⟩ | ⟨-, heq⟩
  · rw [heq]
    exact hview
  · have hne := not_cleared ho hsub h he hview hu ht
    rw [heq, account_idChanged, if_neg hu, hview]
    simp [hne]

private theorem converges_of_oneOwner (ho : OneOwner events) (hu : Unchanged accounts events)
    (hd : ∀ e, e ∈ deliveries ↔ e ∈ events) :
    Converges events accounts deliveries := by
  have track : ∀ ds : List IdChanged, (∀ e ∈ ds, e ∈ events) →
      Tracks events ds (deliverAll accounts ds) := fun ds hds => by
    simpa using (tracks_of_unchanged hu).deliverAll hg ho (by simp) hds
  have hend := track deliveries fun e he => (hd e).mp he
  refine ⟨?_, ?_, ?_⟩
  · intro e he hlast
    obtain ⟨a, time, ha, ht, hle⟩ := hend.recorded e ((hd e).mpr he)
    obtain ⟨e', he', hu', hat, hid⟩ := hend.changed e.uuid a time ha ht
    have he'mem := (hd e').mp he'
    have heq : e' = e := hg.distinct e' he'mem e he (by
      have := hlast e' he'mem hu'
      omega)
    exact ⟨a, ha, by rw [hid, heq]⟩
  · intro a ha b hb _ _ hid hs
    have hva := hend.keyed.getRow_eq_some_iff.mpr ⟨ha, rfl⟩
    have hvb := hend.keyed.getRow_eq_some_iff.mpr ⟨hb, rfl⟩
    exact hend.keyed.unique ha hb (hend.unique _ _ a b hva hvb hid hs)
  · intro before e after hsplit
    have hm : ∀ e' ∈ before ++ e :: after, e' ∈ events := by
      intro e' he'
      rw [← hsplit] at he'
      exact (hd e').mp he'
    refine sparesNewer_of_tracks hg ho (fun e' he' => hm e' (by simp [he']))
      (track before fun e' he' => hm e' (by simp [he'])) (hm e (by simp))

/-- An event of an account the table does not have is always applied. -/
private theorem deliver_of_absent (he : e ∈ events) (h : account accounts e.uuid = none) :
    deliver accounts e = change accounts e := by
  have hprop : e.proposed.violated = none := by
    simp [Account.violated, IdChanged.proposed, Account.new, hg.matching e he]
  have hrow : account accounts e.proposed.uuid = none := h
  have hr : getRow Account.uuid accounts e.uuid = none := h
  simp [deliver, applyIdChange, guardedUpsert, hg.valid e he, hprop, hrow, change, upsert, hr, bind,
    Except.bind]

private theorem not_sparesNewer {e₁ e₂ : IdChanged} (h₁ : e₁ ∈ events) (h₂ : e₂ ∈ events)
    (hid : e₁.newId = e₂.newId) (hu : e₁.uuid ≠ e₂.uuid) (hlt : e₁.occurredAt < e₂.occurredAt) :
    ¬ SparesNewer (deliverAll [] [e₂]) e₁ := by
  have htable : deliverAll [] [e₂] = [e₂.proposed] := by
    have : deliver [] e₂ = change [] e₂ := deliver_of_absent hg h₂ rfl
    simp [deliverAll, this, change, upsert, getRow, clearId, IdChanged.proposed, Account.new]
  rw [htable]
  intro h
  have hkept := h e₂.proposed (by simp) hu.symm e₂.occurredAt rfl hlt
  have huuid : e₂.proposed.uuid = e₂.uuid := rfl
  have hview : account [e₂.proposed] e₂.uuid = some e₂.proposed := by
    simp [account, getRow, huuid]
  have hn : account [e₂.proposed] e₁.uuid = none := by
    simp [account, getRow, huuid, hu.symm]
  rw [deliver_of_absent hg h₁ hn, huuid, account_idChanged, if_neg hu.symm, hview] at hkept
  have hcleared := congrArg Account.currentId (Option.some.inj hkept)
  simp [IdChanged.proposed, Account.new, hid, hu.symm] at hcleared

end

/-- The events of a set converge in every order, with repetitions and from every table that has
not seen them, exactly when each public id occurs in the events of one account only. -/
theorem ids_converge_iff {events : List IdChanged} (hg : Genuine events) :
    (∀ accounts, Unchanged accounts events → ∀ deliveries, (∀ e, e ∈ deliveries ↔ e ∈ events) →
      Converges events accounts deliveries) ↔ OneOwner events := by
  constructor
  · intro h e₁ h₁ e₂ h₂ hid
    by_contra hu
    have hempty : Unchanged [] events :=
      ⟨nodup_nil, by simp, by simp, by simp, by simp, by simp⟩
    -- deliver the later of the two events first, then the earlier one, then everything
    have late : ∀ a ∈ events, ∀ b ∈ events, a.newId = b.newId → a.uuid ≠ b.uuid →
        ¬ a.occurredAt < b.occurredAt := by
      intro a ha b hb hab hne hlt
      have hd : ∀ e, e ∈ b :: a :: events ↔ e ∈ events := by
        intro e
        simp only [mem_cons]
        constructor
        · rintro (rfl | rfl | he) <;> assumption
        · exact fun he => .inr (.inr he)
      exact not_sparesNewer hg ha hb hab hne hlt
        ((h [] hempty (b :: a :: events) hd).spares [b] a events rfl)
    rcases Nat.lt_trichotomy e₁.occurredAt e₂.occurredAt with hlt | heq | hlt
    · exact late e₁ h₁ e₂ h₂ hid hu hlt
    · exact hu (by rw [hg.distinct e₁ h₁ e₂ h₂ heq])
    · exact late e₂ h₂ e₁ h₁ hid.symm (Ne.symm hu) hlt
  · intro ho accounts hu deliveries hd
    exact converges_of_oneOwner hg ho hu hd

/-- Two accounts that keep to ids of their own. -/
def ownIds : List IdChanged :=
  [⟨"ada", none, "c:x", 1⟩, ⟨"bob", none, "c:y", 2⟩, ⟨"ada", none, "c:z", 3⟩]

/-- Their events converge in every order. -/
theorem ids_converge_own_ids : OneOwner ownIds ∧
    ∀ accounts, Unchanged accounts ownIds → ∀ deliveries,
      (∀ e, e ∈ deliveries ↔ e ∈ ownIds) → Converges ownIds accounts deliveries := by
  have hg : Genuine ownIds := ⟨by decide, by decide, by decide, by decide⟩
  have ho : OneOwner ownIds := by
    unfold OneOwner
    decide
  exact ⟨ho, (ids_converge_iff hg).mpr ho⟩

/-- Ada moves from `c:x` to `c:y`, then Bob takes `c:x`. -/
def handover : List IdChanged :=
  [⟨"ada", none, "c:x", 1⟩, ⟨"ada", none, "c:y", 2⟩, ⟨"bob", none, "c:x", 3⟩]

private theorem genuine_handover : Genuine handover :=
  ⟨by decide, by decide, by decide, by decide⟩

private theorem neverShared_handover : NeverShared handover := by
  have hy : (⟨"ada", none, "c:y", 2⟩ : IdChanged) ∈ handover := by decide
  rintro id time u v ⟨e, he, rfl, rfl, hle, hlast⟩ ⟨e', he', rfl, hid, hle', hlast'⟩
  simp only [handover, mem_cons, not_mem_nil, or_false] at he he'
  rcases he with rfl | rfl | rfl <;> rcases he' with rfl | rfl | rfl <;>
    simp only [String.reduceEq] at hid ⊢
  -- what is left: one holds `c:x` by the first event, the other by the third
  · have := hlast _ hy rfl (Nat.le_trans (by decide) hle')
    simp at this
  · have := hlast' _ hy rfl (Nat.le_trans (by decide) hle)
    simp at this

/-- Delivered late, Ada's first event takes `c:x` from Bob, who got it after her: Bob ends
without the id of his latest event. -/
theorem late_event_takes_id : Genuine handover ∧ NeverShared handover ∧
    Unchanged [] handover ∧
    (account (deliverAll [] [⟨"bob", none, "c:x", 3⟩, ⟨"ada", none, "c:x", 1⟩,
      ⟨"ada", none, "c:y", 2⟩]) "bob").map Account.currentId = some none :=
  ⟨genuine_handover, neverShared_handover,
    ⟨nodup_nil, by simp, by simp, by simp, by simp, by simp⟩, by decide⟩

end SiliconDm.Server
