import SiliconDm.Link.Steps

/-!
# Links and data

Whether the links agree with the data after a run: every row that was stored under an
identity's key is stored under the key the links now give it. The link map is made from the
links as they were before the run, the recording goes through the pairs in order and reads
the links it writes, so the two disagree about an identity that is named twice, first with a
new uuid and then with the one it has. Source:
`src/infrastructure/postgres/link_identities.rs:402–468,543–594`.
-/

namespace SiliconDm.Link

open Base List Option
open Server (ActorType validPublicId publicIdParts)

variable {H : Type} {uuids : UuidText} {digest : Multiset (ActorType × String) → H}
  {fuel : Nat} {s s' s₁ s₂ : Tables H} {rows : List MappingRow}
  {verified : List (String × VerifiedAccount)} {options : LinkOptions} {map : List Entry}
  {pairs : List Pair} {p q u : String}

/-! ## The property -/

def Tables.keys (s : Tables H) : List String :=
  s.participants.map (·.id) ++ s.deliveries.map (·.id) ++ s.streams.map (·.id) ++
    s.cells.map (·.value)

/-- The constraints of `identity_links`. -/
structure Tables.WellLinked (s : Tables H) : Prop where
  keyed : Keyed IdentityLink.publicId s.links
  unique : Keyed IdentityLink.uuid s.links
  checked : ∀ l ∈ s.links, l.violated = none

/-- The links agree with the data: the rows of a linked identity are stored under its uuid,
none of them under its public id. -/
def Tables.Agrees (s : Tables H) : Prop :=
  ∀ p u, s.link p = some u → p ∉ s.keys

/-- No two public ids are linked to one uuid. -/
def Tables.OneIdentityPerAccount (s : Tables H) : Prop :=
  ∀ p q u, s.link p = some u → s.link q = some u → p = q

/-- Each row that was stored under the key of a public id is stored under the key the links
give it afterwards. -/
def Follows (s s' : Tables H) : Prop :=
  List.Forall₂ (fun k k' => ∀ p, (publicIdParts p).isSome → k = s.storageKey p →
    k' = s'.storageKey p) s.keys s'.keys

/-- The uuids the rows of the mapping name for a public id, in order. -/
def targets (uuids : UuidText) (s : Tables H) (rows : List MappingRow) (p : String) :
    List String :=
  (rows.filter fun row => (resolve uuids s row).toOption.any (·.1 = p)).map (·.accountsUuid)

/-- The mapping names an identity with a new uuid, and last with the one it is linked to. -/
def reverted (uuids : UuidText) (s : Tables H) (rows : List MappingRow) (p : String) : Bool :=
  (targets uuids s rows p).getLast? = s.link p &&
    (targets uuids s rows p).any (some · ≠ s.link p)

/-! ## The links before -/

theorem exists_of_link (h : s.link p = some u) : ∃ l ∈ s.links, l.publicId = p ∧ l.uuid = u := by
  obtain ⟨l, hl, rfl⟩ := map_eq_some_iff.mp h
  obtain ⟨hm, hp⟩ := mem_of_getRow_eq_some hl
  exact ⟨l, hm, hp, rfl⟩

theorem Tables.WellLinked.oneIdentity (h : s.WellLinked) : s.OneIdentityPerAccount := by
  intro p q u hp hq
  obtain ⟨l, hl, rfl, hu⟩ := exists_of_link hp
  obtain ⟨l', hl', rfl, hu'⟩ := exists_of_link hq
  rw [h.unique.unique hl hl' (hu.trans hu'.symm)]

/-- A stored link is between a public id and an account's uuid. -/
theorem Tables.WellLinked.format (h : s.WellLinked) (hl : s.link p = some u) :
    (publicIdParts p).isSome ∧ isAccountUuid u = true := by
  obtain ⟨l, hm, rfl, rfl⟩ := exists_of_link hl
  have hv := h.checked l hm
  unfold IdentityLink.violated at hv
  split at hv
  case isTrue => cases hv
  case isFalse hformat =>
  split at hv
  case isTrue => cases hv
  case isFalse =>
  split at hv
  case isTrue => cases hv
  case isFalse huuid =>
    refine ⟨?_, by simpa using huuid⟩
    cases hp : publicIdParts l.publicId with
    | none => simp [hp] at hformat
    | some parts => rfl

/-- A uuid is not a public id. -/
theorem ne_of_isAccountUuid (hp : (publicIdParts p).isSome) (hu : isAccountUuid u = true) :
    u ≠ p := by
  intro he
  exact colon_notMem_of_isAccountUuid hu (he ▸ colon_mem_of_publicIdParts hp)

/-- Different public ids have different storage keys. -/
theorem Tables.WellLinked.storageKey_inj (h : s.WellLinked) (hp : (publicIdParts p).isSome)
    (hq : (publicIdParts q).isSome) (he : s.storageKey p = s.storageKey q) : p = q := by
  unfold Tables.storageKey at he
  cases hlp : s.link p with
  | none =>
    cases hlq : s.link q with
    | none => simpa [hlp, hlq] using he
    | some v =>
      simp only [hlp, hlq, getD_none, getD_some] at he
      exact absurd he.symm (ne_of_isAccountUuid hp (h.format hlq).2)
  | some u =>
    cases hlq : s.link q with
    | none =>
      simp only [hlp, hlq, getD_none, getD_some] at he
      exact absurd he (ne_of_isAccountUuid hq (h.format hlp).2)
    | some v =>
      simp only [hlp, hlq, getD_some] at he
      exact h.oneIdentity p q v (he ▸ hlp) hlq

/-! ## The links after -/

def pairTargets (pairs : List Pair) (p : String) : List String :=
  (pairs.filter (·.publicId = p)).map (·.uuid)

theorem mem_pairTargets :
    u ∈ pairTargets pairs p ↔ ∃ pair ∈ pairs, pair.publicId = p ∧ pair.uuid = u := by
  simp [pairTargets, and_assoc]

theorem targets_eq_pairTargets
    (h : List.Forall₂ (fun row pair => toPair uuids verified s row = .ok pair) rows pairs) :
    targets uuids s rows p = pairTargets pairs p := by
  unfold targets pairTargets
  induction h with
  | nil => rfl
  | cons hpair _ ih =>
    obtain ⟨hr, hu⟩ := toPair_eq_ok hpair
    have ho : (resolve uuids s _).toOption = some _ := congrArg Except.toOption hr
    rw [filter_cons, filter_cons]
    simp only [ho, any_some, decide_eq_true_eq]
    split
    · rw [map_cons, map_cons, ih, hu]
    · exact ih

structure Recorded (s s' : Tables H) (pairs : List Pair) : Prop where
  link : ∀ p, s'.link p = (pairTargets pairs p).getLast?.or (s.link p)
  one : s'.OneIdentityPerAccount
  formed : ∀ p u, s'.link p = some u → s.link p = some u ∨ (publicIdParts p).isSome

theorem Recorded.recordPair {n n' : Nat} {source : String} {pair : Pair} {done : List Pair}
    (h : Recorded s s₁ done) (hr : recordPair verified source (s₁, n) pair = .ok (s₂, n')) :
    Recorded s s₂ (done ++ [pair]) := by
  obtain ⟨hlink, -, hcase⟩ := recordPair_eq_ok hr
  -- whoever holds the uuid of the pair is its identity
  have hown : ∀ q, s₁.link q = some pair.uuid → q = pair.publicId := by
    intro q hq
    cases hcase with
    | inl hsame => exact h.one q pair.publicId pair.uuid hq hsame
    | inr hnew =>
      obtain ⟨l, hl, rfl, hu⟩ := exists_of_link hq
      exact hnew.2 l hl hu
  constructor
  · intro p
    have happ : pairTargets (done ++ [pair]) p =
        pairTargets done p ++ if pair.publicId = p then [pair.uuid] else [] := by
      unfold pairTargets
      rw [filter_append, map_append]
      by_cases hp : pair.publicId = p <;> simp [hp]
    rw [hlink p, happ, h.link p]
    by_cases hp : p = pair.publicId
    · simp [hp]
    · rw [if_neg hp, if_neg (Ne.symm hp), append_nil]
  · intro p q u hp hq
    rw [hlink] at hp hq
    split at hp
    case isTrue hep =>
      cases hp
      split at hq
      case isTrue heq => rw [hep, heq]
      case isFalse => rw [hep, hown q hq]
    case isFalse =>
      split at hq
      case isTrue heq =>
        cases hq
        rw [heq, hown p hp]
      case isFalse => exact h.one p q u hp hq
  · intro p u hp
    rw [hlink] at hp
    split at hp
    case isTrue he =>
      cases hcase with
      | inl hsame =>
        cases hp
        exact he ▸ h.formed _ _ hsame
      | inr hnew => exact .inr (he ▸ hnew.1)
    case isFalse => exact h.formed p u hp

/-- The recording of all pairs. -/
theorem recorded_of_foldlM {n : Nat} {source : String} (hs : s.OneIdentityPerAccount)
    (h : pairs.foldlM (recordPair verified source) (s, 0) = .ok (s', n)) :
    Recorded s s' pairs := by
  have hinit : Recorded s s [] := ⟨fun _ => rfl, hs, fun _ _ => .inl⟩
  refine foldlM_invariant (I := fun done st => Recorded s st.1 done) h hinit ?_
  rintro done pair ⟨s₁, n₁⟩ ⟨s₂, n₂⟩ - hd hr
  exact hd.recordPair hr

/-! ## A run -/

/-- The rewrite takes every key through the link map and leaves the links. -/
theorem keys_of_rekeyTables [DecidableEq H] {n : Nat}
    (h : rekeyTables digest fuel map s = .ok (s₁, n)) :
    s₁.keys = s.keys.map (rekey map) ∧ s₁.links = s.links := by
  cases rekeyTables_eq_ok h with
  | inl hn =>
    obtain ⟨rfl, rfl⟩ := hn
    have hid : rekey [] = id := rfl
    exact ⟨by rw [hid, List.map_id], rfl⟩
  | inr hsome =>
    obtain ⟨-, -, -, conversations, -, rfl⟩ := hsome
    have hid : ∀ deliveries (st : Stream), (raiseStream map deliveries st).id = st.id := by
      intro deliveries st
      unfold raiseStream
      split
      · split
        · split <;> rfl
        · rfl
      · rfl
    refine ⟨?_, rfl⟩
    simp [Tables.keys, rewrite, Function.comp_def, hid]

/-- What a run on an accepted mapping did to links and keys. -/
structure Linked (s s' : Tables H) (pairs : List Pair) (map : List Entry) : Prop where
  mapped : Mapped s pairs map
  link : ∀ p, s'.link p = (pairTargets pairs p).getLast?.or (s.link p)
  keys : s'.keys = s.keys.map (rekey map)
  one : s'.OneIdentityPerAccount
  formed : ∀ p u, s'.link p = some u → (publicIdParts p).isSome
  uuids : ∀ pair ∈ pairs, isAccountUuid pair.uuid = true

theorem Ran.linked [DecidableEq H]
    (h : Ran uuids digest fuel s rows verified options pairs map s₁ s₂)
    (ha : Accepted uuids rows) (hs : s.WellLinked) : Linked s s₂ pairs map := by
  obtain ⟨n, hrek⟩ := h.rekeyed
  obtain ⟨m, hrcd⟩ := h.recorded
  obtain ⟨hkeys, hlinks⟩ := keys_of_rekeyTables hrek
  have hlink : ∀ p, s₁.link p = s.link p := fun p => by rw [Tables.link, hlinks, Tables.link]
  have hone : s₁.OneIdentityPerAccount := by
    intro p q u hp hq
    rw [hlink] at hp hq
    exact hs.oneIdentity p q u hp hq
  have hr := recorded_of_foldlM hone hrcd
  refine ⟨h.mapped, ?_, ?_, hr.one, ?_, ?_⟩
  · intro p
    rw [hr.link, hlink]
  · rw [frame_of_foldlM hrcd, ← hkeys]
    rfl
  · intro p u hp
    cases hr.formed p u hp with
    | inl hold => exact (hs.format (hlink p ▸ hold)).1
    | inr hnew => exact hnew
  · intro pair hpair
    obtain ⟨row, hrow, hp⟩ := forall₂_mem_right h.resolved hpair
    rw [(toPair_eq_ok hp).2]
    exact (ha.valid row hrow).2

namespace Linked

section

variable (h : Linked s s' pairs map)
include h

/-- A public id some pair names is linked afterwards. -/
theorem named {pair : Pair} (hp : pair ∈ pairs) :
    ∃ u ∈ pairTargets pairs pair.publicId, s'.link pair.publicId = some u ∧
      (pairTargets pairs pair.publicId).getLast? = some u := by
  have hm : pair.uuid ∈ pairTargets pairs pair.publicId := mem_pairTargets.mpr ⟨pair, hp, rfl, rfl⟩
  cases hu : (pairTargets pairs pair.publicId).getLast? with
  | none => exact absurd (getLast?_eq_none_iff.mp hu) (ne_nil_of_mem hm)
  | some u => exact ⟨u, mem_of_getLast? hu, by rw [h.link, hu]; rfl, rfl⟩

/-- No row is stored under a linked public id. -/
theorem agrees (hs : s.Agrees) : s'.Agrees := by
  intro p u hp hm
  rw [h.keys] at hm
  obtain ⟨k, hk, hkp⟩ := List.mem_map.mp hm
  cases rekey_cases map k with
  | inl hent =>
    -- a written key is a uuid
    obtain ⟨e, he, -, hnew⟩ := hent
    obtain ⟨pair, hpair, -, rfl⟩ := h.mapped.mem_iff.mp he
    exact ne_of_isAccountUuid (h.formed p u hp) (h.uuids pair hpair) (hnew.symm.trans hkp)
  | inr hkept =>
    obtain ⟨hno, hsame⟩ := hkept
    obtain rfl : k = p := hsame.symm.trans hkp
    cases hold : s.link k with
    | some v => exact hs k v hold hk
    | none =>
      -- newly linked, so its own key was rewritten
      rw [h.link, hold, or_none] at hp
      obtain ⟨pair, hpair, hid, -⟩ := mem_pairTargets.mp (mem_of_getLast? hp)
      have hchg : s.changes pair = true := by simp [Tables.changes, hid, hold]
      have hkey : (s.entry pair).oldKey = k := by
        simp [Tables.entry, Tables.storageKey, hid, hold]
      exact hno (s.entry pair) (h.mapped.mem_iff.mpr ⟨pair, hpair, hchg, rfl⟩) hkey

/-- The key of an identity that no pair changes is kept. -/
theorem rekey_unchanged (hs : s.WellLinked) (hp : (publicIdParts p).isSome)
    (hno : ∀ pair ∈ pairs, pair.publicId = p → s.changes pair = false) :
    rekey map (s.storageKey p) = s.storageKey p ∧ s'.storageKey p = s.storageKey p := by
  constructor
  · cases rekey_cases map (s.storageKey p) with
    | inr hkept => exact hkept.2
    | inl hent =>
      obtain ⟨e, he, hold, -⟩ := hent
      obtain ⟨pair, hpair, hchg, rfl⟩ := h.mapped.mem_iff.mp he
      obtain ⟨u, -, hu, -⟩ := h.named hpair
      have hid : pair.publicId = p := hs.storageKey_inj (h.formed _ u hu) hp hold
      simp [hno pair hpair hid] at hchg
  · unfold Tables.storageKey
    rw [h.link]
    cases hlast : (pairTargets pairs p).getLast? with
    | none => rfl
    | some u =>
      obtain ⟨pair, hpair, hid, rfl⟩ := mem_pairTargets.mp (mem_of_getLast? hlast)
      have hsame := hno pair hpair hid
      simp only [Tables.changes, hid, ne_eq, decide_not, Bool.not_eq_false',
        decide_eq_true_eq] at hsame
      rw [hsame]
      rfl

/-- Two pairs that change one identity's key are to one uuid. -/
theorem changes_unique {a b : Pair} (ha : a ∈ pairs) (hb : b ∈ pairs) (hca : s.changes a = true)
    (hcb : s.changes b = true) (hid : a.publicId = b.publicId) :
    a.uuid = b.uuid := by
  rw [← h.mapped.rekey ha hca, ← h.mapped.rekey hb hcb, hid]

/-- The rows follow the links exactly if no identity that was reverted has rows. -/
theorem follows_iff (hs : s.WellLinked) :
    Follows s s' ↔ ∀ p, ((pairTargets pairs p).getLast? = s.link p ∧
      ∃ u ∈ pairTargets pairs p, some u ≠ s.link p) → s.storageKey p ∉ s.keys := by
  unfold Follows
  rw [h.keys, forall₂_map_right_iff, forall₂_same]
  constructor
  · rintro hfollow p ⟨hlast, v, hv, hne⟩ hm
    obtain ⟨pair, hpair, rfl, rfl⟩ := mem_pairTargets.mp hv
    have hchg : s.changes pair = true := by simpa [Tables.changes] using hne.symm
    obtain ⟨u, -, hu, hlast'⟩ := h.named hpair
    have hold : s.link pair.publicId = some u := hlast.symm.trans hlast'
    have := hfollow _ hm pair.publicId (h.formed _ u hu) rfl
    rw [h.mapped.rekey hpair hchg, Tables.storageKey, hu] at this
    exact hne (by rw [this, hold]; rfl)
  · rintro hcond k hk p hp rfl
    by_cases hno : ∀ pair ∈ pairs, pair.publicId = p → s.changes pair = false
    · obtain ⟨hkey, hsame⟩ := h.rekey_unchanged hs hp hno
      rw [hkey, hsame]
    · push Not at hno
      obtain ⟨pair, hpair, rfl, hchg⟩ := hno
      replace hchg : s.changes pair = true := by simpa using hchg
      obtain ⟨u, hm, hu, hlast⟩ := h.named hpair
      rw [h.mapped.rekey hpair hchg, Tables.storageKey, hu, getD_some]
      obtain ⟨last, hl, hid, rfl⟩ := mem_pairTargets.mp hm
      by_cases hcl : s.changes last = true
      · exact h.changes_unique hpair hl hchg hcl hid.symm
      · -- the last pair is the link as it was: the identity was reverted
        have hold : s.link pair.publicId = some last.uuid := by
          simpa [Tables.changes, hid] using hcl
        refine absurd hk (hcond pair.publicId ⟨hlast.trans hold.symm, pair.uuid, ?_, ?_⟩)
        · exact mem_pairTargets.mpr ⟨pair, hpair, rfl, rfl⟩
        · have hne : s.link pair.publicId ≠ some pair.uuid := by
            simpa [Tables.changes] using hchg
          exact hne.symm

end

end Linked

theorem reverted_iff
    (h : List.Forall₂ (fun row pair => toPair uuids verified s row = .ok pair) rows pairs) :
    reverted uuids s rows p = true ↔ (pairTargets pairs p).getLast? = s.link p ∧
      ∃ u ∈ pairTargets pairs p, some u ≠ s.link p := by
  simp [reverted, targets_eq_pairTargets h]

theorem Follows.refl (s : Tables H) : Follows s s :=
  forall₂_same.mpr fun _ _ _ _ he => he

/-! ## A link file with one identity -/

/-- A principal whose public id is `c:ada`. -/
def adaUuids : UuidText where
  parseStr text := if text = "00000000-0000-0000-0000-000000000001" then some 1 else none
  display _ := "00000000-0000-0000-0000-000000000001"

def adaTables (key : String) (links : List IdentityLink) : Tables Unit where
  links := links
  projections := [(1, some "c:ada")]
  accounts := []
  authenticated := []
  anchors := [⟨"tos", .carbon, key⟩]
  participants := []
  conversations := []
  deliveries := []
  streams := []
  cells := [⟨"dm.messages", "sender_id", 1, key⟩]

/-- The link of `c:ada` to `a8K`. -/
def adaLink : IdentityLink :=
  ⟨"c:ada", none, .carbon, "a8K", none, "mapping.csv"⟩

def adaOptions : LinkOptions := ⟨false, "mapping.csv", false⟩

theorem adaTables_wellLinked (key : String) : (adaTables key [adaLink]).WellLinked where
  keyed := nodup_singleton _
  unique := nodup_singleton _
  checked l hl := by
    obtain rfl := mem_singleton.mp hl
    decide

/-! ## The result -/

/-- After a successful run on an accepted mapping, every row is stored under the key the links
give its identity, no linked public id keys a row, and no two are linked to one uuid, exactly
if the run was dry or no identity that has rows is named with a new uuid and last with the one
it is linked to. -/
theorem links_follow_data [DecidableEq H] (uuids : UuidText)
    (digest : Multiset (ActorType × String) → H) (fuel : Nat) (text : String)
    (rows : List MappingRow) (verified : List (String × VerifiedAccount))
    (options : LinkOptions) (s s' : Tables H) (report : LinkReport)
    (hparse : parseMapping uuids text = .ok rows) (hs : s.WellLinked) (hagree : s.Agrees)
    (hrun : linkIdentities uuids digest fuel s rows verified options = .ok (s', report)) :
    (Follows s s' ∧ s'.Agrees ∧ s'.OneIdentityPerAccount) ↔
      options.dryRun = true ∨
        ∀ p, reverted uuids s rows p = true → s.storageKey p ∉ s.keys := by
  obtain ⟨pairs, map, s₁, s₂, hran, rfl⟩ := ran_of_linkIdentities hrun
  cases hdry : options.dryRun with
  | true => simp [Follows.refl, hagree, hs.oneIdentity]
  | false =>
    have hl := hran.linked (accepted_of_parseMapping hparse) hs
    simp only [Bool.false_eq_true, if_false, false_or, hl.agrees hagree, hl.one, and_true]
    rw [hl.follows_iff hs]
    apply forall_congr'
    intro p
    rw [reverted_iff hran.resolved]


/-- `c:ada` is linked for the first time. -/
theorem links_follow_data_first_link :
    ∃ rows s' report,
      parseMapping adaUuids "00000000-0000-0000-0000-000000000001,a8K" = .ok rows ∧
        linkIdentities adaUuids (fun _ => ()) 1 (adaTables "c:ada" []) rows [] adaOptions =
          .ok (s', report) ∧
        s'.keys = ["a8K"] ∧ Follows (adaTables "c:ada" []) s' := by
  have hparse : parseMapping adaUuids "00000000-0000-0000-0000-000000000001,a8K" =
      .ok [⟨1, "00000000-0000-0000-0000-000000000001", "a8K"⟩] := by decide +kernel
  refine ⟨_, _, _, hparse, eq_ok_of_toOption (some_get (by decide +kernel)).symm, by decide +kernel,
    ?_⟩
  have hs : (adaTables "c:ada" []).WellLinked :=
    ⟨nodup_nil, nodup_nil, by decide⟩
  refine ((links_follow_data adaUuids (fun _ => ()) 1 _ _ [] adaOptions _ _ _ hparse hs
    (fun _ _ h => absurd h (by simp [adaTables, Tables.link, getRow]))
    (eq_ok_of_toOption (some_get (by decide +kernel)).symm)).mpr (.inr ?_)).1
  -- nobody is linked, so nobody is named with the uuid it has
  intro p hp
  have hnone : (adaTables "c:ada" []).link p = none := rfl
  simp only [reverted, hnone, Bool.and_eq_true, decide_eq_true_eq,
    getLast?_eq_none_iff] at hp
  simp [hp.1] at hp

/-- `c:ada`, linked to `a8K`, is named by its principal with `b9Z` and then by its public id
with `a8K`: its message moves to `b9Z` and its link stays `a8K`. -/
theorem links_lose_data :
    ∃ rows s' report,
      parseMapping adaUuids "00000000-0000-0000-0000-000000000001,b9Z\nc:ada,a8K" = .ok rows ∧
        (adaTables "a8K" [adaLink]).WellLinked ∧ (adaTables "a8K" [adaLink]).Agrees ∧
        linkIdentities adaUuids (fun _ => ()) 1 (adaTables "a8K" [adaLink]) rows [] adaOptions =
          .ok (s', report) ∧
        s'.keys = ["b9Z"] ∧ s'.link "c:ada" = some "a8K" ∧
        ¬ Follows (adaTables "a8K" [adaLink]) s' := by
  have hparse : parseMapping adaUuids "00000000-0000-0000-0000-000000000001,b9Z\nc:ada,a8K" =
      .ok [⟨1, "00000000-0000-0000-0000-000000000001", "b9Z"⟩, ⟨2, "c:ada", "a8K"⟩] := by
    decide +kernel
  refine ⟨_, _, _, hparse, adaTables_wellLinked _, ?_,
    eq_ok_of_toOption (some_get (by decide +kernel)).symm, by decide +kernel, by decide +kernel, ?_⟩
  · intro p u hp hmem
    have hp : p = "c:ada" := by
      obtain ⟨l, hl, rfl, -⟩ := exists_of_link hp
      rw [mem_singleton.mp hl]
      rfl
    subst hp
    exact absurd hmem (by decide)
  · intro hfollow
    cases hfollow with
    | cons h _ => exact absurd (h "c:ada" (by decide) (by decide)) (by decide +kernel)

end SiliconDm.Link
