import SiliconDm.Link.Run

/-!
# What a successful run did

One lemma for each step of `linkIdentities` that says everything a success tells: how a row
was resolved, which entries the link map has, what the rewrite made of the tables, and what
recording the pairs made of the links. Later results use these and never unfold the steps.
-/

namespace SiliconDm.Link

open Base List
open Server (ActorType Account account validPublicId publicIdParts kindMatchesId)

variable {H : Type} {uuids : UuidText} {digest : Multiset (ActorType × String) → H}
  {fuel : Nat} {s s' : Tables H} {rows : List MappingRow}
  {verified : List (String × VerifiedAccount)} {options : LinkOptions} {report : LinkReport}
  {map : List Entry} {pair : Pair} {pairs : List Pair}

/-- A resolved row keeps its uuid, and its public id is the one the row resolves to. -/
theorem toPair_eq_ok {row : MappingRow} (h : toPair uuids verified s row = .ok pair) :
    resolve uuids s row = .ok (pair.publicId, pair.principal) ∧ pair.uuid = row.accountsUuid := by
  unfold toPair at h
  obtain ⟨⟨publicId, principal⟩, hr, h⟩ := bind_eq_ok.mp h
  simp only [] at h
  split at h
  case h_1 => cases h
  case h_2 =>
  split at h
  case h_1 => cases h
  case h_2 =>
    cases h
    exact ⟨hr, rfl⟩

/-- The entry of a pair that is not linked as it says. -/
def Tables.entry (s : Tables H) (pair : Pair) : Entry where
  oldKey := s.storageKey pair.publicId
  newKey := pair.uuid
  publicId := pair.publicId

def Tables.changes (s : Tables H) (pair : Pair) : Bool :=
  s.link pair.publicId ≠ some pair.uuid

variable {e : Entry} {map' : List Entry} {report' : LinkReport}

theorem insertEntry_eq_ok (h : insertEntry e map = .ok map') :
    map' = map ++ [e] ∧ ∀ e' ∈ map, e'.oldKey ≠ e.oldKey ∧ e'.newKey ≠ e.newKey := by
  unfold insertEntry at h
  simp only [] at h
  split at h
  case isTrue => cases h
  case isFalse hany =>
    cases h
    refine ⟨rfl, ?_⟩
    intro e' he'
    simp only [List.any_eq_true, not_exists, not_and] at hany
    simpa using hany e' he'

/-- The second step for one pair: the uuid is free or its own, and a pair that changes a key
is entered under keys no earlier entry has. -/
theorem mapPair_eq_ok (h : mapPair s options (map, report) pair = .ok (map', report')) :
    (∀ p ∈ s.holder pair.uuid, p = pair.publicId) ∧
      if s.changes pair then
        map' = map ++ [s.entry pair] ∧
          ∀ e ∈ map, e.oldKey ≠ (s.entry pair).oldKey ∧ e.newKey ≠ pair.uuid
      else map' = map := by
  unfold mapPair at h
  simp only [] at h
  split at h
  case h_1 => cases h
  case h_2 hholder =>
    have hfree : ∀ p ∈ s.holder pair.uuid, p = pair.publicId := by
      intro p hp
      by_contra hne
      rw [Option.mem_def.mp hp] at hholder
      simp [hne] at hholder
    refine ⟨hfree, ?_⟩
    split at h
    case h_1 current hcur =>
      split at h
      case isTrue he =>
        cases h
        simp [Tables.changes, hcur, he]
      case isFalse hne =>
      split at h
      case isTrue => cases h
      case isFalse =>
        obtain ⟨m, hm, h⟩ := bind_eq_ok.mp h
        cases h
        have hk : s.storageKey pair.publicId = current := by simp [Tables.storageKey, hcur]
        rw [if_pos (by simp [Tables.changes, hcur, hne])]
        simpa only [Tables.entry, hk] using insertEntry_eq_ok hm
    case h_2 hn =>
      obtain ⟨m, hm, h⟩ := bind_eq_ok.mp h
      cases h
      have hk : s.storageKey pair.publicId = pair.publicId := by
        simp [Tables.storageKey, hn]
      rw [if_pos (by simp [Tables.changes, hn])]
      simpa only [Tables.entry, hk] using insertEntry_eq_ok hm

/-- The link map of the pairs: an entry for each that changes a key, with no key twice, and
every uuid free or linked to its own identity. -/
structure Mapped (s : Tables H) (pairs : List Pair) (map : List Entry) : Prop where
  entries : map = (pairs.filter s.changes).map s.entry
  oldKeys : Keyed Entry.oldKey map
  newKeys : Keyed Entry.newKey map
  free : ∀ pair ∈ pairs, ∀ p ∈ s.holder pair.uuid, p = pair.publicId

theorem mapped_of_foldlM (h : pairs.foldlM (mapPair s options) ([], report) = .ok (map, report')) :
    Mapped s pairs map := by
  have hinit : Mapped s [] [] := ⟨rfl, nodup_nil, nodup_nil, by simp⟩
  refine foldlM_invariant (I := fun done st => Mapped s done st.1) h hinit ?_
  rintro done pair ⟨map, report⟩ ⟨map', report'⟩ - hm h
  obtain ⟨hfree, hcase⟩ := mapPair_eq_ok h
  have hfree' : ∀ q ∈ done ++ [pair], ∀ p ∈ s.holder q.uuid, p = q.publicId := by
    intro q hq
    cases mem_append.mp hq with
    | inl hq => exact hm.free q hq
    | inr hq => exact mem_singleton.mp hq ▸ hfree
  by_cases hc : s.changes pair = true
  · rw [if_pos hc] at hcase
    obtain ⟨rfl, hnew⟩ := hcase
    refine ⟨?_, ?_, ?_, hfree'⟩
    · simp [filter_append, hc, ← hm.entries]
    · exact hm.oldKeys.append_singleton (getRow_eq_none_iff.mpr fun e he => (hnew e he).1)
    · exact hm.newKeys.append_singleton (getRow_eq_none_iff.mpr fun e he => (hnew e he).2)
  · rw [if_neg hc] at hcase
    obtain rfl := hcase
    refine ⟨?_, hm.oldKeys, hm.newKeys, hfree'⟩
    simp [filter_append, hc, ← hm.entries]

/-- A key is rewritten by its entry, and kept if it has none. -/
theorem rekey_cases (map : List Entry) (k : String) :
    (∃ e ∈ map, e.oldKey = k ∧ rekey map k = e.newKey) ∨
      (∀ e ∈ map, e.oldKey ≠ k) ∧ rekey map k = k := by
  unfold rekey
  cases hg : getRow Entry.oldKey map k with
  | none => exact .inr ⟨getRow_eq_none_iff.mp hg, rfl⟩
  | some e =>
    obtain ⟨he, hk⟩ := mem_of_getRow_eq_some hg
    exact .inl ⟨e, he, hk, rfl⟩

theorem rekey_of_mem (h : Keyed Entry.oldKey map) (he : e ∈ map) :
    rekey map e.oldKey = e.newKey := by
  unfold rekey
  rw [h.getRow_eq_some_iff.mpr ⟨he, rfl⟩]
  rfl

theorem Mapped.mem_iff (h : Mapped s pairs map) :
    e ∈ map ↔ ∃ pair ∈ pairs, s.changes pair = true ∧ s.entry pair = e := by
  simp [h.entries, and_assoc]

/-- A pair that changes a key moves it to its uuid. -/
theorem Mapped.rekey (h : Mapped s pairs map) (hp : pair ∈ pairs) (hc : s.changes pair = true) :
    rekey map (s.storageKey pair.publicId) = pair.uuid :=
  rekey_of_mem h.oldKeys (h.mem_iff.mpr ⟨pair, hp, hc, rfl⟩)

/-- The third step: nothing without an entry; else the rewritten tables violate no unique
constraint, the loop ended, and everything suspended could be restored. -/
theorem rekeyTables_eq_ok [DecidableEq H] {n : Nat}
    (h : rekeyTables digest fuel map s = .ok (s', n)) :
    (map = [] ∧ s' = s) ∨
      (map ≠ [] ∧ (rewrite digest map s).duplicate = none ∧ s'.broken = none ∧
        ∃ conversations, flatten fuel (supersede (rewrite digest map s).conversations) =
            some conversations ∧
          s' = { rewrite digest map s with
            conversations := conversations
            streams := (rewrite digest map s).streams.map
              (raiseStream map (rewrite digest map s).deliveries) }) := by
  unfold rekeyTables at h
  split at h
  case isTrue hmap =>
    cases h
    exact .inl ⟨hmap, rfl⟩
  case isFalse hmap =>
  simp only [] at h
  split at h
  case h_1 => cases h
  case h_2 hdup =>
  split at h
  case h_1 => cases h
  case h_2 cs hflat =>
  split at h
  case h_1 => cases h
  case h_2 hbroken =>
    cases h
    exact .inr ⟨hmap, hdup, hbroken, cs, hflat, rfl⟩

/-- The links after one pair. -/
theorem link_upsertLink (source : String) (p : String) :
    (getRow IdentityLink.publicId (upsertLink source pair s.links) p).map (·.uuid) =
      if p = pair.publicId then some pair.uuid else s.link p := by
  unfold upsertLink
  rw [getRow_upsert (by rfl) (by intros; rfl)]
  split
  case isTrue =>
    cases getRow IdentityLink.publicId s.links pair.publicId with
    | none | some l => rfl
  case isFalse => rfl

/-- The fourth step for one pair: its identity is linked as it says, no other identity to its
uuid, and no table but the links and the account cache changes. A link is written only for a
well-formed public id. -/
theorem recordPair_eq_ok {n n' : Nat} {source : String}
    (h : recordPair verified source (s, n) pair = .ok (s', n')) :
    (∀ p, s'.link p = if p = pair.publicId then some pair.uuid else s.link p) ∧
      s' = { s with links := s'.links, accounts := s'.accounts } ∧
      (s.link pair.publicId = some pair.uuid ∨
        (publicIdParts pair.publicId).isSome ∧
          ∀ l ∈ s.links, l.uuid = pair.uuid → l.publicId = pair.publicId) := by
  unfold recordPair at h
  simp only [] at h
  split at h
  case isTrue hsame =>
    cases h
    refine ⟨?_, rfl, .inl hsame⟩
    intro p
    split
    case isTrue he => rw [he, hsame]
    case isFalse => rfl
  case isFalse =>
  split at h
  case h_1 => cases h
  case h_2 hval =>
  split at h
  case isTrue => cases h
  case isFalse hoth =>
  split at h
  case h_1 => cases h
  case h_2 =>
    have hpub : (publicIdParts pair.publicId).isSome := by
      unfold IdentityLink.violated at hval
      split at hval
      case isTrue => cases hval
      case isFalse hformat =>
        cases hp : publicIdParts pair.publicId with
        | none => simp [hp] at hformat
        | some parts => rfl
    have huniq : ∀ l ∈ s.links, l.uuid = pair.uuid → l.publicId = pair.publicId := by
      intro l hl hu
      by_contra hne
      exact hoth (List.any_eq_true.mpr ⟨l, hl, by simp [hu, hne]⟩)
    split at h
    case isTrue =>
      cases h
      exact ⟨link_upsertLink source, rfl, .inr ⟨hpub, huniq⟩⟩
    case isFalse =>
      cases h
      exact ⟨link_upsertLink source, rfl, .inr ⟨hpub, huniq⟩⟩

/-- Recording all pairs changes no table but the links and the account cache. -/
theorem frame_of_foldlM {n : Nat} {source : String}
    (h : pairs.foldlM (recordPair verified source) (s, 0) = .ok (s', n)) :
    s' = { s with links := s'.links, accounts := s'.accounts } := by
  refine foldlM_invariant
    (I := fun _ st => st.1 = { s with links := st.1.links, accounts := st.1.accounts }) h rfl ?_
  rintro done pair ⟨s₁, n₁⟩ ⟨s₂, n₂⟩ - hd hr
  have hframe := (recordPair_eq_ok hr).2.1
  simp only [] at hd ⊢
  rw [hframe, hd]

structure Ran [DecidableEq H] (uuids : UuidText) (digest : Multiset (ActorType × String) → H)
    (fuel : Nat) (s : Tables H) (rows : List MappingRow)
    (verified : List (String × VerifiedAccount)) (options : LinkOptions) (pairs : List Pair)
    (map : List Entry) (s₁ s₂ : Tables H) : Prop where
  resolved : List.Forall₂ (fun row pair => toPair uuids verified s row = .ok pair) rows pairs
  mapped : Mapped s pairs map
  rekeyed : ∃ n, rekeyTables digest fuel map s = .ok (s₁, n)
  recorded : ∃ n, pairs.foldlM (recordPair verified options.source) (s₁, 0) = .ok (s₂, n)

/-- A run that succeeds did its four steps; a dry run leaves the tables as they were. -/
theorem ran_of_linkIdentities [DecidableEq H]
    (h : linkIdentities uuids digest fuel s rows verified options = .ok (s', report)) :
    ∃ pairs map s₁ s₂, Ran uuids digest fuel s rows verified options pairs map s₁ s₂ ∧
      s' = if options.dryRun then s else s₂ := by
  unfold linkIdentities at h
  obtain ⟨pairs, hp, h⟩ := bind_eq_ok.mp h
  obtain ⟨⟨map, r⟩, hm, h⟩ := bind_eq_ok.mp h
  obtain ⟨⟨s₁, n⟩, hk, h⟩ := bind_eq_ok.mp h
  obtain ⟨⟨s₂, m⟩, hr, h⟩ := bind_eq_ok.mp h
  cases h
  exact ⟨pairs, map, s₁, s₂,
    ⟨forall₂_of_mapM hp, mapped_of_foldlM hm, ⟨n, hk⟩, ⟨m, hr⟩⟩, rfl⟩

end SiliconDm.Link
