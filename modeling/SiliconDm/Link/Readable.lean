import Mathlib.Data.List.Perm.Basic
import SiliconDm.Link.Links

/-!
# Delivery streams of re-keyed accounts

A client reads the deliveries of an account above the floor of its `@accounts` stream in the
order of their sequences and is reset where one is missing or comes twice. A re-key joins the
rows of two keys, and `STREAMS` lifts floor and next sequence only where the highest joined
sequence has reached the next one. Source:
`src/infrastructure/postgres/link_identities.rs:258–270`,
`migrations/0040_accounts_partition_behaviour.sql:133–232`.
-/

namespace SiliconDm.Link

open Base List
open Server (ActorType)

variable {H : Type} {uuids : UuidText} {s s' s₁ s₂ : Tables H} {rows : List MappingRow}
  {map : List Entry} {pairs : List Pair} {st : Stream} {kind : ActorType}

/-! ## One stream -/

/-- The rows above the floor have distinct sequences that fill the range up to the next one.
The first part is the check `actor_delivery_streams_sync_floor`. -/
structure Readable (st : Stream) (sequences : List Nat) : Prop where
  bounds : st.syncFloor < st.nextSequence
  distinct : (sequences.filter (st.syncFloor < ·)).Nodup
  filled : ∀ n, st.syncFloor < n → (n ∈ sequences ↔ n < st.nextSequence)

variable {l : List Nat} {verified : List (String × VerifiedAccount)} {e : Entry}

theorem Readable.perm {l' : List Nat} (h : Readable st l) (hp : l.Perm l') : Readable st l' where
  bounds := h.bounds
  distinct := (hp.filter _).nodup_iff.mp h.distinct
  filled n hn := by rw [← hp.mem_iff, h.filled n hn]

/-- `STREAMS` on a stream and the sequences of its rows. -/
def lift (st : Stream) (sequences : List Nat) : Stream :=
  match sequences.max? with
  | some high =>
    if st.nextSequence ≤ high then
      { st with
        nextSequence := max st.nextSequence (high + 1)
        syncFloor := max st.syncFloor high }
    else st
  | none => st

theorem lift_of_forall_lt (h : ∀ n ∈ l, n < st.nextSequence) : lift st l = st := by
  unfold lift
  split
  case h_1 high hmax =>
    have hlt := h high (max?_mem hmax)
    rw [if_neg (by omega)]
  case h_2 => rfl

/-- Once a row has reached the next sequence, every row is below the floor. -/
theorem readable_lift_of_le {n : Nat} (hb : st.syncFloor < st.nextSequence) (hn : n ∈ l)
    (hle : st.nextSequence ≤ n) : Readable (lift st l) l := by
  obtain ⟨high, hmax⟩ := Option.isSome_iff_exists.mp (isSome_max?_of_mem hn)
  have hmem := (max?_eq_some_iff.mp hmax).2
  have hnext : st.nextSequence ≤ high := le_trans hle (hmem n hn)
  have hlift : lift st l = { st with nextSequence := high + 1, syncFloor := high } := by
    unfold lift
    rw [hmax]
    simp only [hnext, if_true]
    congr 1 <;> omega
  rw [hlift]
  refine ⟨Nat.lt_succ_self high, ?_, ?_⟩
  · have hnil : l.filter (fun m => high < m) = [] := by
      rw [filter_eq_nil_iff]
      intro m hm
      have := hmem m hm
      simp only [decide_eq_true_eq]
      omega
    simp [hnil]
  · intro m hm
    simp only [] at hm ⊢
    constructor
    · intro h
      have := hmem m h
      omega
    · omega

/-- The rows of another key joined to a readable stream: it stays readable exactly if they all
are below the floor, or one of them makes it be lifted. -/
theorem readable_lift_iff {own other joined : List Nat} (h : Readable st own)
    (hp : joined.Perm (own ++ other)) :
    Readable (lift st joined) joined ↔
      (∀ n ∈ other, n ≤ st.syncFloor) ∨ ∃ n ∈ other, st.nextSequence ≤ n := by
  by_cases hex : ∃ n ∈ other, st.nextSequence ≤ n
  · obtain ⟨n, hn, hle⟩ := hex
    have hm : n ∈ joined := hp.mem_iff.mpr (mem_append_right own hn)
    exact ⟨fun _ => .inr ⟨n, hn, hle⟩, fun _ => readable_lift_of_le h.bounds hm hle⟩
  · push Not at hex
    have hbelow : ∀ n ∈ joined, n < st.nextSequence := by
      intro n hn
      cases mem_append.mp (hp.mem_iff.mp hn) with
      | inl hown =>
        by_cases hf : st.syncFloor < n
        · exact (h.filled n hf).mp hown
        · have := h.bounds
          omega
      | inr hoth => exact hex n hoth
    rw [lift_of_forall_lt hbelow]
    constructor
    · intro hr
      -- above the floor the stream is full, so another row there is a second one
      refine .inl fun n hn => ?_
      by_contra hf
      have hf : st.syncFloor < n := by omega
      have hown : n ∈ own := (h.filled n hf).mpr (hex n hn)
      have hnd := (hp.filter (st.syncFloor < ·)).nodup_iff.mp hr.distinct
      rw [filter_append, nodup_append] at hnd
      exact hnd.2.2 n (mem_filter.mpr ⟨hown, by simpa using hf⟩) n
        (mem_filter.mpr ⟨hn, by simpa using hf⟩) rfl
    · intro hcase
      cases hcase with
      | inr hreach =>
        obtain ⟨n, hn, hle⟩ := hreach
        have := hex n hn
        omega
      | inl hfloor =>
        refine Readable.perm ⟨h.bounds, ?_, ?_⟩ hp.symm
        · have hnil : other.filter (st.syncFloor < ·) = [] := by
            rw [filter_eq_nil_iff]
            intro n hn
            have := hfloor n hn
            simp only [decide_eq_true_eq]
            omega
          rw [filter_append, hnil, append_nil]
          exact h.distinct
        · intro n hn
          rw [mem_append, ← h.filled n hn]
          constructor
          · rintro (hown | hoth)
            · exact hown
            · have := hfloor n hoth
              omega
          · exact .inl

/-! ## The rows of two keys -/

/-- The keys the mapping changes, old and new. -/
def rekeys (uuids : UuidText) (s : Tables H) (rows : List MappingRow) : List (String × String) :=
  rows.filterMap fun row => (resolve uuids s row).toOption.bind fun r =>
    if s.link r.1 = some row.accountsUuid then none
    else some (s.storageKey r.1, row.accountsUuid)

theorem rekeys_eq_map
    (hr : List.Forall₂ (fun row pair => toPair uuids verified s row = .ok pair) rows pairs)
    (hm : Mapped s pairs map) : rekeys uuids s rows = map.map fun e => (e.oldKey, e.newKey) := by
  rw [hm.entries, List.map_map]
  unfold rekeys
  clear hm
  induction hr with
  | nil => rfl
  | cons hpair _ ih =>
    obtain ⟨hres, hu⟩ := toPair_eq_ok hpair
    have ho : (resolve uuids s _).toOption = some _ := congrArg Except.toOption hres
    rw [filterMap_cons, filter_cons]
    simp only [ho, Option.bind_some, Tables.changes, ← hu]
    split
    case h_1 hn =>
      split at hn
      case isTrue hsame => simpa [hsame] using ih
      case isFalse => cases hn
    case h_2 k hsome =>
      split at hsome
      case isTrue => cases hsome
      case isFalse hne =>
        cases hsome
        simpa [hne, Tables.entry] using ih

/-- No key that is written is one that is rewritten: its identity would be linked to it. -/
theorem Linked.newKey_not_oldKey (h : Linked s s' pairs map) (hs : s.WellLinked) {e' : Entry}
    (he : e ∈ map) (he' : e' ∈ map) : e'.oldKey ≠ e.newKey := by
  obtain ⟨a, ha, hca, rfl⟩ := h.mapped.mem_iff.mp he
  obtain ⟨b, hb, -, rfl⟩ := h.mapped.mem_iff.mp he'
  intro heq
  change s.storageKey b.publicId = a.uuid at heq
  unfold Tables.storageKey at heq
  cases hl : s.link b.publicId with
  | none =>
    obtain ⟨u, -, hu, -⟩ := h.named hb
    rw [hl, Option.getD_none] at heq
    exact ne_of_isAccountUuid (h.formed _ u hu) (h.uuids a ha) heq.symm
  | some u =>
    rw [hl, Option.getD_some] at heq
    subst heq
    -- the holder of the uuid is the pair's own identity, which is then linked as it says
    obtain ⟨l, hm, hid, hlu⟩ := exists_of_link hl
    obtain ⟨l', hfind⟩ : ∃ l', s.links.find? (·.uuid = a.uuid) = some l' := by
      rw [← Option.isSome_iff_exists, find?_isSome]
      exact ⟨l, hm, by simpa using hlu⟩
    have hholder : s.holder a.uuid = some l'.publicId := by rw [Tables.holder, hfind]; rfl
    have hown : l'.publicId = a.publicId := h.mapped.free a ha _ hholder
    have hsame : l' = l := hs.unique.unique (mem_of_find?_eq_some hfind) hm
      ((by simpa using find?_some hfind : l'.uuid = a.uuid).trans hlu.symm)
    have hid' : a.publicId = b.publicId := by rw [← hown, hsame, hid]
    simp [Tables.changes, hid', hl] at hca

/-- A key is written to a uuid by its entry, or was the uuid. -/
theorem Linked.rekey_eq_newKey_iff (h : Linked s s' pairs map) (hs : s.WellLinked) (he : e ∈ map)
    (k : String) : rekey map k = e.newKey ↔ k = e.oldKey ∨ k = e.newKey := by
  constructor
  · intro hk
    cases rekey_cases map k with
    | inl hent =>
      obtain ⟨e', he', rfl, hnew⟩ := hent
      rw [h.mapped.newKeys.unique he' he (hnew.symm.trans hk)]
      exact .inl rfl
    | inr hkept => exact .inr (hkept.2.symm.trans hk)
  · rintro (rfl | rfl)
    · exact rekey_of_mem h.mapped.oldKeys he
    · cases rekey_cases map e.newKey with
      | inl hent =>
        obtain ⟨e', he', hold, -⟩ := hent
        exact absurd hold (h.newKey_not_oldKey hs he he')
      | inr hkept => exact hkept.2

/-- The rows of a uuid after the rewrite are those of the two keys. -/
theorem Linked.sequencesOf_rewrite (h : Linked s s' pairs map) (hs : s.WellLinked) (he : e ∈ map)
    (kind : ActorType) :
    (sequencesOf (s.deliveries.map fun d => { d with id := rekey map d.id }) kind e.newKey).Perm
      (sequencesOf s.deliveries kind e.oldKey ++ sequencesOf s.deliveries kind e.newKey) := by
  have hne : e.oldKey ≠ e.newKey := h.newKey_not_oldKey hs he he
  unfold sequencesOf
  rw [List.filter_map, List.map_map, ← map_append]
  refine List.Perm.map _ ?_
  -- the filter for either key, split by the key
  have hsplit := (filter_append_perm (fun d : Delivery => d.id = e.oldKey)
    (s.deliveries.filter fun d => d.kind = kind && rekey map d.id = e.newKey)).symm
  rw [List.filter_filter, List.filter_filter] at hsplit
  refine (List.Perm.of_eq ?_).trans (hsplit.trans (List.Perm.of_eq ?_))
  · rfl
  · congr 1
    · apply filter_congr
      intro d _
      rw [Bool.eq_iff_iff]
      simp only [Bool.and_eq_true, decide_eq_true_eq, h.rekey_eq_newKey_iff hs he]
      tauto
    · apply filter_congr
      intro d _
      rw [Bool.eq_iff_iff]
      simp only [Bool.and_eq_true, Bool.not_eq_true', decide_eq_false_iff_not,
        decide_eq_true_eq, h.rekey_eq_newKey_iff hs he]
      constructor
      · tauto
      · rintro ⟨hk, hnew⟩
        exact ⟨fun hold => hne (hold.symm.trans hnew), hk, .inr hnew⟩

/-! ## A run -/

def Tables.AllReadable (s : Tables H) : Prop :=
  ∀ st ∈ s.streams, st.organization = "@accounts" →
    Readable st (sequencesOf s.deliveries st.kind st.id)

/-- The rows that another key adds to a stream are all below its floor, or reach its next
sequence. -/
def absorbed (st : Stream) (sequences : List Nat) : Bool :=
  sequences.all (· ≤ st.syncFloor) || sequences.any (st.nextSequence ≤ ·)

/-- The keys a re-key joins to a stream: the old one where the account has a stream of its own,
else the new one. -/
def joinedKey (st : Stream) (key : String × String) : String :=
  if st.id = key.2 then key.1 else key.2

/-- Every re-keyed account's stream absorbs the rows it is joined with. -/
def absorbsAll (uuids : UuidText) (s : Tables H) (rows : List MappingRow) : Bool :=
  (rekeys uuids s rows).all fun key => s.streams.all fun st =>
    !(st.organization = "@accounts" && (st.id = key.1 || st.id = key.2)) ||
      absorbed st (sequencesOf s.deliveries st.kind (joinedKey st key))

theorem absorbed_iff :
    absorbed st l = true ↔ (∀ n ∈ l, n ≤ st.syncFloor) ∨ ∃ n ∈ l, st.nextSequence ≤ n := by
  simp [absorbed]

def rekeyStream (map : List Entry) (deliveries : List Delivery) (st : Stream) : Stream :=
  raiseStream map (deliveries.map fun d => { d with id := rekey map d.id })
    { st with id := rekey map st.id }

theorem raiseStream_eq_lift (deliveries : List Delivery) (st : Stream)
    (ho : st.organization = "@accounts")
    (hm : ∃ e ∈ map, e.newKey = st.id) :
    raiseStream map deliveries st = lift st (sequencesOf deliveries st.kind st.id) := by
  unfold raiseStream
  rw [if_pos (by simpa [ho] using hm)]
  rfl

theorem rekeyStream_frame (map : List Entry) (deliveries : List Delivery) (st : Stream) :
    (rekeyStream map deliveries st).organization = st.organization ∧
      (rekeyStream map deliveries st).kind = st.kind ∧
      (rekeyStream map deliveries st).id = rekey map st.id := by
  unfold rekeyStream raiseStream
  split
  · split
    · split <;> exact ⟨rfl, rfl, rfl⟩
    · exact ⟨rfl, rfl, rfl⟩
  · exact ⟨rfl, rfl, rfl⟩

/-- The stream of a re-keyed account stays readable exactly if it absorbs the joined rows. -/
theorem Linked.readable_iff (h : Linked s s' pairs map) (hs : s.WellLinked) (hread : s.AllReadable)
    (he : e ∈ map) (hst : st ∈ s.streams) (ho : st.organization = "@accounts")
    (hid : st.id = e.oldKey ∨ st.id = e.newKey) :
    Readable (rekeyStream map s.deliveries st)
        (sequencesOf (s.deliveries.map fun d => { d with id := rekey map d.id }) st.kind e.newKey) ↔
      absorbed st (sequencesOf s.deliveries st.kind (joinedKey st (e.oldKey, e.newKey))) = true := by
  have hne : e.oldKey ≠ e.newKey := h.newKey_not_oldKey hs he he
  have hnew : rekey map st.id = e.newKey := (h.rekey_eq_newKey_iff hs he st.id).mpr hid
  have hperm := h.sequencesOf_rewrite hs he st.kind
  have hown := hread st hst ho
  -- readability does not look at the key
  have hown : Readable { st with id := e.newKey } (sequencesOf s.deliveries st.kind st.id) :=
    ⟨hown.bounds, hown.distinct, hown.filled⟩
  have hlift : rekeyStream map s.deliveries st = lift { st with id := e.newKey }
      (sequencesOf (s.deliveries.map fun d => { d with id := rekey map d.id }) st.kind
        e.newKey) := by
    unfold rekeyStream
    rw [hnew, raiseStream_eq_lift _ { st with id := e.newKey } ho ⟨e, he, rfl⟩]
  rw [hlift, absorbed_iff]
  cases hid with
  | inl hold =>
    rw [hold] at hown
    have hjoin : joinedKey st (e.oldKey, e.newKey) = e.newKey := by simp [joinedKey, hold, hne]
    rw [hjoin]
    exact readable_lift_iff hown hperm
  | inr hnew =>
    rw [hnew] at hown
    have hjoin : joinedKey st (e.oldKey, e.newKey) = e.oldKey := by simp [joinedKey, hnew]
    rw [hjoin]
    exact readable_lift_iff hown (hperm.trans perm_append_comm)

/-- The written streams are readable exactly if each of them absorbs its joined rows. -/
theorem Linked.allReadable_iff (h : Linked s s' pairs map) (hs : s.WellLinked)
    (hread : s.AllReadable) :
    (∀ st ∈ s.streams.map (rekeyStream map s.deliveries), st.organization = "@accounts" →
        st.id ∈ map.map (·.newKey) →
        Readable st (sequencesOf (s.deliveries.map fun d => { d with id := rekey map d.id })
          st.kind st.id)) ↔
      ∀ e ∈ map, ∀ st ∈ s.streams, st.organization = "@accounts" →
        (st.id = e.oldKey ∨ st.id = e.newKey) →
        absorbed st (sequencesOf s.deliveries st.kind (joinedKey st (e.oldKey, e.newKey))) =
          true := by
  constructor
  · intro haft e he st hst ho hid
    obtain ⟨hf₁, hf₂, hf₃⟩ := rekeyStream_frame map s.deliveries st
    have hnew := hf₃.trans ((h.rekey_eq_newKey_iff hs he st.id).mpr hid)
    have := haft _ (List.mem_map_of_mem hst) (hf₁.trans ho)
      (hnew ▸ List.mem_map_of_mem he)
    rw [hf₂, hnew] at this
    exact (h.readable_iff hs hread he hst ho hid).mp this
  · intro habs st' hst' ho hm
    obtain ⟨st, hst, rfl⟩ := List.mem_map.mp hst'
    obtain ⟨e, he, hk⟩ := List.mem_map.mp hm
    obtain ⟨hf₁, hf₂, hf₃⟩ := rekeyStream_frame map s.deliveries st
    have hid := (h.rekey_eq_newKey_iff hs he st.id).mp (hf₃.symm.trans hk.symm)
    rw [hf₁] at ho
    rw [hf₂, ← hk]
    exact (h.readable_iff hs hread he hst ho hid).mpr (habs e he st hst ho hid)

/-- Streams and deliveries after a run that re-keys something. -/
theorem Ran.streams_eq [DecidableEq H] {digest : Multiset (ActorType × String) → H} {fuel : Nat}
    {options : LinkOptions} (h : Ran uuids digest fuel s rows verified options pairs map s₁ s₂)
    (hmap : map ≠ []) :
    s₂.streams = s.streams.map (rekeyStream map s.deliveries) ∧
      s₂.deliveries = s.deliveries.map fun d => { d with id := rekey map d.id } := by
  obtain ⟨n, hrek⟩ := h.rekeyed
  obtain ⟨m, hrcd⟩ := h.recorded
  cases rekeyTables_eq_ok hrek with
  | inl hn => exact absurd hn.1 hmap
  | inr hsome =>
    obtain ⟨-, -, -, conversations, -, rfl⟩ := hsome
    rw [frame_of_foldlM hrcd]
    exact ⟨by simp [rewrite, rekeyStream, Function.comp_def], rfl⟩

/-- `c:ada` has the legacy deliveries 1 and 2, and `a8K`, whose stream is full up to its next
sequence, the deliveries `own`. -/
def feedTables (own : List Nat) : Tables Unit where
  links := []
  projections := []
  accounts := []
  authenticated := []
  anchors := [⟨"tos", .carbon, "c:ada"⟩, ⟨"@accounts", .carbon, "a8K"⟩]
  participants := []
  conversations := []
  deliveries := own.map (⟨"@accounts", .carbon, "a8K", ·⟩) ++
    [1, 2].map (⟨"tos", .carbon, "c:ada", ·⟩)
  streams := [⟨"@accounts", .carbon, "a8K", own.length + 1, 0⟩]
  cells := []

theorem feedTables_wellLinked (own : List Nat) : (feedTables own).WellLinked :=
  ⟨nodup_nil, nodup_nil, by simp [feedTables]⟩

/-- After a successful run every re-keyed account's stream is readable, exactly if the run was
dry or each of these streams absorbs the rows it is joined with: they are all below its floor,
or one of them reaches its next sequence. -/
theorem rekeyed_streams_readable [DecidableEq H] (uuids : UuidText)
    (digest : Multiset (ActorType × String) → H) (fuel : Nat) (text : String)
    (rows : List MappingRow) (verified : List (String × VerifiedAccount))
    (options : LinkOptions) (s s' : Tables H) (report : LinkReport)
    (hparse : parseMapping uuids text = .ok rows) (hs : s.WellLinked) (hread : s.AllReadable)
    (hrun : linkIdentities uuids digest fuel s rows verified options = .ok (s', report)) :
    (∀ st ∈ s'.streams, st.organization = "@accounts" →
        st.id ∈ (rekeys uuids s rows).map (·.2) →
        Readable st (sequencesOf s'.deliveries st.kind st.id)) ↔
      options.dryRun = true ∨ absorbsAll uuids s rows = true := by
  obtain ⟨pairs, map, s₁, s₂, hran, rfl⟩ := ran_of_linkIdentities hrun
  cases hdry : options.dryRun with
  | true =>
    simp only [if_true, true_or, iff_true]
    exact fun st hst ho _ => hread st hst ho
  | false =>
    have hl := hran.linked (accepted_of_parseMapping hparse) hs
    simp only [Bool.false_eq_true, if_false, false_or, absorbsAll,
      rekeys_eq_map hran.resolved hran.mapped]
    by_cases hmap : map = []
    · simp [hmap]
    obtain ⟨hstreams, hdeliveries⟩ := hran.streams_eq hmap
    have hkeys : (map.map fun e => (e.oldKey, e.newKey)).map (·.2) = map.map (·.newKey) := by
      rw [List.map_map]
      rfl
    rw [hstreams, hdeliveries, hkeys, hl.allReadable_iff hs hread]
    simp [imp_iff_not_or, not_or, or_assoc]

/-- An account without deliveries is joined with two legacy ones: its stream is lifted. -/
theorem rekeyed_streams_readable_lifted :
    ∃ rows s' report, parseMapping adaUuids "c:ada,a8K" = .ok rows ∧
      linkIdentities adaUuids (fun _ => ()) 1 (feedTables []) rows [] adaOptions =
        .ok (s', report) ∧
      s'.streams = [⟨"@accounts", .carbon, "a8K", 3, 2⟩] ∧
      Readable ⟨"@accounts", .carbon, "a8K", 3, 2⟩ (sequencesOf s'.deliveries .carbon "a8K") := by
  have hparse : parseMapping adaUuids "c:ada,a8K" = .ok [⟨1, "c:ada", "a8K"⟩] := by
    decide +kernel
  have hread : (feedTables []).AllReadable := by
    intro st hst _
    obtain rfl := mem_singleton.mp hst
    refine ⟨by decide, by decide, fun n hn => ?_⟩
    have hnil : sequencesOf (feedTables []).deliveries .carbon "a8K" = [] := by decide
    change n ∈ sequencesOf (feedTables []).deliveries .carbon "a8K" ↔ n < 0 + 1
    rw [hnil]
    simp only [not_mem_nil, false_iff]
    omega
  refine ⟨_, _, _, hparse, eq_ok_of_toOption (Option.some_get (by decide +kernel)).symm,
    by decide +kernel, ?_⟩
  exact (rekeyed_streams_readable adaUuids (fun _ => ()) 1 _ _ [] adaOptions _ _ _ hparse
    (feedTables_wellLinked []) hread
    (eq_ok_of_toOption (Option.some_get (by decide +kernel)).symm)).mpr (.inr (by decide))
    ⟨"@accounts", .carbon, "a8K", 3, 2⟩ (by decide +kernel) rfl (by decide)

/-- An account with the deliveries 1 to 3 is joined with the legacy deliveries 1 and 2, and
its stream stays as it is: sequences 1 and 2 are above its floor twice. -/
theorem rekeyed_stream_duplicated :
    ∃ rows s' report, parseMapping adaUuids "c:ada,a8K" = .ok rows ∧
      (feedTables [1, 2, 3]).WellLinked ∧ (feedTables [1, 2, 3]).AllReadable ∧
      linkIdentities adaUuids (fun _ => ()) 1 (feedTables [1, 2, 3]) rows [] adaOptions =
        .ok (s', report) ∧
      s'.streams = [⟨"@accounts", .carbon, "a8K", 4, 0⟩] ∧
      sequencesOf s'.deliveries .carbon "a8K" = [1, 2, 3, 1, 2] ∧
      ¬ Readable ⟨"@accounts", .carbon, "a8K", 4, 0⟩
        (sequencesOf s'.deliveries .carbon "a8K") := by
  have hparse : parseMapping adaUuids "c:ada,a8K" = .ok [⟨1, "c:ada", "a8K"⟩] := by
    decide +kernel
  refine ⟨_, _, _, hparse, feedTables_wellLinked _, ?_,
    eq_ok_of_toOption (Option.some_get (by decide +kernel)).symm, by decide +kernel, by decide +kernel,
    fun hr => absurd hr.distinct (by decide +kernel)⟩
  intro st hst _
  obtain rfl := mem_singleton.mp hst
  refine ⟨by decide, by decide, fun n hn => ?_⟩
  have hrows : sequencesOf (feedTables [1, 2, 3]).deliveries .carbon "a8K" = [1, 2, 3] := by
    decide
  change n ∈ sequencesOf (feedTables [1, 2, 3]).deliveries .carbon "a8K" ↔ n < 3 + 1
  rw [hrows]
  change 0 < n at hn
  simp only [mem_cons, not_mem_nil, or_false]
  omega

end SiliconDm.Link
