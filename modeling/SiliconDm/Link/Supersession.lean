import SiliconDm.Base.PointerJump
import SiliconDm.Link.Readable

/-!
# Superseded direct conversations

`superseded_by` links direct conversations of one participant set to the canonical one. A
re-key can make two canonical conversations of what were different sets; `SUPERSEDE` links one
to the other and `FLATTEN` is repeated until no link points at a superseded conversation. The
loop is pointer jumping, and its rounds refine `jump` on the table's pointers. Source:
`src/infrastructure/postgres/link_identities.rs:214–256,506–524`.
-/

namespace SiliconDm.Link

open Base List Option
open Server (ActorType)

variable {H : Type} {cs cs' : List (Conversation H)} {ps : List Participant}

/-! ## Pointers of a table -/

variable {c c' : Conversation H} {map : List Entry}

theorem pointer_of_mem (h : Keyed Conversation.id cs) (hc : c ∈ cs) :
    pointer cs c.id = c.supersededBy := by
  unfold pointer
  rw [h.getRow_eq_some_iff.mpr ⟨hc, rfl⟩]
  rfl

theorem exists_of_pointer {a b : Nat} (h : pointer cs a = some b) :
    ∃ c ∈ cs, c.id = a ∧ c.supersededBy = some b := by
  obtain ⟨c, hc, hb⟩ := bind_eq_some_iff.mp h
  obtain ⟨hm, hid⟩ := mem_of_getRow_eq_some hc
  exact ⟨c, hm, hid, hb⟩

/-- A change of `superseded_by` alone, row by row. -/
theorem pointer_map {f : Conversation H → Option Nat} (a : Nat) :
    pointer (cs.map fun c => { c with supersededBy := f c }) a =
      (getRow Conversation.id cs a).bind f := by
  unfold pointer
  rw [getRow_map (by intro c; rfl)]
  cases getRow Conversation.id cs a <;> rfl

/-- One `FLATTEN` is one round of pointer jumping. -/
theorem pointer_flattenRound : pointer (flattenRound cs) = jump (pointer cs) := by
  funext a
  unfold flattenRound
  rw [pointer_map]
  unfold jump
  conv_rhs => rw [pointer]
  rw [bind_assoc]

/-- The loop ends exactly when the pointers are flat. -/
theorem not_any_stale_iff (h : Keyed Conversation.id cs) :
    cs.any (stale cs) = false ↔ Flat (pointer cs) := by
  simp only [List.any_eq_false, stale, isSome_iff_exists, bind_eq_some_iff,
    not_exists, not_and]
  constructor
  · intro hno a b hab
    obtain ⟨c, hc, -, hb⟩ := exists_of_pointer hab
    cases hp : pointer cs b with
    | none => rfl
    | some t => exact absurd hp (hno c hc t b hb)
  · intro hflat c hc t b hb ht
    have hn := hflat c.id b (by rw [pointer_of_mem h hc, hb])
    simp [hn] at ht

/-! ## The loop -/

/-- Rows that differ in `superseded_by` at most. -/
def SameRows (cs cs' : List (Conversation H)) : Prop :=
  List.Forall₂ (fun c c' => c' = { c with supersededBy := c'.supersededBy }) cs cs'

theorem SameRows.refl (cs : List (Conversation H)) : SameRows cs cs :=
  forall₂_same.mpr fun _ _ => rfl

theorem SameRows.trans {cs'' : List (Conversation H)} (h : SameRows cs cs')
    (h' : SameRows cs' cs'') : SameRows cs cs'' := by
  unfold SameRows at *
  induction h generalizing cs'' with
  | nil => exact h'
  | cons hr _ ih =>
    cases h' with
    | cons hr' hrest =>
      refine .cons ?_ (ih hrest)
      rw [hr', hr]

theorem sameRows_map (f : Conversation H → Option Nat) :
    SameRows cs (cs.map fun c => { c with supersededBy := f c }) := by
  unfold SameRows
  rw [forall₂_map_right_iff]
  exact forall₂_same.mpr fun _ _ => rfl

theorem SameRows.keyed (h : SameRows cs cs') (hk : Keyed Conversation.id cs) :
    Keyed Conversation.id cs' := by
  have hids : cs'.map (·.id) = cs.map (·.id) := by
    clear hk
    induction h with
    | nil => rfl
    | cons hr _ ih =>
      rw [map_cons, map_cons, ih, hr]
  unfold Keyed at *
  rw [hids]
  exact hk

/-- A round on chains of at most `N` links, while something is stale, shortens the bound. -/
private theorem within_round {N : Nat} (hk : Keyed Conversation.id cs)
    (h : Within (pointer cs) (N + 1)) (hs : cs.any (stale cs) = true) :
    Within (pointer (flattenRound cs)) N := by
  have hlong : ¬ N + 1 ≤ 1 := by
    intro hle
    have := (not_any_stale_iff hk).mpr (h.flat hle)
    simp [hs] at this
  rw [pointer_flattenRound]
  intro a
  obtain ⟨n, r, hn, ha⟩ := h.jump a
  exact ⟨n, r, by omega, ha⟩

/-- `FLATTEN` repeated on chains of at most `N` links ends within `N + 1` rounds, with flat
pointers, and keeps every relation that composes along them. -/
theorem flatten_spec {R : Nat → Nat → Prop} (hR : ∀ x y z, R x y → R y z → R x z) (N : Nat) :
    ∀ (cs : List (Conversation H)) (fuel : Nat), Keyed Conversation.id cs →
      Within (pointer cs) N → N < fuel → (∀ x y, pointer cs x = some y → R x y) →
      ∃ cs', flatten fuel cs = some cs' ∧ SameRows cs cs' ∧ Flat (pointer cs') ∧
        ∀ x y, pointer cs' x = some y → R x y := by
  induction N with
  | zero =>
    intro cs fuel hk hw hfuel hrel
    obtain ⟨fuel, rfl⟩ := Nat.exists_eq_succ_of_ne_zero (by omega : fuel ≠ 0)
    have hflat := hw.flat (by omega)
    refine ⟨cs, ?_, .refl cs, hflat, hrel⟩
    rw [flatten, if_neg (by simp [(not_any_stale_iff hk).mpr hflat])]
  | succ N ih =>
    intro cs fuel hk hw hfuel hrel
    obtain ⟨fuel, rfl⟩ := Nat.exists_eq_succ_of_ne_zero (by omega : fuel ≠ 0)
    rw [flatten]
    by_cases hs : cs.any (stale cs) = true
    · rw [if_pos hs]
      have hround : SameRows cs (flattenRound cs) := sameRows_map _
      obtain ⟨cs', hend, hsame, hflat, hrel'⟩ := ih (flattenRound cs) fuel (hround.keyed hk)
        (within_round hk hw hs) (by omega)
        (by rw [pointer_flattenRound]; exact jump_rel hR hrel)
      exact ⟨cs', hend, hround.trans hsame, hflat, hrel'⟩
    · rw [if_neg hs]
      exact ⟨cs, rfl, .refl cs, (not_any_stale_iff hk).mp (by simpa using hs), hrel⟩

/-! ## Superseding -/

/-- What superseding a canonical conversation says: the successor is canonical, of the same
hash, and has none itself. -/
theorem successor_eq_some [DecidableEq H] {b : Nat} (h : successor cs c = some b) :
    c.isCanonical = true ∧ ∃ d ∈ cs, d.id = b ∧ d.isCanonical = true ∧ d.setHash = c.setHash ∧
      successor cs d = none := by
  unfold successor at h
  split at h
  case isFalse => cases h
  case isTrue hc =>
    obtain ⟨hfst, -⟩ := filter_eq_some_iff.mp h
    obtain ⟨d, hd, rfl⟩ := map_eq_some_iff.mp hfst
    have hm := mem_filter.mp (mem_of_find?_eq_some hd)
    obtain ⟨hcan, hhash⟩ : d.isCanonical = true ∧ d.setHash = c.setHash := by
      simpa using hm.2
    refine ⟨hc, d, hm.1, rfl, hcan, hhash, ?_⟩
    unfold successor
    rw [if_pos hcan, hhash, hfst]
    simp

/-- `SUPERSEDE` links roots to roots. -/
theorem within_supersede [DecidableEq H] {N : Nat} (hk : Keyed Conversation.id cs)
    (h : Within (pointer cs) N) : Within (pointer (supersede cs)) (N + 1) := by
  have hp : ∀ a, pointer (supersede cs) a =
      (getRow Conversation.id cs a).bind fun c => c.supersededBy.or (successor cs c) :=
    fun a => pointer_map a
  refine h.attach ?_ ?_
  · intro a b hab
    obtain ⟨c, hc, rfl, hb⟩ := exists_of_pointer hab
    rw [hp, hk.getRow_eq_some_iff.mpr ⟨hc, rfl⟩]
    simp [hb]
  · intro a b hn hab
    rw [hp] at hab
    obtain ⟨c, hr, hc⟩ := bind_eq_some_iff.mp hab
    have hroot : c.supersededBy = none := by
      rw [pointer, hr] at hn
      exact hn
    rw [hroot, none_or] at hc
    obtain ⟨-, d, hd, rfl, hcan, -, hlast⟩ := successor_eq_some hc
    rw [hp, hk.getRow_eq_some_iff.mpr ⟨hd, rfl⟩]
    have hdroot : d.supersededBy = none := by
      unfold Conversation.isCanonical at hcan
      simp only [Bool.and_eq_true, isNone_iff_eq_none] at hcan
      exact hcan.2
    simp [hdroot, hlast]

/-! ## Forests -/

/-- Two ids of which the second is a direct conversation with the first one's participants, if
the first is a direct conversation. -/
def SameSet (ps : List Participant) (cs : List (Conversation H)) (a b : Nat) : Prop :=
  ∀ c ∈ cs, c.id = a → c.isGroup = false →
    ∃ d ∈ cs, d.id = b ∧ d.isGroup = false ∧ participantSet ps b = participantSet ps a

/-- Links between direct conversations of one participant set, whose hashes are those of their
sets. -/
structure Grove (digest : Multiset (ActorType × String) → H) (ps : List Participant)
    (cs : List (Conversation H)) : Prop where
  keyed : Keyed Conversation.id cs
  links : ∀ a b, pointer cs a = some b → SameSet ps cs a b
  hashes : ∀ c ∈ cs, c.isGroup = false → c.setHash = digest (participantSet ps c.id)

/-- A grove without cycles, and the canonical index. -/
structure Tables.Forest (digest : Multiset (ActorType × String) → H) (s : Tables H) : Prop
    extends Grove digest s.participants s.conversations where
  acyclic : Acyclic (pointer s.conversations)
  index : ((s.conversations.filter (·.isCanonical)).map (·.setHash)).Nodup

/-- Every superseded direct conversation points directly at a canonical one of its participant
set, and every participant set that has a direct conversation has exactly one canonical one. -/
structure Tables.FlatForest (s : Tables H) : Prop where
  direct : ∀ c ∈ s.conversations, c.isGroup = false → ∀ target ∈ c.supersededBy,
    ∃ d ∈ s.conversations, d.id = target ∧ d.isCanonical = true ∧
      participantSet s.participants d.id = participantSet s.participants c.id
  one : ∀ c ∈ s.conversations, c.isGroup = false →
    ∃! d, d ∈ s.conversations ∧ d.isCanonical = true ∧
      participantSet s.participants d.id = participantSet s.participants c.id

variable {digest : Multiset (ActorType × String) → H} {s s' : Tables H}

theorem isCanonical_iff : c.isCanonical = true ↔ c.isGroup = false ∧ c.supersededBy = none := by
  simp [Conversation.isCanonical]

/-- Flat pointers of a forest make a flat forest. -/
theorem Tables.Forest.flatForest (h : s.Forest digest) (hflat : Flat (pointer s.conversations)) :
    s.FlatForest := by
  have hdir : ∀ c ∈ s.conversations, c.isGroup = false → ∀ target ∈ c.supersededBy,
      ∃ d ∈ s.conversations, d.id = target ∧ d.isCanonical = true ∧
        participantSet s.participants d.id = participantSet s.participants c.id := by
    intro c hc hg target ht
    obtain ⟨d, hd, rfl, hdg, hset⟩ := h.links c.id target
      (by rw [pointer_of_mem h.keyed hc]; exact ht) c hc rfl hg
    have hroot : d.supersededBy = none := by
      rw [← pointer_of_mem h.keyed hd]
      exact hflat c.id d.id (by rw [pointer_of_mem h.keyed hc]; exact ht)
    exact ⟨d, hd, rfl, isCanonical_iff.mpr ⟨hdg, hroot⟩, hset⟩
  refine ⟨hdir, fun c hc hg => ?_⟩
  obtain ⟨d, hd, hcan, hset⟩ : ∃ d ∈ s.conversations, d.isCanonical = true ∧
      participantSet s.participants d.id = participantSet s.participants c.id := by
    cases hsup : c.supersededBy with
    | none => exact ⟨c, hc, isCanonical_iff.mpr ⟨hg, hsup⟩, rfl⟩
    | some target =>
      obtain ⟨d, hd, -, hcan, hset⟩ := hdir c hc hg target hsup
      exact ⟨d, hd, hcan, hset⟩
  refine ⟨d, ⟨hd, hcan, hset⟩, ?_⟩
  -- two canonical conversations of one set have one hash
  rintro e ⟨he, hecan, heset⟩
  apply inj_on_of_nodup_map h.index (mem_filter.mpr ⟨he, hecan⟩)
    (mem_filter.mpr ⟨hd, hcan⟩)
  rw [h.hashes e he (isCanonical_iff.mp hecan).1, h.hashes d hd (isCanonical_iff.mp hcan).1,
    heset, hset]

/-! ## The rewrite -/

/-- The participants after the rewrite are those before, key by key. -/
theorem participantSet_rekey (map : List Entry) (ps : List Participant) (id : Nat) :
    participantSet (ps.map fun p => { p with id := rekey map p.id }) id =
      (participantSet ps id).map fun a => (a.1, rekey map a.2) := by
  unfold participantSet
  rw [List.filter_map, List.map_map, Multiset.map_coe, List.map_map]
  rfl

theorem map_rekey_eq_self {M : Multiset (ActorType × String)} (h : ∀ a ∈ M, rekey map a.2 = a.2) :
    (M.map fun a => (a.1, rekey map a.2)) = M :=
  (Multiset.map_congr rfl fun a ha => by rw [h a ha]).trans (Multiset.map_id' M)

/-- The rewrite of a conversation changes its hash at most. -/
theorem mem_rehash [DecidableEq H] (h : c' ∈ rehash digest map ps cs) :
    ∃ c ∈ cs, c' = { c with setHash := c'.setHash } ∧
      (c'.setHash = digest (participantSet ps c.id) ∨
        c' = c ∧ (c.isGroup = false → ∀ p ∈ ps, p.conversation = c.id → ∀ e ∈ map,
          e.newKey ≠ p.id)) := by
  obtain ⟨c, hc, rfl⟩ := List.mem_map.mp h
  refine ⟨c, hc, ?_⟩
  split
  case isTrue => exact ⟨rfl, .inl rfl⟩
  case isFalse htouched =>
    refine ⟨rfl, .inr ⟨rfl, ?_⟩⟩
    intro hg p hp hid e he hk
    exact htouched (by simpa [hg] using ⟨p, hp, hid, e, he, hk⟩)

/-- The hashes are those of the new sets: a conversation that is not computed again has no
re-keyed participant. -/
theorem hashes_rehash [DecidableEq H]
    (h : ∀ c ∈ cs, c.isGroup = false → c.setHash = digest (participantSet ps c.id)) :
    ∀ c ∈ rehash digest map (ps.map fun p => { p with id := rekey map p.id }) cs,
      c.isGroup = false →
      c.setHash =
        digest (participantSet (ps.map fun p => { p with id := rekey map p.id }) c.id) := by
  intro c' hc' hg
  obtain ⟨c, hc, hr, hnew | ⟨rfl, hkept⟩⟩ := mem_rehash hc'
  · rw [hnew, show c'.id = c.id by rw [hr]]
  · rw [h c' hc hg, participantSet_rekey]
    congr 1
    refine (map_rekey_eq_self fun a ha => ?_).symm
    obtain ⟨p, hp, rfl⟩ := List.mem_map.mp (Multiset.mem_coe.mp ha)
    obtain ⟨hp, hid⟩ := mem_filter.mp hp
    cases rekey_cases map p.id with
    | inr hsame => exact hsame.2
    | inl hent =>
      obtain ⟨e, he, -, hnew⟩ := hent
      exact absurd hnew.symm (hkept hg { p with id := rekey map p.id }
        (List.mem_map.mpr ⟨p, hp, rfl⟩) (by simpa using hid) e he)

theorem pointer_rehash [DecidableEq H] (map : List Entry) :
    pointer (rehash digest map ps cs) = pointer cs := by
  funext a
  unfold pointer rehash
  rw [getRow_map (by intro c; split <;> rfl)]
  cases getRow Conversation.id cs a with
  | none => rfl
  | some c =>
    simp only [map_some, bind_some]
    split <;> rfl

/-- The rewrite keeps a grove: both ends of a link are re-keyed by one map. -/
theorem Grove.rehash [DecidableEq H] (h : Grove digest ps cs) (map : List Entry) :
    Grove digest (ps.map fun p => { p with id := rekey map p.id })
      (rehash digest map (ps.map fun p => { p with id := rekey map p.id }) cs) where
  keyed := h.keyed.map (by intro c; split <;> rfl)
  hashes := hashes_rehash h.hashes
  links := by
    rw [pointer_rehash]
    intro a b hab c' hc' ha hg
    obtain ⟨c, hc, hr, -⟩ := mem_rehash hc'
    rw [hr] at ha hg
    obtain ⟨d, hd, hb, hdg, hset⟩ := h.links a b hab c hc ha hg
    refine ⟨_, List.mem_map_of_mem hd, ?_, ?_, ?_⟩
    · split <;> exact hb
    · split <;> exact hdg
    · rw [participantSet_rekey, participantSet_rekey, hset]

theorem SameSet.trans {x y z : Nat} (h : SameSet ps cs x y) (h' : SameSet ps cs y z) :
    SameSet ps cs x z := by
  intro c hc hx hg
  obtain ⟨d, hd, hy, hdg, hset⟩ := h c hc hx hg
  obtain ⟨e, he, hz, heg, hset'⟩ := h' d hd hy hdg
  exact ⟨e, he, hz, heg, hset'.trans hset⟩

theorem SameRows.mem (h : SameRows cs cs') (hc' : c' ∈ cs') :
    ∃ c ∈ cs, c' = { c with supersededBy := c'.supersededBy } := by
  obtain ⟨c, hc, hr⟩ := forall₂_mem_right h hc'
  exact ⟨c, hc, hr⟩

theorem SameRows.mem' (h : SameRows cs cs') (hc : c ∈ cs) :
    ∃ c' ∈ cs', c' = { c with supersededBy := c'.supersededBy } := by
  obtain ⟨c', hc', hr⟩ := forall₂_mem_right h.flip hc
  exact ⟨c', hc', hr⟩

/-- Pointers within participant sets make a grove of the same rows. -/
theorem Grove.of_sameRows (h : Grove digest ps cs) (hrs : SameRows cs cs')
    (hlinks : ∀ a b, pointer cs' a = some b → SameSet ps cs a b) : Grove digest ps cs' where
  keyed := hrs.keyed h.keyed
  hashes := by
    intro c' hc' hg
    obtain ⟨c, hc, hr⟩ := hrs.mem hc'
    rw [hr] at hg ⊢
    exact h.hashes c hc hg
  links := by
    intro a b hab c' hc' ha hg
    obtain ⟨c, hc, hr⟩ := hrs.mem hc'
    rw [hr] at ha hg
    obtain ⟨d, hd, hb, hdg, hset⟩ := hlinks a b hab c hc ha hg
    obtain ⟨d', hd', hr'⟩ := hrs.mem' hd
    refine ⟨d', hd', ?_, ?_, hset⟩
    · rw [hr']
      exact hb
    · rw [hr']
      exact hdg

/-- No two participant sets of admissible ids have one digest. -/
def CollisionFree (ok : String → Prop) (digest : Multiset (ActorType × String) → H) : Prop :=
  ∀ M N, (∀ a ∈ M, ok a.2) → (∀ a ∈ N, ok a.2) → digest M = digest N → M = N

variable {ok : String → Prop}

theorem ok_of_mem_participantSet (hok : ∀ p ∈ ps, ok p.id) {id : Nat} :
    ∀ a ∈ participantSet ps id, ok a.2 := by
  intro a ha
  obtain ⟨p, hp, rfl⟩ := List.mem_map.mp (Multiset.mem_coe.mp ha)
  exact hok p (mem_filter.mp hp).1

/-- `SUPERSEDE` keeps a grove if the digest is collision free. -/
theorem Grove.supersede [DecidableEq H] (h : Grove digest ps cs)
    (hd : CollisionFree ok digest) (hok : ∀ p ∈ ps, ok p.id) :
    ∀ a b, pointer (supersede cs) a = some b → SameSet ps cs a b := by
  intro a b hab
  have hp : pointer (Link.supersede cs) a = (getRow Conversation.id cs a).bind
      fun c => c.supersededBy.or (successor cs c) := pointer_map a
  rw [hp] at hab
  obtain ⟨c, hr, hc⟩ := bind_eq_some_iff.mp hab
  obtain ⟨hm, rfl⟩ := mem_of_getRow_eq_some hr
  cases hsup : c.supersededBy with
  | some t =>
    rw [hsup, some_or] at hc
    exact h.links c.id b (by rw [pointer_of_mem h.keyed hm, hsup, hc])
  | none =>
    rw [hsup, none_or] at hc
    obtain ⟨hcan, d, hdm, rfl, hdcan, hhash, -⟩ := successor_eq_some hc
    intro c' hc' hid hg
    obtain rfl := h.keyed.unique hc' hm hid
    refine ⟨d, hdm, rfl, (isCanonical_iff.mp hdcan).1,
      hd _ _ (ok_of_mem_participantSet hok) (ok_of_mem_participantSet hok) ?_⟩
    rw [← h.hashes d hdm (isCanonical_iff.mp hdcan).1, ← h.hashes c' hc' hg, hhash]

/-- The loop after `SUPERSEDE` ends, and leaves a grove with flat pointers. -/
theorem Grove.flatten [DecidableEq H] (h : Grove digest ps cs) (hd : CollisionFree ok digest)
    (hok : ∀ p ∈ ps, ok p.id) (hac : Acyclic (pointer cs)) {fuel : Nat}
    (hfuel : cs.length + 1 < fuel) :
    ∃ cs', Link.flatten fuel (Link.supersede cs) = some cs' ∧ SameRows cs cs' ∧ Grove digest ps cs' ∧
      Flat (pointer cs') := by
  have hrs : SameRows cs (Link.supersede cs) := sameRows_map _
  have hwithin : Within (pointer cs) cs.length := by
    have hids : Within (pointer cs) (cs.map (·.id)).length := by
      apply hac.within
      intro a b hab
      obtain ⟨c, hc, rfl, -⟩ := exists_of_pointer hab
      exact List.mem_map_of_mem hc
    simpa using hids
  obtain ⟨cs', hend, hsame, hflat, hlinks⟩ :=
    flatten_spec (R := SameSet ps cs) (fun _ _ _ => SameSet.trans) (cs.length + 1)
      (Link.supersede cs) fuel (hrs.keyed h.keyed) (within_supersede h.keyed hwithin) hfuel
      (h.supersede hd hok)
  exact ⟨cs', hend, hrs.trans hsame, h.of_sameRows (hrs.trans hsame) hlinks, hflat⟩

/-! ## Runs -/

structure Request where
  rows : List MappingRow
  verified : List (String × VerifiedAccount)
  options : LinkOptions
  deriving DecidableEq, Repr

variable [DecidableEq H] {uuids : UuidText} {fuel : Nat}

/-- The tables after a run; a run that fails changes nothing. -/
def runOnce (uuids : UuidText) (digest : Multiset (ActorType × String) → H) (fuel : Nat)
    (s : Tables H) (request : Request) : Tables H :=
  match linkIdentities uuids digest fuel s request.rows request.verified request.options with
  | .ok (s', _) => s'
  | .error _ => s

def commitsRekey (uuids : UuidText) (digest : Multiset (ActorType × String) → H) (fuel : Nat)
    (s : Tables H) (request : Request) : Bool :=
  (linkIdentities uuids digest fuel s request.rows request.verified request.options).isOk &&
    !request.options.dryRun && rekeys uuids s request.rows ≠ []

theorem ok_of_rekey (hok : ∀ p ∈ s.participants, ok p.id) (hmap : ∀ e ∈ map, ok e.newKey) :
    ∀ p ∈ (rewrite digest map s).participants, ok p.id := by
  intro p' hp'
  obtain ⟨p, hp, rfl⟩ := List.mem_map.mp hp'
  show ok (rekey map p.id)
  cases rekey_cases map p.id with
  | inl hent =>
    obtain ⟨e, he, -, hnew⟩ := hent
    rw [hnew]
    exact hmap e he
  | inr hsame =>
    rw [hsame.2]
    exact hok p hp

/-- The loop ends on the rewritten tables of a forest. -/
theorem Tables.Forest.flatten_rewrite (h : s.Forest digest) (hd : CollisionFree ok digest)
    (map : List Entry) (hok : ∀ p ∈ s.participants, ok p.id) (hmap : ∀ e ∈ map, ok e.newKey)
    (hfuel : s.conversations.length + 1 < fuel) :
    ∃ cs, flatten fuel (supersede (rewrite digest map s).conversations) = some cs ∧
      SameRows (rewrite digest map s).conversations cs ∧
      Grove digest (rewrite digest map s).participants cs ∧ Flat (pointer cs) := by
  have hrehash : (rewrite digest map s).conversations =
      rehash digest map (rewrite digest map s).participants s.conversations := rfl
  have hlen : (rewrite digest map s).conversations.length = s.conversations.length :=
    length_map _
  have hac : Acyclic (pointer (rewrite digest map s).conversations) := by
    rw [hrehash, pointer_rehash]
    exact h.acyclic
  have hgrove : Grove digest (rewrite digest map s).participants
      (rewrite digest map s).conversations := h.toGrove.rehash map
  rw [← hlen] at hfuel
  exact hgrove.flatten hd (ok_of_rekey hok hmap) hac hfuel

/-- The third step of a run keeps a forest, and makes it flat where it re-keys anything. -/
theorem Tables.Forest.of_rekeyTables (h : s.Forest digest) (hd : CollisionFree ok digest) {n : Nat}
    (hok : ∀ p ∈ s.participants, ok p.id) (hmap : ∀ e ∈ map, ok e.newKey)
    (hr : rekeyTables digest fuel map s = .ok (s', n)) (hfuel : s.conversations.length + 1 < fuel) :
    s'.Forest digest ∧ s'.conversations.length = s.conversations.length ∧
      (map ≠ [] → Flat (pointer s'.conversations)) := by
  cases rekeyTables_eq_ok hr with
  | inl hn =>
    obtain ⟨rfl, rfl⟩ := hn
    exact ⟨h, rfl, fun hne => absurd rfl hne⟩
  | inr hsome =>
    obtain ⟨-, -, hbroken, cs, hend, rfl⟩ := hsome
    obtain ⟨cs', hend', hrs, hgrove, hflat⟩ := h.flatten_rewrite hd map hok hmap hfuel
    obtain rfl : cs' = cs := Option.some.inj (hend'.symm.trans hend)
    have hlen : cs'.length = s.conversations.length :=
      hrs.length_eq.symm.trans (length_map _)
    refine ⟨⟨hgrove, hflat.acyclic, ?_⟩, hlen, fun _ => hflat⟩
    by_contra hdup
    unfold Tables.broken at hbroken
    rw [if_pos hdup] at hbroken
    cases hbroken

omit [DecidableEq H] in
theorem Mapped.ok_newKey {rows : List MappingRow} {pairs : List Pair}
    {verified : List (String × VerifiedAccount)}
    (hr : List.Forall₂ (fun row pair => toPair uuids verified s row = .ok pair) rows pairs)
    (h : Mapped s pairs map) (hrs : ∀ row ∈ rows, ok row.accountsUuid) :
    ∀ e ∈ map, ok e.newKey := by
  intro e he
  rw [h.entries] at he
  obtain ⟨pair, hpair, rfl⟩ := List.mem_map.mp he
  obtain ⟨row, hrow, htopair⟩ := forall₂_mem_right hr (mem_filter.mp hpair).1
  show ok pair.uuid
  rw [(toPair_eq_ok htopair).2]
  exact hrs row hrow

/-- One run: a forest stays one, flat pointers stay flat, and a committed re-key makes them
flat. -/
theorem Tables.Forest.runOnce (h : s.Forest digest) (hd : CollisionFree ok digest)
    (hfuel : s.conversations.length + 1 < fuel) (uuids : UuidText) (request : Request)
    (hok : ∀ p ∈ s.participants, ok p.id) (hrs : ∀ row ∈ request.rows, ok row.accountsUuid) :
    (runOnce uuids digest fuel s request).Forest digest ∧
      (Link.runOnce uuids digest fuel s request).conversations.length = s.conversations.length ∧
      (Flat (pointer s.conversations) ∨ commitsRekey uuids digest fuel s request = true →
        Flat (pointer (Link.runOnce uuids digest fuel s request).conversations)) := by
  unfold Link.runOnce commitsRekey
  split
  case h_2 herr =>
    rw [herr]
    exact ⟨h, rfl, fun hf => hf.resolve_right (by simp [Except.isOk, Except.toBool])⟩
  case h_1 s' report hrun =>
    obtain ⟨pairs, map, s₁, s₂, hran, rfl⟩ := ran_of_linkIdentities hrun
    cases hdry : request.options.dryRun with
    | true => exact ⟨h, rfl, fun hf => hf.resolve_right (by simp)⟩
    | false =>
      obtain ⟨n, hrek⟩ := hran.rekeyed
      obtain ⟨m, hrcd⟩ := hran.recorded
      obtain ⟨hfor, hlen, hflat⟩ :=
        h.of_rekeyTables hd hok (hran.mapped.ok_newKey hran.resolved hrs) hrek hfuel
      have hframe := frame_of_foldlM hrcd
      have hcs : s₂.conversations = s₁.conversations := by rw [hframe]
      have hps : s₂.participants = s₁.participants := by rw [hframe]
      simp only [Bool.false_eq_true, if_false, hcs]
      refine ⟨⟨?_, ?_, ?_⟩, hlen, ?_⟩
      · rw [hcs, hps]
        exact hfor.toGrove
      · rw [hcs]
        exact hfor.acyclic
      · rw [hcs]
        exact hfor.index
      · intro hcase
        by_cases hmap : map = []
        · -- nothing was re-keyed
          have hsame : s₁ = s := by
            cases rekeyTables_eq_ok hrek with
            | inl hn => exact hn.2
            | inr hsome => exact absurd hmap hsome.1
          have hno : rekeys uuids s request.rows = [] := by
            rw [rekeys_eq_map hran.resolved hran.mapped, hmap]
            rfl
          rw [hsame]
          exact hcase.resolve_right (by simp [hno])
        · exact hflat hmap

def runAll (uuids : UuidText) (digest : Multiset (ActorType × String) → H) (fuel : Nat)
    (s : Tables H) (requests : List Request) : Tables H :=
  requests.foldl (runOnce uuids digest fuel) s

/-- Direct conversations of two identities in three organizations, with their `superseded_by`. -/
def chainTables (links : List (Option Nat)) : Tables (Multiset (ActorType × String)) where
  links := []
  projections := []
  accounts := []
  authenticated := []
  anchors := ["tos", "lab", "hub"].flatMap fun o => [⟨o, .carbon, "c:ada"⟩, ⟨o, .carbon, "c:bob"⟩]
  participants := (["tos", "lab", "hub"].zipIdx 1).flatMap fun o =>
    [⟨o.2, o.1, .carbon, "c:ada"⟩, ⟨o.2, o.1, .carbon, "c:bob"⟩]
  conversations := ((["tos", "lab", "hub"].zipIdx 1).zip links).map fun o =>
    ⟨o.1.2, o.1.1, false, {(.carbon, "c:ada"), (.carbon, "c:bob")}, o.2, 0⟩
  deliveries := []
  streams := []
  cells := []

/-- The first points at the second, and that one at the third. -/
def chain : Tables (Multiset (ActorType × String)) :=
  chainTables [some 2, some 3, none]

theorem pointer_chain {a b : Nat} (h : pointer chain.conversations a = some b) : a < b := by
  obtain ⟨c, hc, rfl, hb⟩ := exists_of_pointer h
  have hall : ∀ c ∈ chain.conversations, c.supersededBy.all (c.id < ·) = true := by decide
  simpa [hb] using hall c hc

theorem chain_forest : chain.Forest id where
  keyed := by
    unfold Keyed
    decide
  links := by
    intro a b hab c hc ha hg
    have hall : ∀ c ∈ chain.conversations, ∀ t ∈ c.supersededBy,
        ∃ d ∈ chain.conversations, d.id = t ∧ d.isGroup = false ∧
          participantSet chain.participants t = participantSet chain.participants c.id := by
      decide
    have hk : Keyed Conversation.id chain.conversations := by
      unfold Keyed
      decide
    subst ha
    exact hall c hc b (by rw [← pointer_of_mem hk hc, hab]; rfl)
  hashes := by decide
  acyclic := by
    intro a ha
    have hlt : ∀ {x y : Nat},
        Relation.TransGen (fun x y => pointer chain.conversations x = some y) x y → x < y := by
      intro x y h
      induction h with
      | single h => exact pointer_chain h
      | tail _ h ih => exact lt_trans ih (pointer_chain h)
    exact lt_irrefl a (hlt ha)
  index := by decide

/-- After every sequence of runs from a forest, the loop of the next run ends and the tables
are a forest; they are a flat one if the first were flat or any run re-keyed anything. -/
theorem supersession_flat (uuids : UuidText) (digest : Multiset (ActorType × String) → H)
    (hd : Function.Injective digest) (s : Tables H) (hs : s.Forest digest) (fuel : Nat)
    (hfuel : s.conversations.length + 1 < fuel) (requests : List Request) :
    (∀ map, ∃ cs, flatten fuel
        (supersede (rewrite digest map (runAll uuids digest fuel s requests)).conversations) =
      some cs) ∧
      (runAll uuids digest fuel s requests).Forest digest ∧
      ((Flat (pointer s.conversations) ∨ ∃ pre request post, requests = pre ++ request :: post ∧
          commitsRekey uuids digest fuel (runAll uuids digest fuel s pre) request = true) →
        (runAll uuids digest fuel s requests).FlatForest) := by
  have hfree : CollisionFree (fun _ => True) digest := fun _ _ _ _ heq => hd heq
  -- along the runs, from the state before the first
  have hrun : (runAll uuids digest fuel s requests).Forest digest ∧
      (runAll uuids digest fuel s requests).conversations.length = s.conversations.length ∧
      ((Flat (pointer s.conversations) ∨ ∃ pre request post, requests = pre ++ request :: post ∧
          commitsRekey uuids digest fuel (runAll uuids digest fuel s pre) request = true) →
        Flat (pointer (runAll uuids digest fuel s requests).conversations)) := by
    induction requests generalizing s with
    | nil => exact ⟨hs, rfl, fun hf => hf.resolve_right (by simp)⟩
    | cons request requests ih =>
      obtain ⟨hforest, hlen, hflat⟩ := hs.runOnce hfree hfuel uuids request
        (fun _ _ => trivial) (fun _ _ => trivial)
      obtain ⟨hforest', hlen', hflat'⟩ := ih _ hforest (by omega)
      refine ⟨hforest', hlen'.trans hlen, ?_⟩
      intro hcase
      apply hflat'
      cases hcase with
      | inl hf => exact .inl (hflat (.inl hf))
      | inr hex =>
        obtain ⟨pre, r, post, heq, hr⟩ := hex
        cases pre with
        | nil =>
          obtain ⟨rfl, rfl⟩ := List.cons.inj heq
          exact .inl (hflat (.inr hr))
        | cons q pre =>
          obtain ⟨rfl, rfl⟩ := List.cons.inj heq
          exact .inr ⟨pre, r, post, rfl, hr⟩
  obtain ⟨hforest, hlen, hflat⟩ := hrun
  refine ⟨fun map => ?_, hforest, fun hcase => hforest.flatForest (hflat hcase)⟩
  rw [← hlen] at hfuel
  obtain ⟨cs, hend, -⟩ := hforest.flatten_rewrite hfree map (fun _ _ => trivial)
    (fun _ _ => trivial) hfuel
  exact ⟨cs, hend⟩

/-- A chain is flat after one of its identities was linked. -/
theorem supersession_flat_chain :
    (runAll adaUuids id 5 chain [⟨[⟨1, "c:ada", "a8K"⟩], [], adaOptions⟩]).FlatForest ∧
      pointer (runAll adaUuids id 5 chain
        [⟨[⟨1, "c:ada", "a8K"⟩], [], adaOptions⟩]).conversations 1 = some 3 := by
  refine ⟨(supersession_flat adaUuids id Function.injective_id chain chain_forest 5 (by decide)
    _).2.2 (.inr ⟨[], _, [], rfl, ?_⟩), ?_⟩
  · decide +kernel
  · decide +kernel

/-- A run that re-keys nothing leaves a chain as it is: the first conversation points at one
that is itself superseded. -/
theorem supersession_chain_kept :
    chain.Forest id ∧ Acyclic (pointer chain.conversations) ∧
      (linkIdentities adaUuids id 5 chain [] [] adaOptions).isOk ∧
      ¬ (runAll adaUuids id 5 chain [⟨[], [], adaOptions⟩]).FlatForest := by
  refine ⟨chain_forest, chain_forest.acyclic, by decide, ?_⟩
  intro hflat
  have hsame : runAll adaUuids id 5 chain [⟨[], [], adaOptions⟩] = chain := by decide +kernel
  rw [hsame] at hflat
  obtain ⟨d, hd, hid, hcan, -⟩ := hflat.direct
    ⟨1, "tos", false, {(.carbon, "c:ada"), (.carbon, "c:bob")}, some 2, 0⟩ (by decide) rfl 2 rfl
  have hno : ∀ d ∈ chain.conversations, d.id = 2 → d.isCanonical = false := by decide
  simp [hno d hd hid] at hcan

end SiliconDm.Link
