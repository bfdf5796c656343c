import SiliconDm.Link.CanonicalCalls

/-!
# Runs of calls and re-keys

Between the transactions of the callers, `link-identities` rewrites the participants of direct
conversations. It keeps the canonical conversations apart, but a record of an earlier call keeps
naming the conversation it was made with, whose participants may have become others.
-/

namespace SiliconDm.Link

open Base List
open Server (ActorType)

variable {H : Type} [DecidableEq H] {cs cs' : List (Conversation H)} {s : Tables H}
  {uuids : UuidText} {digest : Multiset (ActorType × String) → H} {fuel : Nat}

/-! ## What a run does to direct conversations -/

omit [DecidableEq H] in
/-- `FLATTEN` makes and breaks no link. -/
theorem pointer_flatten_eq_none (h : flatten fuel cs = some cs') (a : Nat) :
    pointer cs' a = none ↔ pointer cs a = none := by
  induction fuel generalizing cs with
  | zero => cases h
  | succ fuel ih =>
    rw [flatten] at h
    split at h
    · rw [ih h, pointer_flattenRound, jump_eq_none_iff]
    · rw [Option.some.inj h]

/-- `SUPERSEDE` breaks no link. -/
theorem pointer_eq_none_of_supersede {a : Nat} (h : pointer (supersede cs) a = none) :
    pointer cs a = none := by
  have hp : pointer (supersede cs) a = (getRow Conversation.id cs a).bind
      fun c => c.supersededBy.or (successor cs c) := pointer_map a
  rw [hp] at h
  unfold pointer
  cases hr : getRow Conversation.id cs a with
  | none => rfl
  | some c =>
    rw [hr] at h
    exact (Option.or_eq_none_iff.mp h).1

/-- A run leaves the direct conversations, or rewrites them through its map. -/
theorem runOnce_cases (uuids : UuidText) (digest : Multiset (ActorType × String) → H)
    (fuel : Nat) (s : Tables H) (request : Request) :
    ((runOnce uuids digest fuel s request).participants = s.participants ∧
      (runOnce uuids digest fuel s request).conversations = s.conversations) ∨
    ∃ map cs, commitsRekey uuids digest fuel s request = true ∧
      rekeys uuids s request.rows = map.map (fun e => (e.oldKey, e.newKey)) ∧
      (rewrite digest map s).duplicate = none ∧
      flatten fuel (supersede (rewrite digest map s).conversations) = some cs ∧
      (runOnce uuids digest fuel s request).participants = (rewrite digest map s).participants ∧
      (runOnce uuids digest fuel s request).conversations = cs := by
  unfold runOnce commitsRekey
  split
  case h_2 => exact .inl ⟨rfl, rfl⟩
  case h_1 s' report hrun =>
    obtain ⟨pairs, map, s₁, s₂, hran, rfl⟩ := ran_of_linkIdentities hrun
    cases hdry : request.options.dryRun with
    | true => exact .inl ⟨rfl, rfl⟩
    | false =>
      obtain ⟨n, hrek⟩ := hran.rekeyed
      obtain ⟨m, hrcd⟩ := hran.recorded
      have hframe := frame_of_foldlM hrcd
      have hcs : s₂.conversations = s₁.conversations := by rw [hframe]
      have hps : s₂.participants = s₁.participants := by rw [hframe]
      simp only [Bool.false_eq_true, if_false, hcs, hps]
      cases rekeyTables_eq_ok hrek with
      | inl hn =>
        rw [hn.2]
        exact .inl ⟨rfl, rfl⟩
      | inr hsome =>
        obtain ⟨hne, hdup, -, cs, hend, rfl⟩ := hsome
        have hkeys := rekeys_eq_map hran.resolved hran.mapped
        refine .inr ⟨map, cs, ?_, hkeys, hdup, hend, rfl, rfl⟩
        rw [hrun, hkeys]
        simpa [Except.isOk, Except.toBool] using hne

omit [DecidableEq H] in
/-- A new key is the account of a row. -/
theorem exists_row_of_mem_rekeys {rows : List MappingRow} {k : String × String}
    (h : k ∈ rekeys uuids s rows) : ∃ row ∈ rows, k.2 = row.accountsUuid := by
  obtain ⟨row, hrow, hk⟩ := mem_filterMap.mp h
  obtain ⟨r, -, hr⟩ := Option.bind_eq_some_iff.mp hk
  split at hr
  case isTrue => cases hr
  case isFalse => exact ⟨row, hrow, by rw [← Option.some.inj hr]⟩

namespace Canonical

variable {R : Type} {e : Hashing H R} {id : Nat} {names : List (ActorType × String)}

def relinked (e : Hashing H R) (uuids : UuidText) (s : Tables H) (run : LinkRun) : Tables H :=
  runOnce uuids (rowsHash e.sha256) (s.conversations.length + 2) s run.request

/-- What a run does to sound tables: nothing to direct conversations, or a rewrite whose keys
are those of the run and whose links are the old ones and more. -/
theorem Directs.relinked_cases (h : Directs e s) (hsha : Function.Injective e.sha256)
    (uuids : UuidText) (run : LinkRun) :
    ((relinked e uuids s run).participants = s.participants ∧
      (relinked e uuids s run).conversations = s.conversations) ∨
    ∃ map, commitsRekey uuids (rowsHash e.sha256) (s.conversations.length + 2) s run.request =
        true ∧
      rekeys uuids s run.request.rows = map.map (fun e => (e.oldKey, e.newKey)) ∧
      (∀ entry ∈ map, Fits entry.newKey) ∧ (rewrite (rowsHash e.sha256) map s).duplicate = none ∧
      (relinked e uuids s run).participants = (rewrite (rowsHash e.sha256) map s).participants ∧
      SameRows (rewrite (rowsHash e.sha256) map s).conversations
        (relinked e uuids s run).conversations ∧
      (∀ a, pointer (relinked e uuids s run).conversations a = none →
        pointer s.conversations a = none) ∧
      Flat (pointer (relinked e uuids s run).conversations) := by
  rcases runOnce_cases uuids (rowsHash e.sha256) (s.conversations.length + 2) s run.request with
    hsame | ⟨map, cs, hcms, hkeys, hdup, hend, hps, hcs⟩
  · exact .inl hsame
  · have hmap : ∀ entry ∈ map, Fits entry.newKey := by
      intro entry hent
      obtain ⟨row, hr, hk⟩ := exists_row_of_mem_rekeys (k := (entry.oldKey, entry.newKey))
        (by rw [hkeys]; exact List.mem_map_of_mem hent)
      show Fits (entry.oldKey, entry.newKey).2
      rw [hk]
      exact run.fits row hr
    obtain ⟨cs', hend', hrs, -, hflat⟩ :=
      h.forest.flatten_rewrite (collisionFree_rowsHash hsha) map h.fits hmap
        (Nat.lt_succ_self (s.conversations.length + 1))
    obtain rfl : cs' = cs := Option.some.inj (hend'.symm.trans hend)
    have hconv : (relinked e uuids s run).conversations = cs' := hcs
    refine .inr ⟨map, hcms, hkeys, hmap, hdup, hps, ?_, ?_, ?_⟩
    · rw [hconv]
      exact hrs
    · intro a ha
      rw [hconv, pointer_flatten_eq_none hend] at ha
      have hn := pointer_eq_none_of_supersede ha
      rwa [show (rewrite (rowsHash e.sha256) map s).conversations =
        rehash _ map _ s.conversations from rfl, pointer_rehash] at hn
    · rw [hconv]
      exact hflat

/-- A run keeps the tables sound. -/
theorem Directs.relinked (h : Directs e s) (hsha : Function.Injective e.sha256)
    (uuids : UuidText) (run : LinkRun) : Directs e (relinked e uuids s run) := by
  rcases h.relinked_cases hsha uuids run with
    ⟨hps, hcs⟩ | ⟨map, -, -, hmap, hdup, hps, hrs, -, -⟩
  · exact h.congr hcs hps
  · refine ⟨(h.forest.runOnce (collisionFree_rowsHash hsha)
      (Nat.lt_succ_self (s.conversations.length + 1)) uuids run.request h.fits run.fits).1,
      ?_, ?_, ?_⟩
    · rw [hps]
      exact ok_of_rekey h.fits hmap
    · rw [hps]
      by_contra hnd
      unfold Tables.duplicate at hdup
      rw [if_pos hnd] at hdup
      cases hdup
    · intro p' hp'
      rw [hps] at hp'
      obtain ⟨p, hp, rfl⟩ := List.mem_map.mp hp'
      obtain ⟨row, hr, hid⟩ := h.owned p hp
      obtain ⟨row', hr', heq⟩ := hrs.mem' (List.mem_map_of_mem hr)
      refine ⟨row', hr', ?_⟩
      rw [heq]
      split <;> exact hid

/-- A canonical conversation none of whose participants a run re-keys, from or to, stays the
canonical conversation of its participants. -/
theorem Names.relinked (hn : Names s id names) (h : Directs e s)
    (hsha : Function.Injective e.sha256) (uuids : UuidText) (run : LinkRun)
    (hclear : commitsRekey uuids (rowsHash e.sha256) (s.conversations.length + 2) s run.request =
      true → ∀ a ∈ names, ∀ k ∈ rekeys uuids s run.request.rows, k.1 ≠ a.2 ∧ k.2 ≠ a.2) :
    Names (relinked e uuids s run) id names := by
  rcases h.relinked_cases hsha uuids run with
    ⟨hps, hcs⟩ | ⟨map, hcms, hkeys, -, -, hps, hrs, hlinks, hflat⟩
  · exact hn.grows (.of_eq hcs hps)
  · obtain ⟨row, hr, rfl, hcan, hset⟩ := hn
    have hfor := (h.relinked hsha uuids run).forest
    have hclear : ∀ a ∈ names, ∀ entry ∈ map, entry.oldKey ≠ a.2 ∧ entry.newKey ≠ a.2 := by
      intro a ha entry hent
      refine hclear hcms a ha (entry.oldKey, entry.newKey) ?_
      rw [hkeys]
      exact List.mem_map_of_mem hent
    have hsets : ∀ a, participantSet (Canonical.relinked e uuids s run).participants a =
        (participantSet s.participants a).map fun a => (a.1, rekey map a.2) := by
      intro a
      rw [hps]
      exact participantSet_rekey map s.participants a
    have hrowset : participantSet (Canonical.relinked e uuids s run).participants row.id =
        (names : Multiset _) := by
      rw [hsets, hset]
      refine map_rekey_eq_self fun a ha => ?_
      cases rekey_cases map a.2 with
      | inl hent =>
        obtain ⟨entry, hent, hold, -⟩ := hent
        exact absurd hold (hclear a (Multiset.mem_coe.mp ha) entry hent).1
      | inr hsame => exact hsame.2
    obtain ⟨row', hr', heq⟩ := hrs.mem' (List.mem_map_of_mem hr)
    have hid : row'.id = row.id := by
      rw [heq]
      split <;> rfl
    have hdir : row'.isGroup = false := by
      rw [heq]
      split <;> exact (isCanonical_iff.mp hcan).1
    refine ⟨row', hr', hid, isCanonical_iff.mpr ⟨hdir, ?_⟩, hrowset⟩
    cases hsup : row'.supersededBy with
    | none => rfl
    | some b =>
      -- a canonical conversation with these participants now had them before
      obtain ⟨target, htgt, -, htcan, htset⟩ :=
        (hfor.flatForest hflat).direct row' hr' hdir b hsup
      obtain ⟨middle, hmiddle, hteq⟩ := hrs.mem htgt
      obtain ⟨old, hold, hmeq, -⟩ := mem_rehash hmiddle
      have hoid : target.id = old.id := by rw [hteq, hmeq]
      have hocan : old.isCanonical = true := by
        rw [isCanonical_iff, ← pointer_of_mem h.forest.keyed hold, ← hoid]
        refine ⟨?_, hlinks _ ?_⟩
        · rw [show old.isGroup = target.isGroup by rw [hteq, hmeq]]
          exact (isCanonical_iff.mp htcan).1
        · rw [pointer_of_mem hfor.keyed htgt]
          exact (isCanonical_iff.mp htcan).2
      have hoset : participantSet s.participants old.id = (names : Multiset _) := by
        rw [hoid, hid, hrowset, hsets] at htset
        refine Eq.trans (map_rekey_eq_self fun a ha => ?_).symm htset
        have hm : (a.1, rekey map a.2) ∈ (names : Multiset _) := by
          rw [← htset]
          exact Multiset.mem_map_of_mem _ ha
        cases rekey_cases map a.2 with
        | inr hsame => exact hsame.2
        | inl hent =>
          obtain ⟨entry, hent, -, hnew⟩ := hent
          exact absurd hnew.symm (hclear _ (Multiset.mem_coe.mp hm) entry hent).2
      obtain rfl : old = row := by
        apply inj_on_of_nodup_map h.forest.index (mem_filter.mpr ⟨hold, hocan⟩)
          (mem_filter.mpr ⟨hr, hcan⟩)
        rw [h.forest.hashes old hold (isCanonical_iff.mp hocan).1,
          h.forest.hashes row hr (isCanonical_iff.mp hcan).1, hoset, hset]
      obtain rfl := hfor.keyed.unique htgt hr' (hoid.trans hid.symm)
      exact absurd hsup (by simp [(isCanonical_iff.mp htcan).2])

/-! ## Steps between transactions -/

variable {strict : Prop} {d : Store H R}

/-- No record names a conversation with a participant under a key that the run changes, from or
to. -/
def clear (e : Hashing H R) (uuids : UuidText) (d : Store H R) (run : LinkRun) : Bool :=
  d.records.all fun r => r.resource.all fun id => d.tables.participants.all fun p =>
    p.conversation ≠ id || (run.rekeys e uuids d).all fun k => k.1 ≠ p.id && k.2 ≠ p.id

theorem clear_iff {run : LinkRun} : clear e uuids d run = true ↔
    ∀ r ∈ d.records, ∀ id ∈ r.resource, ∀ p ∈ d.tables.participants, p.conversation = id →
      ∀ k ∈ run.rekeys e uuids d, k.1 ≠ p.id ∧ k.2 ≠ p.id := by
  simp only [clear, List.all_eq_true, Option.all_eq_true, Bool.or_eq_true, decide_eq_true_eq,
    Bool.and_eq_true, Option.mem_def, ne_eq, imp_iff_not_or]

omit [DecidableEq H] in
theorem Names.exists_participant {s : Tables H} (h : Names s id names) {a : ActorType × String}
    (ha : a ∈ names) : ∃ p ∈ s.participants, p.conversation = id ∧ (p.kind, p.id) = a := by
  obtain ⟨row, -, -, -, hset⟩ := h
  have hm : a ∈ participantSet s.participants id := by
    rw [hset]
    exact Multiset.mem_coe.mpr ha
  obtain ⟨p, hp, heq⟩ := List.mem_map.mp (Multiset.mem_coe.mp hm)
  obtain ⟨hp, hid⟩ := mem_filter.mp hp
  exact ⟨p, hp, of_decide_eq_true hid, heq⟩

/-- A run of `link-identities` keeps the store sound, and in a strict run the records too. -/
theorem Sound.linked (hd : Sound e strict d) (hsha : Function.Injective e.sha256)
    (uuids : UuidText) (run : LinkRun) (hclear : strict → clear e uuids d run = true) :
    Sound e strict (linked e uuids d run) := by
  unfold Canonical.linked
  dsimp only
  split
  case isFalse => exact hd
  case isTrue hnd =>
    refine ⟨hd.directs.relinked hsha uuids run, hnd, ?_, ?_⟩
    · intro r' hr'
      obtain ⟨r, hr, rfl⟩ := List.mem_map.mp hr'
      exact hd.completed r hr
    · intro hstrc r' hr'
      obtain ⟨r, hr, rfl⟩ := List.mem_map.mp hr'
      obtain ⟨names, hhash, hac, hns⟩ := hd.faithful hstrc r hr
      have hkeys : ∀ a ∈ names, ∀ k ∈ run.rekeys e uuids d, k.1 ≠ a.2 ∧ k.2 ≠ a.2 := by
        intro a ha k hk
        obtain ⟨id, hid⟩ := Option.isSome_iff_exists.mp (hd.completed r hr)
        obtain ⟨p, hp, hconv, rfl⟩ := (hns id hid).exists_participant ha
        exact clear_iff.mp (hclear hstrc) r hr id hid p hp hconv k hk
      refine ⟨names, hhash, ?_, ?_⟩
      · -- the actor of the record is one of them
        have hn : (run.rekeys e uuids d).lookup r.key.actor.2 = none := by
          rw [lookup_eq_none_iff]
          intro k hk
          simpa using (hkeys _ hac k hk).1.symm
        rw [hn]
        exact hac
      · intro id hid
        refine (hns id hid).relinked hd.directs hsha uuids run fun hcms a ha k hk => ?_
        refine hkeys a ha k ?_
        rw [LinkRun.rekeys, if_pos hcms]
        exact hk

section

variable {s' : Tables H}

theorem sameDirects_iff : sameDirects s s' = true ↔ s'.participants = s.participants ∧
    s'.conversations.map inactive = s.conversations.map inactive := by
  simp [sameDirects]

omit [DecidableEq H] in
theorem pointer_inactive (cs : List (Conversation H)) : pointer (cs.map inactive) = pointer cs := by
  funext a
  unfold pointer
  rw [getRow_map (by intro c; rfl)]
  cases getRow Conversation.id cs a <;> rfl

omit [DecidableEq H] in
/-- Rows that differ in activity only. -/
theorem mem_of_map_inactive (h : cs'.map inactive = cs.map inactive) {c : Conversation H}
    (hc : c ∈ cs') : ∃ c₀ ∈ cs, c = { c₀ with updatedAt := c.updatedAt } := by
  have hm : inactive c ∈ cs.map inactive := by
    rw [← h]
    exact List.mem_map_of_mem hc
  obtain ⟨c₀, hc₀, heq⟩ := List.mem_map.mp hm
  refine ⟨c₀, hc₀, ?_⟩
  simp only [inactive, Conversation.mk.injEq] at heq
  cases c
  cases c₀
  simp_all

theorem Directs.other (h : Directs e s) (hsame : sameDirects s s' = true) : Directs e s' := by
  obtain ⟨hps, hcs⟩ := sameDirects_iff.mp hsame
  have hpointer : pointer s'.conversations = pointer s.conversations := by
    rw [← pointer_inactive, hcs, pointer_inactive]
  have hback := fun {c} hc => mem_of_map_inactive (c := c) hcs.symm hc
  refine ⟨⟨⟨?_, ?_, ?_⟩, ?_, ?_⟩, ?_, ?_, ?_⟩
  · have hids : s'.conversations.map (·.id) = s.conversations.map (·.id) := by
      have := congrArg (List.map Conversation.id) hcs
      simpa [inactive, Function.comp_def] using this
    unfold Keyed
    rw [hids]
    exact h.forest.keyed
  · rw [hpointer]
    intro a b hab c hc ha hg
    obtain ⟨c₀, hc₀, heq⟩ := mem_of_map_inactive hcs hc
    rw [heq] at ha hg
    obtain ⟨t₀, ht₀, hb, htg, hset⟩ := h.forest.links a b hab c₀ hc₀ ha hg
    obtain ⟨t, ht, hteq⟩ := hback ht₀
    rw [hteq] at hb htg
    exact ⟨t, ht, hb, htg, by rw [hps]; exact hset⟩
  · intro c hc hg
    obtain ⟨c₀, hc₀, heq⟩ := mem_of_map_inactive hcs hc
    rw [heq] at hg ⊢
    rw [hps]
    exact h.forest.hashes c₀ hc₀ hg
  · rw [hpointer]
    exact h.forest.acyclic
  · have hindex : ∀ cs : List (Conversation H),
        ((cs.map inactive).filter (·.isCanonical)).map (·.setHash) =
          (cs.filter (·.isCanonical)).map (·.setHash) := by
      intro cs
      rw [List.filter_map, List.map_map]
      rfl
    rw [← hindex, hcs, hindex]
    exact h.forest.index
  · rw [hps]
    exact h.fits
  · rw [hps]
    exact h.distinct
  · intro p hp
    rw [hps] at hp
    obtain ⟨c₀, hc₀, hid⟩ := h.owned p hp
    obtain ⟨c, hc, heq⟩ := hback hc₀
    rw [heq] at hid
    exact ⟨c, hc, hid⟩

theorem Names.other (h : Names s id names) (hsame : sameDirects s s' = true) :
    Names s' id names := by
  obtain ⟨hps, hcs⟩ := sameDirects_iff.mp hsame
  obtain ⟨c₀, hc₀, hid, hcan, hset⟩ := h
  obtain ⟨c, hc, heq⟩ := mem_of_map_inactive hcs.symm hc₀
  rw [heq] at hid hcan
  exact ⟨c, hc, hid, hcan, by rw [hps]; exact hset⟩

theorem Fresh.other {c : Call} (h : Fresh e s c) (hsame : sameDirects s s' = true) :
    Fresh e s' c := by
  intro row hr
  obtain ⟨row₀, hr₀, heq⟩ := mem_of_map_inactive (sameDirects_iff.mp hsame).2 hr
  have hfr := h row₀ hr₀
  rw [heq]
  exact hfr

theorem Sound.other (h : Sound e strict d) (hsame : sameDirects d.tables s' = true) :
    Sound e strict { d with tables := s' } where
  directs := h.directs.other hsame
  keyed := h.keyed
  completed := h.completed
  faithful := by
    intro hstrc r hr
    obtain ⟨names, hhash, hac, hns⟩ := h.faithful hstrc r hr
    exact ⟨names, hhash, hac, fun id hid => (hns id hid).other hsame⟩

/-- Activity changes nothing an open transaction relies on. -/
theorem Asserts.other {t : Transaction (Store H R) Statement Unit (Write H R) (Lock H) Task}
    (h : Asserts e strict d t) (hsame : sameDirects d.tables s' = true) :
    Asserts e strict { d with tables := s' } t := by
  cases htask : t.task with
  | call c hc =>
    simp only [Asserts, htask] at h ⊢
    refine ⟨h.1, h.2.mono (fun _ _ hns => hns.other hsame) ?_ fun _ _ hf => hf.other hsame⟩
    intro row hr hcan
    obtain ⟨row', hr', heq⟩ := mem_of_map_inactive (sameDirects_iff.mp hsame).2.symm hr
    rw [heq] at hcan ⊢
    exact ⟨row', hr', hcan, rfl⟩
  | forget key => simpa only [Asserts, htask] using h

end

/-! ## The service and its operator -/

variable [DecidableEq R]

/-- Every interleaving of calls and runs, from sound tables that nobody uses yet. -/
def directs (e : Hashing H R) (uuids : UuidText) : System (State H R) (Label H) where
  init s := ∃ d, Sound e True d ∧ s = Sessions.boot d
  step := step e uuids

/-- The condition on a step: a re-key that is clear of the recorded conversations. -/
def keepsRecords (e : Hashing H R) (uuids : UuidText) (s : State H R) : Label H → Bool
  | .link run => clear e uuids s.committed run
  | _ => true

structure Inv (e : Hashing H R) (strict : Prop) (s : State H R) : Prop
    extends (language e).Supervised (fun _ _ => true) (Sound e strict) (Asserts e strict) s where
  untried : (language e).Untried s

/-- Between transactions the committed store may become one that keeps the assertions. -/
theorem Inv.recommit {s : State H R} (h : Inv e strict s) (hd : Sound e strict d)
    (ht : ∀ t ∈ s.active, Asserts e strict d t) : Inv e strict { s with committed := d } where
  orderly := ⟨h.orderly.below, h.orderly.covered, h.orderly.exclusive⟩
  compatible := h.compatible
  committed := hd
  transaction := ht
  untried := h.untried

variable {l : Label H}

theorem Inv.step {s s' : State H R} (h : Inv e strict s) (hsha : Function.Injective e.sha256)
    (hreq : Function.Injective e.request) (hc : strict → keepsRecords e uuids s l = true)
    (hs : Canonical.step e uuids s l = some s') : Inv e strict s' := by
  cases l with
  | session action =>
    refine ⟨h.toSupervised.step (relyGuarantee hsha hreq) ?_ hs, h.untried.step hs⟩
    cases action <;> simp [Language.supervised]
  | link run =>
    simp only [Canonical.step] at hs
    split at hs
    case isFalse => cases hs
    case isTrue hviews =>
      cases hs
      have hsd := h.committed.linked hsha uuids run hc
      refine h.recommit hsd fun t ht => ?_
      have hopn := h.untried t ht (by simpa using List.all_eq_true.mp hviews t ht)
      rw [hopn]
      exact (relyGuarantee hsha hreq).start _ _ _ hsd
  | other tables =>
    simp only [Canonical.step] at hs
    split at hs
    case isFalse => cases hs
    case isTrue hsame =>
      cases hs
      exact h.recommit (h.committed.other hsame) fun t ht => (h.transaction t ht).other hsame

theorem inv_of_reachableWhile {s : State H R} {C : State H R → Label H → Prop}
    (hsha : Function.Injective e.sha256) (hreq : Function.Injective e.request)
    (hs : (directs e uuids).ReachableWhile C s)
    (hC : ∀ s l, C s l → strict → keepsRecords e uuids s l = true) : Inv e strict s := by
  apply hs.invariant
  · rintro s ⟨d, hd, rfl⟩
    refine ⟨.boot ⟨hd.directs, hd.keyed, hd.completed, fun _ => hd.faithful trivial⟩, ?_⟩
    intro t ht
    cases ht
  · intro s l s' hs hc hl
    exact hs.step hsha hreq (hC s l hc) hl

omit [DecidableEq H] [DecidableEq R] in
/-- In sound tables two canonical conversations with the same participants are one. -/
theorem Directs.unique (h : Directs e s) {c c' : Conversation H} (hc : c ∈ s.conversations)
    (hc' : c' ∈ s.conversations) (hcan : c.isCanonical = true) (hcan' : c'.isCanonical = true)
    (hsame : ∀ a, a ∈ participantSet s.participants c.id ↔
      a ∈ participantSet s.participants c'.id) : c = c' := by
  have hnd : ∀ id, (participantSet s.participants id).Nodup := by
    intro id
    rw [participantSet, Multiset.coe_nodup]
    apply List.Nodup.of_map (Prod.mk id)
    have hsub := List.Nodup.sublist ((filter_sublist (l := s.participants)
      (p := fun p => p.conversation = id)).map fun p => (p.conversation, p.kind, p.id)) h.distinct
    rw [List.map_map]
    convert hsub using 1
    apply map_congr_left
    intro p hp
    rw [← of_decide_eq_true (mem_filter.mp hp).2]
    rfl
  apply inj_on_of_nodup_map h.forest.index (mem_filter.mpr ⟨hc, hcan⟩)
    (mem_filter.mpr ⟨hc', hcan'⟩)
  rw [h.forest.hashes c hc (isCanonical_iff.mp hcan).1,
    h.forest.hashes c' hc' (isCanonical_iff.mp hcan').1,
    (Multiset.Nodup.ext (hnd c.id) (hnd c'.id)).mpr hsame]

/-- The answer a step gives is the canonical conversation of the names. -/
theorem Inv.answer {s s' : State H R} {a : Answer} (h : Inv e True s)
    (hs : Canonical.step e uuids s l = some s')
    (ha : s'.committed.answers = s.committed.answers ++ [a]) :
    Names s'.committed.tables a.conversation a.call.participants := by
  have hsame : s'.committed.answers ≠ s.committed.answers := by
    rw [ha]
    simp
  cases l with
  | session action =>
    rcases Language.committed_of_step hs with heq | ⟨t, ht, -, -, htodo, -, rfl⟩
    · exact absurd (congrArg Store.answers heq) hsame
    · obtain ⟨-, -, hans⟩ := (h.transaction t ht).commit h.committed htodo
      refine hans a ?_ trivial
      have hview := (view_answers e s.committed t.writes).symm.trans ha
      rw [append_cancel_left hview]
      exact mem_singleton_self a
  | link run =>
    simp only [Canonical.step] at hs
    split at hs
    case isFalse => cases hs
    case isTrue =>
      cases hs
      refine absurd ?_ hsame
      show (linked e uuids s.committed run).answers = _
      unfold linked
      dsimp only
      split <;> rfl
  | other tables =>
    simp only [Canonical.step] at hs
    split at hs
    case isFalse => cases hs
    case isTrue =>
      cases hs
      exact absurd rfl hsame

/-- The bytes the service and the re-key hash determine the participant set and agree. In every
run no two canonical direct conversations have the same participants, and a call fails only as
`Refused` says. In every run whose re-keys are clear of the recorded conversations, every answer
is the canonical conversation of the names, in any order and with any repetitions. -/
theorem one_canonical_direct (e : Hashing H R) (hsha : Function.Injective e.sha256)
    (hreq : Function.Injective e.request) (uuids : UuidText) :
    (∀ l l' : List (ActorType × String), (∀ a ∈ l, Fits a.2) → (∀ a ∈ l', Fits a.2) →
      (preimage (canonicalize l) = preimage (canonicalize l') ↔ ∀ a, a ∈ l ↔ a ∈ l')) ∧
    (∀ (rows : Multiset (ActorType × String)) (l : List (ActorType × String)),
      rows.Nodup → (∀ a ∈ l, Fits a.2) → (∀ a, a ∈ rows ↔ a ∈ l) →
        sqlPreimage rows = preimage (canonicalize l)) ∧
    (∀ s, (directs e uuids).Reachable s →
      (∀ c ∈ s.committed.tables.conversations, ∀ c' ∈ s.committed.tables.conversations,
        c.isCanonical = true → c'.isCanonical = true →
        (∀ a, a ∈ participantSet s.committed.tables.participants c.id ↔
          a ∈ participantSet s.committed.tables.participants c'.id) → c = c') ∧
      ∀ t ∈ s.active, ∀ c hc, t.task = .call c hc → ∀ stmt rest, t.todo = stmt :: rest →
        stmt.exec e ((language e).view s.committed t) = none →
          Refused e s.committed c stmt) ∧
    (∀ s, (directs e uuids).ReachableWhile (fun s l => keepsRecords e uuids s l = true) s →
      ∀ l s' a, keepsRecords e uuids s l = true → (directs e uuids).step s l = some s' →
        s'.committed.answers = s.committed.answers ++ [a] →
        ∃ c ∈ s'.committed.tables.conversations, c.id = a.conversation ∧ c.isCanonical = true ∧
          ∀ x, x ∈ participantSet s'.committed.tables.participants c.id ↔ x ∈ a.call.names) := by
  refine ⟨fun l l' hl hl' => ⟨fun h => ?_, fun h => ?_⟩, fun rows l hn hl h => ?_, fun s hs => ?_,
    fun s hs l s' a _ hl ha => ?_⟩
  · rw [← canonicalize_eq_iff]
    exact preimage_inj (fun a ha => hl a (mem_canonicalize.mp ha))
      (fun a ha => hl' a (mem_canonicalize.mp ha)) h
  · rw [canonicalize_eq_iff.mpr h]
  · rw [sqlPreimage_eq fun a ha => hl a ((h a).mp ha), ordered_eq_canonicalize hn h]
  · have hinv : Inv e False s := inv_of_reachableWhile hsha hreq hs fun _ _ _ => False.elim
    refine ⟨fun c hc c' hc' => hinv.committed.directs.unique hc hc', ?_⟩
    intro t ht c hc htask stmt rest htodo ho
    have hasserts := hinv.transaction t ht
    simp only [Asserts, htask, htodo] at hasserts
    exact hasserts.2.refused hinv.committed ho
  · have hinv : Inv e True s := inv_of_reachableWhile hsha hreq hs fun _ _ hc _ => hc
    obtain ⟨c, hc, hid, hcan, hset⟩ := hinv.answer hl ha
    refine ⟨c, hc, hid, hcan, fun x => ?_⟩
    rw [hid, hset, Multiset.mem_coe]
    exact mem_canonicalize

/-- Hashes that keep what they are given. -/
def plain : Hashing (List UInt8) (List (ActorType × String)) :=
  ⟨fun bytes => bytes, fun names => names⟩

def ada : ActorType × String := (.carbon, "a8K")

def bea : ActorType × String := (.carbon, "b3V")

def cyd : ActorType × String := (.carbon, "c5Q")

/-- Ada's identity of the old directory is linked, and there is no conversation yet. -/
def linkedAda : Store (List UInt8) (List (ActorType × String)) where
  tables :=
    { links := [adaLink], projections := [], accounts := [], authenticated := [], anchors := []
      participants := [], conversations := [], deliveries := [], streams := [], cells := [] }
  records := []
  answers := []

theorem linkedAda_initial : (directs plain adaUuids).init (Sessions.boot linkedAda) := by
  refine ⟨linkedAda, ⟨⟨⟨⟨nodup_nil, ?_, by simp [linkedAda]⟩, ?_, nodup_nil⟩,
    by simp [linkedAda], nodup_nil, by simp [linkedAda]⟩, nodup_nil,
    by simp [linkedAda], by simp [linkedAda]⟩, rfl⟩
  · intro a b hab
    cases hab
  · intro a ha
    obtain ⟨b, hab, -⟩ := Relation.TransGen.head'_iff.mp ha
    cases hab

/-- Bea writes to Ada: a call whose key is made of the two ids. -/
def beaToAda (candidate : Nat) : Call :=
  .create bea [ada, bea, ada] "recipient-chat" candidate 0

theorem beaToAda_fits (candidate : Nat) : ∀ a ∈ (beaToAda candidate).names, Fits a.2 := by
  show ∀ a ∈ [ada, bea, ada], Fits a.2
  decide +kernel

def beaCalls (session candidate statements : Nat) (rest : List (Label (List UInt8))) :
    List (Label (List UInt8)) :=
  .session (.start (.call (beaToAda candidate) (beaToAda_fits candidate))) ::
    (List.replicate statements (.session (.exec session)) ++ rest)

/-- Names in another order and with a repetition find the conversation of the set. -/
theorem one_canonical_direct_twice :
    ∃ s, (directs plain adaUuids).ReachableWhile
        (fun s l => keepsRecords plain adaUuids s l = true) s ∧
      ∃ s', (directs plain adaUuids).step s (.session (.commit 0)) = some s' ∧
        s'.committed.answers = s.committed.answers ++ [⟨beaToAda 1, 1⟩] ∧
        ∃ c ∈ s'.committed.tables.conversations, c.id = 1 ∧ c.isCanonical = true ∧
          ∀ x, x ∈ participantSet s'.committed.tables.participants c.id ↔
            x ∈ (beaToAda 1).names := by
  have hs := System.reachableWhile_get (M := directs plain adaUuids)
    (C := fun s l => keepsRecords plain adaUuids s l = true) (beaCalls 0 1 10 [])
    linkedAda_initial (by decide +kernel)
  refine ⟨_, hs, _, (Option.some_get (by decide +kernel)).symm, ?answers,
    (one_canonical_direct plain (fun _ _ h => h) (fun _ _ h => h) adaUuids).2.2.2 _ hs
      (.session (.commit 0)) _ _ rfl (Option.some_get _).symm ?answers⟩
  decide +kernel

/-- The operator corrects the mapping: Ada's old identity is Cyd's account. -/
def adaIsCyd : LinkRun :=
  ⟨⟨[⟨1, "c:ada", "c5Q"⟩], [], adaOptions⟩, by decide +kernel⟩

/-- Bea wrote to Ada before the mapping was corrected, and writes to Ada again: Bea is answered
with the conversation that has become Cyd's. -/
theorem replayed_conversation_is_of_others :
    ∃ s, (directs plain adaUuids).Reachable s ∧
      ∃ s', (directs plain adaUuids).step s (.session (.commit 1)) = some s' ∧
        s'.committed.answers = s.committed.answers ++ [⟨beaToAda 2, 1⟩] ∧
        participantSet s'.committed.tables.participants 1 = {cyd, bea} := by
  exact ⟨_, System.reachable_get (M := directs plain adaUuids)
    (beaCalls 0 1 10 (.session (.commit 0) :: .link adaIsCyd :: beaCalls 1 2 6 []))
    linkedAda_initial (by decide +kernel), _, (Option.some_get (by decide +kernel)).symm,
    by decide +kernel, by decide +kernel⟩

end Canonical

end SiliconDm.Link
