import SiliconDm.Link.Canonical

/-!
# One canonical conversation per participant set

The invariants of the committed tables, and what the insertion of a conversation does to them. The
unique index keeps the canonical conversations of a set apart.
-/

namespace SiliconDm.Link.Canonical

open Base List Option
open Server (ActorType)

variable {H R : Type}

/-! ## What a transaction has written -/

structure Delta (H R : Type) where
  conversations : List (Conversation H) := []
  participants : List Participant := []
  records : List (Record R) := []
  forgotten : List RecordKey := []
  answers : List Answer := []

def delta (ws : List (Write H R)) : Delta H R where
  conversations := ws.filterMap fun | .conversation row => some row | _ => none
  participants := ws.filterMap fun | .participant row => some row | _ => none
  records := ws.filterMap fun | .record row => some row | _ => none
  forgotten := ws.filterMap fun | .forget key => some key | _ => none
  answers := ws.filterMap fun | .answer a => some a | _ => none

section

variable (ws : List (Write H R))

@[simp] theorem delta_anchor (row : Anchor) : delta (ws ++ [.anchor row]) = delta ws := by
  simp [delta]

@[simp] theorem delta_conversation (row : Conversation H) :
    delta (ws ++ [.conversation row]) =
      { delta ws with conversations := (delta ws).conversations ++ [row] } := by
  simp [delta]

@[simp] theorem delta_participant (row : Participant) :
    delta (ws ++ [.participant row]) =
      { delta ws with participants := (delta ws).participants ++ [row] } := by
  simp [delta]

@[simp] theorem delta_record (row : Record R) :
    delta (ws ++ [.record row]) =
      { delta ws with records := (delta ws).records ++ [row] } := by
  simp [delta]

@[simp] theorem delta_answer (a : Answer) :
    delta (ws ++ [.answer a]) = { delta ws with answers := (delta ws).answers ++ [a] } := by
  simp [delta]

end

variable {ws : List (Write H R)} {row : Conversation H}

theorem mem_of_mem_conversations (h : row ∈ (delta ws).conversations) : .conversation row ∈ ws := by
  obtain ⟨w, hw, heq⟩ := mem_filterMap.mp h
  split at heq
  case h_1 => rwa [← Option.some.inj heq]
  case h_2 => cases heq

section

variable [DecidableEq H] [DecidableEq R] (e : Hashing H R)

/-- What a view holds beyond the committed rows. -/
theorem view_frame (d : Store H R) (ws : List (Write H R)) :
    let v := (language e).applyAll d ws
    v.tables = { d.tables with
        anchors := v.tables.anchors
        conversations := d.tables.conversations ++ (delta ws).conversations
        participants := d.tables.participants ++ (delta ws).participants } ∧
      v.answers = d.answers ++ (delta ws).answers := by
  induction ws generalizing d with
  | nil => simp [Language.applyAll, delta]
  | cons w ws ih =>
    obtain ⟨htables, hans⟩ := ih (d.apply w)
    simp only [Language.applyAll, foldl_cons] at htables hans ⊢
    rw [show (language e).apply d w = d.apply w from rfl]
    refine ⟨htables.trans ?_, hans.trans ?_⟩
    all_goals
      cases w with
      | anchor row =>
        simp only [Store.apply, delta, filterMap_cons]
        split <;> rfl
      | _ => simp [Store.apply, delta]

theorem view_conversations (d : Store H R) (ws : List (Write H R)) :
    ((language e).applyAll d ws).tables.conversations =
      d.tables.conversations ++ (delta ws).conversations := by
  rw [(view_frame e d ws).1]

theorem view_participants (d : Store H R) (ws : List (Write H R)) :
    ((language e).applyAll d ws).tables.participants =
      d.tables.participants ++ (delta ws).participants := by
  rw [(view_frame e d ws).1]

theorem view_answers (d : Store H R) (ws : List (Write H R)) :
    ((language e).applyAll d ws).answers = d.answers ++ (delta ws).answers :=
  (view_frame e d ws).2

/-- The records of a view, where the transaction deletes none. -/
theorem view_records (d : Store H R) (h : (delta ws).forgotten = []) :
    ((language e).applyAll d ws).records =
      (delta ws).records.foldl (fun records r => put Record.key r records) d.records := by
  induction ws generalizing d with
  | nil => rfl
  | cons w ws ih =>
    have happ : (language e).applyAll d (w :: ws) = (language e).applyAll (d.apply w) ws := rfl
    rw [happ]
    cases w with
    | forget key => simp [delta] at h
    | anchor row =>
      rw [ih _ (by simpa [delta] using h)]
      simp only [Store.apply, delta, filterMap_cons]
      split <;> rfl
    | record row | conversation row | participant row | answer a =>
      rw [ih _ (by simpa [delta] using h)]
      simp [Store.apply, delta]

end

/-! ## The invariant of the tables -/

def Names (s : Tables H) (id : Nat) (names : List (ActorType × String)) : Prop :=
  ∃ row ∈ s.conversations, row.id = id ∧ row.isCanonical = true ∧
    participantSet s.participants id = names

/-- Direct conversations are a forest with the hashes of their participants, who are the rows
of a primary key. -/
structure Directs (e : Hashing H R) (s : Tables H) : Prop where
  forest : s.Forest (rowsHash e.sha256)
  fits : ∀ p ∈ s.participants, Fits p.id
  distinct : (s.participants.map fun p => (p.conversation, p.kind, p.id)).Nodup
  owned : ∀ p ∈ s.participants, ∃ row ∈ s.conversations, row.id = p.conversation

/-- Every record is completed. In a `strict` run every record still names the canonical
conversation of the participants it was made for. -/
structure Sound (e : Hashing H R) (strict : Prop) (d : Store H R) : Prop where
  directs : Directs e d.tables
  keyed : Keyed Record.key d.records
  completed : ∀ r ∈ d.records, r.resource.isSome
  faithful : strict → ∀ r ∈ d.records, ∃ names, r.hash = e.request names ∧
    r.key.actor ∈ names ∧ ∀ id ∈ r.resource, Names d.tables id names

variable {e : Hashing H R} {strict : Prop} {d d' : Store H R} {s s' : Tables H} {c : Call}
  {id : Nat}

/-- Tables with the same conversations and participants. -/
theorem Directs.congr (h : Directs e s) (hc : s'.conversations = s.conversations)
    (hp : s'.participants = s.participants) : Directs e s' where
  forest := by
    refine ⟨?_, ?_, ?_⟩
    · rw [hc, hp]
      exact h.forest.toGrove
    · rw [hc]
      exact h.forest.acyclic
    · rw [hc]
      exact h.forest.index
  fits := by
    rw [hp]
    exact h.fits
  distinct := by
    rw [hp]
    exact h.distinct
  owned := by
    rw [hc, hp]
    exact h.owned

theorem coe_participants_nodup (c : Call) :
    (c.participants : Multiset (ActorType × String)).Nodup :=
  Multiset.coe_nodup.mpr (nodup_canonicalize c.names)

/-- The hash a call looks for is the one SQL computes of its participants. -/
theorem hash_eq_rowsHash (hc : ∀ a ∈ c.names, Fits a.2) :
    c.hash e = rowsHash e.sha256 c.participants := by
  have hordered : ordered (c.participants : Multiset _) = c.participants :=
    ordered_eq_canonicalize (coe_participants_nodup c) fun a => by
      rw [Multiset.mem_coe, Call.participants, mem_canonicalize]
  have hfits : ∀ a ∈ (c.participants : Multiset (ActorType × String)), Fits a.2 := by
    intro a ha
    exact hc a (mem_canonicalize.mp (Multiset.mem_coe.mp ha))
  rw [rowsHash, sqlPreimage_eq hfits, hordered]
  rfl

/-- A canonical conversation with the hash of a call has its participants. -/
theorem Directs.names_iff (h : Directs e s) (hsha : Function.Injective e.sha256)
    (hc : ∀ a ∈ c.names, Fits a.2) (hr : row ∈ s.conversations) (hcan : row.isCanonical = true) :
    row.setHash = c.hash e ↔
      participantSet s.participants row.id = (c.participants : Multiset _) := by
  rw [h.forest.hashes row hr (isCanonical_iff.mp hcan).1, hash_eq_rowsHash hc]
  constructor
  · refine collisionFree_rowsHash hsha _ _ (ok_of_mem_participantSet h.fits) ?_
    intro a ha
    exact hc a (mem_canonicalize.mp (Multiset.mem_coe.mp ha))
  · intro heq
    rw [heq]

section

variable [DecidableEq H]

theorem mem_of_canonicalOf {hash : H} (h : canonicalOf s hash = some id) :
    ∃ row ∈ s.conversations, row.id = id ∧ row.isCanonical = true ∧ row.setHash = hash := by
  obtain ⟨row, hr, rfl⟩ := map_eq_some_iff.mp h
  have hp := find?_some hr
  simp only [Bool.and_eq_true, decide_eq_true_eq] at hp
  exact ⟨row, mem_of_find?_eq_some hr, rfl, hp.1, hp.2⟩

theorem canonicalOf_eq_none_iff {hash : H} :
    canonicalOf s hash = none ↔
      ∀ row ∈ s.conversations, row.isCanonical = true → row.setHash ≠ hash := by
  simp [canonicalOf, find?_eq_none]

/-- What the look-up of a call finds. -/
theorem Directs.names_of_canonicalOf (h : Directs e s) (hsha : Function.Injective e.sha256)
    (hc : ∀ a ∈ c.names, Fits a.2) (hid : canonicalOf s (c.hash e) = some id) :
    Names s id c.participants := by
  obtain ⟨row, hr, rfl, hcan, hhash⟩ := mem_of_canonicalOf hid
  exact ⟨row, hr, rfl, hcan, (h.names_iff hsha hc hr hcan).mp hhash⟩

end

/-! ## Growth -/

/-- Committing transactions only adds conversations, with participants of their own. -/
structure Grows (s s' : Tables H) : Prop where
  conversations : ∃ new, s'.conversations = s.conversations ++ new
  participants : ∃ new, s'.participants = s.participants ++ new ∧
    ∀ p ∈ new, ∀ row ∈ s.conversations, row.id ≠ p.conversation

theorem participantSet_append (ps ps' : List Participant) (id : Nat) :
    participantSet (ps ++ ps') id = participantSet ps id + participantSet ps' id := by
  simp [participantSet]

theorem participantSet_eq_zero {ps : List Participant} (h : ∀ p ∈ ps, p.conversation ≠ id) :
    participantSet ps id = 0 := by
  have hnil : ps.filter (·.conversation = id) = [] := by simpa using h
  rw [participantSet, hnil]
  rfl

variable {row : Conversation H}

theorem Grows.participantSet_eq (h : Grows s s') (hr : row ∈ s.conversations) :
    participantSet s'.participants row.id = participantSet s.participants row.id := by
  obtain ⟨new, heq, hnew⟩ := h.participants
  have hzero : participantSet new row.id = 0 :=
    participantSet_eq_zero fun p hp => (hnew p hp row hr).symm
  rw [heq, participantSet_append, hzero, add_zero]

theorem Grows.mem (h : Grows s s') (hr : row ∈ s.conversations) : row ∈ s'.conversations := by
  obtain ⟨new, heq⟩ := h.conversations
  rw [heq]
  exact mem_append_left _ hr

theorem Grows.of_eq (hc : s'.conversations = s.conversations)
    (hp : s'.participants = s.participants) : Grows s s' where
  conversations := ⟨[], by rw [hc, append_nil]⟩
  participants := ⟨[], by rw [hp, append_nil], by simp⟩

theorem Names.grows {names : List (ActorType × String)}
    (h : Names s id names) (hg : Grows s s') : Names s' id names := by
  obtain ⟨row, hr, rfl, hcan, hset⟩ := h
  exact ⟨row, hg.mem hr, rfl, hcan, (hg.participantSet_eq hr).trans hset⟩

/-- No conversation has the id of a call's, and none is canonical with its hash. -/
def Fresh (e : Hashing H R) (s : Tables H) (c : Call) : Prop :=
  ∀ row ∈ s.conversations, row.id ≠ c.candidate ∧
    (row.isCanonical = true → row.setHash ≠ c.hash e)

def inserted (e : Hashing H R) (c : Call) : Delta H R where
  conversations := [c.row e]
  participants := c.participants.map c.participantRow

theorem participantSet_inserted (c : Call) :
    participantSet (c.participants.map c.participantRow) c.candidate =
      (c.participants : Multiset _) := by
  have hall : (c.participants.map c.participantRow).filter (·.conversation = c.candidate) =
      c.participants.map c.participantRow := by
    rw [filter_eq_self]
    intro p hp
    obtain ⟨a, -, rfl⟩ := List.mem_map.mp hp
    exact decide_eq_true rfl
  rw [participantSet, hall, List.map_map]
  congr 1
  exact List.map_id _

structure Inserted (e : Hashing H R) (c : Call) (s s' : Tables H) : Prop where
  conversations : s'.conversations = s.conversations ++ [c.row e]
  participants : s'.participants = s.participants ++ c.participants.map c.participantRow

namespace Inserted

theorem grows (h : Inserted e c s s') (hf : Fresh e s c) : Grows s s' where
  conversations := ⟨_, h.conversations⟩
  participants := by
    refine ⟨_, h.participants, fun p hp row hr => ?_⟩
    obtain ⟨a, -, rfl⟩ := List.mem_map.mp hp
    exact (hf row hr).1

theorem pointer_eq (h : Inserted e c s s') (hf : Fresh e s c) :
    pointer s'.conversations = pointer s.conversations := by
  funext a
  unfold pointer
  rw [h.conversations, getRow_append_singleton]
  split
  case isFalse => simp
  case isTrue ha =>
    have hn : getRow Conversation.id s.conversations a = none := by
      rw [getRow_eq_none_iff]
      intro row hr hid
      exact (hf row hr).1 (hid.trans ha.symm)
    rw [hn]
    rfl

theorem participantSet_eq (h : Inserted e c s s')
    (ho : ∀ p ∈ s.participants, p.conversation ≠ c.candidate) :
    participantSet s'.participants c.candidate = (c.participants : Multiset _) := by
  rw [h.participants, participantSet_append, participantSet_eq_zero ho, zero_add,
    participantSet_inserted]

end Inserted

/-- No participant stands under the id of a fresh call. -/
theorem Directs.unowned (h : Directs e s) (hf : Fresh e s c) :
    ∀ p ∈ s.participants, p.conversation ≠ c.candidate := by
  intro p hp heq
  obtain ⟨row, hr, hid⟩ := h.owned p hp
  exact (hf row hr).1 (hid.trans heq)

/-- Inserting the conversation of a call keeps the forest. -/
theorem Directs.forest_inserted (h : Directs e s) (hc : ∀ a ∈ c.names, Fits a.2)
    (hf : Fresh e s c) (hi : Inserted e c s s') : s'.Forest (rowsHash e.sha256) where
  keyed := by
    rw [hi.conversations]
    exact h.forest.keyed.append_singleton (getRow_eq_none_iff.mpr fun row hr => (hf row hr).1)
  links := by
    rw [hi.pointer_eq hf]
    intro a b hab row hr ha hg
    obtain ⟨row', hr', rfl, -⟩ := exists_of_pointer hab
    obtain rfl : row = row' := by
      rw [hi.conversations] at hr
      rcases mem_concat.mp hr with hr | rfl
      · exact h.forest.keyed.unique hr hr' ha
      · exact absurd ha.symm (hf row' hr').1
    obtain ⟨target, htgt, hid, htg, hset⟩ := h.forest.links _ _ hab row hr' rfl hg
    refine ⟨target, (hi.grows hf).mem htgt, hid, htg, ?_⟩
    subst hid
    rw [(hi.grows hf).participantSet_eq htgt, (hi.grows hf).participantSet_eq hr']
    exact hset
  hashes := by
    intro row hr hg
    rw [hi.conversations] at hr
    rcases mem_concat.mp hr with hr | rfl
    · rw [(hi.grows hf).participantSet_eq hr]
      exact h.forest.hashes row hr hg
    · show c.hash e = rowsHash e.sha256 (participantSet s'.participants c.candidate)
      rw [hi.participantSet_eq (h.unowned hf), hash_eq_rowsHash hc]
  acyclic := by
    rw [hi.pointer_eq hf]
    exact h.forest.acyclic
  index := by
    have hcan : (c.row e).isCanonical = true := rfl
    rw [hi.conversations, filter_append, filter_singleton, hcan, cond_true,
      map_append]
    refine List.Nodup.append h.forest.index (nodup_singleton _) ?_
    intro hash hm hm'
    obtain ⟨row, hr, rfl⟩ := List.mem_map.mp hm
    obtain ⟨hr, hrowcan⟩ := mem_filter.mp hr
    exact (hf row hr).2 hrowcan (mem_singleton.mp hm')

end SiliconDm.Link.Canonical
