import SiliconDm.Server.FanOut

/-!
# Delivery streams

Every account has one stream of sequence numbers. A delivery takes the next one in its trigger,
under the lock of the stream's row, and the row and the delivery are committed together. So the
sequences above the floor are distinct, and one that is not there when a later one is can never
appear. Acknowledged rows may be deleted at any time.
Source: `migrations/0040_accounts_partition_behaviour.sql:137–232`, `delivery.rs:37–48`.
-/

namespace SiliconDm.Server

open Base List Option

/-! ### Slots -/

/-- A reference and its place in the stream of an account. -/
abbrev Slot : Type :=
  DeliveryRef × Nat

def Delivery.slot (row : Delivery) : Slot :=
  (row.ref, row.sequence)

def Database.slots (d : Database) (a : ActorRef) : List Slot :=
  (d.deliveriesOf a).map Delivery.slot

def slotsIn (a : ActorRef) (ws : List Write) : List Slot :=
  ((deliveriesIn ws).filter (·.target = a)).map Delivery.slot

def streamIn (a : ActorRef) (ws : List Write) : Option Stream :=
  ((ws.filterMap fun
    | .stream row => some row
    | _ => none).filter (·.actor = a)).getLast?

/-- A stream's row says where its slots are: below the next sequence, and no two in one place
above the floor. -/
structure Sequenced (st : Stream) (slots : List Slot) : Prop where
  floor : st.syncFloor < st.nextSequence
  below : ∀ x ∈ slots, x.2 < st.nextSequence
  distinct : ((slots.map Prod.snd).filter (st.syncFloor < ·)).Nodup

/-- What the constraints say about a database, and what the allocator keeps. -/
structure Streams (d : Database) : Prop where
  outbox : Outbox d
  known : ∀ row ∈ d.deliveries, ∀ m status, row.ref = .messageStatus m status →
    (d.message m).isSome = true
  sequenced : ∀ a st, d.stream a = some st → Sequenced st (d.slots a)
  messages : ∀ row ∈ d.messages, 1 ≤ row.sequence
  conversations : ∀ row ∈ d.conversations, 1 ≤ row.nextMessageSequence

variable {d d' : Database} {t u : Open} {a : ActorRef} {st : Stream} {statement : Statement}
  {rest : List Statement} {o : Outcome Statement Check Write Lock} {ws : List Write}

variable {slots : List Slot} {v : Database}

theorem Sequenced.sublist {slots' : List Slot} (h : Sequenced st slots') (hs : slots.Sublist slots') :
    Sequenced st slots where
  floor := h.floor
  below x hx := h.below x (hs.subset hx)
  distinct := h.distinct.sublist ((hs.map _).filter _)

/-- The next sequence is taken. -/
theorem Sequenced.next (h : Sequenced st slots) (ref : DeliveryRef) :
    Sequenced { st with nextSequence := st.nextSequence + 1 }
      (slots ++ [(ref, st.nextSequence)]) where
  floor := Nat.lt_succ_of_lt h.floor
  below := by
    exact forall_mem_concat.mpr
      ⟨fun x hx => Nat.lt_succ_of_lt (h.below x hx), Nat.lt_succ_self _⟩
  distinct := by
    rw [map_append, filter_append, nodup_append]
    refine ⟨h.distinct, (nodup_singleton _).filter _, ?_⟩
    intro q hq q' hq' he
    obtain ⟨x, hx, rfl⟩ := List.mem_map.mp (mem_filter.mp hq).1
    have hlt := h.below x hx
    have hq'' : q' = st.nextSequence := by simpa using (mem_filter.mp hq').1
    omega

/-- A stream opens above everything the account already has. -/
theorem sequenced_opened {high : Nat} (h : ∀ x ∈ slots, x.2 ≤ high) :
    Sequenced { actor := a, nextSequence := high + 1, syncFloor := high } slots where
  floor := Nat.lt_succ_self _
  below x hx := Nat.lt_succ_of_le (h x hx)
  distinct := by
    have : (slots.map Prod.snd).filter (high < ·) = [] := by
      apply filter_eq_nil_iff.mpr
      intro q hq
      obtain ⟨x, hx, rfl⟩ := List.mem_map.mp hq
      have := h x hx
      simp only [decide_eq_true_eq]
      omega
    rw [this]
    exact nodup_nil

/-! ### After a list of writes -/

theorem slotsIn_append (ws ws' : List Write) :
    slotsIn a (ws ++ ws') = slotsIn a ws ++ slotsIn a ws' := by
  simp only [slotsIn, deliveriesIn_append, filter_append, map_append]

theorem streamIn_append (ws ws' : List Write) :
    streamIn a (ws ++ ws') = (streamIn a ws').or (streamIn a ws) := by
  simp only [streamIn, filterMap_append, filter_append, getLast?_append]

theorem mem_of_streamIn (h : streamIn a ws = some st) : .stream st ∈ ws ∧ st.actor = a := by
  obtain ⟨hm, ha⟩ := mem_filter.mp (mem_of_getLast? h)
  obtain ⟨w, hw, he⟩ := mem_filterMap.mp hm
  refine ⟨?_, by simpa using ha⟩
  cases w <;> cases he
  exact hw

theorem streamIn_eq_none (h : ∀ st, .stream st ∈ ws → st.actor ≠ a) : streamIn a ws = none := by
  cases hs : streamIn a ws with
  | none => rfl
  | some st => exact absurd (mem_of_streamIn hs).2 (h st (mem_of_streamIn hs).1)

theorem streamIn_ne_none (h : .stream st ∈ ws) : streamIn st.actor ws ≠ none := by
  unfold streamIn
  rw [Ne, getLast?_eq_none_iff]
  refine ne_nil_of_mem (a := st) (mem_filter.mpr ⟨?_, by simp⟩)
  exact mem_filterMap.mpr ⟨_, h, rfl⟩

theorem stream_applyAll (d : Database) (ws : List Write) (a : ActorRef) :
    (store.applyAll d ws).stream a = (streamIn a ws).or (d.stream a) := by
  induction ws generalizing d with
  | nil => rfl
  | cons w ws ih =>
    refine (ih (w.apply d)).trans ?_
    rw [show w :: ws = [w] ++ ws from rfl, streamIn_append, Option.or_assoc]
    congr 1
    cases w with
    | stream row =>
      simp only [Write.apply, Database.stream, getRow_put]
      by_cases ha : a = row.actor
      · simp [streamIn, ha]
      · simp [streamIn, ha, Ne.symm ha]
    | _ => rfl

theorem slots_applyAll (d : Database) (ws : List Write) (a : ActorRef) :
    ((store.applyAll d ws).slots a).Sublist (d.slots a ++ slotsIn a ws) := by
  induction ws generalizing d with
  | nil => simp [Language.applyAll, slotsIn, deliveriesIn]
  | cons w ws ih =>
    refine (ih (w.apply d)).trans ?_
    rw [show w :: ws = [w] ++ ws from rfl, slotsIn_append, ← append_assoc]
    refine List.Sublist.append_right ?_ _
    cases w with
    | delivery row =>
      simp [Write.apply, Database.slots, Database.deliveriesOf, slotsIn, deliveriesIn,
        filter_append]
    | acknowledge target ref now retain =>
      have : ((Write.acknowledge target ref now retain).apply d).slots a = d.slots a := by
        simp only [Write.apply, Database.slots, Database.deliveriesOf, List.filter_map,
          List.map_map]
        refine congrArg₂ List.map (funext fun row => ?_) (congrArg (List.filter · _) (funext fun row => ?_))
        all_goals
          simp only [Function.comp_apply]
          split <;> rfl
      simp [this, slotsIn, deliveriesIn]
    | expire target ref =>
      have : (((Write.expire target ref).apply d).slots a).Sublist (d.slots a) :=
        (filter_sublist.filter _).map _
      simpa [slotsIn, deliveriesIn] using this
    | _ => exact sublist_append_left _ _

/-! ### What one statement does to the streams -/

/-- The statements that allocate, and all others. -/
inductive StreamEffect (v : Database) (o : Outcome Statement Check Write Lock) : Statement → Prop
  | none {s : Statement} (hs : ∀ st, .stream st ∉ o.writes) (hd : deliveriesIn o.writes = [])
      (hn : ∀ a high, .message (.openStream a high) ∉ o.next) : StreamEffect v o s
  | deliver {a : ActorRef} {ref : DeliveryRef} {c : Nat} (hw : o.writes = [])
      (hn : ∀ a' high, .message (.openStream a' high) ∈ o.next →
        a' = a ∧ high = coalesceMax ((v.deliveriesOf a).map (·.sequence))) :
      StreamEffect v o (.message (.deliver a ref c))
  | openStream {a : ActorRef} {high : Nat} (hs : v.stream a = none) (hn : o.next = [])
      (hw : o.writes = [.stream { actor := a, nextSequence := high + 1, syncFloor := high }]) :
      StreamEffect v o (.message (.openStream a high))
  | enqueue {a : ActorRef} {ref : DeliveryRef} {c : Nat} {st : Stream} (hs : v.stream a = some st)
      (hn : o.next = []) (hw : o.writes = [.stream { st with nextSequence := st.nextSequence + 1 },
        .delivery (newDelivery a ref c st.nextSequence)]) :
      StreamEffect v o (.message (.enqueue a ref c))

theorem streamEffect (h : statement.exec v = .ok o) : StreamEffect v o statement := by
  obtain ⟨hnext, halw⟩ := statement.exec_scope h
  by_cases hs : statement.scope = .message
  · obtain ⟨s, rfl⟩ := exists_message hs
    cases s
    case deliver a ref c =>
      refine .deliver (deliver_eq_ok h).1 fun a' high hm => ?_
      simp only [Statement.exec, messageStatement] at h
      split at h <;> cases h
      · simp at hm
      · simpa using hm
    case openStream a high =>
      obtain ⟨hn, ⟨-, hw⟩ | ⟨hs, hw⟩⟩ := openStream_eq_ok h
      · exact .none (by simp [hw]) (by simp [hw, deliveriesIn]) (by simp [hn])
      · exact .openStream hs hn hw
    case enqueue a ref c =>
      obtain ⟨hn, st, hs, ⟨-, hw⟩ | ⟨-, hw⟩⟩ := enqueue_eq_ok h
      · exact .none (by simp [hw]) (by simp [hw, deliveriesIn]) (by simp [hn])
      · exact .enqueue hs hn hw
    all_goals
      simp only [Statement.exec, messageStatement, historyStatement] at h
      (try split at h) <;> (try split at h) <;> (try split at h) <;> cases h
      all_goals exact .none (by simp) (by simp [deliveriesIn]) (by simp)
  · refine .none (fun st hst => ?_) ?_ fun a high hn => hs (hnext _ hn).symm
    · have := halw _ hst
      cases hsc : statement.scope <;> simp [hsc, Scope.allows] at this hs
    · rcases deliveriesIn_exec h with hd | ⟨a, ref, c, n, rfl, -⟩
      · exact hd
      · exact absurd rfl hs

/-! ### Every open transaction -/

/-- What holds of every open transaction: what it has allocated continues the committed
streams. -/
structure Allocating (d : Database) (t : Open) : Prop where
  backed : ∀ row ∈ deliveriesIn t.writes, ∃ st, .stream st ∈ t.writes ∧ st.actor = row.target
  sequenced : ∀ a st, (store.view d t).stream a = some st →
    Sequenced st (d.slots a ++ slotsIn a t.writes)
  grows : ∀ a st₀, d.stream a = some st₀ → ∃ st, (store.view d t).stream a = some st ∧
    st.syncFloor = st₀.syncFloor ∧ st₀.nextSequence ≤ st.nextSequence ∧
    ∀ x ∈ slotsIn a t.writes, st₀.nextSequence ≤ x.2
  opening : ∀ a high, .message (.openStream a high) ∈ t.todo → (store.view d t).stream a = none →
    ∀ x ∈ d.slots a ++ slotsIn a t.writes, x.2 ≤ high

theorem allocating_opened (hd : Streams d) (id : Nat) (task : Task) :
    Allocating d (store.opened id task) where
  backed := by simp [Language.opened, deliveriesIn]
  sequenced a st hst := by
    simpa [Language.opened, slotsIn, deliveriesIn] using hd.sequenced a st hst
  grows a st₀ hst := ⟨st₀, hst, rfl, Nat.le_refl _, by simp [Language.opened, slotsIn, deliveriesIn]⟩
  opening := by
    intro a high hm
    have hs := scope_of_mem_code hm
    cases task <;> cases hs <;> simp [Language.opened, store, Task.code, reviseMessage] at hm
    case reviseMessage content _ => cases content <;> simp at hm

theorem slots_view (h : Disciplined t) (hs : t.task.scope = .message) :
    (store.view d t).slots a = d.slots a ++ slotsIn a t.writes := by
  simp only [Database.slots, Database.deliveriesOf, slotsIn, deliveries_view h hs,
    filter_append, map_append]

theorem stream_advance : (store.view d (store.advance d t rest o)).stream a =
    (streamIn a o.writes).or ((store.view d t).stream a) := by
  rw [view_advance, stream_applyAll]

theorem slotsIn_advance : slotsIn a (store.advance d t rest o).writes =
    slotsIn a t.writes ++ slotsIn a o.writes :=
  slotsIn_append ..

/-- A statement that allocates nothing. -/
theorem Allocating.idle (h : Allocating d t) (htodo : t.todo = statement :: rest)
    (hs : ∀ st, .stream st ∉ o.writes) (hd : deliveriesIn o.writes = [])
    (hn : ∀ a high, .message (.openStream a high) ∈ o.next →
      ∀ x ∈ d.slots a ++ slotsIn a t.writes, x.2 ≤ high) :
    Allocating d (store.advance d t rest o) := by
  have hstr : ∀ a, (store.view d (store.advance d t rest o)).stream a =
      (store.view d t).stream a := by
    intro a
    rw [stream_advance, streamIn_eq_none fun st hst => absurd hst (hs st), none_or]
  have hsl : ∀ a, slotsIn a (store.advance d t rest o).writes = slotsIn a t.writes := by
    intro a
    rw [slotsIn_advance]
    simp [slotsIn, hd]
  constructor
  · intro row hr
    have hr' : row ∈ deliveriesIn t.writes := by
      simpa [Language.advance, deliveriesIn_append, hd] using hr
    obtain ⟨st, hst, ha⟩ := h.backed row hr'
    exact ⟨st, mem_append_left _ hst, ha⟩
  · intro a st hst
    rw [hstr] at hst
    rw [hsl]
    exact h.sequenced a st hst
  · intro a st₀ hst₀
    rw [hstr, hsl]
    exact h.grows a st₀ hst₀
  · intro a high hm hnone
    rw [hstr] at hnone
    rw [hsl]
    rcases mem_append.mp hm with hm | hm
    · exact hn a high hm
    · exact h.opening a high (by simp [htodo, hm]) hnone

theorem Allocating.openStream {b : ActorRef} {high : Nat} (h : Allocating d t)
    (htodo : t.todo = .message (.openStream b high) :: rest)
    (hs : (store.view d t).stream b = none) (hn : o.next = [])
    (hw : o.writes = [.stream { actor := b, nextSequence := high + 1, syncFloor := high }]) :
    Allocating d (store.advance d t rest o) := by
  have hsl : ∀ a, slotsIn a (store.advance d t rest o).writes = slotsIn a t.writes := by
    intro a
    rw [slotsIn_advance, hw]
    simp [slotsIn, deliveriesIn]
  have hopn : (store.view d (store.advance d t rest o)).stream b =
      some { actor := b, nextSequence := high + 1, syncFloor := high } := by
    rw [stream_advance, hw]
    simp [streamIn]
  have hoth : ∀ a, a ≠ b → (store.view d (store.advance d t rest o)).stream a =
      (store.view d t).stream a := by
    intro a ha
    rw [stream_advance, hw]
    simp [streamIn, Ne.symm ha]
  constructor
  · intro row hr
    have hr' : row ∈ deliveriesIn t.writes := by
      simpa [Language.advance, deliveriesIn, hw] using hr
    obtain ⟨st, hst, ha⟩ := h.backed row hr'
    exact ⟨st, mem_append_left _ hst, ha⟩
  · intro a st hst
    rw [hsl]
    by_cases ha : a = b
    · subst ha
      cases hopn.symm.trans hst
      exact sequenced_opened (h.opening a high (by simp [htodo]) hs)
    · exact h.sequenced a st (hoth a ha ▸ hst)
  · intro a st₀ hst₀
    have hne : a ≠ b := by
      rintro rfl
      obtain ⟨st, hst, -⟩ := h.grows a st₀ hst₀
      simp [hs] at hst
    rw [hoth a hne, hsl]
    exact h.grows a st₀ hst₀
  · intro a high' hm hnone
    have hne : a ≠ b := by
      rintro rfl
      simp [hopn] at hnone
    rw [hoth a hne] at hnone
    rw [hsl]
    rw [show (store.advance d t rest o).todo = o.next ++ rest from rfl, hn] at hm
    exact h.opening a high' (by rw [htodo]; exact mem_cons_of_mem _ hm) hnone

theorem Allocating.enqueue {b : ActorRef} {ref : DeliveryRef} {c : Nat} (h : Allocating d t)
    (htodo : t.todo = .message (.enqueue b ref c) :: rest)
    (hs : (store.view d t).stream b = some st) (hn : o.next = [])
    (hw : o.writes = [.stream { st with nextSequence := st.nextSequence + 1 },
      .delivery (newDelivery b ref c st.nextSequence)]) :
    Allocating d (store.advance d t rest o) := by
  have hb : st.actor = b := (mem_of_getRow_eq_some hs).2
  have hsl : slotsIn b (store.advance d t rest o).writes =
      slotsIn b t.writes ++ [(ref, st.nextSequence)] := by
    rw [slotsIn_advance, hw]
    simp [slotsIn, deliveriesIn, newDelivery, Delivery.slot]
  have hsl' : ∀ a, a ≠ b → slotsIn a (store.advance d t rest o).writes = slotsIn a t.writes := by
    intro a ha
    rw [slotsIn_advance, hw]
    simp [slotsIn, deliveriesIn, newDelivery, Ne.symm ha]
  have hnext : (store.view d (store.advance d t rest o)).stream b =
      some { st with nextSequence := st.nextSequence + 1 } := by
    rw [stream_advance, hw]
    simp [streamIn, hb]
  have hoth : ∀ a, a ≠ b → (store.view d (store.advance d t rest o)).stream a =
      (store.view d t).stream a := by
    intro a ha
    rw [stream_advance, hw]
    simp [streamIn, hb, Ne.symm ha]
  constructor
  · intro row hr
    rcases mem_append.mp (deliveriesIn_append _ _ ▸ hr) with hr | hr
    · obtain ⟨st', hst', ha⟩ := h.backed row hr
      exact ⟨st', mem_append_left _ hst', ha⟩
    · obtain rfl : row = newDelivery b ref c st.nextSequence := by
        simpa [hw, deliveriesIn] using hr
      exact ⟨{ st with nextSequence := st.nextSequence + 1 },
        mem_append_right _ (by simp [hw]), hb⟩
  · intro a st' hst'
    by_cases ha : a = b
    · subst ha
      cases hnext.symm.trans hst'
      rw [hsl, ← append_assoc]
      exact (h.sequenced a st hs).next ref
    · rw [hsl' a ha]
      exact h.sequenced a st' (hoth a ha ▸ hst')
  · intro a st₀ hst₀
    by_cases ha : a = b
    · subst ha
      obtain ⟨st', hst', hfloor, hle, hnew⟩ := h.grows a st₀ hst₀
      cases hs.symm.trans hst'
      refine ⟨_, hnext, hfloor, Nat.le_succ_of_le hle, fun x hx => ?_⟩
      rw [hsl] at hx
      rcases mem_concat.mp hx with hx | rfl
      · exact hnew x hx
      · exact hle
    · rw [hoth a ha, hsl' a ha]
      exact h.grows a st₀ hst₀
  · intro a high hm hnone
    have hne : a ≠ b := by
      rintro rfl
      simp [hnext] at hnone
    rw [hoth a hne] at hnone
    rw [hsl' a hne]
    rw [show (store.advance d t rest o).todo = o.next ++ rest from rfl, hn] at hm
    exact h.opening a high (by rw [htodo]; exact mem_cons_of_mem _ hm) hnone

/-- One statement. -/
theorem Allocating.advance (h : Allocating d t) (hdis : Disciplined t)
    (htodo : t.todo = statement :: rest)
    (ho : store.exec statement (store.view d t) = some o) :
    Allocating d (store.advance d t rest o) := by
  cases streamEffect (exec_eq_some ho) with
  | none hs hd hn => exact h.idle htodo hs hd fun a high hm => absurd hm (hn a high)
  | @deliver b ref c hw hn =>
    refine h.idle htodo (by simp [hw]) (by simp [hw, deliveriesIn]) ?_
    intro a high hm x hx
    obtain ⟨rfl, rfl⟩ := hn a high hm
    have hfst : .message (.deliver a ref c) ∈ t.todo := by simp [htodo]
    have hsc : t.task.scope = .message := (hdis.todo _ hfst).symm
    rw [← slots_view hdis hsc] at hx
    obtain ⟨row, hr, rfl⟩ := List.mem_map.mp hx
    exact le_coalesceMax (List.mem_map_of_mem (f := Delivery.sequence) hr)
  | openStream hs hn hw => exact h.openStream htodo hs hn hw
  | enqueue hs hn hw => exact h.enqueue htodo hs hn hw

/-! ### Commits of other transactions -/

/-- Where one transaction has allocated, no other has: the stream's lock. -/
theorem Allocating.untouched (hu : Allocating d u) (hcov : store.Covered t)
    (hcov' : store.Covered u) (hdis : t.locks.Disjoint u.locks)
    (h : streamIn a t.writes ≠ none) : streamIn a u.writes = none ∧ slotsIn a u.writes = [] := by
  obtain ⟨st, hst⟩ := ne_none_iff_exists'.mp h
  obtain ⟨hw, rfl⟩ := mem_of_streamIn hst
  have hlock : Lock.stream st.actor ∈ t.locks := hcov _ hw
  have hn : ∀ st', .stream st' ∈ u.writes → st'.actor ≠ st.actor := by
    intro st' hw' he
    have : Lock.stream st'.actor ∈ u.locks := hcov' _ hw'
    exact hdis hlock (he ▸ this)
  refine ⟨streamIn_eq_none hn, ?_⟩
  unfold slotsIn
  rw [map_eq_nil_iff, filter_eq_nil_iff]
  intro row hr hta
  obtain ⟨st', hw', he⟩ := hu.backed row hr
  exact hn st' hw' (he.trans (by simpa using hta))

/-- A transaction that has not allocated in a stream has filled no slot of it. -/
theorem Allocating.slotsIn_eq_nil (h : Allocating d t) (hs : streamIn a t.writes = none) :
    slotsIn a t.writes = [] := by
  unfold slotsIn
  rw [map_eq_nil_iff, filter_eq_nil_iff]
  intro row hr hta
  obtain ⟨st, hw, he⟩ := h.backed row hr
  have := streamIn_ne_none hw
  rw [he.trans (by simpa using hta)] at this
  exact this hs

theorem Allocating.rely (h : Allocating d t) (hu : Allocating d u) (hcov : store.Covered t)
    (hcov' : store.Covered u) (hdis : t.locks.Disjoint u.locks) :
    Allocating (store.view d u) t := by
  have hstr : ∀ a, (store.view (store.view d u) t).stream a =
      (streamIn a t.writes).or ((store.view d u).stream a) := fun a => stream_applyAll ..
  have hown : ∀ a, (store.view d t).stream a = (streamIn a t.writes).or (d.stream a) :=
    fun a => stream_applyAll ..
  have hoth : ∀ a, (store.view d u).stream a = (streamIn a u.writes).or (d.stream a) :=
    fun a => stream_applyAll ..
  have hsl : ∀ a, ((store.view d u).slots a).Sublist (d.slots a ++ slotsIn a u.writes) :=
    fun a => slots_applyAll ..
  refine ⟨h.backed, ?_, ?_, ?_⟩
  · intro a st hst
    cases ht : streamIn a t.writes with
    | some st' =>
      obtain ⟨-, hnil⟩ := hu.untouched hcov hcov' hdis (a := a) (by simp [ht])
      have hsub := hsl a
      rw [hnil, append_nil] at hsub
      refine (h.sequenced a st ?_).sublist (hsub.append_right _)
      rw [hown, ht]
      rwa [hstr, ht] at hst
    | none =>
      rw [h.slotsIn_eq_nil ht, append_nil]
      rw [hstr, ht, none_or] at hst
      exact (hu.sequenced a st hst).sublist (hsl a)
  · intro a st₀ hst₀
    cases ht : streamIn a t.writes with
    | some st =>
      obtain ⟨hn, -⟩ := hu.untouched hcov hcov' hdis (a := a) (by simp [ht])
      rw [hoth, hn, none_or] at hst₀
      have := h.grows a st₀ hst₀
      rw [hown, ht] at this
      rwa [hstr, ht]
    | none =>
      refine ⟨st₀, by rw [hstr, ht, none_or, hst₀], rfl, Nat.le_refl _, ?_⟩
      simp [h.slotsIn_eq_nil ht]
  · intro a high hm hn x hx
    rw [hstr, or_eq_none_iff, hoth, or_eq_none_iff] at hn
    obtain ⟨ht, hu', hd⟩ := hn
    have hsub := hsl a
    rw [hu.slotsIn_eq_nil hu', append_nil] at hsub
    apply h.opening a high hm (by rw [hown, ht, hd]; rfl) x
    rcases mem_append.mp hx with hx | hx
    · exact mem_append_left _ (hsub.subset hx)
    · exact mem_append_right _ hx

/-! ### Messages that deliveries refer to -/

/-- What else holds of every open transaction: message sequences start at one, and a status is
reported of a message that exists. -/
structure Referring (d : Database) (t : Open) : Prop where
  messages : ∀ row, .message row ∈ t.writes → 1 ≤ row.sequence
  conversations : ∀ row, .conversation row ∈ t.writes → 1 ≤ row.nextMessageSequence
  reports : ∀ m status, t.task = .reportStatus m status →
    t.todo = t.task.code ∧ t.writes = [] ∨ (d.message m).isSome = true

theorem conversations_applyAll (hd : ∀ row ∈ d.conversations, 1 ≤ row.nextMessageSequence)
    (hw : ∀ row, .conversation row ∈ ws → 1 ≤ row.nextMessageSequence) :
    ∀ row ∈ (store.applyAll d ws).conversations, 1 ≤ row.nextMessageSequence := by
  refine store.applyAll_invariant
    (P := fun d => ∀ row ∈ d.conversations, 1 ≤ row.nextMessageSequence) hd fun w hmem d hd => ?_
  cases w with
  | conversation row => exact forall_mem_concat.mpr ⟨hd, hw row hmem⟩
  | advance c =>
    intro row' hr'
    obtain ⟨row, hr, rfl⟩ := List.mem_map.mp hr'
    split
    · exact Nat.le_succ_of_le (hd row hr)
    · exact hd row hr
  | _ => exact hd

theorem conversation_mem_exec (h : statement.exec v = .ok o) {row : Conversation}
    (hr : .conversation row ∈ o.writes) : row.nextMessageSequence = 1 := by
  have halw := (statement.exec_scope h).2 _ hr
  cases statement with
  | group g s =>
    cases s <;> simp only [Statement.exec, groupStatement] at h
    all_goals (try split at h) <;> (try split at h) <;> cases h
    all_goals simp at hr
    rw [hr]
  | _ => simp [Statement.scope, Scope.allows] at halw

/-- A message takes the next sequence of its conversation. -/
theorem sequence_mem_exec (h : statement.exec v = .ok o) {row : Message}
    (hr : .message row ∈ o.writes) :
    ∃ conversation ∈ v.conversations, row.sequence = conversation.nextMessageSequence := by
  obtain ⟨⟨sender, rfl⟩, -⟩ := message_mem_exec h hr
  simp only [Statement.exec, messageStatement] at h
  split at h <;> cases h
  next conversation hc _ =>
    have hnew : row = ⟨row.id, row.conversation, sender, conversation.nextMessageSequence⟩ := by
      simpa using hr
    exact ⟨conversation, (mem_of_getRow_eq_some hc).1, congrArg Message.sequence hnew⟩

theorem Referring.advance (h : Referring d t) (hd : Streams d) (htodo : t.todo = statement :: rest)
    (ho : store.exec statement (store.view d t) = some o) :
    Referring d (store.advance d t rest o) where
  messages row hr := by
    rcases mem_append.mp hr with hr | hr
    · exact h.messages row hr
    · obtain ⟨conversation, hc, he⟩ := sequence_mem_exec (exec_eq_some ho) hr
      rw [he]
      exact conversations_applyAll hd.conversations h.conversations conversation hc
  conversations row hr := by
    rcases mem_append.mp hr with hr | hr
    · exact h.conversations row hr
    · exact Nat.le_of_eq (conversation_mem_exec (exec_eq_some ho) hr).symm
  reports m status htask := by
    right
    have htask : t.task = .reportStatus m status := htask
    rcases h.reports m status htask with ⟨hcode, hw⟩ | hm
    · have hv : store.view d t = d := by simp [Language.view, Language.applyAll, hw]
      have hcode' : t.todo = [.message (.reportStatus m status)] := by rw [hcode, htask]; rfl
      obtain ⟨rfl, -⟩ := List.cons.inj (htodo.symm.trans hcode')
      have hexec := exec_eq_some ho
      rw [hv] at hexec
      simp only [Statement.exec, messageStatement] at hexec
      split at hexec
      next => cases hexec
      next row hr => simp [hr]
    · exact hm

/-- A transaction that has inserted a status has seen its message. -/
theorem Referring.known (h : Referring d t) (hp : Publishing d t) {row : Delivery}
    (hr : row ∈ deliveriesIn t.writes) {m : Nat} {status : MessageStatus}
    (href : row.ref = .messageStatus m status) : (d.message m).isSome = true := by
  have hsc : t.task.scope = .message := by
    have := hp.disciplined.writes _ (mem_deliveriesIn.mp hr)
    cases hs : t.task.scope <;> simp [hs, Scope.allows] at this ⊢
  have hpub : ∀ m' c, ¬ t.task.publishes m' c := by
    intro m' c hpub
    cases hp.stage m' c hpub with
    | opening hw _ => simp [hw, deliveriesIn] at hr
    | claimed _ hw _ _ | numbered _ _ hw _ _ _ | ready _ _ hw _ _ _ _ => simp [hw] at hr
    | fanned r' _ hf => simpa using (hf.inserted row hr).1.symm.trans href
  cases htask : t.task with
  | sendMessage m' c' sender | reviseMessage m' c' actor reviser content now =>
    exact absurd (by rw [htask]; exact ⟨rfl, rfl⟩) (hpub m' c')
  | reportStatus m' status' =>
    have := (hp.status m' status' htask).inserted row hr
    obtain ⟨rfl, -⟩ : m' = m ∧ status' = status := by simpa using this.symm.trans href
    refine (h.reports m' status' htask).resolve_left ?_
    rintro ⟨-, hw⟩
    simp [hw, deliveriesIn] at hr
  | _ => simp [htask, Task.scope] at hsc

/-! ### Every run -/

structure Feeding (d : Database) (t : Open) : Prop where
  publishing : Publishing d t
  allocating : Allocating d t
  referring : Referring d t

theorem message_isSome_applyAll {m : Nat} (h : (d.message m).isSome = true) (ws : List Write) :
    ((store.applyAll d ws).message m).isSome = true := by
  rw [message_applyAll]
  simp [h]

theorem Feeding.commit (h : Feeding d t) (hd : Streams d) : Streams (store.view d t) where
  outbox := h.publishing.commit hd.outbox
  known := by
    intro row hr m status href
    have hkey : row.key ∈ d.deliveries.map Delivery.key ++ (deliveriesIn t.writes).map Delivery.key :=
      (keys_applyAll d t.writes).subset (List.mem_map_of_mem hr)
    apply message_isSome_applyAll
    rcases mem_append.mp hkey with hk | hk
    · obtain ⟨row', hr', he⟩ := List.mem_map.mp hk
      exact hd.known row' hr' m status ((congrArg Prod.snd he).trans href)
    · obtain ⟨row', hr', he⟩ := List.mem_map.mp hk
      exact h.referring.known h.publishing hr' ((congrArg Prod.snd he).trans href)
  sequenced a st hst := (h.allocating.sequenced a st hst).sublist (slots_applyAll ..)
  messages row hr := by
    rcases mem_append.mp (messages_applyAll d t.writes ▸ hr) with hr | hr
    · exact hd.messages row hr
    · exact h.referring.messages row (mem_messagesIn.mp hr)
  conversations := conversations_applyAll hd.conversations h.referring.conversations

theorem feeding : store.RelyGuarantee (fun _ _ => true) (fun _ _ => true) Streams Feeding where
  start d id task hd := by
    refine ⟨publishing_opened d id task hd.outbox, allocating_opened hd id task, ?_⟩
    exact ⟨by simp [Language.opened], by simp [Language.opened], fun m status _ => .inl ⟨rfl, rfl⟩⟩
  exec _ _ _ _ _ hd ht _ htodo ho :=
    ⟨ht.publishing.advance hd.outbox htodo ho,
      ht.allocating.advance ht.publishing.disciplined htodo ho, ht.referring.advance hd htodo ho⟩
  commit _ _ hd ht _ _ _ := ht.commit hd
  rely d t u _ ht hu hcov hcov' hdis _ _ _ := by
    refine ⟨Publishing.rely hu.publishing hcov' hdis ht.publishing hcov,
      ht.allocating.rely hu.allocating hcov hcov' hdis,
      ht.referring.messages, ht.referring.conversations, fun m status htask => ?_⟩
    exact (ht.referring.reports m status htask).imp id fun hm => message_isSome_applyAll hm _

/-! ### How a stream evolves -/

/-- What may happen to an account's stream from one committed state to a later one: the next
sequence grows, and no slot below it is filled any more. -/
def Evolves (a : ActorRef) (d d' : Database) : Prop :=
  ∀ st, d.stream a = some st → ∃ st', d'.stream a = some st' ∧ st'.syncFloor = st.syncFloor ∧
    st.nextSequence ≤ st'.nextSequence ∧
    ∀ x ∈ d'.slots a, x.2 < st.nextSequence → x ∈ d.slots a

theorem Evolves.refl (a : ActorRef) (d : Database) : Evolves a d d :=
  fun st hst => ⟨st, hst, rfl, Nat.le_refl _, fun _ hx _ => hx⟩

theorem Evolves.trans {d'' : Database} (h : Evolves a d d') (h' : Evolves a d' d'') :
    Evolves a d d'' := by
  intro st hst
  obtain ⟨st', hst', hfloor, hle, hold⟩ := h st hst
  obtain ⟨st'', hst'', hfloor', hle', hold'⟩ := h' st' hst'
  refine ⟨st'', hst'', hfloor'.trans hfloor, Nat.le_trans hle hle', fun x hx hlt => ?_⟩
  exact hold x (hold' x hx (Nat.lt_of_lt_of_le hlt hle)) hlt

theorem Allocating.evolves (h : Allocating d t) : Evolves a d (store.view d t) := by
  intro st hst
  obtain ⟨st', hst', hfloor, hle, hnew⟩ := h.grows a st hst
  refine ⟨st', hst', hfloor, hle, fun x hx hlt => ?_⟩
  rcases mem_append.mp ((slots_applyAll d t.writes a).subset hx) with hx | hx
  · exact hx
  · exact absurd (hnew x hx) (Nat.not_le.mpr hlt)

/-- The run rule: every step of every run lets every stream evolve. -/
theorem evolves_of_steps {s s' : Sessions Database Statement Check Write Lock Task}
    (h : (server Streams).Reachable s) (hs : (server Streams).Steps (fun _ _ => True) s s') :
    Evolves a s.committed s'.committed := by
  suffices (server Streams).Reachable s' ∧ Evolves a s.committed s'.committed from this.2
  refine hs.preserves (I := fun s' => (server Streams).Reachable s' ∧
    Evolves a s.committed s'.committed) ?_ ⟨h, .refl a _⟩
  rintro s₁ l s₂ ⟨hr, he⟩ - hl
  refine ⟨hr.step trivial hl, ?_⟩
  rcases committed_step hl with hc | ⟨t, ht, -, -, -, hc⟩
  · rwa [hc]
  · rw [hc]
    exact he.trans ((feeding.reachable (fun _ hd => hd) hr).transaction t ht).allocating.evolves

end SiliconDm.Server
