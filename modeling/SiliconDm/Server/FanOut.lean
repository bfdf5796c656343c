import SiliconDm.Server.Footprint

/-!
# Delivery fan-out

A transaction that sends, edits or deletes a message reads the participants of the conversation
once, after it has taken the conversation's lock, and inserts one delivery for each of them.
Joins need the same lock, so nobody can join before the commit; accounts may still be deleted or
leave, which only takes participants away. Source: `messages.rs:720–761`,
`revisions.rs:177–236`.
-/

namespace SiliconDm.Server

open Base List

/-- The unique indexes of the outbox: one delivery per target and reference. -/
def Delivery.key (row : Delivery) : ActorRef × DeliveryRef :=
  (row.target, row.ref)

/-- What the constraints and foreign keys of the tables say about a database. -/
structure Outbox (d : Database) : Prop where
  keyed : (d.deliveries.map Delivery.key).Nodup
  known : ∀ row ∈ d.deliveries, ∀ m r, row.ref = .message m r → (d.message m).isSome = true
  placed : ∀ row ∈ d.messages, (d.isGroup row.conversation).isSome = true

/-! ### The stages of a publishing transaction -/

/-- Some statement of the transaction saw the account take part in the conversation. -/
def Seen (t : Open) (c : Nat) (a : ActorRef) : Prop :=
  ∃ v ∈ t.views, a ∈ v.effectiveParticipants c

/-- The delivery of the reference to the account is still to be inserted. -/
def Pending (t : Open) (ref : DeliveryRef) (c : Nat) (a : ActorRef) : Prop :=
  .message (.deliver a ref c) ∈ t.todo ∨ .message (.enqueue a ref c) ∈ t.todo

/-- A statement that delivers the reference to an account the transaction has seen. -/
inductive Delivers (t : Open) (ref : DeliveryRef) (c : Nat) : Statement → Prop
  | deliver {a : ActorRef} (h : Seen t c a) : Delivers t ref c (.message (.deliver a ref c))
  | openStream (a : ActorRef) (high : Nat) : Delivers t ref c (.message (.openStream a high))
  | enqueue {a : ActorRef} (h : Seen t c a) : Delivers t ref c (.message (.enqueue a ref c))

/-- The transaction holds the message, which belongs to the conversation. -/
structure Held (d : Database) (t : Open) (m c : Nat) : Prop where
  lock : .message m ∈ t.locks
  row : ∃ row, (store.view d t).message m = some row ∧ row.conversation = c

/-- The revision is new: no committed delivery carries it. -/
def Unpublished (d : Database) (m r : Nat) : Prop :=
  ∀ row ∈ d.deliveries, row.ref ≠ .message m r

/-- The participants have been read. Every participant there still is has its delivery, or the
statement that will insert it is still to come. -/
structure Fanned (d : Database) (t : Open) (m c r : Nat) : Prop where
  held : Held d t m c
  lock : .conversation c ∈ t.locks
  unpublished : Unpublished d m r
  todo : ∀ s ∈ t.todo, Delivers t (.message m r) c s
  inserted : ∀ row ∈ deliveriesIn t.writes, row.ref = .message m r ∧ Seen t c row.target
  covers : ∀ a ∈ d.effectiveParticipants c,
    (∃ row ∈ deliveriesIn t.writes, row.target = a) ∨ Pending t (.message m r) c a

/-- The transaction publishes the message, an edit or a tombstone of it in the conversation. -/
def Task.publishes (m c : Nat) : Task → Prop
  | .sendMessage m' c' _ => m' = m ∧ c' = c
  | .reviseMessage m' c' _ _ _ _ => m' = m ∧ c' = c
  | _ => False

def reviseStatement (m : Nat) (content : Option String) (now : Nat) : Statement :=
  .message (match content with
    | some content => .edit m content now
    | none => .tombstone m now)

inductive Opening (m c : Nat) : Task → List Statement → Prop
  | send (sender : ActorRef) : Opening m c (.sendMessage m c sender)
      [.message (.requireParticipant c sender), .message (.insert m c sender),
        .message (.fanOut m c 1)]
  | insert (sender : ActorRef) : Opening m c (.sendMessage m c sender)
      [.message (.insert m c sender), .message (.fanOut m c 1)]
  | revise (actor : ActorRef) (reviser : Reviser) (content : Option String) (now : Nat) :
      Opening m c (.reviseMessage m c actor reviser content now)
        [.message (.requireReviser reviser content.isSome),
          .message (.original m c actor reviser), .message (.requireNotDeleted m),
          reviseStatement m content now, .message (.nextRevision m c)]
  | original (actor : ActorRef) (reviser : Reviser) (content : Option String) (now : Nat) :
      Opening m c (.reviseMessage m c actor reviser content now)
        [.message (.original m c actor reviser), .message (.requireNotDeleted m),
          reviseStatement m content now, .message (.nextRevision m c)]

/-- An edit or tombstone that holds its message and has not been numbered. -/
inductive Claimed (m c : Nat) : List Statement → Prop
  | check (content : Option String) (now : Nat) : Claimed m c
      [.message (.requireNotDeleted m), reviseStatement m content now,
        .message (.nextRevision m c)]
  | write (content : Option String) (now : Nat) : Claimed m c
      [reviseStatement m content now, .message (.nextRevision m c)]
  | number : Claimed m c [.message (.nextRevision m c)]

/-- A message is sent as revision 1. -/
def FirstIfSent (t : Open) (r : Nat) : Prop :=
  ∀ m c sender, t.task = .sendMessage m c sender → r = 1

/-- How far a publishing transaction has come; `r` is the revision it publishes. -/
inductive Stage (d : Database) (t : Open) (m c : Nat) : Prop
  | opening (hw : t.writes = []) (htodo : Opening m c t.task t.todo)
  | claimed (hr : ∀ r, FirstIfSent t r) (hw : deliveriesIn t.writes = []) (held : Held d t m c)
      (htodo : Claimed m c t.todo)
  | numbered (r : Nat) (hr : FirstIfSent t r) (hw : deliveriesIn t.writes = [])
      (held : Held d t m c) (new : Unpublished d m r)
      (htodo : t.todo = [.message (.touch c), .message (.fanOut m c r)])
  | ready (r : Nat) (hr : FirstIfSent t r) (hw : deliveriesIn t.writes = [])
      (held : Held d t m c) (lock : .conversation c ∈ t.locks) (new : Unpublished d m r)
      (htodo : t.todo = [.message (.fanOut m c r)])
  | fanned (r : Nat) (hr : FirstIfSent t r) (h : Fanned d t m c r)

/-- A status report delivers nothing but the status. -/
structure StatusOnly (t : Open) (m : Nat) (status : MessageStatus) : Prop where
  todo : ∀ s ∈ t.todo, s = .message (.reportStatus m status) ∨
    (∃ a high, s = .message (.openStream a high)) ∨
    ∃ a c, s = .message (.deliver a (.messageStatus m status) c) ∨
      s = .message (.enqueue a (.messageStatus m status) c)
  inserted : ∀ row ∈ deliveriesIn t.writes, row.ref = .messageStatus m status

structure Publishing (d : Database) (t : Open) : Prop where
  disciplined : Disciplined t
  keyed : (d.deliveries.map Delivery.key ++ (deliveriesIn t.writes).map Delivery.key).Nodup
  stage : ∀ m c, t.task.publishes m c → Stage d t m c
  status : ∀ m status, t.task = .reportStatus m status → StatusOnly t m status
  inserts : ∀ m c sender, .message (.insert m c sender) ∈ t.todo → t.task = .sendMessage m c sender
  revises : ∀ m content now, reviseStatement m content now ∈ t.todo → ∃ c, t.task.publishes m c
  messages : ∀ row, .message row ∈ t.writes →
    ∃ sender, t.task = .sendMessage row.id row.conversation sender
  histories : ∀ row, .history row ∈ t.writes → ∃ c, t.task.publishes row.message c
  placed : ∀ row, .message row ∈ t.writes → (d.isGroup row.conversation).isSome = true

/-! ### One statement -/

variable {d : Database} {t u : Open} {statement : Statement} {rest : List Statement}
  {o : Outcome Statement Check Write Lock} {m c r : Nat}

theorem view_advance : store.view d (store.advance d t rest o) =
    store.applyAll (store.view d t) o.writes :=
  foldl_append ..

theorem Held.advance (h : Held d t m c) : Held d (store.advance d t rest o) m c := by
  obtain ⟨row, hr, hc⟩ := h.row
  refine ⟨mem_append_left _ h.lock, row, ?_, hc⟩
  rw [view_advance, message_applyAll, hr]
  rfl

variable {a : ActorRef} {ref : DeliveryRef} {v : Database}

theorem Seen.advance (h : Seen t c a) : Seen (store.advance d t rest o) c a := by
  obtain ⟨v, hv, ha⟩ := h
  exact ⟨v, mem_append_left _ hv, ha⟩

theorem Delivers.advance {s : Statement} (h : Delivers t ref c s) :
    Delivers (store.advance d t rest o) ref c s := by
  cases h with
  | deliver h => exact .deliver h.advance
  | openStream a high => exact .openStream a high
  | enqueue h => exact .enqueue h.advance

/-- The three statements of a delivery. -/
theorem deliver_eq_ok (h : messageStatement (.deliver a ref c) v = .ok o) :
    o.writes = [] ∧ (o.next = [.message (.enqueue a ref c)] ∨
      ∃ high, o.next = [.message (.openStream a high), .message (.enqueue a ref c)]) := by
  simp only [messageStatement] at h
  split at h <;> cases h
  · exact ⟨rfl, .inl rfl⟩
  · exact ⟨rfl, .inr ⟨_, rfl⟩⟩

theorem openStream_eq_ok {high : Nat} (h : messageStatement (.openStream a high) v = .ok o) :
    o.next = [] ∧ (v.stream a ≠ none ∧ o.writes = [] ∨
      v.stream a = none ∧
        o.writes = [.stream { actor := a, nextSequence := high + 1, syncFloor := high }]) := by
  simp only [messageStatement] at h
  split at h <;> cases h
  next st hs => exact ⟨rfl, .inl ⟨by simp [hs], rfl⟩⟩
  next hs => exact ⟨rfl, .inr ⟨hs, rfl⟩⟩

theorem enqueue_eq_ok (h : messageStatement (.enqueue a ref c) v = .ok o) :
    o.next = [] ∧ ∃ st, v.stream a = some st ∧
      ((a, ref) ∈ v.deliveries.map Delivery.key ∧ o.writes = [] ∨
        (a, ref) ∉ v.deliveries.map Delivery.key ∧
          o.writes = [.stream { st with nextSequence := st.nextSequence + 1 },
            .delivery (newDelivery a ref c st.nextSequence)]) := by
  simp only [messageStatement, enqueueStatement] at h
  split at h
  next => cases h
  next st hs =>
    have hkey : (v.deliveries.any fun row => decide (row.target = a ∧ row.ref = ref)) = true ↔
        (a, ref) ∈ v.deliveries.map Delivery.key := by
      simp [Delivery.key, List.mem_map]
    split at h <;> cases h
    next hany => exact ⟨rfl, st, hs, .inl ⟨hkey.mp hany, rfl⟩⟩
    next hany => exact ⟨rfl, st, hs, .inr ⟨fun hk => hany (hkey.mpr hk), rfl⟩⟩

theorem deliveries_view (h : Disciplined t) (hs : t.task.scope = .message) :
    (store.view d t).deliveries = d.deliveries ++ deliveriesIn t.writes := by
  apply deliveries_applyAll
  intro w hw
  exact hs ▸ h.writes w hw

theorem pending_advance (h : Pending t ref c a) (htodo : t.todo = statement :: rest)
    (h₁ : statement ≠ .message (.deliver a ref c)) (h₂ : statement ≠ .message (.enqueue a ref c)) :
    Pending (store.advance d t rest o) ref c a := by
  rcases h with h | h <;> rw [htodo] at h <;> rcases mem_cons.mp h with h | h
  · exact absurd h.symm h₁
  · exact .inl (mem_append_right _ h)
  · exact absurd h.symm h₂
  · exact .inr (mem_append_right _ h)

/-- A delivering statement keeps every participant covered. -/
theorem Fanned.advance (h : Fanned d t m c r) (hdis : Disciplined t)
    (hs : t.task.scope = .message) (htodo : t.todo = statement :: rest)
    (ho : store.exec statement (store.view d t) = some o) :
    Fanned d (store.advance d t rest o) m c r := by
  have hexec := exec_eq_some ho
  have hrest : ∀ s ∈ rest, Delivers (store.advance d t rest o) (.message m r) c s :=
    fun s hs => (h.todo s (by simp [htodo, hs])).advance
  have hold : ∀ row ∈ deliveriesIn t.writes,
      row.ref = .message m r ∧ Seen (store.advance d t rest o) c row.target :=
    fun row hr => ⟨(h.inserted row hr).1, (h.inserted row hr).2.advance⟩
  have hlock : .conversation c ∈ (store.advance d t rest o).locks := mem_append_left _ h.lock
  have hws : deliveriesIn (store.advance d t rest o).writes =
      deliveriesIn t.writes ++ deliveriesIn o.writes := deliveriesIn_append ..
  cases h.todo statement (by simp [htodo]) with
  | @deliver a hseen =>
    obtain ⟨hw, hnext⟩ := deliver_eq_ok hexec
    rw [hw, show deliveriesIn [] = [] from rfl, append_nil] at hws
    have henq : .message (.enqueue a (.message m r) c) ∈ o.next := by
      rcases hnext with hn | ⟨high, hn⟩ <;> simp [hn]
    refine ⟨h.held.advance, hlock, h.unpublished, ?_, by rwa [hws], ?_⟩
    · intro s hs
      rcases mem_append.mp hs with hs | hs
      · rcases hnext with hn | ⟨high, hn⟩ <;> rw [hn] at hs
        · obtain rfl := mem_singleton.mp hs
          exact .enqueue hseen.advance
        · rcases mem_pair.mp hs with rfl | rfl
          · exact .openStream _ _
          · exact .enqueue hseen.advance
      · exact hrest s hs
    · intro a' ha'
      rw [hws]
      rcases h.covers a' ha' with hr | hp
      · exact .inl hr
      by_cases haa : a' = a
      · subst haa
        exact .inr (.inr (mem_append_left _ henq))
      · exact .inr (pending_advance hp htodo (by simp [Ne.symm haa]) (by simp))
  | openStream a high =>
    obtain ⟨hn, hw⟩ := openStream_eq_ok hexec
    have hnone : deliveriesIn o.writes = [] := by
      rcases hw with ⟨-, hw⟩ | ⟨-, hw⟩ <;> rw [hw] <;> rfl
    rw [hnone, append_nil] at hws
    refine ⟨h.held.advance, hlock, h.unpublished, ?_, by rwa [hws], ?_⟩
    · exact forall_mem_append.mpr ⟨by simp [hn], hrest⟩
    · intro a' ha'
      rw [hws]
      exact (h.covers a' ha').imp id
        fun hp => pending_advance hp htodo (by simp) (by simp)
  | @enqueue a hseen =>
    obtain ⟨hn, st, -, hw⟩ := enqueue_eq_ok hexec
    -- the account has its delivery afterwards, inserted now or before
    have hdone : ∃ row ∈ deliveriesIn (store.advance d t rest o).writes, row.target = a := by
      rw [hws]
      rcases hw with ⟨hk, hw⟩ | ⟨-, hw⟩
      · obtain ⟨row, hr, hkey⟩ := List.mem_map.mp hk
        obtain ⟨hta, hre⟩ := Prod.mk.inj hkey
        rw [deliveries_view hdis hs] at hr
        rcases mem_append.mp hr with hr | hr
        · exact absurd hre (h.unpublished row hr)
        · exact ⟨row, mem_append_left _ hr, hta⟩
      · refine ⟨newDelivery a (.message m r) c st.nextSequence,
          mem_append_right _ (mem_deliveriesIn.mpr ?_), rfl⟩
        simp [hw]
    refine ⟨h.held.advance, hlock, h.unpublished, ?_, ?_, ?_⟩
    · exact forall_mem_append.mpr ⟨by simp [hn], hrest⟩
    · rw [hws]
      intro row hr
      rcases mem_append.mp hr with hr | hr
      · exact hold row hr
      · rcases hw with ⟨-, hw⟩ | ⟨-, hw⟩
        · simp [hw, deliveriesIn] at hr
        · obtain rfl : row = newDelivery a (.message m r) c st.nextSequence := by
            simpa [hw, deliveriesIn] using hr
          exact ⟨rfl, hseen.advance⟩
    · intro a' ha'
      by_cases haa : a' = a
      · exact .inl (haa ▸ hdone)
      rcases h.covers a' ha' with ⟨row, hr, hta⟩ | hp
      · exact .inl ⟨row, by rw [hws]; exact mem_append_left _ hr, hta⟩
      · exact .inr (pending_advance hp htodo (by simp) (by simp [Ne.symm haa]))

theorem not_admits_message {w : Write} (h : Scope.message.allows w = true) (c : Nat) :
    w.admits c = false := by
  cases w <;> first
    | rfl
    | cases h

theorem isGroup_applyAll {ws : List Write} (h : ∀ w ∈ ws, w.admits c = false) :
    (store.applyAll d ws).isGroup c = d.isGroup c :=
  store.applyAll_eq (f := fun d => d.isGroup c) fun w hw _ => isGroup_apply (h w hw)

/-- The next revision is above every delivery of the message. -/
theorem unpublished_next (d : Database) (m : Nat) :
    Unpublished d m (coalesceMax (revisionsOf d m) + 1) := by
  intro row hr href
  have : coalesceMax (revisionsOf d m) + 1 ∈ revisionsOf d m :=
    mem_filterMap.mpr ⟨row, hr, by simp [href]⟩
  have := le_coalesceMax this
  omega

/-- A message that does not exist has not been published. -/
theorem Outbox.unpublished (h : Outbox d) (hm : d.message m = none) (r : Nat) :
    Unpublished d m r := by
  intro row hr href
  simpa [hm] using h.known row hr m r href

/-- What the statements before the fan-out do. -/
theorem insert_eq_ok {sender : ActorRef} (h : messageStatement (.insert m c sender) v = .ok o) :
    (v.isGroup c).isSome = true ∧ v.message m = none ∧ o.next = [] ∧
      ∃ row : Message, row.id = m ∧ row.conversation = c ∧ o.writes = [.advance c, .message row] := by
  simp only [messageStatement] at h
  split at h <;> cases h
  next conversation hc hm =>
    exact ⟨by simp [Database.isGroup, hc], hm, rfl, _, rfl, rfl, rfl⟩

theorem original_eq_ok {actor : ActorRef} {reviser : Reviser}
    (h : messageStatement (.original m c actor reviser) v = .ok o) :
    o = { locks := [.message m] } ∧ ∃ row, v.message m = some row ∧ row.conversation = c := by
  simp only [messageStatement] at h
  split at h
  next => cases h
  next row hr =>
    split at h
    next => cases h
    next hc =>
      split at h <;> cases h
      exact ⟨rfl, row, hr, not_not.mp hc⟩

theorem revise_eq_ok {content : Option String} {now : Nat}
    (h : (reviseStatement m content now).exec v = .ok o) :
    o.next = [] ∧ ∃ row : MessageHistory, row.message = m ∧ o.writes = [.history row] := by
  have hr : ∀ row : MessageHistory, historyStatement v row = .ok o →
      o.next = [] ∧ o.writes = [.history row] := by
    intro row h
    unfold historyStatement at h
    split at h <;> cases h
    exact ⟨rfl, rfl⟩
  cases content with
  | some content =>
    refine ⟨(hr _ h).1, _, ?_, (hr _ h).2⟩
    unfold editedHistory
    split
    next => rfl
    next row hh => exact (mem_of_getRow_eq_some hh).2
  | none =>
    refine ⟨(hr _ h).1, _, ?_, (hr _ h).2⟩
    unfold deletedHistory
    split
    next => rfl
    next row hh => exact (mem_of_getRow_eq_some hh).2

theorem checked_eq_ok {s : MessageStatement} (h : (Statement.message s).exec v = .ok o)
    (hs : (∃ c a, s = .requireParticipant c a) ∨ (∃ r e, s = .requireReviser r e) ∨
      ∃ m, s = .requireNotDeleted m) : o = {} := by
  rcases hs with ⟨c, a, rfl⟩ | ⟨r, e, rfl⟩ | ⟨m, rfl⟩ <;>
    simp only [Statement.exec, messageStatement] at h <;> split at h <;> cases h <;> rfl

theorem exists_message {s : Statement} (h : s.scope = .message) : ∃ s', s = .message s' := by
  cases s <;> cases h
  exact ⟨_, rfl⟩

theorem scope_of_publishes {task : Task} (h : task.publishes m c) : task.scope = .message := by
  cases task <;> first
    | rfl
    | exact h.elim

theorem Opening.advance {task : Task} (h : Opening m c task (statement :: rest)) (hd : Outbox d)
    (hv : store.view d t = d) (htask : t.task = task) (hw : t.writes = [])
    (ho : statement.exec d = .ok o) : Stage d (store.advance d t rest o) m c := by
  have hws : (store.advance d t rest o).writes = o.writes := by simp [Language.advance, hw]
  cases h with
  | send sender =>
    obtain rfl := checked_eq_ok ho (.inl ⟨_, _, rfl⟩)
    exact .opening hws (htask ▸ .insert sender)
  | insert sender =>
    obtain ⟨-, hm, hn, row, hid, hc, hows⟩ := insert_eq_ok ho
    have hneeds : store.needs o = o.locks ++ [.conversation c, .message m] := by
      simp [Language.needs, hows, store, Write.key, hid]
    refine .ready 1 (fun _ _ _ _ => rfl) (by rw [hws, hows]; rfl) ⟨?_, row, ?_, hc⟩ ?_
      (hd.unpublished hm 1) ?_
    · simp [Language.advance, hneeds]
    · rw [view_advance, message_applyAll, hv, hm, hows]
      simp [messagesIn, getRow, hid]
    · simp [Language.advance, hneeds]
    · simp [Language.advance, hn]
  | revise actor reviser content now =>
    obtain rfl := checked_eq_ok ho (.inr (.inl ⟨_, _, rfl⟩))
    exact .opening hws (htask ▸ .original actor reviser content now)
  | original actor reviser content now =>
    obtain ⟨rfl, row, hr, hc⟩ := original_eq_ok ho
    refine .claimed ?_ (by rw [hws]; rfl) ⟨?_, row, ?_, hc⟩ (.check content now)
    · intro r m' c' sender he
      cases htask.symm.trans he
    · simp [Language.advance, Language.needs]
    · rw [view_advance, message_applyAll, hv, hr]
      rfl

theorem Claimed.advance (h : Claimed m c (statement :: rest)) (hdis : Disciplined t)
    (hs : t.task.scope = .message) (hr : ∀ r, FirstIfSent t r) (hw : deliveriesIn t.writes = [])
    (held : Held d t m c) (ho : statement.exec (store.view d t) = .ok o) :
    Stage d (store.advance d t rest o) m c := by
  have hws : deliveriesIn (store.advance d t rest o).writes = deliveriesIn o.writes := by
    simp [Language.advance, deliveriesIn_append, hw]
  cases h with
  | check content now =>
    obtain rfl := checked_eq_ok ho (.inr (.inr ⟨_, rfl⟩))
    exact .claimed hr hws held.advance (.write content now)
  | write content now =>
    obtain ⟨hn, row, -, hows⟩ := revise_eq_ok ho
    refine .claimed hr (by rw [hws, hows]; rfl) held.advance ?_
    have htodo : (store.advance d t [.message (.nextRevision m c)] o).todo =
        [.message (.nextRevision m c)] := by simp [Language.advance, hn]
    rw [htodo]
    exact .number
  | number =>
    have hrev : revisionsOf (store.view d t) m = revisionsOf d m := by
      unfold revisionsOf
      rw [deliveries_view hdis hs, hw, append_nil]
    cases ho
    refine .numbered (coalesceMax (revisionsOf d m) + 1) (hr _) hws held.advance
      (unpublished_next d m) ?_
    simp [Language.advance, hrev]

/-- One statement takes a publishing transaction to its next stage. -/
theorem Stage.advance (h : Stage d t m c) (hd : Outbox d) (hp : t.task.publishes m c)
    (hdis : Disciplined t)
    (hplaced : ∀ row, .message row ∈ t.writes → (d.isGroup row.conversation).isSome = true)
    (htodo : t.todo = statement :: rest)
    (ho : store.exec statement (store.view d t) = some o) :
    Stage d (store.advance d t rest o) m c := by
  have hexec := exec_eq_some ho
  have hs := scope_of_publishes hp
  have halw : ∀ w ∈ t.writes, Scope.message.allows w = true := fun w hw => hs ▸ hdis.writes w hw
  cases h with
  | opening hw hop =>
    have hv : store.view d t = d := by simp [Language.view, Language.applyAll, hw]
    rw [htodo] at hop
    rw [hv] at hexec
    exact hop.advance hd hv rfl hw hexec
  | claimed hr hw held hcl =>
    rw [htodo] at hcl
    exact hcl.advance hdis hs hr hw held hexec
  | numbered r hr hw held new hn =>
    obtain ⟨rfl, rfl⟩ := List.cons.inj (htodo.symm.trans hn)
    -- the conversation of the message exists, so the update locks it
    have hgrp : ((store.view d t).isGroup c).isSome = true := by
      obtain ⟨row, hrow, hc⟩ := held.row
      have hm : row ∈ d.messages ++ messagesIn t.writes :=
        messages_applyAll d t.writes ▸ (mem_of_getRow_eq_some hrow).1
      have hd' : (d.isGroup row.conversation).isSome = true := by
        rcases mem_append.mp hm with hm | hm
        · exact hd.placed row hm
        · exact hplaced row (mem_messagesIn.mp hm)
      rw [show (store.view d t).isGroup c = d.isGroup c from
        isGroup_applyAll fun w hw => not_admits_message (halw w hw) c]
      exact hc ▸ hd'
    have hconv : ((store.view d t).conversation c).isSome = true := by
      simpa [Database.isGroup] using hgrp
    cases hexec
    refine .ready r hr ?_ held.advance ?_ new (by simp [Language.advance])
    · simpa [Language.advance, deliveriesIn_append] using hw
    · simp [Language.advance, Language.needs, hconv]
  | ready r hr hw held lock new hn =>
    obtain ⟨rfl, rfl⟩ := List.cons.inj (htodo.symm.trans hn)
    have heff : (store.view d t).effectiveParticipants c = d.effectiveParticipants c :=
      effectiveParticipants_message halw c
    cases hexec
    refine .fanned r hr ⟨held.advance, mem_append_left _ lock, new, ?_, ?_, ?_⟩
    · intro s hs
      obtain ⟨a, ha, rfl⟩ := List.mem_map.mp (by simpa [Language.advance] using hs)
      refine .deliver ⟨store.view d t, ?_, ha⟩
      simp [Language.advance]
    · intro row hrow
      simp [Language.advance, hw] at hrow
    · intro a ha
      refine .inr (.inl ?_)
      rw [← heff] at ha
      simpa [Language.advance] using ha
  | fanned r hr h =>
    exact .fanned r hr (h.advance hdis hs htodo ho)

/-! ### Every transaction -/

/-- Only an enqueue inserts deliveries, and only one that the target does not have. -/
theorem deliveriesIn_exec (h : statement.exec v = .ok o) :
    deliveriesIn o.writes = [] ∨ ∃ a ref c n, statement = .message (.enqueue a ref c) ∧
      deliveriesIn o.writes = [newDelivery a ref c n] ∧
        (a, ref) ∉ v.deliveries.map Delivery.key := by
  have halw := (statement.exec_scope h).2
  by_cases hs : statement.scope = .message
  · obtain ⟨s, rfl⟩ := exists_message hs
    by_cases he : ∃ a ref c, s = .enqueue a ref c
    · obtain ⟨a, ref, c, rfl⟩ := he
      obtain ⟨-, st, -, ⟨-, hw⟩ | ⟨hk, hw⟩⟩ := enqueue_eq_ok h
      · left
        rw [hw]
        rfl
      · exact .inr ⟨a, ref, c, st.nextSequence, rfl, by rw [hw]; rfl, hk⟩
    · left
      cases s <;> simp only [Statement.exec, messageStatement, historyStatement] at h
      case enqueue a ref c => exact absurd ⟨a, ref, c, rfl⟩ he
      all_goals (try split at h) <;> (try split at h) <;> (try split at h) <;> cases h <;> rfl
  · left
    apply filterMap_eq_nil_iff.mpr
    intro w hw
    have := halw w hw
    cases w <;> try rfl
    cases hsc : statement.scope <;> simp [hsc, Scope.allows] at this hs

/-- Statements that begin the publication of a message, an edit or a tombstone. -/
def Statement.begins : Statement → Bool
  | .message (.insert ..) => true
  | .message (.edit ..) => true
  | .message (.tombstone ..) => true
  | _ => false

theorem begins_revise (m : Nat) (content : Option String) (now : Nat) :
    (reviseStatement m content now).begins = true := by
  cases content <;> rfl

/-- No statement leads to one that begins a publication. -/
theorem begins_next (h : statement.exec v = .ok o) {n : Statement} (hn : n ∈ o.next) :
    n.begins = false := by
  have hsc := (statement.exec_scope h).1 n hn
  by_cases hs : statement.scope = .message
  · obtain ⟨s, rfl⟩ := exists_message hs
    cases s <;>
      simp only [Statement.exec, messageStatement, historyStatement, enqueueStatement] at h
    case fanOut =>
      cases h
      obtain ⟨a, -, rfl⟩ := List.mem_map.mp hn
      rfl
    all_goals (try split at h) <;> (try split at h) <;> (try split at h) <;> cases h
    all_goals first
      | exact absurd hn not_mem_nil
      | (rcases mem_pair.mp hn with rfl | rfl <;> rfl)
      | (obtain rfl := mem_singleton.mp hn; rfl)
  · cases n with
    | message s => exact absurd hsc.symm hs
    | _ => rfl

theorem message_mem_exec (h : statement.exec v = .ok o) {row : Message}
    (hr : .message row ∈ o.writes) :
    (∃ sender, statement = .message (.insert row.id row.conversation sender)) ∧
      (v.isGroup row.conversation).isSome = true := by
  have halw := (statement.exec_scope h).2 _ hr
  have hs : statement.scope = .message := by
    cases hsc : statement.scope <;> simp [hsc, Scope.allows] at halw ⊢
  obtain ⟨s, rfl⟩ := exists_message hs
  by_cases he : ∃ m c sender, s = .insert m c sender
  · obtain ⟨m, c, sender, rfl⟩ := he
    obtain ⟨hg, -, -, row', hid, hc, hw⟩ := insert_eq_ok h
    obtain rfl : row = row' := by simpa [hw] using hr
    exact ⟨⟨sender, by rw [hid, hc]⟩, hc ▸ hg⟩
  · cases s <;>
      simp only [Statement.exec, messageStatement, historyStatement, enqueueStatement] at h
    case insert m c sender => exact absurd ⟨m, c, sender, rfl⟩ he
    all_goals (try split at h) <;> (try split at h) <;> (try split at h) <;> cases h <;>
      simp at hr

theorem history_mem_exec (h : statement.exec v = .ok o) {row : MessageHistory}
    (hr : .history row ∈ o.writes) :
    ∃ content now, statement = reviseStatement row.message content now := by
  have halw := (statement.exec_scope h).2 _ hr
  have hs : statement.scope = .message := by
    cases hsc : statement.scope <;> simp [hsc, Scope.allows] at halw ⊢
  obtain ⟨s, rfl⟩ := exists_message hs
  by_cases he : ∃ m content now, .message s = reviseStatement m content now
  · obtain ⟨m, content, now, he⟩ := he
    rw [he] at h ⊢
    obtain ⟨-, row', hm, hw⟩ := revise_eq_ok h
    obtain rfl : row = row' := by simpa [hw] using hr
    exact ⟨content, now, by rw [hm]⟩
  · cases s <;>
      simp only [Statement.exec, messageStatement, historyStatement, enqueueStatement] at h
    case edit m content now => exact absurd ⟨m, some content, now, rfl⟩ he
    case tombstone m now => exact absurd ⟨m, none, now, rfl⟩ he
    all_goals (try split at h) <;> (try split at h) <;> (try split at h) <;> cases h <;>
      simp at hr

theorem publishing_opened (d : Database) (id : Nat) (task : Task) (hd : Outbox d) :
    Publishing d (store.opened id task) where
  disciplined := disciplined_opened id task
  keyed := by simpa [Language.opened, deliveriesIn] using hd.keyed
  stage := by
    intro m c hp
    refine .opening rfl ?_
    cases task <;> first
      | exact hp.elim
      | skip
    case sendMessage m' c' sender =>
      obtain ⟨rfl, rfl⟩ : m' = m ∧ c' = c := hp
      exact .send sender
    case reviseMessage m' c' actor reviser content now =>
      obtain ⟨rfl, rfl⟩ : m' = m ∧ c' = c := hp
      exact .revise actor reviser content now
  status := by
    rintro m status rfl
    refine ⟨fun s hs => .inl (mem_singleton.mp hs), ?_⟩
    simp [Language.opened, deliveriesIn]
  inserts := by
    intro m c sender hm
    have hs := scope_of_mem_code hm
    cases task <;> cases hs <;>
      simp [Language.opened, store, Task.code, reviseMessage] at hm
    case sendMessage =>
      obtain ⟨rfl, rfl, rfl⟩ := hm
      rfl
    case reviseMessage content _ => cases content <;> simp at hm
  revises := by
    intro m content now hm
    have hs := scope_of_mem_code hm
    cases task <;> cases content <;> cases hs <;>
      simp [Language.opened, store, Task.code, reviseMessage, reviseStatement] at hm
    case reviseMessage.none m' c' _ _ content' _ =>
      cases content' <;> simp at hm
      exact ⟨c', hm.1.symm, rfl⟩
    case reviseMessage.some m' c' _ _ content' _ _ =>
      cases content' <;> simp at hm
      exact ⟨c', hm.1.symm, rfl⟩
  messages := by simp [Language.opened]
  histories := by simp [Language.opened]
  placed := by simp [Language.opened]

theorem StatusOnly.advance {status : MessageStatus} (h : StatusOnly t m status)
    (htodo : t.todo = statement :: rest) (hexec : statement.exec (store.view d t) = .ok o) :
    StatusOnly (store.advance d t rest o) m status := by
  have hnext : ∀ s ∈ o.next, (∃ a high, s = .message (.openStream a high)) ∨
      ∃ a c, s = .message (.deliver a (.messageStatus m status) c) ∨
        s = .message (.enqueue a (.messageStatus m status) c) := by
    intro s hs
    rcases h.todo statement (by simp [htodo]) with rfl | ⟨a, high, rfl⟩ | ⟨a, c, rfl | rfl⟩
    · simp only [Statement.exec, messageStatement] at hexec
      split at hexec <;> cases hexec
      obtain rfl := mem_singleton.mp hs
      exact .inr ⟨_, _, .inl rfl⟩
    · simp [(openStream_eq_ok hexec).1] at hs
    · rcases (deliver_eq_ok hexec).2 with hn | ⟨high, hn⟩ <;> rw [hn] at hs
      · obtain rfl := mem_singleton.mp hs
        exact .inr ⟨_, _, .inr rfl⟩
      · rcases mem_pair.mp hs with rfl | rfl
        · exact .inl ⟨_, _, rfl⟩
        · exact .inr ⟨_, _, .inr rfl⟩
    · simp [(enqueue_eq_ok hexec).1] at hs
  constructor
  · exact forall_mem_append.mpr
      ⟨fun s hs => .inr (hnext s hs), fun s hs => h.todo s (by simp [htodo, hs])⟩
  · intro row hr
    rcases mem_append.mp (deliveriesIn_append _ _ ▸ hr) with hr | hr
    · exact h.inserted row hr
    rcases deliveriesIn_exec hexec with hnone | ⟨a, ref, c, n, rfl, hone, -⟩
    · simp [hnone] at hr
    obtain rfl : row = newDelivery a ref c n := by simpa [hone] using hr
    rcases h.todo (.message (.enqueue a ref c)) (by simp [htodo]) with he | ⟨_, _, he⟩ | ⟨_, _, he | he⟩ <;> cases he
    rfl

/-- One statement of any transaction. -/
theorem Publishing.advance (h : Publishing d t) (hd : Outbox d) (htodo : t.todo = statement :: rest)
    (ho : store.exec statement (store.view d t) = some o) :
    Publishing d (store.advance d t rest o) := by
  have hexec := exec_eq_some ho
  have hm : statement ∈ t.todo := by simp [htodo]
  -- statements that begin a publication were there before
  have hbegins : ∀ s ∈ (store.advance d t rest o).todo, s.begins = true → s ∈ t.todo := by
    intro s hs hb
    rcases mem_append.mp hs with hs | hs
    · simp [begins_next hexec hs] at hb
    · simp [htodo, hs]
  refine ⟨h.disciplined.advance htodo ho, ?_, ?_, ?_, ?_, ?_, ?_, ?_, ?_⟩
  · have hins : deliveriesIn (store.advance d t rest o).writes =
        deliveriesIn t.writes ++ deliveriesIn o.writes := deliveriesIn_append ..
    rw [hins]
    rcases deliveriesIn_exec hexec with hn | ⟨a, ref, c, n, rfl, hone, hk⟩
    · simpa [hn] using h.keyed
    · have hs : t.task.scope = .message := (h.disciplined.todo _ hm).symm
      rw [deliveries_view h.disciplined hs, map_append] at hk
      rw [hone, map_append, ← append_assoc]
      refine nodup_append.mpr ⟨h.keyed, by simp, ?_⟩
      intro k hk' k' hk'' he
      obtain rfl : k' = (a, ref) := by simpa [Delivery.key, newDelivery] using hk''
      exact hk (he ▸ hk')
  · intro m c hp
    exact (h.stage m c hp).advance hd hp h.disciplined h.placed htodo ho
  · intro m status htask
    exact (h.status m status htask).advance htodo hexec
  · intro m c sender hs
    exact h.inserts m c sender (hbegins _ hs rfl)
  · intro m content now hs
    exact h.revises m content now (hbegins _ hs (begins_revise ..))
  · intro row hr
    refine (mem_append.mp hr).elim (h.messages row) fun hr => ?_
    obtain ⟨⟨sender, rfl⟩, -⟩ := message_mem_exec hexec hr
    exact ⟨sender, h.inserts _ _ _ hm⟩
  · intro row hr
    refine (mem_append.mp hr).elim (h.histories row) fun hr => ?_
    obtain ⟨content, now, rfl⟩ := history_mem_exec hexec hr
    exact h.revises _ content now hm
  · intro row hr
    refine (mem_append.mp hr).elim (h.placed row) fun hr => ?_
    obtain ⟨⟨sender, rfl⟩, hg⟩ := message_mem_exec hexec hr
    have hs : t.task.scope = .message := (h.disciplined.todo _ hm).symm
    have hsame : (store.view d t).isGroup row.conversation = d.isGroup row.conversation :=
      isGroup_applyAll fun w hw => not_admits_message (hs ▸ h.disciplined.writes w hw) _
    exact hsame ▸ hg

/-! ### Commits of other transactions -/

/-- The keys of the outbox after some writes are old ones or inserted ones, each once more at
most. -/
theorem keys_applyAll (d : Database) (ws : List Write) :
    ((store.applyAll d ws).deliveries.map Delivery.key).Sublist
      (d.deliveries.map Delivery.key ++ (deliveriesIn ws).map Delivery.key) := by
  induction ws generalizing d with
  | nil => simp [Language.applyAll, deliveriesIn]
  | cons w ws ih =>
    refine (ih (w.apply d)).trans ?_
    have hcons : (deliveriesIn (w :: ws)).map Delivery.key =
        (deliveriesIn [w]).map Delivery.key ++ (deliveriesIn ws).map Delivery.key := by
      rw [← map_append, ← deliveriesIn_append]
      rfl
    rw [hcons, ← append_assoc]
    refine List.Sublist.append_right ?_ _
    cases w with
    | delivery row => simp [Write.apply, deliveriesIn]
    | acknowledge target ref now retain =>
      have : ((Write.acknowledge target ref now retain).apply d).deliveries.map Delivery.key =
          d.deliveries.map Delivery.key := by
        simp only [Write.apply, List.map_map]
        apply map_congr_left
        intro row _
        simp only [Function.comp_apply]
        split <;> rfl
      simp [this, deliveriesIn]
    | expire target ref =>
      simp only [Write.apply, deliveriesIn, filterMap_cons, filterMap_nil,
        map_nil, append_nil]
      exact filter_sublist.map _
    | _ => simp [Write.apply, deliveriesIn]

theorem isGroup_isSome_applyAll (ws : List Write) (h : (d.isGroup c).isSome = true) :
    ((store.applyAll d ws).isGroup c).isSome = true := by
  refine store.applyAll_invariant (P := fun d => (d.isGroup c).isSome = true) h fun w _ d h => ?_
  cases w with
  | conversation row =>
    simp only [Database.isGroup, Database.conversation, store, Write.apply, Option.isSome_map,
      getRow_append_singleton] at h ⊢
    simp [h]
  | advance c' => exact (isGroup_apply (w := .advance c') rfl).symm ▸ h
  | _ => exact h

/-- A transaction that has inserted deliveries of a message holds the message. -/
theorem Publishing.held (h : Publishing d t) {row : Delivery} (hr : row ∈ deliveriesIn t.writes)
    (href : row.ref = .message m r) : ∃ c, Held d t m c := by
  have hsc : t.task.scope = .message := by
    have := h.disciplined.writes _ (mem_deliveriesIn.mp hr)
    cases hs : t.task.scope <;> simp [hs, Scope.allows] at this ⊢
  have hpub : ∀ m' c, t.task.publishes m' c → ∃ c, Held d t m c := by
    intro m' c hp
    cases h.stage m' c hp with
    | opening hw _ => simp [hw, deliveriesIn] at hr
    | claimed _ hw _ _ => simp [hw] at hr
    | numbered _ _ hw _ _ _ => simp [hw] at hr
    | ready _ _ hw _ _ _ _ => simp [hw] at hr
    | fanned r' _ hf =>
      obtain ⟨rfl, -⟩ : m' = m ∧ r' = r := by
        simpa using (hf.inserted row hr).1.symm.trans href
      exact ⟨c, hf.held⟩
  cases htask : t.task with
  | sendMessage m' c' sender => exact hpub m' c' (by rw [htask]; exact ⟨rfl, rfl⟩)
  | reviseMessage m' c' actor reviser content now =>
    exact hpub m' c' (by rw [htask]; exact ⟨rfl, rfl⟩)
  | reportStatus m' status =>
    have := (h.status m' status htask).inserted row hr
    simp [href] at this
  | _ => simp [htask, Task.scope] at hsc

section Rely

variable (hu : Publishing d u) (hcov : store.Covered u) (hdis : t.locks.Disjoint u.locks)

include hcov hdis

theorem Held.rely (h : Held d t m c) : Held (store.view d u) t m c := by
  obtain ⟨row, hr, hc⟩ := h.row
  refine ⟨h.lock, row, ?_, hc⟩
  have hsame : (store.view d u).message m = d.message m :=
    message_view hcov fun hm => hdis h.lock hm
  refine (message_applyAll (store.view d u) t.writes m).trans ?_
  rw [hsame, ← hr]
  exact (message_applyAll d t.writes m).symm

include hu

omit hcov in
/-- Nobody else can publish a revision of a message that the transaction holds. -/
theorem Unpublished.rely (h : Unpublished d m r) (hm : .message m ∈ t.locks) :
    Unpublished (store.view d u) m r := by
  intro row hr href
  have hkey : row.key ∈ d.deliveries.map Delivery.key ++ (deliveriesIn u.writes).map Delivery.key :=
    (keys_applyAll d u.writes).subset (List.mem_map_of_mem hr)
  rcases mem_append.mp hkey with hk | hk
  · obtain ⟨row', hr', he⟩ := List.mem_map.mp hk
    exact h row' hr' ((congrArg Prod.snd he).trans href)
  · obtain ⟨row', hr', he⟩ := List.mem_map.mp hk
    obtain ⟨c, hheld⟩ := hu.held hr' ((congrArg Prod.snd he).trans href)
    exact hdis hm hheld.lock

theorem Fanned.rely (h : Fanned d t m c r) : Fanned (store.view d u) t m c r where
  held := h.held.rely hcov hdis
  lock := h.lock
  unpublished := h.unpublished.rely hu hdis h.held.lock
  todo := h.todo
  inserted := h.inserted
  covers a ha := by
    apply h.covers
    exact effectiveParticipants_applyAll
      (hu.disciplined.not_admits hcov fun hc => hdis h.lock hc) ha

theorem Stage.rely (h : Stage d t m c) : Stage (store.view d u) t m c := by
  cases h with
  | opening hw htodo => exact .opening hw htodo
  | claimed hr hw held htodo => exact .claimed hr hw (held.rely hcov hdis) htodo
  | numbered r hr hw held new htodo =>
    exact .numbered r hr hw (held.rely hcov hdis) (new.rely hu hdis held.lock) htodo
  | ready r hr hw held lock new htodo =>
    exact .ready r hr hw (held.rely hcov hdis) lock (new.rely hu hdis held.lock) htodo
  | fanned r hr h => exact .fanned r hr (h.rely hu hcov hdis)

/-- The commit of another transaction. -/
theorem Publishing.rely (h : Publishing d t) (hcov' : store.Covered t) :
    Publishing (store.view d u) t where
  disciplined := h.disciplined
  keyed := by
    have hsub := keys_applyAll d u.writes
    refine nodup_append.mpr ⟨hu.keyed.sublist hsub, (nodup_append.mp h.keyed).2.1, ?_⟩
    intro k hk k' hk' he
    subst he
    obtain ⟨row, hr, rfl⟩ := List.mem_map.mp hk'
    rcases mem_append.mp (hsub.subset hk) with hk | hk
    · exact (nodup_append.mp h.keyed).2.2 _ hk _ hk' rfl
    · obtain ⟨row', hr', he⟩ := List.mem_map.mp hk
      -- the two transactions would hold one entry of the unique index
      have h₁ : Lock.delivery row.target row.ref ∈ t.locks := hcov' _ (mem_deliveriesIn.mp hr)
      have h₂ : Lock.delivery row'.target row'.ref ∈ u.locks := hcov _ (mem_deliveriesIn.mp hr')
      obtain ⟨hta, hre⟩ := Prod.mk.inj he
      exact hdis h₁ (hta ▸ hre ▸ h₂)
  stage m c hp := (h.stage m c hp).rely hu hcov hdis
  status := h.status
  inserts := h.inserts
  revises := h.revises
  messages := h.messages
  histories := h.histories
  placed row hr := isGroup_isSome_applyAll _ (h.placed row hr)

end Rely

theorem Publishing.commit (h : Publishing d t) (hd : Outbox d) : Outbox (store.view d t) where
  keyed := h.keyed.sublist (keys_applyAll d t.writes)
  known := by
    intro row hr m r href
    have hmono : (d.message m).isSome = true → ((store.view d t).message m).isSome = true := by
      intro hm
      rw [show (store.view d t).message m = _ from message_applyAll d t.writes m]
      simp [hm]
    have hkey : row.key ∈ d.deliveries.map Delivery.key ++ (deliveriesIn t.writes).map Delivery.key :=
      (keys_applyAll d t.writes).subset (List.mem_map_of_mem hr)
    rcases mem_append.mp hkey with hk | hk
    · obtain ⟨row', hr', he⟩ := List.mem_map.mp hk
      exact hmono (hd.known row' hr' m r ((congrArg Prod.snd he).trans href))
    · obtain ⟨row', hr', he⟩ := List.mem_map.mp hk
      obtain ⟨c, hheld⟩ := h.held hr' ((congrArg Prod.snd he).trans href)
      obtain ⟨found, hfnd, -⟩ := hheld.row
      simp [hfnd]
  placed := by
    intro row hr
    have hmem : row ∈ d.messages ++ messagesIn t.writes := messages_applyAll d t.writes ▸ hr
    rcases mem_append.mp hmem with hmem | hmem
    · exact isGroup_isSome_applyAll _ (hd.placed row hmem)
    · exact isGroup_isSome_applyAll _ (h.placed row (mem_messagesIn.mp hmem))

/-- The outbox and every open transaction, in every run. -/
theorem publishing : store.RelyGuarantee (fun _ _ => true) (fun _ _ => true) Outbox Publishing where
  start d id task hd := publishing_opened d id task hd
  exec _ _ _ _ _ hd ht _ htodo ho := ht.advance hd htodo ho
  commit _ _ hd ht _ _ _ := ht.commit hd
  rely _ _ _ _ ht hu hcov hcov' hdis _ _ _ := Publishing.rely hu hcov' hdis ht hcov

/-! ### Exact fan-out -/

def Database.deliveryCount (d : Database) (a : ActorRef) (ref : DeliveryRef) : Nat :=
  (d.deliveries.map Delivery.key).count (a, ref)

/-- In the database that a transaction leaves, revision `r` of the message has exactly one
delivery for each effective participant of the conversation, and none for an account that the
transaction never saw take part. -/
structure ExactFanOut (d : Database) (t : Open) (m c r : Nat) : Prop where
  one : ∀ a ∈ d.effectiveParticipants c, d.deliveryCount a (.message m r) = 1
  only : ∀ row ∈ d.deliveries, row.ref = .message m r → Seen t c row.target

theorem Fanned.exact (h : Fanned d t m c r) (ht : Publishing d t) (hs : t.task.scope = .message)
    (htodo : t.todo = []) : ExactFanOut (store.view d t) t m c r := by
  have hrs := deliveries_view (d := d) ht.disciplined hs
  constructor
  · intro a ha
    have heff : (store.view d t).effectiveParticipants c = d.effectiveParticipants c :=
      effectiveParticipants_message (fun w hw => hs ▸ ht.disciplined.writes w hw) c
    rw [heff] at ha
    have hm : (a, DeliveryRef.message m r) ∈
        d.deliveries.map Delivery.key ++ (deliveriesIn t.writes).map Delivery.key := by
      rcases h.covers a ha with ⟨row, hr, hta⟩ | hp
      · refine mem_append_right _ (List.mem_map.mpr ⟨row, hr, ?_⟩)
        exact Prod.ext hta (h.inserted row hr).1
      · simp [Pending, htodo] at hp
    unfold Database.deliveryCount
    rw [hrs, map_append]
    exact count_eq_one_of_mem ht.keyed hm
  · intro row hr href
    rw [hrs] at hr
    rcases mem_append.mp hr with hr | hr
    · exact absurd href (h.unpublished row hr)
    · exact (h.inserted row hr).2

/-- A publishing transaction with nothing left to do has fanned out. -/
theorem Stage.finished (h : Stage d t m c) (htodo : t.todo = []) :
    ∃ r, FirstIfSent t r ∧ Fanned d t m c r := by
  cases h with
  | opening _ h =>
    rw [htodo] at h
    generalize t.task = task at h
    cases h
  | claimed _ _ _ h =>
    rw [htodo] at h
    cases h
  | numbered _ _ _ _ _ h => simp [htodo] at h
  | ready _ _ _ _ _ _ h => simp [htodo] at h
  | fanned r hr h => exact ⟨r, hr, h⟩

/-- What is committed changes only when a transaction that has run to its end and passes every
deferred check commits. -/
theorem committed_step {initial : Database → Prop}
    {s s' : Sessions Database Statement Check Write Lock Task} {l : Action Task}
    (h : (server initial).step s l = some s') :
    s'.committed = s.committed ∨ ∃ t ∈ s.active, l = .commit t.id ∧ t.todo = [] ∧
      store.commits s.committed t = true ∧ s'.committed = store.view s.committed t := by
  cases Language.effect_of_step h with
  | start | exec | ended => exact .inl rfl
  | @commit t ht htodo hc => exact .inr ⟨t, (Sessions.mem_of_find ht).1, rfl, htodo, hc, rfl⟩

theorem history_applyAll (d : Database) (ws : List Write) {m : Nat}
    (h : (store.applyAll d ws).history m ≠ d.history m) :
    ∃ row, .history row ∈ ws ∧ row.message = m := by
  by_contra hnone
  refine h (store.applyAll_eq (f := fun d => d.history m) fun w hw d => ?_)
  cases w with
  | history row =>
    have hm : m ≠ row.message := fun hm => hnone ⟨row, hw, hm.symm⟩
    simp [store, Write.apply, Database.history, getRow_put, hm]
  | _ => rfl

/-- Every message, edit and tombstone that a step of any run commits is fanned out exactly, and
nothing else of a transaction is ever committed. -/
theorem fan_out_exact {s s' : Sessions Database Statement Check Write Lock Task}
    {l : Action Task} (h : (server Outbox).Reachable s)
    (hstep : (server Outbox).step s l = some s') :
    (∀ m row, s.committed.message m = none → s'.committed.message m = some row →
      ∃ t ∈ s.active, l = .commit t.id ∧
        ExactFanOut s'.committed t m row.conversation 1) ∧
    (∀ m, s'.committed.history m ≠ s.committed.history m →
      ∃ t ∈ s.active, l = .commit t.id ∧ ∃ row r, s'.committed.message m = some row ∧
        Unpublished s.committed m r ∧ ExactFanOut s'.committed t m row.conversation r) ∧
    (s'.committed = s.committed ∨ ∃ t ∈ s.active, l = .commit t.id ∧ t.todo = [] ∧
      store.commits s.committed t = true ∧ s'.committed = store.view s.committed t) := by
  have hsup := publishing.reachable (fun _ hd => hd) h
  refine ⟨?_, ?_, committed_step hstep⟩
  · intro m row hnone hsome
    rcases committed_step hstep with he | ⟨t, ht, hl, htodo, -, he⟩
    · simp [he, hnone] at hsome
    have hpub := hsup.transaction t ht
    -- the row is one that the transaction inserted
    have hnew : getRow Message.id (messagesIn t.writes) m = some row := by
      have := message_applyAll s.committed t.writes m
      rw [hnone] at this
      rw [he] at hsome
      exact this.symm.trans hsome
    obtain ⟨hrow, rfl⟩ := mem_of_getRow_eq_some hnew
    obtain ⟨sender, htask⟩ := hpub.messages row (mem_messagesIn.mp hrow)
    have hp : t.task.publishes row.id row.conversation := by rw [htask]; exact ⟨rfl, rfl⟩
    obtain ⟨r, hr, hf⟩ := (hpub.stage _ _ hp).finished htodo
    obtain rfl := hr _ _ _ htask
    exact ⟨t, ht, hl, he ▸ hf.exact hpub (scope_of_publishes hp) htodo⟩
  · intro m hne
    rcases committed_step hstep with he | ⟨t, ht, hl, htodo, -, he⟩
    · exact absurd (by rw [he]) hne
    have hpub := hsup.transaction t ht
    rw [he] at hne
    obtain ⟨history, hhist, rfl⟩ := history_applyAll _ _ hne
    obtain ⟨c, hp⟩ := hpub.histories history hhist
    obtain ⟨r, -, hf⟩ := (hpub.stage _ _ hp).finished htodo
    obtain ⟨row, hrow, rfl⟩ := hf.held.row
    exact ⟨t, ht, hl, row, r, he ▸ hrow, hf.unpublished,
      he ▸ hf.exact hpub (scope_of_publishes hp) htodo⟩

theorem outbox_directDatabase : Outbox directDatabase :=
  ⟨by decide, nofun, nofun⟩

/-- The commit of transaction 0 makes message 7 appear, with one participant left. -/
def sendsToOne (s : Sessions Database Statement Check Write Lock Task) : Bool :=
  (store.step s (.commit 0)).any fun s' =>
    s.committed.message 7 = none &&
      s'.committed.message 7 = some ⟨7, 1, ⟨.carbon, "ada"⟩, 1⟩ &&
        s'.committed.effectiveParticipants 1 = [⟨.carbon, "ada"⟩]

/-- A message is sent while the account of its recipient is being deleted. -/
theorem fan_out_exact_deleted_recipient : ∃ s s' t, (server Outbox).Reachable s ∧
    (server Outbox).step s (.commit 0) = some s' ∧
    s'.committed.effectiveParticipants 1 = [⟨.carbon, "ada"⟩] ∧ t ∈ s.active ∧
    ExactFanOut s'.committed t 7 1 1 := by
  have hinit : (server Outbox).init (Sessions.boot directDatabase) :=
    ⟨_, outbox_directDatabase, rfl⟩
  obtain ⟨s, hs, hp⟩ : ∃ s, (server Outbox).Reachable s ∧ sendsToOne s = true :=
    ⟨_, System.reachable_get
      ([.start (.sendMessage 7 1 ⟨.carbon, "ada"⟩), .start (.deleteAccount "bot" 5)] ++
        List.replicate 9 (.exec 0) ++ List.replicate 4 (.exec 1) ++ [.commit 1])
      hinit (by decide), by decide⟩
  simp only [sendsToOne, Option.any_eq_true, Bool.and_eq_true, decide_eq_true_eq] at hp
  obtain ⟨s', hstep, ⟨hnone, hsome⟩, heff⟩ := hp
  have hstep' : (server Outbox).step s (.commit 0) = some s' := hstep
  obtain ⟨t, ht, -, hexact⟩ := (fan_out_exact hs hstep').1 7 _ hnone hsome
  exact ⟨s, s', t, hs, hstep, heff, ht, hexact⟩

end SiliconDm.Server
