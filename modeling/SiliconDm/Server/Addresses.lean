import SiliconDm.Server.Directs
import SiliconDm.Server.FirstContact
import SiliconDm.Server.Ting

/-!
# Sending into a conversation

The view `conversation_addresses`, and the trigger of `actor_deliveries` that hands every
delivery of a message to Ting under its conversation's address. The trigger fires inside the
transaction of the send; it reads nothing a send writes after the message, so it is evaluated
on the deliveries a transaction has inserted, before its commit.

Sources: `migrations/0040_accounts_partition_behaviour.sql:79–96`,
`migrations/0031_ting_originators.sql:29–72`, `src/api/handlers.rs:139–172,215–240`,
`src/infrastructure/postgres/messages.rs:171–350,725–761`.
-/

namespace SiliconDm.Server.Addresses

open Base Backend List Option

/-! ### The view -/

/-- Ids as the database writes them: `groups.public_id`, and `conversations.id::text`. -/
structure Texts where
  group : Nat → String
  uuid : Nat → String

/-- `COALESCE(a.current_id, p.actor_id)`; only an active account has a current id here. -/
def participantName (accounts : List Account) (p : ActorRef) : String :=
  ((account accounts p.id).bind fun row =>
    if row.status = .active then row.currentId else none).getD p.id

/-- `ORDER BY p.actor_kind::text COLLATE "C", … COLLATE "C"`. -/
def namesBefore (x y : ActorType × String) : Bool :=
  match x.1, y.1 with
  | .carbon, .silicon => true
  | .silicon, .carbon => false
  | _, _ => !(y.2 < x.2)

/-- The row of a conversation in `conversation_addresses`. -/
def conversationAddress (t : Texts) (b : Backend) (c : Nat) : Option String :=
  if b.groups.any (·.conversation = c) then some (t.group c)
  else if (b.db.conversation c).isNone then none
  else
    let rows := b.db.participants.filter (·.conversation = c)
    if rows.length = 2 then
      match b.supersededBy.lookup c with
      | none =>
        let names := rows.map fun p => (p.actor.actorType, participantName b.db.accounts p.actor)
        some ("::".intercalate ((names.insertionSort (namesBefore · ·)).map (·.2)))
      | some _ => some (t.uuid c)
    else none

/-! ### The trigger -/

/-- What comes with a message beside its content: the addresses it is routed by, and the ids of
its deliveries. -/
structure Posting where
  senderAddress : Option String
  recipientAddress : Option String
  deliveryId : ActorRef → Nat

/-- `request violates a durable data invariant`: SQLSTATE 23514. -/
def invariantRefusal : Refusal :=
  .validation "request violates a durable data invariant"

def statusText : MessageStatus → String
  | .waiting => "waiting"
  | .sent => "sent"
  | .delivered => "delivered"
  | .read => "read"
  | .failed => "failed"

/-- `enqueue_ting_handoff`. `origin` is the setting `dm.ting_originator`, `reader` the recipient
of the receipt behind a status. -/
def enqueueTingHandoff (t : Texts) (p : Posting) (origin reader : Option ActorRef) (now : Nat)
    (b : Backend) (row : Delivery) : Except Refusal (Option Ting.Handoff) :=
  let handoff (m : Nat) (event : String) (originator : Message → Option ActorRef) :=
    match b.db.message m, row.conversation with
    | none, _ => .error invariantRefusal
    | some _, none => .error .internal
    | some message, some c =>
      match conversationAddress t b message.conversation with
      | none => .error invariantRefusal
      | some address =>
        .ok (some (.enqueued {
          deliveryId := p.deliveryId row.target
          target := row.target
          conversation := c
          publicConversation := address
          messageSequence := message.sequence
          deliverySequence := row.sequence
          event
          routingAddress :=
            if message.sender = row.target then p.senderAddress else p.recipientAddress
          originator := originator message } now))
  match row.ref with
  | .systemEvent _ => .ok none
  | .messageStatus m status =>
    handoff m ("message." ++ statusText status) fun _ =>
      if status = .delivered ∨ status = .read then reader else none
  | .message m revision =>
    let event := if revision = 1 then "message.created"
      else if (b.db.history m).any (·.deletedAt.isSome) then "message.deleted"
      else "message.updated"
    handoff m event fun message => some (origin.getD message.sender)

/-! ### Requests -/

structure Service where
  backend : Backend
  handoffs : List Ting.Handoff

def onBackend {α : Type} (x : Serve α) : Handler Refusal Service α := fun s =>
  let (answer, backend) := x s.backend
  (answer, { s with backend })

def inserted (writes : List Write) : List Delivery :=
  writes.filterMap fun
    | .delivery row => some row
    | _ => none

/-- A transaction with the trigger of the deliveries that it inserts. -/
def delivering (t : Texts) (p : Posting) (origin : ActorRef) (now : Nat) (x : Transact Nat) :
    Handler Refusal Service Nat := fun s =>
  let result : Except Refusal (Nat × Service) := do
    let (m, w) ← x ⟨s.backend, [], []⟩
    let handoffs ← (inserted w.writes).mapM
      (enqueueTingHandoff t p (some origin) none now w.backend)
    let backend ← finish w
    .ok (m, ⟨backend, s.handoffs ++ handoffs.reduceOption⟩)
  match result with
  | .ok (m, s') => (.ok m, s')
  | .error refusal => (.error refusal, s)

/-- The transaction of `send_message`, with the trigger. -/
def sendTransaction (d : Deployment) (e : Moment) (t : Texts) (p : Posting) (sender : ActorRef)
    (c : Nat) (content key : String) : Handler Refusal Service Nat :=
  delivering t p sender e.now (send d e sender c content key)

/-- `POST …/messages`. `handlers.rs:195–240`. -/
def sendMessage (d : Deployment) (e : Moment) (t : Texts) (p : Posting) (sender : ActorRef)
    (path : ConversationPath) (content key : String) : Handler Refusal Service Rendered := do
  let (c, _) ← onBackend (conversationPath d e sender path true false)
  onBackend (Handler.read (requireCurrent c))
  let m ← sendTransaction d e t p sender c content key
  onBackend (Handler.read (loadMessage m))

variable {b b' : Backend} {c : Nat} {ps : List ActorRef} {w : Work}

variable {origin target : ActorRef} {now n : Nat} {ref : DeliveryRef}

variable {t : Texts} {p : Posting} {s : Service} {sender : ActorRef} {key : String}

theorem delivering_congr {x y : Transact Nat} (h : x ⟨s.backend, [], []⟩ = y ⟨s.backend, [], []⟩) :
    delivering t p origin now x s = delivering t p origin now y s := by
  simp only [delivering, h]

/-- A transaction that committed with its trigger. -/
theorem delivering_eq_ok {m : Nat} {x : Transact Nat} {s' : Service}
    (h : delivering t p origin now x s = (.ok m, s')) :
    ∃ w handoffs, x ⟨s.backend, [], []⟩ = .ok (m, w) ∧
      (inserted w.writes).mapM (enqueueTingHandoff t p (some origin) none now w.backend) =
        .ok handoffs ∧
      finish w = .ok s'.backend ∧ s'.handoffs = s.handoffs ++ handoffs.reduceOption := by
  simp only [delivering] at h
  split at h
  next m' service hres =>
    obtain ⟨hm, rfl⟩ := Prod.mk.inj h
    cases hm
    obtain ⟨⟨m'', w⟩, hx, hres⟩ := bind_eq_ok.mp hres
    obtain ⟨handoffs, hhandoffs, hres⟩ := bind_eq_ok.mp hres
    obtain ⟨backend, hfin, hres⟩ := bind_eq_ok.mp hres
    obtain ⟨rfl, rfl⟩ := Prod.mk.inj (Except.ok.inj hres)
    exact ⟨w, handoffs, hx, hhandoffs, hfin, rfl⟩
  next => cases congrArg Prod.fst h

/-! ### Deliveries -/

theorem inserted_append (x y : List Write) : inserted (x ++ y) = inserted x ++ inserted y :=
  filterMap_append

theorem runStatements_nil (n : Nat) (w : Work) : runStatements n [] w = .ok w := by
  cases n <;> rfl

/-- A statement, and what it leads to. -/
theorem runStatements_cons {s : Statement} {code : List Statement} {w w' : Work}
    {o : Outcome Statement Check Write Lock} (ho : s.exec w.backend.db = .ok o)
    (hnext : runStatements n o.next (w.wrote o) = .ok w') :
    runStatements (n + 1) (s :: code) w = runStatements (n + 1) code w' := by
  simp only [runStatements, foldlM_cons, ho]
  show (runStatements n o.next (w.wrote o) >>= _) = _
  rw [hnext]
  rfl

/-- The stream of the target is there, and the reference is new. -/
theorem runStatements_enqueue {stream : Stream} (hstr : w.backend.db.stream target = some stream)
    (hfr : ∀ row ∈ w.backend.db.deliveries, ¬(row.target = target ∧ row.ref = ref)) :
    runStatements (n + 1) [.message (.enqueue target ref c)] w = .ok (w.wrote {
      writes := [.stream { stream with nextSequence := stream.nextSequence + 1 },
        .delivery (newDelivery target ref c stream.nextSequence)] }) := by
  have hnew : (w.backend.db.deliveries.any fun row =>
      row.target = target ∧ row.ref = ref) = false := by
    rw [List.any_eq_false]
    intro row hr
    simpa using hfr row hr
  rw [runStatements_cons (o := { writes := [_, _] }) ?_ (runStatements_nil _ _), runStatements_nil]
  simp only [Statement.exec, messageStatement, enqueueStatement, hstr, hnew]
  rfl

/-- A part of a transaction that only inserts new deliveries of a reference. -/
structure Delivered (ref : DeliveryRef) (c : Nat) (new : List Delivery) (w w' : Work) : Prop where
  backend : ∃ streams, w'.backend = { w.backend with
    db := { w.backend.db with streams, deliveries := w.backend.db.deliveries ++ new } }
  writes : inserted w'.writes = inserted w.writes ++ new
  deferred : w'.deferred = w.deferred
  rows : ∀ row ∈ new, ∃ sequence, row = newDelivery row.target ref c sequence

theorem Delivered.refl (ref : DeliveryRef) (c : Nat) (w : Work) : Delivered ref c [] w w where
  backend := ⟨w.backend.db.streams, by simp⟩
  writes := by simp
  deferred := rfl
  rows := by simp

theorem Delivered.trans {x y : List Delivery} {w₁ w₂ w₃ : Work} (h : Delivered ref c x w₁ w₂)
    (h' : Delivered ref c y w₂ w₃) :
    Delivered ref c (x ++ y) w₁ w₃ where
  backend := by
    obtain ⟨streams, hb⟩ := h.backend
    obtain ⟨streams', hb'⟩ := h'.backend
    refine ⟨streams', ?_⟩
    rw [hb', hb]
    simp
  writes := by rw [h'.writes, h.writes, append_assoc]
  deferred := h'.deferred.trans h.deferred
  rows := by
    exact forall_mem_append.mpr ⟨h.rows, h'.rows⟩

/-- A delivery is enqueued on the stream of its target, which is opened first if need be. -/
theorem runStatements_deliver_of_enqueue (n : Nat) (target : ActorRef) (ref : DeliveryRef)
    (c : Nat) (w : Work) :
    ∃ w₁ stream, w₁.backend.db.stream target = some stream ∧ Delivered ref c [] w w₁ ∧ ∀ {w'},
      runStatements (n + 1) [.message (.enqueue target ref c)] w₁ = .ok w' →
      runStatements (n + 2) [.message (.deliver target ref c)] w = .ok w' := by
  have hnext : ∀ {code w'}, runStatements (n + 1) code w = .ok w' →
      Statement.exec (.message (.deliver target ref c)) w.backend.db = .ok { next := code } →
      runStatements (n + 2) [.message (.deliver target ref c)] w = .ok w' := by
    intro code w' hrun hdeliver
    have hsi : w.wrote { next := code } = w := by simp [Work.wrote, Language.applyAll]
    rw [runStatements_cons hdeliver (hsi.symm ▸ hrun), runStatements_nil]
  cases hstr : w.backend.db.stream target with
  | some stream =>
    refine ⟨w, stream, hstr, .refl ref c w, fun hrun => hnext hrun ?_⟩
    simp only [Statement.exec, messageStatement, hstr]
  | none =>
    let high := coalesceMax ((w.backend.db.deliveriesOf target).map (·.sequence))
    let stream : Stream := { actor := target, nextSequence := high + 1, syncFloor := high }
    let opened : Outcome Statement Check Write Lock := { writes := [.stream stream] }
    refine ⟨w.wrote opened, stream, ?_, ⟨⟨put Stream.actor stream w.backend.db.streams, ?_⟩, ?_, ?_,
      by simp⟩, fun hrun => hnext ((runStatements_cons (s := .message (.openStream target high))
        (o := opened) ?_ (runStatements_nil _ _)).trans hrun) ?_⟩
    · show getRow Stream.actor (put Stream.actor stream w.backend.db.streams) target = _
      rw [getRow_put, if_pos rfl]
    · rw [append_nil]
      rfl
    · simp [Work.wrote, opened, inserted]
    · simp [Work.wrote, opened]
    all_goals simp only [Statement.exec, messageStatement, hstr]; rfl

theorem Delivered.deliveries (h : Delivered ref c [] w w') :
    w'.backend.db.deliveries = w.backend.db.deliveries := by
  obtain ⟨streams, hb⟩ := h.backend
  rw [hb]
  exact append_nil _

/-- One target gets a reference it does not have yet. -/
theorem runStatements_deliver
    (hfr : ∀ row ∈ w.backend.db.deliveries, ¬(row.target = target ∧ row.ref = ref)) :
    ∃ w' sequence, runStatements (n + 2) [.message (.deliver target ref c)] w = .ok w' ∧
      Delivered ref c [newDelivery target ref c sequence] w w' := by
  obtain ⟨w₁, stream, hstr, hopn, hrun⟩ := runStatements_deliver_of_enqueue n target ref c w
  rw [← hopn.deliveries] at hfr
  refine ⟨_, stream.nextSequence, hrun (runStatements_enqueue hstr hfr),
    hopn.trans ⟨⟨put Stream.actor { stream with nextSequence := stream.nextSequence + 1 }
      w₁.backend.db.streams, rfl⟩, inserted_append _ _, append_nil _, ?_⟩⟩
  intro row hr
  obtain rfl := mem_singleton.mp hr
  exact ⟨_, rfl⟩

/-- A reference the target already has consumes no sequence. -/
theorem runStatements_deliver_again
    (hthere : ∃ row ∈ w.backend.db.deliveries, row.target = target ∧ row.ref = ref) :
    ∃ w', runStatements (n + 2) [.message (.deliver target ref c)] w = .ok w' ∧
      Delivered ref c [] w w' := by
  obtain ⟨w₁, stream, hstr, hopn, hrun⟩ := runStatements_deliver_of_enqueue n target ref c w
  refine ⟨w₁, hrun (runStatements_silent fun s hs => ?_), hopn⟩
  have hany : (w₁.backend.db.deliveries.any fun row =>
      row.target = target ∧ row.ref = ref) = true := by
    obtain ⟨row, hr, hsame⟩ := hthere
    exact List.any_eq_true.mpr ⟨row, hopn.deliveries ▸ hr, by simpa using hsame⟩
  obtain rfl := mem_singleton.mp hs
  refine ⟨[.stream target], ?_⟩
  simp only [Statement.exec, messageStatement, enqueueStatement, hstr, hany, if_true]

/-- Each target has a delivery afterwards, old or new. -/
theorem runStatements_deliver_each (n : Nat) (targets : List ActorRef) (ref : DeliveryRef)
    (c : Nat) (w : Work) :
    ∃ w' new, runStatements (n + 2) (targets.map fun a => .message (.deliver a ref c)) w = .ok w' ∧
      Delivered ref c new w w' ∧ ∀ a ∈ targets,
        ∃ row ∈ w.backend.db.deliveries ++ new, row.target = a ∧ row.ref = ref := by
  induction targets generalizing w with
  | nil => exact ⟨w, [], runStatements_nil _ _, .refl ref c w, by simp⟩
  | cons target targets ih =>
    obtain ⟨w₁, first, hone, hdel, hthere⟩ : ∃ w₁ first,
        runStatements (n + 2) [.message (.deliver target ref c)] w = .ok w₁ ∧
        Delivered ref c first w w₁ ∧
        ∃ row ∈ w.backend.db.deliveries ++ first, row.target = target ∧ row.ref = ref := by
      by_cases hthere : ∃ row ∈ w.backend.db.deliveries, row.target = target ∧ row.ref = ref
      · obtain ⟨w₁, hone, hdel⟩ := runStatements_deliver_again (n := n) (c := c) hthere
        exact ⟨w₁, [], hone, hdel, by rwa [append_nil]⟩
      · push Not at hthere
        obtain ⟨w₁, sequence, hone, hdel⟩ := runStatements_deliver (n := n) (c := c)
          fun row hr h => hthere row hr h.1 h.2
        exact ⟨w₁, _, hone, hdel, _, mem_append_right _ mem_cons_self, rfl, rfl⟩
    obtain ⟨w₂, rest, hall, hdel', hrest⟩ := ih w₁
    obtain ⟨streams, hbk⟩ := hdel.backend
    refine ⟨w₂, first ++ rest, ?_, hdel.trans hdel', fun a ha => ?_⟩
    · rw [map_cons, ← singleton_append, runStatements_append, hone]
      exact hall
    · rw [← append_assoc]
      obtain rfl | ha := mem_cons.mp ha
      · obtain ⟨row, hr, hsame⟩ := hthere
        exact ⟨row, mem_append_left _ hr, hsame⟩
      · obtain ⟨row, hr, hsame⟩ := hrest a ha
        rw [hbk] at hr
        exact ⟨row, hr, hsame⟩

/-- Every one of the targets gets a reference that none of them has yet. -/
theorem runStatements_deliverAll {targets : List ActorRef} (hnd : targets.Nodup)
    (hfr : ∀ row ∈ w.backend.db.deliveries, row.ref = ref → row.target ∉ targets) :
    ∃ w' new, runStatements (n + 2) (targets.map fun a => .message (.deliver a ref c)) w = .ok w' ∧
      Delivered ref c new w w' ∧ new.map (·.target) = targets := by
  induction targets generalizing w with
  | nil => exact ⟨w, [], runStatements_nil _ _, .refl ref c w, rfl⟩
  | cons target targets ih =>
    obtain ⟨htgt, htgts⟩ := nodup_cons.mp hnd
    have hnew : ∀ row ∈ w.backend.db.deliveries, ¬(row.target = target ∧ row.ref = ref) := by
      rintro row hr ⟨rfl, rfl⟩
      exact hfr row hr rfl mem_cons_self
    obtain ⟨w₁, sequence, hone, hdel⟩ := runStatements_deliver (n := n) (c := c) hnew
    obtain ⟨streams, hbk⟩ := hdel.backend
    have hrest : ∀ row ∈ w₁.backend.db.deliveries, row.ref = ref → row.target ∉ targets := by
      intro row hr href
      rw [hbk] at hr
      rcases mem_append.mp hr with hr | hr
      · exact fun hm => hfr row hr href (mem_cons_of_mem _ hm)
      · rw [mem_singleton.mp hr]
        exact htgt
    obtain ⟨w₂, new, hall, hdel', hnewTargets⟩ := ih htgts hrest
    refine ⟨w₂, [newDelivery target ref c sequence] ++ new, ?_, hdel.trans hdel', by
      rw [map_append, hnewTargets]; rfl⟩
    rw [map_cons, ← singleton_append, runStatements_append, hone]
    exact hall

/-! ### Sending -/

/-- A direct conversation with its participants. -/
structure Stands (b : Backend) (c : Nat) (ps : List ActorRef) : Prop where
  direct : b.db.isGroup c = some false
  rows : Directs.roster b.db c = ps
  nodup : ps.Nodup
  notGroup : ∀ g ∈ b.groups, g.conversation ≠ c

theorem stands_of_sound (hs : Directs.Sound b) (hdir : b.db.isGroup c = some false) :
    Stands b c (Directs.roster b.db c) where
  direct := hdir
  rows := rfl
  nodup := (hs.rosters c hdir).1
  notGroup := by
    rintro g hg rfl
    rw [hs.groups g hg] at hdir
    cases hdir

/-- The ids and the key of a send are new. -/
structure Unsent (b : Backend) (e : Moment) (sender : ActorRef) (key : String) : Prop where
  message : b.db.message e.messageId = none
  deliveries : ∀ row ∈ b.db.deliveries, row.ref ≠ .message e.messageId 1
  key : ∀ row ∈ b.records, row.key ≠ ⟨sender, "messages.create", key⟩

theorem effectiveParticipants_eq {d : Database} (hdir : d.isGroup c = some false)
    (hrs : Directs.roster d c = ps) (hlive : ∀ p ∈ ps, d.deleted p.id = false) :
    d.effectiveParticipants c = ps := by
  unfold Directs.roster at hrs
  unfold Database.effectiveParticipants
  rw [hdir, ← hrs]
  refine congrArg (List.map _) (filter_congr ?_)
  intro p hp
  by_cases hc : p.conversation = c
  · have hm : p.actor ∈ ps := by
      rw [← hrs]
      exact List.mem_map_of_mem (mem_filter.mpr ⟨hp, by simpa using hc⟩)
    simp [hc, hlive _ hm]
  · simp [hc]

structure Holds (b : Backend) (c : Nat) (ps : List ActorRef) : Prop where
  isSome : (b.db.conversation c).isSome = true
  participants : b.db.effectiveParticipants c = ps
  nodup : ps.Nodup

theorem Stands.holds (hs : Stands b c ps) (hlive : ∀ p ∈ ps, b.db.deleted p.id = false) :
    Holds b c ps where
  isSome := by
    have := congrArg Option.isSome hs.direct
    simpa [Database.isGroup] using this
  participants := effectiveParticipants_eq hs.direct hs.rows hlive
  nodup := hs.nodup

def posted (b : Backend) (m : Message) (streams : List Stream) (new : List Delivery) : Backend :=
  { b with
    db := { Write.apply (Write.apply b.db (.advance m.conversation)) (.message m) with
      streams
      deliveries := b.db.deliveries ++ new } }

theorem isGroup_advance (d : Database) (c : Nat) :
    (Write.apply d (.advance c)).isGroup c = d.isGroup c := by
  unfold Database.isGroup Database.conversation Write.apply
  rw [getRow_map (by intro r; split <;> rfl), Option.map_map]
  congr 1
  funext row
  simp only [Function.comp_apply]
  split <;> rfl

theorem effectiveParticipants_advance (d : Database) (c : Nat) :
    (Write.apply d (.advance c)).effectiveParticipants c = d.effectiveParticipants c := by
  unfold Database.effectiveParticipants
  rw [isGroup_advance]
  rfl

/-- The statements of a send. -/
theorem runStatements_send {m : Nat} (hs : Holds w.backend c ps)
    (hmsg : w.backend.db.message m = none)
    (hdels : ∀ row ∈ w.backend.db.deliveries, row.ref ≠ .message m 1) :
    ∃ w' sequence streams new, runStatements nesting
        [.message (.insert m c sender), .message (.fanOut m c 1)] w = .ok w' ∧
      w'.backend = posted w.backend ⟨m, c, sender, sequence⟩ streams new ∧
      inserted w'.writes = inserted w.writes ++ new ∧
      w'.deferred = w.deferred ++ [.messageOutboxComplete m] ∧
      new.map (·.target) = ps ∧
      ∀ row ∈ new, ∃ sequence, row = newDelivery row.target (.message m 1) c sequence := by
  obtain ⟨row, hr⟩ := isSome_iff_exists.mp hs.isSome
  let message : Message := ⟨m, c, sender, row.nextMessageSequence⟩
  let o : Outcome Statement Check Write Lock :=
    { writes := [.advance c, .message message], deferred := [.messageOutboxComplete m] }
  have hinsert : Statement.exec (.message (.insert m c sender)) w.backend.db = .ok o := by
    simp only [Statement.exec, messageStatement, hr, hmsg]
    rfl
  have hparts : (w.wrote o).backend.db.effectiveParticipants c = ps :=
    (effectiveParticipants_advance _ _).trans hs.participants
  let next : List Statement := ps.map fun a => .message (.deliver a (.message m 1) c)
  have hfan : Statement.exec (.message (.fanOut m c 1)) (w.wrote o).backend.db =
      .ok { next } := by
    simp only [Statement.exec, messageStatement, hparts]
    rfl
  have hsi : (w.wrote o).wrote { next } = w.wrote o := by
    simp [Work.wrote, Language.applyAll]
  obtain ⟨w', new, hall, hdel, htgts⟩ := runStatements_deliverAll (n := 1) (c := c)
    (w := w.wrote o) hs.nodup fun row hr href => absurd href (hdels row hr)
  obtain ⟨streams, hbk⟩ := hdel.backend
  refine ⟨w', row.nextMessageSequence, streams, new, ?_, ?_, ?_, hdel.deferred, htgts,
    hdel.rows⟩
  · show runStatements (3 + 1) _ _ = _
    rw [runStatements_cons hinsert (runStatements_nil _ _),
      runStatements_cons hfan (by rw [hsi]; exact hall), runStatements_nil]
  · rw [hbk]
    rfl
  · rw [hdel.writes]
    show inserted (w.writes ++ o.writes) ++ new = _
    rw [inserted_append]
    simp [inserted, o]

/-- What the transaction of a send has done before its commit. -/
structure Sent (b : Backend) (m : Message) (ps : List ActorRef) (w : Work) : Prop where
  delivered : ∃ streams new, w.backend.db = (posted b m streams new).db ∧
    inserted w.writes = new ∧ new.map (·.target) = ps ∧
    ∀ row ∈ new, ∃ sequence, row = newDelivery row.target (.message m.id 1) m.conversation sequence
  groups : w.backend.groups = b.groups
  superseded : w.backend.supersededBy = b.supersededBy
  deferred : w.deferred = [.messageOutboxComplete m.id]

/-- A send by a participant reaches its commit. -/
theorem send_of_holds (d : Deployment) (content : String) {e : Moment} (hs : Holds b c ps)
    (hsnd : sender ∈ ps) (hnew : Unsent b e sender key) :
    ∃ w sequence, send d e sender c content key ⟨b, [], []⟩ = .ok (e.messageId, w) ∧
      Sent b ⟨e.messageId, c, sender, sequence⟩ ps w := by
  have hpart : statements [.message (.requireParticipant c sender)] ⟨b, [], []⟩ =
      .ok ((), ⟨b, [], []⟩) := by
    refine statements_eq_ok.mpr (runStatements_silent ?_)
    intro s hm
    obtain rfl := mem_singleton.mp hm
    refine ⟨[], ?_⟩
    simp only [Statement.exec, messageStatement, hs.participants, hsnd]
    rfl
  have hbody : ∀ records, ∃ w' : Work, (do
      statements [.message (.insert e.messageId c sender), .message (.fanOut e.messageId c 1)]
      write (newMessage e.messageId c e.now)
      write (clearDraft c sender content)
      pure e.messageId : Transact Nat) ⟨{ b with records }, [], []⟩ = .ok (e.messageId, w') ∧
        w'.backend.records = records ∧
        ∃ sequence, Sent b ⟨e.messageId, c, sender, sequence⟩ ps w' := by
    intro records
    obtain ⟨w', sequence, streams, new, hrun, hbk, hws, hdefer, htgts, hrs⟩ :=
      runStatements_send (w := ⟨{ b with records }, [], []⟩) (m := e.messageId) (c := c)
        ⟨hs.isSome, hs.participants, hs.nodup⟩ hnew.message hnew.deliveries
    refine ⟨_, Tx.bind_eq_ok.mpr ⟨(), w', statements_eq_ok.mpr hrun,
      write_bind_eq_ok.mpr (write_bind_eq_ok.mpr rfl)⟩, ?_, sequence, ?_⟩
    · show w'.backend.records = records
      rw [hbk]
      rfl
    · refine ⟨⟨streams, new, ?_, hws, htgts, hrs⟩, ?_, ?_, hdefer⟩
      · show w'.backend.db = _
        rw [hbk]
        rfl
      · show w'.backend.groups = _
        rw [hbk]
        rfl
      · show w'.backend.supersededBy = _
        rw [hbk]
        rfl
  have hkd : ∃ (w' : Work) (records : List Idempotency.Record),
      keyed e.now ⟨sender, "messages.create", key⟩ (d.requestHash (.message c content)) _
          (fun _ => pure ()) ⟨b, [], []⟩ =
        .ok (e.messageId, { w' with backend := { w'.backend with records } }) ∧
      (∃ sequence, Sent b ⟨e.messageId, c, sender, sequence⟩ ps w') ∧ _ :=
    keyed_of_unrecorded (getRow_eq_none_iff.mpr hnew.key) hbody
  obtain ⟨w', records, hkd, ⟨sequence, hsent⟩, -⟩ := hkd
  refine ⟨_, sequence, Tx.bind_eq_ok.mpr ⟨(), _, hpart, hkd⟩, ?_⟩
  exact ⟨hsent.delivered, hsent.groups, hsent.superseded, hsent.deferred⟩

/-- A conversation has an address if it has two participants, and only then. -/
theorem isSome_conversationAddress (hs : Stands b c ps) (t : Texts) :
    (conversationAddress t b c).isSome = decide (ps.length = 2) := by
  have hgrp : b.groups.any (·.conversation = c) = false := by
    rw [List.any_eq_false]
    intro g hg
    simpa using hs.notGroup g hg
  have hconv : (b.db.conversation c).isNone = false := by
    have := congrArg Option.isSome hs.direct
    simpa [Database.isGroup, isNone_iff_eq_none, isSome_iff_ne_none] using this
  have hlen : (b.db.participants.filter (·.conversation = c)).length = ps.length := by
    rw [← hs.rows, Directs.roster, length_map]
  unfold conversationAddress
  rw [hgrp, hconv]
  simp only [Bool.false_eq_true, if_false, hlen]
  by_cases htwo : ps.length = 2
  · rw [if_pos htwo, decide_eq_true htwo]
    split <;> rfl
  · rw [if_neg htwo, decide_eq_false htwo]
    rfl

variable {m : Message}

theorem Sent.message (h : Sent b m ps w) (hfr : b.db.message m.id = none) :
    w.backend.db.message m.id = some m := by
  obtain ⟨streams, new, hdb, -⟩ := h.delivered
  rw [hdb]
  show getRow Message.id (b.db.messages ++ [m]) m.id = some m
  rw [getRow_append_singleton, show getRow Message.id b.db.messages m.id = none from hfr]
  simp

theorem Sent.participants (h : Sent b m ps w) :
    w.backend.db.effectiveParticipants m.conversation =
      b.db.effectiveParticipants m.conversation := by
  obtain ⟨streams, new, hdb, -⟩ := h.delivered
  rw [hdb]
  exact effectiveParticipants_advance b.db m.conversation

/-- A send changes nothing that the address of its conversation is made of. -/
theorem Sent.conversationAddress (h : Sent b m ps w) (t : Texts) :
    conversationAddress t w.backend m.conversation =
      conversationAddress t b m.conversation := by
  obtain ⟨streams, new, hdb, -⟩ := h.delivered
  have hn : (w.backend.db.conversation m.conversation).isNone =
      (b.db.conversation m.conversation).isNone := by
    have := congrArg Option.isNone (isGroup_advance b.db m.conversation)
    rw [hdb]
    show ((Write.apply b.db (.advance m.conversation)).conversation m.conversation).isNone = _
    simpa [Database.isGroup] using this
  unfold Addresses.conversationAddress
  rw [hn, h.groups, h.superseded, hdb]
  rfl

/-- The deferred check of the outbox. -/
theorem Sent.finish (h : Sent b m ps w) (hs : Holds b m.conversation ps)
    (hfr : b.db.message m.id = none) : finish w = .ok w.backend := by
  have hparts := h.participants.trans hs.participants
  obtain ⟨streams, new, hdb, -, htgts, hrs⟩ := h.delivered
  have hcmp : messageOutboxComplete w.backend.db m.id = true := by
    unfold messageOutboxComplete
    rw [h.message hfr, all_some, hparts, List.all_eq_true]
    intro p hp
    rw [← htgts] at hp
    obtain ⟨row, hr, rfl⟩ := List.mem_map.mp hp
    rw [Bool.or_eq_true, List.any_eq_true]
    refine .inr ⟨row, ?_, ?_⟩
    · rw [hdb]
      exact mem_append_right _ hr
    · obtain ⟨sequence, heq⟩ := hrs row hr
      rw [heq]
      simp [newDelivery, Delivery.pristine]
  unfold Backend.finish
  rw [h.deferred]
  simp [Check.holds, hcmp]

def Handed (m : Message) (address : String) (target : ActorRef) (h : Ting.Handoff) : Prop :=
  h.reference.target = target ∧ h.reference.conversation = m.conversation ∧
    h.reference.publicConversation = address ∧ h.reference.messageSequence = m.sequence ∧
    h.reference.event = "message.created" ∧ h.reference.originator = some m.sender

theorem enqueueTingHandoff_created (p : Posting) (now sequence : Nat) {address : String}
    (hmsg : b.db.message m.id = some m)
    (haddr : conversationAddress t b m.conversation = some address) (target : ActorRef) :
    ∃ h, enqueueTingHandoff t p (some m.sender) none now b
        (newDelivery target (.message m.id 1) m.conversation sequence) = .ok (some h) ∧
      Handed m address target h := by
  simp only [enqueueTingHandoff, newDelivery, hmsg, haddr]
  exact ⟨_, rfl, rfl, rfl, rfl, rfl, rfl, rfl⟩

/-- Deliveries of a message pass the trigger only where its conversation has an address. -/
theorem isSome_address_of_handoffs {origin : Option ActorRef} {new : List Delivery}
    {handoffs : List (Option Ting.Handoff)} {row : Delivery} {revision : Nat}
    (h : new.mapM (enqueueTingHandoff t p origin none now b) = .ok handoffs) (hr : row ∈ new)
    (href : row.ref = .message m.id revision) (hmsg : b.db.message m.id = some m) :
    (conversationAddress t b m.conversation).isSome = true := by
  obtain ⟨handoff, -, hok⟩ := forall₂_mem_right (forall₂_of_mapM h).flip hr
  cases haddr : conversationAddress t b m.conversation with
  | some => rfl
  | none =>
    simp only [enqueueTingHandoff, href, hmsg] at hok
    cases hc : row.conversation <;> simp only [hc, haddr] at hok <;> cases hok

section Transaction

variable {d : Deployment} {e : Moment} {t : Texts} {p : Posting} {sender : ActorRef}
  {content key : String} {s : Service}

/-- The message is stored, every participant has its delivery, and each of these is handed on. -/
structure Accepted (s s' : Service) (m : Message) (ps : List ActorRef) : Prop where
  stored : s'.backend.db.message m.id = some m
  delivered : ∀ p ∈ ps, ∃ row ∈ s'.backend.db.deliveries, row.target = p ∧
    row.ref = .message m.id 1 ∧ row.conversation = some m.conversation
  handed : ∃ address, ∀ p ∈ ps, ∃ h ∈ s'.handoffs, Handed m address p h
  kept : ∀ h ∈ s.handoffs, h ∈ s'.handoffs

/-- A send by a participant is accepted in a conversation that has an address. -/
theorem sendTransaction_of_holds (hs : Holds s.backend c ps) (hsnd : sender ∈ ps)
    (hnew : Unsent s.backend e sender key)
    (haddr : (conversationAddress t s.backend c).isSome = true) :
    ∃ s' sequence, sendTransaction d e t p sender c content key s = (.ok e.messageId, s') ∧
      Accepted s s' ⟨e.messageId, c, sender, sequence⟩ ps := by
  obtain ⟨w, sequence, hsend, hsent⟩ := send_of_holds d content hs hsnd hnew
  obtain ⟨address, haddr⟩ : ∃ address, conversationAddress t w.backend c = some address :=
    isSome_iff_exists.mp (by rw [hsent.conversationAddress]; exact haddr)
  obtain ⟨streams, new, hdb, hins, htgts, hrs⟩ := hsent.delivered
  have hmsg := hsent.message hnew.message
  obtain ⟨handoffs, hmap, hhan⟩ := exists_mapM (l := new)
    (f := enqueueTingHandoff t p (some sender) none e.now w.backend)
    (Q := fun row h => ∃ handoff, h = some handoff ∧
      Handed ⟨e.messageId, c, sender, sequence⟩ address row.target handoff) (by
    intro row hr
    obtain ⟨sequence', heq⟩ := hrs row hr
    obtain ⟨h, hok, hhan⟩ := enqueueTingHandoff_created p e.now sequence' hmsg
      haddr row.target
    exact ⟨some h, by rw [heq]; exact hok, h, rfl, hhan⟩)
  refine ⟨⟨w.backend, s.handoffs ++ handoffs.reduceOption⟩, sequence, ?_, hmsg, ?_, ?_, ?_⟩
  · simp only [sendTransaction, delivering, hsend, hins, hmap, bind, Except.bind,
      hsent.finish hs hnew.message]
  · intro q hq
    rw [← htgts] at hq
    obtain ⟨row, hr, rfl⟩ := List.mem_map.mp hq
    obtain ⟨sequence', heq⟩ := hrs row hr
    refine ⟨row, ?_, rfl, by rw [heq]; rfl, by rw [heq]; rfl⟩
    rw [hdb]
    exact mem_append_right _ hr
  · refine ⟨address, ?_⟩
    intro q hq
    rw [← htgts] at hq
    obtain ⟨row, hr, rfl⟩ := List.mem_map.mp hq
    obtain ⟨_, hm, handoff, rfl, hhan⟩ := hhan row hr
    exact ⟨handoff, mem_append_right _ (mem_filterMap.mpr ⟨_, hm, rfl⟩), hhan⟩
  · intro handoff hm
    exact mem_append_left _ hm

end Transaction

/-! ### Requests to send -/

section Requests

variable {d : Deployment} {e : Moment} {t : Texts} {p : Posting} {sender : ActorRef}
  {path : ConversationPath} {content key : String} {s : Service}

theorem onBackend_eq_ok {α : Type} {x : Serve α} {a : α}
    (h : x s.backend = (.ok a, s.backend)) : onBackend x s = (.ok a, s) := by
  simp only [onBackend, h]

theorem Stands.conversationAccess (hs : Stands b c ps)
    (hlive : ∀ p ∈ ps, b.db.deleted p.id = false) (hsnd : sender ∈ ps) :
    b.db.conversationAccess sender c = some .participant := by
  have hexists : (b.db.conversation c).isNone = false := by
    have := hs.direct
    unfold Database.isGroup at this
    cases hc : b.db.conversation c with
    | none => simp [hc] at this
    | some row => rfl
  unfold Database.conversationAccess
  rw [hexists, effectiveParticipants_eq hs.direct hs.rows hlive]
  simp [hsnd]

theorem Stands.access (hs : Stands b c ps) (hlive : ∀ p ∈ ps, b.db.deleted p.id = false)
    (hsnd : sender ∈ ps) : Backend.access sender c b = .ok .participant := by
  rw [Backend.access, hs.conversationAccess hlive hsnd]

theorem Stands.requireCurrent (hs : Stands b c ps)
    (hlive : ∀ p ∈ ps, b.db.deleted p.id = false) (hcur : b.supersededBy.lookup c = none) :
    Backend.requireCurrent c b = .ok () := by
  have hopen : Writing.recipientDeleted b.db c = false := by
    rw [Writing.recipientDeleted_eq_false]
    intro _ row hr hc
    apply hlive
    rw [← hs.rows]
    exact List.mem_map_of_mem (mem_filter.mpr ⟨hr, by simpa using hc⟩)
  simp [Backend.requireCurrent, Writing.requireOpen, Writing.requireCurrent, hopen, hcur, lift,
    bind, Except.bind]

end Requests

/-! ### Creating and sending -/

section Creating

variable {d : Deployment} {e : Moment} {caller : Caller}

variable {uuids : List String}

end Creating

/-! ### Two and three accounts -/

open FirstContact (neighbours plain ada)

def ids : Texts where
  group _ := "g:group"
  uuid _ := "conversation"

/-- No routing, and the deliveries numbered by the length of the target's id. -/
def unrouted : Posting where
  senderAddress := none
  recipientAddress := none
  deliveryId a := a.id.length

def creation (uuids : List String) : Except Refusal Rendered × Backend :=
  execute plain ⟨0, 1, 0, 0⟩ ⟨ada, none, "device"⟩ (.createConversation uuids "key")
    neighbours.backend

def sending : Moment :=
  ⟨1, 0, 2, 0⟩

theorem reachable_neighbours : Directs.serving.Reachable neighbours.backend := by
  refine ⟨neighbours.backend, ?_, .refl⟩
  refine ⟨?_, ?_, ?_, ?_, ?_⟩ <;> simp [neighbours, Backend.empty, Database.empty, Database.isGroup,
    Database.conversation, getRow]

open Directs (serving roster)

/-- Whatever is served later, a direct conversation stays one and keeps its two to a hundred
participants. -/
theorem directs_keep_participants {b b' : Backend} {c : Nat} (h : serving.Reachable b)
    (hs : serving.Steps (fun _ _ => True) b b') (hc : b.db.isGroup c = some false) :
    b'.db.isGroup c = some false ∧ roster b'.db c = roster b.db c ∧ (roster b.db c).Nodup ∧
      2 ≤ (roster b.db c).length ∧ (roster b.db c).length ≤ 100 := by
  have hsound := Directs.sound_of_reachable h
  have hgrown := Directs.grown_of_steps hsound hs
  exact ⟨hgrown.kinds c false hc, hgrown.rosters c hc, hsound.rosters c hc⟩

/-- Ada and Bea, while Ada starts another conversation. -/
theorem directs_keep_participants_two : ∃ b' : Backend,
    b'.db.isGroup 2 = some false ∧ roster b'.db 1 = roster (creation ["bea"]).2.db 1 := by
  have hb : serving.Reachable (creation ["bea"]).2 := reachable_neighbours.step
    (l := .request plain ⟨0, 1, 0, 0⟩ ⟨ada, none, "device"⟩ (.createConversation ["bea"] "key"))
    trivial rfl
  have hkept := directs_keep_participants hb (System.steps_get
    [.request plain ⟨1, 2, 0, 0⟩ ⟨ada, none, "device"⟩ (.createConversation ["scout", "bea"] "two")]
    rfl) (c := 1) (by decide +kernel)
  exact ⟨_, by decide +kernel, hkept.2.1⟩

end SiliconDm.Server.Addresses
