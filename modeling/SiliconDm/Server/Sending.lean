import SiliconDm.Server.Removal
import SiliconDm.Server.Repeats
import SiliconDm.Server.Selectors
import SiliconDm.Server.Storage

/-!
# Messages with their content

`send_message` and `revise_message` of the store: the checks of the content, and its rows in the
transaction that stores the message. What a digest identifies is the content with its routing.
The statements about content come first in the body of the transaction.

Sources: `src/infrastructure/postgres/messages.rs:165–350,565–718`, `revisions.rs:62–273`,
`src/api/handlers.rs:93–112,215–240`.
-/

namespace SiliconDm.Server.Sending

open Base Backend Addresses Content

/-! ### The store -/

/-- The service with the content of its messages, the recent GIFs and the linked IAM ids. -/
structure Store where
  service : Addresses.Service
  contents : List (Nat × Rows)
  recent : List RecentGif
  links : List (String × String)

/-- What is fixed for one execution: how contents are written, and the ids of deliveries. -/
structure Wire where
  content : MessageCreate → String
  texts : Texts
  deliveryId : ActorRef → Nat

def Wire.posting (wire : Wire) (row : MessageRow) : Posting :=
  ⟨row.senderAddress, row.recipientAddress, wire.deliveryId⟩

def Wire.routed (wire : Wire) (rows : Option Rows) : Posting :=
  rows.elim ⟨none, none, wire.deliveryId⟩ fun rows => wire.posting rows.message

def onService {α : Type} (x : Handler Refusal Addresses.Service α) : Handler Refusal Store α :=
  fun s =>
    let (answer, service) := x s.service
    (answer, { s with service })

def Store.withBackend (s : Store) (backend : Backend) : Store :=
  { s with service := { s.service with backend } }

def forbidden : Refusal :=
  .forbidden "forbidden" "operation is not permitted"

/-- What both requests check of their content. `messages.rs:173–181`, `revisions.rs:77–86`. -/
def requireContent (actor : ActorRef) (m : MessageCreate) : Except Refusal Unit := do
  match m.validate with
  | .ok () => .ok ()
  | .error message => .error (.validation message)
  require (m.senderId.all (·.addresses actor)) forbidden

/-! ### Sending -/

/-- The recipient of a routed message takes part. `messages.rs:573–590`. -/
def requireAddressed (c : Nat) (m : MessageCreate) (d : Database) : Except Refusal Unit :=
  require (m.recipientId.all fun id => (d.effectiveParticipants c).any id.addresses)
    (.validation ("recipient_id must address a participant in this conversation; ISI requires a " ++
      "silicon"))

/-- `send_message` up to its commit, with a check before its message is inserted. -/
def send (d : Deployment) (e : Moment) (sender : ActorRef) (c : Nat) (content key : String)
    (check : Database → Except Refusal Unit) : Transact Nat := do
  statements [.message (.requireParticipant c sender)]
  keyed e.now ⟨sender, "messages.create", key⟩ (d.requestHash (.message c content))
    (do
      query fun b => check b.db
      statements [.message (.insert e.messageId c sender), .message (.fanOut e.messageId c 1)]
      write (newMessage e.messageId c e.now)
      write (clearDraft c sender content)
      pure e.messageId)
    fun _ => pure ()

/-- The content of a new message passes the tables. -/
def storable (e : Moment) (sender : ActorRef) (c : Nat) (m : MessageCreate)
    (recent : List RecentGif) (d : Database) : Except Refusal Unit := do
  requireAddressed c m d
  let _ ← insertContent e.now sender c e.messageId m d recent
  .ok ()

/-- The rows that a committed send leaves beside its message; a replay leaves none. -/
def Store.posted (e : Moment) (sender : ActorRef) (c : Nat) (m : MessageCreate) (s : Store)
    (id : Nat) (service : Addresses.Service) : Store :=
  if (s.service.backend.db.message id).isSome || (service.backend.db.message id).isNone then
    { s with service }
  else
    match insertContent e.now sender c id m s.service.backend.db s.recent with
    | .ok (rows, recent) => { s with service, contents := s.contents ++ [(id, rows)], recent }
    | .error _ => { s with service }

/-- The transaction of `send_message`. -/
def sendTransaction (d : Deployment) (e : Moment) (wire : Wire) (sender : ActorRef) (c : Nat)
    (m : MessageCreate) (key : String) : Handler Refusal Store Nat := fun s =>
  match delivering wire.texts (wire.posting m.row) sender e.now
      (send d e sender c (wire.content m) key (storable e sender c m s.recent)) s.service with
  | (.ok id, service) => (.ok id, s.posted e sender c m id service)
  | (.error refusal, _) => (.error refusal, s)

/-- `send_message`. `messages.rs:165–350`. -/
def sendMessage (d : Deployment) (e : Moment) (wire : Wire) (sender : ActorRef) (c : Nat)
    (m : MessageCreate) (key : String) : Handler Refusal Store Rendered := do
  Handler.read fun _ => requireContent sender m
  let id ← sendTransaction d e wire sender c m key
  onService (onBackend (Handler.read (loadMessage id)))

/-! ### Editing -/

/-- `linked_route`: an address stored under an IAM id, as it reads since the re-key.
`revisions.rs:249–273`. -/
def linkedRoute (links : List (String × String)) (address : String) : String :=
  let (isi, base) := match Selector.rsplitOnce '@' address.toList with
    | some (isi, base) => (some isi, base)
    | none => (none, address.toList)
  if ':' ∈ base then
    match links.lookup (String.ofList base), isi with
    | some uuid, some isi => String.ofList isi ++ "@" ++ uuid
    | some uuid, none => uuid
    | none, _ => address
  else address

/-- The routing of a message never changes. `revisions.rs:145–166`. -/
def requireRouting (s : Store) (id : Nat) (m : MessageCreate) : Except Refusal Unit :=
  let stored := (s.contents.lookup id).map (·.message)
  let sender := (stored.bind (·.senderAddress)).map (linkedRoute s.links)
  let recipient := (stored.bind (·.recipientAddress)).map (linkedRoute s.links)
  require (m.row.senderAddress.all (some · = sender) &&
      m.row.recipientAddress.all (some · = recipient))
    (.validation "message routing cannot change in an edit; send a new message")

/-- The reply of an edit, and what `jsonb` can hold. `revisions.rs:182–203`. -/
def editable (c id : Nat) (m : MessageCreate) (d : Database) : Except Refusal Unit := do
  require (m.replyToMessageId ≠ some id) (.validation "a message cannot reply to itself")
  require (m.replyToMessageId.all fun reply => (d.message reply).any (·.conversation = c)) .notFound
  require (m.Storable) .internal

/-- `revise_message` for an edit up to its commit, with its two further checks. -/
def edit (d : Deployment) (e : Moment) (actor : ActorRef) (c id : Nat) (content key : String)
    (routing : Except Refusal Unit) (check : Database → Except Refusal Unit) : Transact Nat := do
  statements [.message (.requireReviser .sender true), .message (.original id c actor .sender)]
  query fun _ => routing
  keyed e.now ⟨actor, "messages.edit", key⟩ (d.requestHash (.revision id c (some content)))
    (do
      statements [.message (.requireNotDeleted id)]
      query fun b => check b.db
      statements [.message (.edit id content e.now), .message (.nextRevision id c)]
      write (touch c e.now)
      pure id)
    fun _ => pure ()

/-- `revise_message` for an edit by the sender. `revisions.rs:62–247`. -/
def editMessage (d : Deployment) (e : Moment) (wire : Wire) (actor : ActorRef) (c id : Nat)
    (m : MessageCreate) (key : String) : Handler Refusal Store Rendered := fun s =>
  (do
    Handler.read fun _ => requireContent actor m
    onService (onBackend (Handler.read (requireReviser actor .sender c)))
    let _ ← onService (delivering wire.texts
      (wire.routed (s.contents.lookup id)) actor e.now
      (edit d e actor c id (wire.content m) key (requireRouting s id m) (editable c id m)))
    onService (onBackend (Handler.read (loadMessage id))) : Handler Refusal Store Rendered) s

/-! ### Sends that fail -/

section Fails

variable {d : Deployment} {e : Moment} {wire : Wire} {s s' : Store} {b : Backend} {c id : Nat}
  {m : MessageCreate} {content key : String} {actor : ActorRef} {w w' : Work}
  {check : Database → Except Refusal Unit}

theorem posted_service {service : Addresses.Service} :
    (s.posted e actor c m id service).service = service := by
  unfold Store.posted
  split_ifs
  · rfl
  · split <;> rfl

theorem steady_send (d : Deployment) (e : Moment) (actor : ActorRef) (c : Nat)
    (content key : String) (check : Database → Except Refusal Unit) :
    (send d e actor c content key check).Moves SteadyWork := by
  refine .bind (steady_statements (by simp [Statement.scope])) fun _ => ?_
  refine steady_keyed (.bind (.read _) fun _ => ?_) fun _ => .pure ()
  refine Tx.Moves.mono (R := Publishes) ?_ fun _ _ h => h.1
  refine .bind (publishes_statements (by simp [Statement.scope])) fun _ => ?_
  refine .bind (publishes_newMessage e.messageId c e.now) fun _ => ?_
  refine .bind (publishes_write fun _ => ⟨rfl, rfl, rfl, rfl, rfl⟩) fun _ => .pure _

/-- A send leaves everybody's place. -/
theorem steady_sendMessage {answer : Rendered}
    (h : sendMessage d e wire actor c m key s = (.ok answer, s')) :
    s.service.backend.Steady s'.service.backend := by
  obtain ⟨_, -, h⟩ := Handler.read_bind_eq_ok.mp h
  obtain ⟨id, s₁, hsend, hload⟩ := Handler.bind_eq_ok.mp h
  obtain rfl : s₁ = s' := congrArg Prod.snd hload
  unfold sendTransaction at hsend
  split at hsend
  next id' service hdlv =>
    obtain ⟨-, rfl⟩ := Prod.mk.inj hsend
    obtain ⟨w, handoffs, hrun, -, hfin, -⟩ := delivering_eq_ok hdlv
    rw [posted_service, ← backend_of_finish hfin]
    exact steady_send d e actor c _ key _ _ _ _ hrun
  next => cases congrArg Prod.fst hsend

end Fails

/-! ### Content that passes -/

section Passes

variable {d : Deployment} {e : Moment} {wire : Wire} {s : Store} {b : Backend} {c id : Nat}
  {m : MessageCreate} {content key : String} {actor : ActorRef} {ps : List ActorRef}
  {check : Database → Except Refusal Unit}

theorem onService_of_ok {α : Type} {x : Handler Refusal Addresses.Service α} {a : α}
    {service : Addresses.Service} (h : x s.service = (.ok a, service)) :
    onService x s = (.ok a, { s with service }) := by
  simp only [onService, h]

/-- A check that passes leaves the send that it stands in. -/
theorem send_eq (h : check b.db = .ok ()) :
    send d e actor c content key check ⟨b, [], []⟩ =
      Backend.send d e actor c content key ⟨b, [], []⟩ := by
  refine Tx.bind_congr fun _ w hw => ?_
  obtain ⟨-, rfl⟩ := requireParticipant_eq_ok.mp hw
  exact keyed_congr fun records => Tx.read_bind_of_ok h

/-- A message with its routing: it is sent as its sender, and to someone who takes part. -/
structure Routed (actor : ActorRef) (ps : List ActorRef) (m : MessageCreate) : Prop where
  sender : ∀ address ∈ m.senderId, address.addresses actor = true
  recipient : ∀ address ∈ m.recipientId, ps.any address.addresses = true

/-- The message that is replied to is one of the conversation. -/
def Replies (b : Backend) (c : Nat) (m : MessageCreate) : Prop :=
  ∀ reply ∈ m.replyToMessageId, (b.db.message reply).any (·.conversation = c) = true

theorem requireContent_eq_ok (hval : m.validate = .ok ())
    (hsnd : ∀ address ∈ m.senderId, address.addresses actor = true) :
    requireContent actor m = .ok () := by
  have haddrs : m.senderId.all (·.addresses actor) = true :=
    (Option.all_eq_true _ _).mpr hsnd
  simp only [requireContent, hval, haddrs, require, bind, Except.bind, if_true]

/-- Valid content that can be encoded is stored when a participant sends it. -/
theorem sendMessage_of_valid (hs : Addresses.Holds s.service.backend c ps) (hac : actor ∈ ps)
    (hnew : Unsent s.service.backend e actor key)
    (haddr : (conversationAddress wire.texts s.service.backend c).isSome = true)
    (hval : m.validate = .ok ()) (hstor : m.Storable) (hrt : Routed actor ps m)
    (hrpls : Replies s.service.backend c m) (hused : UsedBefore e.now actor m s.recent) :
    ∃ s' sequence, sendMessage d e wire actor c m key s = (.ok (.message e.messageId), s') ∧
      Accepted s.service s'.service ⟨e.messageId, c, actor, sequence⟩ ps ∧
      s'.contents = s.contents ++
        [(e.messageId, ⟨m.row, m.attachmentRows, m.gif.map Gif.row⟩)] := by
  obtain ⟨recent, hinsert⟩ := insertContent_of_valid (c := c) e.messageId
    (valid_of_validate hval) hstor hrpls hused
  have haddressed : requireAddressed c m s.service.backend.db = .ok () := by
    have : (m.recipientId.all fun id =>
        (s.service.backend.db.effectiveParticipants c).any id.addresses) = true := by
      rw [hs.participants]
      exact (Option.all_eq_true _ _).mpr hrt.recipient
    simp only [requireAddressed, this, require, if_true]
  have hchk : storable e actor c m s.recent s.service.backend.db = .ok () := by
    simp only [storable, haddressed, hinsert, bind, Except.bind]
  obtain ⟨service, sequence, hsend, hacc⟩ :
      ∃ service sequence, Addresses.sendTransaction d e wire.texts (wire.posting m.row) actor c
          (wire.content m) key s.service = (.ok e.messageId, service) ∧
        Accepted s.service service ⟨e.messageId, c, actor, sequence⟩ ps :=
    sendTransaction_of_holds hs hac hnew haddr
  rw [Addresses.sendTransaction] at hsend
  have hposted : s.posted e actor c m e.messageId service = { s with
      service
      contents := s.contents ++
        [(e.messageId, ⟨m.row, m.attachmentRows, m.gif.map Gif.row⟩)]
      recent } := by
    simp only [Store.posted, hnew.message, hacc.stored, Option.isSome_none,
      Option.isNone_some, Bool.or_self, Bool.false_eq_true, if_false, hinsert]
  have htx : sendTransaction d e wire actor c m key s =
      (.ok e.messageId, s.posted e actor c m e.messageId service) := by
    unfold sendTransaction
    rw [delivering_congr (send_eq hchk), hsend]
  refine ⟨s.posted e actor c m e.messageId service, sequence, ?_, ?_, ?_⟩
  · unfold sendMessage
    refine Handler.read_bind_eq_ok.mpr ⟨(), requireContent_eq_ok hval hrt.sender, ?_⟩
    rw [Handler.bind_of_ok htx, hposted]
    refine onService_of_ok (onBackend_eq_ok (Handler.read_eq_ok.mpr ⟨?_, rfl⟩))
    simp [loadMessage, hacc.stored, require, bind, Except.bind]
  · rw [hposted]
    exact hacc
  · rw [hposted]

/-- A send that succeeds stores the routing of its message, or nothing. -/
theorem contents_of_sendMessage {answer : Rendered} {s' : Store}
    (h : sendMessage d e wire actor c m key s = (.ok answer, s')) :
    s'.contents = s.contents ∨ ∃ id rows, s'.contents = s.contents ++ [(id, rows)] ∧
      rows.message = m.row := by
  obtain ⟨_, -, h⟩ := Handler.read_bind_eq_ok.mp h
  obtain ⟨id, s₁, htx, h⟩ := Handler.bind_eq_ok.mp h
  obtain rfl : _ = s' := congrArg Prod.snd h
  unfold sendTransaction at htx
  split at htx
  case h_2 => cases congrArg Prod.fst htx
  case h_1 service _ =>
    obtain rfl : _ = s₁ := congrArg Prod.snd htx
    show (s.posted e actor c m _ service).contents = _ ∨ _
    unfold Store.posted
    split
    case isTrue => exact .inl rfl
    case isFalse =>
      split
      case h_2 => exact .inl rfl
      case h_1 rows recent hinsert => exact .inr ⟨_, rows, rfl, message_of_insertContent hinsert⟩

end Passes

/-! ### What Scout and Ada send -/

open FirstContact (plain ada)
open Removal (scout told)

def plainWire : Wire where
  content m := m.text.getD ""
  texts := ids
  deliveryId a := a.id.length

def saying (text : String) : MessageCreate :=
  { MessageCreate.empty with text := some text }

def later : Moment :=
  ⟨2, 0, 3, 0⟩

end SiliconDm.Server.Sending
