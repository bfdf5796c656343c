import Mathlib.Data.List.Sort
import SiliconDm.Protocol.Codes
import SiliconDm.Server.Selectors
import SiliconDm.Server.Streams

/-!
# The synchronization feed

`GET /api/v1/sync` gives an account references to what changed since its cursor, a page at a
time. A page reads the head of the stream first and the rows afterwards, without a transaction
around the two, so each is read from a committed database of its own. The cursor carries the
position, and the head that was fixed when the walk began as long as pages are left, under a
keyed hash. Waiting for something new repeats the page and is left out, as is the identity of a
delivery. Sources: `src/api/sync.rs:42–194`, `src/infrastructure/postgres/sync.rs:45–147`,
`crates/protocol/src/lib.rs:215–232`, `src/domain/pagination.rs:46–52`.
-/

namespace SiliconDm.Server

open Base List

inductive SyncError where
  | validation (message : String)
  | syncResetRequired (message : String)
  | internal (message : String)
  deriving DecidableEq, Repr

def syncResetRequired : SyncError :=
  .syncResetRequired ("Synchronization history expired or the environment changed. Request " ++
    "/api/v1/sync?reset=true, refresh conversations and messages, then resume from its cursor.")

/-! ### Scans -/

structure SyncEvent where
  sequence : Nat
  kind : String
  conversationId : Nat
  messageId : String
  deriving DecidableEq, Repr

structure SyncScan where
  events : List SyncEvent
  position : Int
  hasMore : Bool
  deriving DecidableEq, Repr

def DeliveryRef.kind : DeliveryRef → String
  | .message .. => "message"
  | .messageStatus .. => "message_status"
  | .systemEvent _ => "system_event"

def DeliveryRef.messageId : DeliveryRef → Option Nat
  | .message m _ => some m
  | .messageStatus m _ => some m
  | .systemEvent _ => none

/-- The column `authorized`: the account takes part in the conversation now. -/
def Delivery.authorized (d : Database) (row : Delivery) : Bool :=
  (row.ref.kind = "message" || row.ref.kind = "message_status") &&
    row.conversation.any fun c => row.target ∈ d.effectiveParticipants c

def syncEvent (d : Database) (row : Delivery) : Except SyncError SyncEvent :=
  match row.conversation with
  | none => .error (.internal "sync event lost its conversation")
  | some c =>
    match (row.ref.messageId.bind d.message).bind fun message => Protocol.messageCode message.sequence with
    | none => .error (.internal "sync event lost its message")
    | some code =>
      .ok { sequence := row.sequence, kind := row.ref.kind, conversationId := c, messageId := code }

/-- The loop over the rows of a scan, from a position on. -/
def scanRows (d : Database) : List Delivery → Int → Except SyncError (List SyncEvent × Int)
  | [], position => .ok ([], position)
  | row :: rows, position =>
    if position + 1 ≠ row.sequence then .error syncResetRequired
    else
      match if row.authorized d then (syncEvent d row).map some else .ok none with
      | .error e => .error e
      | .ok event =>
        match scanRows d rows row.sequence with
        | .error e => .error e
        | .ok (events, position) => .ok (event.toList ++ events, position)

/-- The rows of an account's stream in a range, `ORDER BY sequence`. -/
def sequenceRows (d : Database) (a : ActorRef) (after upper : Int) : List Delivery :=
  ((d.deliveriesOf a).filter fun row => after < row.sequence ∧ row.sequence ≤ upper).insertionSort
    fun row row' => row.sequence ≤ row'.sequence

def syncEvents (d : Database) (a : ActorRef) (after upper : Int) (limit : Nat) :
    Except SyncError SyncScan :=
  if after < 0 ∨ upper < after ∨ ¬ (1 ≤ limit ∧ limit ≤ 100) then
    .error (.validation "invalid synchronization bounds")
  else
    let rows := (sequenceRows d a after upper).take (limit + 1)
    let hasMore := decide (limit < rows.length)
    match scanRows d (rows.take limit) after with
    | .error e => .error e
    | .ok (events, position) =>
      if hasMore = false ∧ position ≠ upper then .error syncResetRequired
      else .ok { events := events, position := position, hasMore := hasMore }

/-- The committed head of the stream, and the floor that sync starts above. -/
def syncHead (d : Database) (a : ActorRef) : Int × Int :=
  match d.stream a with
  | some stream => (stream.nextSequence - 1, stream.syncFloor)
  | none => (0, 0)

/-! ### Cursors -/

structure SyncCursor where
  version : Nat
  scope : String
  position : Int
  upper : Option Int
  expiresAt : Int
  deriving DecidableEq, Repr

/-- The libraries a cursor is written with: JSON, unpadded URL-safe base 64, and the keyed and
the plain BLAKE3 hash (the scope is the hash of the account's name). -/
structure CursorCodec where
  toVec : SyncCursor → List UInt8
  fromSlice : List UInt8 → Option SyncCursor
  encode : List UInt8 → String
  decode : String → Option (List UInt8)
  keyedHash : List UInt8 → List UInt8 → List UInt8
  scope : ActorRef → String
  fromSlice_toVec : ∀ cursor, fromSlice (toVec cursor) = some cursor
  decode_encode : ∀ bytes, decode (encode bytes) = some bytes
  dot_notMem_encode : ∀ bytes, '.' ∉ (encode bytes).toList

def cursorSeconds : Int :=
  24 * 60 * 60

def cursorVersion : Nat :=
  2

variable (codec : CursorCodec) (key : List UInt8)

def encodeCursor (cursor : SyncCursor) : String :=
  let body := codec.toVec cursor
  codec.encode body ++ "." ++ codec.encode (codec.keyedHash key body)

def invalidCursor : SyncError :=
  .validation "invalid synchronization cursor"

def decodeCursor (value scope : String) (now : Int) : Except SyncError SyncCursor :=
  if 2048 < value.utf8ByteSize then .error invalidCursor
  else
    match Selector.splitOnce '.' value.toList with
    | none => .error invalidCursor
    | some (body, signature) =>
      match codec.decode (String.ofList body), codec.decode (String.ofList signature) with
      | some body, some signature =>
        if codec.keyedHash key body ≠ signature then .error syncResetRequired
        else
          match codec.fromSlice body with
          | none => .error invalidCursor
          | some cursor =>
            if cursor.version ≠ cursorVersion ∨ cursor.position < 0 ∨
                cursor.upper.any (· < cursor.position) then .error invalidCursor
            else if cursor.scope ≠ scope ∨ cursor.expiresAt ≤ now then .error syncResetRequired
            else .ok cursor
      | _, _ => .error invalidCursor

/-! ### Pages -/

structure SyncQuery where
  cursor : Option String
  limit : Option Nat
  reset : Bool
  deriving DecidableEq, Repr

structure SyncPage where
  events : List SyncEvent
  cursor : String
  hasMore : Bool
  upperSequence : Int
  deriving DecidableEq, Repr

/-- One page: the head is read from `d`, the rows from `d'`. -/
def page (a : ActorRef) (now : Int) (query : SyncQuery) (limit : Nat) (d d' : Database) :
    Except SyncError SyncPage :=
  match query.cursor.elim (.ok none) fun value =>
      (decodeCursor codec key value (codec.scope a) now).map some with
  | .error e => .error e
  | .ok cursor =>
    let (head, floor) := syncHead d a
    let after := cursor.elim floor (·.position)
    let upper := (cursor.bind (·.upper)).getD head
    if head < after ∨ head < upper ∨ after < floor then .error syncResetRequired
    else
      match if query.reset then .ok { events := [], position := head, hasMore := false }
        else syncEvents d' a after upper limit with
      | .error e => .error e
      | .ok scan =>
        let upperSequence := if query.reset then head else upper
        let next : SyncCursor := {
          version := cursorVersion
          scope := codec.scope a
          position := scan.position
          upper := if scan.hasMore then some upperSequence else none
          -- the deadline stays while a fixed range is being paged through
          expiresAt := (cursor.filter (·.upper.isSome)).elim (now + cursorSeconds) (·.expiresAt) }
        .ok {
          events := scan.events
          cursor := encodeCursor codec key next
          hasMore := scan.hasMore
          upperSequence := upperSequence }

def events (a : ActorRef) (now : Int) (query : SyncQuery) (d d' : Database) :
    Except SyncError SyncPage :=
  let limit := query.limit.getD 50
  if ¬ (1 ≤ limit ∧ limit ≤ 100) then .error (.validation "limit must be between 1 and 100")
  else if query.reset = true ∧ query.cursor.isSome = true then
    .error (.validation "reset cannot be combined with cursor")
  else page codec key a now query limit d d'

/-! ### Reading a cursor back -/

/-- A cursor of the server for the account. -/
structure SyncCursor.Issued (cursor : SyncCursor) (a : ActorRef) : Prop where
  version : cursor.version = cursorVersion
  scope : cursor.scope = codec.scope a
  position : 0 ≤ cursor.position
  upper : ∀ upper, cursor.upper = some upper → cursor.position ≤ upper

variable {codec key} {cursor : SyncCursor} {a : ActorRef} {now : Int}

theorem decodeCursor_encodeCursor (h : cursor.Issued codec a)
    (hsize : (encodeCursor codec key cursor).utf8ByteSize ≤ 2048) :
    decodeCursor codec key (encodeCursor codec key cursor) (codec.scope a) now =
      if cursor.expiresAt ≤ now then .error syncResetRequired else .ok cursor := by
  have hup : cursor.upper.any (· < cursor.position) = false := by
    cases hu : cursor.upper with
    | none => rfl
    | some upper =>
      have := h.upper upper hu
      simpa using this
  have hpos := h.position
  have hsplit : Selector.splitOnce '.' (encodeCursor codec key cursor).toList =
      some ((codec.encode (codec.toVec cursor)).toList,
        (codec.encode (codec.keyedHash key (codec.toVec cursor))).toList) :=
    Selector.splitOnce_eq_some_iff.mpr ⟨by simp [encodeCursor], codec.dot_notMem_encode _⟩
  unfold decodeCursor
  rw [if_neg (by omega), hsplit]
  simp only [String.ofList_toList, codec.decode_encode, codec.fromSlice_toVec, ne_eq,
    not_true_eq_false, if_false, h.version, h.scope, hup]
  simp [Int.not_lt.mpr hpos]

/-- Whatever a request with such a text is answered, it read the cursor back. -/
theorem decodeCursor_eq_ok {found : SyncCursor} (h : cursor.Issued codec a)
    (hd : decodeCursor codec key (encodeCursor codec key cursor) (codec.scope a) now = .ok found) :
    found = cursor := by
  by_cases hsize : (encodeCursor codec key cursor).utf8ByteSize ≤ 2048
  · rw [decodeCursor_encodeCursor h hsize] at hd
    split at hd <;> cases hd
    rfl
  · unfold decodeCursor at hd
    rw [if_pos (by omega)] at hd
    cases hd

/-! ### What a scan finds -/

section Scan

variable {d : Database} {rows : List Delivery} {p upper limit : Nat}

def eventOf (d : Database) (row : Delivery) : Option SyncEvent :=
  if row.authorized d then (syncEvent d row).toOption else none

def eventAt (d : Database) (a : ActorRef) (sequence : Nat) : Option SyncEvent :=
  ((d.deliveriesOf a).find? (·.sequence = sequence)).bind (eventOf d)

def Holds (d : Database) (a : ActorRef) (sequence : Nat) : Prop :=
  ∃ row ∈ d.deliveriesOf a, row.sequence = sequence ∧
    ∀ row' ∈ d.deliveriesOf a, row'.sequence = sequence → row' = row

/-- What the account may be told of: a message or its status, in a conversation that it takes part
in. -/
def Readable (d : Database) (row : Delivery) : Prop :=
  (∃ m, (∃ recipient, row.ref = .message m recipient) ∨ ∃ status, row.ref = .messageStatus m status) ∧
    ∃ c, row.conversation = some c ∧ row.target ∈ d.effectiveParticipants c

/-- The event names the place, the conversation and the message of a row, and what happened. -/
structure Refers (d : Database) (row : Delivery) (event : SyncEvent) : Prop where
  sequence : event.sequence = row.sequence
  conversation : row.conversation = some event.conversationId
  message : ∃ m message, d.message m = some message ∧
    Protocol.messageCode message.sequence = some event.messageId ∧
    ((∃ recipient, row.ref = .message m recipient) ∧ event.kind = "message" ∨
      (∃ status, row.ref = .messageStatus m status) ∧ event.kind = "message_status")

variable {row : Delivery} {event : SyncEvent}

theorem authorized_iff : row.authorized d = true ↔ Readable d row := by
  unfold Delivery.authorized Readable
  rw [Bool.and_eq_true, Option.any_eq_true]
  refine and_congr ?_ (by simp)
  cases row.ref <;> simp [DeliveryRef.kind]

theorem refers_of_syncEvent (ha : row.authorized d = true) (h : syncEvent d row = .ok event) :
    Refers d row event := by
  unfold syncEvent at h
  split at h
  case h_1 => cases h
  case h_2 c hc =>
    split at h
    case h_1 => cases h
    case h_2 code hcode =>
      cases h
      obtain ⟨message, hm, hcode⟩ := Option.bind_eq_some_iff.mp hcode
      obtain ⟨m, href, hm⟩ := Option.bind_eq_some_iff.mp hm
      refine ⟨rfl, hc, m, message, hm, hcode, ?_⟩
      cases hr : row.ref with
      | message m' recipient =>
        rw [hr] at href
        cases href
        exact .inl ⟨⟨recipient, rfl⟩, rfl⟩
      | messageStatus m' status =>
        rw [hr] at href
        cases href
        exact .inr ⟨⟨status, rfl⟩, rfl⟩
      | systemEvent e => simp [Delivery.authorized, hr, DeliveryRef.kind] at ha

/-- If the account may see the row, there is an event for it. -/
def Told (d : Database) (row : Delivery) : Prop :=
  row.authorized d = true → ∃ event, syncEvent d row = .ok event

/-- The row of an event the account may see has not lost what it refers to; message sequences are
in a `BIGINT` column. -/
theorem told_of_streams (hd : Streams d)
    (hfits : ∀ m ∈ d.messages, (m.sequence : Int) ≤ Protocol.i64Max) (hr : row ∈ d.deliveries) : Told d row := by
  intro h
  simp only [Delivery.authorized, Bool.and_eq_true, Option.any_eq_true] at h
  obtain ⟨hkind, c, hc, -⟩ := h
  have hmessage : ∃ m, row.ref.messageId = some m ∧ (d.message m).isSome = true := by
    cases href : row.ref with
    | message m r => exact ⟨m, rfl, hd.outbox.known row hr m r href⟩
    | messageStatus m status => exact ⟨m, rfl, hd.known row hr m status href⟩
    | systemEvent e => simp [href, DeliveryRef.kind] at hkind
  obtain ⟨m, hm, hsome⟩ := hmessage
  obtain ⟨message, hmsg⟩ := Option.isSome_iff_exists.mp hsome
  have hmem := (mem_of_getRow_eq_some hmsg).1
  have hlow := hd.messages message hmem
  have hhigh := hfits message hmem
  have hcode : Protocol.messageCode message.sequence = some _ :=
    Protocol.messageCode_eq_some.mpr ⟨by omega, by omega, rfl⟩
  simp only [syncEvent, hc, hm, Option.bind_some, hmsg, hcode]
  exact ⟨_, rfl⟩

theorem told_of_scanRows {position : Int} {r : List SyncEvent × Int}
    (h : scanRows d rows position = .ok r) : ∀ row ∈ rows, Told d row := by
  induction rows generalizing position r with
  | nil => simp
  | cons row rows ih =>
    simp only [scanRows] at h
    split at h
    case isTrue => cases h
    case isFalse =>
      split at h
      case h_1 => cases h
      case h_2 event hevent =>
        split at h
        case h_1 => cases h
        case h_2 events position' hrest =>
          intro row' hr
          obtain rfl | hr := mem_cons.mp hr
          · intro hauth
            rw [if_pos hauth] at hevent
            cases he : syncEvent d row' with
            | ok event => exact ⟨event, rfl⟩
            | error e =>
              rw [he] at hevent
              cases hevent
          · exact ih hrest row' hr

/-- The loop succeeds just on rows that follow each other without a gap. -/
theorem scanRows_eq (hrs : ∀ row ∈ rows, Told d row) :
    scanRows d rows p =
      if rows.map (·.sequence) = List.range' (p + 1) rows.length then
        .ok (rows.filterMap (eventOf d), ((p + rows.length : Nat) : Int))
      else .error syncResetRequired := by
  induction rows generalizing p with
  | nil => simp [scanRows]
  | cons row rows ih =>
    simp only [scanRows, map_cons, length_cons, range'_succ, List.cons.injEq]
    by_cases hnext : row.sequence = p + 1
    · have hstep : (p : Int) + 1 = row.sequence := by omega
      have hrest := ih (p := p + 1) fun r hr => hrs r (mem_cons_of_mem _ hr)
      have hevent : (if row.authorized d then (syncEvent d row).map some else .ok none) =
          Except.ok (eventOf d row) := by
        unfold eventOf
        split
        next hauth =>
          obtain ⟨event, he⟩ := hrs row mem_cons_self hauth
          rw [he]
          rfl
        next => rfl
      rw [if_neg (Classical.not_not.mpr hstep), hevent, hnext]
      simp only [true_and, hrest]
      by_cases hall : rows.map (·.sequence) = List.range' (p + 1 + 1) rows.length
      · simp only [hall, if_true, filterMap_cons]
        have hadd : p + 1 + rows.length = p + (rows.length + 1) := by omega
        cases eventOf d row <;> simp [hadd]
      · simp [hall]
    · have hgap : (p : Int) + 1 ≠ row.sequence := by omega
      simp [hgap, hnext]

/-! The rows of a range in order. -/

def DistinctIn (d : Database) (a : ActorRef) (p upper : Nat) : Prop :=
  (((d.deliveriesOf a).map (·.sequence)).filter fun q => p < q ∧ q ≤ upper).Nodup

theorem mem_sequenceRows :
    row ∈ sequenceRows d a p upper ↔
      row ∈ d.deliveriesOf a ∧ p < row.sequence ∧ row.sequence ≤ upper := by
  unfold sequenceRows
  rw [(perm_insertionSort _ _).mem_iff, mem_filter]
  simp

theorem sequences_perm : ((sequenceRows d a p upper).map (·.sequence)).Perm
    (((d.deliveriesOf a).map (·.sequence)).filter fun q => p < q ∧ q ≤ upper) := by
  refine ((perm_insertionSort _ _).map _).trans ?_
  rw [List.filter_map]
  refine List.Perm.of_eq (congrArg (List.map _) (filter_congr fun row _ => ?_))
  simp

section

variable (h : DistinctIn d a p upper)
include h

/-- The sequences of the range increase. -/
theorem sequences_pairwise :
    ((sequenceRows d a p upper).map (·.sequence)).Pairwise (· < ·) := by
  have hle : ((sequenceRows d a p upper).map (·.sequence)).Pairwise (· ≤ ·) := by
    rw [pairwise_map]
    have : Std.Total fun row row' : Delivery => row.sequence ≤ row'.sequence :=
      ⟨fun row row' => Nat.le_total _ _⟩
    have : IsTrans Delivery fun row row' => row.sequence ≤ row'.sequence :=
      ⟨fun _ _ _ h h' => Nat.le_trans h h'⟩
    exact pairwise_insertionSort _ _
  have hne := nodup_iff_pairwise_ne.mp (sequences_perm.nodup_iff.mpr h)
  exact (hle.and hne).imp fun ⟨hle, hne⟩ => Nat.lt_of_le_of_ne hle hne

theorem DistinctIn.unique {row' : Delivery} (hr : row ∈ d.deliveriesOf a)
    (hr' : row' ∈ d.deliveriesOf a) (he : row.sequence = row'.sequence) (hp : p < row.sequence)
    (hu : row.sequence ≤ upper) :
    row = row' := by
  unfold DistinctIn at h
  rw [List.filter_map] at h
  refine inj_on_of_nodup_map h (mem_filter.mpr ⟨hr, ?_⟩)
    (mem_filter.mpr ⟨hr', ?_⟩) he
  · simpa using ⟨hp, hu⟩
  · simpa [← he] using ⟨hp, hu⟩

/-- In such a range, the event of a row is the event of its place. -/
theorem eventAt_eq (hr : row ∈ sequenceRows d a p upper) :
    eventAt d a row.sequence = eventOf d row := by
  obtain ⟨hm, hp, hu⟩ := mem_sequenceRows.mp hr
  unfold eventAt
  cases hfind : (d.deliveriesOf a).find? (·.sequence = row.sequence) with
  | none =>
    have := find?_eq_none.mp hfind row hm
    simp at this
  | some row' =>
    have hseq : row'.sequence = row.sequence := by simpa using find?_some hfind
    have : row = row' := h.unique hm (mem_of_find?_eq_some hfind) hseq.symm hp hu
    rw [← this]
    rfl

theorem holds_of_mem (hr : row ∈ sequenceRows d a p upper) :
    Holds d a row.sequence := by
  obtain ⟨hm, hp, hu⟩ := mem_sequenceRows.mp hr
  exact ⟨row, hm, rfl, fun row' hr' he => (h.unique hm hr' he.symm hp hu).symm⟩

end

/-- What a scan answers. -/
theorem syncEvents_eq (htold : ∀ row ∈ (sequenceRows d a p upper).take limit, Told d row)
    (hle : p ≤ upper) (hlim : 1 ≤ limit ∧ limit ≤ 100) :
    syncEvents d a p upper limit =
      let rows := sequenceRows d a p upper
      let scanned := rows.take limit
      if scanned.map (·.sequence) = List.range' (p + 1) scanned.length ∧
          (limit < rows.length ∨ p + scanned.length = upper) then
        .ok {
          events := scanned.filterMap (eventOf d)
          position := (p + scanned.length : Nat)
          hasMore := decide (limit < rows.length) }
      else .error syncResetRequired := by
  have htake : ((sequenceRows d a p upper).take (limit + 1)).take limit =
      (sequenceRows d a p upper).take limit := by
    rw [take_take]
    congr 1
    omega
  have hmore : limit < ((sequenceRows d a p upper).take (limit + 1)).length ↔
      limit < (sequenceRows d a p upper).length := by
    rw [length_take]
    omega
  unfold syncEvents
  rw [if_neg (by omega)]
  simp only [htake, hmore, scanRows_eq htold]
  by_cases hall : ((sequenceRows d a p upper).take limit).map (·.sequence) =
      List.range' (p + 1) ((sequenceRows d a p upper).take limit).length
  · simp only [hall, if_true, true_and, decide_eq_false_iff_not]
    by_cases hend : limit < (sequenceRows d a p upper).length ∨
        p + ((sequenceRows d a p upper).take limit).length = upper
    · rw [if_pos hend, if_neg]
      omega
    · rw [if_neg hend, if_pos]
      omega
  · simp only [hall, if_false, false_and]

theorem told_of_syncEvents {scan : SyncScan} (h : syncEvents d a p upper limit = .ok scan) :
    ∀ row ∈ (sequenceRows d a p upper).take limit, Told d row := by
  unfold syncEvents at h
  split at h
  case isTrue => cases h
  case isFalse =>
    simp only [take_take, Nat.min_eq_left (Nat.le_succ limit)] at h
    split at h
    case h_1 => cases h
    case h_2 hscan => exact told_of_scanRows hscan

/-- A scan that succeeds reads every place it passes. -/
theorem syncEvents_eq_ok {scan : SyncScan} (hdist : DistinctIn d a p upper)
    (hle : p ≤ upper) (hlim : 1 ≤ limit ∧ limit ≤ 100)
    (h : syncEvents d a p upper limit = .ok scan) :
    ∃ p' : Nat, scan.position = p' ∧ p ≤ p' ∧ p' ≤ upper ∧
      (∀ q, p < q → q ≤ p' → Holds d a q) ∧
      (∀ row ∈ d.deliveriesOf a, p < row.sequence → row.sequence ≤ p' → Told d row) ∧
      scan.events = (List.range' (p + 1) (p' - p)).filterMap (eventAt d a) ∧
      (scan.hasMore = false → p' = upper) ∧ (scan.hasMore = true → p < p' ∧ p' < upper) := by
  have htold := told_of_syncEvents h
  rw [syncEvents_eq htold hle hlim] at h
  simp only at h
  split at h <;> cases h
  next hcond =>
  obtain ⟨hseq, hend⟩ := hcond
  have hm : ∀ q, p < q → q ≤ p + ((sequenceRows d a p upper).take limit).length →
      ∃ row ∈ (sequenceRows d a p upper).take limit, row.sequence = q := by
    intro q hq hq'
    have : q ∈ ((sequenceRows d a p upper).take limit).map (·.sequence) := by
      rw [hseq, mem_range'_1]
      omega
    exact List.mem_map.mp this
  have hpast : limit < (sequenceRows d a p upper).length →
      p + ((sequenceRows d a p upper).take limit).length < upper := by
    intro hmore
    -- the row behind the page lies past it
    have hlen : ((sequenceRows d a p upper).take limit).length = limit := by
      rw [length_take]
      omega
    obtain ⟨last, hlast, hlast'⟩ := hm (p + limit) (by omega) (by omega)
    have hdrop : (sequenceRows d a p upper).drop limit ≠ [] := by
      intro he
      have := congrArg List.length he
      rw [length_drop, length_nil] at this
      omega
    obtain ⟨row, hr⟩ := exists_mem_of_ne_nil _ hdrop
    have hsorted := sequences_pairwise hdist
    rw [pairwise_map, ← take_append_drop limit (sequenceRows d a p upper),
      pairwise_append] at hsorted
    have hlt := hsorted.2.2 last hlast row hr
    have := (mem_sequenceRows.mp (mem_of_mem_drop hr)).2.2
    omega
  refine ⟨_, rfl, Nat.le_add_right _ _, ?_, ?_, ?_, ?_, ?_, ?_⟩
  · rcases hend with hmore | hend
    · exact Nat.le_of_lt (hpast hmore)
    · omega
  · intro q hq hq'
    obtain ⟨row, hr, rfl⟩ := hm q hq hq'
    exact holds_of_mem hdist (mem_of_mem_take hr)
  · intro row hrow hq hq'
    obtain ⟨row', hr, he⟩ := hm row.sequence hq hq'
    obtain ⟨hrow', hp, hu⟩ := mem_sequenceRows.mp (mem_of_mem_take hr)
    obtain rfl := hdist.unique hrow' hrow he hp hu
    exact htold row' hr
  · rw [Nat.add_sub_cancel_left, ← hseq, filterMap_map]
    apply filterMap_congr
    intro row hr
    exact (eventAt_eq hdist (mem_of_mem_take hr)).symm
  · intro hmore
    have : ¬ limit < (sequenceRows d a p upper).length := by simpa using hmore
    exact hend.resolve_left this
  · intro hmore
    have hmore : limit < (sequenceRows d a p upper).length := by simpa using hmore
    refine ⟨?_, hpast hmore⟩
    rw [length_take]
    omega

theorem sequences_eq_range (hdist : DistinctIn d a p upper)
    (h : ∀ q, p < q → q ≤ upper → ∃ row ∈ d.deliveriesOf a, row.sequence = q) :
    (sequenceRows d a p upper).map (·.sequence) = List.range' (p + 1) (upper - p) := by
  have hsorted := sequences_pairwise hdist
  have hrange : (List.range' (p + 1) (upper - p)).Pairwise (· < ·) := pairwise_lt_range'
  refine List.Perm.eq_of_pairwise (fun x y _ _ h h' => absurd h (Nat.lt_asymm h')) hsorted hrange ?_
  rw [perm_ext_iff_of_nodup (hsorted.imp Nat.ne_of_lt) nodup_range']
  intro q
  simp only [List.mem_map, mem_sequenceRows, mem_range'_1]
  constructor
  · rintro ⟨row, ⟨-, hp, hu⟩, rfl⟩
    omega
  · intro hq
    obtain ⟨row, hr, rfl⟩ := h q (by omega) (by omega)
    exact ⟨row, ⟨hr, by omega, by omega⟩, rfl⟩

/-- A scan of a range in which nothing is missing succeeds. -/
theorem exists_syncEvents (htold : ∀ row ∈ (sequenceRows d a p upper).take limit, Told d row)
    (hdist : DistinctIn d a p upper) (hle : p ≤ upper) (hlim : 1 ≤ limit ∧ limit ≤ 100)
    (h : ∀ q, p < q → q ≤ upper → ∃ row ∈ d.deliveriesOf a, row.sequence = q) :
    ∃ scan, syncEvents d a p upper limit = .ok scan := by
  have hall := sequences_eq_range hdist h
  have hlen : (sequenceRows d a p upper).length = upper - p := by
    have := congrArg List.length hall
    simpa using this
  rw [syncEvents_eq htold hle hlim]
  simp only
  rw [if_pos]
  · exact ⟨_, rfl⟩
  constructor
  · rw [map_take, hall, length_take, hlen]
    apply ext_getElem
    · simp
    · intro i hi hi'
      simp
  · rw [length_take, hlen]
    omega

end Scan

end SiliconDm.Server
