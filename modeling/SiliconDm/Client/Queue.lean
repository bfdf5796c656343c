import Mathlib.Data.List.Nodup
import SiliconDm.Client.SignIn

/-!
# The outbox table

One SQLite table holds every request a home ever submitted. Rows are appended with a fresh
row id, never deleted, and changed by single statements only; each function below is one
statement (or the checks around it) on the table, listed in row id order. Source:
`crates/client/src/runtime/queue.rs:89–356`, `crates/client/src/relay.rs:12–183`.
-/

namespace SiliconDm.Client

open List

/-- Commands of the local relay. Payload fields that neither ordering nor execution policy
reads are left out. `relay.rs:12–156`. -/
inductive Operation where
  | me
  | delivery
  | listGroups
  | getGroup
  | createGroup
  | updateGroup
  | inviteGroupMembers
  | removeGroupMembers
  | addGroupOwners
  | removeGroupOwners
  | listInvitations
  | acceptInvitation
  | declineInvitation
  | leaveGroup
  | getAllowList
  | allow
  | disallow
  | listConversations
  | createConversation
  | listMessages (conversationId : String)
  | getMessage (conversationId : String)
  | sendMessage (conversationId : String)
  | editMessage (conversationId : String)
  | deleteMessage (conversationId : String)
  | receipt (conversationId : String)
  | getDraft (conversationId : String)
  | putDraft (conversationId : String)
  | deleteDraft (conversationId : String)
  | createBundle (conversationId : String)
  | getBundle (conversationId : String)
  | getPresence
  | setPresence
  | trendingGifs
  | searchGifs
  | recentGifs
  deriving DecidableEq, Repr

/-- Whether execution changes backend state. `relay.rs:159–183`. -/
def Operation.isMutation : Operation → Bool
  | createGroup | updateGroup | inviteGroupMembers | removeGroupMembers | addGroupOwners
  | removeGroupOwners | acceptInvitation | declineInvitation | leaveGroup | allow | disallow
  | createConversation | sendMessage _ | editMessage _ | deleteMessage _ | receipt _
  | putDraft _ | deleteDraft _ | createBundle _ | setPresence => true
  | _ => false

/-- The ordering lane of a request within its profile; everything that is neither about one
conversation nor presence uses the empty lane. `queue.rs:95–129`. -/
def lane : Operation → String
  | .listMessages c | .getMessage c | .sendMessage c | .editMessage c | .deleteMessage c
  | .receipt c | .getDraft c | .putDraft c | .deleteDraft c | .createBundle c
  | .getBundle c => "conversation:" ++ c
  | .setPresence => "presence"
  | _ => ""

/-- A submitted command. `relay.rs`, `RelayRequest`. -/
structure RelayRequest where
  requestId : Nat
  profile : String
  testingEnvironmentId : Option Nat
  request : Operation
  deriving DecidableEq, Repr

/-- The JSON a caller submitted: the request it decodes to, the members the relay does not
read, and its stored size. -/
structure Envelope where
  request : RelayRequest
  rest : String
  octets : Nat
  deriving DecidableEq, Repr

/-- The `state` column. -/
inductive RequestState where
  | pending
  | completed
  | failed
  deriving DecidableEq, Repr

structure Detail where
  code : String
  message : String
  reason : Option String
  hint : Option String
  deriving DecidableEq, Repr

/-- One outbox row. `queue.rs:53`. -/
structure Row where
  rowid : Nat
  requestId : Nat
  session : String
  request : Envelope
  state : RequestState
  result : Option String
  error : Option Detail
  attempts : Nat
  nextAttempt : Nat
  created : Nat
  lane : String
  deriving DecidableEq, Repr

/-- The row id SQLite gives the next insert: one above the largest. -/
def nextRowid (rows : List Row) : Nat :=
  (rows.map Row.rowid).foldr max 0 + 1

/-- The row `enqueue` inserts. `queue.rs:153–162`. -/
def newRow (rows : List Row) (original : Envelope) (now : Nat) : Row where
  rowid := nextRowid rows
  requestId := original.request.requestId
  session := sessionKey original.request.profile
  request := original
  state := .pending
  result := none
  error := none
  attempts := 0
  nextAttempt := 0
  created := now
  lane := lane original.request.request

/-- Queue a request once; the same request id with the same JSON is accepted again without a
second row. `queue.rs:133–165`. -/
def enqueue (rows : List Row) (original : Envelope) (now : Nat) : Except String (List Row) :=
  if original.request.testingEnvironmentId.isSome then
    .error "test environments were retired with the move to Silicon Accounts; this request was not queued"
  else
    match rows.find? (·.requestId = original.request.requestId) with
    | some previous =>
      if previous.request ≠ original then
        .error "request_id was already used for a different request"
      else .ok rows
    | none => .ok (rows ++ [newRow rows original now])

/-- Pending requests of one profile. `queue.rs:167–174`. -/
def pendingCount (rows : List Row) (session : String) : Nat :=
  rows.countP fun r => r.session = session && r.state = .pending

/-- `UPDATE outbox SET state='failed',error=… WHERE state='pending' AND …`. -/
def failWhere (hit : Row → Bool) (error : Detail) (rows : List Row) : List Row :=
  rows.map fun r =>
    if r.state = .pending && hit r then { r with state := .failed, error := some error } else r

/-- Fail every pending request of one profile. `queue.rs:176–182`. -/
def failPending (session : String) (error : Detail) (rows : List Row) : List Row :=
  failWhere (·.session = session) error rows

/-- SQLite's `LIKE '%:production'`, which ignores the case of ASCII letters. -/
def likeProduction (session : String) : Bool :=
  ":production".toList.reverse.isPrefixOf (session.toList.reverse.map Char.toLower)

/-- Fail what was queued for a retired test environment. `queue.rs:185–191`. -/
def retireTestEnvironmentRequests (rows : List Row) : List Row :=
  failWhere (fun r => !likeProduction r.session)
    { code := "testing_environments_retired"
      message := "This request was queued for a test environment; test environments were retired with the move to Silicon Accounts, so it was not sent."
      reason := none
      hint := none } rows

/-- Fail pending presence changes when a relay starts. `queue.rs:342–346`. -/
def expireTransientCommands (rows : List Row) : List Row :=
  failWhere (·.request.request.request = .setPresence)
    { code := "transient_expired"
      message := "presence change expired when the daemon stopped; send a current activity"
      reason := none
      hint := none } rows

/-- `UPDATE outbox SET … WHERE request_id=…`, with no look at the state. -/
def updateRequest (id : Nat) (f : Row → Row) (rows : List Row) : List Row :=
  rows.map fun r => if r.requestId = id then f r else r

/-- Store the answer of a request. `queue.rs:281–297`. -/
def finish (id : Nat) (result : Option String) (error : Option Detail) (rows : List Row) :
    List Row :=
  updateRequest id (fun r =>
    { r with
      state := if error.isSome then .failed else .completed
      result := result
      error := error }) rows

/-- Schedule another attempt with exponential backoff of at most a minute.
`queue.rs:300–303`. -/
def retry (id : Nat) (error : Detail) (now : Nat) (rows : List Row) : List Row :=
  updateRequest id (fun r =>
    { r with
      attempts := r.attempts + 1
      nextAttempt := now + min 60 (1 <<< min r.attempts 6)
      error := some error }) rows

/-- What the scheduler learns about a request before loading it. `queue.rs:26–31`. -/
structure RequestCandidate where
  requestId : Nat
  session : String
  lane : String
  payloadBytes : Nat
  deriving DecidableEq, Repr

/-- An earlier pending request of the profile that holds this one back. `queue.rs:246`. -/
def blocks (previous o : Row) : Bool :=
  previous.session = o.session && previous.state = .pending && previous.rowid < o.rowid &&
    (previous.lane = o.lane || previous.lane = "" || (o.lane = "" && previous.attempts = 0))

def Row.candidate (r : Row) : RequestCandidate where
  requestId := r.requestId
  session := r.session
  lane := r.lane
  payloadBytes := r.request.octets

/-- The first fifty due pending requests that nothing earlier holds back. `queue.rs:240–267`. -/
def requestCandidates (rows : List Row) (now : Nat) : List RequestCandidate :=
  ((rows.filter fun o =>
    o.state = .pending && o.nextAttempt ≤ now && !rows.any (blocks · o)).take 50).map
      Row.candidate

/-- Load a request that is still pending and due. `queue.rs:269–279`. -/
def loadRequest (rows : List Row) (id now : Nat) : Option RelayRequest :=
  (rows.find? fun r => r.requestId = id && r.state = .pending && r.nextAttempt ≤ now).map
    (·.request.request)

/-! ### How rows change -/

/-- The same request later: its identity columns are untouched and it is pending only if it
still was. -/
structure Row.Continues (r r' : Row) : Prop where
  rowid : r'.rowid = r.rowid
  requestId : r'.requestId = r.requestId
  session : r'.session = r.session
  request : r'.request = r.request
  lane : r'.lane = r.lane
  pending : r'.state = .pending → r.state = .pending

/-- The table later: old rows continue, new rows come after every old one. -/
structure Grows (rows rows' : List Row) : Prop where
  kept : ∀ r ∈ rows, ∃ r' ∈ rows', r.Continues r'
  origin : ∀ r' ∈ rows', (∃ r ∈ rows, r.Continues r') ∨
    ∀ r ∈ rows, r.rowid < r'.rowid ∧ r.requestId ≠ r'.requestId

/-- Request ids are the table's key, and a row's id is the one its JSON decodes to. -/
structure WellKeyed (rows : List Row) : Prop where
  nodup : (rows.map Row.requestId).Nodup
  decoded : ∀ r ∈ rows, r.request.request.requestId = r.requestId

theorem Row.Continues.refl (r : Row) : r.Continues r :=
  ⟨rfl, rfl, rfl, rfl, rfl, id⟩

theorem Grows.refl (rows : List Row) : Grows rows rows where
  kept r hr := ⟨r, hr, .refl r⟩
  origin r hr := .inl ⟨r, hr, .refl r⟩

/-- A statement that changes rows one by one, each into its continuation. -/
def Rewrites (rows rows' : List Row) : Prop :=
  ∃ f : Row → Row, rows' = rows.map f ∧ ∀ r ∈ rows, r.Continues (f r)

variable {rows rows' : List Row} {r r' : Row} {original : Envelope} {now id : Nat}
  {c : RequestCandidate}

/-- A rewritten table holds continuations only. -/
theorem Rewrites.origin (h : Rewrites rows rows') : ∀ r' ∈ rows', ∃ r ∈ rows, r.Continues r' := by
  obtain ⟨f, rfl, hf⟩ := h
  intro r' hr'
  obtain ⟨r, hr, rfl⟩ := List.mem_map.mp hr'
  exact ⟨r, hr, hf r hr⟩

theorem Rewrites.grows (h : Rewrites rows rows') : Grows rows rows' where
  kept r hr := by
    obtain ⟨f, rfl, hf⟩ := h
    exact ⟨f r, List.mem_map_of_mem hr, hf r hr⟩
  origin r' hr' := .inl (h.origin r' hr')

theorem Rewrites.wellKeyed (h : Rewrites rows rows') (hw : WellKeyed rows) : WellKeyed rows' := by
  obtain ⟨f, rfl, hf⟩ := h
  constructor
  · have hids : (rows.map f).map Row.requestId = rows.map Row.requestId := by
      rw [List.map_map]
      exact map_congr_left fun r hr => (hf r hr).requestId
    rw [hids]
    exact hw.nodup
  · intro r' hr'
    obtain ⟨r, hr, rfl⟩ := List.mem_map.mp hr'
    rw [(hf r hr).request, (hf r hr).requestId]
    exact hw.decoded r hr

/-- Two rows with one request id are one row. -/
theorem WellKeyed.unique (h : WellKeyed rows) (hr : r ∈ rows) (hr' : r' ∈ rows)
    (he : r.requestId = r'.requestId) : r = r' :=
  inj_on_of_nodup_map h.nodup hr hr' he

theorem rowid_lt_nextRowid (h : r ∈ rows) : r.rowid < nextRowid rows := by
  unfold nextRowid
  induction rows with
  | nil => simp at h
  | cons a rows ih =>
    rcases mem_cons.mp h with rfl | h
    · simp only [map_cons, foldr_cons]
      omega
    · have := ih h
      simp only [map_cons, foldr_cons]
      omega

/-- What an accepted submission does: nothing, or one new pending row at the end. -/
theorem enqueue_eq_ok (h : enqueue rows original now = .ok rows') :
    (rows' = rows ∧ ∃ r ∈ rows, r.requestId = original.request.requestId) ∨
      (rows' = rows ++ [newRow rows original now] ∧
        ∀ r ∈ rows, r.requestId ≠ original.request.requestId) := by
  unfold enqueue at h
  split at h
  next => simp at h
  next =>
    split at h
    next previous hp =>
      split at h
      · simp at h
      · exact .inl ⟨by simpa using h.symm, previous, mem_of_find?_eq_some hp,
          by simpa using find?_some hp⟩
    next hn =>
      refine .inr ⟨by simpa using h.symm, fun r hr => ?_⟩
      simpa using find?_eq_none.mp hn r hr

theorem grows_enqueue (h : enqueue rows original now = .ok rows') : Grows rows rows' := by
  rcases enqueue_eq_ok h with ⟨rfl, -⟩ | ⟨rfl, hfr⟩
  · exact .refl _
  · constructor
    · intro r hr
      exact ⟨r, mem_append_left _ hr, .refl r⟩
    · intro r' hr'
      rcases mem_append.mp hr' with hr' | hr'
      · exact .inl ⟨r', hr', .refl r'⟩
      · obtain rfl := mem_singleton.mp hr'
        exact .inr fun r hr => ⟨rowid_lt_nextRowid hr, hfr r hr⟩

theorem wellKeyed_enqueue (hw : WellKeyed rows) (h : enqueue rows original now = .ok rows') :
    WellKeyed rows' := by
  rcases enqueue_eq_ok h with ⟨rfl, -⟩ | ⟨rfl, hfr⟩
  · exact hw
  · constructor
    · rw [map_append, nodup_append]
      refine ⟨hw.nodup, by simp, ?_⟩
      intro id hid id' hid'
      obtain ⟨r, hr, rfl⟩ := List.mem_map.mp hid
      obtain rfl : original.request.requestId = id' := by simpa [newRow, eq_comm] using hid'
      exact hfr r hr
    · exact forall_mem_append.mpr ⟨hw.decoded, forall_mem_singleton.mpr rfl⟩

/-! ### Bulk failures and answers -/

theorem rewrites_failWhere (hit : Row → Bool) (error : Detail) (rows : List Row) :
    Rewrites rows (failWhere hit error rows) := by
  refine ⟨_, rfl, fun r _ => ?_⟩
  split
  · exact ⟨rfl, rfl, rfl, rfl, rfl, by simp⟩
  · exact .refl r

/-- A bulk failure leaves every row that is no longer pending as it is. -/
theorem mem_failWhere_of_terminal (hit : Row → Bool) (error : Detail) (hr : r ∈ rows)
    (ht : r.state ≠ .pending) : r ∈ failWhere hit error rows :=
  List.mem_map.mpr ⟨r, hr, by simp [ht]⟩

theorem rewrites_updateRequest {f : Row → Row} (hf : ∀ r : Row, r.Continues (f r)) (id : Nat)
    (rows : List Row) : Rewrites rows (updateRequest id f rows) := by
  refine ⟨_, rfl, fun r _ => ?_⟩
  split
  · exact hf r
  · exact .refl r

theorem rewrites_finish (id : Nat) (result : Option String) (error : Option Detail)
    (rows : List Row) : Rewrites rows (finish id result error rows) := by
  apply rewrites_updateRequest
  intro r
  refine ⟨rfl, rfl, rfl, rfl, rfl, fun h => ?_⟩
  cases error <;> simp at h

theorem rewrites_retry (id : Nat) (error : Detail) (now : Nat) (rows : List Row) :
    Rewrites rows (retry id error now rows) := by
  apply rewrites_updateRequest
  intro r
  exact ⟨rfl, rfl, rfl, rfl, rfl, fun h => h⟩

/-- An answer or a retry touches only the row of its own request. -/
theorem mem_updateRequest_of_ne (f : Row → Row) (hr : r ∈ rows) (hne : r.requestId ≠ id) :
    r ∈ updateRequest id f rows :=
  List.mem_map.mpr ⟨r, hr, by simp [hne]⟩

/-! ### What the scheduler may start -/

/-- The request has no earlier pending request of its profile in its own lane or in the empty
lane. -/
def Unblocked (rows : List Row) (r : Row) : Prop :=
  ∀ p ∈ rows, p.session = r.session → p.rowid < r.rowid → p.state = .pending →
    p.lane ≠ r.lane ∧ p.lane ≠ ""

/-- The candidate names a row that nothing earlier holds back. -/
def Cleared (rows : List Row) (c : RequestCandidate) : Prop :=
  ∃ r ∈ rows, r.requestId = c.requestId ∧ r.session = c.session ∧ r.lane = c.lane ∧
    Unblocked rows r

/-- Once unblocked, a request stays so: rows never become pending again and new rows come
later. -/
theorem Unblocked.grows (h : Grows rows rows') (hr : r ∈ rows) (hc : r.Continues r')
    (hu : Unblocked rows r) : Unblocked rows' r' := by
  intro p' hp' hs hlt hpend
  rcases h.origin p' hp' with ⟨p, hp, hcp⟩ | hnew
  · have := hu p hp (by rw [← hcp.session, hs, hc.session]) (by
      rw [← hcp.rowid, ← hc.rowid]; exact hlt) (hcp.pending hpend)
    rw [hcp.lane, hc.lane]
    exact this
  · have := (hnew r hr).1
    rw [hc.rowid] at hlt
    omega

theorem Cleared.grows (h : Grows rows rows') (hc : Cleared rows c) : Cleared rows' c := by
  obtain ⟨r, hr, hid, hs, hl, hu⟩ := hc
  obtain ⟨r', hr', hcont⟩ := h.kept r hr
  exact ⟨r', hr', by rw [hcont.requestId, hid], by rw [hcont.session, hs],
    by rw [hcont.lane, hl], hu.grows h hr hcont⟩

/-- Every listed candidate is cleared when it is listed. -/
theorem cleared_of_mem_requestCandidates (h : c ∈ requestCandidates rows now) : Cleared rows c := by
  obtain ⟨r, hr, rfl⟩ := List.mem_map.mp h
  obtain ⟨hm, hsel⟩ := mem_filter.mp (mem_of_mem_take hr)
  refine ⟨r, hm, rfl, rfl, rfl, ?_⟩
  intro p hp hs hlt hpend
  have hn : blocks p r = false := by
    simp only [Bool.and_eq_true, Bool.not_eq_true', List.any_eq_false] at hsel
    simpa using hsel.2 p hp
  constructor
  · intro hl
    simp [blocks, hs, hlt, hpend, hl] at hn
  · intro hl
    simp [blocks, hs, hlt, hpend, hl] at hn

/-- A loaded request is a row that is pending now. -/
theorem loadRequest_eq_some {request : RelayRequest} (h : loadRequest rows id now = some request) :
    ∃ r ∈ rows, r.requestId = id ∧ r.state = .pending ∧ r.request.request = request := by
  obtain ⟨r, hr, rfl⟩ := Option.map_eq_some_iff.mp h
  have hsel := find?_some hr
  simp only [Bool.and_eq_true, decide_eq_true_eq] at hsel
  exact ⟨r, mem_of_find?_eq_some hr, hsel.1.1, hsel.1.2, rfl⟩

end SiliconDm.Client
