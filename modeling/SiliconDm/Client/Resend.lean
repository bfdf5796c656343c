import SiliconDm.Client.Relay
import SiliconDm.Server.Retried

/-!
# A request whose answer was lost

The relay and the service together: an attempt calls the service, and once more at once if the
call failed in transit; what came of it is written to the request's row, and a request that is
still pending is attempted again. Nothing else happens at the service. A call fails in transit
before it reaches the service or after the service executed it, and the relay cannot tell which.

Sources: `crates/client/src/runtime/daemon.rs:763–781,973–1009`, `crates/client/src/lib.rs:65–80`,
`relay.rs:159–372`.
-/

namespace SiliconDm.Client

open Server (Backend Mutation Rendered Refusal Moment Deployment Caller)

/-! ### Operations -/

def operation : Mutation → Operation
  | .createGroup .. => .createGroup
  | .updateGroup .. => .updateGroup
  | .inviteGroupMembers .. => .inviteGroupMembers
  | .removeGroupMembers .. => .removeGroupMembers
  | .addGroupOwners .. => .addGroupOwners
  | .removeGroupOwners .. => .removeGroupOwners
  | .acceptInvitation _ => .acceptInvitation
  | .declineInvitation .. => .declineInvitation
  | .leaveGroup _ => .leaveGroup
  | .allow .. => .allow
  | .disallow .. => .disallow
  | .createConversation .. => .createConversation
  | .sendMessage path .. => .sendMessage path.text
  | .editMessage path .. => .editMessage path.text
  | .deleteMessage path .. => .deleteMessage path.text
  | .receipt path .. => .receipt path.text
  | .putDraft path .. => .putDraft path.text
  | .deleteDraft path => .deleteDraft path.text
  | .createBundle path .. => .createBundle path.text
  | .setPresence _ => .setPresence

theorem isMutation_operation (m : Mutation) : (operation m).isMutation = true := by
  cases m <;> rfl

theorem operation_ne_setPresence {m : Mutation} (h : m.repeatable = true) :
    operation m ≠ .setPresence := by
  cases m with
  | setPresence => cases h
  | _ => simp [operation]

/-! ### Calls -/

/-- What becomes of a call: it does not reach the service, its answer does not come back, or
it is answered. -/
inductive Fate where
  | unreached (why : String)
  | unanswered (why : String)
  | answered
  deriving DecidableEq, Repr

/-- A call, a while after the one before, with the ids that the service would draw for it. -/
structure Call where
  delay : Nat
  conversationId : Nat
  messageId : Nat
  bundleId : Nat
  fate : Fate
  deriving DecidableEq, Repr

def Call.moment (c : Call) (clock : Nat) : Moment where
  now := clock + c.delay
  conversationId := c.conversationId
  messageId := c.messageId
  bundleId := c.bundleId

/-- The result of `execute_with_device`. -/
inductive Outcome where
  | ok (value : String)
  | transport (why : String)
  | api (refusal : Refusal)
  deriving DecidableEq, Repr

/-- `client_error`, `retryable` and `unauthorized`. -/
def Outcome.ending : Outcome → Ending
  | .ok value => .answered value
  | .transport why => .refused
    { unauthorized := false
      retryable := true
      detail :=
        { code := "transport_error"
          message := "The DM service could not be reached: " ++ why
          reason := none
          hint := none } }
  | .api refusal => .refused
    { unauthorized := refusal.status = 401
      retryable := refusal.status = 408 || refusal.status = 429 ||
        (500 ≤ refusal.status && refusal.status ≤ 599)
      detail := { code := refusal.code, message := refusal.message, reason := none, hint := none } }

/-- The outbox of the relay, the service, and the clock of the service. -/
structure Exchange where
  rows : List Row
  backend : Backend
  clock : Nat

/-- Two calls and when the relay writes down what came of them. -/
structure Attempt where
  writtenAt : Nat
  first : Call
  second : Call
  deriving DecidableEq, Repr

/-- Whose request this is, and how its answer is rendered. -/
structure Sender where
  deployment : Deployment
  caller : Caller
  mutation : Mutation
  render : Rendered → String

namespace Sender

variable (s : Sender)

def call (c : Call) (x : Exchange) : Outcome × Exchange :=
  let run := Backend.execute s.deployment (c.moment x.clock) s.caller s.mutation x.backend
  let later := { x with clock := x.clock + c.delay }
  match c.fate with
  | .unreached why => (.transport why, later)
  | .unanswered why => (.transport why, { later with backend := run.2 })
  | .answered =>
    (match run.1 with
      | .ok answer => .ok (s.render answer)
      | .error refusal => .api refusal,
    { later with backend := run.2 })

/-- The calls of `execute_request`. `daemon.rs:973–984`. -/
def calls (a : Attempt) (x : Exchange) : Outcome × Exchange :=
  match s.call a.first x with
  | (.transport _, x') => s.call a.second x'
  | other => other

/-- An attempt, if the request is pending and due. `daemon.rs:782–880,985–1009`. -/
def attempt (id : Nat) (x : Exchange) (a : Attempt) : Exchange :=
  match loadRequest x.rows id a.writtenAt with
  | none => x
  | some request =>
    let (outcome, x') := s.calls a x
    { x' with rows := settle request a.writtenAt x'.rows outcome.ending }

def attempts (id : Nat) (x : Exchange) (as : List Attempt) : Exchange :=
  as.foldl (s.attempt id) x

end Sender

def Attempt.reaching (a : Attempt) : Call :=
  match a.first.fate with
  | .unreached _ => { a.second with delay := a.first.delay + a.second.delay }
  | _ => a.first

def Attempt.isAnswered (a : Attempt) : Bool :=
  a.first.fate = .answered || a.second.fate = .answered

def Completed (id : Nat) (rows : List Row) : Prop :=
  ∃ r ∈ rows, r.requestId = id ∧ r.state = .completed ∧ r.result.isSome = true ∧ r.error = none

/-! ### The service -/

variable {s : Sender} {x y : Exchange} {b₁ : Backend}

/-- The service has executed the request and is as that left it. -/
structure Done (s : Sender) (b₁ : Backend) (x : Exchange) : Prop where
  executed : ∃ e b a, e.now ≤ x.clock ∧
    Backend.execute s.deployment e s.caller s.mutation b = (.ok a, b₁)
  unchanged : x.backend = b₁

section

variable (hr : s.mutation.repeatable = true)
include hr

theorem Done.call (h : Done s b₁ x) (c : Call) : Done s b₁ (s.call c x).2 ∧
    (c.fate = .answered → ∃ v, (s.call c x).1 = .ok v) ∧
    (c.fate ≠ .answered → ∃ why, (s.call c x).1 = .transport why) := by
  obtain ⟨⟨e, b, a, hnow, hexec⟩, rfl⟩ := h
  have hrep := Backend.execute_again (c.moment x.clock) hr
    (hnow.trans (Nat.le_add_right x.clock c.delay)) hexec
  have hdone : Done s x.backend { x with clock := x.clock + c.delay } :=
    ⟨⟨e, b, a, Nat.le_add_right_of_le hnow, hexec⟩, rfl⟩
  unfold Sender.call
  cases c.fate with
  | unreached why => exact ⟨hdone, by simp, fun _ => ⟨why, rfl⟩⟩
  | unanswered why =>
    rw [hrep]
    exact ⟨hdone, by simp, fun _ => ⟨why, rfl⟩⟩
  | answered =>
    rw [hrep]
    exact ⟨hdone, fun _ => ⟨s.render a, rfl⟩, fun hne => absurd rfl hne⟩

theorem Done.calls (h : Done s b₁ x) (a : Attempt) : Done s b₁ (s.calls a x).2 ∧
    (a.isAnswered = true → ∃ v, (s.calls a x).1 = .ok v) ∧
    (a.isAnswered = false → ∃ why, (s.calls a x).1 = .transport why) := by
  obtain ⟨hdone, hok, htrans⟩ := h.call hr a.first
  unfold Sender.calls
  by_cases hfst : a.first.fate = .answered
  · obtain ⟨v, hv⟩ := hok hfst
    have hcall : s.call a.first x = (.ok v, (s.call a.first x).2) := Prod.ext hv rfl
    rw [hcall]
    exact ⟨hdone, fun _ => ⟨v, rfl⟩, by simp [Attempt.isAnswered, hfst]⟩
  · obtain ⟨why, hwhy⟩ := htrans hfst
    have hcall : s.call a.first x = (.transport why, (s.call a.first x).2) := Prod.ext hwhy rfl
    rw [hcall]
    have hanswered : a.isAnswered = decide (a.second.fate = .answered) := by
      simp [Attempt.isAnswered, hfst]
    rw [hanswered]
    simpa using hdone.call hr a.second

end

theorem rows_call (s : Sender) (c : Call) (x : Exchange) : (s.call c x).2.rows = x.rows := by
  unfold Sender.call
  cases c.fate <;> rfl

theorem rows_calls (s : Sender) (a : Attempt) (x : Exchange) : (s.calls a x).2.rows = x.rows := by
  unfold Sender.calls
  split
  next why x' h =>
    have := rows_call s a.first x
    rw [h] at this
    rw [rows_call]
    exact this
  next => exact rows_call s a.first x

/-! ### The row of the request -/

variable {rows : List Row} {id : Nat} {request : RelayRequest}

def Waiting (id : Nat) (request : RelayRequest) (rows : List Row) : Prop :=
  ∃ r ∈ rows, r.requestId = id ∧ r.state = .pending ∧ r.request.request = request

theorem waiting_of_loadRequest {now : Nat} (h : loadRequest rows id now = some request) :
    Waiting id request rows :=
  loadRequest_eq_some h

theorem Waiting.requestId (h : Waiting id request rows) (hkd : WellKeyed rows) :
    request.requestId = id := by
  obtain ⟨r, hr, hid, -, rfl⟩ := h
  exact (hkd.decoded r hr).trans hid

theorem Waiting.unique (h : Waiting id request rows) (hkd : WellKeyed rows)
    {request' : RelayRequest} (h' : Waiting id request' rows) : request' = request := by
  obtain ⟨r, hr, hid, -, rfl⟩ := h
  obtain ⟨r', hr', hid', -, rfl⟩ := h'
  rw [hkd.unique hr hr' (hid.trans hid'.symm)]

theorem Completed.not_waiting (h : Completed id rows) (hkd : WellKeyed rows) :
    ¬ Waiting id request rows := by
  rintro ⟨r', hr', hid', hpend, -⟩
  obtain ⟨r, hr, hid, hstate, -⟩ := h
  rw [hkd.unique hr' hr (hid'.trans hid.symm), hstate] at hpend
  cases hpend

/-- A request that waits is due after its backoff. -/
theorem Waiting.loadRequest (h : Waiting id request rows) (hkd : WellKeyed rows) :
    ∃ t, ∀ now, t ≤ now → loadRequest rows id now = some request := by
  obtain ⟨r, hr, hid, hpend, hrqst⟩ := h
  refine ⟨r.nextAttempt, fun now hnow => ?_⟩
  have hfnd : (Client.loadRequest rows id now).isSome = true := by
    simp only [Client.loadRequest, Option.isSome_map, List.find?_isSome, Bool.and_eq_true,
      decide_eq_true_eq]
    exact ⟨r, hr, ⟨hid, hpend⟩, hnow⟩
  obtain ⟨request', hload⟩ := Option.isSome_iff_exists.mp hfnd
  rw [hload, Waiting.unique ⟨r, hr, hid, hpend, hrqst⟩ hkd (waiting_of_loadRequest hload)]

/-- A value completes the request. -/
theorem Waiting.answered (h : Waiting id request rows) (hkd : WellKeyed rows) (now : Nat)
    (v : String) : Completed id (settle request now rows (Outcome.ok v).ending) := by
  have hid := h.requestId hkd
  obtain ⟨r, hr, hrid, -, -⟩ := h
  refine ⟨_, List.mem_map_of_mem hr, ?_⟩
  rw [if_pos (hrid.trans hid.symm)]
  exact ⟨hrid, rfl, rfl, rfl⟩

/-- A failure in transit leaves a change that is not transient waiting. -/
theorem Waiting.lost (h : Waiting id request rows) (hkd : WellKeyed rows) (now : Nat)
    (why : String) (hmutation : request.request.isMutation = true)
    (htrn : request.request ≠ .setPresence) :
    Waiting id request (settle request now rows (Outcome.transport why).ending) := by
  have hid := h.requestId hkd
  obtain ⟨r, hr, hrid, hpend, hrqst⟩ := h
  have hretry : settle request now rows (Outcome.transport why).ending =
      retry request.requestId
        { code := "transport_error"
          message := "The DM service could not be reached: " ++ why
          reason := none
          hint := none } now rows := by
    simp [settle, Outcome.ending, transientRequest, htrn, hmutation]
  rw [hretry]
  refine ⟨_, List.mem_map_of_mem hr, ?_⟩
  rw [if_pos (hrid.trans hid.symm)]
  exact ⟨hrid, hpend, hrqst⟩

theorem wellKeyed_settle (hkd : WellKeyed rows) (request : RelayRequest) (now : Nat)
    (e : Ending) : WellKeyed (settle request now rows e) :=
  (rewrites_settle request now rows e).wellKeyed hkd

/-! ### Attempts -/

/-- After the service executed the request: what it stored stays, and the request waits or is
completed. -/
structure Safe (s : Sender) (id : Nat) (request : RelayRequest) (b₁ : Backend) (x : Exchange) :
    Prop where
  done : Done s b₁ x
  keyed : WellKeyed x.rows
  settled : Completed id x.rows ∨ Waiting id request x.rows

theorem Sender.attempt_eq {a : Attempt} (h : loadRequest x.rows id a.writtenAt = some request) :
    s.attempt id x a = { (s.calls a x).2 with
      rows := settle request a.writtenAt x.rows (s.calls a x).1.ending } := by
  unfold Sender.attempt
  rw [h]
  dsimp only
  rw [rows_calls]

section

variable (hr : s.mutation.repeatable = true) (hop : request.request = operation s.mutation)
include hr hop

/-- The end of an attempt whose calls left the service done. -/
theorem Safe.of_outcome {outcome : Outcome} {x' : Exchange} (hdone : Done s b₁ x')
    (hkd : WellKeyed rows) (hwait : Waiting id request rows) {answered : Bool} (now : Nat)
    (hok : answered = true → ∃ v, outcome = .ok v)
    (htrans : answered = false → ∃ why, outcome = .transport why) :
    Safe s id request b₁ { x' with rows := settle request now rows outcome.ending } ∧
      (answered = true → Completed id (settle request now rows outcome.ending)) := by
  have hcomp : answered = true → Completed id (settle request now rows outcome.ending) := by
    intro ha
    obtain ⟨v, rfl⟩ := hok ha
    exact hwait.answered hkd now v
  refine ⟨⟨⟨hdone.executed, hdone.unchanged⟩, wellKeyed_settle hkd .., ?_⟩, hcomp⟩
  cases answered with
  | true => exact .inl (hcomp rfl)
  | false =>
    obtain ⟨why, rfl⟩ := htrans rfl
    refine .inr (hwait.lost hkd now why ?_ ?_)
    · rw [hop]
      exact isMutation_operation _
    · rw [hop]
      exact operation_ne_setPresence hr

theorem Safe.attempt (h : Safe s id request b₁ x) (a : Attempt) :
    Safe s id request b₁ (s.attempt id x a) := by
  cases hload : loadRequest x.rows id a.writtenAt with
  | none =>
    have : s.attempt id x a = x := by
      unfold Sender.attempt
      rw [hload]
    rw [this]
    exact h
  | some request' =>
    have hwait' := waiting_of_loadRequest hload
    have hwait := h.settled.resolve_left fun hc => hc.not_waiting h.keyed hwait'
    obtain rfl := hwait.unique h.keyed hwait'
    obtain ⟨hdone, hok, htrans⟩ := h.done.calls hr a
    rw [Sender.attempt_eq hload]
    exact (Safe.of_outcome hr hop hdone h.keyed hwait a.writtenAt hok htrans).1

/-- From then on every attempt is safe. -/
theorem Safe.attempts (h : Safe s id request b₁ x) (as : List Attempt) :
    Safe s id request b₁ (s.attempts id x as) := by
  induction as generalizing x with
  | nil => exact h
  | cons a as ih => exact ih (h.attempt hr hop a)

/-- A waiting request is completed by the next due attempt that is answered. -/
theorem Safe.completes (h : Safe s id request b₁ x) :
    Completed id x.rows ∨ ∃ t, ∀ a : Attempt, t ≤ a.writtenAt → a.isAnswered = true →
      Completed id (s.attempt id x a).rows := by
  refine h.settled.imp_right fun hwait => ?_
  obtain ⟨t, hdue⟩ := hwait.loadRequest h.keyed
  refine ⟨t, fun a ht ha => ?_⟩
  obtain ⟨hdone, hok, htrans⟩ := h.done.calls hr a
  rw [Sender.attempt_eq (hdue _ ht)]
  exact (Safe.of_outcome hr hop hdone h.keyed hwait a.writtenAt hok htrans).2 ha

end

theorem Safe.not_failed (h : Safe s id request b₁ x) :
    ∀ r ∈ x.rows, r.requestId = id → r.state ≠ .failed := by
  intro r hr hid hfailed
  rcases h.settled with ⟨r', hr', hid', hstate, -⟩ | ⟨r', hr', hid', hstate, -⟩
  all_goals
    rw [h.keyed.unique hr hr' (hid.trans hid'.symm), hstate] at hfailed
    cases hfailed

/-- The attempt by which the service executes the request, without an answer to that call. -/
theorem Done.first {a : Attempt} {why : String} {answer : Rendered}
    (hr : s.mutation.repeatable = true) (hlost : a.reaching.fate = .unanswered why)
    (hexec : Backend.execute s.deployment (a.reaching.moment x.clock) s.caller s.mutation
      x.backend = (.ok answer, b₁)) :
    Done s b₁ (s.calls a x).2 ∧ (a.isAnswered = true → ∃ v, (s.calls a x).1 = .ok v) ∧
      (a.isAnswered = false → ∃ why, (s.calls a x).1 = .transport why) := by
  unfold Attempt.reaching at hlost hexec
  cases hfst : a.first.fate with
  | unreached why' =>
    -- the second call is the one that reaches the service
    simp only [hfst] at hlost hexec
    have hmoment : a.second.moment (x.clock + a.first.delay) =
        Call.moment { a.second with delay := a.first.delay + a.second.delay } x.clock := by
      simp [Call.moment, Nat.add_assoc]
    rw [← hmoment] at hexec
    have hcalls : s.calls a x = (.transport why,
        { x with backend := b₁, clock := x.clock + a.first.delay + a.second.delay }) := by
      simp [Sender.calls, Sender.call, hfst, hlost, hexec]
    rw [hcalls]
    refine ⟨⟨⟨_, _, answer, Nat.le_refl _, hexec⟩, rfl⟩, ?_, ?_⟩
    · simp [Attempt.isAnswered, hfst, hlost]
    · exact fun _ => ⟨why, rfl⟩
  | unanswered why' =>
    simp only [hfst] at hexec
    have hcall : s.call a.first x =
        (.transport why', { x with backend := b₁, clock := x.clock + a.first.delay }) := by
      simp [Sender.call, hfst, hexec]
    have hdone : Done s b₁ { x with backend := b₁, clock := x.clock + a.first.delay } :=
      ⟨⟨_, _, answer, Nat.le_refl _, hexec⟩, rfl⟩
    have hanswered : a.isAnswered = decide (a.second.fate = .answered) := by
      simp [Attempt.isAnswered, hfst]
    unfold Sender.calls
    rw [hcall, hanswered]
    simpa using hdone.call hr a.second
  | answered => simp [hfst] at hlost

/-! ### Exactly the requests that leave no trace -/

/-- Whatever becomes of the other calls, from an attempt on whose first call to reach the service
is `c`: the service stays as `b₁`, the request never fails, and it is completed or will be by the
next due attempt that is answered. -/
def RepeatedSafely (s : Sender) (id : Nat) (x : Exchange) (c : Call) (b₁ : Backend) : Prop :=
  ∀ (a : Attempt) (later : List Attempt), a.reaching = c →
    (loadRequest x.rows id a.writtenAt).isSome = true →
    let y := s.attempts id x (a :: later)
    y.backend = b₁ ∧ (∀ r ∈ y.rows, r.requestId = id → r.state ≠ .failed) ∧
      (Completed id y.rows ∨ ∃ t, ∀ next : Attempt, t ≤ next.writtenAt →
        next.isAnswered = true → Completed id (s.attempt id y next).rows)

/-- Only an answer completes a request. -/
theorem Completed.of_settle {now : Nat} {o : Outcome}
    (h : Completed id (settle request now rows o.ending)) :
    Completed id rows ∨ ∃ v, o = .ok v := by
  have hrefused : ∀ error, Completed id (settle request now rows (.refused error)) →
      Completed id rows := by
    rintro error ⟨r', hr', hid, hstate, hresult, herror⟩
    simp only [settle] at hr'
    split at hr' <;> obtain ⟨r, hr, rfl⟩ := List.mem_map.mp hr' <;> split at herror
    · cases herror
    · rw [if_neg ‹_›] at hid hstate hresult
      exact ⟨r, hr, hid, hstate, hresult, herror⟩
    · cases herror
    · rw [if_neg ‹_›] at hid hstate hresult
      exact ⟨r, hr, hid, hstate, hresult, herror⟩
  cases o with
  | ok v => exact .inr ⟨v, rfl⟩
  | transport why => exact .inl (hrefused _ h)
  | api refusal => exact .inl (hrefused _ h)

/-- An attempt that completes a request was answered by the service. -/
theorem Completed.of_attempt {a : Attempt} (ha : a.first.fate = .answered)
    (h : Completed id (s.attempt id x a).rows) : Completed id x.rows ∨ ∃ answer,
      Backend.execute s.deployment (a.first.moment x.clock) s.caller s.mutation x.backend =
        (.ok answer, (s.attempt id x a).backend) := by
  cases hload : loadRequest x.rows id a.writtenAt with
  | none =>
    unfold Sender.attempt at h
    rw [hload] at h
    exact .inl h
  | some request =>
    rw [Sender.attempt_eq hload] at h ⊢
    refine (Completed.of_settle h).imp_right fun ⟨v, hv⟩ => ?_
    cases hrun : (Backend.execute s.deployment (a.first.moment x.clock) s.caller s.mutation
      x.backend).1 with
    | error refusal => simp [Sender.calls, Sender.call, ha, hrun] at hv
    | ok answer =>
      refine ⟨answer, Prod.ext hrun ?_⟩
      simp [Sender.calls, Sender.call, ha, hrun]

/-- A change that leaves a trace is not repeated safely: at some time its repetition fails or
changes the service. -/
theorem RepeatedSafely.repeatable {c : Call} {why : String} {answer : Rendered}
    (hkeyed : WellKeyed x.rows) (hwait : Waiting id request x.rows)
    (hlost : c.fate = .unanswered why)
    (hexec : Backend.execute s.deployment (c.moment x.clock) s.caller s.mutation x.backend =
      (.ok answer, b₁)) (h : RepeatedSafely s id x c b₁) : s.mutation.repeatable = true := by
  by_contra hr
  obtain ⟨t, htrace⟩ : ∃ t, ∀ e : Moment, t ≤ e.now → ∀ a,
      Backend.execute s.deployment e s.caller s.mutation b₁ ≠ (.ok a, b₁) :=
    Backend.execute_leaves_trace b₁ (Bool.not_eq_true _ ▸ hr)
  obtain ⟨due, hdue⟩ := hwait.loadRequest hkeyed
  -- the call at `c`, then an answered call when the trace shows
  let a : Attempt := ⟨due, c, ⟨0, 0, 0, 0, .unreached ""⟩⟩
  have hreach : a.reaching = c := by simp [a, Attempt.reaching, hlost]
  have hcalls : s.calls a x =
      (.transport "", { x with backend := b₁, clock := x.clock + c.delay }) := by
    simp [a, Sender.calls, Sender.call, hlost, hexec]
  have hy : s.attempts id x [a] = { x with
      rows := settle request due x.rows (Outcome.transport "").ending
      backend := b₁
      clock := x.clock + c.delay } := by
    show s.attempt id x a = _
    rw [Sender.attempt_eq (hdue _ (Nat.le_refl due)), hcalls]
  have hload : (loadRequest x.rows id a.writtenAt).isSome = true := by
    rw [hdue _ (Nat.le_refl due)]
    rfl
  have hpending : ¬ Completed id (s.attempts id x [a]).rows := by
    rw [hy]
    intro hc
    rcases Completed.of_settle (o := .transport "") hc with hc | ⟨v, hv⟩
    · exact hc.not_waiting hkeyed hwait
    · cases hv
  obtain ⟨t', hnext⟩ := (h a [] hreach hload).2.2.resolve_left hpending
  let next : Attempt := ⟨t', ⟨t, 0, 0, 0, .answered⟩, ⟨0, 0, 0, 0, .answered⟩⟩
  obtain ⟨answer', hrun⟩ := (Completed.of_attempt rfl
    (hnext next (Nat.le_refl t') rfl)).resolve_left hpending
  have hsame : (s.attempt id (s.attempts id x [a]) next).backend = b₁ :=
    (h a [next] hreach hload).1
  rw [hsame, hy] at hrun
  exact htrace _ (Nat.le_add_left t _) _ hrun

/-- A change that the service executed and whose answer was lost: the relay's repetitions leave
the service as it is and the request ends completed exactly for the requests that leave no
trace. -/
theorem lost_answer_is_repeated {c : Call} {why : String} {answer : Rendered}
    (hkeyed : WellKeyed x.rows) (hwait : Waiting id request x.rows)
    (hop : request.request = operation s.mutation) (hlost : c.fate = .unanswered why)
    (hexec : Backend.execute s.deployment (c.moment x.clock) s.caller s.mutation x.backend =
      (.ok answer, b₁)) :
    RepeatedSafely s id x c b₁ ↔ s.mutation.repeatable = true := by
  refine ⟨fun h => h.repeatable hkeyed hwait hlost hexec, fun hr => ?_⟩
  rintro a later rfl hload
  obtain ⟨request', hload⟩ := Option.isSome_iff_exists.mp hload
  obtain rfl := hwait.unique hkeyed (waiting_of_loadRequest hload)
  obtain ⟨hdone, hok, htransport⟩ := Done.first hr hlost hexec
  have hfirst : Safe s id request' b₁ (s.attempt id x a) := by
    rw [Sender.attempt_eq hload]
    exact (Safe.of_outcome hr hop hdone hkeyed hwait a.writtenAt hok htransport).1
  have hsafe : Safe s id request' b₁ (s.attempts id x (a :: later)) :=
    hfirst.attempts hr hop later
  exact ⟨hsafe.done.unchanged, hsafe.not_failed, hsafe.completes hr hop⟩

/-! ### One group -/

open Server (ActorRef Database)

/-- A service with one group: Ada owns it, Cal is a member and Bea is invited. -/
def oneGroup : Backend where
  db :=
    { Database.empty with
      conversations := [⟨1, true, 1⟩]
      participants := [⟨1, ⟨.carbon, "ada"⟩, 0⟩, ⟨1, ⟨.carbon, "cal"⟩, 0⟩]
      owners := [⟨1, ⟨.carbon, "ada"⟩⟩]
      invitations :=
        [⟨1, ⟨.carbon, "ada"⟩, .accepted, some 0, some 0⟩,
          ⟨1, ⟨.carbon, "cal"⟩, .accepted, some 0, some 0⟩,
          ⟨1, ⟨.carbon, "bea"⟩, .pending, some 0, none⟩] }
  groups := [⟨1, ⟨"group", ""⟩, 1⟩]
  directs := []
  supersededBy := []
  records := []
  allowances := []
  drafts := []
  receipts := []
  aggregates _ := ⟨.sent, none, none⟩
  bundles := []
  updatedAt _ := 0
  presence := ⟨[], [], []⟩

def ownRequest (uuid : String) (mutation : Mutation) : Sender where
  deployment := { requestHash := fun _ => 0, heartbeatTimeout := 1, activityTtl := 1 }
  caller := ⟨⟨.carbon, uuid⟩, none, "device"⟩
  mutation
  render _ := "answer"

def submitted (s : Sender) : Exchange where
  rows := [newRow [] ⟨⟨1, "default", none, operation s.mutation⟩, "", 0⟩ 0]
  backend := oneGroup
  clock := 0

/-- The answer to the first call is lost; the second call is answered. -/
def lostOnce : Attempt where
  writtenAt := 0
  first := ⟨1, 5, 6, 7, .unanswered "connection reset"⟩
  second := ⟨1, 8, 9, 10, .answered⟩

def firstRun (s : Sender) : Except Refusal Rendered × Backend :=
  Backend.execute s.deployment (lostOnce.first.moment 0) s.caller s.mutation oneGroup

theorem wellKeyed_submitted (s : Sender) : WellKeyed (submitted s).rows := by
  constructor
  · simp [submitted]
  · simp [submitted, newRow]

def groupPath : Server.ConversationPath :=
  ⟨"1", .conversation 1⟩

def hello : Sender :=
  ownRequest "cal" (.sendMessage groupPath "hello" "key")

def acceptance : Sender :=
  ownRequest "bea" (.acceptInvitation 1)

theorem waiting_submitted (s : Sender) :
    Waiting 1 ⟨1, "default", none, operation s.mutation⟩ (submitted s).rows :=
  ⟨_, List.mem_cons_self, rfl, rfl, rfl⟩

/-- A message is sent once, whatever happens; an invitation is not accepted so. -/
theorem lost_answer_is_repeated_hello :
    (∃ b₁, firstRun hello = (.ok (.message 6), b₁) ∧
      RepeatedSafely hello 1 (submitted hello) lostOnce.first b₁) ∧
    ∃ b₁, firstRun acceptance = (.ok (.conversation 1), b₁) ∧
      ¬ RepeatedSafely acceptance 1 (submitted acceptance) lostOnce.first b₁ := by
  have hsent : firstRun hello = (.ok (.message 6), (firstRun hello).2) :=
    Prod.ext (by decide +kernel) rfl
  have hjoined : firstRun acceptance = (.ok (.conversation 1), (firstRun acceptance).2) :=
    Prod.ext (by decide +kernel) rfl
  refine ⟨⟨_, hsent, ?_⟩, _, hjoined, fun h => ?_⟩
  · exact (lost_answer_is_repeated (wellKeyed_submitted _) (waiting_submitted _) rfl rfl hsent).mpr
      rfl
  · have := (lost_answer_is_repeated (wellKeyed_submitted _) (waiting_submitted _) rfl rfl
      hjoined).mp h
    cases this

/-- Requests that cannot be repeated after they were executed. -/
def strandedRequests : List Sender :=
  [acceptance, ownRequest "bea" (.declineInvitation 1 none),
    ownRequest "cal" (.leaveGroup 1), ownRequest "cal" (.putDraft groupPath "draft" 0)]

/-- The service executed the request, and its row says that it failed. -/
def stranded (s : Sender) : Bool :=
  (firstRun s).1.toBool &&
    (s.attempts 1 (submitted s) [lostOnce]).rows.any fun r => r.requestId = 1 && r.state = .failed

/-- An executed change whose answer was lost ends failed. -/
theorem lost_answer_fails : strandedRequests.all stranded = true := by
  decide +kernel

end SiliconDm.Client
