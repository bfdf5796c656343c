import SiliconDm.Client.Order

/-!
# Terminal outbox states

`finish` and `retry` change their row whatever its state is; the bulk failures look at the
state. A terminal row therefore stays as it is in every run in which no bulk failure selects
a request whose task is still in flight, and not in every run. Source:
`crates/client/src/runtime/queue.rs:176–191,281–303`, `daemon.rs:911–1009`.
-/

namespace SiliconDm.Client

open List

namespace Home

/-- If the event fails rows in bulk, it selects no pending request that is in flight. -/
def sparesInFlight (s : Home) (e : Event) : Bool :=
  match s.bulkHit e with
  | none => true
  | some hit =>
    s.tasks.all fun t => s.rows.all fun r =>
      !(r.requestId = t.request.requestId && r.state = .pending && hit r)

def Awaited (s : Home) : Prop :=
  ∀ t ∈ s.tasks, ∀ r ∈ s.rows, r.requestId = t.request.requestId → r.state = .pending

variable {s s' : Home} {e : Event} {hit : Row → Bool}

theorem awaited_of_initial (h : Initial s) : Awaited s := by
  simp [Awaited, h.noTasks]

private theorem hit_eq_false (hc : s.sparesInFlight e = true) (hb : s.bulkHit e = some hit)
    {t : Task} {r : Row} (ht : t ∈ s.tasks) (hr : r ∈ s.rows)
    (hid : r.requestId = t.request.requestId) (hp : r.state = .pending) : hit r = false := by
  simp only [sparesInFlight, hb, List.all_eq_true] at hc
  simpa [hid, hp] using hc t ht r hr

section

variable (h : Awaited s)
include h

private theorem Awaited.of_tasks {tasks : List Task}
    (hsub : ∀ t ∈ tasks, ∃ t₀ ∈ s.tasks, t₀.request = t.request) :
    Awaited { s with tasks := tasks } := by
  intro t ht r hr hid
  obtain ⟨t₀, ht₀, hreq⟩ := hsub t ht
  exact h t₀ ht₀ r hr (by rw [hreq]; exact hid)

private theorem Awaited.of_enqueue {original : Envelope} {rows : List Row}
    (hok : Client.enqueue s.rows original s.now = .ok rows) :
    ∀ t ∈ s.tasks, ∀ r ∈ rows, r.requestId = t.request.requestId → r.state = .pending := by
  intro t ht r hr hid
  rcases enqueue_eq_ok hok with ⟨rfl, -⟩ | ⟨rfl, -⟩
  · exact h t ht r hr hid
  · rcases mem_append.mp hr with hr | hr
    · exact h t ht r hr hid
    · obtain rfl := mem_singleton.mp hr
      rfl

private theorem Awaited.of_bulk (error : Detail) (hc : s.sparesInFlight e = true)
    (hb : s.bulkHit e = some hit) :
    ∀ t ∈ s.tasks, ∀ r ∈ failWhere hit error s.rows,
      r.requestId = t.request.requestId → r.state = .pending := by
  intro t ht r' hr' hid
  obtain ⟨r, hr, rfl⟩ := List.mem_map.mp hr'
  have hid₀ : r.requestId = t.request.requestId := by
    split at hid <;> exact hid
  have hp := h t ht r hr hid₀
  have hmiss := hit_eq_false hc hb ht hr hid₀ hp
  simpa [hmiss] using hp

/-- A task's answer leaves the other requests in flight pending: no two tasks share one. -/
private theorem Awaited.of_settle (ho : Ordered s) {task : Nat} {t : Task}
    (ht : s.tasks.find? (·.id = task) = some t) (ending : Ending) :
    Awaited { s with
      rows := Client.settle t.request s.now s.rows ending
      tasks := s.tasks.filter (·.id ≠ task) } := by
  have htask : t.id = task := by simpa using find?_some ht
  intro u hu r' hr' hid
  obtain ⟨hu, hne⟩ := mem_filter.mp hu
  have hrw := rewrites_settle t.request s.now s.rows ending
  obtain ⟨r, hr, hcont⟩ := hrw.origin r' hr'
  have hoth : r.requestId ≠ t.request.requestId := by
    intro hsame
    obtain ⟨q, hq, hqid, hrun⟩ := ho.inLane u hu
    obtain ⟨q', hq', hqid', hrun'⟩ := ho.inLane t (mem_of_find?_eq_some ht)
    have hqq : q = q' := ho.keyed.unique hq hq' (by
      rw [hqid, hqid', ← hsame, ← hcont.requestId, hid])
    rw [hqq] at hrun
    have hsameId : u.id = t.id :=
      congrArg Prod.fst (inj_on_of_nodup_map ho.exclusive hrun hrun' rfl)
    exact of_decide_eq_true hne (hsameId.trans htask)
  have hr'' : r ∈ Client.settle t.request s.now s.rows ending :=
    mem_settle_of_ne t.request s.now ending hr hoth
  have hrr : r = r' :=
    (hrw.wellKeyed ho.keyed).unique hr'' hr' hcont.requestId.symm
  rw [← hrr]
  exact h u hu r hr (by rw [← hcont.requestId, hid])

/-- One step that spares the requests in flight keeps them pending. -/
theorem Awaited.step (ho : Ordered s) (hc : s.sparesInFlight e = true) (hs : s.step e = some s') :
    Awaited s' := by
  cases effect_of_step hs with
  | clock _ | config _ _ | locks _ | install _ _ | send _ _ _ | scan _ | skip _ _ | join _ =>
    exact h
  | stop => simp [Awaited]
  | enqueue hok => exact h.of_enqueue hok
  | bulk error _ hb => exact h.of_bulk error hc hb
  | authenticate _ _ _ =>
    refine h.of_tasks fun t ht => ?_
    obtain ⟨t₀, ht₀, rfl⟩ := List.mem_map.mp ht
    refine ⟨t₀, ht₀, ?_⟩
    split <;> rfl
  | lose _ => exact h.of_tasks fun t ht => ⟨t, mem_of_mem_filter ht, rfl⟩
  | settle ht => exact h.of_settle ho ht _
  | @start _ c rest request _ _ hl =>
    intro t ht r hr hid
    rcases mem_cons.mp ht with rfl | ht
    · obtain ⟨r₁, hr₁, -, hp, hdec⟩ := loadRequest_eq_some hl
      have hrr : r = r₁ := ho.keyed.unique hr hr₁ (by
        rw [hid, ← ho.keyed.decoded r₁ hr₁, hdec])
      rw [hrr]
      exact hp
    · exact h t ht r hr hid

/-- A row that is no longer pending is not touched while requests in flight are pending. -/
theorem mem_rows_of_terminal (hs : s.step e = some s') {r : Row} (hr : r ∈ s.rows)
    (ht : r.state ≠ .pending) : r ∈ s'.rows := by
  cases effect_of_step hs with
  | clock _ | config _ _ | locks _ | install _ _ | send _ _ _ | scan _ | skip _ _ | join _ | stop
  | authenticate _ _ _ | lose _ | start _ _ _ => exact hr
  | enqueue hok =>
    rcases enqueue_eq_ok hok with ⟨rfl, -⟩ | ⟨rfl, -⟩
    · exact hr
    · exact mem_append_left _ hr
  | bulk error _ _ => exact mem_failWhere_of_terminal _ error hr ht
  | settle hf =>
    refine mem_settle_of_ne _ _ _ hr fun hid => ?_
    exact ht (h _ (mem_of_find?_eq_some hf) r hr hid)

end

end Home

private theorem ordered_awaited {s : Home}
    (h : relay.ReachableWhile (fun s e => s.sparesInFlight e = true) s) :
    s.Ordered ∧ s.Awaited :=
  h.invariant (I := fun u => u.Ordered ∧ u.Awaited)
    (fun _ hi => ⟨Home.ordered_of_initial hi, Home.awaited_of_initial hi⟩)
    fun _ _ _ ho hc hs => ⟨ho.1.step hs, ho.2.step ho.1 hc hs⟩

/-- In every run in which no bulk failure selects a request in flight, a completed or failed
request keeps its whole row, and no other row ever answers for its id. -/
theorem terminal_final {s s' : Home}
    (h : relay.ReachableWhile (fun s e => s.sparesInFlight e = true) s)
    (hs : relay.Steps (fun s e => s.sparesInFlight e = true) s s') {r : Row} (hr : r ∈ s.rows)
    (ht : r.state ≠ .pending) :
    r ∈ s'.rows ∧ ∀ r' ∈ s'.rows, r'.requestId = r.requestId → r' = r := by
  have hmem : r ∈ s'.rows := by
    have keep := hs.preserves (I := fun u => (u.Ordered ∧ u.Awaited) ∧ r ∈ u.rows)
      (fun _ _ _ hi hc hstep => ⟨⟨hi.1.1.step hstep, hi.1.2.step hi.1.1 hc hstep⟩,
        Home.mem_rows_of_terminal hi.1.2 hstep hi.2 ht⟩) ⟨ordered_awaited h, hr⟩
    exact keep.2
  refine ⟨hmem, fun r' hr' hid => ?_⟩
  exact (ordered_awaited (h.steps hs)).1.keyed.unique hr' hmem hid

/-- An unauthenticated read is answered, and later submissions leave the answer alone. -/
theorem terminal_final_read : ∃ s s' : Home, ∃ r ∈ s.rows, r.state = .failed ∧
    s'.rows.length = 2 ∧ r ∈ s'.rows ∧ ∀ r' ∈ s'.rows, r'.requestId = r.requestId → r' = r := by
  obtain ⟨s, s', hs, hss, r, hr, hf, hlen⟩ : ∃ s s',
      relay.ReachableWhile (fun s e => s.sparesInFlight e = true) s ∧
      relay.Steps (fun s e => s.sparesInFlight e = true) s s' ∧
      ∃ r ∈ s.rows, r.state = .failed ∧ s'.rows.length = 2 :=
    ⟨_, _, Base.System.reachableWhile_get
      [.enqueue ⟨⟨1, "default", none, .getPresence⟩, "", 10⟩, .scan, .consider true 8,
        .settle 0 (.unauthenticated ⟨none, "not signed in", none⟩)]
      (Home.initial_idle .missing) (by decide),
      Base.System.steps_get [.enqueue (sampleSend 2 "a")] (by decide), by decide⟩
  exact ⟨s, s', r, hr, hf, hlen, terminal_final hs hss hr (by simp [hf])⟩

/-- A profile from before Silicon Accounts whose old id was `c:old`. -/
def legacyConfig : Config where
  profiles := fun key =>
    if key = "default:production" then
      some { Profile.new "default" "https://dm" "https://accounts" "dm" "device" with
        legacy := some ⟨some "c:old", none, 0⟩ }
    else none
  relayPort := 19780

/-- A sign-in of the account `uuid` with public id `id` to the profile `default`. -/
def sampleSignIn (uuid id : String) : SignIn where
  target := ⟨"default", "https://dm", "https://accounts", "dm"⟩
  session := ⟨"access-" ++ uuid, "refresh-" ++ uuid, 1800, 1800, none, none,
    some ⟨uuid, .carbon, id, none, none⟩⟩
  account := ⟨uuid, .carbon, id, none, none⟩
  method := "device"
  device := "device"
  named := rfl

/-- Another id signs in to a legacy profile while its queued send is executed: the caller
first reads `failed` with `account_changed`, later `completed` with a result. -/
theorem terminal_not_final : ∃ s s' : Home, ∃ r ∈ s.rows, ∃ r' ∈ s'.rows,
    relay.Reachable s ∧ relay.Steps (fun _ _ => True) s s' ∧ r.state = .failed ∧
      r'.requestId = r.requestId ∧ r'.state = .completed ∧ r'.result ≠ r.result := by
  have hs := Base.System.reachable_get (M := relay)
    [.enqueue (sampleSend 1 "a"), .countPending (sampleSignIn "new" "c:new"),
      .install "default:production", .scan, .consider true 8, .authenticate 0, .send 0,
      .finishSignIn "default:production"] (Home.initial_idle (.readable legacyConfig)) (by decide)
  exact ⟨_, _, _, .head _, _, .head _, hs,
    Base.System.steps_get [.settle 0 (.answered "sent")] (by decide), by decide⟩

end SiliconDm.Client
