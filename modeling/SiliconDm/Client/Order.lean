import SiliconDm.Client.Relay

/-!
# Order of the outbox

What keeps requests of one lane apart: the lanes the relay counts as running are pairwise
distinct and cover every task in flight, and a candidate listed by a pass stays unblocked
until it is started, because rows never become pending again and new rows come later.
-/

namespace SiliconDm.Client

open List

namespace Home

structure Ordered (s : Home) : Prop where
  keyed : WellKeyed s.rows
  cleared : ∀ c ∈ s.candidates, Cleared s.rows c
  inLane : ∀ t ∈ s.tasks, ∃ r ∈ s.rows, r.requestId = t.request.requestId ∧
    (t.id, (r.session, r.lane)) ∈ s.running
  issued : ∀ entry ∈ s.running, entry.1 < s.nextTask
  exclusive : (s.running.map Prod.snd).Nodup
  distinct : (s.tasks.map Task.id).Nodup

/-- A task of the new state that the old state did not have. -/
def Starts (s s' : Home) (t : Task) : Prop :=
  t ∈ s'.tasks ∧ ∀ t₀ ∈ s.tasks, t₀.id ≠ t.id

variable {s s' : Home}

theorem ordered_of_initial (h : Initial s) : Ordered s where
  keyed := h.keyed
  cleared := by simp [h.noCandidates]
  inLane := by simp [h.noTasks]
  issued := by simp [h.noRunning]
  exclusive := by simp [h.noRunning]
  distinct := by simp [h.noTasks]

section

variable (h : Ordered s)
include h

/-- Changing the rows of the table keeps the invariant as long as the table only grows. -/
private theorem Ordered.of_grows {rows : List Row} (hg : Grows s.rows rows) (hk : WellKeyed rows) :
    Ordered { s with rows := rows } where
  keyed := hk
  cleared c hc := (h.cleared c hc).grows hg
  inLane t ht := by
    obtain ⟨r, hr, hid, hrun⟩ := h.inLane t ht
    obtain ⟨r', hr', hcont⟩ := hg.kept r hr
    refine ⟨r', hr', by rw [hcont.requestId, hid], ?_⟩
    rw [hcont.session, hcont.lane]
    exact hrun
  issued := h.issued
  exclusive := h.exclusive
  distinct := h.distinct

/-- Forgetting tasks keeps the invariant: their lanes stay counted until they are joined. -/
private theorem Ordered.of_tasks {tasks : List Task}
    (hsub : ∀ t ∈ tasks, ∃ t₀ ∈ s.tasks, t₀.id = t.id ∧ t₀.request = t.request)
    (hids : (tasks.map Task.id).Sublist (s.tasks.map Task.id)) :
    Ordered { s with tasks := tasks } where
  keyed := h.keyed
  cleared := h.cleared
  inLane t ht := by
    obtain ⟨t₀, ht₀, hid, hreq⟩ := hsub t ht
    obtain ⟨r, hr, hrid, hrun⟩ := h.inLane t₀ ht₀
    exact ⟨r, hr, by rw [hrid, hreq], by rw [← hid]; exact hrun⟩
  issued := h.issued
  exclusive := h.exclusive
  distinct := h.distinct.sublist hids

private theorem Ordered.of_start {c : RequestCandidate} {rest : List RequestCandidate}
    {request : RelayRequest} (hc : s.candidates = c :: rest)
    (hfree : ∀ entry ∈ s.running, entry.2 ≠ (c.session, c.lane))
    (hl : loadRequest s.rows c.requestId s.now = some request) :
    Ordered { s with
      candidates := rest
      tasks := { id := s.nextTask, request := request, phase := .started } :: s.tasks
      running := (s.nextTask, (c.session, c.lane)) :: s.running
      nextTask := s.nextTask + 1 } where
  keyed := h.keyed
  cleared c' hc' := h.cleared c' (by rw [hc]; exact mem_cons_of_mem _ hc')
  inLane t ht := by
    rcases mem_cons.mp ht with rfl | ht
    · obtain ⟨r, hr, hid, hs, hlane, -⟩ := h.cleared c (by simp [hc])
      obtain ⟨r', hr', hid', -, hdec⟩ := loadRequest_eq_some hl
      have hrr : r' = r := h.keyed.unique hr' hr (by rw [hid', hid])
      subst hrr
      refine ⟨r', hr, ?_, ?_⟩
      · rw [← h.keyed.decoded r' hr, hdec]
      · rw [hs, hlane]
        exact mem_cons_self
    · obtain ⟨r, hr, hid, hrun⟩ := h.inLane t ht
      exact ⟨r, hr, hid, mem_cons_of_mem _ hrun⟩
  issued entry he := by
    rcases mem_cons.mp he with rfl | he
    · exact Nat.lt_succ_self _
    · exact Nat.lt_succ_of_lt (h.issued entry he)
  exclusive := by
    rw [map_cons, nodup_cons]
    refine ⟨fun hm => ?_, h.exclusive⟩
    obtain ⟨entry, he, hlane⟩ := List.mem_map.mp hm
    exact hfree entry he hlane
  distinct := by
    rw [map_cons, nodup_cons]
    refine ⟨fun hm => ?_, h.distinct⟩
    obtain ⟨t, ht, hid⟩ := List.mem_map.mp hm
    obtain ⟨r, -, -, hrun⟩ := h.inLane t ht
    have hlt : t.id < s.nextTask := h.issued _ hrun
    exact absurd hid (Nat.ne_of_lt hlt)

private theorem Ordered.of_join {task : Nat} (hen : ∀ t ∈ s.tasks, t.id ≠ task) :
    Ordered { s with running := s.running.filter (·.1 ≠ task) } where
  keyed := h.keyed
  cleared := h.cleared
  inLane t ht := by
    obtain ⟨r, hr, hid, hrun⟩ := h.inLane t ht
    exact ⟨r, hr, hid, mem_filter.mpr ⟨hrun, by simpa using hen t ht⟩⟩
  issued entry he := h.issued entry (mem_of_mem_filter he)
  exclusive := h.exclusive.sublist (filter_sublist.map Prod.snd)
  distinct := h.distinct

/-- One step keeps the scheduler's invariant. -/
theorem Ordered.step {e : Event} (hs : s.step e = some s') : Ordered s' := by
  cases effect_of_step hs with
  | clock now | config file _ | locks signIns | install _ _ | send _ _ _ =>
    exact ⟨h.keyed, h.cleared, h.inLane, h.issued, h.exclusive, h.distinct⟩
  | enqueue hok =>
    have := h.of_grows (grows_enqueue hok) (wellKeyed_enqueue h.keyed hok)
    exact ⟨this.keyed, this.cleared, this.inLane, this.issued, this.exclusive, this.distinct⟩
  | @bulk _ hit error signIns _ =>
    have hrw := rewrites_failWhere hit error s.rows
    have := h.of_grows hrw.grows (hrw.wellKeyed h.keyed)
    exact ⟨this.keyed, this.cleared, this.inLane, this.issued, this.exclusive, this.distinct⟩
  | stop => exact ⟨h.keyed, by simp, by simp, by simp, by simp, by simp⟩
  | scan _ =>
    exact ⟨h.keyed, fun c hc => cleared_of_mem_requestCandidates hc, h.inLane, h.issued,
      h.exclusive, h.distinct⟩
  | skip candidates hsub =>
    exact ⟨h.keyed, fun c hc => h.cleared c (hsub hc), h.inLane, h.issued, h.exclusive,
      h.distinct⟩
  | start hc hfree hl => exact h.of_start hc hfree hl
  | authenticate _ _ _ =>
    refine h.of_tasks (fun t ht => ?_) ?_
    · obtain ⟨t₀, ht₀, rfl⟩ := List.mem_map.mp ht
      refine ⟨t₀, ht₀, ?_, ?_⟩ <;> split <;> rfl
    · rw [List.map_map, map_congr_left (g := Task.id)]
      intro t _
      simp only [Function.comp_apply]
      split <;> rfl
  | @settle _ ending t _ =>
    have hrw := rewrites_settle t.request s.now s.rows ending
    refine (h.of_grows hrw.grows (hrw.wellKeyed h.keyed)).of_tasks (fun t ht => ?_)
      (filter_sublist.map Task.id)
    exact ⟨t, mem_of_mem_filter ht, rfl, rfl⟩
  | lose task =>
    exact h.of_tasks (fun t ht => ⟨t, mem_of_mem_filter ht, rfl, rfl⟩)
      (filter_sublist.map Task.id)
  | join hen => exact h.of_join hen

/-- Only a task started by this step can be new, and then its row is unblocked. -/
theorem Ordered.unblocked_of_starts {e : Event} (hs : s.step e = some s') {t : Task}
    (hsta : Starts s s' t) {r : Row} (hr : r ∈ s'.rows) (hid : r.requestId = t.request.requestId) :
    Unblocked s'.rows r := by
  obtain ⟨ht, hnew⟩ := hsta
  have old : ∀ {tasks : List Task},
      (∀ u ∈ tasks, ∃ t₀ ∈ s.tasks, t₀.id = u.id) → t ∈ tasks → Unblocked s'.rows r := by
    intro tasks hsub ht
    obtain ⟨t₀, ht₀, he⟩ := hsub t ht
    exact absurd he (hnew t₀ ht₀)
  cases effect_of_step hs with
  | clock now | config file _ | locks signIns | install _ _ | send _ _ _ | enqueue _ | bulk _ _ _
  | scan _ | skip _ _ | join _ => exact old (fun u hu => ⟨u, hu, rfl⟩) ht
  | stop => exact absurd ht (by simp)
  | authenticate _ _ _ =>
    refine old (fun u hu => ?_) ht
    obtain ⟨t₀, ht₀, rfl⟩ := List.mem_map.mp hu
    refine ⟨t₀, ht₀, ?_⟩
    split <;> rfl
  | settle _ | lose _ => exact old (fun u hu => ⟨u, mem_of_mem_filter hu, rfl⟩) ht
  | @start _ c rest request hc hfree hl =>
    rcases mem_cons.mp ht with rfl | ht
    · obtain ⟨r₀, hr₀, hid₀, -, -, hu⟩ := h.cleared c (by simp [hc])
      obtain ⟨r₁, hr₁, hid₁, -, hdec⟩ := loadRequest_eq_some hl
      have h₁ : r = r₁ := h.keyed.unique hr hr₁ (by
        rw [hid, ← h.keyed.decoded r₁ hr₁, hdec])
      have h₀ : r₀ = r₁ := h.keyed.unique hr₀ hr₁ (by rw [hid₀, hid₁])
      rw [h₁, ← h₀]
      exact hu
    · exact absurd rfl (hnew t ht)

end

theorem Ordered.of_reachable (h : relay.Reachable s) : Ordered s :=
  h.invariant (fun _ => ordered_of_initial) fun _ _ _ ho hs => ho.step hs

/-- Two tasks of one session are in two lanes. -/
theorem Ordered.lane_ne (h : Ordered s) {t₁ t₂ : Task} (ht₁ : t₁ ∈ s.tasks) (ht₂ : t₂ ∈ s.tasks)
    (hne : t₁.id ≠ t₂.id) {r₁ r₂ : Row} (hr₁ : r₁ ∈ s.rows) (hr₂ : r₂ ∈ s.rows)
    (hid₁ : r₁.requestId = t₁.request.requestId) (hid₂ : r₂.requestId = t₂.request.requestId)
    (hsess : r₁.session = r₂.session) : r₁.lane ≠ r₂.lane := by
  intro hlane
  obtain ⟨q₁, hq₁, hqid₁, hrun₁⟩ := h.inLane t₁ ht₁
  obtain ⟨q₂, hq₂, hqid₂, hrun₂⟩ := h.inLane t₂ ht₂
  have e₁ : q₁ = r₁ := h.keyed.unique hq₁ hr₁ (by rw [hqid₁, hid₁])
  have e₂ : q₂ = r₂ := h.keyed.unique hq₂ hr₂ (by rw [hqid₂, hid₂])
  rw [e₁, hsess, hlane] at hrun₁
  rw [e₂] at hrun₂
  have := inj_on_of_nodup_map h.exclusive hrun₁ hrun₂ rfl
  exact hne (congrArg Prod.fst this)

end Home

/-- In every run of the relay: two requests of one session and one lane are never in flight
together; a request starts only when no earlier request of its session is pending in its own
lane or in the empty lane. -/
theorem outbox_order {s : Home} (h : relay.Reachable s) :
    (∀ t₁ ∈ s.tasks, ∀ t₂ ∈ s.tasks, t₁.id ≠ t₂.id →
      ∀ r₁ ∈ s.rows, ∀ r₂ ∈ s.rows, r₁.requestId = t₁.request.requestId →
        r₂.requestId = t₂.request.requestId → r₁.session = r₂.session → r₁.lane ≠ r₂.lane) ∧
    ∀ e s', relay.step s e = some s' → ∀ t, Home.Starts s s' t →
      ∀ r ∈ s'.rows, r.requestId = t.request.requestId →
        ∀ p ∈ s'.rows, p.session = r.session → p.rowid < r.rowid → p.state = .pending →
          p.lane ≠ r.lane ∧ p.lane ≠ "" := by
  have hinv : s.Ordered := .of_reachable h
  constructor
  · intro t₁ ht₁ t₂ ht₂ hne r₁ hr₁ r₂ hr₂ hid₁ hid₂ hsession
    exact hinv.lane_ne ht₁ ht₂ hne hr₁ hr₂ hid₁ hid₂ hsession
  · intro e s' hs t ht r hr hid
    exact hinv.unblocked_of_starts hs ht hr hid

/-- A send of the profile `default` with the given request id. -/
def sampleSend (id : Nat) (conversation : String) : Envelope where
  request :=
    { requestId := id
      profile := "default"
      testingEnvironmentId := none
      request := .sendMessage conversation }
  rest := ""
  octets := 100

/-- Two sends to two conversations in flight together, and a later one to the first
conversation that waits for its lane. -/
theorem outbox_order_two_lanes : ∃ s, relay.Reachable s ∧ s.tasks.length = 2 ∧
    (∀ t₁ ∈ s.tasks, ∀ t₂ ∈ s.tasks, t₁.id ≠ t₂.id →
      ∀ r₁ ∈ s.rows, ∀ r₂ ∈ s.rows, r₁.requestId = t₁.request.requestId →
        r₂.requestId = t₂.request.requestId → r₁.session = r₂.session → r₁.lane ≠ r₂.lane) := by
  have hs := Base.System.reachable_get (M := relay)
    [.enqueue (sampleSend 1 "a"), .enqueue (sampleSend 2 "b"), .enqueue (sampleSend 3 "a"),
      .scan, .consider true 8, .consider true 8, .scan] (Home.initial_idle .missing) (by decide)
  exact ⟨_, hs, by decide, (outbox_order hs).1⟩

theorem Row.Continues.trans {r r' r'' : Row} (h : r.Continues r') (h' : r'.Continues r'') :
    r.Continues r'' :=
  ⟨h'.rowid.trans h.rowid, h'.requestId.trans h.requestId, h'.session.trans h.session,
    h'.request.trans h.request, h'.lane.trans h.lane, h.pending ∘ h'.pending⟩

theorem Home.grows_of_step {s s' : Home} {e : Event} (hs : s.step e = some s') :
    Grows s.rows s'.rows := by
  cases effect_of_step hs with
  | enqueue hok => exact grows_enqueue hok
  | bulk error => exact (rewrites_failWhere _ error s.rows).grows
  | settle => exact (rewrites_settle _ s.now s.rows _).grows
  | _ => exact .refl _

/-- In every run of the relay no request is lost: it keeps its row, its session, its lane and its
text, and is not pending again once it has ended. -/
theorem queued_requests_are_kept {s s' : Home} (hs : relay.Steps (fun _ _ => True) s s') {r : Row}
    (hr : r ∈ s.rows) : ∃ r' ∈ s'.rows, r.Continues r' := by
  refine hs.preserves (I := fun u => ∃ q ∈ u.rows, r.Continues q) ?_ ⟨r, hr, .refl r⟩
  rintro u e u' ⟨q, hq, hcont⟩ - hstep
  obtain ⟨q', hq', hnext⟩ := (Home.grows_of_step hstep).kept q hq
  exact ⟨q', hq', hcont.trans hnext⟩

/-- A send is in flight when the relay stops. -/
theorem queued_requests_are_kept_stop : ∃ s : Home, s.nextTask = 1 ∧ s.tasks = [] ∧
    ∃ r ∈ s.rows, (newRow [] (sampleSend 1 "a") 0).Continues r :=
  ⟨_, by rfl, by rfl, queued_requests_are_kept (Base.System.steps_get
    (s := { Home.idle .missing with rows := [newRow [] (sampleSend 1 "a") 0] })
    [.scan, .consider true 8, .stop] rfl) mem_cons_self⟩

end SiliconDm.Client
