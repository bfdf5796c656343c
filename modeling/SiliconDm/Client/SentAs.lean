import SiliconDm.Client.Terminal

/-!
# Whose credentials a queued request is sent with

The outbox stores the session key of a request, not its account. The account of a session
key changes only when a sign-in is installed, so a request is sent as the account that queued
it in every run in which no installed sign-in finds a request of another account that is
pending or about to read its credentials. The pending count that `save_sign_in` checks is
read before the update and skipped for a missing or legacy profile, so other runs exist.
Source: `crates/client/src/runtime/mod.rs:385–503`.
-/

namespace SiliconDm.Client

open List

namespace Home

/-- The request may still read credentials: it is pending, or a task of it has not
authenticated yet. -/
def live (s : Home) (r : Row) : Bool :=
  r.state = .pending ||
    s.tasks.any fun t => t.request.requestId = r.requestId && t.phase.isStarted

/-- No live request of the profile was queued by an account other than `uuid`. -/
def onlyQueuedBy (s : Home) (key uuid : String) : Bool :=
  s.rows.all fun r =>
    !(s.live r && sessionKey r.request.request.profile = key &&
      (s.queuedAs r.requestId).any (· ≠ uuid))

/-- If the event installs a sign-in, every live request of that profile is the account's
own. -/
def installsOwn (s : Home) : Event → Bool
  | .install key =>
    match s.signIns key with
    | some (signIn, .counted pending) =>
      match saveSignIn signIn.target signIn.account signIn.session signIn.method signIn.device
          s.now pending s.config.contents with
      | .ok _ => s.onlyQueuedBy (sessionKey signIn.target.profile) signIn.account.uuid
      | .error _ => true
    | _ => true
  | _ => true

/-- Live requests, credentials held and requests sent all belong to the account that queued
the request. -/
structure Attributed (s : Home) : Prop where
  ordered : Ordered s
  loaded : ∀ t ∈ s.tasks, ∃ r ∈ s.rows, r.requestId = t.request.requestId ∧
    r.request.request = t.request
  live : ∀ r ∈ s.rows, s.live r = true → ∀ uuid, s.queuedAs r.requestId = some uuid →
    s.config.accountUuid (sessionKey r.request.request.profile) = some uuid ∨
      s.config.accountUuid (sessionKey r.request.request.profile) = none
  held : ∀ t ∈ s.tasks, ∀ p, t.phase = .authenticated p → ∀ uuid,
    s.queuedAs t.request.requestId = some uuid → p.accountUuid = some uuid
  known : ∀ entry ∈ s.sent, ∃ r ∈ s.rows, r.requestId = entry.1
  sent : ∀ entry ∈ s.sent, ∀ uuid, s.queuedAs entry.1 = some uuid → entry.2 = uuid

variable {s s' : Home}

theorem attributed_of_initial (h : Initial s) : Attributed s where
  ordered := ordered_of_initial h
  loaded := by simp [h.noTasks]
  live r hr hl uuid hu := by
    have hp : r.state = .pending := by simpa [Home.live, h.noTasks] using hl
    exact .inl (h.queued r hr hp uuid hu)
  held := by simp [h.noTasks]
  known := by simp [h.unsent]
  sent := by simp [h.unsent]

/-- What is live after a row statement was live before it. -/
private theorem live_of_continues {r r' : Row} (rows : List Row) {tasks : List Task}
    (hc : r.Continues r') (hsub : ∀ t ∈ tasks, t.phase = .started → ∃ t₀ ∈ s.tasks,
      t₀.request = t.request ∧ t₀.phase = .started)
    (hl : live { s with rows := rows, tasks := tasks } r' = true) : s.live r = true := by
  simp only [live, Bool.or_eq_true, decide_eq_true_eq, List.any_eq_true,
    Bool.and_eq_true] at hl ⊢
  rcases hl with hp | ⟨t, ht, hid, hstd⟩
  · exact .inl (hc.pending hp)
  · right
    have hphase : t.phase = .started := by
      cases hph : t.phase with
      | started => rfl
      | authenticated p => simp [Phase.isStarted, hph] at hstd
    obtain ⟨t₀, ht₀, hreq, hph⟩ := hsub t ht hphase
    exact ⟨t₀, ht₀, by rw [hreq, hid, hc.requestId], by rw [hph]; rfl⟩

section

variable (h : Attributed s)
include h

/-- Rows may continue and tasks may end without changing whose requests they are. -/
private theorem Attributed.of_rows {rows : List Row} (tasks : List Task)
    (ho : Ordered { s with rows := rows, tasks := tasks }) (hrw : Rewrites s.rows rows)
    (hsub : ∀ t ∈ tasks, t ∈ s.tasks) :
    Attributed { s with rows := rows, tasks := tasks } where
  ordered := ho
  loaded t ht := by
    obtain ⟨r, hr, hid, hreq⟩ := h.loaded t (hsub t ht)
    obtain ⟨r', hr', hc⟩ := hrw.grows.kept r hr
    exact ⟨r', hr', by rw [hc.requestId, hid], by rw [hc.request, hreq]⟩
  live r' hr' hl uuid hu := by
    obtain ⟨r, hr, hc⟩ := hrw.origin r' hr'
    have hlive : s.live r = true :=
      live_of_continues rows hc (fun t ht hp => ⟨t, hsub t ht, rfl, hp⟩) hl
    rw [hc.requestId] at hu
    rw [hc.request]
    exact h.live r hr hlive uuid hu
  held t ht := h.held t (hsub t ht)
  known entry he := by
    obtain ⟨r, hr, hid⟩ := h.known entry he
    obtain ⟨r', hr', hc⟩ := hrw.grows.kept r hr
    exact ⟨r', hr', by rw [hc.requestId, hid]⟩
  sent := h.sent

/-- A new row is queued by the account its profile holds; nobody else's request changes
hands. -/
private theorem Attributed.of_enqueue {original : Envelope}
    (hs : s.step (.enqueue original) = some s') : Attributed s' := by
  have ho : Ordered s' := h.ordered.step hs
  simp only [step, Home.enqueue] at hs
  split at hs
  next => simp at hs
  next rows hok =>
    cases hs
    rcases enqueue_eq_ok hok with ⟨rfl, r₀, hr₀, hid₀⟩ | ⟨rfl, hfr⟩
    · have hany : s.rows.any (·.requestId = original.request.requestId) = true :=
        List.any_eq_true.mpr ⟨r₀, hr₀, by simpa using hid₀⟩
      simp only [hany, if_true] at ho ⊢
      exact ⟨ho, h.loaded, h.live, h.held, h.known, h.sent⟩
    · have hany : s.rows.any (·.requestId = original.request.requestId) = false := by
        simpa using hfr
      have hkeep : ∀ id, (∃ r ∈ s.rows, r.requestId = id) →
          Function.update s.queuedAs original.request.requestId
            (s.config.accountUuid (sessionKey original.request.profile)) id =
              s.queuedAs id := by
        rintro id ⟨r, hr, rfl⟩
        exact Function.update_of_ne (hfr r hr) _ _
      simp only [hany, Bool.false_eq_true, if_false] at ho ⊢
      refine ⟨ho, ?_, ?_, ?_, ?_, ?_⟩
      · intro t ht
        obtain ⟨r, hr, hid, hreq⟩ := h.loaded t ht
        exact ⟨r, mem_append_left _ hr, hid, hreq⟩
      · intro r hr hl uuid hu
        rcases mem_append.mp hr with hr | hr
        · exact h.live r hr hl uuid ((hkeep r.requestId ⟨r, hr, rfl⟩).symm.trans hu)
        · obtain rfl := mem_singleton.mp hr
          simp only [newRow, Function.update_self] at hu ⊢
          exact .inl hu
      · intro t ht p hp uuid hu
        obtain ⟨r, hr, hid, -⟩ := h.loaded t ht
        exact h.held t ht p hp uuid ((hkeep _ ⟨r, hr, hid⟩).symm.trans hu)
      · intro entry he
        obtain ⟨r, hr, hid⟩ := h.known entry he
        exact ⟨r, mem_append_left _ hr, hid⟩
      · intro entry he uuid hu
        exact h.sent entry he uuid ((hkeep _ (h.known entry he)).symm.trans hu)

/-- An installed sign-in that finds only its own live requests. -/
private theorem Attributed.of_install {key : String} {signIn : SignIn} {pending : Nat}
    {config : Config} {effect : SignInEffect} (hs : s.signIns key = some (signIn, .counted pending))
    (hok : saveSignIn signIn.target signIn.account signIn.session signIn.method signIn.device s.now
      pending s.config.contents = .ok (config, effect))
    (hc : s.installsOwn (.install key) = true) :
    ∀ r ∈ s.rows, s.live r = true → ∀ uuid, s.queuedAs r.requestId = some uuid →
      config.accountUuid (sessionKey r.request.request.profile) = some uuid ∨
        config.accountUuid (sessionKey r.request.request.profile) = none := by
  intro r hr hl uuid hu
  obtain ⟨hacc, -⟩ := saveSignIn_eq_ok signIn.named hok
  rw [hacc]
  split
  next hk =>
    left
    simp only [installsOwn, hs, hok, onlyQueuedBy, List.all_eq_true] at hc
    have := hc r hr
    simp only [hl, hk, hu, decide_true, Bool.true_and, Option.any_some, Bool.not_eq_true',
      decide_eq_false_iff_not, not_not] at this
    rw [this]
  next => exact h.live r hr hl uuid hu

private theorem Attributed.of_start {c : RequestCandidate}
    {rest : List RequestCandidate} {request : RelayRequest}
    (hl : loadRequest s.rows c.requestId s.now = some request) (ho : Ordered { s with
      candidates := rest
      tasks := { id := s.nextTask, request := request, phase := .started } :: s.tasks
      running := (s.nextTask, (c.session, c.lane)) :: s.running
      nextTask := s.nextTask + 1 }) :
    Attributed { s with
      candidates := rest
      tasks := { id := s.nextTask, request := request, phase := .started } :: s.tasks
      running := (s.nextTask, (c.session, c.lane)) :: s.running
      nextTask := s.nextTask + 1 } := by
  obtain ⟨r₁, hr₁, -, hp₁, hdec⟩ := loadRequest_eq_some hl
  have hid₁ : r₁.requestId = request.requestId := by
    rw [← h.ordered.keyed.decoded r₁ hr₁, hdec]
  refine ⟨ho, ?_, ?_, ?_, h.known, h.sent⟩
  · intro t ht
    rcases mem_cons.mp ht with rfl | ht
    · exact ⟨r₁, hr₁, hid₁, hdec⟩
    · exact h.loaded t ht
  · intro r hr hlive uuid hu
    refine h.live r hr ?_ uuid hu
    simp only [Home.live, any_cons, Bool.or_eq_true, Bool.and_eq_true,
      decide_eq_true_eq] at hlive ⊢
    -- the task that just started loaded a pending row, so nothing becomes live here
    rcases hlive with hp | ⟨hid, -⟩ | hold
    · exact .inl hp
    · left
      rw [h.ordered.keyed.unique hr hr₁ (by rw [hid₁, hid])]
      exact hp₁
    · exact .inr hold
  · intro t ht p hp
    rcases mem_cons.mp ht with rfl | ht
    · simp at hp
    · exact h.held t ht p hp

/-- A task that authenticates reads the account that queued its request. -/
private theorem Attributed.of_authenticate {task : Nat} {t : Task} {p : Profile}
    (ht : s.tasks.find? (·.id = task) = some t) (hph : t.phase = .started)
    (hsgn : s.config.contents.signedInAt (sessionKey t.request.profile) = some p)
    (ho : Ordered { s with
      tasks := s.tasks.map fun t =>
        if t.id = task then { t with phase := .authenticated p } else t }) :
    Attributed { s with
      tasks := s.tasks.map fun t =>
        if t.id = task then { t with phase := .authenticated p } else t } := by
  have htmem : t ∈ s.tasks := mem_of_find?_eq_some ht
  have htid : t.id = task := by simpa using find?_some ht
  refine ⟨ho, ?_, ?_, ?_, h.known, h.sent⟩
  · intro u hu
    obtain ⟨u₀, hu₀, rfl⟩ := List.mem_map.mp hu
    have := h.loaded u₀ hu₀
    split <;> exact this
  · intro r hr hl uuid hu
    refine h.live r hr (live_of_continues s.rows (.refl r) ?_ hl) uuid hu
    intro u hu hp
    obtain ⟨u₀, hu₀, rfl⟩ := List.mem_map.mp hu
    split at hp
    next => simp at hp
    next hne => exact ⟨u₀, hu₀, by simp [hne], hp⟩
  · intro u hu q hq uuid hqueued
    obtain ⟨u₀, hu₀, rfl⟩ := List.mem_map.mp hu
    split at hq
    next hid =>
      simp only [hid, if_true] at hqueued
      obtain rfl : u₀ = t :=
        inj_on_of_nodup_map h.ordered.distinct hu₀ htmem (hid.trans htid.symm)
      obtain rfl : p = q := by simpa using hq
      obtain ⟨r, hr, hrid, hreq⟩ := h.loaded u₀ htmem
      have hlive : s.live r = true := by
        simp only [Home.live, Bool.or_eq_true, List.any_eq_true, Bool.and_eq_true,
          decide_eq_true_eq]
        exact .inr ⟨u₀, htmem, hrid.symm, by rw [hph]; rfl⟩
      obtain ⟨v, hv, hcv⟩ := Config.signedInAt_eq_some hsgn
      have := h.live r hr hlive uuid (by rw [hrid]; exact hqueued)
      rw [hreq] at this
      simp only [ConfigFile.accountUuid, hcv, reduceCtorEq, or_false] at this
      rw [hv, this]
    next hne =>
      simp only [hne, if_false] at hqueued
      exact h.held u₀ hu₀ q hq uuid hqueued

/-- A step that changes no row, task, queue record or sent request, and accounts only by
forgetting them. -/
private theorem Attributed.of_config {file : ConfigFile}
    (hf : ∀ key, file.accountUuid key = s.config.accountUuid key ∨ file.accountUuid key = none)
    (ho : Ordered { s with config := file }) : Attributed { s with config := file } := by
  refine ⟨ho, h.loaded, ?_, h.held, h.known, h.sent⟩
  intro r hr hl uuid hu
  rcases hf (sessionKey r.request.request.profile) with he | he
  · have := h.live r hr hl uuid hu
    rw [← he] at this
    exact this
  · exact .inr he

private theorem Attributed.of_send {task : Nat} {t : Task} {p : Profile} {uuid : String}
    (ht : s.tasks.find? (·.id = task) = some t) (hp : t.phase = .authenticated p)
    (hu : p.accountUuid = some uuid)
    (ho : Ordered { s with sent := s.sent ++ [(t.request.requestId, uuid)] }) :
    Attributed { s with sent := s.sent ++ [(t.request.requestId, uuid)] } := by
  have htmem : t ∈ s.tasks := mem_of_find?_eq_some ht
  refine ⟨ho, h.loaded, h.live, h.held, ?_, ?_⟩
  · intro entry he
    rcases mem_append.mp he with he | he
    · exact h.known entry he
    · obtain rfl := mem_singleton.mp he
      obtain ⟨r, hr, hid, -⟩ := h.loaded t htmem
      exact ⟨r, hr, hid⟩
  · intro entry he v hv
    rcases mem_append.mp he with he | he
    · exact h.sent entry he v hv
    · obtain rfl := mem_singleton.mp he
      have := h.held t htmem p hp v hv
      rw [hu] at this
      exact Option.some.inj this

/-- One step whose installed sign-in, if any, finds only its own requests. -/
theorem Attributed.step {e : Event} (hc : s.installsOwn e = true) (hs : s.step e = some s') :
    Attributed s' := by
  have ho : Ordered s' := h.ordered.step hs
  cases effect_of_step hs with
  | clock _ | locks _ | scan _ | skip _ _ | join _ =>
    exact ⟨ho, h.loaded, h.live, h.held, h.known, h.sent⟩
  | config _ hf => exact h.of_config hf ho
  | enqueue _ => exact h.of_enqueue hs
  | install hsign hok =>
    exact ⟨ho, h.loaded, h.of_install hsign hok hc, h.held, h.known, h.sent⟩
  | start _ _ hl => exact h.of_start hl ho
  | authenticate ht hp hsgn => exact h.of_authenticate ht hp hsgn ho
  | send ht hp hu => exact h.of_send ht hp hu ho
  | @bulk _ hit error _ _ =>
    have := h.of_rows s.tasks
      ⟨ho.keyed, ho.cleared, ho.inLane, ho.issued, ho.exclusive, ho.distinct⟩
      (rewrites_failWhere hit error s.rows) fun _ ht => ht
    exact ⟨ho, this.loaded, this.live, this.held, this.known, this.sent⟩
  | stop =>
    refine ⟨ho, by simp, ?_, by simp, h.known, h.sent⟩
    intro r hr hl
    refine h.live r hr ?_
    have hp : r.state = .pending := by simpa [Home.live] using hl
    simp [Home.live, hp]
  | settle _ => exact h.of_rows _ ho (rewrites_settle ..) fun _ ht => mem_of_mem_filter ht
  | lose _ =>
    exact h.of_rows _ ho ⟨id, by simp, fun r _ => .refl r⟩ fun _ ht =>
      mem_of_mem_filter ht

end

end Home

/-- In every run in which each installed sign-in finds only its own live requests, a request
queued while its profile held an account is only ever executed with that account's
credentials. -/
theorem sent_as_queued {s : Home}
    (h : relay.ReachableWhile (fun s e => s.installsOwn e = true) s) :
    ∀ entry ∈ s.sent, ∀ uuid, s.queuedAs entry.1 = some uuid → entry.2 = uuid := by
  have hinv : s.Attributed :=
    h.invariant (fun _ => Home.attributed_of_initial) fun _ _ _ ha hc hs => ha.step hc hs
  exact hinv.sent

/-- An account signs in, queues a send and executes it; later it signs in again. -/
theorem sent_as_queued_same_account : ∃ s : Home, s.sent = [(1, "ada")] ∧
    s.queuedAs 1 = some "ada" ∧
    ∀ entry ∈ s.sent, ∀ uuid, s.queuedAs entry.1 = some uuid → entry.2 = uuid := by
  have h := Base.System.reachableWhile_get (M := relay) (C := fun s e => s.installsOwn e = true)
    [.countPending (sampleSignIn "ada" "c:ada"), .install "default:production",
      .finishSignIn "default:production", .enqueue (sampleSend 1 "a"), .scan,
      .consider true 8, .authenticate 0, .send 0, .countPending (sampleSignIn "ada" "c:ada"),
      .install "default:production"] (Home.initial_idle .missing) (by decide)
  exact ⟨_, by decide, by decide, sent_as_queued h⟩

/-- Another process queues a send between the pending count and the configuration update of
another account's sign-in; the send is executed as that account. -/
theorem sent_as_other : ∃ s : Home, relay.Reachable s ∧ s.queuedAs 1 = some "ada" ∧
    (1, "bob") ∈ s.sent := by
  exact ⟨_, Base.System.reachable_get (M := relay)
    [.countPending (sampleSignIn "ada" "c:ada"), .install "default:production",
      .finishSignIn "default:production", .countPending (sampleSignIn "bob" "c:bob"),
      .enqueue (sampleSend 1 "a"), .install "default:production",
      .finishSignIn "default:production", .scan, .consider true 8, .authenticate 0, .send 0]
    (Home.initial_idle .missing) (by decide), by decide, by decide⟩

end SiliconDm.Client
