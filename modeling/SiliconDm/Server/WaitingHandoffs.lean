import SiliconDm.Server.PassRuns

/-!
# Handoffs that wait

A handoff that is due and that nobody else has locked is passed over only for rows that the worker
has not had before, so that one handoff never stops the worker.
-/

namespace SiliconDm.Server.Ting

open Base List Option

variable {p : Producer} {settings : Settings} {w w' : Worker} {m : Move} {s s' : State}
  {a : Action} {h : Handoff} {processed id : Nat} {phase : Phase} {c : Claim} {outcome : Outcome}

/-! ### Handoffs that wait -/

/-- The row waits for the worker: it is due and nobody else has locked it, or it has been
selected. -/
def Worker.waits (w : Worker) (h : Handoff) : Bool :=
  w.log.contains h.id ||
    w.table.rows.contains h && h.due w.table.now w.table.participants &&
      w.table.unlocked (match w.phase with
        | .claiming tx => tx
        | _ => w.table.fresh) h.id

/-- A round records its outcome while its lease runs, or after someone else is done with the
row. -/
def Worker.inTime (w : Worker) (m : Move) : Bool :=
  match m, w.phase with
  | .store, .storing c _ => (w.table.row c.deliveryId).any fun k =>
      k.leasedTo w.table.now c.leaseId || k.acceptance.isSome || k.discard.isSome
  | _, _ => true

/-- A row that is not selected before `h`. -/
def Behind (h : Handoff) (s : State) (id : Nat) : Prop :=
  ∃ k ∈ s.rows, k.id = id ∧ (k.acceptance.isSome = true ∨ k.discard.isSome = true ∨
    h.nextAttemptAt < k.nextAttemptAt)

theorem Behind.next (hb : Behind h s id) (hi : Inv p s) (hs : step p s a = some s')
    (hdue : h.nextAttemptAt ≤ s.now) (hretry : ∀ d l n e, a = .retry d l n e → s.now < n) :
    Behind h s' id := by
  obtain ⟨k, hk, rfl, hbehind⟩ := hb
  obtain ⟨k', hk', he⟩ := (hi.moves hs).rows.exists_effect hk
  refine ⟨k', hk', he.id_eq, ?_⟩
  cases he with
  | kept => exact hbehind
  | committed hdefer =>
    cases hdefer with
    | leased => exact hbehind
    | discarded => exact .inr (.inl rfl)
  | discarded => exact .inr (.inl rfl)
  | accepted => exact .inl rfl
  | retried => exact .inr (.inr (hdue.trans_lt (hretry _ _ _ _ rfl)))

/-- The transaction of the worker's claim while `h` waits: what the worker has selected is behind,
or in its hands. -/
structure Passing (h : Handoff) (s : State) (log : List Nat) (t : Open) : Prop where
  locks : ∀ id ∈ t.locks, id ∈ log
  one : t.records.length + t.handed.length ≤ 1
  going : t.drained = false
  past : ∀ id ∈ log, Behind h s id ∨ id ∈ t.records ∨
    (∃ v ∈ t.writes, v.id = id ∧ v.discard.isSome = true) ∨ ∃ x ∈ t.handed, x.claim.deliveryId = id

/-- Where the worker is while `h` waits; a pass ends only after its rounds. -/
def Past (settings : Settings) (h : Handoff) (s : State) (log : List Nat) (processed : Nat) :
    Phase → Prop
  | .claiming tx => ∀ t, s.find tx = some t → Passing h s log t
  | .claimed c => ∀ id ∈ log, Behind h s id ∨ id = c.deliveryId
  | .publishing c _ => ∀ id ∈ log, Behind h s id ∨ id = c.deliveryId
  | .storing c _ => ∀ id ∈ log, Behind h s id ∨ id = c.deliveryId
  | .finished => processed = settings.rounds ∧ ∀ id ∈ log, Behind h s id
  | .ready | .idle => ∀ id ∈ log, Behind h s id
  | .failed _ => True

structure Waited (settings : Settings) (h : Handoff) (w : Worker) : Prop where
  nodup : w.log.Nodup
  past : Past settings h w.table w.log w.processed w.phase

theorem log_subset (hm : Moved p settings w m w') (h : id ∈ w.log) : id ∈ w'.log := by
  cases hm with
  | selected => exact mem_append_left _ h
  | @stored c outcome s hph hs =>
    unfold Worker.recorded
    split
    · exact h
    · split_ifs <;> exact h
  | _ => exact h

theorem rows_recording {h' : Handoff} (hs : step p s (recording p settings s c outcome).1 = some s')
    (hok : (recording p settings s c outcome).2 = .ok (some h')) :
    s'.rows = written [h'] s.rows := by
  cases outcome with
  | accepted id createdAt silent | failed failure =>
    simp only [recording, step, State.alone] at hs hok
    rw [hok] at hs
    split_ifs at hs
    cases hs
    rfl

theorem retry_of_recording {d l n : Nat} {e : String}
    (h : (recording p settings s c outcome).1 = .retry d l n e) : s.now < n := by
  cases outcome with
  | accepted => cases h
  | failed failure =>
    cases h
    exact lt_add_retryDelay _ _ _

/-- The worker's row is behind once its round is over. -/
theorem Records.behind (hr : Records s c (recording p settings s c outcome).2)
    (hi : Inv p s) (hs : step p s (recording p settings s c outcome).1 = some s')
    (hdue : h.nextAttemptAt ≤ s.now) (htime : ((s.row c.deliveryId).any fun k =>
      k.leasedTo s.now c.leaseId || k.acceptance.isSome || k.discard.isSome) = true) :
    Behind h s' c.deliveryId := by
  generalize hres : (recording p settings s c outcome).2 = result at hr
  cases hr with
  | @progress k k' hrow hid hdone =>
    obtain ⟨hm, hk⟩ := mem_of_getRow_eq_some hrow
    refine ⟨k', ?_, hid.trans hk, ?_⟩
    · rw [rows_recording hs hres]
      exact version_mem_written (nodup_singleton _) (mem_singleton_self k') hm hid.symm
    · rcases hdone with hdone | hdone
      · exact .inl hdone
      · exact .inr (.inr (hdue.trans_lt hdone))
  | @settled k hrow hacc =>
    obtain ⟨hm, hk⟩ := mem_of_getRow_eq_some hrow
    have hb : Behind h s c.deliveryId := ⟨k, hm, hk, .inl hacc⟩
    exact hb.next hi hs hdue fun _ _ _ _ => retry_of_recording
  | lost hlost =>
    obtain ⟨k, hrow, htime⟩ := (Option.any_eq_true _ _).mp htime
    obtain ⟨hm, hk⟩ := mem_of_getRow_eq_some hrow
    have hb : Behind h s c.deliveryId := by
      refine ⟨k, hm, hk, ?_⟩
      simp only [Bool.or_eq_true] at htime
      rcases htime with (hls | hacc) | hdisc
      · exact .inl (hlost k hrow hls)
      · exact .inl hacc
      · exact .inr (.inl hdisc)
    exact hb.next hi hs hdue fun _ _ _ _ => retry_of_recording

section Waiting

variable {h : Handoff} {log : List Nat} {tx : Nat} {t : Open}

theorem Past.next (hpast : Past settings h s log processed phase) (hfine : Fine p settings s phase)
    (hi : Inv p s) (hs : step p s a = some s')
    (htx : ∀ tx, phase = .claiming tx → a.transaction ≠ some tx) (hdue : h.nextAttemptAt ≤ s.now)
    (hretry : ∀ d l n e, a = .retry d l n e → s.now < n) :
    Past settings h s' log processed phase := by
  have hheld : ∀ c : Claim, (∀ id ∈ log, Behind h s id ∨ id = c.deliveryId) →
      ∀ id ∈ log, Behind h s' id ∨ id = c.deliveryId :=
    fun c hall id hid => (hall id hid).imp_left fun hb => hb.next hi hs hdue hretry
  cases phase with
  | claiming tx =>
    intro t ht
    obtain ⟨t', ht', -⟩ := hfine
    obtain rfl := Option.some.inj (((hi.active hs).find ht' (htx tx rfl)).symm.trans ht)
    obtain ⟨hlocks, hone, hgoing, hall⟩ := hpast t' ht'
    exact ⟨hlocks, hone, hgoing,
      fun id hid => (hall id hid).imp_left fun hb => hb.next hi hs hdue hretry⟩
  | claimed c | publishing c _ | storing c _ => exact hheld c hpast
  | ready | idle => exact fun id hid => (hpast id hid).next hi hs hdue hretry
  | finished => exact ⟨hpast.1, fun id hid => (hpast.2 id hid).next hi hs hdue hretry⟩
  | failed e => trivial

/-- The `SELECT` of a claim: while a row waits it finds one, which the worker has not had. -/
theorem Passing.select (hp : Passing h s log t) (hi : Inv p s) (ht : s.find tx = some t)
    {pick : Option Nat} (hfst : s.first t pick = true)
    (hs : step p s (.select tx pick.toList) = some s') (hnot : h.id ∉ log) (hm : h ∈ s.rows)
    (hdue : h.due s.now s.participants = true) (hfree : s.unlocked tx h.id = true)
    (hnow : h.nextAttemptAt ≤ s.now) :
    ∃ id, pick = some id ∧ id ∉ log ∧
      ∀ t', s'.find tx = some t' → Passing h s' (log ++ [id]) t' := by
  obtain ⟨hact, rfl⟩ := mem_of_find ht
  have hsd := hi.sound t hact
  obtain ⟨⟨hrecs, hloops, hpicked⟩, hfind⟩ := find_select ht hs
  have hr : s.row h.id = some h := hi.keyed.getRow_eq_some_iff.mpr ⟨hm, rfl⟩
  have hunwritten : ∀ v ∈ t.writes, v.id ≠ h.id :=
    fun v hv hid => hnot (hid ▸ hp.locks _ (hsd.written v hv).1)
  have hcandidate : h ∈ s.candidates t := by
    refine mem_filter.mpr ⟨hm, ?_⟩
    rw [hfree, seen_of_no_write hunwritten, hr, any_some, hdue]
    rfl
  obtain ⟨id, rfl, hid⟩ := (Option.any_eq_true _ _).mp (List.all_eq_true.mp hfst h hcandidate)
  obtain ⟨k, hk, hle⟩ := (Option.any_eq_true _ _).mp hid
  obtain ⟨hkmem, hkid⟩ := mem_of_getRow_eq_some hk
  obtain ⟨seen, hseen, hseendue⟩ := hpicked id (mem_singleton_self id)
  have hidle := idle_of_due hseendue
  have hn : t.handed = [] := Open.handed_eq_nil hloops
  have hnew := hsd.unwritten hloops hseen hidle
  refine ⟨id, rfl, ?_, ?_⟩
  · intro hlog
    rw [seen_of_no_write hnew, hk] at hseen
    cases hseen
    rcases hp.past id hlog with ⟨k', hk', hkid', hbehind⟩ | hrec | ⟨v, hv, hvid, -⟩ | ⟨x, hx, -⟩
    · obtain rfl := hi.keyed.unique hkmem hk' (hkid.trans hkid'.symm)
      rcases hbehind with hacc | hdisc | hlat
      · rw [hidle.unaccepted] at hacc
        cases hacc
      · rw [hidle.kept] at hdisc
        cases hdisc
      · exact absurd (of_decide_eq_true hle) (by omega)
    · rw [hrecs] at hrec
      cases hrec
    · exact hnew v hv hvid
    · rw [hn] at hx
      cases hx
  · intro t' ht'
    cases hfind.symm.trans ht'
    constructor
    · exact forall_mem_append.mpr
        ⟨fun id' hid' => mem_append_left _ (hp.locks id' hid'), fun _ => mem_append_right _⟩
    · simp [hn]
    · rfl
    · intro id' hid'
      rcases mem_append.mp hid' with hid' | hid'
      · rcases hp.past id' hid' with hb | hrec | hrest
        · exact .inl (hb.next hi hs hnow nofun)
        · rw [hrecs] at hrec
          cases hrec
        · exact .inr (.inr hrest)
      · exact .inr (.inl hid')

/-- Handling the selected row: it is discarded or handed out. -/
theorem Passing.handles (hp : Passing h s log t) (hi : Inv p s) (ht : s.find tx = some t)
    (hclm : Claiming p settings t)
    (hok : s.handleError p t settings.instanceId settings.leaseMillis = none)
    (hs : step p s (.handle tx) = some s') (hnow : h.nextAttemptAt ≤ s.now) :
    ∀ t', s'.find tx = some t' → Passing h s' log t' := by
  obtain ⟨records, r, hr, hrecs, hidle, v, handed, hrec, hfind⟩ :=
    find_handle hi ht hclm hok hs
  intro t' ht'
  cases hfind.symm.trans ht'
  obtain ⟨hdefer, -, hleases, hdis⟩ := handleRecord_eq_ok hidle hrec
  have hone := hp.one
  rw [hrecs, length_cons] at hone
  constructor
  · exact hp.locks
  · simp only [Open.handles, length_append]
    have : handed.toList.length ≤ 1 := by cases handed <;> simp
    omega
  · exact hp.going
  · intro id hid
    rcases hp.past id hid with hb | hrec' | ⟨x, hx, hxid, hd⟩ | ⟨x, hx, hxid⟩
    · exact .inl (hb.next hi hs hnow (by simp))
    · rw [hrecs] at hrec'
      rcases mem_cons.mp hrec' with rfl | hrest
      · right; right
        cases handed with
        | none => exact .inl ⟨v, mem_append_right _ (mem_singleton_self v),
            hdefer.id_eq, hdis rfl⟩
        | some x => exact .inr ⟨x, mem_append_right _ (mem_singleton_self x),
            (hleases x rfl).1.symm.trans hdefer.id_eq⟩
      · exact .inr (.inl hrest)
    · exact .inr (.inr (.inl ⟨x, mem_append_left _ hx, hxid, hd⟩))
    · exact .inr (.inr (.inr ⟨x, mem_append_left _ hx, hxid⟩))

/-- The commit of a claim: while a row waits, it hands one out. -/
theorem Passing.commit (hp : Passing h s log t) (hi : Inv p s) (ht : s.find tx = some t)
    (hclm : Claiming p settings t)
    (hlegacy : (s.rows.filter fun r => r.legacy p.serde).length < maxDiscardsPerClaim)
    (hs : step p s (.commit tx true) = some s') (hnow : h.nextAttemptAt ≤ s.now) :
    ∃ x, t.handed.getLast? = some x ∧ ∀ id ∈ log, Behind h s' id ∨ id = x.claim.deliveryId := by
  obtain ⟨hact, -⟩ := mem_of_find ht
  have hsd := hi.sound t hact
  obtain ⟨t', ht', hrecs, hloops, hs'⟩ := step_commit hs
  cases ht.symm.trans ht'
  have hone := hp.one
  rw [hrecs] at hone
  match hhan : t.handed with
  | [] =>
    -- the loop went on: nothing was drained, and there are too few rows to discard
    exfalso
    have hfew := (hclm.discarded_le hi hact).trans_lt hlegacy
    rcases hloops with hdelete | hloops
    · rw [hclm.work] at hdelete
      cases hdelete
    · simp [Open.loops, hhan, hp.going, hfew] at hloops
  | [x] =>
    refine ⟨x, rfl, fun id hid => ?_⟩
    rcases hp.past id hid with hb | hrec | ⟨v, hv, hvid, hd⟩ | ⟨y, hy, hyid⟩
    · exact .inl (hb.next hi hs hnow nofun)
    · rw [hrecs] at hrec
      cases hrec
    · obtain ⟨-, -, r, hr, hrid, -⟩ := hsd.written v hv
      refine .inl ⟨v, ?_, hvid, .inr (.inl hd)⟩
      rw [hs']
      exact version_mem_written hsd.keyed hv hr hrid
    · rw [hhan] at hy
      obtain rfl := mem_singleton.mp hy
      exact .inr hyid.symm
  | x :: y :: rest =>
    rw [hhan] at hone
    simp at hone

end Waiting

/-- A row that the worker has not selected yet. -/
theorem of_waits (hw : w.waits h = true) (hn : h.id ∉ w.log) :
    h ∈ w.table.rows ∧ h.due w.table.now w.table.participants = true ∧
      h.nextAttemptAt ≤ w.table.now ∧
      ∀ tx, w.phase = .claiming tx → w.table.unlocked tx h.id = true := by
  simp only [Worker.waits, Bool.or_eq_true, Bool.and_eq_true, contains_iff_mem, hn,
    false_or] at hw
  obtain ⟨⟨hm, hdue⟩, hfree⟩ := hw
  refine ⟨hm, hdue, ?_, fun tx hph => ?_⟩
  · unfold Handoff.due at hdue
    simp only [Bool.and_eq_true, decide_eq_true_eq] at hdue
    exact hdue.1.1.2
  · simpa [hph] using hfree

theorem Waited.next (hpublisher : settings.publisher = true) (hr : Running p settings w)
    (hord : w.orderly p m = true) (htime : w.inTime m = true) (hwaits : w.waits h = true)
    (hm : Moved p settings w m w') (hd : Deployed p settings)
    (hh : h.id ∈ w.log ∨ Waited settings h w) :
    h.id ∈ w'.log ∨ Waited settings h w' := by
  by_cases hnot : h.id ∈ w.log
  · exact .inl (log_subset hm hnot)
  obtain ⟨hnd, hpast⟩ := hh.resolve_left hnot
  obtain ⟨hmem, hdue, hnow, hfree⟩ := of_waits hwaits hnot
  simp only [Worker.orderly, Bool.and_eq_true, List.all_eq_true, decide_eq_true_eq] at hord
  obtain ⟨⟨hsend, hlegacy⟩, -⟩ := hord
  have hfine := hr.fine
  right
  cases hm with
  | @elsewhere a s halwd hs =>
    simp only [Worker.allows, Bool.and_eq_true] at halwd
    refine ⟨hnd, hpast.next hfine hr.inv hs ?_ hnow ?_⟩
    · intro tx htx
      simpa [htx] using halwd.1
    · rintro d l n e rfl
      exact of_decide_eq_true halwd.2
  | started hphase =>
    refine ⟨hnd, ?_⟩
    rcases hphase with hph | hph | ⟨e, hph⟩
    · rw [hph] at hpast
      exact hpast
    · rw [hph] at hpast
      exact hpast.2
    · -- no pass has failed
      rw [hph] at hfine
      exact hfine.elim
  | misconfigured => exact ⟨hnd, trivial⟩
  | unsent hoff =>
    rw [hpublisher] at hoff
    cases hoff
  | unsentFailed | refused => exact ⟨hnd, trivial⟩
  | exhausted hready hall =>
    rw [hready] at hpast
    exact ⟨hnd, hall, hpast⟩
  | @begun s hready hs =>
    rw [hready] at hpast
    have hold : ∀ id ∈ w.log, Behind h s id :=
      fun id hid => (hpast id hid).next hr.inv hs hnow (by simp)
    obtain rfl := step_beginClaim hs
    refine ⟨hnd, fun t ht => ?_⟩
    obtain rfl := Option.some.inj ((hr.inv.find_begin _).symm.trans ht)
    exact ⟨fun _ hid => absurd hid not_mem_nil, Nat.zero_le _, rfl,
      fun id hid => .inl (hold id hid)⟩
  | @selected tx t pick s hph ht hfst hs =>
    rw [hph] at hpast
    obtain ⟨id, rfl, hnew, hpassing⟩ := (hpast t ht).select hr.inv ht hfst hs hnot hmem hdue
      (hfree tx hph) hnow
    refine ⟨nodup_append.mpr ⟨hnd, nodup_singleton id, ?_⟩, ?_⟩
    · rintro x hx y hy rfl
      exact hnew (mem_singleton.mp hy ▸ hx)
    · rw [hph]
      exact hpassing
  | @handled tx t s hph ht hs =>
    have hn := handleError_eq_none hd hr.inv hsend (mem_of_find ht).1
    rw [hph] at hpast hfine
    obtain ⟨t', ht', hclm⟩ := hfine
    cases ht.symm.trans ht'
    refine ⟨hnd, ?_⟩
    rw [hn]
    exact (hpast t ht).handles hr.inv ht hclm hn hs hnow
  | @committed tx t s hph ht hs =>
    rw [hph] at hpast hfine
    obtain ⟨t', ht', hclm⟩ := hfine
    cases ht.symm.trans ht'
    obtain ⟨x, hlast, hall⟩ := (hpast t ht).commit hr.inv ht hclm hlegacy hs hnow
    refine ⟨hnd, ?_⟩
    rw [hlast]
    exact hall
  | authorized hph hs =>
    rw [hph] at hpast
    exact ⟨hnd, fun id hid =>
      (hpast id hid).imp_left fun hb => hb.next hr.inv hs hnow (by simp)⟩
  | unauthorized hph | published hph =>
    rw [hph] at hpast
    exact ⟨hnd, hpast⟩
  | @stored c outcome s hph hs =>
    rw [hph] at hpast hfine
    obtain ⟨hheld, authorized, hposs⟩ := hfine
    have hrecs : Records w.table c (recording p settings w.table c outcome).2 :=
      records_recording hposs (hheld.row hr.inv)
    have hbehind : Behind h s c.deliveryId := by
      refine hrecs.behind hr.inv hs hnow ?_
      simpa only [Worker.inTime, hph] using htime
    rw [hrecs.recorded]
    refine ⟨hnd, fun id hid => ?_⟩
    rcases hpast id hid with hb | rfl
    · exact hb.next hr.inv hs hnow fun _ _ _ _ => retry_of_recording
    · exact hbehind

/-! ### One handoff never stops the worker -/

/-- While the table is orderly, no pass fails, in any interleaving. And while some handoff waits
through passes whose rounds are recorded in time, the worker selects it, or no two rounds of these
passes have the same handoff and every pass makes all its rounds. -/
theorem no_handoff_stops_the_worker (p : Producer) (settings : Settings)
    (hd : Deployed p settings) :
    (∀ w, (passes p settings).ReachableWhile (fun w m => w.orderly p m = true) w →
      ∀ e, w.phase ≠ .failed e) ∧
    ∀ w w' h, settings.publisher = true →
      (passes p settings).ReachableWhile (fun w m => w.orderly p m = true) w → w.phase = .ready →
      (passes p settings).Steps (fun w m => w.orderly p m = true ∧ w.inTime m = true ∧
        w.waits h = true) { w with log := [] } w' →
      h.id ∈ w'.log ∨
        w'.log.Nodup ∧ (w'.phase = .finished → w'.processed = settings.rounds) := by
  constructor
  · intro w hw e hfailed
    have hfine := (Running.of_reachable hd hw).fine
    rw [hfailed] at hfine
    exact hfine
  · intro w w' h hpublisher hw hready hsteps
    have hstart : Running p settings { w with log := [] } ∧
        (h.id ∈ ({ w with log := [] } : Worker).log ∨ Waited settings h { w with log := [] }) := by
      obtain ⟨hinv, hspent, hfine⟩ := Running.of_reachable hd hw
      refine ⟨⟨hinv, hspent, hfine⟩, .inr ⟨nodup_nil, ?_⟩⟩
      simp only [hready]
      exact fun id hid => absurd hid not_mem_nil
    obtain ⟨-, hin | ⟨hnodup, hpast⟩⟩ := hsteps.preserves
      (I := fun w => Running p settings w ∧ (h.id ∈ w.log ∨ Waited settings h w))
      (fun x m x' ⟨hr, hx⟩ ⟨horderly, htime, hwaits⟩ hs =>
        ⟨hr.next hd horderly (moved_of_step hs),
          Waited.next hpublisher hr horderly htime hwaits (moved_of_step hs) hd hx⟩) hstart
    · exact .inl hin
    · refine .inr ⟨hnodup, fun hfinished => ?_⟩
      rw [hfinished] at hpast
      exact hpast.1

def demoSettings : Settings :=
  ⟨"worker-1", 30000, 2, 300000, true⟩

/-- A delivery to `zQo`. -/
def deliveryTo (id : Nat) : Reference :=
  ⟨id, ⟨.carbon, "zQo"⟩, 1, "c:ada::c:bob", 1, 1, "message.created", none, none⟩

def atRest (rows : List Handoff) : Worker :=
  ⟨⟨0, rows, [(1, ⟨.carbon, "zQo"⟩)], [], [], 0, [], [], [], []⟩, .idle, 0, []⟩

theorem atRest_init (rows : List Handoff) (hkd : (rows.map Handoff.id).Nodup)
    (hchk : ∀ h ∈ rows, h.violated p.serde = none) : (passes p settings).init (atRest rows) :=
  ⟨⟨hkd, hchk, rfl, rfl, rfl, rfl, rfl⟩, rfl⟩

def singleSettings : Settings :=
  ⟨"worker-1", 30000, 1, 300000, true⟩

theorem single_deployed : Deployed demoProducer singleSettings :=
  ⟨by decide, by decide +kernel, fun _ => rfl⟩

/-- Ting rejects the first of three deliveries in one pass and accepts the second in the next,
while the third waits. -/
theorem no_handoff_stops_the_worker_rejected :
    ∃ w w' : Worker, (passes demoProducer singleSettings).Steps (fun w m =>
        w.orderly demoProducer m = true ∧ w.inTime m = true ∧
          w.waits (.enqueued (deliveryTo 3) 0) = true) { w with log := [] } w' ∧
      w'.table.rows.any (·.lastErrorCode = some "recipient_not_registered") ∧ w'.log = [1, 2] ∧
      (3 ∈ w'.log ∨
        w'.log.Nodup ∧ (w'.phase = .finished → w'.processed = singleSettings.rounds)) ∧
      ∀ e, w.phase ≠ .failed e := by
  have hw := System.reachableWhile_get (M := passes demoProducer singleSettings)
    (C := fun w m => w.orderly demoProducer m = true) [.start]
    (atRest_init [.enqueued (deliveryTo 1) 0, .enqueued (deliveryTo 2) 0,
      .enqueued (deliveryTo 3) 0] (by decide) (by decide +kernel)) (by decide +kernel)
  have hresult := no_handoff_stops_the_worker demoProducer singleSettings single_deployed
  exact ⟨_, _, System.steps_get [.beginClaim, .select (some 1), .handle, .commit, .authorize,
      .publish (.failed (.rejected "recipient_not_registered")), .store, .beginClaim,
      .start, .beginClaim, .select (some 2), .handle, .commit, .authorize,
      .publish (.accepted "ting" 0 false), .store, .beginClaim] (by decide +kernel),
    by decide +kernel, by decide +kernel,
    hresult.2 _ _ (.enqueued (deliveryTo 3) 0) rfl hw (by decide +kernel) (System.steps_get _ _),
    hresult.1 _ hw⟩

/-- A producer that reads one request as another producer's. -/
def renamedProducer : Producer where
  serde := ⟨fun _ => some "request", fun body => some (.object [("type",
    .text (if body = "stale" then "chat.sync.changed" else "dm.sync.changed"))]), fun _ => true⟩
  display := fun _ => "delivery"
  appId := "dm"

/-- A stored request of another producer fails two passes in a row, while a delivery that is due
waits unclaimed; and an acceptance fails the pass when the account was deleted after the claim. -/
theorem handoffs_stop_the_worker :
    (∃ w w', (passes renamedProducer demoSettings).Reachable w ∧
      (passes renamedProducer demoSettings).Steps (fun _ _ => True) w w' ∧
      (w.phase = .failed (.conflict "prepared Ting request belongs to another producer") ∧
        w'.phase = w.phase) ∧
      ((Handoff.enqueued (deliveryTo 2) 1).due w.table.now w.table.participants = true ∧
        Handoff.enqueued (deliveryTo 2) 1 ∈ w'.table.rows) ∧ 2 ∉ w.log ∧ 2 ∉ w'.log) ∧
    ∃ w, (passes demoProducer demoSettings).Reachable w ∧ w.phase = .failed durableInvariant := by
  constructor
  · exact ⟨_, _, System.reachable_get (M := passes renamedProducer demoSettings)
      [.elsewhere (.tick 5), .start, .beginClaim, .select (some 1), .handle]
      (atRest_init [{ Handoff.enqueued (deliveryTo 1) 0 with requestBody := some "stale" },
        .enqueued (deliveryTo 2) 1] (by decide) (by decide +kernel)) (by decide +kernel),
      System.steps_get [.start, .beginClaim, .select (some 1), .handle] (by decide +kernel),
      by decide +kernel, by decide +kernel, by decide +kernel⟩
  · exact ⟨_, System.reachable_get (M := passes demoProducer demoSettings)
      [.start, .beginClaim, .select (some 1), .handle, .commit, .authorize,
        .elsewhere (.beginDelete "zQo"), .elsewhere (.commit 2 true),
        .publish (.accepted "ting" 0 false), .store]
      (atRest_init [.enqueued (deliveryTo 1) 0] (by decide) (by decide +kernel))
      (by decide +kernel), by decide +kernel⟩

end SiliconDm.Server.Ting
