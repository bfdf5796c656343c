import SiliconDm.Server.Passes

/-!
# Passes that do not fail

The transactions of other workers and of account deletions beside the worker's own, and the
invariant of a run over an orderly table: no pass fails.
-/

namespace SiliconDm.Server.Ting

open Base List Option

variable {p : Producer} {settings : Settings} {w w' : Worker} {m : Move} {s s' : State}
  {a : Action} {h v r : Handoff} {tx processed now leaseId id leaseMillis : Nat} {t : Open}
  {phase : Phase} {c : Claim} {publicId : Option String} {handed : Option Handed}

/-! ### Transactions of others -/

theorem active_alone {statement : Option Handoff → Except Refusal (Option Handoff)}
    (hs : s.alone id leaseId statement = some s') : s'.active = s.active := by
  unfold State.alone at hs
  split_ifs at hs
  split at hs
  all_goals
    cases hs
    rfl

/-- A handled row is discarded with the lease that has run out, for a reason that stays. -/
theorem handleRecord_discards {owner : String} (hkept : h.discard = none)
    (hr : handleRecord p now leaseId leaseMillis owner publicId h = .ok (v, handed)) :
    v.discard.isSome = handed.isNone ∧
      (v.discard.isSome = true → v.lease = h.lease ∧ (discardReason p.serde v).isSome = true) := by
  unfold handleRecord at hr
  split at hr
  case h_1 reason hd =>
    obtain ⟨new, hu, hr⟩ := bind_eq_ok.mp hr
    cases hr
    obtain ⟨rfl, -⟩ := update_eq_ok hu
    refine ⟨rfl, fun _ => ⟨rfl, ?_⟩⟩
    rw [← isSome_some (a := reason), ← hd]
    rfl
  case h_2 =>
    obtain ⟨body, -, hr⟩ := bind_eq_ok.mp hr
    obtain ⟨new, hu, hr⟩ := bind_eq_ok.mp hr
    obtain ⟨originator, -, hr⟩ := bind_eq_ok.mp hr
    cases hr
    obtain ⟨rfl, -⟩ := update_eq_ok hu
    simp [hkept]

/-- The open transactions after a step: most statements leave them. A claim discards rows whose
lease has run out; a deletion takes them as they are. -/
inductive Active (s : State) : Action → State → Prop
  | same {a : Action} {s' : State} (h : s'.active = s.active) : Active s a s'
  | begun {a : Action} {work : Work} {writes : List Handoff} (htx : a.transaction = none)
      (hwrites : ∀ v ∈ writes, ∃ r ∈ s.rows, a = .beginDelete r.reference.target.id ∧
        v.lease = r.lease) : Active s a (s.begin work writes)
  | replaced {a : Action} {t : Open} {s' : State} (t' : Open) (ht : s.find t.id = some t)
      (hid : t'.id = t.id) (htx : a.transaction = some t.id)
      (hwrites : ∀ v ∈ t'.writes, v ∈ t.writes ∨
        (v.discard.isSome = true → ∀ l ∈ v.lease, l.expiresAt ≤ s.now))
      (h : s'.active = put Open.id t' s.active) : Active s a s'
  | closed {a : Action} {tx : Nat} {s' : State} (htx : a.transaction = some tx)
      (h : s'.active = s.active.filter (·.id ≠ tx)) : Active s a s'

theorem Inv.active (hi : Inv p s) (hs : step p s a = some s') : Active s a s' := by
  cases a with
  | tick elapsed | outside participants publicIds =>
    cases hs
    exact .same rfl
  | enqueue reference | authorize c | send c =>
    simp only [step] at hs
    split_ifs at hs
    cases hs
    exact .same rfl
  | beginClaim owner limit leaseMillis =>
    obtain rfl := step_beginClaim hs
    exact .begun rfl fun _ hv => absurd hv not_mem_nil
  | select tx picks =>
    obtain ⟨t, _, _, _, ht, -, hsel⟩ := step_select hs
    obtain ⟨-, rfl⟩ := mem_of_find ht
    unfold State.select at hsel
    split_ifs at hsel
    cases hsel
    exact .replaced { t with
      locks := t.locks ++ picks
      records := picks
      drained := picks.isEmpty } ht rfl rfl (fun v hv => .inl hv) rfl
  | handle tx =>
    obtain ⟨t, _, _, _, ht, -, hhdl⟩ := step_handle hs
    obtain ⟨hmem, rfl⟩ := mem_of_find ht
    obtain ⟨records, r, -, -, -, hidle, -, -, hhandles⟩ := hi.handles hmem hhdl
    cases hhandles with
    | failed => exact .closed rfl rfl
    | @written v handed hrec =>
      refine .replaced (t.handles records v handed) ht rfl rfl (fun x hx => ?_) rfl
      rcases mem_append.mp hx with hx | hx
      · exact .inl hx
      · right
        intro hd l hl
        obtain rfl := mem_singleton.mp hx
        obtain ⟨hls, -⟩ := (handleRecord_discards hidle.kept hrec).2 hd
        exact hidle.unleased l (hls ▸ hl)
  | beginDelete uuid =>
    obtain ⟨writes, hm, -, rfl⟩ := step_beginDelete hs
    refine .begun rfl fun v hv => ?_
    obtain ⟨r, hr, rfl, -⟩ := mem_discards hm hv
    obtain ⟨hr, hopen⟩ := mem_filter.mp hr
    simp only [Bool.and_eq_true, decide_eq_true_eq] at hopen
    exact ⟨r, hr, by rw [hopen.1.1], rfl⟩
  | commit tx reply =>
    obtain ⟨t, ht, -, -, rfl⟩ := step_commit hs
    exact .closed rfl rfl
  | rollback tx =>
    obtain ⟨t, -, rfl⟩ := map_eq_some_iff.mp hs
    exact .closed rfl rfl
  | accept deliveryId leaseId tingId createdAt silent
  | retry deliveryId leaseId nextAttemptAt errorCode => exact .same (active_alone hs)
  | discard reason picks =>
    simp only [step] at hs
    split at hs
    all_goals
      cases hs
      exact .same rfl

/-- A transaction that a step does not continue stays as it is. -/
theorem Active.find (h : Active s a s') (ht : s.find tx = some t) (hne : a.transaction ≠ some tx) :
    s'.find tx = some t := by
  unfold State.find at *
  cases h with
  | same h => rw [h, ht]
  | begun htx =>
    unfold getRow at *
    rw [State.begin, find?_append, ht, some_or]
  | replaced _ _ hid htx _ h =>
    rw [h, getRow_put, if_neg, ht]
    rintro rfl
    exact hne (hid ▸ htx)
  | closed htx h =>
    rw [h, getRow_filter_of_true, ht]
    rintro r rfl
    exact decide_eq_true fun hid => hne (hid ▸ htx)

/-! ### Discards and leases -/

/-- Open transactions discard only rows without a running lease. -/
def Spent (s : State) : Prop :=
  ∀ t ∈ s.active, ∀ v ∈ t.writes, v.discard.isSome = true → ∀ l ∈ v.lease, l.expiresAt ≤ s.now

theorem Spent.next (hi : Inv p s) (h : Spent s) (hs : step p s a = some s')
    (hdelete : ∀ uuid, a = .beginDelete uuid → ∀ r ∈ s.rows, r.reference.target.id = uuid →
      ∀ l ∈ r.lease, l.expiresAt ≤ s.now) : Spent s' := by
  have hnow := (hi.moves hs).now
  intro u hu v hv hd l hl
  refine le_trans ?_ hnow
  cases hi.active hs with
  | same hsame => exact h u (hsame ▸ hu) v hv hd l hl
  | closed _ hclosed =>
    rw [hclosed] at hu
    exact h u (mem_of_mem_filter hu) v hv hd l hl
  | begun _ hws =>
    rcases mem_concat.mp hu with hu | rfl
    · exact h u hu v hv hd l hl
    · obtain ⟨r, hr, rfl, hls⟩ := hws v hv
      exact hdelete _ rfl r hr rfl l (hls ▸ hl)
  | @replaced t _ t' ht _ _ hws hreplaced =>
    rw [hreplaced] at hu
    rcases mem_put hu with rfl | ⟨hu, -⟩
    · rcases hws v hv with hold | hspt
      · exact h t (mem_of_find ht).1 v hold hd l hl
      · exact hspt hd l hl
    · exact h u hu v hv hd l hl

/-- A row of a step: an old one, or one that is not discarded or has no running lease. -/
theorem Spent.row (hi : Inv p s) (h : Spent s) (hs : step p s a = some s') (hr : r ∈ s'.rows) :
    r ∈ s.rows ∨ r.discard = none ∨ ∀ l ∈ r.lease, l.expiresAt ≤ s.now := by
  rcases (hi.moves hs).rows.of_mem hr with ⟨old, hold, he⟩ | ⟨reference, rfl⟩
  case inr => exact .inr (.inl rfl)
  cases he with
  | kept => exact .inl hold
  | accepted | retried => exact .inr (.inr nofun)
  | committed =>
    obtain ⟨t, ht, -, -, rfl⟩ := step_commit hs
    rcases of_mem_written hr with hver | ⟨hkept, -⟩
    · by_cases hd : r.discard.isSome = true
      · exact .inr (.inr fun l hl => h t (mem_of_find ht).1 r hver hd l hl)
      · exact .inr (.inl (not_isSome_iff_eq_none.mp hd))
    · exact .inl hkept
  | discarded =>
    simp only [step] at hs
    split at hs
    case h_1 =>
      cases hs
      exact .inl hr
    case h_2 writes hm =>
      cases hs
      rcases of_mem_written hr with hver | ⟨hkept, -⟩
      · obtain ⟨-, -, hm⟩ := bind_eq_ok.mp hm
        obtain ⟨chosen, hchosen, heq, -⟩ := mem_discards hm hver
        obtain ⟨-, hopen⟩ := mem_filter.mp hchosen
        simp only [Handoff.unsent, Bool.and_eq_true, Option.all_eq_true,
          decide_eq_true_eq] at hopen
        right; right
        rw [heq]
        exact hopen.2.2
      · exact .inl hkept

/-! ### The worker's own claim -/

/-- The transaction of the worker's claim: what it discards was to be discarded. -/
structure Claiming (p : Producer) (settings : Settings) (t : Open) : Prop where
  work : t.work = .claim settings.instanceId 1 settings.leaseMillis
  discarded : t.discarded ≤ (t.writes.filter (·.discard.isSome)).length
  reasons : ∀ v ∈ t.writes, v.discard.isSome = true → (discardReason p.serde v).isSome = true

/-- A claim in the worker's hands: its row is not discarded while its lease runs. -/
structure Held (s : State) (c : Claim) : Prop where
  handed : ∃ x ∈ s.handed, x.claim = c
  kept : ∀ h ∈ s.rows, h.id = c.deliveryId → h.leasedTo s.now c.leaseId = true → h.discard = none

theorem leasedTo_of_le {now' : Nat} (hle : now ≤ now') (hl : h.leasedTo now' leaseId = true) :
    h.leasedTo now leaseId = true := by
  unfold Handoff.leasedTo at *
  obtain ⟨l, hls, hl⟩ := (Option.any_eq_true _ _).mp hl
  simp only [Bool.and_eq_true, decide_eq_true_eq] at hl
  rw [hls, any_some, Bool.and_eq_true, decide_eq_true_eq, decide_eq_true_eq]
  exact ⟨hl.1, by omega⟩

theorem not_leasedTo_of_spent (hspt : ∀ l ∈ h.lease, l.expiresAt ≤ now) :
    h.leasedTo now leaseId ≠ true := by
  intro hl
  obtain ⟨l, hls, hl⟩ := (Option.any_eq_true _ _).mp hl
  simp only [Bool.and_eq_true, decide_eq_true_eq] at hl
  have := hspt l hls
  omega

theorem Held.next (hheld : Held s c) (hi : Inv p s) (hspt : Spent s) (hs : step p s a = some s') :
    Held s' c where
  handed := by
    obtain ⟨x, hx, hc⟩ := hheld.handed
    exact ⟨x, (hi.moves hs).kept x hx, hc⟩
  kept := by
    intro h hh hid hls
    have hls := leasedTo_of_le (hi.moves hs).now hls
    rcases hspt.row hi hs hh with hold | hkept | hrun
    · exact hheld.kept h hold hid hls
    · exact hkept
    · exact absurd hls (not_leasedTo_of_spent hrun)

/-- The claim that a commit hands out. -/
theorem Held.of_commit (hi : Inv p s) (hspt : Spent s) (ht : t ∈ s.active) {x : Handed}
    (hx : x ∈ t.handed) :
    Held { s.close t.id with
      rows := written t.writes s.rows
      handed := s.handed ++ if true then t.handed else [] } x.claim where
  handed := ⟨x, mem_append_right _ hx, rfl⟩
  kept := by
    intro h hh hid hls
    rcases of_mem_written hh with hver | ⟨-, hn⟩
    · by_contra hd
      exact not_leasedTo_of_spent
        (hspt t ht h hver (isSome_iff_ne_none.mpr hd)) hls
    · -- the leased version has replaced the row
      obtain ⟨v, hv, hvid, -⟩ := (hi.sound t ht).handed x hx
      exact absurd (hvid.trans hid.symm) (hn v hv)

theorem Claiming.begin : Claiming p settings
    ⟨tx, .claim settings.instanceId 1 settings.leaseMillis, [], [], [], [], 0, false⟩ :=
  ⟨rfl, Nat.zero_le _, fun _ hv => absurd hv not_mem_nil⟩

theorem Claiming.handles (h : Claiming p settings t) {records : List Nat} {owner : String}
    (hkept : r.discard = none)
    (hr : handleRecord p now leaseId leaseMillis owner publicId r = .ok (v, handed)) :
    Claiming p settings (t.handles records v handed) where
  work := h.work
  discarded := by
    have hd := (handleRecord_discards hkept hr).1
    have hold := h.discarded
    simp only [Open.handles, filter_append, length_append, filter_singleton, hd]
    cases handed with
    | none | some x => simpa using hold
  reasons := by
    exact forall_mem_concat.mpr
      ⟨h.reasons, fun hd => ((handleRecord_discards hkept hr).2 hd).2⟩

/-- A claim discards no more rows than there are to discard. -/
theorem Claiming.discarded_le (h : Claiming p settings t) (hi : Inv p s) (ht : t ∈ s.active) :
    t.discarded ≤ (s.rows.filter fun r => r.legacy p.serde).length := by
  have hsub : (t.writes.filter (·.discard.isSome)).map Handoff.id ⊆
      (s.rows.filter fun r => r.legacy p.serde).map Handoff.id := by
    intro id hid
    obtain ⟨v, hv, rfl⟩ := List.mem_map.mp hid
    obtain ⟨hv, hd⟩ := mem_filter.mp hv
    have hreason := h.reasons v hv hd
    obtain ⟨-, -, r, hr, hrid, hdefer⟩ := (hi.sound t ht).written v hv
    cases hdefer with
    | leased hidle =>
      rw [hidle.kept] at hd
      cases hd
    | discarded hopen hkept =>
      refine List.mem_map.mpr ⟨r, mem_filter.mpr ⟨hr, ?_⟩, hrid⟩
      simp only [Handoff.legacy, hopen, hkept, isNone_none, Bool.true_and]
      exact hreason
  have hnd : ((t.writes.filter (·.discard.isSome)).map Handoff.id).Nodup :=
    (hi.sound t ht).keyed.filter _
  have hlen := (hnd.subperm hsub).length_le
  rw [length_map, length_map] at hlen
  exact h.discarded.trans hlen

/-! ### No pass fails -/

def Fine (p : Producer) (settings : Settings) (s : State) : Phase → Prop
  | .claiming tx => ∃ t, s.find tx = some t ∧ Claiming p settings t
  | .claimed c => Held s c
  | .publishing c _ => Held s c
  | .storing c outcome => Held s c ∧ ∃ authorized, outcome.possible authorized = true
  | .failed _ => False
  | _ => True

theorem Fine.next (h : Fine p settings s phase) (hi : Inv p s) (hspt : Spent s)
    (hs : step p s a = some s') (htx : ∀ tx, phase = .claiming tx → a.transaction ≠ some tx) :
    Fine p settings s' phase := by
  cases phase with
  | claiming tx =>
    obtain ⟨t, ht, hclm⟩ := h
    exact ⟨t, (hi.active hs).find ht (htx tx rfl), hclm⟩
  | claimed c | publishing c _ => exact Held.next h hi hspt hs
  | storing c outcome => exact ⟨h.1.next hi hspt hs, h.2⟩
  | failed e => exact h
  | idle | ready | finished => trivial

structure Running (p : Producer) (settings : Settings) (w : Worker) : Prop where
  inv : Inv p w.table
  spent : Spent w.table
  fine : Fine p settings w.table w.phase

/-- The deployment: its arguments pass, and every document can be written. -/
structure Deployed (p : Producer) (settings : Settings) : Prop where
  lease : 500 < settings.leaseMillis
  arguments : claimArguments p settings.instanceId 1 settings.leaseMillis = .ok ()
  writes : ∀ v, (p.serde.toText v).isSome = true

theorem Deployed.owner (h : Deployed p settings) :
    lengthBetween 1 255 settings.instanceId = true := by
  obtain ⟨_, hok, -⟩ := bind_eq_ok.mp h.arguments
  obtain ⟨hne, hsize, -⟩ := validateText_eq_ok.mp hok
  exact lengthBetween_of_text hne hsize

theorem Running.moved (h : Running p settings w) {s : State} {log : List Nat}
    (hs : step p w.table a = some s)
    (hdelete : ∀ uuid, a = .beginDelete uuid → ∀ r ∈ w.table.rows,
      r.reference.target.id = uuid → ∀ l ∈ r.lease, l.expiresAt ≤ w.table.now)
    (hfine : Fine p settings s phase) : Running p settings ⟨s, phase, processed, log⟩ :=
  ⟨h.inv.next (h.inv.moves hs), h.spent.next h.inv hs hdelete, hfine⟩

theorem discarding_eq_ok (hi : Inv p s) (reason : String) (picks : List Nat)
    (hval : validateText reason "Ting discard reason" = .ok ()) :
    ∃ writes, s.discarding p reason picks = .ok writes := by
  obtain ⟨hne, hsize, -⟩ := validateText_eq_ok.mp hval
  refine ⟨_, bind_eq_ok.mpr ⟨(), hval,
    mapM_of_forall (g := fun r => { r with discard := some ⟨s.now, reason⟩ }) fun r hr => ?_⟩⟩
  obtain ⟨hr, hopen⟩ := mem_filter.mp hr
  simp only [Handoff.unsent, Bool.and_eq_true, isNone_iff_eq_none] at hopen
  exact update_discard (hi.checked r hr) hopen.2.1.1 (lengthBetween_of_text hne hsize)

/-- The row of a claim in the worker's hands. -/
theorem Held.row (h : Held s c) (hi : Inv p s) :
    ∀ r ∈ s.row c.deliveryId, r.violated p.serde = none ∧ r.requestBody.isSome = true ∧
      (r.leasedTo s.now c.leaseId = true → r.discard = none) := by
  intro r hr
  obtain ⟨hm, hid⟩ := mem_of_getRow_eq_some hr
  obtain ⟨x, hx, rfl⟩ := h.handed
  obtain ⟨r', hr', hid', hbody⟩ := hi.bodies x hx
  obtain rfl := hi.keyed.unique hm hr' (hid.trans hid'.symm)
  exact ⟨hi.checked r hm, by rw [hbody]; rfl, h.kept r hm hid⟩

/-- Handling a row of an orderly table goes well. -/
theorem handleError_eq_none (hd : Deployed p settings) (hi : Inv p s)
    (hsend : ∀ h ∈ s.rows, h.sendable p s.publicIds = true) (ht : t ∈ s.active) :
    s.handleError p t settings.instanceId settings.leaseMillis = none := by
  unfold State.handleError
  cases hrecs : t.records with
  | nil => rfl
  | cons id records =>
    obtain ⟨-, hnew, r, hr, rfl, hidle⟩ := (hi.sound t ht).selected id (by rw [hrecs]; simp)
    have hrow : s.row r.id = some r := hi.keyed.getRow_eq_some_iff.mpr ⟨hr, rfl⟩
    obtain ⟨result, hok⟩ := exists_handleRecord hd.writes (hsend r hr) s.fresh
      settings.leaseMillis hidle (hi.checked r hr) hd.owner
    simp only [head?_cons, bind_some, seen_of_no_write hnew, hrow, hok]

theorem Locked.find_begin (h : Locked p s) (work : Work) : (s.begin work []).find s.fresh =
    some ⟨s.fresh, work, [], [], [], [], 0, false⟩ := by
  have hn : s.find s.fresh = none := getRow_eq_none_iff.mpr fun t ht => (h.below t ht).ne
  unfold State.find at *
  rw [State.begin, getRow_append_singleton, hn]
  simp

theorem find_replace : (s.replace t).find t.id = some t := by
  unfold State.find State.replace
  rw [getRow_put, if_pos rfl]

/-- The transaction after its `SELECT`. -/
theorem find_select {picks : List Nat} (ht : s.find tx = some t)
    (hs : step p s (.select tx picks) = some s') :
    (t.records = [] ∧ t.loops = true ∧ ∀ id ∈ picks, ∃ k, s.seen t id = some k ∧
      k.due s.now s.participants = true) ∧
    s'.find tx = some { t with
      locks := t.locks ++ picks
      records := picks
      drained := picks.isEmpty } := by
  obtain ⟨t', _, _, _, ht', -, hsel⟩ := step_select hs
  cases ht.symm.trans ht'
  obtain ⟨-, rfl⟩ := mem_of_find ht
  unfold State.select at hsel
  split_ifs at hsel with hok
  cases hsel
  simp only [Bool.and_eq_true, List.isEmpty_iff, List.all_eq_true] at hok
  exact ⟨⟨hok.1.1.1.1, hok.1.1.1.2, fun id hid => (Option.any_eq_true _ _).mp (hok.2 id hid).2⟩,
    find_replace⟩

/-- The worker's transaction after a row that it handled well. -/
theorem find_handle (hi : Inv p s) (ht : s.find tx = some t) (hclm : Claiming p settings t)
    (hok : s.handleError p t settings.instanceId settings.leaseMillis = none)
    (hs : step p s (.handle tx) = some s') :
    ∃ records, ∃ r ∈ s.rows, t.records = r.id :: records ∧ r.Idle s.now ∧ ∃ v handed,
      handleRecord p s.now s.fresh settings.leaseMillis settings.instanceId
        (s.publicIds.lookup r.reference.target.id) r = .ok (v, handed) ∧
      s'.find tx = some (t.handles records v handed) := by
  obtain ⟨t', owner, limit, leaseMillis, ht', hwork, hhdl⟩ := step_handle hs
  cases ht.symm.trans ht'
  obtain ⟨hm, rfl⟩ := mem_of_find ht
  cases hclm.work.symm.trans hwork
  obtain ⟨records, r, hr, hrecs, hseen, hidle, -, -, hhandles⟩ := hi.handles hm hhdl
  refine ⟨records, r, hr, hrecs, hidle, ?_⟩
  cases hhandles with
  | failed he =>
    unfold State.handleError at hok
    simp only [hrecs, head?_cons, bind_some, hseen, he] at hok
    cases hok
  | @written v handed hrec => exact ⟨v, handed, hrec, find_replace⟩

/-- The end of a round. -/
theorem Records.recorded {result : Except Refusal (Option Handoff)} (h : Records s c result)
    (s' : State) :
    w.recorded s' result =
      { w with table := s', phase := .ready, processed := w.processed + 1 } := by
  cases h with
  | progress | settled | lost => rfl

/-- One step of the worker or of anyone else. -/
theorem Running.next (hd : Deployed p settings) (h : Running p settings w)
    (hord : w.orderly p m = true) (hm : Moved p settings w m w') : Running p settings w' := by
  simp only [Worker.orderly, Bool.and_eq_true, List.all_eq_true] at hord
  obtain ⟨⟨hsend, -⟩, hdelete⟩ := hord
  have hfine := h.fine
  cases hm with
  | @elsewhere a s halwd hs =>
    refine h.moved hs ?_ (hfine.next h.inv h.spent hs ?_)
    · rintro uuid rfl r hr rfl l hl
      have hspt := List.all_eq_true.mp hdelete r hr
      simp only [ne_eq, not_true_eq_false, decide_false, Bool.false_or, Option.all_eq_true,
        decide_eq_true_eq] at hspt
      exact hspt l hl
    · intro tx htx
      simp only [Worker.allows, htx, Bool.and_eq_true, decide_eq_true_eq] at halwd
      exact halwd.1
  | started | exhausted => exact ⟨h.inv, h.spent, trivial⟩
  | misconfigured hls => exact absurd hls (by have := hd.lease; omega)
  | unsent _ hs => exact h.moved hs nofun trivial
  | @unsentFailed picks e he =>
    obtain ⟨writes, hok⟩ := discarding_eq_ok h.inv "ting_not_configured" picks (by decide +kernel)
    rw [hok] at he
    cases he
  | refused he =>
    rw [hd.arguments] at he
    cases he
  | begun _ hs =>
    refine h.moved hs nofun ?_
    obtain rfl := step_beginClaim hs
    exact ⟨_, h.inv.find_begin _, Claiming.begin⟩
  | @selected tx t pick s hph ht hfst hs =>
    refine h.moved hs nofun ?_
    rw [hph] at hfine ⊢
    obtain ⟨t', ht', hclm⟩ := hfine
    cases ht.symm.trans ht'
    exact ⟨_, (find_select ht hs).2, hclm.work, hclm.discarded, hclm.reasons⟩
  | @handled tx t s hph ht hs =>
    have hn := handleError_eq_none hd h.inv hsend (mem_of_find ht).1
    refine h.moved hs nofun ?_
    rw [hph] at hfine
    obtain ⟨t', ht', hclm⟩ := hfine
    cases ht.symm.trans ht'
    obtain ⟨records, r, -, -, hidle, v, handed, hrec, hfind⟩ :=
      find_handle h.inv ht hclm hn hs
    rw [hn]
    exact ⟨_, hfind, hclm.handles hidle.kept hrec⟩
  | @committed tx t s hph ht hs =>
    refine h.moved hs nofun ?_
    cases hlast : t.handed.getLast? with
    | none => trivial
    | some x =>
      obtain ⟨t', ht', -, -, rfl⟩ := step_commit hs
      cases ht.symm.trans ht'
      obtain ⟨hmem, rfl⟩ := mem_of_find ht
      exact Held.of_commit h.inv h.spent hmem (mem_of_getLast? hlast)
  | authorized hph hs =>
    rw [hph] at hfine
    exact h.moved hs nofun (Held.next hfine h.inv h.spent hs)
  | unauthorized hph =>
    rw [hph] at hfine
    exact ⟨h.inv, h.spent, hfine⟩
  | published hph hposs =>
    rw [hph] at hfine
    exact ⟨h.inv, h.spent, hfine, _, hposs⟩
  | @stored c outcome s hph hs =>
    rw [hph] at hfine
    obtain ⟨hheld, authorized, hposs⟩ := hfine
    rw [(records_recording hposs (hheld.row h.inv)).recorded]
    refine h.moved hs ?_ trivial
    cases outcome <;> exact nofun

theorem Running.of_reachable (hd : Deployed p settings)
    (h : (passes p settings).ReachableWhile (fun w m => w.orderly p m = true) w) :
    Running p settings w := by
  refine h.invariant ?_ fun w m w' hr hc hs => hr.next hd hc (moved_of_step hs)
  rintro w ⟨hinit, hidle⟩
  refine ⟨.of_initial hinit, ?_, ?_⟩
  · intro t ht
    rw [hinit.active] at ht
    cases ht
  · rw [hidle]
    trivial

end SiliconDm.Server.Ting
