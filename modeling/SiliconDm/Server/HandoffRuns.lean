import SiliconDm.Server.Handoffs

/-!
# Runs of the workers

What holds of the table of handoffs in every interleaving, from what one step does to it: one
owner and one request for every handoff.
-/

namespace SiliconDm.Server.Ting

open Base List Option

variable {p : Producer} {s s' : State} {a : Action} {serde : Serde} {h h' : Handoff}
  {now id leaseId leaseMillis tx limit : Nat} {t : Open} {owner uuid : String}
  {new : Handoff → Handoff} {settled : Handoff → Bool} {rows writes : List Handoff} {d : Discard}
  {picks : List Nat}

/-! ### The invariant -/

structure Inv (p : Producer) (s : State) : Prop extends Locked p s where
  keyed : Keyed Handoff.id s.rows
  checked : ∀ h ∈ s.rows, h.violated p.serde = none
  bodies : ∀ x ∈ s.handed, ∃ h ∈ s.rows, h.id = x.claim.deliveryId ∧
    h.requestBody = some x.claim.requestBody
  current : ∀ x ∈ s.handed, s.now < x.expiresAt → x.claim.leaseId ∉ s.returned →
    ∃ h ∈ s.rows, h.id = x.claim.deliveryId ∧
      ∃ l, h.lease = some l ∧ l.id = x.claim.leaseId ∧ l.expiresAt = x.expiresAt
  authorized : ∀ c ∈ s.authorized, ∃ x ∈ s.handed, x.claim = c
  sent : ∀ c ∈ s.sent, ∃ x ∈ s.handed, x.claim = c

theorem Inv.of_initial (h : Initial p s) : Inv p s where
  ids := by
    rw [h.active]
    exact nodup_nil
  below := by simp [h.active]
  exclusive := by simp [h.active]
  sound := by simp [h.active]
  keyed := h.keyed
  checked := h.checked
  bodies := by simp [h.handed]
  current := by simp [h.handed]
  authorized := by simp [h.authorized]
  sent := by simp [h.sent]

theorem Rows.keyed (hr : Rows p s a rows) (hk : Keyed Handoff.id s.rows) :
    Keyed Handoff.id rows := by
  cases hr with
  | @affected f he _ =>
    have hids : s.rows.map (Handoff.id ∘ f) = s.rows.map Handoff.id :=
      map_congr_left fun h hh => (he h hh).id_eq
    unfold Keyed at *
    rw [List.map_map, hids]
    exact hk
  | enqueued reference hnew => exact hk.append_singleton hnew

theorem Rows.checked (hr : Rows p s a rows) (hc : ∀ h ∈ s.rows, h.violated p.serde = none) :
    ∀ h ∈ rows, h.violated p.serde = none := by
  intro h hh
  cases hr with
  | affected _ hv =>
    obtain ⟨r, hr, rfl⟩ := List.mem_map.mp hh
    rcases hv r hr with heq | hnew
    · rw [heq]
      exact hc r hr
    · exact hnew
  | enqueued reference _ =>
    rcases mem_append.mp hh with hh | hh
    · exact hc h hh
    · rw [mem_singleton.mp hh]
      rfl

/-- Every row has a successor under the action. -/
theorem Rows.exists_effect (hr : Rows p s a rows) (hh : h ∈ s.rows) :
    ∃ h' ∈ rows, Effect s.now a h h' := by
  cases hr with
  | @affected f he _ => exact ⟨f h, List.mem_map_of_mem hh, he h hh⟩
  | enqueued reference _ => exact ⟨h, mem_append_left _ hh, .kept⟩

/-- Every row is the successor of one, or new. -/
theorem Rows.of_mem (hr : Rows p s a rows) (hh : h' ∈ rows) :
    (∃ h ∈ s.rows, Effect s.now a h h') ∨ ∃ reference, h' = .enqueued reference s.now := by
  cases hr with
  | @affected f he _ =>
    obtain ⟨h, hm, rfl⟩ := List.mem_map.mp hh
    exact .inl ⟨h, hm, he h hm⟩
  | enqueued reference _ =>
    rcases mem_append.mp hh with hh | hh
    · exact .inl ⟨h', hh, .kept⟩
    · exact .inr ⟨reference, mem_singleton.mp hh⟩

def Action.lease : Action → Option Nat
  | .accept _ leaseId _ _ _ => some leaseId
  | .retry _ leaseId _ _ => some leaseId
  | _ => none

/-- A running lease stays, unless the action is its holder's. -/
theorem Effect.lease (he : Effect now a h h') {l : Lease} (hl : h.lease = some l)
    (hruns : now < l.expiresAt) : h'.lease = some l ∨ a.lease = some l.id := by
  have hmine : ∀ {leaseId : Nat}, h.leasedTo now leaseId = true → l.id = leaseId := by
    intro leaseId hls
    unfold Handoff.leasedTo at hls
    rw [hl] at hls
    simp only [any_some, Bool.and_eq_true, decide_eq_true_eq] at hls
    exact hls.1
  cases he with
  | kept | discarded => exact .inl hl
  | committed hd =>
    cases hd with
    | leased hi _ =>
      have := hi.unleased l hl
      omega
    | discarded => exact .inl hl
  | accepted hls _ | retried hls _ => exact .inr (congrArg some (hmine hls).symm)

/-- What a step does: its locks and rows, a holder that changes a row returns its lease, and
what is newly handed out is leased. -/
structure Moves (p : Producer) (s : State) (a : Action) (s' : State) : Prop where
  locked : Locked p s'
  rows : Rows p s a s'.rows
  now : s.now ≤ s'.now
  returned : ∀ id ∈ s.returned, id ∈ s'.returned
  own : s'.rows = s.rows ∨ ∀ id ∈ a.lease, id ∈ s'.returned
  handed : ∀ x ∈ s'.handed, x ∈ s.handed ∨ ∃ h ∈ s'.rows, Leases h x
  kept : ∀ x ∈ s.handed, x ∈ s'.handed
  authorized : ∀ c ∈ s'.authorized, c ∈ s.authorized ∨ ∃ x ∈ s.handed, x.claim = c
  sent : ∀ c ∈ s'.sent, c ∈ s.sent ∨ c ∈ s.authorized

theorem Inv.next (h : Inv p s) (m : Moves p s a s') : Inv p s' where
  toLocked := m.locked
  keyed := m.rows.keyed h.keyed
  checked := m.rows.checked h.checked
  bodies := by
    intro x hx
    rcases m.handed x hx with hold | ⟨r, hr, hid, hbody, -⟩
    · obtain ⟨r, hr, hid, hbody⟩ := h.bodies x hold
      obtain ⟨r', hr', he⟩ := m.rows.exists_effect hr
      exact ⟨r', hr', he.id_eq.trans hid, he.requestBody hbody⟩
    · exact ⟨r, hr, hid, hbody⟩
  current := by
    intro x hx hruns hn
    have hnow := m.now
    rcases m.handed x hx with hold | ⟨r, hr, hid, -, hls⟩
    · obtain ⟨r, hr, hid, l, hl, hlid, hend⟩ :=
        h.current x hold (by omega) fun hm => hn (m.returned _ hm)
      rcases m.own with hsame | hown
      · exact ⟨r, hsame ▸ hr, hid, l, hl, hlid, hend⟩
      · obtain ⟨r', hr', he⟩ := m.rows.exists_effect hr
        rcases he.lease hl (by omega) with hkeep | hmine
        · exact ⟨r', hr', he.id_eq.trans hid, l, hkeep, hlid, hend⟩
        · exact absurd (hlid ▸ hown _ hmine) hn
    · exact ⟨r, hr, hid, hls⟩
  authorized := by
    intro c hc
    obtain ⟨x, hx, rfl⟩ := (m.authorized c hc).elim (h.authorized c) id
    exact ⟨x, m.kept x hx, rfl⟩
  sent := by
    intro c hc
    obtain ⟨x, hx, rfl⟩ := (m.sent c hc).elim (h.sent c) (h.authorized c)
    exact ⟨x, m.kept x hx, rfl⟩

/-! ### Steps -/

/-- A step that leaves the rows and what was handed out. -/
theorem Moves.quiet (hlk : Locked p s') (hrs : s'.rows = s.rows) (hnow : s.now ≤ s'.now)
    (hhan : s'.handed = s.handed) (hreturned : s'.returned = s.returned)
    (hauthorized : s'.authorized = s.authorized) (hsent : s'.sent = s.sent) : Moves p s a s' where
  locked := hlk
  rows := by
    rw [hrs]
    exact .same
  now := hnow
  returned := by
    rw [hreturned]
    exact fun _ h => h
  own := .inl hrs
  handed := by
    rw [hhan]
    exact fun _ h => .inl h
  kept := by
    rw [hhan]
    exact fun _ h => h
  authorized := by
    rw [hauthorized]
    exact fun _ h => .inl h
  sent := by
    rw [hsent]
    exact fun _ h => .inl h

/-- The `SELECT` of a claim locks free rows that are due. -/
theorem Inv.moves_select (h : Inv p s) (ht : t ∈ s.active) (hs : s.select t limit picks = some s') :
    Moves p s a s' := by
  unfold State.select at hs
  split_ifs at hs with hok
  cases hs
  simp only [Bool.and_eq_true, List.isEmpty_iff, List.all_eq_true, decide_eq_true_eq] at hok
  obtain ⟨⟨⟨⟨-, hloops⟩, -⟩, hnd⟩, hpicks⟩ := hok
  have hsd := h.sound t ht
  refine Moves.quiet (h.toLocked.replace ht ?_ rfl ?_) rfl le_rfl rfl rfl rfl rfl
  · refine ⟨hsd.keyed, ?_, hsd.versions, hnd, ?_, hsd.handed⟩
    · intro w hw
      obtain ⟨hlock, hrest⟩ := hsd.written w hw
      exact ⟨mem_append_left _ hlock, hrest⟩
    · intro id hid
      obtain ⟨r, hr, hdue⟩ := (Option.any_eq_true _ _).mp (hpicks id hid).2
      have hnew := hsd.unwritten hloops hr (idle_of_due hdue)
      rw [seen_of_no_write hnew] at hr
      obtain ⟨hm, hrid⟩ := mem_of_getRow_eq_some hr
      exact ⟨mem_append_right _ hid, hnew, r, hm, hrid, idle_of_due hdue⟩
  · exact forall_mem_append.mpr ⟨fun id => .inl, fun id hid => .inr (hpicks id hid).1⟩

def Open.handles (t : Open) (records : List Nat) (w : Handoff) (handed : Option Handed) : Open :=
  { t with
    records := records
    writes := t.writes ++ [w]
    handed := t.handed ++ handed.toList
    discarded := t.discarded + if handed.isNone then 1 else 0 }

/-- What handling a row does: an error ends the transaction, or it has a new version. -/
inductive Handles (p : Producer) (s : State) (t : Open) (owner : String) (leaseMillis id : Nat)
    (records : List Nat) (h : Handoff) : State → Prop
  | failed {e : Refusal} (he : handleRecord p s.now s.fresh leaseMillis owner
      (s.publicIds.lookup h.reference.target.id) h = .error e) :
      Handles p s t owner leaseMillis id records h (s.close t.id)
  | written {w : Handoff} {handed : Option Handed}
      (hr : handleRecord p s.now s.fresh leaseMillis owner
        (s.publicIds.lookup h.reference.target.id) h = .ok (w, handed)) :
      Handles p s t owner leaseMillis id records h
        { s.replace (t.handles records w handed) with fresh := s.fresh + 1 }

/-- The row that is handled is the selected one, which the transaction has locked. -/
theorem Inv.handles (h : Inv p s) (ht : t ∈ s.active)
    (hs : s.handle p t owner leaseMillis = some s') :
    ∃ records, ∃ r ∈ s.rows, t.records = r.id :: records ∧ s.seen t r.id = some r ∧
      r.Idle s.now ∧ r.id ∈ t.locks ∧ (∀ w ∈ t.writes, w.id ≠ r.id) ∧
      Handles p s t owner leaseMillis r.id records r s' := by
  unfold State.handle at hs
  split at hs
  case h_1 => cases hs
  case h_2 id records hrecs =>
  split at hs
  case h_1 => cases hs
  case h_2 r hr =>
  obtain ⟨hlock, hnew, r', hr', rfl, hi⟩ := (h.sound t ht).selected id (by rw [hrecs]; simp)
  have hcom : s.row r'.id = some r' := h.keyed.getRow_eq_some_iff.mpr ⟨hr', rfl⟩
  have hseen := hr
  rw [seen_of_no_write hnew, hcom] at hr
  obtain rfl := Option.some.inj hr
  refine ⟨records, r', hr', hrecs, hseen, hi, hlock, hnew, ?_⟩
  split at hs
  case h_1 he =>
    cases hs
    exact .failed he
  case h_2 hrec =>
    cases hs
    exact .written hrec

/-- A handled row is written by its transaction only. -/
theorem Inv.moves_handle (h : Inv p s) (ht : t ∈ s.active)
    (hs : s.handle p t owner leaseMillis = some s') : Moves p s a s' := by
  obtain ⟨records, r', hr', hrecs, -, hi, hlock, hnew, hhandles⟩ := h.handles ht hs
  have hsd := h.sound t ht
  have hnd := hsd.distinct
  rw [hrecs] at hnd
  cases hhandles with
  | failed => exact Moves.quiet (h.toLocked.close t.id) rfl le_rfl rfl rfl rfl rfl
  | @written w handed hrec =>
    obtain ⟨hd, hv, hleases, hdis⟩ := handleRecord_eq_ok hi hrec
    have hwid : w.id = r'.id := hd.id_eq
    have hsd' : Sound p s (t.handles records w handed) := by
      constructor
      · apply hsd.keyed.append_singleton
        rw [getRow_eq_none_iff, hwid]
        exact hnew
      · exact forall_mem_concat.mpr
          ⟨hsd.written, hwid ▸ hlock, hv, r', hr', hwid.symm, hd⟩
      · intro w' hw'
        rcases mem_concat.mp hw' with hw' | rfl
        · exact (hsd.versions w' hw').imp_right fun hne => by simp [Open.handles, hne]
        · cases handed with
          | none => exact .inl (hdis rfl)
          | some x => exact .inr (by simp [Open.handles])
      · exact hnd.of_cons
      · intro id hid
        obtain ⟨hlock', hnew', hrow⟩ :=
          hsd.selected id (by rw [hrecs]; exact mem_cons_of_mem _ hid)
        refine ⟨hlock', ?_, hrow⟩
        refine forall_mem_concat.mpr ⟨hnew', fun he => (nodup_cons.mp hnd).1 ?_⟩
        exact hwid ▸ he ▸ hid
      · intro x hx
        rcases mem_append.mp hx with hx | hx
        · obtain ⟨w', hw', hl⟩ := hsd.handed x hx
          exact ⟨w', mem_append_left _ hw', hl⟩
        · exact ⟨w, mem_append_right _ (mem_singleton_self w),
            hleases x (mem_toList.mp hx)⟩
    have hlk := h.toLocked.replace ht hsd' rfl fun _ hl => .inl hl
    exact Moves.quiet (hlk.frame rfl (Nat.le_succ _) le_rfl fun _ _ _ hm _ => hm) rfl le_rfl
      rfl rfl rfl rfl

/-- A commit writes the versions of its transaction, which has locked their rows. -/
theorem Inv.moves_commit (h : Inv p s) (ht : t ∈ s.active) (reply : Bool) :
    Moves p s (.commit t.id reply) { s.close t.id with
      rows := written t.writes s.rows
      handed := s.handed ++ if reply then t.handed else [] } where
  locked := by
    refine (h.toLocked.close t.id).frame rfl le_rfl le_rfl ?_
    intro u hu r hr hlock
    obtain ⟨hu, hne⟩ : u ∈ s.active ∧ u.id ≠ t.id := by simpa [State.close] using hu
    apply mem_written hr
    rintro w hw hid
    exact h.exclusive u hu t ht hne (hid ▸ hlock) ((h.sound t ht).written w hw).1
  rows := by
    apply Rows.written h.keyed
    intro w hw
    obtain ⟨-, hv, r, hr, hid, hd⟩ := (h.sound t ht).written w hw
    exact ⟨hv, r, hr, hid, .committed hd⟩
  now := le_rfl
  returned := fun _ hid => hid
  own := .inr nofun
  handed := by
    intro x hx
    rcases mem_append.mp hx with hx | hx
    · exact .inl hx
    · right
      cases reply with
      | false => cases hx
      | true =>
        obtain ⟨w, hw, hl⟩ := (h.sound t ht).handed x hx
        obtain ⟨-, -, r, hr, hid, -⟩ := (h.sound t ht).written w hw
        exact ⟨w, version_mem_written (h.sound t ht).keyed hw hr hid, hl⟩
  kept := fun _ hx => mem_append_left _ hx
  authorized := fun _ hc => .inl hc
  sent := fun _ hc => .inl hc

/-- A statement that commits by itself writes rows no transaction has locked. -/
theorem Inv.moves_written (h : Inv p s) {returned : List Nat}
    (hfree : ∀ w ∈ writes, s.unlocked s.fresh w.id = true)
    (hw : ∀ w ∈ writes, w.violated p.serde = none ∧
      ∃ r ∈ s.rows, r.id = w.id ∧ Effect s.now a r w) (hreturned : ∀ id ∈ s.returned, id ∈ returned)
    (hown : ∀ id ∈ a.lease, id ∈ returned) :
    Moves p s a { s with rows := written writes s.rows, returned := returned } where
  locked := by
    refine h.toLocked.frame rfl le_rfl le_rfl ?_
    intro t ht r hr hlock
    apply mem_written hr
    rintro w hm hid
    exact h.not_mem_locks (hfree w hm) ht (hid ▸ hlock)
  rows := .written h.keyed hw
  now := le_rfl
  returned := hreturned
  own := .inr hown
  handed := fun _ hx => .inl hx
  kept := fun _ hx => hx
  authorized := fun _ hc => .inl hc
  sent := fun _ hc => .inl hc

theorem Inv.moves_same (h : Inv p s) : Moves p s a s :=
  .quiet h.toLocked rfl le_rfl rfl rfl rfl rfl

/-- Recording progress: the row is the worker's, and its lease comes back with it. -/
theorem Inv.moves_alone (h : Inv p s) {checks : Except Refusal Unit} (hls : a.lease = some leaseId)
    (heffect : ∀ r, r.id = id → r.leasedTo s.now leaseId = true → r.acceptance = none →
      Effect s.now a r (new r))
    (hs : s.alone id leaseId (fun row => do
      checks
      recordProgress p s.now leaseId new settled row) = some s') : Moves p s a s' := by
  unfold State.alone at hs
  split_ifs at hs with hfree
  split at hs
  case h_1 r' hok =>
    cases hs
    obtain ⟨-, -, hok⟩ := bind_eq_ok.mp hok
    obtain ⟨r, hr, hleased, hopen, rfl, hv⟩ := recordProgress_eq_ok hok
    obtain ⟨hm, rfl⟩ := mem_of_getRow_eq_some hr
    have he := heffect r rfl hleased hopen
    apply h.moves_written
    · intro w hw
      rw [mem_singleton.mp hw, he.id_eq]
      exact hfree
    · intro w hw
      obtain rfl := mem_singleton.mp hw
      exact ⟨hv, r, hm, he.id_eq.symm, he⟩
    · exact fun _ hid => mem_cons_of_mem _ hid
    · intro id hid
      cases hls.symm.trans hid
      exact mem_cons_self
  case h_2 =>
    cases hs
    exact h.moves_same
  case h_3 =>
    cases hs
    exact h.moves_same

/-- The versions of a discarding `UPDATE` over some rows that are open. -/
theorem discards_spec
    (hm : (rows.mapM fun h => h.update p.serde { h with discard := some d }) = .ok writes)
    (hrs : ∀ h ∈ rows, h ∈ s.rows ∧ h.acceptance = none ∧ h.discard = none) :
    ∀ w ∈ writes, w.violated p.serde = none ∧ ∃ h ∈ s.rows, h.id = w.id ∧ h ∈ rows ∧
      h.acceptance = none ∧ h.discard = none ∧ w = { h with discard := some d } := by
  intro w hw
  obtain ⟨h, hh, rfl, hv⟩ := mem_discards hm hw
  obtain ⟨hmem, hopen, hkept⟩ := hrs h hh
  exact ⟨hv, h, hmem, rfl, hh, hopen, hkept, rfl⟩

theorem Inv.moves_beginDelete (h : Inv p s) (hm : s.deleting p uuid = .ok writes)
    (hfree : (writes.all fun w => s.unlocked s.fresh w.id) = true) :
    Moves p s a (s.begin .delete writes) := by
  have hspec := discards_spec (s := s) hm (by
    intro r hr
    obtain ⟨hr, hopen⟩ := mem_filter.mp hr
    simp only [Bool.and_eq_true, isNone_iff_eq_none] at hopen
    exact ⟨hr, hopen.1.2, hopen.2⟩)
  refine .quiet (h.toLocked.begin .delete ?_ (List.all_eq_true.mp hfree) ?_ ?_) rfl le_rfl
    rfl rfl rfl rfl
  · unfold Keyed
    rw [map_id_discards hm]
    exact h.keyed.filter _
  · intro w hw
    obtain ⟨hv, r, hr, hid, -, hopen, hkept, rfl⟩ := hspec w hw
    exact ⟨hv, r, hr, hid, .discarded hopen hkept⟩
  · intro w hw
    obtain ⟨-, r, -, -, -, -, -, rfl⟩ := hspec w hw
    rfl

theorem Inv.moves_discard (h : Inv p s) {reason : String}
    (hm : s.discarding p reason picks = .ok writes) :
    Moves p s (.discard reason picks) { s with rows := written writes s.rows } := by
  unfold State.discarding at hm
  obtain ⟨-, -, hm⟩ := bind_eq_ok.mp hm
  have hchosen : ∀ r ∈ s.rows.filter (fun h => picks.contains h.id && s.unlocked s.fresh h.id &&
      h.unsent s.now), r ∈ s.rows ∧ s.unlocked s.fresh r.id = true ∧ r.acceptance = none ∧
        r.discard = none := by
    intro r hr
    obtain ⟨hr, hopen⟩ := mem_filter.mp hr
    unfold Handoff.unsent at hopen
    simp only [Bool.and_eq_true, isNone_iff_eq_none] at hopen
    exact ⟨hr, hopen.1.2, hopen.2.1.1, hopen.2.1.2⟩
  have hspec := discards_spec (s := s) hm fun r hr => ⟨(hchosen r hr).1, (hchosen r hr).2.2⟩
  refine h.moves_written ?_ ?_ (fun _ hid => hid) nofun
  · intro w hw
    obtain ⟨-, r, -, -, hr, -, -, rfl⟩ := hspec w hw
    exact (hchosen r hr).2.1
  · intro w hw
    obtain ⟨hv, r, hr, hid, -, hopen, hkept, rfl⟩ := hspec w hw
    exact ⟨hv, r, hr, hid, .discarded hopen hkept⟩

theorem step_select (hs : step p s (.select tx picks) = some s') :
    ∃ t owner limit leaseMillis, s.find tx = some t ∧ t.work = .claim owner limit leaseMillis ∧
      s.select t limit picks = some s' := by
  simp only [step] at hs
  split at hs
  case h_2 => cases hs
  case h_1 t ht =>
    split at hs
    case h_2 => cases hs
    case h_1 hwork => exact ⟨t, _, _, _, ht, hwork, hs⟩

theorem step_handle (hs : step p s (.handle tx) = some s') :
    ∃ t owner limit leaseMillis, s.find tx = some t ∧ t.work = .claim owner limit leaseMillis ∧
      s.handle p t owner leaseMillis = some s' := by
  simp only [step] at hs
  split at hs
  case h_2 => cases hs
  case h_1 t ht =>
    split at hs
    case h_2 => cases hs
    case h_1 hwork => exact ⟨t, _, _, _, ht, hwork, hs⟩

theorem step_commit {reply : Bool} (hs : step p s (.commit tx reply) = some s') :
    ∃ t, s.find tx = some t ∧ t.records = [] ∧ (t.work = .delete ∨ t.loops = false) ∧
      s' = { s.close tx with
        rows := written t.writes s.rows
        handed := s.handed ++ if reply then t.handed else [] } := by
  simp only [step] at hs
  split at hs
  case h_2 => cases hs
  case h_1 t ht =>
    split at hs
    case isFalse => cases hs
    case isTrue hok =>
      simp only [Bool.and_eq_true, List.isEmpty_iff, Bool.or_eq_true, decide_eq_true_eq,
        Bool.not_eq_true'] at hok
      exact ⟨t, ht, hok.1, hok.2, (Option.some.inj hs).symm⟩

theorem step_beginDelete (hs : step p s (.beginDelete uuid) = some s') :
    ∃ writes, s.deleting p uuid = .ok writes ∧
      (writes.all fun h => s.unlocked s.fresh h.id) = true ∧ s' = s.begin .delete writes := by
  simp only [step] at hs
  split at hs
  case h_1 => cases hs
  case h_2 writes hm =>
    split_ifs at hs with hfree
    exact ⟨writes, hm, hfree, (Option.some.inj hs).symm⟩

theorem step_beginClaim (hs : step p s (.beginClaim owner limit leaseMillis) = some s') :
    s' = s.begin (.claim owner limit leaseMillis) [] := by
  simp only [step] at hs
  split at hs
  case h_1 => cases hs
  case h_2 => exact (Option.some.inj hs).symm

/-- Everything a step does. -/
theorem Inv.moves (h : Inv p s) (hs : step p s a = some s') : Moves p s a s' := by
  cases a with
  | tick elapsed =>
    cases hs
    exact .quiet (h.toLocked.frame rfl le_rfl (Nat.le_add_right _ _) fun _ _ _ hr _ => hr) rfl
      (Nat.le_add_right _ _) rfl rfl rfl rfl
  | enqueue reference =>
    simp only [step] at hs
    split_ifs at hs with hnew
    cases hs
    have hrs : ∀ r ∈ s.rows, r ∈ s.rows ++ [.enqueued reference s.now] :=
      fun _ hr => mem_append_left _ hr
    exact {
      locked := h.toLocked.frame rfl le_rfl le_rfl fun _ _ r hr _ => hrs r hr
      rows := .enqueued reference (isNone_iff_eq_none.mp hnew)
      now := le_rfl
      returned := fun _ hid => hid
      own := .inr nofun
      handed := fun _ hx => .inl hx
      kept := fun _ hx => hx
      authorized := fun _ hc => .inl hc
      sent := fun _ hc => .inl hc }
  | outside participants publicIds =>
    cases hs
    exact .quiet (h.toLocked.frame rfl le_rfl le_rfl fun _ _ _ hr _ => hr) rfl le_rfl
      rfl rfl rfl rfl
  | beginClaim owner limit leaseMillis =>
    obtain rfl := step_beginClaim hs
    exact .quiet (h.toLocked.begin _ nodup_nil (by simp) (by simp) (by simp)) rfl le_rfl
      rfl rfl rfl rfl
  | select tx picks =>
    obtain ⟨t, _, _, _, ht, -, hsel⟩ := step_select hs
    exact h.moves_select (mem_of_find ht).1 hsel
  | handle tx =>
    obtain ⟨t, _, _, _, ht, -, hhdl⟩ := step_handle hs
    exact h.moves_handle (mem_of_find ht).1 hhdl
  | beginDelete uuid =>
    obtain ⟨writes, hm, hfree, rfl⟩ := step_beginDelete hs
    exact h.moves_beginDelete hm hfree
  | commit tx reply =>
    obtain ⟨t, ht, -, -, rfl⟩ := step_commit hs
    obtain ⟨hmem, rfl⟩ := mem_of_find ht
    exact h.moves_commit hmem reply
  | rollback tx =>
    obtain ⟨t, -, rfl⟩ := map_eq_some_iff.mp hs
    exact .quiet (h.toLocked.close tx) rfl le_rfl rfl rfl rfl rfl
  | authorize c =>
    simp only [step] at hs
    split_ifs at hs with hok
    cases hs
    simp only [Bool.and_eq_true, List.any_eq_true, decide_eq_true_eq] at hok
    refine { (h.moves_same : Moves p s (.authorize c) s) with
      locked := h.toLocked.frame rfl le_rfl le_rfl fun _ _ _ hr _ => hr
      authorized := ?_ }
    intro c' hc'
    rcases mem_cons.mp hc' with rfl | hc'
    · exact .inr hok.1
    · exact .inl hc'
  | send c =>
    simp only [step] at hs
    split_ifs at hs with hok
    cases hs
    refine { (h.moves_same : Moves p s (.send c) s) with
      locked := h.toLocked.frame rfl le_rfl le_rfl fun _ _ _ hr _ => hr
      sent := ?_ }
    intro c' hc'
    rcases mem_cons.mp hc' with rfl | hc'
    · exact .inr (contains_iff_mem.mp hok)
    · exact .inl hc'
  | accept deliveryId leaseId tingId createdAt silent =>
    refine h.moves_alone rfl ?_ hs
    rintro r rfl hleased hopen
    exact .accepted hleased hopen
  | retry deliveryId leaseId nextAttemptAt errorCode =>
    refine h.moves_alone rfl ?_ hs
    rintro r rfl hleased hopen
    exact .retried hleased hopen
  | discard reason picks =>
    simp only [step] at hs
    split at hs
    case h_1 =>
      cases hs
      exact h.moves_same
    case h_2 writes hm =>
      cases hs
      exact h.moves_discard hm

theorem Inv.of_reachable (h : (handoffs p).Reachable s) : Inv p s :=
  h.invariant (fun _ => .of_initial) fun _ _ _ hi hs => hi.next (hi.moves hs)

/-! ### One owner and one body -/

/-- An accepted row has no lease and is not discarded. -/
theorem of_checked (hv : h.violated serde = none) (ha : h.acceptance.isSome = true) :
    h.lease = none ∧ h.discard = none := by
  obtain ⟨-, -, -, hacc, -, hboth⟩ := violated_eq_none_iff.mp hv
  obtain ⟨acceptance, hacceptance⟩ := isSome_iff_exists.mp ha
  refine ⟨isNone_iff_eq_none.mp (hacc acceptance hacceptance).2, ?_⟩
  by_contra hd
  exact hboth ⟨isSome_iff_ne_none.mpr hd, ha⟩

/-- Who changes what a row records: the holder of its running lease. -/
theorem Effect.recorded (he : Effect now a h h') :
    (h'.acceptance ≠ h.acceptance → ∃ leaseId tingId createdAt silent,
      a = .accept h.id leaseId tingId createdAt silent ∧ h.leasedTo now leaseId = true) ∧
    ((h'.attemptCount, h'.nextAttemptAt, h'.lastErrorCode) ≠
        (h.attemptCount, h.nextAttemptAt, h.lastErrorCode) → h'.acceptance = h.acceptance →
      ∃ leaseId nextAttemptAt errorCode,
        a = .retry h.id leaseId nextAttemptAt errorCode ∧ h.leasedTo now leaseId = true) := by
  cases he with
  | kept | discarded => exact ⟨fun hne => absurd rfl hne, fun hne => absurd rfl hne⟩
  | committed hd =>
    cases hd <;> exact ⟨fun hne => absurd rfl hne, fun hne => absurd rfl hne⟩
  | accepted hls hopen =>
    refine ⟨fun _ => ⟨_, _, _, _, rfl, hls⟩, fun _ heq => ?_⟩
    rw [hopen] at heq
    cases heq
  | retried hls hopen =>
    exact ⟨fun hne => absurd rfl hne, fun _ _ => ⟨_, _, _, rfl, hls⟩⟩

/-- The lease of a claim runs and its worker has not come back with it. -/
def State.Holds (s : State) (x : Handed) : Prop :=
  s.now < x.expiresAt ∧ x.claim.leaseId ∉ s.returned

/-- In every interleaving: one running lease for a handoff; one request for all its sends; no
row both accepted and discarded; and a step records an acceptance or a retry only for the holder
of the row's running lease, leaves accepted rows as they are, and hands out no claim for one. -/
theorem handoffs_have_one_owner (p : Producer) (s : State) (hs : (handoffs p).Reachable s) :
    Keyed Handoff.id s.rows ∧
    (∀ x ∈ s.handed, ∀ y ∈ s.handed, x.claim.deliveryId = y.claim.deliveryId →
      s.Holds x → s.Holds y → x.claim.leaseId = y.claim.leaseId) ∧
    (∀ c ∈ s.sent, ∀ c' ∈ s.sent, c.deliveryId = c'.deliveryId →
      c.requestBody = c'.requestBody) ∧
    (∀ h ∈ s.rows, ¬ (h.acceptance.isSome = true ∧ h.discard.isSome = true)) ∧
    ∀ a s', step p s a = some s' →
      (∀ h ∈ s.rows, ∃ h' ∈ s'.rows, h'.id = h.id ∧
        (h'.acceptance ≠ h.acceptance → ∃ leaseId tingId createdAt silent,
          a = .accept h.id leaseId tingId createdAt silent ∧ h.leasedTo s.now leaseId = true) ∧
        ((h'.attemptCount, h'.nextAttemptAt, h'.lastErrorCode) ≠
            (h.attemptCount, h.nextAttemptAt, h.lastErrorCode) → h'.acceptance = h.acceptance →
          ∃ leaseId nextAttemptAt errorCode,
            a = .retry h.id leaseId nextAttemptAt errorCode ∧ h.leasedTo s.now leaseId = true) ∧
        (h.acceptance.isSome = true → h' = h)) ∧
      (∀ x ∈ s'.handed, x ∉ s.handed →
        ∀ h ∈ s'.rows, h.id = x.claim.deliveryId → h.acceptance = none) := by
  have hi := Inv.of_reachable hs
  refine ⟨hi.keyed, ?_, ?_, ?_, ?_⟩
  · intro x hx y hy hid hholds hholds'
    obtain ⟨h, hh, hxid, l, hl, hlid, -⟩ := hi.current x hx hholds.1 hholds.2
    obtain ⟨h', hh', hyid, l', hl', hlid', -⟩ := hi.current y hy hholds'.1 hholds'.2
    obtain rfl := hi.keyed.unique hh hh' (hxid.trans (hid.trans hyid.symm))
    cases hl.symm.trans hl'
    exact hlid.symm.trans hlid'
  · intro c hc c' hc' hid
    obtain ⟨x, hx, rfl⟩ := hi.sent c hc
    obtain ⟨y, hy, rfl⟩ := hi.sent c' hc'
    obtain ⟨h, hh, hxid, hbody⟩ := hi.bodies x hx
    obtain ⟨h', hh', hyid, hbody'⟩ := hi.bodies y hy
    obtain rfl := hi.keyed.unique hh hh' (hxid.trans (hid.trans hyid.symm))
    exact Option.some.inj (hbody.symm.trans hbody')
  · rintro h hh ⟨haccepted, hdiscarded⟩
    rw [(of_checked (hi.checked h hh) haccepted).2] at hdiscarded
    cases hdiscarded
  · intro a s' hstep
    have hm := hi.moves hstep
    have hi' := hi.next hm
    constructor
    · intro h hh
      obtain ⟨h', hh', he⟩ := hm.rows.exists_effect hh
      exact ⟨h', hh', he.id_eq, he.recorded.1, he.recorded.2, he.of_accepted⟩
    · intro x hx hnew h hh hid
      obtain ⟨h', hh', hid', -, l, hl, -⟩ := (hm.handed x hx).resolve_left hnew
      obtain rfl := hi'.keyed.unique hh hh' (hid.trans hid'.symm)
      by_contra hne
      have := (of_checked (hi'.checked h hh) (isSome_iff_ne_none.mpr hne)).1
      rw [this] at hl
      cases hl

def demoProducer : Producer where
  serde := ⟨fun _ => some "request", fun _ => some (.object [("type", .text "dm.sync.changed")]),
    fun _ => true⟩
  display := fun _ => "delivery"
  appId := "dm"

def noHandoffs : State :=
  ⟨0, [], [], [], [], 0, [], [], [], []⟩

theorem noHandoffs_initial : Initial demoProducer noHandoffs :=
  ⟨nodup_nil, by simp [noHandoffs], rfl, rfl, rfl, rfl, rfl⟩

/-- A delivery of a message to `zQo` is claimed and sent by a worker that then stalls; after the
lease a second one claims, sends and records the acceptance. -/
def stalledWorker : List Action :=
  let target : ActorRef := ⟨.carbon, "zQo"⟩
  let claim (lease : Nat) : Claim := ⟨7, lease, target, none, 1, 1, "request", 0⟩
  [.enqueue ⟨7, target, 1, "c:ada::c:bob", 1, 1, "message.created", none, none⟩,
    .outside [(1, target)] [], .beginClaim "first" 1 1000, .select 0 [7], .handle 0,
    .commit 0 true, .authorize (claim 1), .send (claim 1), .tick 1000,
    .beginClaim "second" 1 1000, .select 2 [7], .handle 2, .commit 2 true,
    .authorize (claim 3), .send (claim 3), .accept 7 3 "ting" 1000 false,
    .accept 7 1 "late" 1000 false]

/-- Both workers sent the one request, and the late acceptance changed nothing. -/
theorem handoffs_have_one_owner_stalled :
    ∃ s, (handoffs demoProducer).Reachable s ∧
      (s.sent.length = 2 ∧ s.rows.all fun h => h.acceptance = some ⟨1000, "ting", 1000, false⟩) ∧
      ∀ c ∈ s.sent, ∀ c' ∈ s.sent, c.deliveryId = c'.deliveryId →
        c.requestBody = c'.requestBody := by
  have hs := System.reachable_get (M := handoffs demoProducer) stalledWorker noHandoffs_initial
    (by decide +kernel)
  exact ⟨_, hs, by decide +kernel, (handoffs_have_one_owner demoProducer _ hs).2.2.1⟩

end SiliconDm.Server.Ting
