import SiliconDm.Server.FirstContact

/-!
# The first-contact budget

How many conversations one account starts within an hour. The count reads when transactions
began, and nothing holds it until the request commits; so the budget is kept while an account's
requests pass the count one at a time, and while none of its transactions is open across the
end of the hour in which it began.

Sources: `src/api/access.rs:189–206`,
`src/infrastructure/postgres/conversations.rs:73–136,177–191`.
-/

namespace SiliconDm.Server.FirstContact

open Base Backend List

variable {d : Deployment} {s s' : State} {a : Action} {actor : ActorRef}

/-- The account itself started it; DM did not. -/
def Created.startedBy (c : Created) (actor : ActorRef) : Bool :=
  c.direct.createdBy = actor && !c.automatic

/-- How many conversations of an account committed in the hour that starts at `since`. -/
def State.committedWithin (s : State) (actor : ActorRef) (since : Nat) : Nat :=
  s.created.countP fun c =>
    c.startedBy actor && since ≤ c.committedAt && c.committedAt < since + hour

def State.recent (s : State) (actor : ActorRef) : Nat :=
  s.created.countP fun c => c.startedBy actor && s.now < c.committedAt + hour

/-- An account's own request that has passed the count. -/
def Request.passed (r : Request) : Bool :=
  match r.phase with
  | .starting | .reaching _ => false
  | .ready | .began _ => !r.automatic

/-- A request passes the count while no other request of its account is between the count and its
end, and when what its account committed in the last hour also began in it. -/
def oneAtATime (s : State) : Action → Bool
  | .count request =>
    match s.find request with
    | some r =>
      s.requests.all (fun other => !other.passed || other.creator ≠ r.creator) &&
      s.created.all fun c => !c.startedBy r.creator || c.committedAt + hour ≤ s.now ||
        s.now < c.direct.createdAt + hour
    | none => true
  | _ => true

/-- A request that passed the count is its account's only one and has room for one conversation;
and no hour has more than the budget. -/
structure Budget (s : State) : Prop where
  keyed : Keyed Request.id s.requests
  fresh : ∀ r ∈ s.requests, r.id < s.fresh
  rows : (s.created.map Created.direct).Sublist s.backend.directs
  alone : ∀ r ∈ s.requests, ∀ r' ∈ s.requests, r.passed = true → r'.passed = true →
    r.creator = r'.creator → r.id = r'.id
  room : ∀ r ∈ s.requests, r.passed = true → s.recent r.creator < firstContactsPerHour
  bound : ∀ actor since, s.committedWithin actor since ≤ firstContactsPerHour

/-! ### Counting -/

/-- Later there is less in the last hour. -/
theorem recent_tick (elapsed : Nat) (actor : ActorRef) :
    State.recent { s with now := s.now + elapsed } actor ≤ s.recent actor := by
  apply countP_mono_left
  intro c _ hc
  simp only [Bool.and_eq_true, decide_eq_true_eq] at hc ⊢
  exact ⟨hc.1, by omega⟩

/-- What the count reads covers the last hour, if all of it began in the last hour. -/
theorem recent_le_startedLastHour (hrs : (s.created.map Created.direct).Sublist
    s.backend.directs) (hbegan : ∀ c ∈ s.created, c.startedBy actor = true →
      s.now < c.committedAt + hour → s.now < c.direct.createdAt + hour) :
    s.recent actor ≤ s.backend.startedLastHour actor s.now := by
  calc s.recent actor
      ≤ s.created.countP (fun c => c.direct.createdBy = actor &&
          s.now < c.direct.createdAt + hour) := by
        apply countP_mono_left
        intro c hc hrecent
        simp only [Bool.and_eq_true, decide_eq_true_eq] at hrecent ⊢
        have hac := hrecent.1
        simp only [Created.startedBy, Bool.and_eq_true, decide_eq_true_eq] at hac
        exact ⟨hac.1, hbegan c hc hrecent.1 hrecent.2⟩
    _ = (s.created.map Created.direct).countP (fun row => row.createdBy = actor &&
          s.now < row.createdAt + hour) := by
        rw [countP_map]
        rfl
    _ ≤ s.backend.startedLastHour actor s.now := hrs.countP_le

/-- An hour that contains the present has at most what committed in the last hour. -/
theorem committedWithin_le_recent {since : Nat} (hnow : s.now < since + hour) :
    s.committedWithin actor since ≤ s.recent actor := by
  apply countP_mono_left
  intro c _ hc
  simp only [Bool.and_eq_true, decide_eq_true_eq] at hc ⊢
  exact ⟨hc.1.1, by omega⟩

/-! ### Steps -/

variable {r r' : Request}

section

variable (h : Budget s)
include h

theorem Budget.push (hid : r.id = s.fresh) (hr : r.passed = false) :
    Budget (s.push r) where
  keyed := by
    apply h.keyed.append_singleton
    rw [getRow_eq_none_iff]
    intro x hx
    exact hid ▸ (h.fresh x hx).ne
  fresh := by
    exact forall_mem_concat.mpr
      ⟨fun x hx => (h.fresh x hx).trans (Nat.lt_succ_self _), hid ▸ Nat.lt_succ_self _⟩
  rows := h.rows
  alone := by
    have hold : ∀ x ∈ (s.push r).requests, x.passed = true → x ∈ s.requests := by
      exact forall_mem_concat.mpr ⟨fun x hx _ => hx, by simp [hr]⟩
    intro x hx y hy hxp hyp
    exact h.alone x (hold x hx hxp) y (hold y hy hyp) hxp hyp
  room := by
    exact forall_mem_concat.mpr ⟨h.room, by simp [hr]⟩
  bound := h.bound

theorem Budget.close (request : Nat) : Budget (s.close request) where
  keyed := h.keyed.filter _
  fresh x hx := h.fresh x (mem_close hx)
  rows := h.rows
  alone x hx y hy := h.alone x (mem_close hx) y (mem_close hy)
  room x hx := h.room x (mem_close hx)
  bound := h.bound

/-- A request goes on. If it has passed the count now, it is alone and has room. -/
theorem Budget.replace (hr : r ∈ s.requests) (hid : r'.id = r.id)
    (halone : r'.passed = true → ∀ x ∈ s.requests, x.passed = true → x.creator = r'.creator →
      x.id = r'.id)
    (hroom : r'.passed = true → s.recent r'.creator < firstContactsPerHour) :
    Budget (s.replace r') where
  keyed := h.keyed.put r'
  fresh := by
    intro x hx
    rcases mem_put hx with rfl | ⟨hx, -⟩
    · exact hid ▸ h.fresh r hr
    · exact h.fresh x hx
  rows := h.rows
  alone := by
    intro x hx y hy hxp hyp hcrt
    rcases mem_put hx with rfl | ⟨hxs, -⟩ <;> rcases mem_put hy with rfl | ⟨hys, -⟩
    · rfl
    · exact (halone hxp y hys hyp hcrt.symm).symm
    · exact halone hyp x hxs hxp hcrt
    · exact h.alone x hxs y hys hxp hyp hcrt
  room := by
    intro x hx hpass
    rcases mem_put hx with rfl | ⟨hx, -⟩
    · exact hroom hpass
    · exact h.room x hx hpass
  bound := h.bound

/-- A request that keeps its account and has passed no more than before. -/
theorem Budget.goesOn (hr : r ∈ s.requests) (hid : r'.id = r.id) (hcrt : r'.creator = r.creator)
    (hpass : r'.passed = true → r.passed = true) :
    Budget (s.replace r') := by
  apply h.replace hr hid
  · intro hp x hx hxp hsame
    rw [hid]
    exact h.alone x hx r hr hxp (hpass hp) (hsame.trans hcrt)
  · intro hp
    rw [hcrt]
    exact h.room r hr (hpass hp)

/-- A request passes the count. -/
theorem Budget.count (hr : r ∈ s.requests)
    (hcount : s.backend.startedLastHour r.creator s.now < firstContactsPerHour)
    (hoths : ∀ x ∈ s.requests, x.passed = true → x.creator ≠ r.creator)
    (hbegan : ∀ c ∈ s.created, c.startedBy r.creator = true →
      s.now < c.committedAt + hour → s.now < c.direct.createdAt + hour) :
    Budget (s.replace { r with phase := .ready }) := by
  refine h.replace hr (show ({ r with phase := .ready } : Request).id = r.id from rfl) ?_ ?_
  · intro _ x hx hxp hsame
    exact absurd hsame (hoths x hx hxp)
  · intro _
    exact (recent_le_startedLastHour h.rows hbegan).trans_lt hcount

/-- A request commits what it creates, at most one conversation. -/
theorem Budget.commit {backend : Backend} {new : List Created} (hr : r ∈ s.requests)
    (hph : r.passed = !r.automatic)
    (hrs : backend.directs = s.backend.directs ++ new.map Created.direct) (hone : new.length ≤ 1)
    (hnew : ∀ c ∈ new, c.committedAt = s.now ∧
      c.direct.createdBy = r.creator ∧ c.automatic = r.automatic) :
    Budget { s.close r.id with backend, created := s.created ++ new } where
  keyed := h.keyed.filter _
  fresh x hx := h.fresh x (mem_close hx)
  rows := by
    rw [map_append, hrs]
    exact h.rows.append (List.Sublist.refl _)
  alone x hx y hy := h.alone x (mem_close hx) y (mem_close hy)
  room := by
    -- What others started is not counted for this account: it has one request past the count.
    intro x hx hpass
    have hzero : new.countP (fun c => c.startedBy x.creator && s.now < c.committedAt + hour) = 0 := by
      rw [countP_eq_zero]
      intro c hc hcnt
      obtain ⟨-, hby, hauto⟩ := hnew c hc
      simp only [Created.startedBy, hby, hauto, Bool.and_eq_true, decide_eq_true_eq] at hcnt
      obtain ⟨⟨hsame, hown⟩, -⟩ := hcnt
      have hid : x.id = r.id :=
        h.alone x (mem_close hx) r hr hpass (hph.trans hown) hsame.symm
      simp [hid, State.close] at hx
    calc State.recent { s.close r.id with backend, created := s.created ++ new } x.creator
        = s.recent x.creator + 0 := by
          rw [← hzero]
          exact countP_append
      _ < firstContactsPerHour := h.room x (mem_close hx) hpass
  bound := by
    intro actor since
    have hsplit : State.committedWithin { s.close r.id with backend, created := s.created ++ new }
        actor since = s.committedWithin actor since + new.countP (fun c =>
          c.startedBy actor && since ≤ c.committedAt && c.committedAt < since + hour) :=
      countP_append
    rw [hsplit]
    by_cases hin : ∃ c ∈ new, c.startedBy actor = true ∧ c.committedAt < since + hour
    · obtain ⟨c, hc, hby, hlt⟩ := hin
      obtain ⟨hnow, hcrt, hauto⟩ := hnew c hc
      simp only [Created.startedBy, hcrt, hauto, Bool.and_eq_true, decide_eq_true_eq] at hby
      have hroom : s.recent actor < firstContactsPerHour :=
        hby.1 ▸ h.room r hr (hph.trans hby.2)
      have hold : s.committedWithin actor since ≤ s.recent actor :=
        committedWithin_le_recent (hnow ▸ hlt)
      have hlen := countP_le_length (p := fun c : Created =>
        c.startedBy actor && since ≤ c.committedAt && c.committedAt < since + hour) (l := new)
      omega
    · have hzero : new.countP (fun c =>
          c.startedBy actor && since ≤ c.committedAt && c.committedAt < since + hour) = 0 := by
        rw [countP_eq_zero]
        intro c hc hcnt
        simp only [Bool.and_eq_true, decide_eq_true_eq] at hcnt
        exact hin ⟨c, hc, hcnt.1.1, hcnt.2⟩
      rw [hzero]
      exact h.bound actor since

theorem Budget.advance (hr : a.request.bind s.find = some r) (hc : oneAtATime s a = true)
    (ha : Advance d s r a s') : Budget s' := by
  have hm : r ∈ s.requests := mem_of_request_bind hr
  cases ha with
  | looked hat | reached hat _ => exact h.goesOn hm rfl rfl nofun
  | began hat => exact h.goesOn hm rfl rfl (by simp [Request.passed, hat])
  | closed => exact h.close _
  | @counted request hat hcount =>
    have hfind : s.find request = some r := hr
    simp only [oneAtATime, hfind, Bool.and_eq_true, List.all_eq_true, Bool.or_eq_true,
      Bool.not_eq_true', decide_eq_true_eq] at hc
    apply h.count hm hcount
    · intro x hx hpass hsame
      rcases hc.1 x hx with hn | hne
      · simp [hpass] at hn
      · exact hne hsame
    · intro c hcrd hby hrecent
      rcases hc.2 c hcrd with (hn | hold) | hbegan
      · simp [hby] at hn
      · omega
      · exact hbegan
  | committed hat =>
    refine h.commit hm (by simp [Request.passed, hat]) ?_ ?_ ?_
    · rcases directs_creation (d := d) _ r s.backend with hsame | hnew
      · rw [hsame]
        simp
      · rw [hnew]
        simp
    · rcases directs_creation (d := d) _ r s.backend with hsame | hnew
      · rw [hsame]
        simp
      · rw [hnew]
        simp
    · intro c hc
      obtain ⟨direct, hdir, rfl⟩ := List.mem_map.mp hc
      obtain rfl := mem_created hdir
      exact ⟨rfl, rfl, rfl⟩

theorem Budget.effect (hc : oneAtATime s a = true) (he : Effect d s a s') :
    Budget s' := by
  cases he with
  | ticked elapsed =>
    refine ⟨h.keyed, h.fresh, h.rows, h.alone, ?_, h.bound⟩
    intro r hr hpass
    exact (recent_tick elapsed _).trans_lt (h.room r hr hpass)
  | outside => exact ⟨h.keyed, h.fresh, h.rows, h.alone, h.room, h.bound⟩
  | started => exact h.push rfl rfl
  | ensured actor =>
    apply ensure_induction h
    intro t _ ht pair _
    exact ht.push rfl rfl
  | advanced hr ha => exact h.advance hr hc ha

end

/-- While an account's requests pass the count one at a time, and what it committed in the last
hour also began in it, no hour sees more than the budget of its conversations commit. -/
theorem first_contacts_within_budget
    (h : (starting d).ReachableWhile (fun s a => oneAtATime s a = true) s) :
    ∀ actor since, s.committedWithin actor since ≤ firstContactsPerHour := by
  have hbudget : Budget s := by
    refine h.invariant ?_ ?_
    · intro s₀ hs₀
      exact ⟨by simp [Keyed, hs₀.requests], by simp [hs₀.requests], by simp [hs₀.created],
        by simp [hs₀.requests], by simp [hs₀.requests],
        by simp [State.committedWithin, hs₀.created]⟩
    · intro s₁ a s₂ hs₁ hc hstep
      exact hs₁.effect hc (effect_of_step hstep)
  exact hbudget.bound

/-- Ada's requests to Bea and Mallory overlap, and are counted in turn. -/
theorem first_contacts_within_budget_two :
    ∃ s, (starting plain).ReachableWhile (fun s a => oneAtATime s a = true) s ∧
      s.committedWithin ada 0 = 2 ∧
      ∀ actor since, s.committedWithin actor since ≤ firstContactsPerHour := by
  have hs := System.reachableWhile_get (M := starting plain)
    (C := fun s a => oneAtATime s a = true)
    [.create ada ["bea"] "first", .create ada ["mallory"] "second", .look 0, .look 1, .reach 1,
      .reach 0, .count 0, .begin 0, .commit 0 1, .count 1, .begin 1, .commit 1 2]
    (neighbours_initial _) (by decide +kernel)
  exact ⟨_, hs, by decide +kernel, first_contacts_within_budget hs⟩

/-! ### Requests that pass the count together -/

/-- The account with the number `i`. -/
def guest (i : Nat) : Account :=
  .new (String.ofList (List.replicate i 'x')) .carbon

/-- Ada and the first `n` accounts, before the first request. -/
def lobby (n : Nat) : Backend :=
  { Backend.empty with db := { Database.empty with accounts := (List.range n).map guest } }

/-- Ada's request to the account `i`, after the count. -/
def call (b : Backend) (i : Nat) : Request where
  id := i
  creator := ada
  automatic := false
  key := some (guest i).uuid
  others := [guest i]
  participants := [(guest i).actor, ada]
  phase := .began 0
  admitted := admittedBy b (guest i).uuid [(guest i).actor, ada]

/-- `m` requests have passed the count, and none has committed. -/
def gathered (n m : Nat) : State where
  now := 0
  backend := lobby n
  requests := (List.range m).map (call (lobby n))
  fresh := m
  created := []

theorem guest_inj {i j : Nat} (h : (guest i).uuid = (guest j).uuid) : i = j := by
  have hlist := congrArg String.toList h
  simpa [guest, Account.new] using hlist

theorem guest_ne_ada (i : Nat) : (guest i).uuid ≠ ada.id := by
  intro h
  have hlist := congrArg String.toList h
  cases i <;> simp [guest, Account.new, ada, replicate_succ] at hlist

theorem account_lobby {n i : Nat} (h : i < n) : account (lobby n).db.accounts (guest i).uuid =
    some (guest i) := by
  have hkd : Keyed Account.uuid ((List.range n).map guest) := by
    unfold Keyed
    rw [List.map_map]
    exact nodup_range.map fun i j hij => guest_inj hij
  exact hkd.getRow_eq_some_iff.mpr ⟨List.mem_map_of_mem (mem_range.mpr h), rfl⟩

theorem find_push (h : s.find r.id = none) : (s.push r).find r.id = some r := by
  unfold State.find State.push
  rw [getRow_append_singleton]
  simp [show getRow Request.id s.requests r.id = none from h]

theorem replace_push (h : s.find r.id = none) (hid : r'.id = r.id) :
    (s.push r).replace r' = s.push r' := by
  unfold State.replace State.push
  rw [put_append_singleton h hid]

theorem find_gathered (n m : Nat) : (gathered n m).find m = none := by
  rw [State.find, getRow_eq_none_iff]
  intro r hr
  obtain ⟨i, hi, rfl⟩ := List.mem_map.mp hr
  exact (mem_range.mp hi).ne

/-- The request `m` is at a phase, behind those that passed the count. -/
def calling (n m : Nat) (phase : Phase) (admitted : List (String × String)) : State :=
  (gathered n m).push { call (lobby n) m with phase, admitted }

theorem find_calling (n m : Nat) (phase : Phase) (admitted : List (String × String)) :
    (calling n m phase admitted).find m = some { call (lobby n) m with phase, admitted } :=
  find_push (r := { call (lobby n) m with phase, admitted }) (find_gathered n m)

theorem replace_calling (n m : Nat) (phase phase' : Phase)
    (admitted admitted' : List (String × String)) :
    (calling n m phase admitted).replace
        { call (lobby n) m with phase := phase', admitted := admitted' } =
      calling n m phase' admitted' :=
  replace_push (r := { call (lobby n) m with phase, admitted }) (find_gathered n m) rfl

theorem calling_call (n m : Nat) :
    calling n m (.began 0) (call (lobby n) m).admitted = gathered n (m + 1) := by
  simp [calling, gathered, State.push, range_succ]
  rfl

/-- The next request passes the count: no conversation is there to be counted. -/
theorem run_gathered {n m : Nat} (h : m < n) : (starting plain).run (gathered n m)
    [.create ada [(guest m).uuid] (guest m).uuid, .look m, .reach m, .count m, .begin m] =
      some (gathered n (m + 1)) := by
  have hoths : createOthers ada [(guest m).uuid] (lobby n) = .ok [guest m] := by
    simp [createOthers, require, resolveAll, resolve, account_lobby h, guest_ne_ada, bind,
      Except.bind, pure, Except.pure, show (guest m).status = .active from rfl]
  have hcr : step plain (gathered n m) (.create ada [(guest m).uuid] (guest m).uuid) =
      some (calling n m .starting []) := by
    simp only [step, gathered, hoths]
    rfl
  have hlook : step plain (calling n m .starting []) (.look m) =
      some (calling n m (.reaching [guest m]) []) := by
    simp only [step, find_calling, State.advance]
    exact congrArg some (replace_calling n m .starting _ [] [])
  have hreach : step plain (calling n m (.reaching [guest m]) []) (.reach m) =
      some (calling n m (.reaching []) (call (lobby n) m).admitted) := by
    simp only [step, find_calling, State.advance]
    exact congrArg some (replace_calling n m (.reaching [guest m]) _ [] _)
  have hcount : step plain (calling n m (.reaching []) (call (lobby n) m).admitted) (.count m) =
      some (calling n m .ready (call (lobby n) m).admitted) := by
    simp only [step, find_calling, State.advance]
    exact congrArg some (replace_calling n m (.reaching []) _ _ _)
  have hbegin : step plain (calling n m .ready (call (lobby n) m).admitted) (.begin m) =
      some (gathered n (m + 1)) := by
    simp only [step, find_calling, State.advance]
    rw [← calling_call]
    exact congrArg some (replace_calling n m .ready _ _ _)
  simp only [System.run, starting, hcr, hlook, hreach, hcount, hbegin, Option.bind_some]

theorem reachable_gathered {n m : Nat} (h : m ≤ n) :
    (starting plain).Reachable (gathered n m) := by
  induction m with
  | zero => exact ⟨gathered n 0, ⟨rfl, rfl⟩, .refl⟩
  | succ m ih => exact (ih (Nat.le_of_succ_le h)).steps (System.steps_of_run (run_gathered h))

/-- A request whose set has no conversation, under a new key and with a new id, inserts. -/
theorem creation_fresh {key : String} {e : Moment} {b : Backend} (hauto : r.automatic = false)
    (hk : r.key = some key)
    (hlen : 2 ≤ r.participants.dedup.length ∧ r.participants.dedup.length ≤ 100)
    (hrec : ∀ row ∈ b.records, row.key ≠ ⟨r.creator, "conversations.create", key⟩)
    (hcan : b.canonicalDirect r.participants.dedup = none)
    (hfr : b.db.conversation e.conversationId = none) :
    ∃ records, (r.creation d e b).2 =
        { insertDirect e r.creator r.participants.dedup b with records } ∧
      ∀ row ∈ records, row ∈ b.records ∨
        row.key = ⟨r.creator, "conversations.create", key⟩ := by
  obtain ⟨records, hcr, hrecs⟩ :=
    createConversation_fresh (d := d) hlen.1 hlen.2 hrec hcan hfr
  refine ⟨records, ?_, hrecs⟩
  unfold Request.creation
  rw [if_neg (by simp [hauto]), hk]
  exact congrArg Prod.snd (transaction_of_silent hcr)

/-- The first `k` of the requests have committed, all at one time. -/
structure Committed (n k : Nat) (s : State) : Prop where
  now : s.now = 0
  waiting : ∀ i, k ≤ i → i < n → s.find i = some (call (lobby n) i)
  directs : ∀ row ∈ s.backend.directs, ∃ i < k, row.participants = [(guest i).actor, ada]
  conversations : ∀ row ∈ s.backend.db.conversations, row.id < k
  records : ∀ row ∈ s.backend.records, ∃ i < k,
    row.key = ⟨ada, "conversations.create", (guest i).uuid⟩
  counted : s.committedWithin ada 0 = k

theorem Committed.commit {n k : Nat} (h : Committed n k s) (hk : k < n) :
    ∃ s', step plain s (.commit k k) = some s' ∧ Committed n (k + 1) s' := by
  have hne : ∀ i < k, (guest i).uuid ≠ (guest k).uuid := fun i hi he => hi.ne (guest_inj he)
  have hactors : (guest k).actor ≠ ada := fun he => guest_ne_ada k (congrArg ActorRef.id he)
  have hdedup : (call (lobby n) k).participants.dedup = [(guest k).actor, ada] :=
    dedup_eq_self.mpr (by simp [call, hactors])
  have hcan : s.backend.canonicalDirect (call (lobby n) k).participants.dedup = none := by
    rw [hdedup, canonicalDirect, Option.map_eq_none_iff, find?_eq_none]
    intro row hrow hsame
    obtain ⟨i, hi, hparts⟩ := h.directs row hrow
    simp only [sameSet, hparts, Bool.and_eq_true, List.all_eq_true,
      decide_eq_true_eq] at hsame
    rcases mem_cons.mp (hsame.1.1 (guest i).actor (by simp)) with he | he
    · exact hne i hi (congrArg ActorRef.id he)
    · exact guest_ne_ada i (congrArg ActorRef.id (mem_singleton.mp he))
  obtain ⟨records, hcreation, hrecs⟩ := creation_fresh (d := plain) (e := ⟨0, k, 0, 0⟩)
    (r := call (lobby n) k) (b := s.backend) rfl rfl (by simp [hdedup])
    (by
      intro row hrow hkey
      obtain ⟨i, hi, hrowkey⟩ := h.records row hrow
      rw [hrowkey] at hkey
      exact hne i hi (congrArg Idempotency.Key.idempotencyKey hkey))
    hcan (getRow_eq_none_iff.mpr fun row hrow => (h.conversations row hrow).ne)
  have hstep : step plain s (.commit k k) = some { s.close k with
      backend := { insertDirect ⟨0, k, 0, 0⟩ ada [(guest k).actor, ada] s.backend with records }
      created := s.created ++ [⟨⟨k, [(guest k).actor, ada], ada, 0⟩, s.now, false,
        (call (lobby n) k).admitted⟩] } := by
    simp only [step, h.waiting k (Nat.le_refl k) hk, State.advance, call]
    rw [show (⟨k, ada, false, _, _, _, _, _⟩ : Request) = call (lobby n) k from rfl, hcreation,
      hdedup]
    simp only [insertDirect, drop_left, map_cons, map_nil]
    rfl
  refine ⟨_, hstep, h.now, ?_, ?_, ?_, ?_, ?_⟩
  · intro i hi hin
    rw [← h.waiting i (Nat.le_of_succ_le hi) hin]
    refine getRow_filter_of_true ?_
    intro r hr
    simpa [hr] using (Nat.lt_of_succ_le hi).ne'
  · refine forall_mem_concat.mpr ⟨fun row hrow => ?_, k, Nat.lt_succ_self k, rfl⟩
    obtain ⟨i, hi, hparts⟩ := h.directs row hrow
    exact ⟨i, hi.trans (Nat.lt_succ_self k), hparts⟩
  · exact forall_mem_concat.mpr ⟨fun row hrow =>
      (h.conversations row hrow).trans (Nat.lt_succ_self k), Nat.lt_succ_self k⟩
  · intro row hrow
    rcases hrecs row hrow with hrow | hkey
    · obtain ⟨i, hi, hkey⟩ := h.records row hrow
      exact ⟨i, hi.trans (Nat.lt_succ_self k), hkey⟩
    · exact ⟨k, Nat.lt_succ_self k, hkey⟩
  · have hcnt := h.counted
    unfold State.committedWithin at hcnt ⊢
    rw [countP_append, hcnt, countP_singleton, h.now]
    rfl

theorem committed_gathered (n : Nat) : Committed n 0 (gathered n n) where
  now := rfl
  waiting := by
    intro i _ hi
    have hkd : Keyed Request.id (gathered n n).requests := by
      unfold Keyed gathered
      rw [List.map_map]
      exact nodup_range.map fun i j hij => hij
    exact hkd.getRow_eq_some_iff.mpr ⟨List.mem_map_of_mem (mem_range.mpr hi), rfl⟩
  directs := by simp [gathered, lobby, Backend.empty]
  conversations := by simp [gathered, lobby, Database.empty]
  records := by simp [gathered, lobby, Backend.empty]
  counted := rfl

/-- There is no bound: as many commit at one time as have passed the count together. -/
theorem exists_committed {n k : Nat} (h : k ≤ n) :
    ∃ s, (starting plain).Reachable s ∧ Committed n k s := by
  induction k with
  | zero => exact ⟨_, reachable_gathered (Nat.le_refl n), committed_gathered n⟩
  | succ k ih =>
    obtain ⟨s, hs, hcom⟩ := ih (Nat.le_of_succ_le h)
    obtain ⟨s', hstep, hnext⟩ := hcom.commit h
    exact ⟨s', System.ReachableWhile.step (l := .commit k k) hs trivial hstep, hnext⟩

/-- 101 requests of one account pass the count together, and all of them commit. -/
theorem first_contacts_over_budget :
    ∃ s, (starting plain).Reachable s ∧ firstContactsPerHour < s.committedWithin ada 0 := by
  obtain ⟨s, hs, hcommitted⟩ := exists_committed (Nat.le_refl (firstContactsPerHour + 1))
  exact ⟨s, hs, hcommitted.counted ▸ Nat.lt_succ_self _⟩

end SiliconDm.Server.FirstContact
