import SiliconDm.Server.Ting

/-!
# Workers over the handoffs

Several workers claim, send, accept, retry and discard handoffs, and account deletions discard
rows, in any interleaving, with the clock moving between any two steps.

A claim is a transaction: its `SELECT … FOR UPDATE SKIP LOCKED` locks rows that no other open
transaction has locked, and each selected row is updated before the commit. The order and the
number of the rows a select takes are left open. The `UPDATE` of an account deletion holds its
row locks to the commit of that transaction. The other statements commit by themselves; they
wait for a locked row and then read it again, so a step of theirs finds its row unlocked.

A commit whose reply is lost changes the table and hands no claim to the worker. A claim that
was handed out is never forgotten: its holder may come back with it at any time. `returned`,
`authorized` and `sent` are history.

Here are the system, what a statement does to a row, and the locks of the open transactions.
-/

namespace SiliconDm.Server.Ting

open Base List Option

/-! ### The system -/

/-- What an open transaction is for. -/
inductive Work where
  | claim (owner : String) (limit leaseMillis : Nat)
  | delete
  deriving DecidableEq, Repr

/-- An open transaction: the rows it has locked, the versions it has written, and of a claim
the rows still to handle, what it will hand out, and how far its loop is. -/
structure Open where
  id : Nat
  work : Work
  locks : List Nat
  writes : List Handoff
  records : List Nat
  handed : List Handed
  discarded : Nat
  drained : Bool
  deriving DecidableEq, Repr

/-- `participants` is the view `effective_conversation_participants`, `publicIds` the current
ids of the accounts. -/
structure State where
  now : Nat
  rows : List Handoff
  participants : List (Nat × ActorRef)
  publicIds : List (String × String)
  active : List Open
  fresh : Nat
  handed : List Handed
  returned : List Nat
  authorized : List Claim
  sent : List Claim
  deriving DecidableEq, Repr

inductive Action where
  | tick (elapsed : Nat)
  | enqueue (reference : Reference)
  | outside (participants : List (Nat × ActorRef)) (publicIds : List (String × String))
  | beginClaim (owner : String) (limit leaseMillis : Nat)
  | select (tx : Nat) (picks : List Nat)
  | handle (tx : Nat)
  | beginDelete (uuid : String)
  | commit (tx : Nat) (reply : Bool)
  | rollback (tx : Nat)
  | authorize (c : Claim)
  | send (c : Claim)
  | accept (deliveryId leaseId : Nat) (tingId : String) (createdAt : Nat) (silent : Bool)
  | retry (deliveryId leaseId nextAttemptAt : Nat) (errorCode : String)
  | discard (reason : String) (picks : List Nat)
  deriving DecidableEq, Repr

def State.row (s : State) (id : Nat) : Option Handoff :=
  getRow Handoff.id s.rows id

def State.find (s : State) (tx : Nat) : Option Open :=
  getRow Open.id s.active tx

def State.unlocked (s : State) (tx id : Nat) : Bool :=
  s.active.all fun t => t.id = tx || !t.locks.contains id

/-- What a transaction sees of a row: its own version, or the committed one. -/
def State.seen (s : State) (t : Open) (id : Nat) : Option Handoff :=
  (getRow Handoff.id t.writes id).or (s.row id)

def State.replace (s : State) (t : Open) : State :=
  { s with active := put Open.id t s.active }

def State.close (s : State) (tx : Nat) : State :=
  { s with active := s.active.filter (·.id ≠ tx) }

def written (writes rows : List Handoff) : List Handoff :=
  rows.map fun r => (getRow Handoff.id writes r.id).getD r

/-- The loop of a claim goes on. `ting.rs:105–107,126–128`. -/
def Open.loops (t : Open) : Bool :=
  t.handed.isEmpty && t.discarded < maxDiscardsPerClaim && !t.drained

def State.begin (s : State) (work : Work) (writes : List Handoff) : State :=
  { s with
    active := s.active ++ [⟨s.fresh, work, writes.map Handoff.id, writes, [], [], 0, false⟩]
    fresh := s.fresh + 1 }

/-- The `SELECT` of a claim takes some due rows that are not locked; none ends the loop. -/
def State.select (s : State) (t : Open) (limit : Nat) (picks : List Nat) : Option State :=
  if t.records.isEmpty && t.loops && picks.length ≤ limit && decide picks.Nodup &&
      picks.all fun id => s.unlocked t.id id &&
        (s.seen t id).any fun h => h.due s.now s.participants then
    some (s.replace { t with
      locks := t.locks ++ picks
      records := picks
      drained := picks.isEmpty })
  else none

/-- The next selected row; an error ends the transaction. -/
def State.handle (p : Producer) (s : State) (t : Open) (owner : String) (leaseMillis : Nat) :
    Option State :=
  match t.records with
  | [] => none
  | id :: records =>
    match s.seen t id with
    | none => none
    | some h =>
      match handleRecord p s.now s.fresh leaseMillis owner
          (s.publicIds.lookup h.reference.target.id) h with
      | .error _ => some (s.close t.id)
      | .ok (h, handed) =>
        some { s.replace { t with
            records := records
            writes := t.writes ++ [h]
            handed := t.handed ++ handed.toList
            discarded := t.discarded + if handed.isNone then 1 else 0 } with
          fresh := s.fresh + 1 }

/-- The `UPDATE` of `delete_account`. `accounts.rs:583–584`. -/
def State.deleting (p : Producer) (s : State) (uuid : String) : Except Refusal (List Handoff) :=
  (s.rows.filter fun h => h.reference.target.id = uuid && h.acceptance.isNone &&
    h.discard.isNone).mapM fun h =>
      h.update p.serde { h with discard := some ⟨s.now, "account_deleted"⟩ }

/-- The `UPDATE` of `discard_ting_handoffs` on the picked rows. -/
def State.discarding (p : Producer) (s : State) (reason : String) (picks : List Nat) :
    Except Refusal (List Handoff) := do
  validateText reason "Ting discard reason"
  (s.rows.filter fun h => picks.contains h.id && s.unlocked s.fresh h.id &&
    h.unsent s.now).mapM fun h => h.update p.serde { h with discard := some ⟨s.now, reason⟩ }

/-- A statement on one row that commits by itself: the row is not locked, and a new version is
written if the statement found the row its own. -/
def State.alone (s : State) (id leaseId : Nat)
    (statement : Option Handoff → Except Refusal (Option Handoff)) : Option State :=
  if s.unlocked s.fresh id then
    match statement (s.row id) with
    | .ok (some h) =>
      some { s with rows := written [h] s.rows, returned := leaseId :: s.returned }
    | .ok none => some s
    | .error _ => some s
  else none

def step (p : Producer) (s : State) : Action → Option State
  | .tick elapsed => some { s with now := s.now + elapsed }
  | .enqueue reference =>
    if (s.row reference.deliveryId).isNone then
      some { s with rows := s.rows ++ [.enqueued reference s.now] }
    else none
  | .outside participants publicIds => some { s with participants, publicIds }
  | .beginClaim owner limit leaseMillis =>
    match claimArguments p owner limit leaseMillis with
    | .error _ => none
    | .ok _ => some (s.begin (.claim owner limit leaseMillis) [])
  | .select tx picks =>
    match s.find tx with
    | some t =>
      match t.work with
      | .claim _ limit _ => s.select t limit picks
      | .delete => none
    | none => none
  | .handle tx =>
    match s.find tx with
    | some t =>
      match t.work with
      | .claim owner _ leaseMillis => s.handle p t owner leaseMillis
      | .delete => none
    | none => none
  | .beginDelete uuid =>
    match s.deleting p uuid with
    | .error _ => none
    | .ok writes =>
      if writes.all fun h => s.unlocked s.fresh h.id then some (s.begin .delete writes) else none
  | .commit tx reply =>
    match s.find tx with
    | some t =>
      if t.records.isEmpty && (t.work = .delete || !t.loops) then
        some { s.close tx with
          rows := written t.writes s.rows
          handed := s.handed ++ if reply then t.handed else [] }
      else none
    | none => none
  | .rollback tx => (s.find tx).map fun _ => s.close tx
  | .authorize c =>
    if s.handed.any (·.claim = c) && tingDeliveryAuthorized s.now s.participants c
        (s.row c.deliveryId) then some { s with authorized := c :: s.authorized }
    else none
  | .send c => if s.authorized.contains c then some { s with sent := c :: s.sent } else none
  | .accept deliveryId leaseId tingId createdAt silent =>
    s.alone deliveryId leaseId (acceptTingDelivery p s.now leaseId tingId createdAt silent)
  | .retry deliveryId leaseId nextAttemptAt errorCode =>
    s.alone deliveryId leaseId (retryTingDelivery p s.now leaseId nextAttemptAt errorCode)
  | .discard reason picks =>
    match s.discarding p reason picks with
    | .error _ => some s
    | .ok writes => some { s with rows := written writes s.rows }

structure Initial (p : Producer) (s : State) : Prop where
  keyed : Keyed Handoff.id s.rows
  checked : ∀ h ∈ s.rows, h.violated p.serde = none
  active : s.active = []
  handed : s.handed = []
  returned : s.returned = []
  authorized : s.authorized = []
  sent : s.sent = []

def handoffs (p : Producer) : System State Action where
  init := Initial p
  step := step p

variable {p : Producer} {s s' : State} {a : Action}

/-! ### What happens to a row -/

variable {serde : Serde} {h h' w : Handoff} {now now' id leaseId leaseMillis tx limit : Nat}
  {t : Open} {owner uuid : String} {new : Handoff → Handoff} {settled : Handoff → Bool}
  {rows writes : List Handoff} {d : Discard} {picks : List Nat}

theorem violated_eq_none_iff : h.violated serde = none ↔
    (∀ b ∈ h.requestBody, b.utf8ByteSize ≤ 262144 ∧ serde.jsonbObject b = true) ∧
    (∀ c ∈ h.lastErrorCode, lengthBetween 1 255 c = true) ∧
    (∀ l ∈ h.lease, lengthBetween 1 255 l.owner = true) ∧
    (∀ a ∈ h.acceptance, (lengthBetween 1 255 a.tingId = true ∧ h.requestBody.isSome = true) ∧
      h.lease.isNone = true) ∧
    (∀ d ∈ h.discard, lengthBetween 1 255 d.reason = true) ∧
    ¬ (h.discard.isSome = true ∧ h.acceptance.isSome = true) := by
  unfold Handoff.violated
  constructor
  · intro hv
    split_ifs at hv with h1 h2 h3 h4 h5 h6
    simp only [Bool.not_eq_true', Bool.not_eq_false, Option.all_eq_true, Bool.and_eq_true,
      decide_eq_true_eq] at h1 h2 h3 h4 h5 h6
    exact ⟨h1, h2, h3, h4, h5, h6⟩
  · rintro ⟨h1, h2, h3, h4, h5, h6⟩
    rw [if_neg, if_neg, if_neg, if_neg, if_neg, if_neg] <;>
      simpa only [Bool.not_eq_true', Bool.not_eq_false, Option.all_eq_true, Bool.and_eq_true,
        decide_eq_true_eq]

/-- An `UPDATE` that passes keeps the reference and a stored request, and an accepted row. -/
theorem update_eq_ok {old new : Handoff} (hu : old.update serde new = .ok h) :
    h = new ∧ new.violated serde = none ∧ new.reference = old.reference ∧
      (∀ b ∈ old.requestBody, new.requestBody = some b) ∧
      (old.acceptance.isSome = true → new = old) := by
  unfold Handoff.update at hu
  split_ifs at hu with hfixed hacc
  simp only [Bool.or_eq_true, decide_eq_true_eq, Bool.and_eq_true, not_or, not_and,
    Decidable.not_not] at hfixed hacc
  cases hv : new.violated serde with
  | some name =>
    rw [hv] at hu
    cases hu
  | none =>
    rw [hv] at hu
    cases hu
    refine ⟨rfl, rfl, hfixed.1, ?_, hacc⟩
    intro b hb
    rw [hfixed.2 (by rw [hb]; rfl)]
    exact hb

/-- A row nobody has accepted or discarded and nobody leases. -/
structure Handoff.Idle (now : Nat) (h : Handoff) : Prop where
  unaccepted : h.acceptance = none
  kept : h.discard = none
  unleased : ∀ l ∈ h.lease, l.expiresAt ≤ now

theorem Handoff.Idle.mono (hi : h.Idle now) (hle : now ≤ now') : h.Idle now' :=
  ⟨hi.unaccepted, hi.kept, fun l hl => (hi.unleased l hl).trans hle⟩

theorem idle_of_due {participants : List (Nat × ActorRef)} (hd : h.due now participants = true) :
    h.Idle now := by
  unfold Handoff.due at hd
  simp only [Bool.and_eq_true, isNone_iff_eq_none, Option.all_eq_true,
    decide_eq_true_eq] at hd
  exact ⟨hd.1.1.1.1, hd.1.1.1.2, hd.1.2⟩

/-- What a transaction does to a row: a lease with the row's one request, or a discard. -/
inductive Deferred (now : Nat) (h : Handoff) : Handoff → Prop
  | leased {body : String} {l : Lease} (hi : h.Idle now) (hbody : ∀ b ∈ h.requestBody, b = body) :
      Deferred now h { h with requestBody := some body, lease := some l }
  | discarded {d : Discard} (hopen : h.acceptance = none) (hkept : h.discard = none) :
      Deferred now h { h with discard := some d }

theorem Deferred.mono (hd : Deferred now h h') (hle : now ≤ now') : Deferred now' h h' := by
  cases hd with
  | leased hi hbody => exact .leased (hi.mono hle) hbody
  | discarded hopen hkept => exact .discarded hopen hkept

theorem Deferred.id_eq (hd : Deferred now h h') : h'.id = h.id := by
  cases hd <;> rfl

inductive Effect (now : Nat) : Action → Handoff → Handoff → Prop
  | kept {a : Action} {h : Handoff} : Effect now a h h
  | committed {tx : Nat} {reply : Bool} {h h' : Handoff} (hd : Deferred now h h') :
      Effect now (.commit tx reply) h h'
  | discarded {reason : String} {picks : List Nat} {h : Handoff} {d : Discard}
      (hopen : h.acceptance = none) (hkept : h.discard = none) :
      Effect now (.discard reason picks) h { h with discard := some d }
  | accepted {leaseId createdAt : Nat} {tingId : String} {silent : Bool} {h : Handoff}
      (hlease : h.leasedTo now leaseId = true) (hopen : h.acceptance = none) :
      Effect now (.accept h.id leaseId tingId createdAt silent) h
        (h.accepted ⟨now, tingId, createdAt, silent⟩)
  | retried {leaseId nextAttemptAt : Nat} {errorCode : String} {h : Handoff}
      (hlease : h.leasedTo now leaseId = true) (hopen : h.acceptance = none) :
      Effect now (.retry h.id leaseId nextAttemptAt errorCode) h
        (h.retried nextAttemptAt errorCode)

theorem Effect.reference (he : Effect now a h h') : h'.reference = h.reference := by
  cases he with
  | kept | discarded | accepted | retried => rfl
  | committed hd => cases hd <;> rfl

theorem Effect.id_eq (he : Effect now a h h') : h'.id = h.id := by
  unfold Handoff.id
  rw [he.reference]

/-- A stored request stays. -/
theorem Effect.requestBody (he : Effect now a h h') {b : String} (hb : h.requestBody = some b) :
    h'.requestBody = some b := by
  cases he with
  | kept | discarded | accepted | retried => exact hb
  | committed hd =>
    cases hd with
    | leased hi hbody =>
      obtain rfl := hbody b hb
      rfl
    | discarded => exact hb

/-- An accepted row does not change. -/
theorem Effect.of_accepted (he : Effect now a h h') (ha : h.acceptance.isSome = true) : h' = h := by
  cases he with
  | kept => rfl
  | committed hd =>
    cases hd with
    | leased hi => simp [hi.unaccepted] at ha
    | discarded hopen => simp [hopen] at ha
  | discarded hopen | accepted _ hopen | retried _ hopen => simp [hopen] at ha

/-! ### Statements -/

theorem seen_of_no_write (h : ∀ w ∈ t.writes, w.id ≠ id) : s.seen t id = s.row id := by
  unfold State.seen
  rw [getRow_eq_none_iff.mpr h, none_or]

def Leases (h : Handoff) (x : Handed) : Prop :=
  h.id = x.claim.deliveryId ∧ h.requestBody = some x.claim.requestBody ∧
    ∃ l, h.lease = some l ∧ l.id = x.claim.leaseId ∧ l.expiresAt = x.expiresAt

/-- A handled row was leased with its request, for the claim that is handed out, or discarded. -/
theorem handleRecord_eq_ok {publicId : Option String} {handed : Option Handed} (hi : h.Idle now)
    (hr : handleRecord p now leaseId leaseMillis owner publicId h = .ok (h', handed)) :
    Deferred now h h' ∧ h'.violated p.serde = none ∧ (∀ x ∈ handed, Leases h' x) ∧
      (handed = none → h'.discard.isSome = true) := by
  unfold handleRecord at hr
  split at hr
  · obtain ⟨new, hu, hr⟩ := bind_eq_ok.mp hr
    cases hr
    obtain ⟨rfl, hv, -⟩ := update_eq_ok hu
    exact ⟨.discarded hi.unaccepted hi.kept, hv, by simp, fun _ => rfl⟩
  · obtain ⟨body, -, hr⟩ := bind_eq_ok.mp hr
    obtain ⟨new, hu, hr⟩ := bind_eq_ok.mp hr
    obtain ⟨originator, -, hr⟩ := bind_eq_ok.mp hr
    cases hr
    obtain ⟨rfl, hv, -, hbody, -⟩ := update_eq_ok hu
    refine ⟨.leased hi fun b hb => (Option.some.inj (hbody b hb)).symm, hv, ?_, nofun⟩
    intro x hx
    cases hx
    exact ⟨rfl, rfl, _, rfl, rfl, rfl⟩

/-- The progress a worker records is of a row it leases and nobody has accepted. -/
theorem recordProgress_eq_ok {row : Option Handoff}
    (hr : recordProgress p now leaseId new settled row = .ok (some h')) :
    ∃ h, row = some h ∧ h.leasedTo now leaseId = true ∧ h.acceptance = none ∧ h' = new h ∧
      h'.violated p.serde = none := by
  unfold recordProgress at hr
  split at hr
  · rename_i h hmine
    obtain ⟨hrow, hmine⟩ := filter_eq_some_iff.mp hmine
    simp only [Bool.and_eq_true, isNone_iff_eq_none] at hmine
    cases hu : h.update p.serde (new h) with
    | error e =>
      rw [hu] at hr
      cases hr
    | ok new' =>
      rw [hu] at hr
      cases hr
      obtain ⟨rfl, hv, -⟩ := update_eq_ok hu
      exact ⟨h, hrow, hmine.1, hmine.2, rfl, hv⟩
  · split_ifs at hr
    cases hr

/-- The versions a discarding `UPDATE` writes: one for each row it chose. -/
theorem mem_discards
    (hm : (rows.mapM fun h => h.update serde { h with discard := some d }) = .ok writes)
    (hw : w ∈ writes) : ∃ h ∈ rows, w = { h with discard := some d } ∧ w.violated serde = none := by
  obtain ⟨h, hh, hu⟩ := forall₂_mem_right (forall₂_of_mapM hm) hw
  obtain ⟨rfl, hv, -⟩ := update_eq_ok hu
  exact ⟨h, hh, rfl, hv⟩

theorem map_id_discards
    (hm : (rows.mapM fun h => h.update serde { h with discard := some d }) = .ok writes) :
    writes.map Handoff.id = rows.map Handoff.id := by
  have hrel := forall₂_of_mapM hm
  clear hm
  induction hrel with
  | nil => rfl
  | cons hu _ ih =>
    rw [map_cons, map_cons, ih]
    obtain ⟨rfl, -⟩ := update_eq_ok hu
    rfl

/-! ### Transactions -/

/-- What holds of an open transaction: it has locked the rows it has selected or written, its
versions are what a transaction may make of the committed rows, and what it will hand out is
leased by them. -/
structure Sound (p : Producer) (s : State) (t : Open) : Prop where
  keyed : Keyed Handoff.id t.writes
  written : ∀ w ∈ t.writes, w.id ∈ t.locks ∧ w.violated p.serde = none ∧
    ∃ h ∈ s.rows, h.id = w.id ∧ Deferred s.now h w
  versions : ∀ w ∈ t.writes, w.discard.isSome = true ∨ t.handed ≠ []
  distinct : t.records.Nodup
  selected : ∀ id ∈ t.records, id ∈ t.locks ∧ (∀ w ∈ t.writes, w.id ≠ id) ∧
    ∃ h ∈ s.rows, h.id = id ∧ h.Idle s.now
  handed : ∀ x ∈ t.handed, ∃ w ∈ t.writes, Leases w x

/-- A transaction stays sound while time passes and its locked rows stay. -/
theorem Sound.frame (h : Sound p s t) (hnow : s.now ≤ s'.now)
    (hrs : ∀ r ∈ s.rows, r.id ∈ t.locks → r ∈ s'.rows) : Sound p s' t where
  keyed := h.keyed
  written := by
    intro w hw
    obtain ⟨hlock, hv, r, hr, hid, hd⟩ := h.written w hw
    exact ⟨hlock, hv, r, hrs r hr (hid ▸ hlock), hid, hd.mono hnow⟩
  versions := h.versions
  distinct := h.distinct
  selected := by
    intro id hid
    obtain ⟨hlock, hnew, r, hr, rfl, hi⟩ := h.selected id hid
    exact ⟨hlock, hnew, r, hrs r hr hlock, rfl, hi.mono hnow⟩
  handed := h.handed

theorem Open.handed_eq_nil (h : t.loops = true) : t.handed = [] := by
  unfold Open.loops at h
  simp only [Bool.and_eq_true, List.isEmpty_iff] at h
  exact h.1.1

/-- While the loop of a claim goes on its own versions are discarded, so that it finds none of them
due. -/
theorem Sound.unwritten (h : Sound p s t) (hloops : t.loops = true) (hseen : s.seen t id = some h')
    (hi : h'.Idle now) : ∀ w ∈ t.writes, w.id ≠ id := by
  rintro w hw rfl
  have hown : s.seen t w.id = some w := by
    unfold State.seen
    rw [h.keyed.getRow_eq_some_iff.mpr ⟨hw, rfl⟩]
    rfl
  cases hown.symm.trans hseen
  rcases h.versions _ hw with hd | hne
  · simp [hi.kept] at hd
  · exact hne (Open.handed_eq_nil hloops)

/-- The discipline of the open transactions. -/
structure Locked (p : Producer) (s : State) : Prop where
  ids : Keyed Open.id s.active
  below : ∀ t ∈ s.active, t.id < s.fresh
  exclusive : ∀ t ∈ s.active, ∀ u ∈ s.active, t.id ≠ u.id → t.locks.Disjoint u.locks
  sound : ∀ t ∈ s.active, Sound p s t

theorem unlocked_iff : s.unlocked tx id = true ↔ ∀ t ∈ s.active, t.id ≠ tx → id ∉ t.locks := by
  unfold State.unlocked
  simp only [List.all_eq_true, Bool.or_eq_true, decide_eq_true_eq, Bool.not_eq_true',
    contains_eq_mem, decide_eq_false_iff_not]
  constructor
  · intro h t ht hne
    exact (h t ht).resolve_left hne
  · intro h t ht
    by_cases hid : t.id = tx
    · exact .inl hid
    · exact .inr (h t ht hid)

/-- A row that is free for a new transaction is locked by none. -/
theorem Locked.not_mem_locks (h : Locked p s) (hu : s.unlocked s.fresh id = true)
    (ht : t ∈ s.active) : id ∉ t.locks :=
  unlocked_iff.mp hu t ht (h.below t ht).ne

theorem mem_of_find (h : s.find tx = some t) : t ∈ s.active ∧ t.id = tx :=
  mem_of_getRow_eq_some h

theorem Locked.frame (h : Locked p s) (hact : s'.active = s.active) (hfr : s.fresh ≤ s'.fresh)
    (hnow : s.now ≤ s'.now)
    (hrs : ∀ t ∈ s.active, ∀ r ∈ s.rows, r.id ∈ t.locks → r ∈ s'.rows) : Locked p s' where
  ids := by
    rw [hact]
    exact h.ids
  below := by
    rw [hact]
    exact fun t ht => (h.below t ht).trans_le hfr
  exclusive := by
    rw [hact]
    exact h.exclusive
  sound := by
    rw [hact]
    exact fun t ht => (h.sound t ht).frame hnow (hrs t ht)

theorem Locked.close (h : Locked p s) (tx : Nat) : Locked p (s.close tx) where
  ids := h.ids.filter _
  below t ht := h.below t (mem_of_mem_filter ht)
  exclusive t ht u hu := h.exclusive t (mem_of_mem_filter ht) u (mem_of_mem_filter hu)
  sound t ht := (h.sound t (mem_of_mem_filter ht)).frame le_rfl fun _ hr _ => hr

theorem Locked.begin (h : Locked p s) (work : Work) (hkd : Keyed Handoff.id writes)
    (hfree : ∀ w ∈ writes, s.unlocked s.fresh w.id = true)
    (hwr : ∀ w ∈ writes, w.violated p.serde = none ∧
      ∃ h ∈ s.rows, h.id = w.id ∧ Deferred s.now h w)
    (hdisc : ∀ w ∈ writes, w.discard.isSome = true) : Locked p (s.begin work writes) where
  ids := h.ids.append_singleton (getRow_eq_none_iff.mpr fun t ht => (h.below t ht).ne)
  below := by
    exact forall_mem_concat.mpr
      ⟨fun t ht => Nat.lt_succ_of_lt (h.below t ht), Nat.lt_succ_self _⟩
  exclusive := by
    have hnew : ∀ t ∈ s.active, t.locks.Disjoint (writes.map Handoff.id) := by
      intro t ht id hid hnew
      obtain ⟨w, hw, rfl⟩ := List.mem_map.mp hnew
      exact h.not_mem_locks (hfree w hw) ht hid
    intro t ht u hu hne
    rcases mem_append.mp ht with ht | ht <;> rcases mem_append.mp hu with hu | hu
    · exact h.exclusive t ht u hu hne
    · obtain rfl := mem_singleton.mp hu
      exact hnew t ht
    · obtain rfl := mem_singleton.mp ht
      exact disjoint_symm (hnew u hu)
    · rw [mem_singleton.mp ht, mem_singleton.mp hu] at hne
      exact absurd rfl hne
  sound := by
    intro t ht
    rcases mem_concat.mp ht with ht | rfl
    · exact (h.sound t ht).frame le_rfl fun _ hr _ => hr
    · exact ⟨hkd, fun w hw => ⟨List.mem_map_of_mem hw, hwr w hw⟩,
        fun w hw => .inl (hdisc w hw), nodup_nil, by simp, by simp⟩

/-- A transaction replaced by a sound one whose new locks were free. -/
theorem Locked.replace (h : Locked p s) {t' : Open} (ht : t ∈ s.active) (hsd : Sound p s t')
    (hid : t'.id = t.id) (hlocks : ∀ id ∈ t'.locks, id ∈ t.locks ∨ s.unlocked t.id id = true) :
    Locked p (s.replace t') := by
  have hm : ∀ u ∈ (s.replace t').active, u = t' ∨ u ∈ s.active ∧ u.id ≠ t'.id :=
    fun u hu => mem_put hu
  have hnew : ∀ u ∈ s.active, u.id ≠ t'.id → t'.locks.Disjoint u.locks := by
    intro u hu hne id hlock hlock'
    rw [hid] at hne
    rcases hlocks id hlock with hold | hfree
    · exact h.exclusive t ht u hu hne.symm hold hlock'
    · exact unlocked_iff.mp hfree u hu hne hlock'
  constructor
  · exact h.ids.put t'
  · intro u hu
    rcases hm u hu with rfl | ⟨hu, -⟩
    · rw [hid]
      exact h.below t ht
    · exact h.below u hu
  · intro u hu v hv hne
    rcases hm u hu with rfl | ⟨hu', hut⟩ <;> rcases hm v hv with rfl | ⟨hv', hvt⟩
    · exact absurd rfl hne
    · exact hnew v hv' hvt
    · exact disjoint_symm (hnew u hu' hut)
    · exact h.exclusive u hu' v hv' hne
  · intro u hu
    rcases hm u hu with rfl | ⟨hu, -⟩
    · exact hsd.frame le_rfl fun _ hr _ => hr
    · exact (h.sound u hu).frame le_rfl fun _ hr _ => hr

/-! ### Rows of a step -/

/-- The rows after some versions: each is replaced by its version, if there is one. -/
theorem getD_version {Q : Handoff → Handoff → Prop}
    (hw : ∀ w ∈ writes, ∀ h ∈ s.rows, h.id = w.id → Q h w) (hq : ∀ h, Q h h) :
    ∀ h ∈ s.rows, Q h ((getRow Handoff.id writes h.id).getD h) := by
  intro h hh
  cases hv : getRow Handoff.id writes h.id with
  | none => exact hq h
  | some w =>
    obtain ⟨hm, hid⟩ := mem_of_getRow_eq_some hv
    exact hw w hm h hh hid.symm

/-- How the rows of a step come about: each is affected by the action, or one is new. -/
inductive Rows (p : Producer) (s : State) (a : Action) : List Handoff → Prop
  | affected {f : Handoff → Handoff} (he : ∀ h ∈ s.rows, Effect s.now a h (f h))
      (hv : ∀ h ∈ s.rows, f h = h ∨ (f h).violated p.serde = none) : Rows p s a (s.rows.map f)
  | enqueued (reference : Reference) (hnew : s.row reference.deliveryId = none) :
      Rows p s a (s.rows ++ [.enqueued reference s.now])

theorem Rows.same : Rows p s a s.rows := by
  have h := Rows.affected (p := p) (s := s) (a := a) (f := id) (fun h _ => .kept) fun h _ => .inl rfl
  rwa [List.map_id] at h

/-- Rows replaced by versions that are effects of the action. -/
theorem Rows.written (hkd : Keyed Handoff.id s.rows)
    (hw : ∀ w ∈ writes, w.violated p.serde = none ∧
      ∃ h ∈ s.rows, h.id = w.id ∧ Effect s.now a h w) : Rows p s a (written writes s.rows) := by
  apply Rows.affected
  · apply getD_version
    · intro w hm h hh hid
      obtain ⟨-, r, hr, hrid, he⟩ := hw w hm
      obtain rfl := hkd.unique hh hr (hid.trans hrid.symm)
      exact he
    · exact fun h => .kept
  · apply getD_version (Q := fun h h' => h' = h ∨ h'.violated p.serde = none)
    · exact fun w hm h _ _ => .inr (hw w hm).1
    · exact fun h => .inl rfl

/-- A row nobody wrote a version of stays. -/
theorem mem_written (hh : h ∈ s.rows) (hno : ∀ w ∈ writes, w.id ≠ h.id) :
    h ∈ written writes s.rows := by
  refine List.mem_map.mpr ⟨h, hh, ?_⟩
  rw [getRow_eq_none_iff.mpr hno]
  rfl

/-- A row afterwards is a version, or a row that has none. -/
theorem of_mem_written (hh : h ∈ written writes rows) :
    h ∈ writes ∨ h ∈ rows ∧ ∀ w ∈ writes, w.id ≠ h.id := by
  obtain ⟨r, hr, rfl⟩ := List.mem_map.mp hh
  cases hv : getRow Handoff.id writes r.id with
  | none => exact .inr ⟨hr, getRow_eq_none_iff.mp hv⟩
  | some w => exact .inl (mem_of_getRow_eq_some hv).1

/-- A version of a row replaces it. -/
theorem version_mem_written {r : Handoff} (hkd : Keyed Handoff.id writes) (hw : w ∈ writes)
    (hr : r ∈ rows) (hid : r.id = w.id) : w ∈ written writes rows := by
  refine List.mem_map.mpr ⟨r, hr, ?_⟩
  rw [hkd.getRow_eq_some_iff.mpr ⟨hw, hid.symm⟩]
  rfl

end SiliconDm.Server.Ting
