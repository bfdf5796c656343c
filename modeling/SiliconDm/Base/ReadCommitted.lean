import SiliconDm.Base.System
import SiliconDm.Base.Table

/-!
# Transactions at READ COMMITTED with row locks

A transaction is a list of statements. A statement reads the *view* of its transaction: what
other transactions have committed by now, with the transaction's own writes on top. It takes
the lock of every row it writes and the locks it asks for, keeps them to the end, and waits
while another open transaction holds one of them. Constraint checks may be deferred to the
commit. What is committed changes at a commit only.

A statement is one step. A multi-row SQL statement that waits for a row re-evaluates that row
only, so it is described as a scan whose outcome puts one statement per row in front of the
rest; the scan and the rows may then see different committed states, as they do in PostgreSQL.
-/

namespace SiliconDm.Base

open List

/-- What one statement does: the rows it writes, the rows it locks without writing them, the
statements that follow from what it read, and the checks it leaves to the commit. -/
structure Outcome (S C W K : Type*) where
  writes : List W := []
  locks : List K := []
  next : List S := []
  deferred : List C := []

/-- A transaction language over databases `D`: statements `S`, deferred checks `C`, row writes
`W`, lock keys `K` and transactions `T`. A statement that fails has no outcome. -/
structure Language (D S C W K T : Type*) where
  apply : D → W → D
  key : W → K
  code : T → List S
  exec : S → D → Option (Outcome S C W K)
  holds : C → List W → D → Bool

/-- An open transaction. `views` is history: what its statements saw. -/
structure Transaction (D S C W K T : Type*) where
  id : Nat
  task : T
  todo : List S
  writes : List W
  locks : List K
  deferred : List C
  views : List D

/-- The committed database and the open transactions. -/
structure Sessions (D S C W K T : Type*) where
  committed : D
  active : List (Transaction D S C W K T)
  fresh : Nat

inductive Action (T : Type*) where
  | start (task : T)
  | exec (id : Nat)
  | commit (id : Nat)
  | rollback (id : Nat)
  deriving DecidableEq, Repr

namespace Language

variable {D S C W K T : Type*} (L : Language D S C W K T)

/-- The database after a list of writes. -/
def applyAll (d : D) (ws : List W) : D :=
  ws.foldl L.apply d

/-- What a transaction sees: the committed database under its own writes. -/
def view (d : D) (t : Transaction D S C W K T) : D :=
  L.applyAll d t.writes

/-- The locks an outcome needs. -/
def needs (o : Outcome S C W K) : List K :=
  o.locks ++ o.writes.map L.key

/-- A transaction that has not executed anything. -/
def opened (id : Nat) (task : T) : Transaction D S C W K T where
  id := id
  task := task
  todo := L.code task
  writes := []
  locks := []
  deferred := []
  views := []

/-- The transaction after its next statement; `rest` is the code behind that statement. -/
def advance (d : D) (t : Transaction D S C W K T) (rest : List S) (o : Outcome S C W K) :
    Transaction D S C W K T where
  id := t.id
  task := t.task
  todo := o.next ++ rest
  writes := t.writes ++ o.writes
  locks := t.locks ++ L.needs o
  deferred := t.deferred ++ o.deferred
  views := t.views ++ [L.view d t]

/-- All code has run and every deferred check holds on the view. -/
def commits (d : D) (t : Transaction D S C W K T) : Bool :=
  t.deferred.all fun c => L.holds c t.writes (L.view d t)

/-- What each of the writes keeps, all of them keep. -/
theorem applyAll_invariant {P : D → Prop} {d : D} {ws : List W} (hd : P d)
    (h : ∀ w ∈ ws, ∀ d, P d → P (L.apply d w)) : P (L.applyAll d ws) :=
  foldlRecOn ws L.apply hd fun d hd w hw => h w hw d hd

/-- What none of the writes changes, they do not change together. -/
theorem applyAll_eq {α : Type*} {f : D → α} {d : D} {ws : List W}
    (h : ∀ w ∈ ws, ∀ d, f (L.apply d w) = f d) : f (L.applyAll d ws) = f d :=
  L.applyAll_invariant (P := fun d' => f d' = f d) rfl fun w hw d' hd => (h w hw d').trans hd

end Language

namespace Sessions

variable {D S C W K T : Type*}

/-- The transaction with an id. -/
def find (s : Sessions D S C W K T) (id : Nat) : Option (Transaction D S C W K T) :=
  s.active.find? (·.id = id)

/-- End a transaction without a trace. -/
def discard (s : Sessions D S C W K T) (id : Nat) : Sessions D S C W K T :=
  { s with active := s.active.filter (·.id ≠ id) }

def replace (s : Sessions D S C W K T) (t : Transaction D S C W K T) : Sessions D S C W K T :=
  { s with active := s.active.map fun u => if u.id = t.id then t else u }

/-- No other open transaction holds one of the keys. -/
def free [DecidableEq K] (s : Sessions D S C W K T) (id : Nat) (ks : List K) : Bool :=
  s.active.all fun u => u.id = id || ks.all (· ∉ u.locks)

variable {id : Nat}

variable {s : Sessions D S C W K T} {t u : Transaction D S C W K T}

theorem mem_of_find (h : s.find id = some t) : t ∈ s.active ∧ t.id = id :=
  ⟨mem_of_find?_eq_some h, by simpa using find?_some h⟩

theorem mem_discard :
    u ∈ (s.discard id).active ↔ u ∈ s.active ∧ u.id ≠ id := by
  simp [discard]

/-- After a replacement: the new transaction, and the others as they were. -/
theorem mem_replace (h : u ∈ (s.replace t).active) : u = t ∨ u ∈ s.active ∧ u.id ≠ t.id := by
  obtain ⟨v, hv, rfl⟩ := List.mem_map.mp h
  by_cases hid : v.id = t.id
  · left
    simp [hid]
  · right
    simp only [hid, if_false]
    exact ⟨hv, hid⟩

theorem free_iff [DecidableEq K] {ks : List K} :
    s.free id ks = true ↔ ∀ u ∈ s.active, u.id ≠ id → ks.Disjoint u.locks := by
  simp only [free, List.all_eq_true, Bool.or_eq_true, decide_eq_true_eq, List.Disjoint]
  constructor
  · intro h u hu hid k hk hk'
    exact ((h u hu).resolve_left hid) k hk hk'
  · intro h u hu
    by_cases hid : u.id = id
    · exact .inl hid
    · exact .inr fun k hk hk' => h u hu hid hk hk'

/-- A database with no open transaction. -/
def boot (d : D) : Sessions D S C W K T where
  committed := d
  active := []
  fresh := 0

end Sessions

namespace Language

variable {D S C W K T : Type*} (L : Language D S C W K T) [DecidableEq K]

/-- One step of one session. A statement that fails, and a commit whose deferred checks fail,
roll the transaction back; a statement that has to wait is not enabled. -/
def step (s : Sessions D S C W K T) : Action T → Option (Sessions D S C W K T)
  | .start task =>
    some { s with active := s.active ++ [L.opened s.fresh task], fresh := s.fresh + 1 }
  | .exec id =>
    match s.find id with
    | none => none
    | some t =>
      match t.todo with
      | [] => none
      | stmt :: rest =>
        match L.exec stmt (L.view s.committed t) with
        | none => some (s.discard id)
        | some o =>
          if s.free id (L.needs o) then some (s.replace (L.advance s.committed t rest o))
          else none
  | .commit id =>
    match s.find id with
    | none => none
    | some t =>
      match t.todo with
      | _ :: _ => none
      | [] =>
        if L.commits s.committed t then
          some { s.discard id with committed := L.view s.committed t }
        else some (s.discard id)
  | .rollback id =>
    match s.find id with
    | none => none
    | some _ => some (s.discard id)

/-- The system of all sessions over one of the given databases. -/
def sessions (initial : D → Prop) : System (Sessions D S C W K T) (Action T) where
  init s := ∃ d, initial d ∧ s = Sessions.boot d
  step := L.step

variable {L} {s s' : Sessions D S C W K T} {l : Action T}

/-- Everything one step can do. -/
inductive Effect (L : Language D S C W K T) (s : Sessions D S C W K T) :
    Action T → Sessions D S C W K T → Prop
  | start (task : T) : Effect L s (.start task)
      { s with active := s.active ++ [L.opened s.fresh task], fresh := s.fresh + 1 }
  | exec {t : Transaction D S C W K T} {stmt : S} {rest : List S} {o : Outcome S C W K}
      (ht : s.find t.id = some t) (htodo : t.todo = stmt :: rest)
      (ho : L.exec stmt (L.view s.committed t) = some o)
      (hfree : s.free t.id (L.needs o) = true) :
      Effect L s (.exec t.id) (s.replace (L.advance s.committed t rest o))
  | commit {t : Transaction D S C W K T} (ht : s.find t.id = some t) (htodo : t.todo = [])
      (hc : L.commits s.committed t = true) :
      Effect L s (.commit t.id) { s.discard t.id with committed := L.view s.committed t }
  | ended {l : Action T} {id : Nat} : Effect L s l (s.discard id)

section

variable (h : L.step s l = some s')
include h

theorem effect_of_step : L.Effect s l s' := by
  cases l with
  | start task =>
    cases h
    exact .start task
  | exec id =>
    simp only [step] at h
    split at h
    next => cases h
    next t ht =>
      obtain ⟨-, rfl⟩ := Sessions.mem_of_find ht
      split at h
      next => cases h
      next stmt rest htodo =>
        split at h
        next =>
          cases h
          exact .ended
        next o ho =>
          split at h
          next hfree =>
            cases h
            exact .exec ht htodo ho hfree
          next => cases h
  | commit id =>
    simp only [step] at h
    split at h
    next => cases h
    next t ht =>
      obtain ⟨-, rfl⟩ := Sessions.mem_of_find ht
      split at h
      next => cases h
      next htodo =>
        split at h
        next hc =>
          cases h
          exact .commit ht htodo hc
        next =>
          cases h
          exact .ended
  | rollback id =>
    simp only [step] at h
    split at h
    next => cases h
    next =>
      cases h
      exact .ended

/-- An open transaction was open before the step, or is the one that the step has opened. -/
theorem origin_of_step {u : Transaction D S C W K T} (hu : u ∈ s'.active) :
    (∃ t ∈ s.active, t.id = u.id ∧ t.task = u.task) ∨ l = .start u.task ∧ u.id = s.fresh := by
  cases effect_of_step h with
  | start task =>
    rcases mem_append.mp hu with hu | hu
    · exact .inl ⟨u, hu, rfl, rfl⟩
    · obtain rfl := mem_singleton.mp hu
      exact .inr ⟨rfl, rfl⟩
  | exec ht htodo ho hfree =>
    rcases Sessions.mem_replace hu with rfl | ⟨hu, -⟩
    · exact .inl ⟨_, (Sessions.mem_of_find ht).1, rfl, rfl⟩
    · exact .inl ⟨u, hu, rfl, rfl⟩
  | commit | ended => exact .inl ⟨u, (Sessions.mem_discard.mp hu).1, rfl, rfl⟩

/-- What is committed changes with the commit of a transaction that has run all its code. -/
theorem committed_of_step :
    s'.committed = s.committed ∨ ∃ t ∈ s.active, s.find t.id = some t ∧ l = .commit t.id ∧
      t.todo = [] ∧ L.commits s.committed t = true ∧
      s' = { s.discard t.id with committed := L.view s.committed t } := by
  cases effect_of_step h with
  | start task | exec ht htodo ho hfree | ended => exact .inl rfl
  | commit ht htodo hc =>
    exact .inr ⟨_, (Sessions.mem_of_find ht).1, ht, rfl, htodo, hc, rfl⟩

theorem committed_of_ne_commit (hl : ∀ id, l ≠ .commit id) :
    s'.committed = s.committed := by
  rcases committed_of_step h with he | ⟨t, -, -, hcmt, -⟩
  · exact he
  · exact absurd hcmt (hl t.id)

end

variable {t : Transaction D S C W K T} {initial : D → Prop}

/-- A commit brings the view of its transaction, or fails. -/
theorem committed_of_commit (h : L.step s (.commit t.id) = some s') (ht : s.find t.id = some t) :
    s'.committed = s.committed ∨ s'.committed = L.view s.committed t := by
  rcases committed_of_step h with he | ⟨u, -, hu, hcmt, -, -, rfl⟩
  · exact .inl he
  · right
    rw [← Action.commit.inj hcmt] at hu
    obtain rfl : t = u := Option.some.inj (ht.symm.trans hu)
    rfl

/-- Transactions that have not executed anything are as they were opened. -/
def Untried (L : Language D S C W K T) (s : Sessions D S C W K T) : Prop :=
  ∀ t ∈ s.active, t.views = [] → t = L.opened t.id t.task

theorem Untried.step (h : L.Untried s) (hs : L.step s l = some s') : L.Untried s' := by
  intro u hu hviews
  cases effect_of_step hs with
  | start task =>
    rcases mem_append.mp hu with hu | hu
    · exact h u hu hviews
    · obtain rfl := mem_singleton.mp hu
      rfl
  | exec ht htodo ho hfree =>
    rcases Sessions.mem_replace hu with rfl | ⟨hu, -⟩
    · simp [advance] at hviews
    · exact h u hu hviews
  | commit | ended => exact h u (Sessions.mem_discard.mp hu).1 hviews

/-! ### Locks -/

/-- A transaction holds the lock of every row it has written. -/
def Covered (L : Language D S C W K T) (t : Transaction D S C W K T) : Prop :=
  ∀ w ∈ t.writes, L.key w ∈ t.locks

/-- The discipline the locks keep: transactions are told apart by their ids, each holds the
locks of its writes, and no two hold one lock. -/
structure Orderly (L : Language D S C W K T) (s : Sessions D S C W K T) : Prop where
  below : ∀ t ∈ s.active, t.id < s.fresh
  covered : ∀ t ∈ s.active, L.Covered t
  exclusive : ∀ t ∈ s.active, ∀ u ∈ s.active, t.id ≠ u.id → t.locks.Disjoint u.locks

omit [DecidableEq K] in
theorem Covered.advance {d : D} {rest : List S} {o : Outcome S C W K} (h : L.Covered t) :
    L.Covered (L.advance d t rest o) := by
  intro w hw
  rcases mem_append.mp hw with hw | hw
  · exact mem_append_left _ (h w hw)
  · exact mem_append_right _ (mem_append_right _ (List.mem_map_of_mem hw))

omit [DecidableEq K] in
theorem Orderly.discard (h : L.Orderly s) (id : Nat) : L.Orderly (s.discard id) where
  below t ht := h.below t (Sessions.mem_discard.mp ht).1
  covered t ht := h.covered t (Sessions.mem_discard.mp ht).1
  exclusive t ht u hu :=
    h.exclusive t (Sessions.mem_discard.mp ht).1 u (Sessions.mem_discard.mp hu).1

/-- One step keeps the lock discipline: a statement only takes locks that are free. -/
theorem Orderly.step (h : L.Orderly s) (hs : L.step s l = some s') : L.Orderly s' := by
  cases effect_of_step hs with
  | start task =>
    constructor
    · exact forall_mem_concat.mpr
        ⟨fun t ht => Nat.lt_succ_of_lt (h.below t ht), Nat.lt_succ_self _⟩
    · exact forall_mem_concat.mpr ⟨h.covered, by simp [Covered, opened]⟩
    · intro t ht u hu hid
      rcases mem_concat.mp ht with ht | rfl <;> rcases mem_concat.mp hu with hu | rfl
      · exact h.exclusive t ht u hu hid
      all_goals simp [opened]
  | @exec t stmt rest o ht htodo ho hfree =>
    obtain ⟨hm, -⟩ := Sessions.mem_of_find ht
    -- the other transactions hold none of the locks the statement takes
    have hnew : ∀ u ∈ s.active, u.id ≠ t.id →
        (L.advance s.committed t rest o).locks.Disjoint u.locks := by
      intro u hu hid
      exact disjoint_append_left.mpr
        ⟨h.exclusive t hm u hu (Ne.symm hid), Sessions.free_iff.mp hfree u hu hid⟩
    constructor
    · intro u hu
      rcases Sessions.mem_replace hu with rfl | ⟨hu, -⟩
      · exact h.below t hm
      · exact h.below u hu
    · intro u hu
      rcases Sessions.mem_replace hu with rfl | ⟨hu, -⟩
      · exact (h.covered t hm).advance
      · exact h.covered u hu
    · intro u hu v hv hid
      rcases Sessions.mem_replace hu with rfl | ⟨hu, hut⟩ <;>
        rcases Sessions.mem_replace hv with rfl | ⟨hv, hvt⟩
      · exact absurd rfl hid
      · exact hnew v hv hvt
      · exact disjoint_symm (hnew u hu hut)
      · exact h.exclusive u hu v hv hid
  | @commit t ht htodo hc =>
    exact ⟨(h.discard t.id).below, (h.discard t.id).covered, (h.discard t.id).exclusive⟩
  | ended => exact h.discard _

/-! ### Rely and guarantee -/

/-- A condition on a run: a transaction starts only beside open ones it is compatible with,
and commits only if `may` allows its task on the committed database. -/
def supervised (compat : T → T → Bool) (may : D → T → Bool) (s : Sessions D S C W K T) :
    Action T → Bool
  | .start task => s.active.all fun u => compat task u.task && compat u.task task
  | .commit id => (s.find id).all fun t => may s.committed t.task
  | .exec _ => true
  | .rollback _ => true

/-- What has to be shown of an invariant `I` of the committed database and an assertion `J` of
each open transaction: a transaction's own steps keep its assertion, its commit keeps the
invariant, and its commit keeps the assertion of every other open transaction. -/
structure RelyGuarantee (L : Language D S C W K T) (compat : T → T → Bool)
    (may : D → T → Bool) (I : D → Prop) (J : D → Transaction D S C W K T → Prop) : Prop where
  start : ∀ d id task, I d → J d (L.opened id task)
  exec : ∀ d t stmt rest o, I d → J d t → L.Covered t → t.todo = stmt :: rest →
    L.exec stmt (L.view d t) = some o → J d (L.advance d t rest o)
  commit : ∀ d t, I d → J d t → t.todo = [] → L.commits d t = true → may d t.task = true →
    I (L.view d t)
  rely : ∀ d t u, I d → J d t → J d u → L.Covered t → L.Covered u →
    t.locks.Disjoint u.locks → compat t.task u.task = true → u.todo = [] →
    may d u.task = true → J (L.view d u) t

/-- What holds of every state that a supervised run reaches. -/
structure Supervised (L : Language D S C W K T) (compat : T → T → Bool) (I : D → Prop)
    (J : D → Transaction D S C W K T → Prop) (s : Sessions D S C W K T) : Prop where
  orderly : L.Orderly s
  compatible : ∀ t ∈ s.active, ∀ u ∈ s.active, t.id ≠ u.id → compat t.task u.task = true
  committed : I s.committed
  transaction : ∀ t ∈ s.active, J s.committed t

variable {compat : T → T → Bool} {may : D → T → Bool} {I : D → Prop}
  {J : D → Transaction D S C W K T → Prop}

omit [DecidableEq K] in
theorem Supervised.discard (h : L.Supervised compat I J s) (id : Nat) :
    L.Supervised compat I J (s.discard id) where
  orderly := h.orderly.discard id
  compatible t ht u hu :=
    h.compatible t (Sessions.mem_discard.mp ht).1 u (Sessions.mem_discard.mp hu).1
  committed := h.committed
  transaction t ht := h.transaction t (Sessions.mem_discard.mp ht).1

theorem Supervised.step (hrg : L.RelyGuarantee compat may I J) (h : L.Supervised compat I J s)
    (hc : supervised compat may s l = true) (hs : L.step s l = some s') :
    L.Supervised compat I J s' := by
  have hord := h.orderly.step hs
  cases effect_of_step hs with
  | start task =>
    have hcompat : ∀ u ∈ s.active, compat task u.task = true ∧ compat u.task task = true := by
      simpa [supervised] using hc
    refine ⟨hord, ?_, h.committed, ?_⟩
    · intro t ht u hu hid
      rcases mem_concat.mp ht with ht | rfl <;> rcases mem_concat.mp hu with hu | rfl
      · exact h.compatible t ht u hu hid
      · exact (hcompat t ht).2
      · exact (hcompat u hu).1
      · exact absurd rfl hid
    · exact forall_mem_concat.mpr ⟨h.transaction, hrg.start _ _ _ h.committed⟩
  | @exec t stmt rest o ht htodo ho hfree =>
    obtain ⟨hm, -⟩ := Sessions.mem_of_find ht
    refine ⟨hord, ?_, h.committed, ?_⟩
    · intro u hu v hv hid
      rcases Sessions.mem_replace hu with rfl | ⟨hu, hut⟩ <;>
        rcases Sessions.mem_replace hv with rfl | ⟨hv, hvt⟩
      · exact absurd rfl hid
      · exact h.compatible t hm v hv (Ne.symm hvt)
      · exact h.compatible u hu t hm hut
      · exact h.compatible u hu v hv hid
    · intro u hu
      rcases Sessions.mem_replace hu with rfl | ⟨hu, -⟩
      · exact hrg.exec _ t stmt rest o h.committed (h.transaction t hm)
          (h.orderly.covered t hm) htodo ho
      · exact h.transaction u hu
  | @commit t ht htodo hcms =>
    obtain ⟨hm, -⟩ := Sessions.mem_of_find ht
    have hmay : may s.committed t.task = true := by simpa [supervised, ht] using hc
    refine ⟨hord, (h.discard t.id).compatible, ?_, ?_⟩
    · exact hrg.commit _ t h.committed (h.transaction t hm) htodo hcms hmay
    · intro u hu
      obtain ⟨hu, hid⟩ := Sessions.mem_discard.mp hu
      exact hrg.rely _ u t h.committed (h.transaction u hu) (h.transaction t hm)
        (h.orderly.covered u hu) (h.orderly.covered t hm)
        (h.orderly.exclusive u hu t hm hid) (h.compatible u hu t hm hid) htodo hmay
  | ended => exact h.discard _

omit [DecidableEq K] in
theorem Supervised.boot {d : D} (h : I d) : L.Supervised compat I J (Sessions.boot d) where
  orderly := ⟨by simp [Sessions.boot], by simp [Sessions.boot], by simp [Sessions.boot]⟩
  compatible := by simp [Sessions.boot]
  committed := h
  transaction := by simp [Sessions.boot]

/-- The rely-guarantee rule for supervised runs. -/
theorem RelyGuarantee.supervised (hrg : L.RelyGuarantee compat may I J)
    (hinit : ∀ d, initial d → I d) (hr : (L.sessions initial).ReachableWhile
      (fun s l => Language.supervised compat may s l = true) s) : L.Supervised compat I J s := by
  apply hr.invariant
  · rintro s ⟨d, hd, rfl⟩
    exact .boot (hinit d hd)
  · intro s l s' hs hc hl
    exact hs.step hrg hc hl

/-- The rely-guarantee rule for every run. -/
theorem RelyGuarantee.reachable (hrg : L.RelyGuarantee (fun _ _ => true) (fun _ _ => true) I J)
    (hinit : ∀ d, initial d → I d) (hr : (L.sessions initial).Reachable s) :
    L.Supervised (fun _ _ => true) I J s := by
  obtain ⟨s₀, hi, hs⟩ := hr
  refine hrg.supervised hinit ⟨s₀, hi, Relation.ReflTransGen.mono ?_ _ _ hs⟩
  rintro a b ⟨l, -, hl⟩
  refine ⟨l, ?_, hl⟩
  cases l <;> simp [Language.supervised]

end Language

end SiliconDm.Base
