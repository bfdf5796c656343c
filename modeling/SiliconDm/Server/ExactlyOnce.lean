import SiliconDm.Server.Claims

/-!
# Exactly once per idempotency key

The requests of the claims, followed up to their responses. A request whose transaction was
rolled back has failed. One whose transaction committed loads its resource after the commit, and
fails if that does; the resource and the completed claim then stay, and a retry is answered with
them.

Sources: `src/infrastructure/postgres/idempotency.rs:39–176`, `messages.rs:171–351`.
-/

namespace SiliconDm.Server

open Base List Option

namespace Idempotency

/-! ### Responses -/

/-- The response to a request: its resource, or an error before or after the commit. -/
structure Response where
  attempt : Nat
  committed : Bool
  resource : Option Nat
  deriving DecidableEq, Repr

structure Api (A S C W K : Type) where
  sessions : Sessions (Store A) (Statement S) C (Write W) (Lock K) (Task S)
  started : List Nat
  responses : List Response

inductive Call (S : Type) where
  | db (action : Action (Task S))
  | load (attempt : Nat) (found : Bool)

section

variable {A S C W K T : Type} [DecidableEq K] (L : Language A S C W K T)

def Task.attempt : Task S → Option Nat
  | .request r => some r.attempt
  | .compact | .tick _ => none

def opens : Action (Task S) → Option Nat
  | .start task => task.attempt
  | .exec _ | .commit _ | .rollback _ => none

def Api.ledger (s : Api A S C W K) : Ledger :=
  s.sessions.committed.ledger

/-- The attempt whose transaction the action has ended without a commit. -/
def rolledBack (before after : Sessions (Store A) (Statement S) C (Write W) (Lock K) (Task S)) :
    Action (Task S) → Option Nat
  | .start _ => none
  | .exec id | .rollback id =>
    if (after.find id).isNone then (before.find id).bind (·.task.attempt) else none
  | .commit id =>
    ((before.find id).filter fun t => !(claims L).commits before.committed t).bind
      (·.task.attempt)

/-- One step of a session, or `load_message` of a request that has committed. Each request is
one attempt. -/
def Api.step (s : Api A S C W K) : Call S → Option (Api A S C W K)
  | .db action =>
    if (opens action).any (· ∈ s.started) then none
    else
      ((claims L).step s.sessions action).map fun sessions =>
        { sessions
          started := (opens action).toList ++ s.started
          responses := s.responses ++ (rolledBack L s.sessions sessions action).toList.map
            fun attempt => { attempt, committed := false, resource := none } }
  | .load attempt found =>
    if s.responses.any (·.attempt = attempt) then none
    else
      (s.ledger.answers.find? (·.attempt = attempt)).map fun a =>
        { s with
          responses := s.responses ++
            [{ attempt, committed := true, resource := if found then some a.resource else none }] }

def api (initial : A → Prop) : System (Api A S C W K) (Call S) where
  init s := ∃ app now, initial app ∧
    s = { sessions := .boot { app, ledger := { now, records := [], done := [], answers := [] } }
          started := []
          responses := [] }
  step := Api.step L

variable {L} {s s' : Api A S C W K}

/-- Rolling back takes the transaction away and nothing else. -/
theorem rolledBack_eq_some {c c' : Sessions (Store A) (Statement S) C (Write W) (Lock K) (Task S)}
    {action : Action (Task S)} {n : Nat} (h : (claims L).step c action = some c')
    (hr : rolledBack L c c' action = some n) :
    ∃ t ∈ c.active, t.task.attempt = some n ∧ c' = c.discard t.id := by
  cases action with
  | start task => cases hr
  | rollback id =>
    simp only [rolledBack, ite_none_right_eq_some, bind_eq_some_iff] at hr
    obtain ⟨-, t, ht, hn⟩ := hr
    simp only [Language.step, ht, Option.some.injEq] at h
    obtain ⟨hm, rfl⟩ := Sessions.mem_of_find ht
    exact ⟨t, hm, hn, h.symm⟩
  | exec id =>
    simp only [rolledBack, ite_none_right_eq_some, bind_eq_some_iff] at hr
    obtain ⟨hnone, t, ht, hn⟩ := hr
    obtain ⟨hm, rfl⟩ := Sessions.mem_of_find ht
    simp only [Language.step, ht] at h
    split at h
    next => cases h
    next stmt rest htodo =>
      split at h
      next => exact ⟨t, hm, hn, (Option.some.inj h).symm⟩
      next o ho =>
        -- a transaction that goes on is still there
        split at h
        next =>
          cases h
          rw [isNone_iff_eq_none, Sessions.find, find?_eq_none] at hnone
          have hstays := List.mem_map_of_mem (f := fun u => if u.id = t.id then
            (claims L).advance c.committed t rest o else u) hm
          rw [if_pos rfl] at hstays
          exact absurd (by simp [Language.advance]) (hnone _ hstays)
        next => cases h
  | commit id =>
    simp only [rolledBack, bind_eq_some_iff, filter_eq_some_iff] at hr
    obtain ⟨t, ⟨ht, hfails⟩, hn⟩ := hr
    obtain ⟨hm, rfl⟩ := Sessions.mem_of_find ht
    simp only [Language.step, ht] at h
    split at h
    next => cases h
    next =>
      split at h
      next hc => simp [hc] at hfails
      next => exact ⟨t, hm, hn, (Option.some.inj h).symm⟩

/-- Everything one step does. -/
theorem Api.step_eq_some {call : Call S} (h : s.step L call = some s') :
    (∃ action, call = .db action ∧ (claims L).step s.sessions action = some s'.sessions ∧
      (∀ n, opens action = some n → n ∉ s.started ∧ n ∈ s'.started) ∧
      (∀ n ∈ s.started, n ∈ s'.started) ∧
      s'.responses = s.responses ++ (rolledBack L s.sessions s'.sessions action).toList.map
        fun attempt => { attempt, committed := false, resource := none }) ∨
    ∃ a ∈ s.ledger.answers, ∃ found, call = .load a.attempt found ∧
      s' = { s with responses := s.responses ++
        [{ attempt := a.attempt, committed := true
           resource := if found then some a.resource else none }] } := by
  cases call with
  | db action =>
    left
    simp only [Api.step] at h
    split at h
    next => cases h
    next hfr =>
      obtain ⟨sessions, hs, rfl⟩ := map_eq_some_iff.mp h
      refine ⟨action, rfl, hs, ?_, fun n hn => mem_append_right _ hn, rfl⟩
      intro n hn
      refine ⟨fun hm => hfr ?_, mem_append_left _ (mem_toList.mpr hn)⟩
      rw [hn]
      simpa using hm
  | load attempt found =>
    right
    simp only [Api.step] at h
    split at h
    next => cases h
    next =>
      obtain ⟨a, ha, rfl⟩ := map_eq_some_iff.mp h
      have hatt : a.attempt = attempt := by simpa using find?_some ha
      subst hatt
      exact ⟨a, mem_of_find?_eq_some ha, found, rfl, rfl⟩

/-! ### Attempts and their answers -/

/-- A transaction that is about to commit answers its own attempt. -/
theorem Phase.answer_iff {l : Ledger} {task : Task S} {ws : List LedgerWrite}
    (h : Phase l task ws ([] : List (Statement S))) (n : Nat) :
    (∃ a, .answer a ∈ ws ∧ a.attempt = n) ↔ task.attempt = some n := by
  generalize htail : ([] : List (Statement S)) = tail at h
  cases h with
  | completed r c leaseExpiresAt howns hfr | answered r a c howns hc hfrom =>
    simp [Task.attempt, ← howns.1]
  | expiring transactionTimestamp forgotten keys hpast hexp | ticked elapsed now hnow =>
    simp [Task.attempt]
  | _ => cases htail

variable {t : Transaction (Store A) (Statement S) C (Write W) (Lock K) (Task S)} {a : Reply}

omit [DecidableEq K] in
/-- The answers after a commit: those before, and the one of the request that commits. -/
theorem mem_answers_view {d : Store A} :
    a ∈ ((claims L).view d t).ledger.answers ↔
      a ∈ d.ledger.answers ∨ .answer a ∈ own t.writes := by
  show a ∈ ((claims L).applyAll d t.writes).ledger.answers ↔ _
  rw [ledger_applyAll, answers_foldl, mem_append, mem_filterMap]
  apply or_congr_right
  constructor
  · rintro ⟨w, hw, he⟩
    cases w with
    | answer reply =>
      cases he
      exact hw
    | clock | record | forget | done => cases he
  · intro hw
    exact ⟨_, hw, rfl⟩

/-- An attempt that was started and whose transaction is over. -/
def Api.Over (s : Api A S C W K) (n : Nat) : Prop :=
  n ∈ s.started ∧ ∀ t ∈ s.sessions.active, t.task.attempt ≠ some n

structure Tracked (L : Language A S C W K T) (s : Api A S C W K) : Prop where
  supervised : (claims L).Supervised (fun _ _ => true) (fun d => Retained d.ledger) Located
    s.sessions
  started : ∀ t ∈ s.sessions.active, ∀ n, t.task.attempt = some n → n ∈ s.started
  unique : ∀ t ∈ s.sessions.active, ∀ u ∈ s.sessions.active, ∀ n,
    t.task.attempt = some n → u.task.attempt = some n → t.id = u.id
  answers : ∀ a ∈ s.ledger.answers, s.Over a.attempt
  failed : ∀ x ∈ s.responses, x.committed = false →
    x.resource = none ∧ s.Over x.attempt ∧ ∀ a ∈ s.ledger.answers, a.attempt ≠ x.attempt
  loaded : ∀ x ∈ s.responses, x.committed = true →
    ∃ a ∈ s.ledger.answers, a.attempt = x.attempt ∧ ∀ n, x.resource = some n → a.resource = n

section

variable {action : Action (Task S)}

variable {n : Nat}

/-- An attempt of an open transaction was open before, or is new. -/
theorem attempt_of_step (hs : (claims L).step s.sessions action = some s'.sessions)
    (hopens : ∀ n, opens action = some n → n ∉ s.started ∧ n ∈ s'.started)
    {u : Transaction (Store A) (Statement S) C (Write W) (Lock K) (Task S)}
    (hu : u ∈ s'.sessions.active) (hn : u.task.attempt = some n) :
    (∃ t ∈ s.sessions.active, t.id = u.id ∧ t.task.attempt = some n) ∨
      n ∉ s.started ∧ n ∈ s'.started ∧ u.id = s.sessions.fresh := by
  rcases Language.origin_of_step hs hu with ⟨t, ht, hid, htask⟩ | ⟨rfl, hid⟩
  · exact .inl ⟨t, ht, hid, by rw [htask, hn]⟩
  · exact .inr ⟨(hopens n hn).1, (hopens n hn).2, hid⟩

theorem Api.Over.step (hs : (claims L).step s.sessions action = some s'.sessions)
    (hopens : ∀ n, opens action = some n → n ∉ s.started ∧ n ∈ s'.started)
    (hstd : ∀ n ∈ s.started, n ∈ s'.started) (h : s.Over n) : s'.Over n := by
  refine ⟨hstd n h.1, fun u hu hn => ?_⟩
  rcases attempt_of_step hs hopens hu hn with ⟨t, ht, -, htn⟩ | ⟨hnew, -⟩
  · exact h.2 t ht htn
  · exact hnew h.1

omit [DecidableEq K] in
/-- A transaction that is taken away has its attempt over. -/
theorem Tracked.over_discard (h : Tracked L s) (ht : t ∈ s.sessions.active)
    (hn : t.task.attempt = some n) (hstd : ∀ n ∈ s.started, n ∈ s'.started)
    (hact : s'.sessions.active = (s.sessions.discard t.id).active) : s'.Over n := by
  refine ⟨hstd n (h.started t ht n hn), fun u hu hun => ?_⟩
  rw [hact] at hu
  obtain ⟨hu, hid⟩ := Sessions.mem_discard.mp hu
  exact hid (h.unique u hu t ht n hun hn)

/-- An answer after a step was there before, or is that of the transaction it commits. -/
theorem Tracked.answer_of_step (h : Tracked L s)
    (hs : (claims L).step s.sessions action = some s'.sessions) (ha : a ∈ s'.ledger.answers) :
    a ∈ s.ledger.answers ∨ ∃ t ∈ s.sessions.active, t.task.attempt = some a.attempt ∧
      s'.sessions.active = (s.sessions.discard t.id).active := by
  rcases Language.committed_of_step hs with he | ⟨t, ht, -, -, htodo, -, he⟩
  · rw [Api.ledger, he] at ha
    exact .inl ha
  · rw [Api.ledger, he] at ha
    rcases mem_answers_view.mp ha with hold | hnew
    · exact .inl hold
    · have hph := (h.supervised.transaction t ht).phase htodo
      exact .inr ⟨t, ht, (hph.answer_iff _).mp ⟨a, hnew, rfl⟩, by rw [he]⟩

theorem answers_step (hs : (claims L).step s.sessions action = some s'.sessions)
    (ha : a ∈ s.ledger.answers) : a ∈ s'.ledger.answers := by
  rw [Api.ledger]
  rcases Language.committed_of_step hs with he | ⟨t, -, -, -, -, -, he⟩
  · rw [he]
    exact ha
  · rw [he]
    exact mem_answers_view.mpr (.inl ha)

end

variable {call : Call S} {initial : A → Prop} {p : S → Prop}

theorem Tracked.step (h : Tracked L s) (hs : s.step L call = some s') : Tracked L s' := by
  rcases Api.step_eq_some hs with
    ⟨action, -, hdb, hopens, hstd, hresp⟩ | ⟨a, ha, found, -, rfl⟩
  · have hover {n : Nat} (hn : s.Over n) : s'.Over n := hn.step hdb hopens hstd
    refine ⟨h.supervised.step claims_relyGuarantee ?_ hdb, ?_, ?_, ?_, ?_, ?_⟩
    · cases action <;> simp [Language.supervised]
    · intro u hu n hn
      rcases attempt_of_step hdb hopens hu hn with ⟨t, ht, -, htn⟩ | ⟨-, hnew, -⟩
      · exact hstd n (h.started t ht n htn)
      · exact hnew
    · intro u hu v hv n hun hvn
      rcases attempt_of_step hdb hopens hu hun with ⟨t, ht, hid, htn⟩ | ⟨hnew, -, hid⟩ <;>
        rcases attempt_of_step hdb hopens hv hvn with ⟨t', ht', hid', htn'⟩ | ⟨hnew', -, hid'⟩
      · rw [← hid, ← hid', h.unique t ht t' ht' n htn htn']
      · exact absurd (h.started t ht n htn) hnew'
      · exact absurd (h.started t' ht' n htn') hnew
      · rw [hid, hid']
    · intro a ha
      rcases h.answer_of_step hdb ha with hold | ⟨t, ht, htn, hact⟩
      · exact hover (h.answers a hold)
      · exact h.over_discard ht htn hstd hact
    · intro x hx hfalse
      rw [hresp] at hx
      rcases mem_append.mp hx with hold | hnew
      · obtain ⟨hnone, hxover, hans⟩ := h.failed x hold hfalse
        refine ⟨hnone, hover hxover, fun a ha hax => ?_⟩
        rcases h.answer_of_step hdb ha with hold | ⟨t, ht, htn, -⟩
        · exact hans a hold hax
        · exact hxover.2 t ht (hax ▸ htn)
      · obtain ⟨n, hn, rfl⟩ := List.mem_map.mp hnew
        obtain ⟨t, ht, htn, hdis⟩ := rolledBack_eq_some hdb (mem_toList.mp hn)
        refine ⟨rfl, h.over_discard ht htn hstd (by rw [hdis]), fun a ha han => ?_⟩
        rw [Api.ledger, hdis] at ha
        exact (h.answers a ha).2 t ht (han ▸ htn)
    · intro x hx htrue
      rw [hresp] at hx
      rcases mem_append.mp hx with hold | hnew
      · obtain ⟨a, ha, hax⟩ := h.loaded x hold htrue
        exact ⟨a, answers_step hdb ha, hax⟩
      · obtain ⟨n, -, rfl⟩ := List.mem_map.mp hnew
        cases htrue
  · refine ⟨h.supervised, h.started, h.unique, h.answers, fun x hx hfalse => ?_,
      fun x hx htrue => ?_⟩
    · rcases mem_concat.mp hx with hold | rfl
      · exact h.failed x hold hfalse
      · cases hfalse
    · rcases mem_concat.mp hx with hold | rfl
      · exact h.loaded x hold htrue
      · refine ⟨a, ha, rfl, fun n hn => ?_⟩
        cases found with
        | false => cases hn
        | true => exact Option.some.inj hn

theorem retained_empty (now : Nat) :
    Retained { now, records := [], done := [], answers := [] } := by
  constructor <;> simp [Keyed]

theorem tracked_of_reachable (h : (api L initial).Reachable s) : Tracked L s := by
  apply h.invariant
  · rintro s ⟨app, now, -, rfl⟩
    constructor
    case supervised => exact .boot (retained_empty now)
    all_goals simp [Sessions.boot, Api.ledger]
  · intro s call s' hs hstep
    exact hs.step hstep

/-! ### A replay does nothing of the operation -/

/-- Statements that write nothing, and lead to such statements only. -/
def ReadOnly (L : Language A S C W K T) (p : S → Prop) : Prop :=
  ∀ x d o, p x → L.exec x d = some o → o.writes = [] ∧ ∀ y ∈ o.next, p y

/-- The statements of a request up to its claim and of a replay after it. -/
def Statement.Quiet (p : S → Prop) (r : Request S) : Statement S → Prop
  | .app x => p x
  | .start r' | .insert r' _ | .select r' => r' = r
  | .complete _ _ | .compact | .expire _ _ | .tick _ => False

/-- A request with a read-only frame has claimed its key, or has written nothing of the
operation. -/
def Untouched (p : S → Prop) (_ : Store A)
    (t : Transaction (Store A) (Statement S) C (Write W) (Lock K) (Task S)) : Prop :=
  ∀ r, t.task = .request r → (∀ x ∈ r.before ++ r.after, p x) →
    (∃ row, .record row ∈ own t.writes) ∨
      t.writes.filterMap Write.appWrite = [] ∧ ∀ stmt ∈ t.todo, stmt.Quiet p r

omit [DecidableEq K] in
theorem app_applyAll (d : Store A) (ws : List (Write W)) :
    ((claims L).applyAll d ws).app = L.applyAll d.app (ws.filterMap Write.appWrite) := by
  unfold Language.applyAll
  induction ws generalizing d with
  | nil => rfl
  | cons w ws ih =>
    rw [foldl_cons, ih]
    cases w <;> rfl

omit [DecidableEq K] in
/-- A quiet statement claims the key, or writes nothing of the operation and leads to quiet
statements. -/
theorem Statement.Quiet.exec (hp : ReadOnly L p) {r : Request S}
    (hr : ∀ x ∈ r.before ++ r.after, p x) {stmt : Statement S} (h : stmt.Quiet p r) {v : Store A}
    {o : Outcome (Statement S) C (Write W) (Lock K)} (ho : stmt.exec L v = .ok o) :
    (∃ row, .record row ∈ own o.writes) ∨
      o.writes.filterMap Write.appWrite = [] ∧ ∀ stmt' ∈ o.next, stmt'.Quiet p r := by
  cases stmt with
  | app x =>
    simp only [Statement.exec] at ho
    split at ho
    next => cases ho
    next o' ho' =>
      cases ho
      obtain ⟨hws, hnext⟩ := hp x v.app o' h ho'
      refine .inr ⟨by simp [hws], fun stmt' hm => ?_⟩
      obtain ⟨y, hy, rfl⟩ := List.mem_map.mp hm
      exact hnext y hy
  | start r' =>
    obtain rfl : r' = r := h
    cases ho
    refine .inr ⟨rfl, fun stmt' hm => ?_⟩
    rcases mem_append.mp hm with hbef | haft
    · obtain ⟨x, hx, rfl⟩ := List.mem_map.mp hbef
      exact hr x (mem_append_left _ hx)
    rcases mem_cons.mp haft with rfl | haft
    · rfl
    · obtain ⟨x, hx, rfl⟩ := List.mem_map.mp haft
      exact hr x (mem_append_right _ hx)
  | insert r' transactionTimestamp =>
    obtain rfl : r' = r := h
    simp only [Statement.exec, insertClaim] at ho
    split at ho
    next =>
      cases ho
      exact .inl ⟨_, mem_cons_self⟩
    next =>
      cases ho
      refine .inr ⟨rfl, fun stmt' hm => ?_⟩
      obtain rfl := mem_singleton.mp hm
      rfl
  | select r' =>
    simp only [Statement.exec, selectClaim] at ho
    split at ho
    next => cases ho
    next =>
      split at ho
      next => cases ho
      next =>
        split at ho
        next =>
          cases ho
          exact .inr ⟨rfl, by simp⟩
        next => cases ho
  | complete | compact | expire | tick => cases h

omit [DecidableEq K] in
theorem untouched_relyGuarantee (hp : ReadOnly L p) :
    (claims L).RelyGuarantee (fun _ _ => true) (fun _ _ => true) (fun _ => True)
      (Untouched p) where
  start d id task _ r htask _ := by
    have htask : task = .request r := htask
    subst htask
    refine .inr ⟨rfl, fun stmt hm => ?_⟩
    obtain rfl : stmt = .start r := mem_singleton.mp hm
    rfl
  exec d t stmt rest o _ ht _ htodo ho r htask hr := by
    have ho : stmt.exec L ((claims L).view d t) = .ok o := eq_ok_of_toOption ho
    simp only [Language.advance, own_append, filterMap_append]
    rcases ht r htask hr with ⟨row, hrow⟩ | ⟨hws, hquiet⟩
    · exact .inl ⟨row, mem_append_left _ hrow⟩
    rw [htodo] at hquiet
    rcases (hquiet stmt mem_cons_self).exec hp hr ho with ⟨row, hrow⟩ | ⟨hn, hnext⟩
    · exact .inl ⟨row, mem_append_right _ hrow⟩
    · refine .inr ⟨by simp [hws, hn], fun stmt' hm => ?_⟩
      rcases mem_append.mp hm with hnew | hold
      · exact hnext stmt' hnew
      · exact hquiet stmt' (mem_cons_of_mem _ hold)
  commit _ _ _ _ _ _ _ := trivial
  rely _ _ _ _ ht _ _ _ _ _ _ _ := ht

/-! ### Exactly once -/

/-- What the requests with one key get, whatever the interleaving. -/
structure ExactlyOnce (L : Language A S C W K T) (s : Api A S C W K) : Prop where
  /-- A key is claimed again only when the retention of its earlier claims is over. -/
  once : s.ledger.done.Pairwise fun c c' => c.key = c'.key → c.expiresAt ≤ c'.claimedAt
  /-- The tables of the operations change only with the commit of a request that completes its
  claim, unless they are changed outside the claim. -/
  effects : ∀ p, ReadOnly L p → ∀ call s', s.step L call = some s' →
    s'.sessions.committed.app ≠ s.sessions.committed.app →
    ∃ t ∈ s.sessions.active, call = .db (.commit t.id) ∧
      ∀ r, t.task = .request r → (∀ x ∈ r.before ++ r.after, p x) →
        ∃ c, s'.ledger.done = s.ledger.done ++ [c] ∧ r.Owns c
  /-- A request that succeeds returns the resource of every claim whose retention it is in. -/
  same : ∀ x ∈ s.responses, ∀ n, x.resource = some n →
    ∃ a ∈ s.ledger.answers, a.attempt = x.attempt ∧ (∃ c ∈ s.ledger.done, a.From c) ∧
      ∀ c ∈ s.ledger.done, c.key = a.key → c.claimedAt ≤ a.claimedAt →
        a.claimedAt < c.expiresAt → a.claimedAt < a.expiresAt → c.resource = n ∧ c.hash = a.hash
  /-- Other content under a recorded key is refused. -/
  refused : ∀ t ∈ s.sessions.active, ∀ r transactionTimestamp row,
    ((claims L).view s.sessions.committed t).ledger.record r.key = some row → row.hash ≠ r.hash →
    (Statement.insert r transactionTimestamp).exec L ((claims L).view s.sessions.committed t) =
        .ok { next := [.select r] } ∧
      (Statement.select r).exec L ((claims L).view s.sessions.committed t) =
        .error (.conflict "idempotency key was already used with different request content")
  /-- An error commits nothing. -/
  errors : ∀ call s', s.step L call = some s' → s'.responses ≠ s.responses →
    s'.sessions.committed = s.sessions.committed
  /-- A request that failed before its commit has left nothing, and never will. -/
  failed : ∀ x ∈ s.responses, x.committed = false → x.resource = none ∧
    (∀ c ∈ s.ledger.done, c.attempt ≠ x.attempt) ∧ ∀ a ∈ s.ledger.answers, a.attempt ≠ x.attempt
  /-- No record is left in progress. -/
  records : ∀ row ∈ s.ledger.records, ∃ c ∈ s.ledger.done, row = c.record
  /-- A request that failed after its commit has its answer recorded. -/
  recorded : ∀ x ∈ s.responses, x.committed = true →
    ∃ a ∈ s.ledger.answers, a.attempt = x.attempt ∧ ∃ c ∈ s.ledger.done, a.From c
  /-- A retry is answered with the recorded resource. -/
  retried : ∀ c ∈ s.ledger.done, s.ledger.now < c.expiresAt → ∀ r transactionTimestamp,
    r.key = c.key → r.hash = c.hash →
    (Statement.insert r transactionTimestamp).exec L s.sessions.committed =
        .ok { next := [.select r] } ∧
      (Statement.select r).exec L s.sessions.committed =
        .ok { locks := [.record r.key]
              writes := [.ledger (.answer
                { attempt := r.attempt, key := r.key, hash := r.hash, resource := c.resource
                  claimedAt := s.ledger.now, expiresAt := c.expiresAt })] }

/-- The sessions of the requests are sessions of the claims. -/
theorem sessions_of_reachable (h : (api L initial).Reachable s) :
    ((claims L).sessions fun _ => True).Reachable s.sessions := by
  apply h.invariant (I := fun s => ((claims L).sessions fun _ => True).Reachable s.sessions)
  · rintro s ⟨app, now, -, rfl⟩
    exact ⟨_, ⟨_, trivial, rfl⟩, .refl⟩
  · intro s call s' hs hstep
    rcases Api.step_eq_some hstep with ⟨action, -, hdb, -⟩ | ⟨a, -, found, -, rfl⟩
    · exact hs.step trivial hdb
    · exact hs

/-- A step that ends in a response, an error among them, commits nothing. -/
theorem committed_of_response (hs : s.step L call = some s') (hne : s'.responses ≠ s.responses) :
    s'.sessions.committed = s.sessions.committed := by
  rcases Api.step_eq_some hs with ⟨action, -, hdb, -, -, hresp⟩ | ⟨a, -, found, -, rfl⟩
  · cases hr : rolledBack L s.sessions s'.sessions action with
    | none => simp [hresp, hr] at hne
    | some n =>
      obtain ⟨t, -, -, hdis⟩ := rolledBack_eq_some hdb hr
      rw [hdis]
      rfl
  · rfl

/-- The commit that changes the tables of the operations completes a claim. -/
theorem effects_of_reachable (h : (api L initial).Reachable s) (hp : ReadOnly L p)
    (hs : s.step L call = some s') (hne : s'.sessions.committed.app ≠ s.sessions.committed.app) :
    ∃ t ∈ s.sessions.active, call = .db (.commit t.id) ∧
      ∀ r, t.task = .request r → (∀ x ∈ r.before ++ r.after, p x) →
        ∃ c, s'.ledger.done = s.ledger.done ++ [c] ∧ r.Owns c := by
  rcases Api.step_eq_some hs with ⟨action, rfl, hdb, -⟩ | ⟨a, -, found, -, rfl⟩
  · rcases Language.committed_of_step hdb with he | ⟨t, ht, -, rfl, htodo, -, he⟩
    · exact absurd (by rw [he]) hne
    refine ⟨t, ht, rfl, fun r htask hr => ?_⟩
    have hview : s'.sessions.committed = (claims L).applyAll s.sessions.committed t.writes := by
      rw [he]
      rfl
    have hph := ((tracked_of_reachable h).supervised.transaction t ht).phase htodo
    have huntouched := ((untouched_relyGuarantee hp).reachable (fun _ _ => trivial)
      (sessions_of_reachable h)).transaction t ht
    rcases huntouched r htask hr with ⟨row, hrow⟩ | ⟨hn, -⟩
    · rw [Api.ledger, hview, ledger_applyAll, done_foldl]
      rw [htask] at hph
      generalize own t.writes = ws at hph hrow
      generalize htail : ([] : List (Statement S)) = tail at hph
      cases hph with
      | completed _ c leaseExpiresAt howns hfr => exact ⟨c, rfl, howns⟩
      | answered _ a c howns hc hfrom => simp at hrow
      | _ => cases htail
    · rw [hview, app_applyAll, hn] at hne
      exact absurd rfl hne
  · exact absurd rfl hne

/-- In every run, a request that reaches the claim gets the one resource of its key or leaves
nothing; only an error after the commit leaves the resource, which the retry then returns. -/
theorem exactly_once_per_key {initial : A → Prop} (h : (api L initial).Reachable s) :
    ExactlyOnce L s := by
  have ht := tracked_of_reachable h
  have hl : Retained s.ledger := ht.supervised.committed
  constructor
  case once => exact hl.ordered
  case effects => exact fun p hp call s' hs hne => effects_of_reachable h hp hs hne
  case same =>
    intro x hx n hn
    have hcommitted : x.committed = true := by
      by_contra hfalse
      have := (ht.failed x hx (by simpa using hfalse)).1
      rw [this] at hn
      cases hn
    obtain ⟨a, ha, hattempt, hresource⟩ := ht.loaded x hx hcommitted
    refine ⟨a, ha, hattempt, hl.answered a ha, fun c hc hkey hafter hbefore hown => ?_⟩
    rw [← hresource n hn]
    exact hl.same ha hc hkey hafter hbefore hown
  case refused =>
    intro t _ r transactionTimestamp row hrow hhash
    simp [Statement.exec, insertClaim, selectClaim, hrow, hhash]
  case errors => exact fun call s' hs hne => committed_of_response hs hne
  case failed =>
    intro x hx hfalse
    obtain ⟨hnone, -, hanswers⟩ := ht.failed x hx hfalse
    exact ⟨hnone, fun c hc => hanswers c (hl.answers c hc), hanswers⟩
  case records => exact hl.completed
  case recorded =>
    intro x hx htrue
    obtain ⟨a, ha, hattempt, -⟩ := ht.loaded x hx htrue
    exact ⟨a, ha, hattempt, hl.answered a ha⟩
  case retried =>
    intro c hc hnow r transactionTimestamp hkey hhash
    have hrow : s.sessions.committed.ledger.record r.key = some c.record := by
      rw [hkey]
      exact hl.kept c hc hnow
    simp [Statement.exec, insertClaim, selectClaim, hrow, hhash, Reply.record, Api.ledger]

end

/-! ### Sending -/

/-- A message to the direct conversation, always under the same key. -/
def sendHello (attempt message : Nat) : Call Server.Statement :=
  .db (.start (.request
    (sendRequest attempt ⟨.carbon, "ada"⟩ "hello-001" 5 message 1)))

/-- The first attempt is rolled back in its claim, the second commits but its message cannot be
loaded, the third is a replay. -/
def helloRun : List (Call Server.Statement) :=
  [sendHello 1 6] ++ List.replicate 5 (.db (.exec 0)) ++ [.db (.rollback 0), sendHello 2 7] ++
    List.replicate 12 (.db (.exec 1)) ++ [.db (.commit 1), .load 2 false, sendHello 3 8] ++
    List.replicate 4 (.db (.exec 2)) ++ [.db (.commit 2), .load 3 true]

/-- Message 7 is recorded for the second attempt, which failed, and returned to the third. -/
def helloTwice (s : Api Database Server.Statement Check Server.Write Server.Lock) : Bool :=
  s.responses = [⟨1, false, none⟩, ⟨2, true, none⟩, ⟨3, true, some 7⟩] &&
    s.ledger.done.map (fun c => (c.attempt, c.resource)) = [(2, 7)] &&
    s.sessions.committed.app.messages.map (·.id) = [7]

theorem exists_helloTwice :
    ∃ s, (api store (· = directDatabase)).Reachable s ∧ helloTwice s = true :=
  have hinit : (api store (· = directDatabase)).init _ := ⟨directDatabase, 0, rfl, rfl⟩
  ⟨_, System.reachable_get helloRun hinit (by decide +kernel), by decide +kernel⟩

theorem exactly_once_per_key_hello :
    ∃ s, (api store (· = directDatabase)).Reachable s ∧
      ⟨3, true, some 7⟩ ∈ s.responses ∧ ExactlyOnce store s := by
  obtain ⟨s, hs, hp⟩ := exists_helloTwice
  simp only [helloTwice, Bool.and_eq_true, decide_eq_true_eq] at hp
  exact ⟨s, hs, by simp [hp.1.1], exactly_once_per_key hs⟩

/-- An attempt fails and leaves its message and a claim, which answers the retry. -/
theorem failed_attempt_answers_retry :
    ∃ s, (api store (· = directDatabase)).Reachable s ∧
      ∃ x ∈ s.responses, x.resource = none ∧ ∃ c ∈ s.ledger.done, c.attempt = x.attempt ∧
        (∃ m ∈ s.sessions.committed.app.messages, m.id = c.resource) ∧
        ∃ y ∈ s.responses, y.attempt ≠ x.attempt ∧ y.resource = some c.resource := by
  obtain ⟨s, hs, hp⟩ := exists_helloTwice
  simp only [helloTwice, Bool.and_eq_true, decide_eq_true_eq] at hp
  obtain ⟨⟨hresponses, hdone⟩, hmessages⟩ := hp
  obtain ⟨c, hc, hattempt⟩ := List.mem_map.mp
    (show (2, 7) ∈ s.ledger.done.map fun c => (c.attempt, c.resource) by simp [hdone])
  obtain ⟨hattempt, hresource⟩ := Prod.mk.inj hattempt
  obtain ⟨m, hm, hid⟩ := List.mem_map.mp
    (show 7 ∈ s.sessions.committed.app.messages.map (·.id) by simp [hmessages])
  refine ⟨s, hs, ⟨2, true, none⟩, by simp [hresponses], rfl, c, hc, hattempt,
    ⟨m, hm, hid.trans hresource.symm⟩, ⟨3, true, some 7⟩, by simp [hresponses], by simp, ?_⟩
  rw [hresource]

end Idempotency

end SiliconDm.Server
