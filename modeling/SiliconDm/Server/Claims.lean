import Mathlib.Data.List.Pairwise
import SiliconDm.Base.Fallible
import SiliconDm.Server.Idempotency

/-!
# Claims under every interleaving

What claims, completions and compaction keep in every interleaving: a committed record is a
completed one, a completed claim keeps its record for the retention time, and a key is claimed
anew only after that. A transaction goes through the phases of its claim; other transactions
cannot move it out of one, because they cannot write the rows it has written.

Sources: `src/infrastructure/postgres/idempotency.rs:39–176`, `delivery.rs:37–64`.
-/

namespace SiliconDm.Server

open Base List

namespace Idempotency

/-! ### The committed ledger -/

def Reply.claimed (c : Reply) (leaseExpiresAt : Nat) : Record :=
  { key := c.key, hash := c.hash, status := .inProgress leaseExpiresAt, expiresAt := c.expiresAt }

def Reply.record (c : Reply) : Record :=
  { key := c.key, hash := c.hash, status := .completed c.resource, expiresAt := c.expiresAt }

/-- An answer from the record of a completed claim. -/
structure Reply.From (a c : Reply) : Prop where
  key : a.key = c.key
  hash : a.hash = c.hash
  resource : a.resource = c.resource
  expiresAt : a.expiresAt = c.expiresAt
  claimedAt : c.claimedAt ≤ a.claimedAt

structure Retained (l : Ledger) : Prop where
  keyed : Keyed Record.key l.records
  completed : ∀ row ∈ l.records, ∃ c ∈ l.done, row = c.record
  kept : ∀ c ∈ l.done, l.now < c.expiresAt → l.record c.key = some c.record
  past : ∀ c ∈ l.done, c.claimedAt ≤ l.now
  ordered : l.done.Pairwise fun c c' => c.key = c'.key → c.expiresAt ≤ c'.claimedAt
  answered : ∀ a ∈ l.answers, ∃ c ∈ l.done, a.From c
  answers : ∀ c ∈ l.done, c ∈ l.answers

/-- A claim of a key whose earlier claims have all expired. -/
structure Fresh (l : Ledger) (c : Reply) : Prop where
  past : c.claimedAt ≤ l.now
  expired : ∀ c' ∈ l.done, c'.key = c.key → c'.expiresAt ≤ c.claimedAt

section

variable {l : Ledger}

variable {key : Key} {c a : Reply}

section

variable (h : Retained l)
include h

/-- The committed record of a key is that of a completed claim. -/
theorem Retained.of_record {row : Record} (hr : l.record key = some row) :
    ∃ c ∈ l.done, row = c.record ∧ c.key = key := by
  obtain ⟨hm, hk⟩ := mem_of_getRow_eq_some hr
  obtain ⟨c, hc, rfl⟩ := h.completed row hm
  exact ⟨c, hc, rfl, hk⟩

/-- Of two claims of a key, one was made after the retention of the other. -/
theorem Retained.apart {c' : Reply} (hc : c ∈ l.done) (hc' : c' ∈ l.done) (hne : c ≠ c')
    (hk : c.key = c'.key) :
    c.expiresAt ≤ c'.claimedAt ∨ c'.expiresAt ≤ c.claimedAt := by
  let R (c c' : Reply) : Prop :=
    c.key = c'.key → c.expiresAt ≤ c'.claimedAt ∨ c'.expiresAt ≤ c.claimedAt
  have : Std.Symm R := ⟨fun _ _ hR hk => (hR hk.symm).symm⟩
  have hall : l.done.Pairwise R := h.ordered.imp fun hle hk => .inl (hle hk)
  exact hall.forall hc hc' hne hk

/-- An answer in the retention of a claim is from its record. -/
theorem Retained.same (ha : a ∈ l.answers) (hc : c ∈ l.done) (hk : c.key = a.key)
    (haft : c.claimedAt ≤ a.claimedAt) (hbef : a.claimedAt < c.expiresAt)
    (hown : a.claimedAt < a.expiresAt) :
    c.resource = a.resource ∧ c.hash = a.hash := by
  obtain ⟨c', hc', hfrom⟩ := h.answered a ha
  have hexpires := hfrom.expiresAt
  have hcld := hfrom.claimedAt
  by_cases hne : c = c'
  · subst hne
    exact ⟨hfrom.resource.symm, hfrom.hash.symm⟩
  · have := h.apart hc hc' hne (hk.trans hfrom.key)
    omega

/-- Without a record, a claim made now is fresh. -/
theorem Retained.fresh (hn : l.record c.key = none) (hnow : c.claimedAt = l.now) : Fresh l c where
  past := Nat.le_of_eq hnow
  expired c' hc' hk := by
    by_contra hlt
    have hkept := h.kept c' hc' (by omega)
    rw [hk, hn] at hkept
    cases hkept

/-- The ledger after a claim and its completion. -/
theorem Retained.complete (hc : Fresh l c) (leaseExpiresAt : Nat) :
    Retained ([.record (c.claimed leaseExpiresAt), .record c.record, .done c, .answer c].foldl
      Ledger.apply l) where
  keyed := (h.keyed.put _).put _
  completed row hr := by
    show ∃ c' ∈ l.done ++ [c], row = c'.record
    rcases mem_put hr with rfl | ⟨hr, hne⟩
    · exact ⟨c, by simp, rfl⟩
    rcases mem_put hr with rfl | ⟨hr, -⟩
    · exact absurd rfl hne
    obtain ⟨c', hc', rfl⟩ := h.completed row hr
    exact ⟨c', by simp [hc'], rfl⟩
  kept c' hc' hnow := by
    have hrec (key : Key) : getRow Record.key
        (put Record.key c.record (put Record.key (c.claimed leaseExpiresAt) l.records)) key =
        if key = c.key then some c.record else l.record key := by
      rw [getRow_put, getRow_put]
      by_cases hk : key = c.key <;> simp [Reply.record, Reply.claimed, Ledger.record, hk]
    refine (hrec c'.key).trans ?_
    rcases mem_concat.mp hc' with hold | rfl
    · have hlat : l.now < c'.expiresAt := hnow
      have hne : c'.key ≠ c.key := fun hk => by
        have := hc.expired c' hold hk
        have := hc.past
        omega
      rw [if_neg hne]
      exact h.kept c' hold hlat
    · exact if_pos rfl
  past c' hc' := by
    rcases mem_concat.mp hc' with hold | rfl
    · exact h.past c' hold
    · exact hc.past
  ordered := by
    apply pairwise_append.mpr
    refine ⟨h.ordered, pairwise_singleton _ _, fun c' hc' c'' hc'' hk => ?_⟩
    obtain rfl := mem_singleton.mp hc''
    exact hc.expired c' hc' hk
  answered a ha := by
    show ∃ c' ∈ l.done ++ [c], a.From c'
    rcases mem_concat.mp ha with hold | rfl
    · obtain ⟨c', hc', hfrom⟩ := h.answered a hold
      exact ⟨c', by simp [hc'], hfrom⟩
    · exact ⟨a, by simp, rfl, rfl, rfl, rfl, Nat.le_refl _⟩
  answers c' hc' := by
    rcases mem_append.mp hc' with hold | hnew
    · exact mem_append_left _ (h.answers c' hold)
    · exact mem_append_right _ hnew

theorem Retained.answer (hc : c ∈ l.done) (ha : a.From c) :
    Retained (l.apply (.answer a)) :=
  { h with
    answered := by
      exact forall_mem_concat.mpr ⟨h.answered, c, hc, ha⟩
    answers := fun c' hc' => mem_append_left _ (h.answers c' hc') }

/-- Forgetting the record of a key whose retention has passed. -/
theorem Retained.forget (hk : ∀ row, l.record key = some row → row.expiresAt ≤ l.now) :
    Retained (l.apply (.forget key)) :=
  { h with
    keyed := h.keyed.filter _
    completed := fun row hr => h.completed row (mem_of_mem_filter hr)
    kept := by
      intro c hc hnow
      have hr := h.kept c hc hnow
      have hne : c.key ≠ key := by
        rintro rfl
        have hexp := hk _ hr
        have hlat : l.now < c.record.expiresAt := hnow
        omega
      rw [← hr]
      apply getRow_filter_of_true
      rintro row hr
      simpa [hr] using hne }

theorem Retained.tick {now : Nat} (hnow : l.now ≤ now) :
    Retained (l.apply (.clock now)) :=
  { h with
    kept := fun c hc hlt => h.kept c hc (Nat.lt_of_le_of_lt hnow hlt)
    past := fun c hc => Nat.le_trans (h.past c hc) hnow }

end

end

/-! ### The phases of a transaction -/

section

variable {A S C W K T : Type} {L : Language A S C W K T} {l : Ledger}

def Request.Owns (r : Request S) (c : Reply) : Prop :=
  c.attempt = r.attempt ∧ c.key = r.key ∧ c.hash = r.hash

/-- What a transaction has written to the ledger, and the statements it has left from the next
one on that belongs to the claim. -/
inductive Phase (l : Ledger) : Task S → List LedgerWrite → List (Statement S) → Prop
  | opened (r : Request S) : Phase l (.request r) [] [.start r]
  | before (r : Request S) (transactionTimestamp : Nat) :
      Phase l (.request r) [] (.insert r transactionTimestamp :: r.after.map .app)
  | found (r : Request S) : Phase l (.request r) [] (.select r :: r.after.map .app)
  | working (r : Request S) (c : Reply) (leaseExpiresAt : Nat) (howns : r.Owns c)
      (hresource : c.resource = r.resource) (hfresh : Fresh l c) :
      Phase l (.request r) [.record (c.claimed leaseExpiresAt)]
        (.complete r c.claimedAt :: r.after.map .app)
  | completed (r : Request S) (c : Reply) (leaseExpiresAt : Nat) (howns : r.Owns c)
      (hfresh : Fresh l c) :
      Phase l (.request r)
        [.record (c.claimed leaseExpiresAt), .record c.record, .done c, .answer c] []
  | answered (r : Request S) (a c : Reply) (howns : r.Owns a) (hc : c ∈ l.done)
      (hfrom : a.From c) : Phase l (.request r) [.answer a] []
  | compacting : Phase l .compact [] [.compact]
  | expiring (transactionTimestamp : Nat) (forgotten keys : List Key)
      (hpast : transactionTimestamp ≤ l.now)
      (hexpired : ∀ key ∈ forgotten, ∀ row, l.record key = some row →
        row.expiresAt ≤ transactionTimestamp) :
      Phase l .compact (forgotten.map .forget) (keys.map (.expire · transactionTimestamp))
  | waiting (elapsed : Nat) : Phase l (.tick elapsed) [] [.tick elapsed]
  | ticked (elapsed now : Nat) (hnow : l.now ≤ now) : Phase l (.tick elapsed) [.clock now] []

/-- A transaction is in a phase, with statements of the operation before it. -/
def Located (d : Store A)
    (t : Transaction (Store A) (Statement S) C (Write W) (Lock K) (Task S)) : Prop :=
  ∃ (xs : List S) (tail : List (Statement S)),
    t.todo = xs.map .app ++ tail ∧ Phase d.ledger t.task (own t.writes) tail

/-! ### Own steps -/

/-- The record under forgotten keys. -/
theorem record_forget (keys : List Key) (key : Key) (l : Ledger) :
    ((keys.map LedgerWrite.forget).foldl Ledger.apply l).record key =
      if key ∈ keys then none else l.record key := by
  induction keys generalizing l with
  | nil => simp
  | cons k keys ih =>
    rw [map_cons, foldl_cons, ih]
    by_cases hm : key ∈ keys
    · simp [hm]
    by_cases hk : key = k
    · subst hk
      simp only [hm, mem_cons, true_or, if_true, if_false]
      apply getRow_eq_none_iff.mpr
      intro row hr
      simpa using (mem_filter.mp hr).2
    · have hold : (l.apply (.forget k)).record key = l.record key := by
        apply getRow_filter_of_true
        rintro row rfl
        simpa using hk
      simp [hm, hk, hold]

variable {o : Outcome (Statement S) C (Write W) (Lock K)} {task : Task S} {ws : List LedgerWrite}
  {tail : List (Statement S)}

variable {v : Store A}

/-- A statement of the operation leads to statements of the operation and leaves the ledger. -/
theorem exec_app {x : S} (h : (Statement.app x).exec L v = .ok o) :
    (∃ ys : List S, o.next = ys.map .app) ∧ own o.writes = [] := by
  simp only [Statement.exec] at h
  split at h
  next => cases h
  next o' ho' =>
    cases h
    exact ⟨⟨o'.next, rfl⟩, own_app _⟩

/-- A statement of the claim leads into the next phase. -/
theorem Phase.exec {stmt : Statement S} {rest : List (Statement S)}
    (h : Phase l task ws (stmt :: rest)) (hl : Retained l) (hv : v.ledger = ws.foldl Ledger.apply l)
    (ho : stmt.exec L v = .ok o) :
    ∃ (xs : List S) (tail : List (Statement S)),
      o.next ++ rest = xs.map .app ++ tail ∧ Phase l task (ws ++ own o.writes) tail := by
  generalize htail : stmt :: rest = tail at h
  cases h with
  | opened r =>
    cases htail
    cases ho
    exact ⟨r.before, _, append_nil _, .before r _⟩
  | before r transactionTimestamp =>
    cases htail
    have hv : v.ledger = l := hv
    simp only [Statement.exec, insertClaim, hv] at ho
    split at ho
    next hn =>
      cases ho
      let c : Reply :=
        { attempt := r.attempt, key := r.key, hash := r.hash, resource := r.resource
          claimedAt := l.now, expiresAt := transactionTimestamp + retention }
      have hfr : Fresh l c := hl.fresh hn rfl
      exact ⟨r.body, _, append_assoc _ _ _,
        .working r c (transactionTimestamp + lease) ⟨rfl, rfl, rfl⟩ rfl hfr⟩
    next =>
      cases ho
      exact ⟨[], _, rfl, .found r⟩
  | found r =>
    cases htail
    have hv : v.ledger = l := hv
    simp only [Statement.exec, selectClaim, hv] at ho
    split at ho
    next => cases ho
    next row hr =>
      obtain ⟨c, hc, rfl, hk⟩ := hl.of_record hr
      split at ho
      next => cases ho
      next hhash =>
        cases ho
        exact ⟨r.after, [], by simp, .answered r _ c ⟨rfl, rfl, rfl⟩ hc
          ⟨hk.symm, (not_not.mp hhash).symm, rfl, rfl, hl.past c hc⟩⟩
  | working r c leaseExpiresAt howns hrsc hfr =>
    cases htail
    have hrec : v.ledger.record r.key = some (c.claimed leaseExpiresAt) := by
      rw [hv, ← howns.2.1]
      exact (getRow_put _ _).trans (if_pos rfl)
    simp only [Statement.exec, completeClaim, hrec, Reply.claimed] at ho
    cases ho
    have hc : c = { attempt := r.attempt, key := c.key, hash := c.hash, resource := r.resource
                    claimedAt := c.claimedAt, expiresAt := c.expiresAt } := by
      rw [← howns.1, ← hrsc]
    refine ⟨r.after, [], by simp, ?_⟩
    rw [← hc, ← hrsc]
    exact .completed r c leaseExpiresAt howns hfr
  | completed | answered | ticked => cases htail
  | compacting =>
    cases htail
    cases ho
    have hv : v.ledger = l := hv
    refine ⟨[], _, ?_, .expiring l.now [] ((l.records.filter (·.compactable l.now)).map
      Record.key) (Nat.le_refl _) (by simp)⟩
    simp [hv]
  | expiring transactionTimestamp forgotten keys hpast hexp =>
    cases keys with
    | nil => cases htail
    | cons key keys =>
      cases htail
      cases ho
      by_cases hany : (v.ledger.record key).any (·.compactable transactionTimestamp) = true
      · refine ⟨[], _, rfl, ?_⟩
        rw [if_pos hany]
        have := Phase.expiring (l := l) (S := S) transactionTimestamp (forgotten ++ [key]) keys
          hpast ?_
        · simpa [own, Write.ledgerWrite] using this
        intro key' hk' row hr
        rcases mem_append.mp hk' with hold | hnew
        · exact hexp key' hold row hr
        obtain rfl := mem_singleton.mp hnew
        -- the view differs from what is committed in the forgotten keys only
        rw [hv, record_forget, hr] at hany
        split at hany
        next => simp at hany
        next =>
          simp only [Option.any_some, Record.compactable, Bool.and_eq_true,
            decide_eq_true_eq] at hany
          exact hany.1
      · refine ⟨[], _, rfl, ?_⟩
        rw [if_neg hany]
        simpa [own] using Phase.expiring (l := l) (S := S) transactionTimestamp forgotten keys
          hpast hexp
  | waiting elapsed =>
    cases htail
    cases ho
    have hv : v.ledger = l := hv
    exact ⟨[], [], rfl, .ticked elapsed _ (by rw [hv]; exact Nat.le_add_right _ _)⟩

/-! ### Commits -/

/-- A clock write is the only one of its transaction, and moves the clock forward. -/
theorem Phase.now_le (h : Phase l task ws tail) : l.now ≤ (ws.foldl Ledger.apply l).now := by
  cases h with
  | ticked elapsed now hnow => exact hnow
  | expiring transactionTimestamp forgotten keys =>
    exact Nat.le_of_eq (now_foldl (by simp) l).symm
  | _ => exact Nat.le_refl _

theorem Retained.forgetAll {keys : List Key} (h : Retained l)
    (hkeys : ∀ key ∈ keys, ∀ row, l.record key = some row → row.expiresAt ≤ l.now) :
    Retained ((keys.map LedgerWrite.forget).foldl Ledger.apply l) := by
  induction keys generalizing l with
  | nil => exact h
  | cons key keys ih =>
    apply ih (h.forget (hkeys key mem_cons_self))
    intro key' hk' row hr
    have hforget := record_forget [key] key' l
    rw [show (l.apply (.forget key)).record key' = _ from hforget] at hr
    split at hr
    next => cases hr
    next => exact hkeys key' (mem_cons_of_mem _ hk') row hr

/-- A transaction that has nothing left to do keeps the ledger. -/
theorem Phase.retained (h : Phase l task ws ([] : List (Statement S))) (hl : Retained l) :
    Retained (ws.foldl Ledger.apply l) := by
  generalize htail : ([] : List (Statement S)) = tail at h
  cases h with
  | completed r c leaseExpiresAt howns hfr => exact hl.complete hfr leaseExpiresAt
  | answered r a c howns hc hfrom => exact hl.answer hc hfrom
  | expiring transactionTimestamp forgotten keys hpast hexp =>
    exact hl.forgetAll fun key hk row hr =>
      Nat.le_trans (hexp key hk row hr) hpast
  | ticked elapsed now hnow => exact hl.tick hnow
  | _ => cases htail

/-- What another transaction commits leaves a phase as it is: the two have written different
rows. -/
theorem Phase.rely {task' : Task S} {us : List LedgerWrite} (h : Phase l task ws tail)
    (hu : Phase l task' us ([] : List (Statement S)))
    (hdisj : ∀ w ∈ ws, ∀ u ∈ us, (w.key : Lock K) ≠ u.key) :
    Phase (us.foldl Ledger.apply l) task ws tail := by
  have hnow := hu.now_le
  have hdone := done_foldl us l
  have hfr {c : Reply} {row : Record} (hw : .record row ∈ ws) (hk : row.key = c.key)
      (hc : Fresh l c) : Fresh (us.foldl Ledger.apply l) c := by
    refine ⟨Nat.le_trans hc.past hnow, fun c' hc' hk' => ?_⟩
    rw [hdone] at hc'
    rcases mem_append.mp hc' with hold | hnew
    · exact hc.expired c' hold hk'
    · obtain ⟨u, hm, hu⟩ := mem_filterMap.mp hnew
      cases u with
      | done reply =>
        cases hu
        exact absurd (by simp [LedgerWrite.key, hk, hk']) (hdisj _ hw _ hm)
      | clock | record | forget | answer => cases hu
  cases h with
  | opened r => exact .opened r
  | before r transactionTimestamp => exact .before r transactionTimestamp
  | found r => exact .found r
  | working r c leaseExpiresAt howns hrsc hc =>
    exact .working r c leaseExpiresAt howns hrsc (hfr mem_cons_self rfl hc)
  | completed r c leaseExpiresAt howns hc =>
    exact .completed r c leaseExpiresAt howns (hfr mem_cons_self rfl hc)
  | answered r a c howns hc hfrom =>
    exact .answered r a c howns (by rw [hdone]; exact mem_append_left _ hc) hfrom
  | compacting => exact .compacting
  | expiring transactionTimestamp forgotten keys hpast hexp =>
    refine .expiring transactionTimestamp forgotten keys (Nat.le_trans hpast hnow) ?_
    intro key hk row hr
    have hunwritten : ∀ u ∈ us, (u.key : Lock K) ≠ .record key := fun u hu he =>
      hdisj _ (List.mem_map_of_mem hk) u hu he.symm
    rw [record_foldl hunwritten] at hr
    exact hexp key hk row hr
  | waiting elapsed => exact .waiting elapsed
  | ticked elapsed now hle =>
    have hclock : ∀ now', .clock now' ∉ us := fun now' hm =>
      hdisj _ mem_cons_self _ hm rfl
    exact .ticked elapsed now (by rw [now_foldl hclock]; exact hle)

theorem Located.phase {d : Store A}
    {t : Transaction (Store A) (Statement S) C (Write W) (Lock K) (Task S)}
    (h : Located d t) (htodo : t.todo = []) :
    Phase d.ledger t.task (own t.writes) ([] : List (Statement S)) := by
  obtain ⟨xs, tail, he, hph⟩ := h
  rw [htodo] at he
  obtain ⟨-, rfl⟩ := append_eq_nil_iff.mp he.symm
  exact hph

/-- The ledger and the phases, whatever the operations are and however they interleave. -/
theorem claims_relyGuarantee :
    (claims L).RelyGuarantee (fun _ _ => true) (fun _ _ => true)
      (fun d => Retained d.ledger) Located where
  start d id task _ := by
    cases task with
    | request r => exact ⟨[], _, rfl, .opened r⟩
    | compact => exact ⟨[], _, rfl, .compacting⟩
    | tick elapsed => exact ⟨[], _, rfl, .waiting elapsed⟩
  exec d t stmt rest o hd ht _ htodo ho := by
    obtain ⟨xs, tail, he, hph⟩ := ht
    have ho : stmt.exec L ((claims L).view d t) = .ok o := eq_ok_of_toOption ho
    rw [htodo] at he
    cases xs with
    | nil =>
      obtain rfl : stmt :: rest = tail := he
      obtain ⟨xs, tail, hnext, hph'⟩ := hph.exec hd (ledger_applyAll d t.writes) ho
      refine ⟨xs, tail, hnext, ?_⟩
      simpa [Language.advance] using hph'
    | cons x xs =>
      obtain ⟨rfl, rfl⟩ := List.cons.inj he
      obtain ⟨⟨ys, hys⟩, hown⟩ := exec_app ho
      refine ⟨ys ++ xs, tail, ?_, ?_⟩
      · simp [Language.advance, hys]
      · simpa [Language.advance, hown] using hph
  commit d t hd ht htodo _ _ := by
    show Retained ((claims L).applyAll d t.writes).ledger
    rw [ledger_applyAll]
    exact (ht.phase htodo).retained hd
  rely d t u _ ht hu hct hcu hdisj _ htodo _ := by
    obtain ⟨xs, tail, he, hph⟩ := ht
    refine ⟨xs, tail, he, ?_⟩
    show Phase ((claims L).applyAll d u.writes).ledger _ _ _
    rw [ledger_applyAll]
    apply hph.rely (K := K) (hu.phase htodo)
    intro w hw w' hw' hk
    have hlock : (w.key : Lock K) ∈ t.locks := hct _ (mem_own.mp hw)
    have hlock' : (w'.key : Lock K) ∈ u.locks := hcu _ (mem_own.mp hw')
    exact hdisj hlock (hk ▸ hlock')

end

end Idempotency

end SiliconDm.Server
