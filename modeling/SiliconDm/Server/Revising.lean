import SiliconDm.Server.Addresses

/-!
# Revising a message

The transaction of `revise_message`, an edit or a tombstone, with the trigger of its deliveries.

Sources: `src/infrastructure/postgres/revisions.rs:52–244`,
`migrations/0025_message_history.sql:27–65`, `migrations/0031_ting_originators.sql:29–72`.
-/

namespace SiliconDm.Server.Revising

open Base Backend Addresses List

/-- The transaction of `revise_message`: an edit to some content, or a tombstone. -/
def reviseTransaction (d : Deployment) (e : Moment) (t : Texts) (p : Posting)
    (actor : ActorRef) (reviser : Reviser) (c m : Nat) (content : Option String) (key : String) :
    Handler Refusal Addresses.Service Nat :=
  delivering t p actor e.now (revise d e actor reviser c m content key)

variable {b : Backend} {c m : Nat} {content : Option String}

/-! ### Statements -/

/-- The revision that a change of a message is delivered as. -/
def nextRevision (d : Database) (m : Nat) : Nat :=
  coalesceMax (revisionsOf d m) + 1

def revisedHistory (d : Database) (m : Nat) (content : Option String) (now : Nat) :
    MessageHistory :=
  match content with
  | some content => editedHistory d m content now
  | none => deletedHistory d m now

theorem message_revisedHistory (d : Database) (m : Nat) (content : Option String) (now : Nat) :
    (revisedHistory d m content now).message = m := by
  unfold revisedHistory editedHistory deletedHistory
  cases content <;> cases h : d.history m
  case none.none | some.none => rfl
  case none.some row | some.some row => exact (mem_of_getRow_eq_some h).2

/-- No delivery has the next revision yet. -/
theorem ref_ne_nextRevision {d : Database} {row : Delivery} (h : row ∈ d.deliveries) :
    row.ref ≠ .message m (nextRevision d m) := by
  intro href
  have hm : nextRevision d m ∈ revisionsOf d m := by
    refine mem_filterMap.mpr ⟨row, h, ?_⟩
    rw [href]
    simp
  have := le_coalesceMax hm
  unfold nextRevision at this
  omega

structure Revised (b : Backend) (m c : Nat) (history : MessageHistory) (w : Work) : Prop where
  tables : ∃ streams new, w.backend.db = { b.db with
      histories := put MessageHistory.message history b.db.histories
      streams
      deliveries := b.db.deliveries ++ new } ∧
    inserted w.writes = new ∧
    (∀ row ∈ new, ∃ sequence,
      row = newDelivery row.target (.message m (nextRevision b.db m)) c sequence) ∧
    ∀ a ∈ b.db.effectiveParticipants c, ∃ row ∈ new, row.target = a
  groups : w.backend.groups = b.groups
  superseded : w.backend.supersededBy = b.supersededBy
  deferred : w.deferred = [.historyOutbox m]

def changeStatement (m : Nat) (content : Option String) (now : Nat) : Statement :=
  match content with
  | some content => .message (.edit m content now)
  | none => .message (.tombstone m now)

theorem exec_changeStatement {d : Database} {now : Nat}
    (hn : (d.history m).any (·.deletedAt.isSome) = false) :
    (changeStatement m content now).exec d = .ok {
      writes := [.history (revisedHistory d m content now)], deferred := [.historyOutbox m] } := by
  have hmsg := message_revisedHistory d m content now
  cases content <;> simp only [revisedHistory] at hmsg <;>
    simp [changeStatement, Statement.exec, messageStatement, historyStatement, hmsg, hn,
      revisedHistory]

/-- The statements of a change succeed on a message that is not deleted. -/
theorem runStatements_revision (c now : Nat) (content : Option String)
    (hn : (b.db.history m).any (·.deletedAt.isSome) = false) :
    ∃ w, runStatements nesting [.message (.requireNotDeleted m), changeStatement m content now,
        .message (.nextRevision m c)] ⟨b, [], []⟩ = .ok w ∧
      Revised b m c (revisedHistory b.db m content now) w ∧ w.backend.records = b.records := by
  let row := revisedHistory b.db m content now
  let o : Outcome Statement Check Write Lock :=
    { writes := [.history row], deferred := [.historyOutbox m] }
  let w₀ : Work := ⟨b, [], []⟩
  have hreq : Statement.exec (.message (.requireNotDeleted m)) w₀.backend.db = .ok {} := by
    simp only [Statement.exec, messageStatement, w₀, hn]
    rfl
  have hempty : w₀.wrote {} = w₀ := by simp [Work.wrote, Language.applyAll, w₀]
  have hchg : (changeStatement m content now).exec w₀.backend.db = .ok o :=
    exec_changeStatement hn
  have hsi : ∀ (w : Work) next, w.wrote { next } = w := by
    intro w next
    simp [Work.wrote, Language.applyAll]
  let next : List Statement := [.message (.touch c),
    .message (.fanOut m c (nextRevision b.db m))]
  have hnext : Statement.exec (.message (.nextRevision m c)) (w₀.wrote o).backend.db =
      .ok { next } := rfl
  let code : List Statement := (b.db.effectiveParticipants c).map fun a =>
    .message (.deliver a (.message m (nextRevision b.db m)) c)
  have hfan : Statement.exec (.message (.fanOut m c (nextRevision b.db m)))
      (w₀.wrote o).backend.db = .ok { next := code } := rfl
  obtain ⟨w, new, hrun, hdel, htgts⟩ := runStatements_deliver_each 0
    (b.db.effectiveParticipants c) (.message m (nextRevision b.db m)) c (w₀.wrote o)
  obtain ⟨streams, hbk⟩ := hdel.backend
  have htouch : runStatements 3 [.message (.touch c)] (w₀.wrote o) = .ok (w₀.wrote o) := by
    refine runStatements_silent fun s hs => ?_
    obtain rfl := mem_singleton.mp hs
    exact ⟨_, rfl⟩
  have hrest : runStatements 3 next ((w₀.wrote o).wrote { next }) = .ok w := by
    rw [hsi]
    show runStatements (2 + 1) ([.message (.touch c)] ++ [_]) _ = _
    rw [runStatements_append, htouch]
    show runStatements (2 + 1) _ _ = _
    rw [runStatements_cons hfan (by rw [hsi]; exact hrun), runStatements_nil]
  refine ⟨w, ?_, ⟨⟨streams, new, ?_, ?_, hdel.rows, ?_⟩, ?_, ?_, ?_⟩, ?_⟩
  · show runStatements (3 + 1) _ w₀ = _
    rw [runStatements_cons hreq (runStatements_nil _ _), hempty,
      runStatements_cons hchg (runStatements_nil _ _), runStatements_cons hnext hrest,
      runStatements_nil]
  · rw [hbk]
    rfl
  · rw [hdel.writes]
    simp [w₀, o, Work.wrote, inserted]
  · intro a ha
    obtain ⟨row, hr, rfl, href⟩ := htgts a ha
    rcases mem_append.mp hr with hr | hr
    · exact absurd href (ref_ne_nextRevision hr)
    · exact ⟨row, hr, rfl⟩
  · rw [hbk]
    rfl
  · rw [hbk]
    rfl
  · rw [hdel.deferred]
    rfl
  · rw [hbk]
    rfl

/-! ### The transaction -/

def Unrevised (b : Backend) (actor : ActorRef) (content : Option String) (key : String) : Prop :=
  ∀ row ∈ b.records,
    row.key ≠ ⟨actor, if content.isSome then "messages.edit" else "messages.delete", key⟩

variable {row : Message} {actor : ActorRef} {reviser : Reviser}

/-- The checks before the claim let whoever may revise a message pass. -/
theorem statements_mayRevise (hr : b.db.message m = some row)
    (hmay : mayRevise b.db row actor reviser = true)
    (hedits : reviser = .custodianOfSender → content = none) :
    statements [.message (.requireReviser reviser content.isSome),
      .message (.original m row.conversation actor reviser)] ⟨b, [], []⟩ =
      .ok ((), ⟨b, [], []⟩) := by
  refine statements_eq_ok.mpr (runStatements_silent fun s hs => ?_)
  simp only [mem_cons, not_mem_nil, or_false] at hs
  obtain rfl | rfl := hs
  · refine ⟨[], ?_⟩
    have : ¬(reviser = .custodianOfSender ∧ content.isSome = true) := by
      rintro ⟨hrvr, hsome⟩
      rw [hedits hrvr] at hsome
      cases hsome
    simp only [Statement.exec, messageStatement, if_neg this]
  · exact ⟨[.message m], by simp [Statement.exec, messageStatement, hr, hmay]⟩

/-- Whoever may revise a message that is not deleted reaches the commit of the change. -/
theorem revise_of_mayRevise {d : Deployment} {e : Moment} {key : String}
    (hr : b.db.message m = some row) (hmay : mayRevise b.db row actor reviser = true)
    (hedits : reviser = .custodianOfSender → content = none)
    (hn : (b.db.history m).any (·.deletedAt.isSome) = false)
    (hk : Unrevised b actor content key) :
    ∃ w, revise d e actor reviser row.conversation m content key ⟨b, [], []⟩ = .ok (m, w) ∧
      Revised b m row.conversation (revisedHistory b.db m content e.now) w := by
  have hbody : ∀ records, ∃ w' : Work, (do
      statements [.message (.requireNotDeleted m), changeStatement m content e.now,
        .message (.nextRevision m row.conversation)]
      write (touch row.conversation e.now)
      pure m : Transact Nat) ⟨{ b with records }, [], []⟩ = .ok (m, w') ∧
        w'.backend.records = records ∧
        Revised b m row.conversation (revisedHistory b.db m content e.now) w' := by
    intro records
    obtain ⟨w', hrun, hrev, hrecs⟩ := runStatements_revision
      (b := { b with records }) row.conversation e.now content hn
    refine ⟨_, Tx.bind_eq_ok.mpr ⟨(), w', statements_eq_ok.mpr hrun,
      write_bind_eq_ok.mpr rfl⟩, hrecs, ?_⟩
    exact ⟨hrev.tables, hrev.groups, hrev.superseded, hrev.deferred⟩
  have hkd : ∃ (w' : Work) (records : List Idempotency.Record),
      keyed e.now ⟨actor, if content.isSome then "messages.edit" else "messages.delete", key⟩
          (d.requestHash (.revision m row.conversation content)) _ (fun _ => pure ()) ⟨b, [], []⟩ =
        .ok (m, { w' with backend := { w'.backend with records } }) ∧
      Revised b m row.conversation (revisedHistory b.db m content e.now) w' ∧ _ :=
    keyed_of_unrecorded (getRow_eq_none_iff.mpr hk) hbody
  obtain ⟨w', records, hkd, hrev, -⟩ := hkd
  refine ⟨_, Tx.bind_eq_ok.mpr ⟨(), _, statements_mayRevise hr hmay hedits, hkd⟩, ?_⟩
  exact ⟨hrev.tables, hrev.groups, hrev.superseded, hrev.deferred⟩

theorem coalesceMax_le {xs : List Nat} {n : Nat} (h : ∀ x ∈ xs, x ≤ n) : coalesceMax xs ≤ n := by
  induction xs with
  | nil => exact Nat.zero_le n
  | cons x xs ih =>
    exact Nat.max_le.mpr ⟨h x mem_cons_self, ih fun y hy => h y (mem_cons_of_mem _ hy)⟩

theorem mem_of_inserted {writes : List Write} {row : Delivery} (h : row ∈ inserted writes) :
    .delivery row ∈ writes := by
  obtain ⟨w, hw, hr⟩ := mem_filterMap.mp h
  cases w with
  | delivery row' =>
    cases hr
    exact hw
  | _ => cases hr

namespace Revised

variable {w : Work} {history : MessageHistory}

section

variable (h : Revised b m c history w)
include h

theorem message : w.backend.db.message m = b.db.message m := by
  obtain ⟨streams, new, hdb, -⟩ := h.tables
  rw [hdb]
  rfl

theorem stored (hm : history.message = m) :
    w.backend.db.history m = some history := by
  obtain ⟨streams, new, hdb, -⟩ := h.tables
  rw [hdb]
  show getRow MessageHistory.message (put MessageHistory.message history b.db.histories) m = _
  rw [getRow_put, if_pos hm.symm]

theorem conversationAddress (t : Texts) :
    Addresses.conversationAddress t w.backend c = Addresses.conversationAddress t b c := by
  obtain ⟨streams, new, hdb, -⟩ := h.tables
  unfold Addresses.conversationAddress
  rw [hdb, h.groups, h.superseded]
  rfl

/-- The deferred check of the outbox. -/
theorem finish (hr : b.db.message m = some row) (hc : row.conversation = c) :
    finish w = .ok w.backend := by
  have hmsg := h.message.trans hr
  obtain ⟨streams, new, hdb, hins, hrs, htgts⟩ := h.tables
  have hcmp : historyOutbox w.backend.db w.writes m = true := by
    unfold historyOutbox
    rw [hmsg, Option.all_some, List.all_eq_true]
    intro a ha
    have ha : a ∈ b.db.effectiveParticipants c := by
      rw [hdb, hc] at ha
      exact ha
    obtain ⟨delivery, hdlv, rfl⟩ := htgts a ha
    obtain ⟨sequence, heq⟩ := hrs delivery hdlv
    have hm : delivery ∈ w.backend.db.deliveries := by
      rw [hdb]
      exact mem_append_right _ hdlv
    have hlatest : coalesceMax (revisionsOf w.backend.db m) = nextRevision b.db m := by
      apply Nat.le_antisymm
      · refine coalesceMax_le fun revision hrevision => ?_
        obtain ⟨other, hoth, hsome⟩ := mem_filterMap.mp hrevision
        rw [hdb] at hoth
        rcases mem_append.mp hoth with hold | hnew
        · exact Nat.le_succ_of_le (le_coalesceMax (mem_filterMap.mpr ⟨other, hold, hsome⟩))
        · obtain ⟨sequence', heq'⟩ := hrs other hnew
          rw [heq'] at hsome
          simp [newDelivery] at hsome
          omega
      · refine le_coalesceMax (mem_filterMap.mpr ⟨delivery, hm, ?_⟩)
        rw [heq]
        simp [newDelivery]
    refine List.any_eq_true.mpr ⟨delivery, hm, ?_⟩
    have hwr : .delivery delivery ∈ w.writes := mem_of_inserted (hins ▸ hdlv)
    rw [hlatest]
    simp only [hwr, Bool.and_eq_true, decide_eq_true_eq, and_true, true_and]
    rw [heq]
    rfl
  unfold Backend.finish
  rw [h.deferred]
  simp [Check.holds, hcmp]

end

end Revised

section Transaction

variable {d : Deployment} {e : Moment} {t : Texts} {p : Posting} {actor : ActorRef}
  {reviser : Reviser} {key : String} {s : Addresses.Service} {row : Message}

/-- The deliveries of a change are handed on under the address of its conversation. -/
theorem enqueueTingHandoff_revised {address : String} (hr : b.db.message m = some row)
    (haddr : conversationAddress t b row.conversation = some address) (p : Posting)
    (origin : Option ActorRef) (now revision sequence : Nat) (target : ActorRef) :
    ∃ h, enqueueTingHandoff t p origin none now b
      (newDelivery target (.message m revision) c sequence) = .ok h := by
  simp only [enqueueTingHandoff, newDelivery, hr, haddr]
  exact ⟨_, rfl⟩

/-- A change by someone who may make it commits, in a conversation that has an address. -/
theorem reviseTransaction_eq_ok (hr : s.backend.db.message m = some row)
    (hmay : mayRevise s.backend.db row actor reviser = true)
    (hedits : reviser = .custodianOfSender → content = none)
    (hn : (s.backend.db.history m).any (·.deletedAt.isSome) = false)
    (hk : Unrevised s.backend actor content key)
    (haddr : (conversationAddress t s.backend row.conversation).isSome = true) :
    ∃ s', reviseTransaction d e t p actor reviser row.conversation m content key s = (.ok m, s') ∧
      s'.backend.db.message m = some row ∧
      s'.backend.db.history m = some (revisedHistory s.backend.db m content e.now) := by
  obtain ⟨w, hrevise, hrev⟩ :=
    revise_of_mayRevise (d := d) (e := e) hr hmay hedits hn hk
  obtain ⟨address, haddr⟩ := Option.isSome_iff_exists.mp haddr
  have hmsg := hrev.message.trans hr
  rw [← hrev.conversationAddress] at haddr
  obtain ⟨streams, new, -, hins, hrs, -⟩ := hrev.tables
  obtain ⟨handoffs, hmap, -⟩ := exists_mapM (l := new)
    (f := enqueueTingHandoff t p (some actor) none e.now w.backend) (Q := fun _ _ => True) (by
    intro delivery hdlv
    obtain ⟨sequence, heq⟩ := hrs delivery hdlv
    obtain ⟨h, hok⟩ := enqueueTingHandoff_revised (c := row.conversation) hmsg haddr p
      (some actor) e.now (nextRevision s.backend.db m) sequence delivery.target
    exact ⟨h, by rw [heq]; exact hok, trivial⟩)
  refine ⟨⟨w.backend, s.handoffs ++ handoffs.reduceOption⟩, ?_, hmsg,
    hrev.stored (message_revisedHistory _ _ _ _)⟩
  simp only [reviseTransaction, delivering, hrevise, hins, hmap, bind, Except.bind,
    hrev.finish hr rfl]

/-- A change that committed was made by someone who may make it, in a conversation that has an
address for the deliveries of the change. -/
theorem of_reviseTransaction {m' : Nat} {s' : Addresses.Service}
    (hr : s.backend.db.message m = some row)
    (hn : (s.backend.db.history m).any (·.deletedAt.isSome) = false)
    (hk : Unrevised s.backend actor content key) {a : ActorRef}
    (ha : a ∈ s.backend.db.effectiveParticipants row.conversation)
    (h : reviseTransaction d e t p actor reviser row.conversation m content key s = (.ok m', s')) :
    mayRevise s.backend.db row actor reviser = true ∧
      (conversationAddress t s.backend row.conversation).isSome = true := by
  obtain ⟨w, handoffs, hrun, hhandoffs, -⟩ := delivering_eq_ok h
  obtain ⟨_, w₀, hlooks, -⟩ := Tx.bind_eq_ok.mp hrun
  obtain ⟨⟨hedits, row', hr', -, hmay⟩, -⟩ := Backend.original_eq_ok.mp hlooks
  cases hr.symm.trans hr'
  refine ⟨hmay, ?_⟩
  have hnone : reviser = .custodianOfSender → content = none := by
    intro hrvr
    cases content with
    | none => rfl
    | some => exact absurd ⟨hrvr, rfl⟩ hedits
  obtain ⟨w', hrun', hrev⟩ := revise_of_mayRevise (d := d) (e := e) hr hmay hnone hn hk
  obtain ⟨-, rfl⟩ := Prod.mk.inj (Except.ok.inj (hrun.symm.trans hrun'))
  obtain ⟨streams, new, -, hins, hrs, htgts⟩ := hrev.tables
  obtain ⟨delivery, hdlv, -⟩ := htgts a ha
  obtain ⟨sequence, heq⟩ := hrs delivery hdlv
  rw [hins] at hhandoffs
  rw [← hrev.conversationAddress]
  have hid : row.id = m := (mem_of_getRow_eq_some hr).2
  have href : delivery.ref = .message row.id (nextRevision s.backend.db m) := by
    rw [heq, hid]
    rfl
  refine isSome_address_of_handoffs hhandoffs hdlv href ?_
  rw [hid]
  exact hrev.message.trans hr

end Transaction

end SiliconDm.Server.Revising
