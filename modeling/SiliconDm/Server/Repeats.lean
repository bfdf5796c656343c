import SiliconDm.Server.Steady

/-!
# Requests about messages, repeated

After a request about a message has succeeded, the same request succeeds again and changes
nothing: one behind an idempotency key is replayed, a receipt finds its row as it would write
it, and a draft that is to be deleted is gone. So are the changes of an allow-list.
-/

namespace SiliconDm.Server.Backend

open Base Management List

variable {b b' b₁ : Backend} {w w' : Work} {d : Deployment} {e e' : Moment}

/-! ### Work on messages -/

def Publishes (w w' : Work) : Prop :=
  w.backend.Steady w'.backend ∧ w'.backend.records = w.backend.records

instance : Std.Refl Publishes := ⟨fun w => ⟨.refl w.backend, rfl⟩⟩

instance : IsTrans Work Publishes :=
  ⟨fun _ _ _ h h' => ⟨h.1.trans h'.1, h'.2.trans h.2⟩⟩

variable {code : List Statement} {f : Backend → Backend} {c now hash resource now' m : Nat}
  {u : Unit} {key device addedBy : String} {actor recipient silicon : ActorRef} {reviser : Reviser}
  {content : Option String} {status : ReceiptStatus} {accounts : List Account}

theorem publishes_statements (hcode : ∀ s ∈ code, s.scope = .message) :
    (statements code).Moves Publishes :=
  fun w w' u h => ⟨steady_statements hcode w w' u h, sameRecords_statements code w w' u h⟩

/-- A write to none of the tables that paths and permissions are read from. -/
theorem publishes_write
    (hf : ∀ b, (f b).db = b.db ∧ (f b).directs = b.directs ∧ (f b).supersededBy = b.supersededBy ∧
      (f b).allowances = b.allowances ∧ (f b).records = b.records) : (write f).Moves Publishes := by
  apply Tx.Moves.alter
  intro w
  obtain ⟨hdb, hdirs, hsup, hall, hrecs⟩ := hf w.backend
  have hd : w.backend.db.Steady (f w.backend).db := by
    rw [hdb]
    exact .refl _
  exact ⟨⟨hd, hdirs, hsup, hall, fun _ _ _ hr => hr.of_eq hrecs⟩, hrecs⟩

theorem statements_silent (h : ∀ s ∈ code, ∃ locks, s.exec w.backend.db = .ok { locks }) :
    statements code w = .ok ((), w) :=
  statements_eq_ok.mpr (runStatements_silent (n := 3) h)

theorem requireParticipant_eq_ok {a : ActorRef} :
    statements [.message (.requireParticipant c a)] w = .ok (u, w') ↔
      a ∈ w.backend.db.effectiveParticipants c ∧ w = w' := by
  by_cases ha : a ∈ w.backend.db.effectiveParticipants c
  · have hrun : statements [.message (.requireParticipant c a)] w = .ok ((), w) := by
      apply statements_silent
      intro s hs
      obtain rfl := mem_singleton.mp hs
      exact ⟨[], by simp [Statement.exec, messageStatement, ha]⟩
    rw [hrun]
    simp [ha]
  · have hexec : (Statement.message (.requireParticipant c a)).exec w.backend.db =
        .error .notFound := by
      simp [Statement.exec, messageStatement, ha]
    simp only [ha, false_and, iff_false, statements_eq_ok, nesting, runStatements,
      foldlM_cons, hexec]
    intro h
    cases h

/-- A transaction behind the check that somebody takes part. -/
theorem transaction_participant {α : Type} {x : Transact α} {a : α} {who : ActorRef} :
    transaction (statements [.message (.requireParticipant c who)] >>= fun _ => x) b =
        (.ok a, b') ↔
      who ∈ b.db.effectiveParticipants c ∧ transaction x b = (.ok a, b') := by
  simp only [transaction_eq_ok, Tx.bind_eq_ok, requireParticipant_eq_ok]
  constructor
  · rintro ⟨w, ⟨_, _, ⟨hm, rfl⟩, hx⟩, hfin⟩
    exact ⟨hm, w, hx, hfin⟩
  · rintro ⟨hm, w, hx, hfin⟩
    exact ⟨w, ⟨(), _, ⟨hm, rfl⟩, hx⟩, hfin⟩

/-- What is done under a key is recorded. -/
theorem recorded_of_keyed {key : Idempotency.Key} {body : Transact Nat}
    {again : Nat → Transact Unit} (hbody : body.Moves SameRecords)
    (hrep : ∀ resource, (again resource).Moves SameRecords)
    (h : keyed now key hash body again w = .ok (resource, w')) :
    Recorded key hash resource w'.backend := by
  obtain ⟨hrec, hrep'⟩ | ⟨records, w₂, records', -, -, hrec, -⟩ := keyed_eq_ok hbody h
  · exact hrec.of_eq (hrep resource _ _ _ hrep')
  · exact hrec

/-- Work on messages under a key is steady, and is replayed wherever the record is kept. -/
theorem keyed_again {key : Idempotency.Key} {body body' : Transact Nat}
    (hbody : body.Moves Publishes)
    (h : transaction (keyed now key hash body fun _ => pure ()) b = (.ok resource, b₁)) :
    b.Steady b₁ ∧
      transaction (keyed now' key hash body' fun _ => pure ()) b₁ = (.ok resource, b₁) := by
  obtain ⟨w, hrun, hfin⟩ := transaction_eq_ok.mp h
  obtain rfl := backend_of_finish hfin
  have hs : SteadyWork _ _ :=
    steady_keyed (hbody.mono fun _ _ hp => hp.1) (fun _ => .pure ()) _ _ _ hrun
  have hrec := recorded_of_keyed (hbody.mono fun _ _ hp => hp.2) (fun _ => .pure ()) hrun
  exact ⟨hs, transaction_of_silent (keyed_of_recorded hrec rfl)⟩

/-! ### Messages -/

theorem publishes_newMessage (m c now : Nat) : (write (newMessage m c now)).Moves Publishes :=
  publishes_write fun _ => ⟨rfl, rfl, rfl, rfl, rfl⟩

/-- A message that was sent is sent again by its record. -/
theorem send_again {sender : ActorRef} {content : String}
    (h : transaction (send d e sender c content key) b = (.ok m, b₁)) :
    b.Steady b₁ ∧ transaction (send d e' sender c content key) b₁ = (.ok m, b₁) := by
  obtain ⟨hm, h⟩ := transaction_participant.mp h
  suffices hbody : Tx.Moves Publishes _ by
    obtain ⟨hs, hrep⟩ := keyed_again hbody h
    rw [← hs.db.effectiveParticipants] at hm
    exact ⟨hs, transaction_participant.mpr ⟨hm, hrep⟩⟩
  refine .bind (publishes_statements (by simp [Statement.scope])) fun _ => ?_
  refine .bind (publishes_newMessage e.messageId c e.now) fun _ => ?_
  refine .bind (publishes_write ?_) fun _ => .pure _
  exact fun _ => ⟨rfl, rfl, rfl, rfl, rfl⟩

theorem Steady.requireCurrent (hs : b.Steady b') (c : Nat) :
    requireCurrent c b' = requireCurrent c b := by
  unfold Backend.requireCurrent Writing.requireOpen Writing.recipientDeleted
  rw [hs.db.isGroup, hs.db.participants, hs.supersededBy]
  simp only [hs.db.deleted]

/-! ### Revisions -/

theorem Steady.requireReviser (hs : b.Steady b') (actor : ActorRef) (reviser : Reviser) (c : Nat) :
    requireReviser actor reviser c b' = requireReviser actor reviser c b := by
  unfold Backend.requireReviser Database.requireReader
  rw [hs.db.effectiveParticipants, hs.db.conversationAccess]

theorem original_eq_ok {edits : Bool} :
    statements [.message (.requireReviser reviser edits), .message (.original m c actor reviser)]
        w = .ok (u, w') ↔
      (¬ (reviser = .custodianOfSender ∧ edits = true) ∧
        ∃ row, w.backend.db.message m = some row ∧ row.conversation = c ∧
          mayRevise w.backend.db row actor reviser = true) ∧ w = w' := by
  have hsi : ¬ (reviser = .custodianOfSender ∧ edits = true) → ∀ row,
      w.backend.db.message m = some row → row.conversation = c →
      mayRevise w.backend.db row actor reviser = true →
      statements [.message (.requireReviser reviser edits), .message (.original m c actor reviser)]
        w = .ok ((), w) := by
    intro halwd row hrow hc hmay
    apply statements_silent
    intro s hs
    simp only [mem_cons, not_mem_nil, or_false] at hs
    rcases hs with rfl | rfl
    · exact ⟨[], by simp only [Statement.exec, messageStatement, if_neg halwd]⟩
    · exact ⟨[.message m], by simp [Statement.exec, messageStatement, hrow, hc, hmay]⟩
  constructor
  · intro h
    have hrun := statements_eq_ok.mp h
    simp only [nesting, runStatements, foldlM_cons] at hrun
    obtain ⟨w₁, h₁, hrun⟩ := bind_eq_ok.mp hrun
    obtain ⟨w₂, h₂, hrun⟩ := bind_eq_ok.mp hrun
    obtain ⟨o₁, ho₁, h₁⟩ := bind_eq_ok.mp h₁
    obtain ⟨o₂, ho₂, h₂⟩ := bind_eq_ok.mp h₂
    simp only [Statement.exec, messageStatement] at ho₁ ho₂
    split at ho₁
    · cases ho₁
    next halwd =>
      cases ho₁
      cases h₁
      split at ho₂
      · cases ho₂
      next row hrow =>
        split at ho₂
        · cases ho₂
        next hc =>
          split at ho₂
          next hmay =>
            rw [hsi halwd row hrow (not_not.mp hc) hmay] at h
            have hw := congrArg Prod.snd (Except.ok.inj h)
            exact ⟨⟨halwd, row, hrow, not_not.mp hc, hmay⟩, hw⟩
          · cases ho₂
  · rintro ⟨⟨halwd, row, hrow, hc, hmay⟩, rfl⟩
    exact hsi halwd row hrow hc hmay

/-- A transaction behind the looks of a revision. -/
theorem transaction_original {α : Type} {x : Transact α} {a : α} {edits : Bool} :
    transaction (statements [.message (.requireReviser reviser edits),
        .message (.original m c actor reviser)] >>= fun _ => x) b = (.ok a, b') ↔
      (¬ (reviser = .custodianOfSender ∧ edits = true) ∧
        ∃ row, b.db.message m = some row ∧ row.conversation = c ∧
          mayRevise b.db row actor reviser = true) ∧ transaction x b = (.ok a, b') := by
  simp only [transaction_eq_ok, Tx.bind_eq_ok, original_eq_ok]
  constructor
  · rintro ⟨w, ⟨_, _, ⟨hlooks, rfl⟩, hx⟩, hfin⟩
    exact ⟨hlooks, w, hx, hfin⟩
  · rintro ⟨hlooks, w, hx, hfin⟩
    exact ⟨w, ⟨(), _, ⟨hlooks, rfl⟩, hx⟩, hfin⟩

theorem revise_again (e' : Moment) {r : Nat}
    (h : transaction (revise d e actor reviser c m content key) b = (.ok r, b₁)) :
    b.Steady b₁ ∧
      transaction (revise d e' actor reviser c m content key) b₁ = (.ok r, b₁) := by
  obtain ⟨⟨halwd, row, hrow, hc, hmay⟩, h⟩ := transaction_original.mp h
  suffices hbody : Tx.Moves Publishes _ by
    obtain ⟨hs, hrep⟩ := keyed_again hbody h
    refine ⟨hs, transaction_original.mpr ⟨⟨halwd, row, hs.db.messages m row hrow, hc, ?_⟩, ?_⟩⟩
    · unfold mayRevise at hmay ⊢
      rwa [hs.db.accounts]
    · exact hrep
  refine .bind (publishes_statements ?_) fun _ => .bind (publishes_write ?_) fun _ => .pure m
  · cases content <;> simp [Statement.scope]
  · exact fun _ => ⟨rfl, rfl, rfl, rfl, rfl⟩

theorem reviseMessage_again {a : Rendered}
    (h : reviseMessage d e actor reviser c m content key b = (.ok a, b₁)) :
    b.Steady b₁ ∧ reviseMessage d e' actor reviser c m content key b₁ = (.ok a, b₁) := by
  obtain ⟨_, hrvr, h⟩ := Handler.read_bind_eq_ok.mp h
  obtain ⟨r, b₂, htx, h⟩ := Handler.bind_eq_ok.mp h
  obtain ⟨hload, rfl⟩ := Handler.read_eq_ok.mp h
  obtain ⟨hs, hrep⟩ := revise_again e' htx
  refine ⟨hs, Handler.read_bind_eq_ok.mpr ⟨(), ?_, ?_⟩⟩
  · rw [hs.requireReviser]
    exact hrvr
  · exact Handler.bind_eq_ok.mpr ⟨r, b₂, hrep, Handler.read_eq_ok.mpr ⟨hload, rfl⟩⟩

/-! ### Bundles -/

theorem bundle_again {creator : ActorRef} {id : Nat} {messages : List Nat} {display : String}
    (h : transaction (bundle d e creator c messages display key) b = (.ok id, b₁)) :
    b.Steady b₁ ∧
      transaction (bundle d e' creator c messages display key) b₁ = (.ok id, b₁) := by
  obtain ⟨hm, h⟩ := transaction_participant.mp h
  suffices hbody : Tx.Moves Publishes _ by
    obtain ⟨hs, hrep⟩ := keyed_again hbody h
    rw [← hs.db.effectiveParticipants] at hm
    exact ⟨hs, transaction_participant.mpr ⟨hm, hrep⟩⟩
  refine .bind (.read _) fun _ => ?_
  refine .bind (publishes_statements (by simp [Statement.scope])) fun _ => ?_
  refine .bind (publishes_newMessage e.messageId c e.now) fun _ => ?_
  refine .bind (publishes_write ?_) fun _ => ?_
  · exact fun _ => ⟨rfl, rfl, rfl, rfl, rfl⟩
  · exact .bind (publishes_statements (by simp [Statement.scope])) fun _ => .pure _

/-! ### Drafts and receipts -/

/-- A transaction that only writes tables of this module. -/
theorem transaction_write : transaction (write f) b = (.ok u, b') ↔ f b = b' := by
  rw [transaction_eq_ok]
  constructor
  · rintro ⟨w, hw, hfin⟩
    obtain rfl := write_eq_ok.mp hw
    exact backend_of_finish hfin
  · rintro rfl
    exact ⟨_, write_eq_ok.mpr rfl, rfl⟩

theorem steady_write
    (hf : ∀ b, (f b).db = b.db ∧ (f b).directs = b.directs ∧ (f b).supersededBy = b.supersededBy ∧
      (f b).allowances = b.allowances ∧ (f b).records = b.records) : b.Steady (f b) :=
  (publishes_write hf ⟨b, [], []⟩ _ () (write_eq_ok.mpr rfl)).1

theorem deleteDraft_again (h : transaction (deleteDraft c actor) b = (.ok u, b₁)) :
    b.Steady b₁ ∧ transaction (deleteDraft c actor) b₁ = (.ok u, b₁) := by
  obtain ⟨hm, h⟩ := transaction_participant.mp h
  obtain rfl := transaction_write.mp h
  have hs : b.Steady (withoutDraft c actor b) :=
    steady_write fun _ => ⟨rfl, rfl, rfl, rfl, rfl⟩
  rw [← hs.db.effectiveParticipants] at hm
  refine ⟨hs, transaction_participant.mpr ⟨hm, transaction_write.mpr ?_⟩⟩
  simp [withoutDraft]

theorem key_advanceReceipt (r : Receipt) : (advanceReceipt status now r).key = r.key := by
  unfold advanceReceipt
  split <;> rfl

/-- A receipt that was put is not changed by putting it again. -/
theorem putReceipt_again (h : b₁.receipts = (putReceipt m recipient device status now b).receipts) :
    putReceipt m recipient device status now' b₁ = b₁ := by
  have htwice : ∀ r, advanceReceipt status now' (advanceReceipt status now r) =
      advanceReceipt status now r := by
    intro r
    cases hr : r.status <;> cases status <;> simp [advanceReceipt, hr]
  have hrcpt : (putReceipt m recipient device status now' b₁).receipts = b₁.receipts := by
    rw [h]
    simp only [putReceipt, h]
    refine upsert_upsert ?_ (fun r _ => key_advanceReceipt r) ?_ htwice
    · rfl
    · cases status <;> rfl
  calc putReceipt m recipient device status now' b₁
      = { b₁ with receipts := (putReceipt m recipient device status now' b₁).receipts } := rfl
    _ = b₁ := by rw [hrcpt]

/-- The aggregate of a message has nothing to learn from its receipts. -/
structure Settled (m : Nat) (b : Backend) : Prop where
  read : b.received m true = true →
    (b.aggregates m).status = .read ∨ (b.aggregates m).status = .failed
  delivered : b.received m false = true →
    (b.aggregates m).status ≠ .waiting ∧ (b.aggregates m).status ≠ .sent

theorem Settled.advanceAggregate (h : Settled m b) : advanceAggregate m now b = b := by
  unfold Backend.advanceAggregate
  dsimp only
  split_ifs with hread hstat hdel hold
  · rfl
  · exact absurd (h.read hread) (by simpa using hstat)
  · have := h.delivered hdel
    simp [this] at hold
  · rfl
  · rfl

theorem advanceAggregate_eq (m now : Nat) (b : Backend) : advanceAggregate m now b =
    { b with aggregates := (advanceAggregate m now b).aggregates } := by
  unfold advanceAggregate
  dsimp only
  split_ifs <;> rfl

theorem settled_advanceAggregate (m now : Nat) (b : Backend) :
    Settled m (advanceAggregate m now b) := by
  have hrcv : ∀ read, (advanceAggregate m now b).received m read = b.received m read := by
    rw [advanceAggregate_eq]
    exact fun _ => rfl
  constructor
  · intro hr
    rw [hrcv] at hr
    unfold Backend.advanceAggregate
    dsimp only
    rw [if_pos hr]
    split_ifs with hstat
    · simpa using hstat
    · simp
  · intro hr
    rw [hrcv] at hr
    unfold Backend.advanceAggregate
    dsimp only
    split_ifs with hread hstat hold
    · rcases (by simpa using hstat : (b.aggregates m).status = .read ∨
        (b.aggregates m).status = .failed) with h | h <;> simp [h]
    · simp
    · simp
    · simpa using hold

theorem Settled.congr (h : Settled m b) (hrcv : ∀ read, b'.received m read = b.received m read)
    (haggregate : b'.aggregates = b.aggregates) : Settled m b' := by
  constructor
  · rw [hrcv, haggregate]
    exact h.read
  · rw [hrcv, haggregate]
    exact h.delivered

/-- A delivery of a message, not of a status or an event. -/
def ofMessage (row : Delivery) : Bool :=
  match row.ref with
  | .message .. => true
  | _ => false

def reporting : Statement → Bool
  | .message (.reportStatus ..) | .message (.deliver _ (.messageStatus ..) _)
  | .message (.openStream ..) | .message (.enqueue _ (.messageStatus ..) _) => true
  | _ => false

theorem reporting_exec {s : Statement} {v : Database} {o : Outcome Statement Check Write Lock}
    (hs : reporting s = true) (h : s.exec v = .ok o) :
    (store.applyAll v o.writes).deliveries.filter ofMessage = v.deliveries.filter ofMessage ∧
      ∀ s' ∈ o.next, reporting s' = true := by
  unfold reporting at hs
  split at hs
  · simp only [Statement.exec, messageStatement] at h
    split at h <;> cases h
    simp [reporting, Language.applyAll]
  · simp only [Statement.exec, messageStatement] at h
    split at h <;> cases h <;> simp [reporting, Language.applyAll]
  · simp only [Statement.exec, messageStatement] at h
    split at h <;> cases h <;> simp [Language.applyAll, store, Write.apply]
  · simp only [Statement.exec, messageStatement, enqueueStatement] at h
    split at h
    · cases h
    · split at h <;> cases h <;>
        simp [Language.applyAll, store, Write.apply, newDelivery, ofMessage]
  · cases hs

/-- A report of a status delivers no message. -/
theorem deliveries_of_report {status : MessageStatus} {v v' : Database}
    (h : store.Runs v [.message (.reportStatus m status)] v') :
    v'.deliveries.filter ofMessage = v.deliveries.filter ofMessage := by
  refine Language.Triple.frame (p := fun s => reporting s = true)
    (P := fun x => x.deliveries.filter ofMessage = v.deliveries.filter ofMessage) ?_ ?_ v v' rfl h
  · intro s x o hs hx ho
    obtain ⟨hkept, hnext⟩ := reporting_exec hs (exec_eq_some ho)
    exact ⟨hkept.trans hx, hnext⟩
  · simp [reporting]

section Congr

variable {row : Message} (hrow : b.db.message m = some row) (hrow' : b'.db.message m = some row)
  (hdeliveries : b'.db.deliveries.filter ofMessage = b.db.deliveries.filter ofMessage)

include hrow hrow' hdeliveries

theorem recipientsOf_congr : b'.recipientsOf m = b.recipientsOf m := by
  unfold recipientsOf
  rw [hrow, hrow']
  dsimp only
  congr 1
  apply filter_eq_of_imp hdeliveries
  intro delivery hd
  simp only [Bool.and_eq_true, decide_eq_true_eq] at hd
  simp [ofMessage, hd.1.1]

theorem received_congr (hrcpt : b'.receipts = b.receipts) (read : Bool) :
    b'.received m read = b.received m read := by
  unfold received
  rw [recipientsOf_congr hrow hrow' hdeliveries, hrcpt]

end Congr

theorem announceStatus_eq_ok {previous : MessageStatus}
    (h : announceStatus m previous w = .ok (u, w')) :
    Publishes w w' ∧ w'.backend = { w.backend with db := w'.backend.db } ∧
      w'.backend.db.deliveries.filter ofMessage = w.backend.db.deliveries.filter ofMessage := by
  obtain ⟨status, -, h⟩ := query_bind_eq_ok.mp h
  split at h
  · obtain ⟨hruns, honly⟩ := runs_of_runStatements (statements_eq_ok.mp h)
    exact ⟨publishes_statements (by simp [Statement.scope]) _ _ _ h, honly,
      deliveries_of_report hruns⟩
  · obtain ⟨-, rfl⟩ := Tx.pure_eq_ok.mp h
    exact ⟨refl w, rfl, rfl⟩

theorem Steady.receivedMessage (hs : b.Steady b') (h : receivedMessage recipient c m b = .ok u) :
    ∃ row, b.db.message m = some row ∧ receivedMessage recipient c m b' = .ok u := by
  unfold Backend.receivedMessage at h ⊢
  cases hrow : b.db.message m with
  | none =>
    rw [hrow] at h
    cases h
  | some row =>
    rw [hrow] at h
    rw [hs.db.messages m row hrow]
    exact ⟨row, rfl, h⟩

/-- What a receipt that is recorded went through. -/
theorem recordReceipt_eq_ok
    (h : transaction (recordReceipt e recipient c m device status) b = (.ok u, b₁)) :
    recipient ∈ b.db.effectiveParticipants c ∧ receivedMessage recipient c m b = .ok () ∧
      ∃ w, announceStatus m (b.aggregates m).status ⟨advanceAggregate m e.now
        (putReceipt m recipient device status e.now b), [], []⟩ = .ok (u, w) ∧ w.backend = b₁ := by
  obtain ⟨hm, h⟩ := transaction_participant.mp h
  obtain ⟨w, hrun, hfin⟩ := transaction_eq_ok.mp h
  obtain ⟨_, hrcv, hrun⟩ := query_bind_eq_ok.mp hrun
  obtain ⟨previous, hprev, hrun⟩ := query_bind_eq_ok.mp hrun
  cases hprev
  exact ⟨hm, hrcv, w, write_bind_eq_ok.mp (write_bind_eq_ok.mp hrun), backend_of_finish hfin⟩

/-- A receipt that was recorded is recorded again without a trace. -/
theorem recordReceipt_again
    (h : transaction (recordReceipt e recipient c m device status) b = (.ok u, b₁)) :
    b.Steady b₁ ∧
      transaction (recordReceipt e' recipient c m device status) b₁ = (.ok u, b₁) := by
  obtain ⟨hm, hrcv, w, hrun, rfl⟩ := recordReceipt_eq_ok h
  obtain ⟨hpubs, honly, hdeliveries⟩ := announceStatus_eq_ok hrun
  have hsett := settled_advanceAggregate m e.now (putReceipt m recipient device status e.now b)
  have hrcpt : (advanceAggregate m e.now
      (putReceipt m recipient device status e.now b)).receipts =
      (putReceipt m recipient device status e.now b).receipts := by
    rw [advanceAggregate_eq]
  have hput : b.Steady (advanceAggregate m e.now (putReceipt m recipient device status e.now b)) := by
    refine (steady_write (f := putReceipt m recipient device status e.now) ?_).trans
      (steady_write (f := advanceAggregate m e.now) ?_)
    · exact fun _ => ⟨rfl, rfl, rfl, rfl, rfl⟩
    · intro b
      rw [advanceAggregate_eq]
      exact ⟨rfl, rfl, rfl, rfl, rfl⟩
  have hs : b.Steady w.backend := hput.trans hpubs.1
  obtain ⟨row, hrow, hrep⟩ := hs.receivedMessage hrcv
  dsimp only at honly hdeliveries
  generalize advanceAggregate m e.now (putReceipt m recipient device status e.now b) = x at *
  -- the report of the status moved deliveries and streams only
  have hrcpt' : w.backend.receipts = x.receipts := by rw [honly]
  have hagg : w.backend.aggregates = x.aggregates := by rw [honly]
  have hsett' : Settled m w.backend :=
    hsett.congr (received_congr (hput.db.messages m row hrow) (hs.db.messages m row hrow)
      hdeliveries hrcpt') hagg
  have hm' : recipient ∈ w.backend.db.effectiveParticipants c := by
    rw [hs.db.effectiveParticipants]
    exact hm
  refine ⟨hs, transaction_participant.mpr ⟨hm', transaction_of_silent ?_⟩⟩
  refine query_bind_eq_ok.mpr ⟨_, hrep, query_bind_eq_ok.mpr ⟨_, rfl, ?_⟩⟩
  refine write_bind_eq_ok.mpr (write_bind_eq_ok.mpr ?_)
  dsimp only
  rw [putReceipt_again (hrcpt'.trans hrcpt), hsett'.advanceAggregate]
  refine query_bind_eq_ok.mpr ⟨_, rfl, ?_⟩
  rw [if_neg (by simp)]
  rfl

/-! ### Allow-lists -/

def allows (silicon : ActorRef) (who : Account) (a : Allowance) : Bool :=
  a.silicon = silicon.id && a.allowed = who.actor

theorem allowContact_eq_ok {who : Account} :
    allowContact e silicon addedBy who b = (.ok u, b') ↔ who.uuid ≠ silicon.id ∧
      (if b.allowances.any (allows silicon who) then b
        else { b with allowances := b.allowances ++ [⟨silicon.id, who.actor, addedBy, e.now⟩] })
        = b' := by
  unfold allowContact
  rw [Handler.read_bind_eq_ok]
  simp only [require_eq_ok, exists_const, decide_eq_true_eq, transaction_write]
  rfl

/-- Everybody who was allowed is on the list, so that nobody is added again. -/
theorem forM_allowContact_again (h : accounts.forM (allowContact e silicon addedBy) b = (.ok u, b₁)) :
    b₁.db = b.db ∧ accounts.forM (allowContact e' silicon addedBy) b₁ = (.ok (), b₁) := by
  have hinv : b₁.db = b.db ∧ ∀ who ∈ accounts, who ∈ ([] : List Account) ∨
      who.uuid ≠ silicon.id ∧ b₁.allowances.any (allows silicon who) = true := by
    refine Handler.forM_invariant (I := fun rest (s : Backend) => s.db = b.db ∧
      ∀ who ∈ accounts, who ∈ rest ∨
        who.uuid ≠ silicon.id ∧ s.allowances.any (allows silicon who) = true) ?_
      ⟨rfl, fun who hwho => .inl hwho⟩ h
    intro who rest s s' hs hstep
    obtain ⟨hne, rfl⟩ := allowContact_eq_ok.mp hstep
    refine ⟨?_, fun who' hwho' => ?_⟩
    · split <;> exact hs.1
    · rcases hs.2 who' hwho' with hrest | ⟨hne', hany⟩
      · rcases mem_cons.mp hrest with rfl | hrest
        · refine .inr ⟨hne, ?_⟩
          split
          next hany => exact hany
          next => simp [allows]
        · exact .inl hrest
      · refine .inr ⟨hne', ?_⟩
        split
        · exact hany
        · simp only [any_append, hany, Bool.true_or]
  refine ⟨hinv.1, Handler.forM_of_pass fun who hwho => allowContact_eq_ok.mpr ?_⟩
  obtain ⟨hne, hany⟩ := (hinv.2 who hwho).resolve_left (by simp)
  exact ⟨hne, if_pos hany⟩

theorem disallowContact_eq_ok {who : Account} :
    disallowContact silicon who b = (.ok u, b') ↔
      { b with allowances := b.allowances.filter fun a => !allows silicon who a } = b' :=
  transaction_write

/-- Nobody who was taken off the list is on it, so that nobody is taken off again. -/
theorem forM_disallowContact_again (h : accounts.forM (disallowContact silicon) b = (.ok u, b₁)) :
    b₁.db = b.db ∧ accounts.forM (disallowContact silicon) b₁ = (.ok (), b₁) := by
  have hinv : b₁.db = b.db ∧ ∀ who ∈ accounts, who ∈ ([] : List Account) ∨
      ∀ a ∈ b₁.allowances, allows silicon who a = false := by
    refine Handler.forM_invariant (I := fun rest (s : Backend) => s.db = b.db ∧
      ∀ who ∈ accounts, who ∈ rest ∨ ∀ a ∈ s.allowances, allows silicon who a = false) ?_
      ⟨rfl, fun who hwho => .inl hwho⟩ h
    intro who rest s s' hs hstep
    obtain rfl := disallowContact_eq_ok.mp hstep
    refine ⟨hs.1, fun who' hwho' => ?_⟩
    rcases hs.2 who' hwho' with hrest | hgone
    · rcases mem_cons.mp hrest with rfl | hrest
      · refine .inr fun a ha => ?_
        simpa using (mem_filter.mp ha).2
      · exact .inl hrest
    · exact .inr fun a ha => hgone a (mem_filter.mp ha).1
  refine ⟨hinv.1, Handler.forM_of_pass fun who hwho => disallowContact_eq_ok.mpr ?_⟩
  have hgone := (hinv.2 who hwho).resolve_left (by simp)
  rw [filter_eq_self.mpr fun a ha => by simp [hgone a ha]]

end SiliconDm.Server.Backend
