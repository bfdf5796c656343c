import SiliconDm.Server.Addresses
import SiliconDm.Server.Repeats

/-!
# Receipts and the status of a message

Receipts of a message arrive in any order, from any device, and again. Each is recorded in a
transaction that first locks the row of the message, so those of one message take effect one
after the other; one that is refused takes none.

Sources: `src/infrastructure/postgres/messages.rs:378–513,858–901`,
`migrations/0020_groups.sql:207–266`.
-/

namespace SiliconDm.Server.Receipts

open Base Backend List

structure Call where
  moment : Moment
  recipient : ActorRef
  conversation : Nat
  device : String
  status : ReceiptStatus

/-- The status deliveries of a message: to whom, and of which status. -/
def notices (m : Nat) (rows : List Delivery) : List (ActorRef × MessageStatus) :=
  rows.filterMap fun row => match row.ref with
    | .messageStatus m' status => if m' = m then some (row.target, status) else none
    | _ => none

def receiving (m : Nat) : System Backend Call where
  init b := Keyed Receipt.key b.receipts ∧ (∀ r ∈ b.receipts, r.message ≠ m) ∧
    (b.aggregates m).status = .sent ∧ notices m b.db.deliveries = []
  step b r := some (transaction
    (recordReceipt r.moment r.recipient r.conversation m r.device r.status) b).2

def rank : MessageStatus → Nat
  | .delivered => 1
  | .read => 2
  | _ => 0

/-- Some device of the account has the message, or has read it. -/
def heard (b : Backend) (m : Nat) (read : Bool) (a : ActorRef) : Bool :=
  b.receipts.any fun r => r.message = m && r.recipient = a && (!read || r.status = .read)

/-- The best status among the devices of an account. -/
def best (b : Backend) (m : Nat) (a : ActorRef) : MessageStatus :=
  if heard b m true a then .read else if heard b m false a then .delivered else .sent

/-- The status that the receipts of a message amount to. -/
def standing (b : Backend) (m : Nat) : MessageStatus :=
  if b.received m true then .read else if b.received m false then .delivered else .sent

variable {b b' : Backend} {m c now : Nat} {recipient : ActorRef} {device : String}
  {status : ReceiptStatus} {read : Bool} {r : Call} {u : Unit}

/-- It is the least of the recipients' best. -/
theorem standing_least (h : b.recipientsOf m ≠ []) :
    (∃ a ∈ b.recipientsOf m, best b m a = standing b m) ∧
      ∀ a ∈ b.recipientsOf m, rank (standing b m) ≤ rank (best b m a) := by
  have hall (read) : b.received m read = (b.recipientsOf m).all (heard b m read) := by
    unfold received
    rw [isEmpty_eq_false_iff.mpr h]
    rfl
  unfold standing best
  simp only [hall, List.all_eq_true]
  obtain ⟨a, ha⟩ := exists_mem_of_ne_nil _ h
  split_ifs with hread hdel
  · exact ⟨⟨a, ha, by rw [if_pos (hread a ha)]⟩, fun a ha => by rw [if_pos (hread a ha)]⟩
  · push Not at hread
    obtain ⟨a, ha, hn⟩ := hread
    refine ⟨⟨a, ha, by rw [if_neg hn, if_pos (hdel a ha)]⟩, fun a ha => ?_⟩
    rw [if_pos (hdel a ha)]
    split_ifs <;> decide
  · push Not at hdel
    obtain ⟨a, ha, hn⟩ := hdel
    refine ⟨⟨a, ha, ?_⟩, fun _ _ => Nat.zero_le _⟩
    have hunread : ¬heard b m true a := fun h => by
      obtain ⟨r, hr, hp⟩ := List.any_eq_true.mp h
      exact hn (List.any_eq_true.mpr ⟨r, hr, by simp_all⟩)
    rw [if_neg hunread, if_neg hn]

/-! ### What one receipt writes -/

theorem exists_receipt {r : Receipt} (hr : r ∈ b.receipts) :
    ∃ r' ∈ (putReceipt m recipient device status now b).receipts,
      r'.key = r.key ∧ (r.status = .read → r'.status = .read) := by
  simp only [putReceipt, upsert]
  split_ifs
  · refine ⟨_, mem_map_of_mem hr, ?_⟩
    split_ifs
    · exact ⟨key_advanceReceipt r, fun h => by simp [advanceReceipt, h]⟩
    · exact ⟨rfl, id⟩
  · exact ⟨r, mem_append_left _ hr, rfl, id⟩

theorem received_putReceipt (h : b.received m read = true) :
    (putReceipt m recipient device status now b).received m read = true := by
  simp only [received, Bool.and_eq_true, List.all_eq_true, List.any_eq_true,
    decide_eq_true_eq] at h ⊢
  refine ⟨h.1, fun a ha => ?_⟩
  obtain ⟨r, hr, ⟨hm, ha⟩, hp⟩ := h.2 a ha
  obtain ⟨r', hr', hk, hkept⟩ := exists_receipt hr
  obtain ⟨hm', ha', -⟩ : r'.message = r.message ∧ r'.recipient = r.recipient ∧ _ := by
    simpa [Receipt.key] using hk
  refine ⟨r', hr', ⟨hm'.trans hm, ha'.trans ha⟩, ?_⟩
  cases read with
  | false => rfl
  | true => simpa using hkept (by simpa using hp)

theorem rank_standing_le (h : ∀ read, b.received m read = true → b'.received m read = true) :
    rank (standing b m) ≤ rank (standing b' m) := by
  unfold standing
  split_ifs with hr hr' hd' hd hr' hd' <;> first | decide | exact absurd (h _ ‹_›) ‹_›

/-- The trigger brings the status up to what the receipts amount to. -/
theorem status_advanceAggregate (hle : rank (b.aggregates m).status ≤ rank (standing b m))
    (hknown : (b.aggregates m).status ≠ .waiting ∧ (b.aggregates m).status ≠ .failed) :
    ((advanceAggregate m now b).aggregates m).status = standing b m := by
  unfold advanceAggregate standing at *
  cases hs : (b.aggregates m).status <;> simp_all <;> split_ifs at * <;> simp_all [rank]

theorem standing_known : standing b m ≠ .waiting ∧ standing b m ≠ .failed := by
  unfold standing
  split_ifs <;> decide

theorem eq_of_rank_standing_le (h : rank (standing b' m) ≤ rank (standing b m))
    (h' : rank (standing b m) ≤ rank (standing b' m)) : standing b' m = standing b m := by
  unfold standing at *
  split_ifs at * <;> simp_all [rank]

/-- A status the sender was not told of before is told in one delivery. -/
theorem announceStatus_notices {w : Work} {row : Message} {previous : MessageStatus}
    (hr : b.db.message m = some row)
    (hfr : ∀ n ∈ notices m b.db.deliveries, n.2 = (b.aggregates m).status →
      (b.aggregates m).status = previous)
    (hknown : (b.aggregates m).status ≠ previous →
      (b.aggregates m).status = .delivered ∨ (b.aggregates m).status = .read)
    (h : announceStatus m previous ⟨b, [], []⟩ = .ok (u, w)) :
    notices m w.backend.db.deliveries = notices m b.db.deliveries ++
      if (b.aggregates m).status = previous then [] else [(row.sender, (b.aggregates m).status)] := by
  obtain ⟨status, hstat, h⟩ := query_bind_eq_ok.mp h
  cases hstat
  dsimp only at h
  by_cases hsame : (b.aggregates m).status = previous
  · rw [if_neg (by simp [hsame])] at h
    obtain ⟨-, rfl⟩ := Tx.pure_eq_ok.mp h
    rw [if_pos hsame, append_nil]
  · rw [if_pos (by simpa [hsame] using hknown hsame)] at h
    have hnew : ∀ d ∈ b.db.deliveries, ¬(d.target = row.sender ∧
        d.ref = .messageStatus m (b.aggregates m).status) := fun d hd hsent => hsame <| hfr
      (d.target, (b.aggregates m).status) (mem_filterMap.mpr ⟨d, hd, by simp [hsent.2]⟩) rfl
    obtain ⟨w', sequence, hrun, hdel⟩ := Addresses.runStatements_deliver (n := 1)
      (c := row.conversation) (w := ⟨b, [], []⟩) hnew
    have hreport : (Statement.message (.reportStatus m (b.aggregates m).status)).exec b.db = .ok {
        locks := [.message m]
        next := [.message (.deliver row.sender (.messageStatus m (b.aggregates m).status)
          row.conversation)] } := by
      simp only [Statement.exec, messageStatement, hr]
    have hw := statements_eq_ok.mp h
    rw [nesting, Addresses.runStatements_cons hreport hrun, Addresses.runStatements_nil] at hw
    cases hw
    obtain ⟨streams, hb⟩ := hdel.backend
    rw [hb, if_neg hsame]
    simp [notices, newDelivery]

/-! ### Every run -/

structure Advanced (m : Nat) (b b' : Backend) : Prop where
  recipients : b'.recipientsOf m = b.recipientsOf m
  devices : ∀ r ∈ b.receipts, ∃ r' ∈ b'.receipts,
    r'.key = r.key ∧ (r.status = .read → r'.status = .read)
  status : rank (b.aggregates m).status ≤ rank (b'.aggregates m).status
  notices : notices m b'.db.deliveries = notices m b.db.deliveries ++
    if (b'.aggregates m).status = (b.aggregates m).status then []
    else ((b.db.message m).map fun row => (row.sender, (b'.aggregates m).status)).toList

/-- The status is the one of the receipts, and the sender was told of none above it. -/
structure Recorded (m : Nat) (b : Backend) : Prop where
  keyed : Keyed Receipt.key b.receipts
  status : (b.aggregates m).status = standing b m
  told : ∀ n ∈ notices m b.db.deliveries, rank n.2 ≤ rank (b.aggregates m).status

theorem Recorded.recordReceipt {e : Moment} (h : Recorded m b) (hok : transaction
    (recordReceipt e recipient c m device status) b = (.ok u, b')) :
    Recorded m b' ∧ Advanced m b b' := by
  obtain ⟨-, hmsg, w, hrun, rfl⟩ := recordReceipt_eq_ok hok
  obtain ⟨row, hrow, -⟩ := (Steady.refl b).receivedMessage hmsg
  obtain ⟨hpubs, honly, hdels⟩ := announceStatus_eq_ok hrun
  let p := putReceipt m recipient device status e.now b
  have hrank : rank (standing b m) ≤ rank (standing p m) :=
    rank_standing_le fun _ => received_putReceipt
  have hstat : ((advanceAggregate m e.now p).aggregates m).status = standing p m :=
    status_advanceAggregate (h.status ▸ hrank) (h.status ▸ standing_known)
  have hx := advanceAggregate_eq m e.now p
  change Steady (advanceAggregate m e.now p) w.backend ∧ _ at hpubs
  change announceStatus m _ ⟨advanceAggregate m e.now p, [], []⟩ = _ at hrun
  change w.backend = { advanceAggregate m e.now p with db := w.backend.db } at honly
  change _ = (advanceAggregate m e.now p).db.deliveries.filter ofMessage at hdels
  generalize advanceAggregate m e.now p = x at *
  have hdb : x.db = b.db := by rw [hx]; rfl
  have hrcpt : w.backend.receipts = p.receipts := by rw [honly, hx]
  have hagg : w.backend.aggregates = x.aggregates := by rw [honly]
  have hrow' : w.backend.db.message m = some row := (hpubs.1.db.messages m row) (hdb ▸ hrow)
  have hrcv (read) : w.backend.received m read = p.received m read :=
    received_congr (b := p) hrow hrow' (hdb ▸ hdels) hrcpt read
  have hstand : standing w.backend m = standing p m := by simp only [standing, hrcv]
  rw [h.status] at hrun
  have hnotices : notices m w.backend.db.deliveries = notices m b.db.deliveries ++ _ := hdb ▸
    announceStatus_notices (hdb ▸ hrow) (fun n hn hsame => by
      have hle := h.told n (hdb ▸ hn)
      rw [hsame, hstat, h.status] at hle
      exact hstat.trans (eq_of_rank_standing_le hle hrank)) (fun hne => by
      rw [hstat] at hne ⊢
      clear * - hne hrank
      unfold standing at *
      split_ifs at * <;> simp_all [rank]) hrun
  have hle : rank (b.aggregates m).status ≤ rank (w.backend.aggregates m).status := by
    rwa [hagg, hstat, h.status]
  refine ⟨⟨hrcpt ▸ h.keyed.upsert rfl fun r _ => key_advanceReceipt r,
    by rw [hagg, hstat, hstand], fun n hn => ?_⟩,
    recipientsOf_congr hrow hrow' (hdb ▸ hdels), fun r hr => ?_, hle, ?_⟩
  · rw [hnotices] at hn
    obtain hn | hn := mem_append.mp hn
    · exact (h.told n hn).trans hle
    · split_ifs at hn
      · cases hn
      · rw [mem_singleton.mp hn, hagg]
  · exact hrcpt ▸ exists_receipt hr
  · rw [hnotices, hagg, hrow, h.status]
    rfl

theorem Recorded.step (h : Recorded m b) (hstep : (receiving m).step b r = some b') :
    Recorded m b' ∧ Advanced m b b' := by
  cases hstep
  cases hok : transaction (Backend.recordReceipt r.moment r.recipient r.conversation m r.device
      r.status) b with
  | mk result b' =>
    cases result with
    | ok u => exact h.recordReceipt hok
    | error refusal =>
      rw [transaction_eq_error hok]
      exact ⟨h, rfl, fun r hr => ⟨r, hr, rfl, id⟩, le_rfl, by simp⟩

theorem recorded_of_reachable (h : (receiving m).Reachable b) : Recorded m b := by
  refine h.invariant (fun b hinit => ?_) fun b r b' hb hstep => (hb.step hstep).1
  obtain ⟨hkd, hn, hsent, hnotices⟩ := hinit
  have hrcv (read) : b.received m read = false := by
    by_contra hyes
    simp only [received, Bool.not_eq_false, Bool.and_eq_true, List.all_eq_true,
      Bool.not_eq_true', isEmpty_eq_false_iff] at hyes
    obtain ⟨a, ha⟩ := exists_mem_of_ne_nil _ hyes.1
    obtain ⟨r, hr, hp⟩ := List.any_eq_true.mp (hyes.2 a ha)
    exact hn r hr (by simp_all)
  exact ⟨hkd, by simp [hsent, standing, hrcv], by simp [hnotices]⟩

/-- Whatever receipts arrive, and in whatever order: a device never goes back, the status of the
message is the least among its first recipients, it never goes back either, and the sender is
told once of every change. -/
theorem receipts_only_advance (h : (receiving m).Reachable b)
    (hstep : (receiving m).step b r = some b') :
    Keyed Receipt.key b.receipts ∧ Advanced m b b' ∧ (b.recipientsOf m ≠ [] →
      (∃ a ∈ b.recipientsOf m, best b m a = (b.aggregates m).status) ∧
      ∀ a ∈ b.recipientsOf m, rank (b.aggregates m).status ≤ rank (best b m a)) := by
  have hrecorded := recorded_of_reachable h
  refine ⟨hrecorded.keyed, (hrecorded.step hstep).2, fun hne => ?_⟩
  rw [hrecorded.status]
  exact standing_least hne

def bea : ActorRef := ⟨.carbon, "bea"⟩

def bot : ActorRef := ⟨.silicon, "bot"⟩

def sentToTwo : Backend :=
  { Backend.empty with
    db := { directDatabase with
      participants := directDatabase.participants ++ [⟨1, bea, 0⟩]
      messages := [⟨3, 1, ⟨.carbon, "ada"⟩, 1⟩]
      deliveries := [newDelivery bea (.message 3 1) 1 1, newDelivery bot (.message 3 1) 1 1] } }

def answer (recipient : ActorRef) (device : String) (status : ReceiptStatus) : Call :=
  ⟨⟨5, 0, 0, 0⟩, recipient, 1, device, status⟩

/-- The bot has read the message on one of its devices and Bea has it: it is delivered. When a
second device of Bea has read it, it is read. -/
theorem receipts_only_advance_two : ∃ b b', (receiving 3).Reachable b ∧
    (receiving 3).step b (answer bea "desk" .read) = some b' ∧
    best b 3 bot = .read ∧ best b 3 bea = .delivered ∧ (b.aggregates 3).status = .delivered ∧
    (b'.aggregates 3).status = .read ∧ Advanced 3 b b' ∧
    ∀ a ∈ b.recipientsOf 3, rank (b.aggregates 3).status ≤ rank (best b 3 a) := by
  have hinit : (receiving 3).init sentToTwo :=
    ⟨nodup_nil, by simp [sentToTwo, Backend.empty], rfl, rfl⟩
  have h := System.reachable_get (M := receiving 3)
    [answer bot "lab" .read, answer bot "field" .delivered, answer bea "phone" .delivered]
    hinit rfl
  have hadvance := receipts_only_advance (r := answer bea "desk" .read) h rfl
  exact ⟨_, _, h, rfl, by decide +kernel, by decide +kernel, by decide +kernel,
    by decide +kernel, hadvance.2.1, (hadvance.2.2 (by decide +kernel)).2⟩

end SiliconDm.Server.Receipts
