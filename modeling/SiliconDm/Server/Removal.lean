import SiliconDm.Server.Revising

/-!
# Tombstones by custodians

"Tombstones a message: its sender, or the custodian of the Silicon that sent it." The handler
takes the right from the access to the conversation: whoever takes part in it revises as a
sender, and only who reads it as a custodian alone revises as the custodian of the sender. So a
custodian who takes part is refused, and nobody else is but for want of an address.

Sources: `src/api/extract.rs:141–159`, `src/api/handlers.rs:111–137`,
`src/infrastructure/postgres/conversations.rs:199–231`.
-/

namespace SiliconDm.Server.Removal

open Base Backend Addresses

/-! ### Requests -/

/-- The transaction of `revise_message` for a tombstone, with the trigger of its deliveries. -/
def tombstoneTransaction (d : Deployment) (e : Moment) (t : Texts) (p : Posting)
    (actor : ActorRef) (reviser : Reviser) (c m : Nat) (key : String) :
    Handler Refusal Addresses.Service Nat :=
  Revising.reviseTransaction d e t p actor reviser c m none key

/-- `DELETE …/messages/{message_id}`. -/
def deleteMessage (d : Deployment) (e : Moment) (t : Texts) (p : Posting) (actor : ActorRef)
    (path : ConversationPath) (m : Nat) (key : String) : Handler Refusal Addresses.Service Rendered := do
  let (c, a) ← onBackend (conversationPath d e actor path false true)
  onBackend (Handler.read (requireReviser actor (reviserOf a) c))
  let m ← tombstoneTransaction d e t p actor (reviserOf a) c m key
  onBackend (Handler.read (loadMessage m))

/-! ### The tombstone -/

variable {m : Nat}

theorem isSome_deletedHistory (d : Database) (m now : Nat) :
    (deletedHistory d m now).deletedAt.isSome = true := by
  unfold deletedHistory
  cases d.history m <;> rfl

def Unused (b : Backend) (actor : ActorRef) (key : String) : Prop :=
  ∀ row ∈ b.records, row.key ≠ ⟨actor, "messages.delete", key⟩

/-! ### Requests of a custodian -/

section Requests

variable {d : Deployment} {e : Moment} {t : Texts} {p : Posting} {actor : ActorRef}
  {reviser : Reviser} {key : String} {s : Addresses.Service} {row : Message}

theorem tombstoneTransaction_eq_ok (hr : s.backend.db.message m = some row)
    (hmay : mayRevise s.backend.db row actor reviser = true)
    (hn : (s.backend.db.history m).any (·.deletedAt.isSome) = false)
    (hk : Unused s.backend actor key)
    (haddr : (conversationAddress t s.backend row.conversation).isSome = true) :
    ∃ s', tombstoneTransaction d e t p actor reviser row.conversation m key s = (.ok m, s') ∧
      s'.backend.db.message m = some row ∧
      (s'.backend.db.history m).any (·.deletedAt.isSome) = true := by
  have hedits : reviser = .custodianOfSender → (none : Option String) = none := fun _ => rfl
  obtain ⟨s', hrevise, hmsg, hhistory⟩ := Revising.reviseTransaction_eq_ok (d := d) (e := e)
    (p := p) hr hmay hedits hn hk haddr
  refine ⟨s', hrevise, hmsg, ?_⟩
  rw [hhistory, Option.any_some]
  exact isSome_deletedHistory s.backend.db m e.now

/-- The access of whoever may read a conversation. -/
def readerAccess (d : Database) (actor : ActorRef) (c : Nat) : ConversationAccess :=
  if actor ∈ d.effectiveParticipants c then .participant else .custodian

/-- Whoever reads a conversation takes part in it or looks after someone who does. -/
theorem access_of_reader {db : Database} {c : Nat} (h : db.requireReader actor c = .ok ()) :
    db.conversationAccess actor c = some (readerAccess db actor c) ∧
      ∃ a, a ∈ db.effectiveParticipants c := by
  unfold Database.requireReader at h
  unfold readerAccess
  unfold Database.conversationAccess at h ⊢
  split_ifs at h ⊢ with hnone hself hcustodian hinvited
  · exact ⟨rfl, actor, hself⟩
  · obtain ⟨a, ha, -⟩ := List.any_eq_true.mp hcustodian
    exact ⟨rfl, a, ha⟩

/-- The stored custodian of a Silicon revises its messages as its access says. -/
theorem mayRevise_iff {db : Database} (hsender : row.sender.actorType = .silicon)
    (hcustodian : custodianOf db.accounts row.sender.id = some actor.id) {c : Nat} :
    mayRevise db row actor (reviserOf (readerAccess db actor c)) = true ↔
      (actor ∈ db.effectiveParticipants c → actor = row.sender) := by
  unfold readerAccess
  split_ifs with hself
  · simp [reviserOf, mayRevise, hself, eq_comm]
  · obtain ⟨a, ha, hc⟩ := Option.bind_eq_some_iff.mp hcustodian
    obtain ⟨hmem, huuid⟩ := mem_of_getRow_eq_some ha
    simp only [reviserOf, mayRevise, hsender, hself, false_imp_iff, iff_true, Bool.and_eq_true,
      decide_eq_true_eq, true_and]
    exact List.any_eq_true.mpr ⟨a, hmem, by simp [huuid, hc]⟩

/-- The custodian of a Silicon who reads a conversation removes the Silicon's messages from it
exactly if they do not take part in it (or are the Silicon itself) and the conversation has an
address. -/
theorem custodian_removes_messages (hrow : s.backend.db.message m = some row)
    (hsender : row.sender.actorType = .silicon)
    (hcustodian : custodianOf s.backend.db.accounts row.sender.id = some actor.id)
    (hread : s.backend.db.requireReader actor row.conversation = .ok ())
    (hnot : (s.backend.db.history m).any (·.deletedAt.isSome) = false)
    {path : ConversationPath}
    (hpath : targetConversation d e actor path.target false s.backend =
      (.ok row.conversation, s.backend))
    (hkey : Unused s.backend actor key) :
    (∃ s', deleteMessage d e t p actor path m key s = (.ok (.message m), s') ∧
      (s'.backend.db.history m).any (·.deletedAt.isSome) = true) ↔
    (actor ∈ s.backend.db.effectiveParticipants row.conversation → actor = row.sender) ∧
      (conversationAddress t s.backend row.conversation).isSome = true := by
  obtain ⟨haccess, a, ha⟩ := access_of_reader hread
  have hmay := mayRevise_iff hsender hcustodian (c := row.conversation)
  set access := readerAccess s.backend.db actor row.conversation with haccess_eq
  have hresolve : conversationPath d e actor path false true s.backend =
      (.ok (row.conversation, access), s.backend) := by
    refine Handler.bind_eq_ok.mpr ⟨row.conversation, s.backend, hpath, ?_⟩
    refine Handler.read_bind_eq_ok.mpr ⟨access, by simp [Backend.access, haccess], ?_⟩
    refine Handler.read_bind_eq_ok.mpr ⟨(), ?_, rfl⟩
    rw [haccess_eq, readerAccess]
    split_ifs <;> rfl
  have hreviser : Handler.read (requireReviser actor (reviserOf access) row.conversation)
      s.backend = (.ok (), s.backend) := by
    refine Handler.read_eq_ok.mpr ⟨?_, rfl⟩
    rw [haccess_eq, readerAccess]
    split_ifs with hself
    · simp [reviserOf, requireReviser, hself, require]
    · simp only [reviserOf, requireReviser, hread]
  have hrun : deleteMessage d e t p actor path m key s = (do
      let m ← tombstoneTransaction d e t p actor (reviserOf access) row.conversation m key
      onBackend (Handler.read (loadMessage m)) : Handler Refusal Addresses.Service Rendered) s := by
    unfold deleteMessage
    rw [Handler.bind_of_ok (onBackend_eq_ok hresolve)]
    exact Handler.bind_of_ok (onBackend_eq_ok hreviser)
  rw [hrun, ← hmay]
  constructor
  · rintro ⟨s', hdelete, -⟩
    obtain ⟨m', s₁, htransaction, -⟩ := Handler.bind_eq_ok.mp hdelete
    have hkey : Revising.Unrevised s.backend actor none key := hkey
    exact Revising.of_reviseTransaction hrow hnot hkey ha htransaction
  · rintro ⟨hmay, haddress⟩
    obtain ⟨s', htransaction, hmessage, hdeleted⟩ := tombstoneTransaction_eq_ok (d := d) (e := e)
      (p := p) hrow hmay hnot hkey haddress
    refine ⟨s', ?_, hdeleted⟩
    rw [Handler.bind_of_ok htransaction]
    apply onBackend_eq_ok
    refine Handler.read_eq_ok.mpr ⟨?_, rfl⟩
    simp [loadMessage, hmessage, require, bind, Except.bind]

end Requests

open FirstContact (neighbours plain)

def scout : ActorRef := ⟨.silicon, "scout"⟩

def bea : ActorRef := ⟨.carbon, "bea"⟩

/-- Scout started a conversation with another account and sent message 2 to it. -/
def told (other : String) : Addresses.Service where
  backend :=
    (execute plain ⟨1, 0, 2, 0⟩ ⟨scout, none, "device"⟩
      (.sendMessage ⟨"1", .conversation 1⟩ "hello" "send")
      (execute plain ⟨0, 1, 0, 0⟩ ⟨scout, none, "device"⟩ (.createConversation [other] "key")
        neighbours.backend).2).2
  handoffs := []

/-- Bea removes what Scout said to Ada, and not what Scout said to Bea. -/
theorem custodian_removes_messages_ada :
    (∃ s', deleteMessage plain ⟨2, 0, 0, 0⟩ ids unrouted bea ⟨"1", .conversation 1⟩ 2 "delete"
        (told "ada") = (.ok (.message 2), s') ∧
      (s'.backend.db.history 2).any (·.deletedAt.isSome) = true) ∧
    ¬ ∃ s', deleteMessage plain ⟨2, 0, 0, 0⟩ ids unrouted bea ⟨"1", .conversation 1⟩ 2 "delete"
        (told "bea") = (.ok (.message 2), s') ∧
      (s'.backend.db.history 2).any (·.deletedAt.isSome) = true := by
  have hada : (told "ada").backend.db.message 2 = some ⟨2, 1, scout, 1⟩ := by decide +kernel
  have hbea : (told "bea").backend.db.message 2 = some ⟨2, 1, scout, 1⟩ := by decide +kernel
  constructor
  · exact (custodian_removes_messages hada rfl (by decide +kernel) (by decide +kernel)
      (by decide +kernel) rfl (by unfold Unused; decide +kernel)).mpr (by decide +kernel)
  · rw [custodian_removes_messages hbea rfl (by decide +kernel) (by decide +kernel)
      (by decide +kernel) rfl (by unfold Unused; decide +kernel)]
    decide +kernel

/-- What Scout said to Bea, its custodian, Bea cannot remove. -/
theorem custodian_in_conversation_is_refused :
    (told "bea").backend.db.message 2 = some ⟨2, 1, scout, 1⟩ ∧
    custodianOf (told "bea").backend.db.accounts "scout" = some "bea" ∧
    (told "bea").backend.db.requireReader bea 1 = .ok () ∧
    (told "bea").backend.db.history 2 = none ∧
    (deleteMessage plain ⟨2, 0, 0, 0⟩ ids unrouted bea ⟨"1", .conversation 1⟩ 2 "delete"
        (told "bea")).1 =
      .error (.forbidden "not_message_sender" ("Only the message's sender can change it " ++
        "(and the custodian of a Silicon can tombstone that Silicon's messages).")) := by
  refine ⟨?_, ?_, ?_, ?_, ?_⟩ <;> decide +kernel

end SiliconDm.Server.Removal
