import SiliconDm.Server.Addresses
import SiliconDm.Server.FirstContact
import SiliconDm.Server.Sending

/-!
# The routes that send

`POST /conversations/{conversation_id}/messages` and `POST /messages` from the text of the
address on: how it is resolved (a direct conversation is created on first contact), and what is
checked of the headers, the body and the content after that.

Sources: `src/api/extract.rs:112–153,219–233,302–345,439–464`, `src/api/access.rs:24–159,228–233`,
`src/api/handlers.rs:198–237,452–524`, `src/application/accounts.rs:254–333`,
`src/domain/idempotency.rs:26–35`. The lookups of a request are taken as recorded before it, so
that `accounts` has a row for everyone it names.
-/

namespace SiliconDm.Server.Routes

open Base Backend Content Sending
open Link (trim isAccountUuid)

/-! ### Names -/

/-- What texts name: the account that holds an id now, from the cache or from Silicon Accounts;
the uuid that a text is, and the text of a conversation's uuid; groups by their public id; and
conversations by the address that is stored for them. -/
structure Names where
  holder : String → Option String
  parseUuid : String → Option Nat
  uuidText : Nat → String
  group : String → Option Nat
  storedAddress : String → Option Nat
  parse_uuidText : ∀ n, parseUuid (uuidText n) = some n

variable (names : Names)

/-- `Directory::resolve`. `application/accounts.rs:260–289`. -/
def resolve (accounts : List Account) (selector : String) : Except Refusal Account :=
  match Selector.parse selector with
  | .error refusal => .error refusal
  | .ok (.uuid uuid) => Backend.resolve accounts uuid
  | .ok (.id id) =>
    match (names.holder id).bind (account accounts) with
    | none => .error (.accountNotFound id)
    | some row => if row.status = .deleted then .error (.accountDeleted id) else .ok row

variable {names} in
/-- What is resolved is the row of an account that is not deleted. -/
theorem account_of_resolve {accounts : List Account} {selector : String} {row : Account}
    (h : resolve names accounts selector = .ok row) :
    account accounts row.uuid = some row ∧ row.status ≠ .deleted := by
  have hrow : ∀ {uuid}, account accounts uuid = some row → account accounts row.uuid = some row := by
    intro uuid hget
    rw [(mem_of_getRow_eq_some hget).2, hget]
  unfold resolve at h
  split at h
  case h_1 => cases h
  case h_2 =>
    obtain ⟨hget, hlive⟩ := resolve_eq_ok.mp h
    exact ⟨hrow hget, hlive⟩
  case h_3 =>
    split at h
    case h_1 => cases h
    case h_2 found hfound =>
      split_ifs at h with hlive
      obtain rfl := Except.ok.inj h
      obtain ⟨uuid, -, hget⟩ := Option.bind_eq_some_iff.mp hfound
      exact ⟨hrow hget, hlive⟩

/-- `value.starts_with("g:") || value.contains("::")`. -/
def isAddress (value : String) : Bool :=
  "g:".toList.isPrefixOf value.toList || Selector.doubled ':' value.toList

/-- `names_one_account`. `access.rs:230–233`. -/
def namesOneAccount (value : String) : Bool :=
  !isAddress value && (value.toList.contains ':' || isAccountUuid value)

/-- Whether an address may still be one that is stored as it is. `access.rs:110–115`. -/
def mayBeStored (refusal : Refusal) : Bool :=
  refusal.code ∈ ["account_not_found", "account_deleted", "validation_error"]

/-- `value.split("::")` into two parts that are not empty. -/
def directParts (value : List Char) : Option (List Char × List Char) :=
  let rec go (before : List Char) : List Char → Option (List Char × List Char)
    | ':' :: ':' :: rest => some (before.reverse, rest)
    | c :: rest => go (c :: before) rest
    | [] => none
  (go [] value).filter fun parts =>
    parts.1 ≠ [] && parts.2 ≠ [] && !Selector.doubled ':' parts.2

/-- `resolve_address`, up to the conversation of two accounts. `access.rs:84–132`. -/
def resolveAddress (value : String) (b : Backend) : Except Refusal Target :=
  if let some c := names.parseUuid value then .ok (.conversation c)
  else if "g:".toList.isPrefixOf value.toList then
    if Selector.validGroupId value.toList then
      match names.group value with
      | some c => .ok (.conversation c)
      | none => .error .notFound
    else .error (.validation ("expected a group id such as g:product-design (groups from before " ++
      "contract 4 keep a three-part id such as g:tos:product-design)"))
  else
    match directParts value.toList with
    | none => .error (.validation ("a direct address is two account ids joined by ::, for " ++
        "example c:ada::si:scout"))
    | some (first, second) =>
      let stored (refusal : Refusal) : Except Refusal Target :=
        if mayBeStored refusal then
          match names.storedAddress value with
          | some c => .ok (.conversation c)
          | none => .error .notFound
        else .error refusal
      match resolve names b.db.accounts (String.ofList first) with
      | .error refusal => stored refusal
      | .ok x =>
        match resolve names b.db.accounts (String.ofList second) with
        | .error refusal => stored refusal
        | .ok y => .ok (.accounts x.uuid y.uuid)

/-- What a path segment names. `access.rs:24–48`. -/
def pathTarget (actor : ActorRef) (value : String) (b : Backend) : Except Refusal Target :=
  match (names.parseUuid value).filter fun c => (b.db.conversationAccess actor c).isSome with
  | some c => .ok (.conversation c)
  | none =>
    if isAddress value then resolveAddress names value b
    else (resolve names b.db.accounts value).map fun account => .recipient account.uuid

/-! ### Requests -/

/-- The values of the header `Idempotency-Key`. `extract.rs:219–233,439–464`. -/
def idempotencyKey (headers : List String) : Except Refusal String :=
  match headers with
  | [] => .error (.validation "required header idempotency-key is missing")
  | _ :: _ :: _ => .error (.validation "header idempotency-key must be supplied at most once")
  | [value] =>
    if !value.toList.all fun c => c = '\t' || (0x20 ≤ c.toNat && c.toNat ≤ 0x7e) then
      .error (.validation "header idempotency-key is invalid")
    else if 8 ≤ value.utf8ByteSize && value.utf8ByteSize ≤ 255 &&
        value.toList.all fun c => 0x21 ≤ c.toNat && c.toNat ≤ 0x7e then .ok value
    else .error (.validation "idempotency key must contain 8 to 255 visible ASCII characters")

/-- `storage_address`. `handlers.rs:520–524`. -/
def storageAddress (uuid : String) (isi : Option String) : Except Refusal ActorId :=
  match ActorId.tryFrom (isi.elim uuid (· ++ "@" ++ uuid)) with
  | some address => .ok address
  | none => .error (.validation "invalid routing address")

/-- The account and the ISI that a routing address names. -/
def routedTo (accounts : List Account) (address : ActorId) :
    Except Refusal (Account × Option String) :=
  match address.addressParts with
  | .error message => .error (.validation message)
  | .ok (base, isi) => (resolve names accounts base).map fun account => (account, isi)

/-- The sender address of a message names its sender. `handlers.rs:494–506`. -/
def resolveSender (accounts : List Account) (actor : ActorRef) (address : ActorId) :
    Except Refusal ActorId := do
  let (account, isi) ← routedTo names accounts address
  require (account.uuid = actor.id) (.forbidden "sender_mismatch" ("sender_id " ++ address.value ++
    " is not you; a message is always sent as the signed-in account (sender_id may only add an " ++
    "ISI, such as deliberate@si:you)."))
  storageAddress account.uuid isi

/-- An ISI names a Silicon. `handlers.rs:507–516`. -/
def resolveRecipient (accounts : List Account) (address : ActorId) : Except Refusal ActorId := do
  let (account, isi) ← routedTo names accounts address
  require (isi.isNone || account.kind = .silicon)
    (.validation "an ISI address (isi@si:handle) can only name a Silicon")
  storageAddress account.uuid isi

/-- `resolve_routing`. `handlers.rs:489–518`. -/
def resolveRouting (actor : ActorRef) (m : MessageCreate) (b : Backend) :
    Except Refusal MessageCreate := do
  let senderId ← m.senderId.mapM (resolveSender names b.db.accounts actor)
  let recipientId ← m.recipientId.mapM (resolveRecipient names b.db.accounts)
  .ok { m with senderId, recipientId }

def onStore {α : Type} (x : Serve α) : Handler Refusal Sending.Store α :=
  onService (Addresses.onBackend x)

section Requests

variable (d : Deployment) (e : Moment) (wire : Wire) (actor : ActorRef)

/-- `send`. `handlers.rs:216–237`. -/
def send (c : Nat) (key : String) (m : MessageCreate) : Handler Refusal Sending.Store Rendered := do
  onStore (Handler.read (requireCurrent c))
  let m ← onStore (Handler.read (resolveRouting names actor m))
  Handler.read fun _ => requireContent actor m
  Sending.sendMessage d e wire actor c m key

/-- The body of a request, read once its conversation is known: a reply names a message of it. -/
abbrev Reading (α : Type) : Type :=
  Nat → Backend → Except Refusal α

/-- Only who takes part sends. `handlers.rs:466–471`. -/
def requireSender (access : ConversationAccess) : Except Refusal Unit :=
  require (access = .participant) (.forbidden "custodian_read_only"
    "You can read this conversation as a custodian but only its participants send to it.")

/-- The recipient stays in the message where it names one account. `handlers.rs:476–483`. -/
def routedBody (recipient : String) (c : Nat) (m : MessageCreate) :
    Except Refusal MessageCreate :=
  if recipient = names.uuidText c || !namesOneAccount recipient then
    .ok { m with recipientId := none }
  else
    match ActorId.tryFrom recipient with
    | some address => .ok { m with recipientId := some address }
    | none => .error (.validation "invalid message content")

/-- The data of `POST /messages`: its `recipient_id`, if that is a text, and the content. -/
structure Envelope where
  recipient : Option String
  content : Reading MessageCreate

/-- `POST /messages` of a caller that was admitted. `handlers.rs:454–485`. -/
def sendToRecipient (headers : List String) (body : Except Refusal Envelope) :
    Handler Refusal Sending.Store Rendered := do
  let key ← Handler.read fun _ => idempotencyKey headers
  let input ← Handler.read fun _ => body
  let value ← Handler.read fun _ =>
    match input.recipient with
    | some value => .ok value
    | none => .error (.validation "recipient_id is required")
  let target ← onStore (Handler.read (pathTarget names actor value))
  let c ← onStore (targetConversation d e actor target true)
  let access ← onStore (Handler.read (access actor c))
  Handler.read fun _ => requireSender access
  let m ← onStore (Handler.read (input.content c))
  let m ← Handler.read fun _ => routedBody names value c m
  send names d e wire actor c key m

end Requests

/-! ### On the store -/

section OnStore

variable {s : Sending.Store}

theorem onStore_eq {α : Type} (x : Serve α) (s : Sending.Store) :
    onStore x s = ((x s.service.backend).1, s.withBackend (x s.service.backend).2) := rfl

theorem onStore_read {α : Type} {x : Backend → Except Refusal α} {a : α}
    (h : x s.service.backend = .ok a) : onStore (Handler.read x) s = (.ok a, s) := by
  rw [onStore_eq, Handler.read, h]
  rfl

theorem onStore_bind_eq_ok {α β : Type} {x : Serve α} {f : α → Handler Refusal Sending.Store β}
    {y : β} {s' : Sending.Store} :
    (onStore x >>= f) s = (.ok y, s') ↔
      ∃ a b, x s.service.backend = (.ok a, b) ∧ f a (s.withBackend b) = (.ok y, s') := by
  constructor
  · intro h
    obtain ⟨a, s₁, hx, h⟩ := Handler.bind_eq_ok.mp h
    rw [onStore_eq] at hx
    obtain ⟨ha, rfl⟩ := Prod.mk.inj hx
    exact ⟨a, _, Prod.ext ha rfl, h⟩
  · rintro ⟨a, b, hx, h⟩
    refine Handler.bind_eq_ok.mpr ⟨a, s.withBackend b, ?_, h⟩
    rw [onStore_eq, hx]

theorem onStore_read_bind_eq_ok {α β : Type} {x : Backend → Except Refusal α}
    {f : α → Handler Refusal Sending.Store β} {y : β} {s' : Sending.Store} :
    (onStore (Handler.read x) >>= f) s = (.ok y, s') ↔
      ∃ a, x s.service.backend = .ok a ∧ f a s = (.ok y, s') := by
  rw [onStore_bind_eq_ok]
  constructor
  · rintro ⟨a, b, hx, h⟩
    obtain rfl : s.service.backend = b := congrArg Prod.snd hx
    exact ⟨a, congrArg Prod.fst hx, h⟩
  · rintro ⟨a, hx, h⟩
    exact ⟨a, _, Prod.ext hx rfl, h⟩

end OnStore

/-! ### First contact -/

section FirstContact

variable {d : Deployment} {e : Moment} {actor : ActorRef} {row : Account} {b : Backend}

def recipientKey (d : Deployment) (actor : ActorRef) (row : Account) : Idempotency.Key :=
  ⟨actor, "conversations.create",
    "recipient-chat:" ++ toString (d.requestHash (.participants [row.actor, actor]))⟩

/-- With an account that may be reached, a conversation is started under a new key. -/
theorem startConversation_fresh (hne : row.uuid ≠ actor.id)
    (hn : b.canonicalDirect [actor, row.actor] = none)
    (hreach : requireFirstContact e actor [row] b = .ok ())
    (hrec : ∀ record ∈ b.records, record.key ≠ recipientKey d actor row)
    (hfr : b.db.conversation e.conversationId = none) :
    ∃ records, (∀ record ∈ records, record ∈ b.records ∨ record.key = recipientKey d actor row) ∧
      createConversation d e actor [row.actor, actor] (recipientKey d actor row).idempotencyKey
          ⟨b, [], []⟩ = .ok (e.conversationId,
            ⟨{ insertDirect e actor [row.actor, actor] b with records }, [], []⟩) ∧
      startConversation d e actor [row] none b = (do
        let _ ← Handler.read (getConversation actor e.conversationId)
        pure e.conversationId : Serve Nat)
          { insertDirect e actor [row.actor, actor] b with records } := by
  have hdedup : [row.actor, actor].dedup = [row.actor, actor] := by
    refine List.Nodup.dedup ?_
    have hne' : row.actor ≠ actor := fun heq => hne (congrArg ActorRef.id heq)
    simpa using hne'
  have hn' : b.canonicalDirect [row.actor, actor] = none :=
    (canonicalDirect_congr fun p => by simp [or_comm]).trans hn
  have htwo : [row.actor, actor].dedup.length = 2 := congrArg List.length hdedup
  obtain ⟨records, hcreated, hrecords⟩ := createConversation_fresh (d := d) (e := e) htwo.ge
    (htwo.le.trans (by decide)) hrec (by rw [hdedup]; exact hn') hfr
  rw [hdedup] at hcreated
  refine ⟨records, hrecords, hcreated, ?_⟩
  have hnone : (Handler.read fun b => .ok (b.canonicalDirect [row.actor, actor]) :
      Serve (Option Nat)) b = (.ok none, b) := Prod.ext (congrArg Except.ok hn') rfl
  refine (Handler.bind_of_ok hnone).trans ((Handler.read_bind_of_ok hreach).trans ?_)
  exact Handler.bind_of_ok (transaction_of_silent hcreated)

end FirstContact

/-! ### Names of Ada, Bea and Scout -/

/-- The ids of Ada, Bea and Scout. The uuid of a conversation is a text of as many letters. -/
def listed : Names where
  holder id := [("c:ada", "ada"), ("c:bea", "bea"), ("si:scout", "scout")].lookup id
  parseUuid text := if text.toList.all (· = 'u') then some text.toList.length else none
  uuidText n := String.ofList (List.replicate n 'u')
  group _ := none
  storedAddress _ := none
  parse_uuidText n := by simp

def composed (m : MessageCreate) : Reading MessageCreate :=
  fun _ _ => .ok m

end SiliconDm.Server.Routes
