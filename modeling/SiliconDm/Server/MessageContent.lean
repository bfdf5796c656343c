import SiliconDm.Server.Ting

/-!
# The content of a message

What a client may put into a message: text, attachments, a voice recording, a GIF, caller-owned
metadata, a reply and the addresses it is routed by; and what is checked of it before anything
is stored.

Sources: `src/domain/message.rs:14–140,279–316,469–554`, `src/domain/mod.rs:31–39`,
`src/domain/actor.rs:108–155,186–199`.
-/

namespace SiliconDm.Server.Content

open Link (trim)
open Backend (isControl)

/-! ### Addresses -/

/-- An identifier: trimmed, 1 to 255 bytes, no control character. -/
structure ActorId where
  value : String
  nonempty : value ≠ ""
  short : value.utf8ByteSize ≤ 255
  visible : value.toList.any isControl = false
  deriving DecidableEq

/-- `ActorId::try_from`. `actor.rs:186–199`. -/
def ActorId.tryFrom (value : String) : Option ActorId :=
  let normalized := String.ofList (trim value.toList)
  if h : normalized ≠ "" ∧ normalized.utf8ByteSize ≤ 255 ∧
      normalized.toList.any isControl = false then
    some ⟨normalized, h.1, h.2.1, h.2.2⟩
  else none

/-- `address_parts` with its errors. -/
def ActorId.addressParts (id : ActorId) : Except String (String × Option String) :=
  match Ting.addressParts id.value with
  | some parts => .ok parts
  | none =>
    .error (if (Selector.splitOnce '@' id.value.toList).any fun parts =>
          Ting.badPrefix parts.1 parts.2 then
        "silicon address must be ISI@si:handle with a non-empty ISI"
      else "actor ID must be c:handle or si:handle")

/-- `addresses`: the account is the actor's, and only a Silicon has an ISI. -/
def ActorId.addresses (id : ActorId) (actor : ActorRef) : Bool :=
  (Ting.addressParts id.value).any fun parts =>
    parts.1 = actor.id && (parts.2.isNone || actor.actorType = .silicon)

/-! ### URLs -/

/-- The host of a URL with its port, and the credentials before it. -/
structure Authority where
  username : String
  password : Option String
  host : String
  deriving DecidableEq

def Authority.text (a : Authority) : String :=
  (if a.username = "" ∧ a.password = none then ""
    else a.username ++ a.password.elim "" (":" ++ ·) ++ "@") ++ a.host

def urlText (scheme : String) (authority : Option Authority) (rest : String) : String :=
  scheme ++ ":" ++ authority.elim "" (fun a => "//" ++ a.text) ++ rest

/-- A URL as the crate `url` parses it: every other character than a printable one of ASCII is
percent-encoded, and a URL with the scheme `https` has a host and a path. -/
structure Url where
  scheme : String
  authority : Option Authority
  rest : String
  printable : ∀ c ∈ (urlText scheme authority rest).toList, 0x21 ≤ c.toNat ∧ c.toNat ≤ 0x7e
  hosted : scheme = "https" → authority.any (fun a => a.host ≠ "") = true
  separated : ∀ a ∈ authority, ∀ c ∈ a.host.toList, c ∉ ['/', '?', '#', '@']
  rooted : scheme = "https" → rest.toList.head? = some '/'
  deriving DecidableEq

/-- `Url::as_str`. -/
def Url.asStr (u : Url) : String :=
  urlText u.scheme u.authority u.rest

/-! ### Content -/

structure Attachment where
  permanentUrl : Url
  name : Option String
  contentType : Option String
  size : Option Nat
  deriving DecidableEq

structure VoiceAttachment where
  permanentUrl : Url
  name : Option String
  contentType : Option String
  size : Option Nat
  durationMilliseconds : Option Nat
  deriving DecidableEq

structure Gif where
  providerId : String
  url : Url
  previewUrl : Option Url
  title : Option String
  deriving DecidableEq

/-- `serde_json::Value`. -/
inductive Value where
  | null
  | bool (b : Bool)
  | number (text : String)
  | string (s : String)
  | array (items : List Value)
  | object (fields : List (String × Value))

mutual

def Value.strings : Value → List String
  | .null => []
  | .bool _ => []
  | .number _ => []
  | .string s => [s]
  | .array items => itemStrings items
  | .object fields => fieldStrings fields
termination_by structural v => v

def itemStrings : List Value → List String
  | [] => []
  | item :: items => item.strings ++ itemStrings items
termination_by structural items => items

def fieldStrings : List (String × Value) → List String
  | [] => []
  | field :: fields => entryStrings field ++ fieldStrings fields
termination_by structural fields => fields

def entryStrings : String × Value → List String
  | (key, value) => key :: value.strings
termination_by structural entry => entry

end

/-- `MessageCreate`. A message that is replied to is named by its key. -/
structure MessageCreate where
  metadata : List (String × Value)
  replyToMessageId : Option Nat
  senderId : Option ActorId
  recipientId : Option ActorId
  text : Option String
  attachments : List Attachment
  voice : Option VoiceAttachment
  voiceTranscript : Option String
  gif : Option Gif

/-- `MessageCreate::default`. -/
def MessageCreate.empty : MessageCreate :=
  ⟨[], none, none, none, none, [], none, none, none⟩

/-! ### Validation -/

def maxTextCharacters : Nat := 100000000
def maxAttachmentBytes : Nat := 5 * 1024 * 1024 * 1024
def maxAttachments : Nat := 100
def maxVoiceDurationMilliseconds : Nat := 48 * 60 * 60 * 1000

/-- `if … { return Err(…) }`. -/
def refuseIf (p : Bool) (message : String) : Except String Unit :=
  if p then .error message else .ok ()

/-- `message.rs:500–526`. -/
def validateAttachmentMetadata (url : Url) (name contentType : Option String)
    (size : Option Nat) : Except String Unit := do
  refuseIf (size.any (maxAttachmentBytes < ·)) "an attachment may not exceed 5 GiB"
  refuseIf (url.scheme ≠ "https" || url.authority.isNone ||
      url.authority.any (fun a => a.username ≠ "" || a.password.isSome) ||
      8192 < url.asStr.utf8ByteSize)
    "attachments require a credential-free HTTPS permanent URL of at most 8,192 bytes"
  refuseIf (name.any fun n => n.isEmpty || 1024 < n.length)
    "attachment name must contain 1 to 1,024 characters"
  refuseIf (contentType.any fun t => t.isEmpty || 255 < t.utf8ByteSize)
    "attachment content_type must contain 1 to 255 bytes"

def Attachment.validate (a : Attachment) : Except String Unit :=
  validateAttachmentMetadata a.permanentUrl a.name a.contentType a.size

def VoiceAttachment.validate (v : VoiceAttachment) : Except String Unit := do
  validateAttachmentMetadata v.permanentUrl v.name v.contentType v.size
  refuseIf (!v.durationMilliseconds.any fun d => 1 ≤ d && d ≤ maxVoiceDurationMilliseconds)
    "voice duration must contain 1 millisecond to 48 hours"

/-- `message.rs:469–498`. -/
def validateAttachments (attachments : List Attachment) (voice : Option VoiceAttachment) :
    Except String Unit := do
  refuseIf (maxAttachments < attachments.length + (if voice.isSome then 1 else 0))
    "a message or draft may contain at most 100 attachment items including voice"
  attachments.forM Attachment.validate
  voice.toList.forM VoiceAttachment.validate

/-- `message.rs:528–554`. -/
def Gif.validate (g : Gif) : Except String Unit := do
  refuseIf (trim g.providerId.toList = [] || 255 < g.providerId.utf8ByteSize)
    "GIF provider_id must contain 1 to 255 bytes"
  refuseIf (g.url.scheme ≠ "https" || 8192 < g.url.asStr.utf8ByteSize)
    "GIF URL must be HTTPS and at most 8,192 bytes"
  refuseIf (g.previewUrl.any fun u => u.scheme ≠ "https" || 8192 < u.asStr.utf8ByteSize)
    "GIF preview URL must be HTTPS and at most 8,192 bytes"
  refuseIf (g.title.any (1000 < ·.length)) "GIF title may not exceed 1,000 characters"

/-- `MessageCreate::validate`. `message.rs:279–316`. -/
def MessageCreate.validate (m : MessageCreate) : Except String Unit := do
  [m.senderId, m.recipientId].reduceOption.forM fun address =>
    address.addressParts.map fun _ => ()
  refuseIf (m.text = some "" && m.attachments.isEmpty && m.voice.isNone && m.gif.isNone)
    "message text must contain at least one character"
  refuseIf (!(m.text.isSome || !m.attachments.isEmpty || m.voice.isSome || m.gif.isSome))
    "a message must contain text, an attachment, voice, or a GIF"
  refuseIf (m.text.any (maxTextCharacters < ·.length))
    "message text exceeds 100,000,000 characters"
  refuseIf (m.voice.isNone && m.attachments.isEmpty && m.voiceTranscript.isSome)
    "voice_transcript requires a voice attachment"
  refuseIf (m.voiceTranscript.any (maxTextCharacters < ·.length))
    "voice transcript exceeds 100,000,000 characters"
  validateAttachments m.attachments m.voice
  m.gif.toList.forM Gif.validate

example : MessageCreate.empty.validate =
    .error "a message must contain text, an attachment, voice, or a GIF" := by decide +kernel

example : { MessageCreate.empty with text := some "" }.validate =
    .error "message text must contain at least one character" := by decide +kernel

end SiliconDm.Server.Content
