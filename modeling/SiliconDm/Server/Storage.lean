import Mathlib.Data.List.ReduceOption
import Mathlib.Data.String.Basic
import SiliconDm.Base.Fallible
import SiliconDm.Server.Addresses
import SiliconDm.Server.MessageContent

/-!
# The rows of a message's content

The columns of `messages`, `message_attachments`, `message_gifs` and `recent_gifs` that a send
fills, with the checks of these tables and what PostgreSQL can encode. A text or a `jsonb` holds
every string without U+0000.

Sources: `src/infrastructure/postgres/messages.rs:565–718,768–856`, `revisions.rs:201–203`,
`mod.rs:214–226`; `migrations/0002_messaging_and_auxiliary_state.sql:9–75,186–260,1148–1235`,
`0004_product_contract_alignment.sql:145–157`, `0005_message_metadata_and_replies.sql:2–9`,
`0015_message_isi_routing.sql:3–7`, `0023_direct_conversation_addresses.sql:21–75`,
`0025_message_history.sql:2–8`.
-/

namespace SiliconDm.Server.Content

open Base List Option
open Link (isWhitespace)
open Ting (length_le_utf8ByteSize one_le_length)

/-! ### Violations -/

/-- Why a statement is refused: `22021` or `22P05`, `23514`, and `23503`. -/
inductive Violation where
  | encoding
  | check (constraint : String)
  | foreignKey (constraint : String)
  deriving DecidableEq, Repr

/-- `map_constraint_error`. `mod.rs:214–226`. -/
def mapConstraintError : Violation → Refusal
  | .encoding => .internal
  | .check _ => Addresses.invariantRefusal
  | .foreignKey _ => .notFound

/-- A text that PostgreSQL can store. -/
def storable (text : String) : Bool :=
  !text.toList.contains '\x00'

/-- A statement that binds these texts and whose row has these checks. -/
def accepts (texts : List String) (checks : List (String × Bool)) : Except Violation Unit :=
  if texts.all storable then
    match checks.find? (!·.2) with
    | some check => .error (.check check.1)
    | none => .ok ()
  else .error .encoding

/-! ### Rows -/

/-- `char_length(…) BETWEEN … AND …`, which a null passes. -/
def between (low high : Nat) (text : Option String) : Bool :=
  text.all fun s => low ≤ s.length && s.length ≤ high

/-- `char_length(…) BETWEEN 9 AND 8192 AND … ~ '^https://[^[:space:]]+$'`. -/
def httpsUrl (url : String) : Bool :=
  9 ≤ url.length && url.length ≤ 8192 && "https://".toList.isPrefixOf url.toList &&
    (url.toList.drop 8).all fun c => !isWhitespace c

/-- `… ~ '^https://[^/?#]*@'`. -/
def hasUrlCredentials (url : String) : Bool :=
  "https://".toList.isPrefixOf url.toList &&
    ((url.toList.drop 8).takeWhile (· ∉ ['/', '?', '#'])).contains '@'

structure MessageRow where
  textContent : Option String
  voiceTranscript : Option String
  metadata : List (String × Value)
  replyToMessageId : Option Nat
  senderAddress : Option String
  recipientAddress : Option String

def MessageRow.texts (r : MessageRow) : List String :=
  [r.textContent, r.voiceTranscript, r.senderAddress, r.recipientAddress].reduceOption ++
    fieldStrings r.metadata

def MessageRow.checks (r : MessageRow) : List (String × Bool) :=
  [("messages_text_length", between 0 100000000 r.textContent),
    ("messages_transcript_length", between 0 100000000 r.voiceTranscript),
    ("message_sender_address_length", between 1 255 r.senderAddress),
    ("message_recipient_address_length", between 1 255 r.recipientAddress)]

inductive AttachmentKind where
  | attachment
  | voice
  deriving DecidableEq, Repr

structure AttachmentRow where
  position : Nat
  kind : AttachmentKind
  permanentUrl : String
  name : Option String
  contentType : Option String
  declaredSizeBytes : Option Nat
  durationMilliseconds : Option Nat
  deriving DecidableEq, Repr

def AttachmentRow.texts (r : AttachmentRow) : List String :=
  r.permanentUrl :: [r.name, r.contentType].reduceOption

def AttachmentRow.checks (r : AttachmentRow) : List (String × Bool) :=
  [("message_attachments_position",
      if r.kind = .attachment then r.position ≤ 99 else r.position = 100),
    ("message_attachments_https_url", httpsUrl r.permanentUrl),
    ("message_attachments_name_length", between 1 1024 r.name),
    ("message_attachments_content_type_length", between 1 255 r.contentType),
    ("message_attachments_size_limit", r.declaredSizeBytes.all (· ≤ 5368709120)),
    ("message_attachments_duration_contract",
      if r.kind = .attachment then r.durationMilliseconds.isNone
      else r.durationMilliseconds.all fun d => 1 ≤ d && d ≤ 172800000),
    ("message_attachments_no_url_credentials", !hasUrlCredentials r.permanentUrl)]

structure GifRow where
  providerId : String
  url : String
  previewUrl : Option String
  title : Option String
  deriving DecidableEq, Repr

def GifRow.texts (r : GifRow) : List String :=
  r.providerId :: r.url :: [r.previewUrl, r.title].reduceOption

/-- The checks of `message_gifs`, which `recent_gifs` has under its own name. -/
def GifRow.checks (table : String) (r : GifRow) : List (String × Bool) :=
  [(table ++ "_provider_id_length", between 1 255 (some r.providerId)),
    (table ++ "_url", httpsUrl r.url),
    (table ++ "_preview_url", r.previewUrl.all httpsUrl),
    (table ++ "_title_length", between 0 1000 r.title)]

structure RecentGif where
  carbon : String
  gif : GifRow
  lastMessage : Nat
  firstUsedAt : Nat
  lastUsedAt : Nat
  deriving DecidableEq, Repr

structure Rows where
  message : MessageRow
  attachments : List AttachmentRow
  gif : Option GifRow

/-! ### Statements -/

def sql (texts : List String) (checks : List (String × Bool)) : Except Refusal Unit :=
  (accepts texts checks).mapError mapConstraintError

/-- Only a sender address with an ISI is stored. `messages.rs:592–595`. -/
def MessageCreate.row (m : MessageCreate) : MessageRow where
  textContent := m.text
  voiceTranscript := m.voiceTranscript
  metadata := m.metadata
  replyToMessageId := m.replyToMessageId
  senderAddress := (m.senderId.filter fun id =>
    (Ting.addressParts id.value).any (·.2.isSome)).map (·.value)
  recipientAddress := m.recipientId.map (·.value)

/-- `INSERT INTO messages`, with the reply's foreign key. -/
def insertMessage (d : Database) (c : Nat) (m : MessageCreate) : Except Refusal MessageRow := do
  sql m.row.texts m.row.checks
  if m.replyToMessageId.all fun reply => (d.message reply).any (·.conversation = c) then
    .ok m.row
  else .error (mapConstraintError (.foreignKey "messages_reply_fk"))

/-- `insert_attachment_in`: `i16` and `i64` hold the position, the size and the duration. -/
def insertAttachment (row : AttachmentRow) : Except Refusal AttachmentRow := do
  Backend.require (row.position < 2 ^ 15)
    (.validation "attachment position exceeds supported range")
  Backend.require (row.declaredSizeBytes.all (· < 2 ^ 63))
    (.validation "attachment size exceeds supported range")
  Backend.require (row.durationMilliseconds.all (· < 2 ^ 63))
    (.validation "voice duration exceeds supported range")
  sql row.texts row.checks
  .ok row

def Attachment.row (position : Nat) (a : Attachment) : AttachmentRow :=
  ⟨position, .attachment, a.permanentUrl.asStr, a.name, a.contentType, a.size, none⟩

def VoiceAttachment.row (v : VoiceAttachment) : AttachmentRow :=
  ⟨100, .voice, v.permanentUrl.asStr, v.name, v.contentType, v.size, v.durationMilliseconds⟩

def MessageCreate.attachmentRows (m : MessageCreate) : List AttachmentRow :=
  m.attachments.zipIdx.map (fun p => p.1.row p.2) ++ m.voice.toList.map VoiceAttachment.row

def Gif.row (g : Gif) : GifRow :=
  ⟨g.providerId, g.url.asStr, g.previewUrl.map Url.asStr, g.title⟩

def insertGif (row : GifRow) : Except Refusal GifRow := do
  sql row.texts (row.checks "message_gifs")
  .ok row

/-- The row that `update_recent_gif_in` leaves. -/
def recentGif (now : Nat) (carbon : String) (message : Nat) (gif : GifRow)
    (recent : List RecentGif) : RecentGif :=
  let found := recent.find? fun r => r.carbon = carbon && r.gif.providerId = gif.providerId
  ⟨carbon, gif, message, (found.map (·.firstUsedAt)).getD now, now⟩

/-- `enforce_recent_gif_source_and_limit`: the twenty last used GIFs of a Carbon stay. -/
def keepRecent (carbon : String) (recent : List RecentGif) : List RecentGif :=
  let mine := recent.filter (·.carbon = carbon)
  let ordered := mine.insertionSort fun x y =>
    y.lastUsedAt < x.lastUsedAt ∨ (x.lastUsedAt = y.lastUsedAt ∧ y.gif.providerId ≤ x.gif.providerId)
  recent.filter fun r => r.carbon ≠ carbon || (ordered.take 20).any (·.gif.providerId = r.gif.providerId)

/-- `update_recent_gif_in`. `messages.rs:812–856`. -/
def updateRecentGif (now : Nat) (sender : ActorRef) (message : Nat) (gif : Option GifRow)
    (recent : List RecentGif) : Except Refusal (List RecentGif) :=
  match gif with
  | none => .ok recent
  | some gif =>
    if sender.actorType = .carbon then do
      let row := recentGif now sender.id message gif recent
      sql gif.texts (gif.checks "recent_gifs" ++
        [("recent_gifs_usage_order", decide (row.firstUsedAt ≤ row.lastUsedAt))])
      .ok (keepRecent sender.id (recent.filter (fun r =>
        !(r.carbon = sender.id && r.gif.providerId = gif.providerId)) ++ [row]))
    else .ok recent

/-- `assert_message_content`, at commit. `0023_direct_conversation_addresses.sql:21–75`. -/
def assertMessageContent (rows : Rows) : Except Violation Unit :=
  if 100 < rows.attachments.length then .error (.check "attachment_count")
  else if rows.message.textContent.getD "" = "" && rows.attachments.isEmpty && rows.gif.isNone then
    .error (.check "content")
  else if rows.attachments.isEmpty && rows.message.voiceTranscript.isSome then
    .error (.check "voice_transcript")
  else .ok ()

/-- The statements of a send about its content. `messages.rs:565–718,812–856`. -/
def insertContent (now : Nat) (sender : ActorRef) (c message : Nat) (m : MessageCreate)
    (d : Database) (recent : List RecentGif) : Except Refusal (Rows × List RecentGif) := do
  let row ← insertMessage d c m
  let attachments ← m.attachmentRows.mapM insertAttachment
  let gifs ← (m.gif.map Gif.row).toList.mapM insertGif
  let recent ← updateRecentGif now sender message gifs.head? recent
  let rows : Rows := ⟨row, attachments, gifs.head?⟩
  (assertMessageContent rows).mapError mapConstraintError
  .ok (rows, recent)

/-! ### What validation leaves to the tables -/

def MessageCreate.texts (m : MessageCreate) : List String :=
  [m.text, m.voiceTranscript].reduceOption ++ fieldStrings m.metadata ++
    m.attachments.flatMap (fun a => [a.name, a.contentType].reduceOption) ++
    m.voice.toList.flatMap (fun v => [v.name, v.contentType].reduceOption) ++
    m.gif.toList.flatMap fun g => g.providerId :: g.title.toList

def MessageCreate.Storable (m : MessageCreate) : Prop :=
  ∀ text ∈ m.texts, storable text = true

instance (m : MessageCreate) : Decidable m.Storable :=
  inferInstanceAs (Decidable (∀ text ∈ m.texts, storable text = true))

/-! #### Texts -/

variable {texts : List String} {checks : List (String × Bool)} {u url : Url}

theorem accepts_eq_ok : accepts texts checks = .ok () ↔
    (∀ text ∈ texts, storable text = true) ∧ ∀ check ∈ checks, check.2 = true := by
  have hfind : checks.find? (!·.2) = none ↔ ∀ check ∈ checks, check.2 = true := by
    rw [find?_eq_none]
    simp
  rw [← hfind, ← List.all_eq_true, accepts]
  constructor
  · intro h
    split at h
    case isFalse => cases h
    case isTrue htexts =>
      split at h
      case h_1 => cases h
      case h_2 hnone => exact ⟨htexts, hnone⟩
  · rintro ⟨htexts, hnone⟩
    rw [if_pos htexts, hnone]

/-- A statement passes if its texts can be encoded and its checks hold. -/
theorem sql_eq_ok : sql texts checks = .ok () ↔
    (∀ text ∈ texts, storable text = true) ∧ ∀ check ∈ checks, check.2 = true := by
  rw [← accepts_eq_ok, sql]
  cases accepts texts checks with
  | ok => simp [Except.mapError]
  | error => simp [Except.mapError]

/-! #### URLs -/

theorem Url.mem_asStr {c : Char} (h : c ∈ u.asStr.toList) :
    isWhitespace c = false ∧ c ≠ '\x00' := by
  obtain ⟨hlow, hhigh⟩ := u.printable c h
  constructor
  · simp only [isWhitespace, contains_eq_mem, mem_cons, not_mem_nil, or_false, Bool.or_eq_false_iff,
      Bool.and_eq_false_iff, decide_eq_false_iff_not]
    omega
  · rintro rfl
    exact absurd hlow (by decide)

theorem Url.storable (u : Url) : storable u.asStr = true := by
  simp only [Content.storable, Bool.not_eq_true', contains_eq_mem, decide_eq_false_iff_not]
  intro h
  exact (Url.mem_asStr h).2 rfl

/-- A URL with the scheme `https` starts as the tables want it. -/
theorem Url.toList_asStr (h : u.scheme = "https") :
    ∃ a, u.authority = some a ∧ a.host ≠ "" ∧
      u.asStr.toList = "https://".toList ++ (a.text.toList ++ u.rest.toList) := by
  obtain ⟨a, ha, hhost⟩ := (Option.any_eq_true _ _).mp (u.hosted h)
  refine ⟨a, ha, by simpa using hhost, ?_⟩
  rw [asStr, urlText, h, ha]
  simp only [elim_some, String.toList_append, append_assoc]
  rfl

theorem Url.httpsUrl_asStr (h : u.scheme = "https") (hsize : u.asStr.utf8ByteSize ≤ 8192) :
    httpsUrl u.asStr = true := by
  obtain ⟨a, -, hhost, htext⟩ := Url.toList_asStr h
  have hlong : 9 ≤ u.asStr.length := by
    have hone := one_le_length hhost
    rw [← String.length_toList] at hone
    have : 1 ≤ a.text.toList.length := by
      rw [Authority.text, String.toList_append, length_append]
      omega
    rw [← String.length_toList, htext, length_append, length_append]
    show 9 ≤ 8 + _
    omega
  have hshort := (length_le_utf8ByteSize u.asStr).trans hsize
  have hclean : ∀ c ∈ u.asStr.toList.drop 8, isWhitespace c = false :=
    fun c hc => (Url.mem_asStr (mem_of_mem_drop hc)).1
  have hsta : "https://".toList.isPrefixOf u.asStr.toList = true := by
    rw [htext, isPrefixOf_iff_prefix]
    exact prefix_append _ _
  simp only [httpsUrl, hlong, hshort, hsta, decide_true, Bool.true_and, List.all_eq_true]
  intro c hc
  rw [hclean c hc]
  rfl

/-- Without credentials there is no `@` before the path. -/
theorem Url.hasUrlCredentials_asStr (h : u.scheme = "https")
    (hn : u.authority.any (fun a => a.username ≠ "" || a.password.isSome) = false) :
    hasUrlCredentials u.asStr = false := by
  obtain ⟨a, ha, -, htext⟩ := Url.toList_asStr h
  have hplain : a.username = "" ∧ a.password = none := by
    rw [ha] at hn
    simpa using hn
  have hhost : a.text = a.host := by
    rw [Authority.text, if_pos hplain, String.empty_append]
  have hseparated : ∀ c ∈ a.host.toList, c ∉ ['/', '?', '#', '@'] := u.separated a ha
  have htake : (a.host.toList ++ u.rest.toList).takeWhile (· ∉ ['/', '?', '#']) =
      a.host.toList := by
    rw [takeWhile_append_of_pos]
    · obtain ⟨rest, hrest⟩ := head?_eq_some_iff.mp (u.rooted h)
      simp [hrest]
    · intro c hc
      have := hseparated c hc
      simp only [mem_cons, not_or] at this
      simp [this.1, this.2.1, this.2.2.1]
  rw [hasUrlCredentials, htext, hhost]
  show (_ && ((a.host.toList ++ u.rest.toList).takeWhile _).contains '@') = false
  rw [htake, Bool.and_eq_false_iff]
  refine .inr ?_
  rw [contains_eq_mem, decide_eq_false_iff_not]
  intro hat
  exact hseparated '@' hat (by decide)

/-! #### Rows -/

theorem refuseIf_eq_ok {p : Bool} {message : String} {u : Unit} :
    refuseIf p message = .ok u ↔ p = false := by
  cases p <;> simp [refuseIf]

theorem between_of_any {low high : Nat} {text : Option String}
    (h : ∀ s ∈ text, low ≤ s.length ∧ s.length ≤ high) : between low high text = true := by
  cases text with
  | none => rfl
  | some s => simpa [between] using h s rfl

/-- What the checks of an attachment and of a voice recording have in common. -/
structure ValidMetadata (url : Url) (name contentType : Option String) (size : Option Nat) :
    Prop where
  size : ∀ n ∈ size, n ≤ 5368709120
  https : httpsUrl url.asStr = true
  credentials : hasUrlCredentials url.asStr = false
  name : between 1 1024 name = true
  contentType : between 1 255 contentType = true

variable {name contentType : Option String} {position : Nat} {g : Gif}

theorem validMetadata {size : Option Nat} {u : Unit}
    (h : validateAttachmentMetadata url name contentType size = .ok u) :
    ValidMetadata url name contentType size := by
  unfold validateAttachmentMetadata at h
  simp only [bind_eq_ok, refuseIf_eq_ok, exists_and_left, exists_const, Bool.or_eq_false_iff,
    decide_eq_false_iff_not, not_not, not_lt] at h
  obtain ⟨hsize, ⟨⟨⟨hscheme, -⟩, hcredentials⟩, hlong⟩, hname, htype⟩ := h
  refine ⟨?_, Url.httpsUrl_asStr hscheme hlong, Url.hasUrlCredentials_asStr hscheme hcredentials,
    between_of_any ?_, between_of_any ?_⟩
  · rintro n rfl
    exact Nat.le_of_not_lt (of_decide_eq_false hsize)
  · rintro s rfl
    simp only [any_some, Bool.or_eq_false_iff, decide_eq_false_iff_not, not_lt] at hname
    refine ⟨one_le_length ?_, hname.2⟩
    rintro rfl
    exact absurd hname.1 (by decide)
  · rintro s rfl
    simp only [any_some, Bool.or_eq_false_iff, decide_eq_false_iff_not, not_lt] at htype
    refine ⟨one_le_length ?_, (length_le_utf8ByteSize s).trans htype.2⟩
    rintro rfl
    exact absurd htype.1 (by decide)

theorem ValidMetadata.insertAttachment
    {size duration : Option Nat} {kind : AttachmentKind}
    (h : ValidMetadata url name contentType size)
    (htexts : ∀ text ∈ [name, contentType].reduceOption, Content.storable text = true)
    (hpos : if kind = .attachment then position ≤ 99 else position = 100)
    (hdur : if kind = .attachment then duration = none
      else ∀ d ∈ duration, 1 ≤ d ∧ d ≤ 172800000) :
    insertAttachment ⟨position, kind, url.asStr, name, contentType, size, duration⟩ =
      .ok ⟨position, kind, url.asStr, name, contentType, size, duration⟩ := by
  have hpos' : position < 2 ^ 15 := by
    split at hpos <;> omega
  have hsize : size.all (· ≤ 5368709120) = true := by
    simpa [Option.all_eq_true] using h.size
  have hsize' : size.all (· < 2 ^ 63) = true := by
    rw [Option.all_eq_true]
    intro n hn
    have := h.size n hn
    exact decide_eq_true (by omega)
  have hdur' : duration.all (· < 2 ^ 63) = true := by
    rw [Option.all_eq_true]
    intro d hd
    split at hdur
    · rw [hdur] at hd
      cases hd
    · have := (hdur d hd).2
      exact decide_eq_true (by omega)
  have hsql : sql (AttachmentRow.texts ⟨position, kind, url.asStr, name, contentType, size, duration⟩)
      (AttachmentRow.checks ⟨position, kind, url.asStr, name, contentType, size, duration⟩) =
      .ok () := by
    refine sql_eq_ok.mpr ⟨?_, ?_⟩
    · intro text hm
      rcases mem_cons.mp hm with rfl | hm
      · exact url.storable
      · exact htexts text hm
    · intro check hm
      simp only [AttachmentRow.checks, mem_cons, not_mem_nil, or_false] at hm
      rcases hm with rfl | rfl | rfl | rfl | rfl | rfl | rfl
      · simpa using hpos
      · exact h.https
      · exact h.name
      · exact h.contentType
      · exact hsize
      · simpa [Option.all_eq_true] using hdur
      · simp [h.credentials]
  unfold Content.insertAttachment
  rw [hsql]
  simp only [hpos', hsize', hdur', decide_true, Backend.require, if_true]
  rfl

theorem Attachment.insert {a : Attachment} (h : a.validate = .ok ())
    (htexts : ∀ text ∈ [a.name, a.contentType].reduceOption, storable text = true)
    (hpos : position ≤ 99) : insertAttachment (a.row position) = .ok (a.row position) :=
  (validMetadata h).insertAttachment htexts hpos rfl

theorem VoiceAttachment.insert {v : VoiceAttachment} (h : v.validate = .ok ())
    (htexts : ∀ text ∈ [v.name, v.contentType].reduceOption, storable text = true) :
    insertAttachment v.row = .ok v.row := by
  obtain ⟨_, hmetadata, hdur⟩ := bind_eq_ok.mp h
  refine (validMetadata hmetadata).insertAttachment htexts rfl ?_
  intro d hd
  rw [refuseIf_eq_ok, mem_def.mp hd, Bool.not_eq_false', any_some,
    Bool.and_eq_true] at hdur
  exact ⟨of_decide_eq_true hdur.1, of_decide_eq_true hdur.2⟩

theorem Gif.checks_row (h : g.validate = .ok ()) (table : String) :
    ∀ check ∈ g.row.checks table, check.2 = true := by
  unfold Gif.validate at h
  simp only [bind_eq_ok, refuseIf_eq_ok, exists_and_left, exists_const, Bool.or_eq_false_iff,
    decide_eq_false_iff_not, not_not, not_lt] at h
  obtain ⟨⟨hblank, hprovider⟩, ⟨hscheme, hlong⟩, hpreview, htitle⟩ := h
  have hnonempty : g.providerId ≠ "" := by
    intro h0
    rw [h0] at hblank
    exact hblank (by decide +kernel)
  intro check hm
  simp only [GifRow.checks, mem_cons, not_mem_nil, or_false] at hm
  rcases hm with rfl | rfl | rfl | rfl
  · show between 1 255 (some g.providerId) = true
    refine between_of_any ?_
    rintro s hs
    cases hs
    exact ⟨one_le_length hnonempty, (length_le_utf8ByteSize _).trans hprovider⟩
  · exact Url.httpsUrl_asStr hscheme hlong
  · show (g.previewUrl.map Url.asStr).all httpsUrl = true
    cases hurl : g.previewUrl with
    | none => rfl
    | some u =>
      simp only [hurl, any_some, Bool.or_eq_false_iff, decide_eq_false_iff_not, not_not,
        not_lt] at hpreview
      exact Url.httpsUrl_asStr hpreview.1 hpreview.2
  · show between 0 1000 g.title = true
    refine between_of_any ?_
    intro s hs
    rw [mem_def.mp hs] at htitle
    exact ⟨Nat.zero_le _, by simpa using htitle⟩

theorem Gif.texts_row (h : ∀ text ∈ g.providerId :: g.title.toList, storable text = true) :
    ∀ text ∈ g.row.texts, storable text = true := by
  intro text hm
  simp only [GifRow.texts, mem_cons, reduceOption_mem_iff, not_mem_nil,
    or_false] at hm
  rcases hm with rfl | rfl | hpreview | htitle
  · exact h _ mem_cons_self
  · exact g.url.storable
  · obtain ⟨u, -, rfl⟩ := map_eq_some_iff.mp hpreview.symm
    exact u.storable
  · exact h text (mem_cons_of_mem _ (mem_toList.mpr htitle.symm))

theorem ActorId.storable (id : ActorId) : storable id.value = true := by
  simp only [Content.storable, Bool.not_eq_true', contains_eq_mem, decide_eq_false_iff_not]
  intro hm
  have := List.any_eq_false.mp id.visible _ hm
  exact this (by decide)

theorem ActorId.between (id : ActorId) : between 1 255 (some id.value) = true := by
  refine between_of_any ?_
  intro s hs
  cases hs
  exact ⟨one_le_length id.nonempty, (length_le_utf8ByteSize _).trans id.short⟩

/-- The checks of `validate`, as far as the tables have them too. -/
structure Valid (m : MessageCreate) : Prop where
  content : ¬(m.text.getD "" = "" ∧ m.attachments = [] ∧ m.voice = none ∧ m.gif = none)
  text : ∀ s ∈ m.text, s.length ≤ 100000000
  transcribed : ¬(m.attachments = [] ∧ m.voice = none ∧ m.voiceTranscript.isSome)
  transcript : ∀ s ∈ m.voiceTranscript, s.length ≤ 100000000
  count : m.attachments.length + m.voice.toList.length ≤ 100
  attachments : ∀ a ∈ m.attachments, a.validate = .ok ()
  voice : ∀ v ∈ m.voice, v.validate = .ok ()
  gif : ∀ g ∈ m.gif, g.validate = .ok ()

theorem valid_of_validate {m : MessageCreate} (h : m.validate = .ok ()) : Valid m := by
  unfold MessageCreate.validate validateAttachments at h
  simp only [bind_eq_ok, refuseIf_eq_ok, exists_and_left, exists_const] at h
  obtain ⟨_, -, hempty, hcont, htext, htranscribed, htsc, _,
    ⟨hcount, _, hatt, hvoice⟩, hgif⟩ := h
  refine ⟨?_, ?_, ?_, ?_, ?_, forM_eq_ok.mp hatt, ?_, ?_⟩
  · rintro ⟨hblank, hn, hsi, hstill⟩
    cases hm : m.text with
    | none => simp [hm, hn, hsi, hstill] at hcont
    | some s =>
      have : s = "" := by simpa [hm] using hblank
      simp [hm, this, hn, hsi, hstill] at hempty
  · rintro s hs
    rw [mem_def.mp hs] at htext
    exact Nat.le_of_not_lt (of_decide_eq_false htext)
  · rintro ⟨hn, hsi, hsome⟩
    simp [hn, hsi, hsome] at htranscribed
  · rintro s hs
    rw [mem_def.mp hs] at htsc
    exact Nat.le_of_not_lt (of_decide_eq_false htsc)
  · have : _ ≤ 100 := Nat.le_of_not_lt (of_decide_eq_false hcount)
    cases hv : m.voice with
    | none | some v => simpa [hv] using this
  · intro v hv
    exact forM_eq_ok.mp hvoice v (mem_toList.mpr hv)
  · intro g hg
    exact forM_eq_ok.mp hgif g (mem_toList.mpr hg)

/-- The GIF is not known from a transaction that began later. -/
def UsedBefore (now : Nat) (sender : ActorRef) (m : MessageCreate) (recent : List RecentGif) :
    Prop :=
  ∀ g ∈ m.gif, sender.actorType = .carbon →
    ∀ r ∈ recent.find? fun r => r.carbon = sender.id && r.gif.providerId = g.providerId,
      r.firstUsedAt ≤ now

section Insert

variable {now c message : Nat} {sender : ActorRef} {m : MessageCreate} {d : Database}
  {recent : List RecentGif}

theorem MessageCreate.Storable.mem {text : String} (h : m.Storable) (hm : text ∈ m.texts) :
    storable text = true :=
  h text hm

theorem insertMessage_of_valid (hval : Valid m) (hstor : m.Storable)
    (hreply : ∀ reply ∈ m.replyToMessageId, (d.message reply).any (·.conversation = c) = true) :
    insertMessage d c m = .ok m.row := by
  have hsnd : ∀ s ∈ m.row.senderAddress, ∃ id : ActorId, s = id.value := by
    intro s hs
    obtain ⟨id, -, rfl⟩ := map_eq_some_iff.mp hs
    exact ⟨id, rfl⟩
  have hrcp : ∀ s ∈ m.row.recipientAddress, ∃ id : ActorId, s = id.value := by
    intro s hs
    obtain ⟨id, -, rfl⟩ := map_eq_some_iff.mp hs
    exact ⟨id, rfl⟩
  have haddr : ∀ address : Option String, (∀ s ∈ address, ∃ id : ActorId, s = id.value) →
      between 1 255 address = true := by
    intro address h
    cases address with
    | none => rfl
    | some s =>
      obtain ⟨id, rfl⟩ := h s rfl
      exact id.between
  have hsql : sql m.row.texts m.row.checks = .ok () := by
    refine sql_eq_ok.mpr ⟨?_, ?_⟩
    · intro text hm
      rcases mem_append.mp hm with hm | hm
      · simp only [reduceOption_mem_iff, mem_cons, not_mem_nil, or_false] at hm
        rcases hm with htext | htsc | hs | hr
        · exact hstor.mem (by simp [MessageCreate.texts, reduceOption_mem_iff, htext,
            MessageCreate.row])
        · exact hstor.mem (by simp [MessageCreate.texts, reduceOption_mem_iff,
            htsc, MessageCreate.row])
        · obtain ⟨id, rfl⟩ := hsnd text hs.symm
          exact id.storable
        · obtain ⟨id, rfl⟩ := hrcp text hr.symm
          exact id.storable
      · refine hstor.mem ?_
        have : text ∈ fieldStrings m.metadata := hm
        simp [MessageCreate.texts, this]
    · intro check hm
      simp only [MessageRow.checks, mem_cons, not_mem_nil, or_false] at hm
      rcases hm with rfl | rfl | rfl | rfl
      · exact between_of_any fun s hs => ⟨Nat.zero_le _, hval.text s hs⟩
      · exact between_of_any fun s hs => ⟨Nat.zero_le _, hval.transcript s hs⟩
      · exact haddr _ hsnd
      · exact haddr _ hrcp
  unfold insertMessage
  rw [hsql, if_pos ((Option.all_eq_true _ _).mpr hreply)]
  rfl

theorem insertAttachments_of_valid (hval : Valid m) (hstor : m.Storable) :
    m.attachmentRows.mapM insertAttachment = .ok m.attachmentRows := by
  rw [mapM_of_forall (g := id), List.map_id]
  intro row hm
  rcases mem_append.mp hm with hm | hm
  · obtain ⟨⟨a, position⟩, hpair, rfl⟩ := List.mem_map.mp hm
    obtain ⟨-, hpos, -⟩ := mem_zipIdx hpair
    have ha : a ∈ m.attachments := fst_mem_of_mem_zipIdx hpair
    have hcount := hval.count
    refine Attachment.insert (hval.attachments a ha) ?_ (by omega)
    intro text htext
    refine hstor.mem ?_
    have : text ∈ m.attachments.flatMap fun a => [a.name, a.contentType].reduceOption :=
      mem_flatMap.mpr ⟨a, ha, htext⟩
    simp only [MessageCreate.texts, mem_append]
    tauto
  · obtain ⟨v, hv, rfl⟩ := List.mem_map.mp hm
    refine VoiceAttachment.insert (hval.voice v (mem_toList.mp hv)) ?_
    intro text htext
    refine hstor.mem ?_
    have : text ∈ m.voice.toList.flatMap fun v => [v.name, v.contentType].reduceOption :=
      mem_flatMap.mpr ⟨v, hv, htext⟩
    simp only [MessageCreate.texts, mem_append]
    tauto

theorem gifTexts_of_storable (hstor : m.Storable) (hg : m.gif = some g) :
    ∀ text ∈ g.row.texts, storable text = true := by
  refine Gif.texts_row fun text htext => hstor.mem ?_
  have : text ∈ m.gif.toList.flatMap fun g => g.providerId :: g.title.toList :=
    mem_flatMap.mpr ⟨g, by simp [hg], htext⟩
  simp only [MessageCreate.texts, mem_append]
  tauto

theorem updateRecentGif_of_valid (message : Nat) (hval : Valid m) (hstor : m.Storable)
    (hused : UsedBefore now sender m recent) :
    ∃ recent', updateRecentGif now sender message (m.gif.map Gif.row) recent = .ok recent' := by
  cases hg : m.gif with
  | none => exact ⟨recent, rfl⟩
  | some g =>
    show ∃ recent', updateRecentGif now sender message (some g.row) recent = .ok recent'
    unfold updateRecentGif
    by_cases hcarb : sender.actorType = .carbon
    · have horder : (recentGif now sender.id message g.row recent).firstUsedAt ≤ now := by
        unfold recentGif
        cases hfnd : recent.find? fun r =>
            r.carbon = sender.id && r.gif.providerId = g.row.providerId with
        | none => simp
        | some r => exact hused g hg hcarb r hfnd
      simp only [hcarb, if_true]
      rw [sql_eq_ok.mpr ⟨gifTexts_of_storable hstor hg, forall_mem_concat.mpr
        ⟨Gif.checks_row (hval.gif g hg) _, decide_eq_true horder⟩⟩]
      exact ⟨_, rfl⟩
    · exact ⟨recent, by simp [hcarb]⟩

/-- Content that is valid and storable is stored. -/
theorem insertContent_of_valid (message : Nat) (hval : Valid m) (hstor : m.Storable)
    (hreply : ∀ reply ∈ m.replyToMessageId, (d.message reply).any (·.conversation = c) = true)
    (hused : UsedBefore now sender m recent) :
    ∃ recent', insertContent now sender c message m d recent =
      .ok (⟨m.row, m.attachmentRows, m.gif.map Gif.row⟩, recent') := by
  obtain ⟨recent', hrecent⟩ :=
    updateRecentGif_of_valid message hval hstor hused
  have hgifs : (m.gif.map Gif.row).toList.mapM insertGif = .ok (m.gif.map Gif.row).toList := by
    rw [mapM_of_forall (g := id), List.map_id]
    intro row hm
    obtain ⟨g, hg, rfl⟩ := map_eq_some_iff.mp (mem_toList.mp hm)
    unfold insertGif
    rw [sql_eq_ok.mpr ⟨gifTexts_of_storable hstor hg, Gif.checks_row (hval.gif g hg) _⟩]
    rfl
  have hhead : (m.gif.map Gif.row).toList.head? = m.gif.map Gif.row := by
    cases m.gif <;> rfl
  have hassert : assertMessageContent ⟨m.row, m.attachmentRows, m.gif.map Gif.row⟩ = .ok () := by
    have hlen : m.attachmentRows.length = m.attachments.length + m.voice.toList.length := by
      simp [MessageCreate.attachmentRows]
    have hempty : m.attachmentRows.isEmpty = true ↔ m.attachments = [] ∧ m.voice = none := by
      simp [MessageCreate.attachmentRows]
    have hcount := hval.count
    unfold assertMessageContent
    rw [if_neg (by simp only [hlen]; omega), if_neg, if_neg]
    · rintro h
      simp only [Bool.and_eq_true] at h
      obtain ⟨hn, hsi⟩ := hempty.mp h.1
      exact hval.transcribed ⟨hn, hsi, h.2⟩
    · rintro h
      simp only [Bool.and_eq_true, decide_eq_true_eq] at h
      obtain ⟨hn, hsi⟩ := hempty.mp h.1.2
      exact hval.content ⟨h.1.1, hn, hsi, by simpa using h.2⟩
  refine ⟨recent', ?_⟩
  unfold insertContent
  rw [insertMessage_of_valid hval hstor hreply,
    insertAttachments_of_valid hval hstor, hgifs]
  simp only [bind, Except.bind, hhead, hrecent, hassert]
  rfl

/-! What was stored could be. -/

theorem message_of_insertContent {result : Rows × List RecentGif}
    (h : insertContent now sender c message m d recent = .ok result) :
    result.1.message = m.row := by
  obtain ⟨row, hmessage, h⟩ := bind_eq_ok.mp h
  obtain ⟨attachments, -, h⟩ := bind_eq_ok.mp h
  obtain ⟨gifs, -, h⟩ := bind_eq_ok.mp h
  obtain ⟨_, -, h⟩ := bind_eq_ok.mp h
  obtain ⟨_, -, h⟩ := bind_eq_ok.mp h
  cases h
  obtain ⟨_, -, hmessage⟩ := bind_eq_ok.mp hmessage
  split_ifs at hmessage
  cases hmessage
  rfl

end Insert

end SiliconDm.Server.Content
