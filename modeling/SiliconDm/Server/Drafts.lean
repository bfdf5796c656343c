import SiliconDm.Base.System
import SiliconDm.Server.MessageContent

/-!
# Drafts

A participant has at most one draft in a conversation. A `put` locks the participant row and then
the draft row, and is judged on the version it finds; a send that has inserted its message shares
the participant row, so no draft is stored until it ends, and removes the draft whose digest is
that of the message. A draft's version comes from a counter that outlives it.

Sources: `src/infrastructure/postgres/drafts.rs:80–273`, `messages.rs:258–331`,
`src/domain/message.rs:359–466`, `src/domain/draft.rs:107–117`,
`migrations/0002_messaging_and_auxiliary_state.sql:34–41,890–913`,
`migrations/0014_draft_version_counters.sql:20–46`.
-/

namespace SiliconDm.Server.Drafts

open List Option

open Content (Attachment Gif MessageCreate Url Value VoiceAttachment)

/-! ### Content and its digests -/

/-- What is serialized of an attachment and of a voice recording: its URL as a text, its name,
content type and size. -/
abbrev File := String × Option String × Option String × Option Nat

def file (url : Url) (name contentType : Option String) (size : Option Nat) : File :=
  (url.asStr, name, contentType, size)

/-- What is serialized of a draft, and of a message apart from its routing. -/
@[ext]
structure Body where
  text : Option String
  attachments : List File
  voice : Option (File × Option Nat)
  voiceTranscript : Option String
  gif : Option (String × String × Option String × Option String)
  metadata : List (String × Value)
  replyToMessageId : Option String

variable (uuidText : Nat → String)

/-- `uuidText` is how the key of a message is written. -/
def body (m : MessageCreate) : Body where
  text := m.text
  attachments := m.attachments.map fun a => file a.permanentUrl a.name a.contentType a.size
  voice := m.voice.map fun v =>
    (file v.permanentUrl v.name v.contentType v.size, v.durationMilliseconds)
  voiceTranscript := m.voiceTranscript
  gif := m.gif.map fun g => (g.providerId, g.url.asStr, g.previewUrl.map Url.asStr, g.title)
  metadata := m.metadata
  replyToMessageId := m.replyToMessageId.map uuidText

/-- An object without the fields that have no value. -/
def record (fields : List (String × Option Value)) : Value :=
  .object (fields.filterMap fun f => f.2.map (f.1, ·))

/-- A field that is written as `null` when it has no value. -/
def orNull (value : Option Value) : Option Value :=
  some (value.getD .null)

def number (n : Nat) : Value :=
  .number (String.ofList ((Base.numeral 10 1 n).map Protocol.digitChar))

def fileFields : File → List (String × Option Value)
  | (permanentUrl, name, contentType, size) =>
    [("permanent_url", some (.string permanentUrl)), ("name", name.map .string),
      ("content_type", contentType.map .string), ("size", size.map number)]

def gifJson : String × String × Option String × Option String → Value
  | (providerId, url, previewUrl, title) =>
    record [("provider_id", some (.string providerId)), ("url", some (.string url)),
      ("preview_url", previewUrl.map .string), ("title", title.map .string)]

def voiceJson (v : File × Option Nat) : Value :=
  record (fileFields v.1 ++ [("duration_milliseconds", orNull (v.2.map number))])

/-- The object that `content_digest` hashes. `message.rs:395–418`. -/
def Body.canonical (b : Body) : Value :=
  record [("text", orNull (b.text.map .string)),
    ("attachments", some (.array (b.attachments.map (record <| fileFields ·)))),
    ("voice", orNull (b.voice.map voiceJson)),
    ("voice_transcript", b.voiceTranscript.map .string),
    ("gif", orNull (b.gif.map gifJson)),
    ("metadata", if b.metadata.isEmpty then none else some (.object b.metadata)),
    ("reply_to_message_id", b.replyToMessageId.map .string)]

/-- The object that `legacy_content_digest` hashes. `message.rs:443–459`. -/
def Body.legacyCanonical (b : Body) : Value :=
  record [("text", orNull (b.text.map .string)),
    ("attachments", some (.array (b.attachments.map (record <| fileFields ·)))),
    ("voice", orNull (b.voice.map (record <| fileFields ·.1))),
    ("gif", orNull (b.gif.map gifJson))]

inductive HashVersion where
  | v1
  | v2
  | v3
  deriving DecidableEq

/-- A row of `drafts`, whose `content_hash` is the digest of its content for its hash version. -/
structure Draft where
  version : Nat
  hashVersion : HashVersion
  content : MessageCreate

variable {H : Type} [DecidableEq H] (hash : Value → H)

def Draft.contentHash (d : Draft) : H :=
  match d.hashVersion with
  | .v1 => hash (body uuidText d.content).legacyCanonical
  | .v2 | .v3 => hash (body uuidText d.content).canonical

/-- The condition of the `UPDATE` that looks for the draft of a message. `messages.rs:258–287`. -/
def Draft.matchedBy (d : Draft) (message : MessageCreate) : Bool :=
  match d.hashVersion with
  | .v1 => message.metadata.isEmpty && message.replyToMessageId.isNone &&
      d.contentHash uuidText hash = hash (body uuidText message).legacyCanonical
  | .v2 | .v3 => d.contentHash uuidText hash = hash (body uuidText message).canonical

/-! ### Transactions -/

/-- A `put` that has the participant row, and the draft that it has found. -/
structure Put where
  expected : Option Nat
  content : MessageCreate
  seen : Option (Option Draft)

/-- A send that has inserted its message, and whether it has found the draft. -/
structure Send where
  message : MessageCreate
  found : Option Bool

/-- One participant's drafts in one conversation. `saved` records all drafts that were stored. -/
structure State where
  draft : Option Draft
  counter : Nat
  put : Option Put
  send : Option Send
  saved : List Draft

inductive PutDraftOutcome where
  | saved (d : Draft)
  | conflict (current : Draft)

/-- The rest of `put_draft`, with the triggers that allocate the version.
`drafts.rs:126–208`. -/
def putDraft (counter : Nat) (seen : Option Draft) (expected : Option Nat)
    (content : MessageCreate) : Except AppError PutDraftOutcome :=
  match seen with
  | none =>
    if expected.getD 0 = 0 then .ok (.saved ⟨counter + 1, .v3, content⟩)
    else .error (.conflict "draft was deleted after the supplied version was observed")
  | some current =>
    if expected ≠ some current.version then .ok (.conflict current)
    else if counter = current.version then .ok (.saved ⟨current.version + 1, .v3, content⟩)
    else .error (.constraint "draft version counter is inconsistent")

inductive Label where
  | lockParticipant (expected : Option Nat) (content : MessageCreate)
  | lockDraft
  | save
  | abandon
  | insertMessage (message : MessageCreate)
  | findDraft
  | finishSend
  | abandonSend
  /-- A send whose key is completed commits without anything. -/
  | replaySend (message : MessageCreate)
  /-- `delete_draft`, or the draft-clearing send of another request. -/
  | removeDraft

/-- The draft and its row of the counter after `version + 1` and `DELETE`. -/
def State.removed (s : State) : State :=
  { s with draft := none, counter := s.draft.elim s.counter (·.version + 1) }

def State.step (s : State) : Label → Option State
  | .lockParticipant expected content =>
    if s.put.isNone && s.send.isNone then some { s with put := some ⟨expected, content, none⟩ }
    else none
  | .lockDraft => s.put.map fun p => { s with
      put := some { p with seen := p.seen.or (some s.draft) } }
  | .save => s.put.bind fun p => p.seen.map fun seen =>
      match putDraft s.counter seen p.expected p.content with
      | .ok (.saved d) =>
        { s with draft := some d, counter := d.version, put := none, saved := s.saved ++ [d] }
      | _ => { s with put := none }
  | .abandon => some { s with put := none }
  | .insertMessage message =>
    if s.put.isNone && s.send.isNone then some { s with send := some ⟨message, none⟩ } else none
  | .findDraft => s.send.map fun t => { s with
      send := some { t with
        found := t.found.or (some (s.draft.any (·.matchedBy uuidText hash t.message))) } }
  | .finishSend => s.send.bind fun t => t.found.map fun found =>
      if found then { s.removed with send := none } else { s with send := none }
  | .abandonSend => some { s with send := none }
  | .replaySend _ => some s
  | .removeDraft =>
    -- The draft row is free.
    if s.draft.isSome && !s.put.any (·.seen.isSome) && !s.send.any (·.found = some true) then
      some s.removed
    else none

/-- Every interleaving of the requests of one participant. -/
def drafting : Base.System State Label where
  init s := s.put = none ∧ s.send = none ∧ s.saved = s.draft.toList ∧
    ∀ d ∈ s.draft, 0 < d.version ∧ d.version = s.counter
  step := State.step uuidText hash

structure Inv (s : State) : Prop where
  seen : ∀ p ∈ s.put, ∀ x ∈ p.seen, x = s.draft
  alone : s.put = none ∨ s.send = none
  found : ∀ t ∈ s.send, ∀ b ∈ t.found, b = s.draft.any (·.matchedBy uuidText hash t.message)
  counted : ∀ d ∈ s.draft, d.version = s.counter ∧ d ∈ s.saved
  positive : ∀ d ∈ s.saved, 0 < d.version ∧ d.version ≤ s.counter
  increasing : (s.saved.map Draft.version).Pairwise (· < ·)

variable {uuidText} {hash} {s s' : State} {l : Label}

variable {seen : Option Draft} {d : Draft} {b c : Body}

theorem putDraft_saved {counter : Nat} {expected : Option Nat} {content : MessageCreate}
    (h : putDraft counter seen expected content = .ok (.saved d)) :
    d.content = content ∧ d.version = counter + 1 ∧
      (seen = none ∧ expected.getD 0 = 0 ∨ ∃ b, seen = some b ∧ expected = some b.version) := by
  unfold putDraft at h
  split at h
  · split_ifs at h with he
    cases h
    exact ⟨rfl, rfl, .inl ⟨rfl, he⟩⟩
  · split_ifs at h with he hc <;> cases h
    exact ⟨rfl, congrArg (· + 1) hc.symm, .inr ⟨_, rfl, by simpa using he⟩⟩

/-- A `put` that names the current version is saved. -/
theorem putDraft_of_current {counter : Nat} (hcounter : d.version = counter)
    (content : MessageCreate) :
    putDraft counter (some d) (some d.version) content =
      .ok (.saved ⟨counter + 1, .v3, content⟩) := by
  subst hcounter
  simp [putDraft]

theorem Inv.removed (h : Inv uuidText hash s) (hput : ∀ p ∈ s.put, p.seen = none)
    (hsend : ∀ t ∈ s.send, t.found ≠ some true) : Inv uuidText hash s.removed where
  seen p hp x hx := by simp [hput p hp] at hx
  alone := h.alone
  found t ht b hb := by
    cases b with
    | false => rfl
    | true => exact absurd hb (hsend t ht)
  counted _ hd := by cases hd
  positive d hd := by
    refine ⟨(h.positive d hd).1, (h.positive d hd).2.trans ?_⟩
    cases hdraft : s.draft with
    | none => simp [State.removed, hdraft]
    | some d => simp [State.removed, hdraft, (h.counted d hdraft).1]
  increasing := h.increasing

theorem Inv.saved (h : Inv uuidText hash s) {p : Put} (hp : s.put = some p)
    (hd : putDraft s.counter seen p.expected p.content = .ok (.saved d)) :
    Inv uuidText hash { s with
      draft := some d, counter := d.version, put := none, saved := s.saved ++ [d] } := by
  obtain ⟨-, hver, -⟩ := putDraft_saved hd
  have hsend : s.send = none := by simpa [hp] using h.alone
  refine ⟨by simp, .inl rfl, by simp [hsend], ?_, fun e he => ?_, ?_⟩
  · rintro _ ⟨⟩
    exact ⟨rfl, by simp⟩
  · rcases Base.mem_concat.mp he with he | rfl
    · have := h.positive e he
      exact ⟨this.1, by simp only [hver]; omega⟩
    · exact ⟨by omega, le_rfl⟩
  · rw [map_append, pairwise_append]
    refine ⟨h.increasing, pairwise_singleton _ _, fun v hv w hw => ?_⟩
    obtain ⟨e, he, rfl⟩ := List.mem_map.mp hv
    obtain rfl := mem_singleton.mp hw
    have := (h.positive e he).2
    omega

theorem Inv.step (h : Inv uuidText hash s) (hl : (drafting uuidText hash).step s l = some s') :
    Inv uuidText hash s' := by
  cases l with
  | lockParticipant expected content =>
    obtain ⟨hfree, rfl⟩ := by simpa [drafting, State.step] using hl
    refine { h with seen := ?_, alone := .inr hfree.2 }
    rintro _ ⟨⟩ x hx
    cases hx
  | lockDraft =>
    obtain ⟨p, hp, rfl⟩ := map_eq_some_iff.mp hl
    refine { h with seen := ?_, alone := .inr (by simpa [hp] using h.alone) }
    rintro _ ⟨⟩ x hx
    cases hseen : p.seen with
    | none => simpa [hseen, eq_comm] using hx
    | some y =>
      obtain rfl : y = x := by simpa [hseen] using hx
      exact h.seen p hp y hseen
  | save =>
    obtain ⟨p, hp, hl⟩ := bind_eq_some_iff.mp hl
    obtain ⟨seen, hseen, rfl⟩ := map_eq_some_iff.mp hl
    split
    next d hd => exact h.saved hp hd
    next => exact { h with seen := by simp, alone := .inl rfl }
  | abandon =>
    cases hl
    exact { h with seen := by simp, alone := .inl rfl }
  | insertMessage message =>
    obtain ⟨hfree, rfl⟩ := by simpa [drafting, State.step] using hl
    refine { h with alone := .inl hfree.1, found := ?_ }
    rintro _ ⟨⟩ b hb
    cases hb
  | findDraft =>
    obtain ⟨t, ht, rfl⟩ := map_eq_some_iff.mp hl
    refine { h with alone := .inl (by simpa [ht] using h.alone), found := ?_ }
    rintro _ ⟨⟩ b hb
    cases hfnd : t.found with
    | none => simpa [hfnd, eq_comm] using hb
    | some y =>
      obtain rfl : y = b := by simpa [hfnd] using hb
      exact h.found t ht y hfnd
  | finishSend =>
    obtain ⟨t, ht, hl⟩ := bind_eq_some_iff.mp hl
    obtain ⟨found, hfnd, rfl⟩ := map_eq_some_iff.mp hl
    have hput : s.put = none := by simpa [ht] using h.alone
    have hen : Inv uuidText hash { s with send := none } :=
      { h with alone := .inr rfl, found := by simp }
    split
    · exact hen.removed (by simp [hput]) (by simp)
    · exact hen
  | abandonSend =>
    cases hl
    exact { h with alone := .inr rfl, found := by simp }
  | replaySend message =>
    cases hl
    exact h
  | removeDraft =>
    obtain ⟨⟨⟨-, hput⟩, hsend⟩, rfl⟩ := by simpa [drafting, State.step] using hl
    exact h.removed (fun p hp => by simpa [mem_def.mp hp] using hput)
      fun t ht => by simpa [mem_def.mp ht] using hsend

theorem Inv.of_reachable (h : (drafting uuidText hash).Reachable s) : Inv uuidText hash s := by
  refine h.invariant (fun s hs => ?_) fun s l s' hs hl => hs.step hl
  obtain ⟨hput, hsend, hsaved, hcnt⟩ := hs
  constructor <;> cases hdraft : s.draft <;> simp_all
  omega

/-- Every `put` is judged on the current draft. One that succeeds names its version, or that
there is none, and its own version is above all before; one that is refused changes nothing and
gets the current draft. One that names the current version succeeds. -/
theorem no_draft_update_is_lost (h : (drafting uuidText hash).Reachable s) :
    (s.saved.map Draft.version).Pairwise (· < ·) ∧ (∀ d ∈ s.draft, d ∈ s.saved) ∧
    ∀ p seen s', s.put = some p → p.seen = some seen →
      (drafting uuidText hash).step s .save = some s' →
      (∀ d ∈ s.draft, p.expected = some d.version → ∃ v,
        putDraft s.counter seen p.expected p.content = .ok (.saved ⟨v, .v3, p.content⟩)) ∧
      match putDraft s.counter seen p.expected p.content with
      | .ok (.saved d) => s'.draft = some d ∧ d.content = p.content ∧
          (∀ e ∈ s.saved, e.version < d.version) ∧
          (s.draft = none ∧ p.expected.getD 0 = 0 ∨
            ∃ base, s.draft = some base ∧ p.expected = some base.version ∧
              ∀ e ∈ s.saved, e.version = base.version → e = base)
      | .ok (.conflict current) => s.draft = some current ∧ s' = { s with put := none }
      | .error _ => s.draft = none ∧ s' = { s with put := none } := by
  have hi := Inv.of_reachable h
  refine ⟨hi.increasing, fun d hd => (hi.counted d hd).2, fun p seen s' hp hseen hs => ?_⟩
  obtain rfl := hi.seen p hp seen hseen
  simp only [drafting, State.step, hp, hseen, bind_some, map_some,
    Option.some.injEq] at hs
  refine ⟨fun d hd hexpected => ⟨s.counter + 1, ?_⟩, ?_⟩
  · rw [hexpected, mem_def.mp hd]
    exact putDraft_of_current (hi.counted d hd).1 p.content
  cases hd : putDraft s.counter s.draft p.expected p.content with
  | ok outcome =>
    rw [hd] at hs
    cases outcome with
    | saved d =>
      subst hs
      obtain ⟨hcontent, hversion, hbase⟩ := putDraft_saved hd
      refine ⟨rfl, hcontent, fun e he => ?_, hbase.imp id ?_⟩
      · have := (hi.positive e he).2
        omega
      · rintro ⟨base, hdraft, hexpected⟩
        refine ⟨base, hdraft, hexpected, fun e he heq => ?_⟩
        exact inj_on_of_nodup_map (hi.increasing.imp ne_of_lt) he (hi.counted base hdraft).2
          heq
    | conflict current =>
      refine ⟨?_, hs.symm⟩
      unfold putDraft at hd
      split at hd <;> split_ifs at hd <;> cases hd
      assumption
  | error e =>
    rw [hd] at hs
    refine ⟨?_, hs.symm⟩
    unfold putDraft at hd
    split at hd
    · assumption
    · next current hdraft =>
      split_ifs at hd with he hcounter
      exact absurd (hi.counted current hdraft).1.symm hcounter

def plain (text : String) : MessageCreate :=
  { MessageCreate.empty with text := some text }

/-- After seven drafts that are gone a device stores version 8, and the next one what it made of
that version. -/
theorem no_draft_update_is_lost_next :
    ∃ s s', (drafting toString fun _ => ()).Reachable s ∧
      (drafting toString fun _ => ()).step s .save = some s' ∧
      s.saved = [⟨8, .v3, plain "a"⟩] ∧ s'.draft = some ⟨9, .v3, plain "b"⟩ :=
  have hrun : (drafting toString fun _ => ()).run ⟨none, 7, none, none, []⟩
      [.lockParticipant none (plain "a"), .lockDraft, .save,
        .lockParticipant (some 8) (plain "b"), .lockDraft] = some _ := rfl
  have hr : (drafting toString fun _ => ()).Reachable _ :=
    ⟨_, ⟨rfl, rfl, rfl, by simp⟩, Base.System.steps_of_run hrun⟩
  ⟨_, _, hr, rfl, rfl, ((no_draft_update_is_lost hr).2.2 _ _ _ rfl rfl rfl).2.1⟩

/-! ### The draft of a message -/

theorem key_mem_of_entry {fs : List (String × Option Value)} {e : String × Value}
    (he : e ∈ fs.filterMap fun f => f.2.map (f.1, ·)) : e.1 ∈ fs.map Prod.fst := by
  obtain ⟨f, hf, he⟩ := mem_filterMap.mp he
  obtain ⟨v, -, rfl⟩ := map_eq_some_iff.mp he
  exact List.mem_map_of_mem hf

/-- Objects with the same keys have the same fields, the omitted ones included. -/
theorem record_inj {fs gs : List (String × Option Value)} (hnd : (fs.map Prod.fst).Nodup)
    (hkeys : fs.map Prod.fst = gs.map Prod.fst) (h : record fs = record gs) : fs = gs := by
  simp only [record, Value.object.injEq] at h
  induction fs generalizing gs with
  | nil => simpa using hkeys.symm
  | cons f fs ih =>
    obtain ⟨key, x⟩ := f
    rcases gs with _ | ⟨⟨key', y⟩, gs⟩
    · cases hkeys
    simp only [map_cons, List.cons.injEq] at hkeys
    obtain ⟨rfl, hkeys⟩ := hkeys
    obtain ⟨hfr, hrest⟩ := nodup_cons.mp hnd
    -- An entry with the first key on one side only would be among the later ones.
    cases x with
    | none =>
      cases y with
      | none => rw [ih hrest hkeys h]
      | some w =>
        refine absurd (key_mem_of_entry (e := (key, w)) ?_) hfr
        exact (congrArg ((key, w) ∈ ·) h).mpr mem_cons_self
    | some v =>
      cases y with
      | none =>
        rw [hkeys] at hfr
        refine absurd (key_mem_of_entry (e := (key, v)) ?_) hfr
        exact (congrArg ((key, v) ∈ ·) h).mp mem_cons_self
      | some w =>
        simp only [filterMap_cons, map_some, List.cons.injEq, Prod.mk.injEq] at h
        rw [h.1.2, ih hrest hkeys h.2]

theorem orNull_inj {α : Type} {f : α → Value} (hf : Function.Injective f)
    (hnull : ∀ a, f a ≠ .null) {x y : Option α} (h : orNull (x.map f) = orNull (y.map f)) :
    x = y := by
  cases x <;> cases y <;> simp_all [orNull, hf.eq_iff, eq_comm]

theorem number_injective : Function.Injective number := by
  intro n m h
  have hdig := String.ofList_injective (Value.number.inj h)
  have hbound : ∀ n, ∀ d ∈ Base.numeral 10 1 n, d < 36 := fun n d hd =>
    lt_trans (Base.lt_of_mem_numeral (by decide) hd) (by decide)
  rw [← Base.readDigits_numeral 10 1 n, ← Base.readDigits_numeral 10 1 m]
  refine congrArg _ (le_antisymm (not_lt.mp fun hlt => ?_) (not_lt.mp fun hlt => ?_))
  all_goals
    rw [← Protocol.map_digitChar_lt_iff (hbound _) (hbound _), hdig] at hlt
    exact lt_irrefl _ hlt

theorem map_string_inj {x y : Option String} (h : x.map Value.string = y.map .string) : x = y :=
  map_injective (fun _ _ => Value.string.inj) h

theorem file_injective : Function.Injective fun f => record (fileFields f) := by
  rintro ⟨url, name, contentType, size⟩ ⟨url', name', contentType', size'⟩ h
  have := record_inj (by simp [fileFields]) (by simp [fileFields]) h
  simp only [fileFields, List.cons.injEq, Prod.mk.injEq, Option.some.injEq, Value.string.injEq,
    true_and, and_true] at this
  obtain ⟨rfl, hname, htype, hsize⟩ := this
  rw [map_string_inj hname, map_string_inj htype, map_injective number_injective hsize]

theorem gif_injective : Function.Injective gifJson := by
  rintro ⟨providerId, url, previewUrl, title⟩ ⟨providerId', url', previewUrl', title'⟩ h
  have := record_inj (by simp) (by simp) h
  simp only [List.cons.injEq, Prod.mk.injEq, Option.some.injEq, Value.string.injEq, true_and,
    and_true] at this
  obtain ⟨rfl, rfl, hpreview, htitle⟩ := this
  rw [map_string_inj hpreview, map_string_inj htitle]

theorem voice_injective : Function.Injective voiceJson := by
  rintro ⟨f, d⟩ ⟨g, e⟩ h
  have := record_inj (by simp [fileFields]) (by simp [fileFields]) h
  obtain ⟨hfile, hdur⟩ := append_inj' this rfl
  simp only [List.cons.injEq, Prod.mk.injEq, true_and, and_true] at hdur
  exact Prod.ext (file_injective (congrArg record hfile))
    (orNull_inj number_injective (fun _ => nofun) hdur)

/-- The fields that both digests cover. -/
theorem common_inj (htext : orNull (b.text.map .string) = orNull (c.text.map .string))
    (hatt : b.attachments.map (record <| fileFields ·) = c.attachments.map (record <| fileFields ·))
    (hgif : orNull (b.gif.map gifJson) = orNull (c.gif.map gifJson)) :
    b.text = c.text ∧ b.attachments = c.attachments ∧ b.gif = c.gif :=
  ⟨orNull_inj (fun _ _ => Value.string.inj) (fun _ => nofun) htext,
    file_injective.list_map hatt, orNull_inj gif_injective (fun _ => nofun) hgif⟩

theorem canonical_injective : Function.Injective Body.canonical := by
  intro b c h
  have := record_inj (by simp) (by simp) h
  simp only [List.cons.injEq, Prod.mk.injEq, Option.some.injEq, Value.array.injEq, true_and,
    and_true] at this
  obtain ⟨htext, hatt, hvoice, htsc, hgif, hmetadata, hreply⟩ := this
  obtain ⟨htext, hatt, hgif⟩ := common_inj htext hatt hgif
  refine Body.ext htext hatt (orNull_inj voice_injective (fun _ => nofun) hvoice)
    (map_string_inj htsc) hgif ?_ (map_string_inj hreply)
  cases hb : b.metadata <;> cases hc : c.metadata <;> simp_all

/-- What the first digest covers: no duration, transcript, metadata or reply. -/
theorem legacyCanonical_eq_iff : b.legacyCanonical = c.legacyCanonical ↔
    b.text = c.text ∧ b.attachments = c.attachments ∧
      b.voice.map Prod.fst = c.voice.map Prod.fst ∧ b.gif = c.gif := by
  have hfiles (v : Option (File × Option Nat)) : v.map (fun v => record (fileFields v.1)) =
      (v.map Prod.fst).map fun f => record (fileFields f) := by simp [Function.comp_def]
  constructor
  · intro h
    have := record_inj (by simp) (by simp) h
    simp only [List.cons.injEq, Prod.mk.injEq, Option.some.injEq, Value.array.injEq, true_and,
      and_true, hfiles] at this
    obtain ⟨htext, hatt, hvoice, hgif⟩ := this
    obtain ⟨htext, hatt, hgif⟩ := common_inj htext hatt hgif
    exact ⟨htext, hatt, orNull_inj file_injective (fun _ => nofun) hvoice, hgif⟩
  · rintro ⟨htext, hatt, hvoice, hgif⟩
    simp only [Body.legacyCanonical, htext, hatt, hgif, hfiles, hvoice]

variable (uuidText) in
/-- The draft says what the message says, as far as its digest covers it. -/
def Draft.Says (d : Draft) (message : MessageCreate) : Prop :=
  let said := body uuidText d.content
  let sent := body uuidText message
  match d.hashVersion with
  | .v1 => message.metadata = [] ∧ message.replyToMessageId = none ∧
      said.text = sent.text ∧ said.attachments = sent.attachments ∧
      said.voice.map Prod.fst = sent.voice.map Prod.fst ∧ said.gif = sent.gif
  | .v2 | .v3 => said = sent

theorem matchedBy_iff (hhash : Function.Injective hash) {message : MessageCreate} :
    d.matchedBy uuidText hash message = true ↔ d.Says uuidText message := by
  unfold Draft.matchedBy Draft.contentHash Draft.Says
  cases d.hashVersion <;>
    simp [hhash.eq_iff, canonical_injective.eq_iff, legacyCanonical_eq_iff, and_assoc]

/-- A send that commits removes the draft exactly when the draft says what the message says;
otherwise it leaves the draft. A replay removes nothing. -/
theorem send_clears_its_draft (hhash : Function.Injective hash)
    (h : (drafting uuidText hash).Reachable s) :
    (∀ t s', s.send = some t → (drafting uuidText hash).step s .finishSend = some s' →
      ((∃ d ∈ s.draft, d.Says uuidText t.message) → s'.draft = none) ∧
      ((∀ d ∈ s.draft, ¬ d.Says uuidText t.message) → s'.draft = s.draft)) ∧
    ∀ message s', (drafting uuidText hash).step s (.replaySend message) = some s' → s' = s := by
  refine ⟨fun t s' ht hs => ?_, fun message s' hs => (Option.some.inj hs).symm⟩
  simp only [drafting, State.step, ht, bind_some] at hs
  obtain ⟨found, hfound, rfl⟩ := map_eq_some_iff.mp hs
  obtain rfl := (Inv.of_reachable h).found t ht found hfound
  constructor
  · rintro ⟨d, hd, hsays⟩
    rw [mem_def.mp hd, any_some, (matchedBy_iff hhash).mpr hsays]
    rfl
  · intro hnone
    rw [if_neg]
    intro hany
    obtain ⟨d, hd, hmatched⟩ := (Option.any_eq_true _ _).mp hany
    exact hnone d hd ((matchedBy_iff hhash).mp hmatched)

/-- A draft `a` is removed by the message `a`. -/
theorem send_clears_its_draft_a :
    letI := Classical.decEq Value
    ∃ s s', (drafting toString (id : Value → Value)).Reachable s ∧
      s.draft = some ⟨1, .v3, plain "a"⟩ ∧
      (drafting toString (id : Value → Value)).step s .finishSend = some s' ∧ s'.draft = none :=
  letI := Classical.decEq Value
  have hrun : (drafting toString (id : Value → Value)).run
      ⟨some ⟨1, .v3, plain "a"⟩, 1, none, none, [⟨1, .v3, plain "a"⟩]⟩
      [.insertMessage (plain "a"), .findDraft] = some _ := rfl
  have hr : (drafting toString (id : Value → Value)).Reachable _ :=
    ⟨_, ⟨rfl, rfl, rfl, by simp⟩, Base.System.steps_of_run hrun⟩
  ⟨_, _, hr, rfl, rfl, ((send_clears_its_draft Function.injective_id hr).1 _ _ rfl rfl).1
    ⟨_, rfl, rfl⟩⟩

end SiliconDm.Server.Drafts
