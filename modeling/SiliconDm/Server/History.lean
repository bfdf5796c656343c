import SiliconDm.Base.System
import SiliconDm.Server.MessageContent

/-!
# The content history of a message

An edit moves the content it replaces into a JSON array beside the message; the array's first
entry is a placeholder for the immutable original, filled in when the message is read. A
deletion only sets a time. Edits and deletions of one message are serialised by the lock on its
row, which a transaction takes first and holds to its end.

Sources: `src/infrastructure/postgres/revisions.rs:62–244`,
`src/infrastructure/postgres/rows.rs:225–270`, `migrations/0025_message_history.sql`.
-/

namespace SiliconDm.Server.History

open Content (MessageCreate)

/-! ### The row and its reading -/

/-- An entry of `history`. No content refers to the original message. -/
structure Entry where
  content : Option MessageCreate
  createdAt : Nat

/-- A row of `message_history`. -/
structure Row where
  content : Option MessageCreate
  history : List Entry
  updatedAt : Option Nat
  deletedAt : Option Nat

/-- A message, which never changes, and its row of `message_history` once there is one. -/
structure Stored where
  original : MessageCreate
  createdAt : Nat
  revision : Option Row

/-- The upsert of an edit. `revisions.rs:201–203`. -/
def Stored.edit (m : Stored) (content : MessageCreate) (now : Nat) : Row :=
  match m.revision with
  | none => ⟨some content, [⟨none, m.createdAt⟩], some now, none⟩
  | some row =>
    { row with
      history := row.history ++ [⟨row.content, row.updatedAt.getD m.createdAt⟩]
      content := some content
      updatedAt := some now }

/-- The upsert of a deletion. `revisions.rs:205–206`. -/
def Stored.delete (m : Stored) (now : Nat) : Row :=
  match m.revision with
  | none => ⟨none, [], none, some now⟩
  | some row => { row with deletedAt := some now }

def Stored.deleted (m : Stored) : Bool :=
  m.revision.any (·.deletedAt.isSome)

/-- What `guard_message_history` demands of an update. `0025:48–61`. -/
def Guarded (old new : Row) : Prop :=
  old.deletedAt = none ∧
    if new.deletedAt.isSome then
      new.content = old.content ∧ new.history = old.history ∧ new.updatedAt = old.updatedAt
    else ∃ e, new.history = old.history ++ [e] ∧ e.content = old.content

structure Returned where
  content : MessageCreate
  history : List (MessageCreate × Nat)
  updatedAt : Option Nat
  deletedAt : Option Nat

/-- The fields that a revision replaces; the routing stays that of the message. -/
def Stored.withContent (m : Stored) (c : MessageCreate) : MessageCreate :=
  { c with senderId := m.original.senderId, recipientId := m.original.recipientId }

/-- `rows.rs:225–270`. -/
def Stored.applyLatestRevisions (m : Stored) : Returned :=
  match m.revision with
  | none => ⟨m.original, [], none, none⟩
  | some row =>
    { content :=
        if row.deletedAt.isSome then m.withContent .empty
        else row.content.elim m.original m.withContent
      history := row.history.map fun e => (e.content.getD m.original, e.createdAt)
      updatedAt := row.updatedAt
      deletedAt := row.deletedAt }

/-- The upserts pass the guard of the table on every message that is not deleted. -/
theorem Stored.guarded {m : Stored} {row : Row} (hr : m.revision = some row)
    (hm : m.deleted = false) (content : MessageCreate) (now : Nat) :
    Guarded row (m.edit content now) ∧ Guarded row (m.delete now) := by
  have hdead : row.deletedAt = none := by simpa [deleted, hr] using hm
  refine ⟨⟨hdead, ?_⟩, ⟨hdead, ?_⟩⟩
  · simp [edit, hr, hdead]
  · simp [delete, hr]

/-! ### Transactions -/

/-- `revise_message`: an edit, or a deletion when there is no content, under the key that the
actor gave it for this operation. -/
structure Request where
  key : Nat
  content : Option MessageCreate

/-- What edits and deletions of one message share. `edits` records, for the statements below
only, the edits that committed with the time of each. -/
structure State where
  message : Stored
  /-- The transaction that holds the lock on the message row. -/
  holder : Option Request
  /-- The completed idempotency records, with the hash of the request of each. -/
  completed : Nat → Option Nat
  edits : List (MessageCreate × Nat)

inductive Label where
  /-- `SELECT … FOR UPDATE` gets the message row. -/
  | lock (r : Request)
  /-- The holder claims its key, upserts at the given time and commits. -/
  | commit (now : Nat)
  /-- The holder is refused or fails. -/
  | rollback
  /-- A request about another message completes its claim. -/
  | complete (key hash : Nat)
  /-- A completed record is dropped. -/
  | forget (key : Nat)

variable (requestHash : Option MessageCreate → Nat)

/-- The body from the claim on. `revisions.rs:169–244`. -/
def State.revise (s : State) (r : Request) (now : Nat) : Except AppError State :=
  match s.completed r.key with
  | some hash =>
    if hash = requestHash r.content then .ok { s with holder := none }
    else .error (.conflict "idempotency key was already used with different request content")
  | none =>
    if s.message.deleted then .error (.conflict "message has been deleted")
    else
      .ok
        { message :=
            { s.message with
              revision := some (r.content.elim (s.message.delete now) (s.message.edit · now)) }
          holder := none
          completed := Function.update s.completed r.key (some (requestHash r.content))
          edits := s.edits ++ r.content.toList.map (·, now) }

def State.step (s : State) : Label → Option State
  | .lock r => if s.holder.isNone then some { s with holder := some r } else none
  | .commit now => s.holder.bind fun r => (s.revise requestHash r now).toOption
  | .rollback => some { s with holder := none }
  | .complete key hash =>
    if s.completed key = none then
      some { s with completed := Function.update s.completed key (some hash) }
    else none
  | .forget key => some { s with completed := Function.update s.completed key none }

/-- Every interleaving of edits and deletions of a message, from its first content on. -/
def revising : Base.System State Label where
  init s := s.message.revision = none ∧ s.edits = []
  step := State.step requestHash

variable {requestHash} {s s' : State} {l : Label} {r : Request} {now : Nat}

/-- What one step does to the message: nothing, or one edit or deletion of a message that is
not deleted, under a key that is not completed. -/
theorem step_cases (h : (revising requestHash).step s l = some s') :
    (s'.message = s.message ∧ s'.edits = s.edits) ∨
      ∃ r now, s.holder = some r ∧ s.completed r.key = none ∧ s.message.deleted = false ∧
        s'.message =
          { s.message with
            revision := some (r.content.elim (s.message.delete now) (s.message.edit · now)) } ∧
        s'.edits = s.edits ++ r.content.toList.map (·, now) := by
  cases l with
  | lock r | complete key hash =>
    obtain ⟨-, rfl⟩ := by simpa [revising, State.step] using h
    exact .inl ⟨rfl, rfl⟩
  | rollback | forget key =>
    cases h
    exact .inl ⟨rfl, rfl⟩
  | commit now =>
    obtain ⟨r, hr, h⟩ := Option.bind_eq_some_iff.mp h
    unfold State.revise at h
    split at h
    · split at h
      · cases h
        exact .inl ⟨rfl, rfl⟩
      · cases h
    · next hk =>
      split at h
      · cases h
      · next hdead =>
        cases h
        exact .inr ⟨r, now, hr, hk, by simpa using hdead, rfl, rfl⟩

/-! ### Every version, in order -/

/-- The content that is current and the time since which it is. -/
def Stored.current (m : Stored) : MessageCreate × Nat :=
  m.revision.elim (m.original, m.createdAt) fun row =>
    (row.content.getD m.original, row.updatedAt.getD m.createdAt)

def Stored.versions (m : Stored) : List (MessageCreate × Nat) :=
  m.applyLatestRevisions.history ++ [m.current]

theorem Stored.versions_edit (m : Stored) (c : MessageCreate) (now : Nat) :
    { m with revision := some (m.edit c now) : Stored }.versions = m.versions ++ [(c, now)] := by
  cases hr : m.revision <;> simp [versions, current, edit, applyLatestRevisions, hr]

theorem Stored.versions_delete (m : Stored) (now : Nat) :
    { m with revision := some (m.delete now) : Stored }.versions = m.versions := by
  cases hr : m.revision <;> simp [versions, current, delete, applyLatestRevisions, hr]

theorem Stored.content_current {m : Stored} (h : m.deleted = false) :
    m.applyLatestRevisions.content = m.withContent m.current.1 := by
  rcases hr : m.revision with _ | row
  · simp [applyLatestRevisions, current, withContent, hr]
  · have hdead : row.deletedAt = none := by simpa [deleted, hr] using h
    cases hcont : row.content <;>
      simp [applyLatestRevisions, current, withContent, hr, hdead, hcont]

theorem versions_of_step (h : (revising requestHash).step s l = some s') :
    s'.message.original = s.message.original ∧ s'.message.createdAt = s.message.createdAt ∧
      ∃ new, s'.edits = s.edits ++ new ∧ s'.message.versions = s.message.versions ++ new := by
  obtain ⟨hm, he⟩ | ⟨r, now, -, -, -, hm, he⟩ := step_cases h
  · exact ⟨by rw [hm], by rw [hm], [], by simp [he], by simp [hm]⟩
  · refine ⟨by rw [hm], by rw [hm], _, he, ?_⟩
    rw [hm]
    cases hr : r.content with
    | none => simpa using s.message.versions_delete now
    | some c => simpa using s.message.versions_edit c now

/-- A deleted message is never changed again. -/
theorem deleted_of_steps (h : (revising requestHash).Steps (fun _ _ => True) s s')
    (hs : s.message.deleted = true) : s'.message = s.message ∧ s'.edits = s.edits := by
  refine Base.System.Steps.preserves (I := fun t => t.message = s.message ∧ t.edits = s.edits) h
    (fun t l t' ht _ hl => ?_) ⟨rfl, rfl⟩
  obtain ⟨hm, he⟩ | ⟨r, now, -, -, hdead, -⟩ := step_cases hl
  · exact ⟨hm.trans ht.1, he.trans ht.2⟩
  · rw [ht.1, hs] at hdead
    cases hdead

/-- In every run the history that is read back is the first content and the committed edits but
the last, each with the time it became current; the content is the last one until a deletion.
A deletion adds no entry, nothing changes after it, and a replay changes nothing. -/
theorem history_is_faithful {s₀ : State} (h₀ : (revising requestHash).init s₀)
    (h : (revising requestHash).Steps (fun _ _ => True) s₀ s) :
    let versions := (s₀.message.original, s₀.message.createdAt) :: s.edits
    let returned := s.message.applyLatestRevisions
    returned.history = versions.dropLast ∧
    (s.message.deleted = false → ∀ v ∈ versions.getLast?,
      returned.content = s₀.message.withContent v.1) ∧
    (∀ r now s', s.holder = some r → (revising requestHash).step s (.commit now) = some s' →
      (r.content = none → s'.message.applyLatestRevisions.history = returned.history) ∧
      (s.completed r.key = some (requestHash r.content) →
        s'.message = s.message ∧ s'.edits = s.edits)) ∧
    (s.message.deleted = true → ∀ s', (revising requestHash).Steps (fun _ _ => True) s s' →
      s'.message = s.message ∧ s'.edits = s.edits) := by
  obtain ⟨horiginal, hcreated, hversions⟩ : s.message.original = s₀.message.original ∧
      s.message.createdAt = s₀.message.createdAt ∧ s.message.versions =
        (s₀.message.original, s₀.message.createdAt) :: s.edits := by
    refine Base.System.Steps.preserves (I := fun t => t.message.original = s₀.message.original ∧
      t.message.createdAt = s₀.message.createdAt ∧ t.message.versions =
        (s₀.message.original, s₀.message.createdAt) :: t.edits) h
      (fun t l t' ht _ hl => ?_) ⟨rfl, rfl, ?_⟩
    · obtain ⟨horiginal, hcreated, new, he, hv⟩ := versions_of_step hl
      exact ⟨horiginal.trans ht.1, hcreated.trans ht.2.1, by simp [hv, he, ht.2.2]⟩
    · simp [Stored.versions, Stored.applyLatestRevisions, Stored.current, h₀.1, h₀.2]
  refine ⟨?_, fun hdeleted v hv => ?_, fun r now s' hr hl => ⟨fun hc => ?_, fun hk => ?_⟩,
    fun hdeleted s' hs' => deleted_of_steps hs' hdeleted⟩
  · rw [← hversions, Stored.versions, List.dropLast_concat]
  · rw [← hversions, Stored.versions, List.getLast?_concat, Option.mem_some_iff] at hv
    rw [Stored.content_current hdeleted, hv]
    simp [Stored.withContent, horiginal]
  · obtain ⟨hm, -⟩ | ⟨r', now', hr', -, -, hm, -⟩ := step_cases hl
    · rw [hm]
    · obtain rfl : r = r' := Option.some_injective _ (hr.symm.trans hr')
      have := s.message.versions_delete now'
      simp only [hc, Option.elim_none] at hm
      rw [← hm] at this
      exact (List.append_inj' this rfl).1
  · obtain hm | ⟨r', now', hr', hkey, -⟩ := step_cases hl
    · exact hm
    · obtain rfl : r = r' := Option.some_injective _ (hr.symm.trans hr')
      rw [hk] at hkey
      cases hkey

/-- A message with the text `a`, as it is first stored. -/
def fresh : State :=
  { message := ⟨{ MessageCreate.empty with text := some "a" }, 1, none⟩
    holder := none
    completed := fun _ => none
    edits := [] }

/-- Two edits, the first one repeated, and a deletion. -/
theorem history_is_faithful_of_two_edits :
    ∃ s, (revising fun _ => 0).Steps (fun _ _ => True) fresh s ∧ s.message.deleted = true ∧
      s.message.applyLatestRevisions.history =
        [({ MessageCreate.empty with text := some "a" }, 1),
          ({ MessageCreate.empty with text := some "b" }, 5)] :=
  have hrun : (revising fun _ => 0).run fresh
      [.lock ⟨1, some { MessageCreate.empty with text := some "b" }⟩, .commit 5,
        .lock ⟨1, some { MessageCreate.empty with text := some "b" }⟩, .commit 6,
        .lock ⟨2, some { MessageCreate.empty with text := some "c" }⟩, .commit 7,
        .lock ⟨3, none⟩, .commit 8] = some _ := rfl
  ⟨_, Base.System.steps_of_run hrun, rfl,
    (history_is_faithful ⟨rfl, rfl⟩ (Base.System.steps_of_run hrun)).1⟩

end SiliconDm.Server.History
