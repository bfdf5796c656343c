import SiliconDm.Base.Fallible
import SiliconDm.Server.Transactions

/-!
# What the transactions of the store touch

A statement belongs to a scope and only leads to statements of that scope, which bounds the rows
a transaction can write. From this: which writes can add an effective participant to a
conversation, and that a transaction can only do so while it holds the conversation's lock.
-/

namespace SiliconDm.Server

open Base List

/-! ### Scopes -/

inductive Scope where
  | group (conversation : Nat)
  | deletion (uuid : String)
  | message
  | lookup (found : AccountLookup) (now : Nat)
  | upkeep
  deriving DecidableEq, Repr

def Statement.scope : Statement → Scope
  | .group g _ => .group g
  | .deletion uuid _ => .deletion uuid
  | .message _ => .message
  | .lookup found now => .lookup found now
  | .upkeep _ => .upkeep

def Task.scope : Task → Scope
  | .createGroup g .. => .group g
  | .resyncGroup g _ => .group g
  | .inviteToGroup g .. => .group g
  | .removeFromGroup g .. => .group g
  | .respondToInvitation g .. => .group g
  | .leaveGroup g .. => .group g
  | .setGroupOwners g .. => .group g
  | .deleteAccount uuid _ => .deletion uuid
  | .recordLookup found now => .lookup found now
  | .sendMessage .. => .message
  | .reviseMessage .. => .message
  | .reportStatus .. => .message
  | .acknowledge .. => .upkeep
  | .compactDeliveryState _ => .upkeep

/-- The rows a scope may write. -/
def Scope.allows : Scope → Write → Bool
  | .group g, .conversation row => row.id = g
  | .group g, .participant row => row.conversation = g
  | .group g, .owner row => row.conversation = g
  | .group g, .disown row => row.conversation = g
  | .group g, .invitation row => row.conversation = g
  | .group g, .uninvite c _ => c = g
  | .deletion uuid, .markDeleted u _ => u = uuid
  | .deletion _, .owner _ => true
  | .deletion _, .disown _ => true
  | .deletion _, .uninvite _ _ => true
  | .message, .advance _ => true
  | .message, .message _ => true
  | .message, .history _ => true
  | .message, .stream _ => true
  | .message, .delivery _ => true
  | .lookup found now, .lookup f n => f = found ∧ n = now
  | .upkeep, .acknowledge .. => true
  | .upkeep, .expire .. => true
  | _, _ => false

variable {statement : Statement} {g now c : Nat} {a : ActorRef} {t : Open} {w : Write}
  {ws : List Write}

theorem scope_of_mem_code {task : Task} (h : statement ∈ task.code) :
    statement.scope = task.scope := by
  cases task with
  | deleteAccount uuid occurred =>
    rcases mem_pair.mp h with rfl | rfl <;> rfl
  | recordLookup | reportStatus | acknowledge | compactDeliveryState | resyncGroup =>
    obtain rfl := mem_singleton.mp h
    rfl
  | sendMessage m c sender =>
    rcases mem_cons.mp h with rfl | h
    · rfl
    · rcases mem_pair.mp h with rfl | rfl <;> rfl
  | _ =>
    obtain ⟨_, _, rfl⟩ := List.mem_map.mp h
    rfl

variable {d : Database} {o : Outcome Statement Check Write Lock}

/-- The row of an invitation that is made or kept. -/
theorem invitedRow_key (d : Database) (g : Nat) (a : ActorRef) (accepted : Bool) (now : Nat) :
    (invitedRow d g a accepted now).conversation = g ∧ (invitedRow d g a accepted now).actor = a := by
  unfold invitedRow
  split
  next => exact ⟨rfl, rfl⟩
  next row h =>
    have := (mem_of_getRow_eq_some h).2
    exact ⟨congrArg Prod.fst this, congrArg Prod.snd this⟩

theorem groupStatement_scope {statement : GroupStatement} (h : groupStatement g statement d = .ok o) :
    (∀ n ∈ o.next, ∃ s, n = .group g s) ∧ ∀ w ∈ o.writes, (Scope.group g).allows w = true := by
  cases statement <;> simp only [groupStatement] at h
  case accept a now =>
    split at h
    next row hr =>
      have hk : row.conversation = g := congrArg Prod.fst (mem_of_getRow_eq_some hr).2
      split at h <;> cases h
      simp [Scope.allows, hk]
    next => cases h
  all_goals (try split at h) <;> (try split at h) <;> cases h
  all_goals simp [Scope.allows, invitedRow_key]

theorem deletionStatement_scope {uuid : String} {statement : DeletionStatement}
    (h : deletionStatement uuid statement d = .ok o) :
    (∀ n ∈ o.next, ∃ s, n = .deletion uuid s) ∧
      ∀ w ∈ o.writes, (Scope.deletion uuid).allows w = true := by
  cases statement <;> simp only [deletionStatement] at h <;> cases h
  case groups =>
    refine ⟨?_, by simp⟩
    intro n hn
    rcases mem_cons.mp hn with rfl | hn
    · exact ⟨_, rfl⟩
    rcases mem_cons.mp hn with rfl | hn
    · exact ⟨_, rfl⟩
    obtain ⟨g, -, rfl⟩ := List.mem_map.mp hn
    exact ⟨_, rfl⟩
  case disownAll | uninviteAll =>
    refine ⟨?_, by simp⟩
    intro n hn
    obtain ⟨row, -, rfl⟩ := List.mem_map.mp hn
    exact ⟨_, rfl⟩
  all_goals simp [Scope.allows]

theorem messageStatement_scope {statement : MessageStatement}
    (h : messageStatement statement d = .ok o) :
    (∀ n ∈ o.next, ∃ s, n = .message s) ∧ ∀ w ∈ o.writes, Scope.message.allows w = true := by
  cases statement <;>
    simp only [messageStatement, historyStatement, enqueueStatement] at h
  all_goals (try split at h) <;> (try split at h) <;> (try split at h) <;> cases h
  all_goals simp [Scope.allows]

theorem upkeepStatement_scope {statement : UpkeepStatement}
    (h : upkeepStatement statement d = .ok o) :
    (∀ n ∈ o.next, ∃ s, n = .upkeep s) ∧ ∀ w ∈ o.writes, Scope.upkeep.allows w = true := by
  cases statement <;> simp only [upkeepStatement] at h <;> cases h
  case compact now =>
    refine ⟨?_, by simp⟩
    intro n hn
    obtain ⟨row, -, rfl⟩ := List.mem_map.mp hn
    exact ⟨_, rfl⟩
  all_goals
    refine ⟨by simp, ?_⟩
    intro w hw
    split at hw
    · obtain rfl := mem_singleton.mp hw
      rfl
    · cases hw

theorem lookupStatement_eq_ok {found : AccountLookup} (h : lookupStatement found now d = .ok o) :
    o = { writes := [.lookup found now] } := by
  unfold lookupStatement at h
  split at h <;> cases h
  rfl

/-- A statement leads to statements of its scope and writes rows of its scope. -/
theorem Statement.exec_scope (h : statement.exec d = .ok o) :
    (∀ n ∈ o.next, n.scope = statement.scope) ∧
      ∀ w ∈ o.writes, statement.scope.allows w = true := by
  cases statement with
  | group g s =>
    obtain ⟨hnext, hws⟩ := groupStatement_scope h
    exact ⟨fun n hn => by obtain ⟨_, rfl⟩ := hnext n hn; rfl, hws⟩
  | deletion uuid s =>
    obtain ⟨hnext, hws⟩ := deletionStatement_scope h
    exact ⟨fun n hn => by obtain ⟨_, rfl⟩ := hnext n hn; rfl, hws⟩
  | message s =>
    obtain ⟨hnext, hws⟩ := messageStatement_scope h
    exact ⟨fun n hn => by obtain ⟨_, rfl⟩ := hnext n hn; rfl, hws⟩
  | lookup found now =>
    obtain rfl := lookupStatement_eq_ok h
    simp [Statement.scope, Scope.allows]
  | upkeep s =>
    obtain ⟨hnext, hws⟩ := upkeepStatement_scope h
    exact ⟨fun n hn => by obtain ⟨_, rfl⟩ := hnext n hn; rfl, hws⟩

theorem exec_eq_some (h : store.exec statement d = some o) : statement.exec d = .ok o :=
  eq_ok_of_toOption h

/-! ### The discipline of every transaction -/

/-- A group transaction that does not hold its conversation's lock yet takes it with its next
statement, or only anchors members, which takes it as well. -/
def Unlocked (g : Nat) (todo : List Statement) : Prop :=
  (∃ rest, todo = .group g .lock :: rest ∨ todo = .group g .create :: rest) ∨
    ∀ s ∈ todo, (∃ now, s = .group g (.sync now)) ∨ ∃ a now, s = .group g (.anchor a now)

/-- What holds of every open transaction: it stays in its scope, and a group transaction writes
under the lock of its conversation. -/
structure Disciplined (t : Open) : Prop where
  todo : ∀ s ∈ t.todo, s.scope = t.task.scope
  writes : ∀ w ∈ t.writes, t.task.scope.allows w = true
  guarded : ∀ g, t.task.scope = .group g →
    .conversation g ∈ t.locks ∨ t.writes = [] ∧ Unlocked g t.todo

theorem unlocked_code {task : Task} (h : task.scope = .group g) : Unlocked g task.code := by
  cases task <;> cases h
  case createGroup => exact .inl ⟨_, .inr rfl⟩
  case resyncGroup => exact .inr fun s hs => .inl ⟨_, mem_singleton.mp hs⟩
  all_goals exact .inl ⟨_, .inl rfl⟩

theorem disciplined_opened (id : Nat) (task : Task) : Disciplined (store.opened id task) where
  todo _ hs := scope_of_mem_code hs
  writes := by simp [Language.opened]
  guarded _ hg := .inr ⟨rfl, unlocked_code hg⟩

/-- The statements that take the conversation's lock. -/
theorem lock_of_create (h : groupStatement g .create d = .ok o) :
    .conversation g ∈ store.needs o := by
  simp only [groupStatement] at h
  split at h <;> cases h
  simp [Language.needs, store, Write.key]

theorem lock_of_lock (h : groupStatement g .lock d = .ok o) : .conversation g ∈ store.needs o := by
  simp only [groupStatement] at h
  split at h <;> cases h
  simp [Language.needs]

theorem lock_of_anchor (h : groupStatement g (.anchor a now) d = .ok o) :
    .conversation g ∈ store.needs o := by
  simp only [groupStatement] at h
  split at h <;> cases h
  simp [Language.needs]

theorem Disciplined.advance {rest : List Statement} (h : Disciplined t)
    (htodo : t.todo = statement :: rest) (ho : store.exec statement (store.view d t) = some o) :
    Disciplined (store.advance d t rest o) := by
  have hexec := exec_eq_some ho
  obtain ⟨hnext, hws⟩ := statement.exec_scope hexec
  have hsc : statement.scope = t.task.scope := h.todo statement (by simp [htodo])
  constructor
  · exact forall_mem_append.mpr
      ⟨fun s hs => (hnext s hs).trans hsc, fun s hs => h.todo s (by simp [htodo, hs])⟩
  · exact forall_mem_append.mpr ⟨h.writes, fun w hw => hsc ▸ hws w hw⟩
  · intro g hg
    have hlock : .conversation g ∈ store.needs o →
        .conversation g ∈ (store.advance d t rest o).locks := mem_append_right _
    rcases h.guarded g hg with hl | ⟨hw, hu⟩
    · exact .inl (mem_append_left _ hl)
    rcases hu with ⟨rest', he | he⟩ | hall
    · obtain ⟨rfl, -⟩ := List.cons.inj (htodo.symm.trans he)
      exact .inl (hlock (lock_of_lock hexec))
    · obtain ⟨rfl, -⟩ := List.cons.inj (htodo.symm.trans he)
      exact .inl (hlock (lock_of_create hexec))
    · rcases hall statement (by simp [htodo]) with ⟨now, rfl⟩ | ⟨a, now, rfl⟩
      · -- the roster scan writes nothing and leads to anchors only
        right
        cases hexec
        refine ⟨by simpa [Language.advance] using hw, .inr fun s hs => ?_⟩
        rcases mem_append.mp hs with hs | hs
        · obtain ⟨a, -, rfl⟩ := List.mem_map.mp hs
          exact .inr ⟨a, now, rfl⟩
        · exact hall s (by simp [htodo, hs])
      · exact .inl (hlock (lock_of_anchor hexec))

/-- A group transaction that has written something holds its conversation's lock. -/
theorem Disciplined.locked (h : Disciplined t) (hg : t.task.scope = .group g) (hw : t.writes ≠ []) :
    .conversation g ∈ t.locks :=
  (h.guarded g hg).resolve_right fun hr => hw hr.1

/-! ### Who takes part -/

theorem deleted_apply {u : String} (h : d.deleted u = true) : (w.apply d).deleted u = true := by
  cases w with
  | markDeleted uuid occurred =>
    refine (isDeleted_markDeleted ..).trans ?_
    simp [show isDeleted d.accounts u = true from h]
  | lookup found now =>
    simp only [Write.apply, Database.deleted]
    cases hr : recordLookup d.accounts found now with
    | error e => exact h
    | ok accounts =>
      refine (isDeleted_recordLookup hr u).trans ?_
      simp [show isDeleted d.accounts u = true from h]
  | _ => exact h

theorem mem_eligibleGroupMembers :
    a ∈ d.eligibleGroupMembers c ↔
      (∃ i ∈ d.invitations, i.conversation = c ∧ i.actor = a ∧ i.status = .accepted) ∧
        d.deleted a.id = false := by
  simp only [Database.eligibleGroupMembers, List.mem_map, mem_filter, Bool.and_eq_true,
    decide_eq_true_eq, Bool.not_eq_true']
  constructor
  · rintro ⟨i, ⟨hi, ⟨hc, hs⟩, hd⟩, rfl⟩
    exact ⟨⟨i, hi, hc, rfl, hs⟩, hd⟩
  · rintro ⟨⟨i, hi, hc, rfl, hs⟩, hd⟩
    exact ⟨i, ⟨hi, ⟨hc, hs⟩, hd⟩, rfl⟩

theorem mem_effectiveParticipants :
    a ∈ d.effectiveParticipants c ↔ ∃ group, d.isGroup c = some group ∧
      (∃ p ∈ d.participants, p.conversation = c ∧ p.actor = a) ∧
      (group = true → a ∈ d.eligibleGroupMembers c) ∧ d.deleted a.id = false := by
  unfold Database.effectiveParticipants
  cases d.isGroup c with
  | none => simp
  | some group =>
    simp only [List.mem_map, mem_filter, Bool.and_eq_true, Bool.or_eq_true,
      decide_eq_true_eq, Bool.not_eq_true', Option.some.injEq, exists_eq_left']
    constructor
    · rintro ⟨p, ⟨hp, ⟨hc, he⟩, hd⟩, rfl⟩
      exact ⟨⟨p, hp, hc, rfl⟩, fun hg => he.resolve_left (by simp [hg]), hd⟩
    · rintro ⟨⟨p, hp, hc, rfl⟩, he, hd⟩
      refine ⟨p, ⟨hp, ⟨hc, ?_⟩, hd⟩, rfl⟩
      cases group
      · exact .inl rfl
      · exact .inr (he rfl)

/-- Whether a write can make somebody an effective participant of a conversation. -/
def Write.admits (c : Nat) : Write → Bool
  | .conversation row => row.id = c
  | .participant row => row.conversation = c
  | .invitation row => row.conversation = c
  | _ => false

theorem isGroup_apply (hw : w.admits c = false) : (w.apply d).isGroup c = d.isGroup c := by
  cases w with
  | conversation row =>
    have hc : row.id ≠ c := by simpa [Write.admits] using hw
    simp [Write.apply, Database.isGroup, Database.conversation, getRow_append_singleton, hc]
  | advance c' =>
    simp only [Write.apply, Database.isGroup, Database.conversation]
    rw [getRow_map (fun row => by split <;> rfl), Option.map_map]
    congr 1
    funext row
    simp only [Function.comp_apply]
    split <;> rfl
  | _ => rfl

/-- Every other write can only end participations. -/
theorem effectiveParticipants_apply (hw : w.admits c = false)
    (h : a ∈ (w.apply d).effectiveParticipants c) : a ∈ d.effectiveParticipants c := by
  obtain ⟨group, hg, ⟨p, hp, hpc, hpa⟩, he, hd⟩ := mem_effectiveParticipants.mp h
  rw [isGroup_apply hw] at hg
  have hlive : d.deleted a.id = false := by
    cases hda : d.deleted a.id with
    | false => rfl
    | true => exact absurd (deleted_apply (w := w) hda) (by simp [hd])
  refine mem_effectiveParticipants.mpr ⟨group, hg, ⟨p, ?_, hpc, hpa⟩, fun hgrp => ?_, hlive⟩
  · cases w with
    | participant row =>
      have hc : row.conversation ≠ c := by simpa [Write.admits] using hw
      rcases mem_concat.mp hp with hp | rfl
      · exact hp
      · exact absurd hpc hc
    | _ => exact hp
  · obtain ⟨⟨i, hi, hic, hia, his⟩, -⟩ := mem_eligibleGroupMembers.mp (he hgrp)
    refine mem_eligibleGroupMembers.mpr ⟨⟨i, ?_, hic, hia, his⟩, hlive⟩
    cases w with
    | invitation row =>
      have hc : row.conversation ≠ c := by simpa [Write.admits] using hw
      rcases mem_put hi with rfl | ⟨hi, -⟩
      · exact absurd hic hc
      · exact hi
    | uninvite c' a' => exact (mem_filter.mp hi).1
    | _ => exact hi

theorem effectiveParticipants_applyAll (hw : ∀ w ∈ ws, w.admits c = false)
    (h : a ∈ (store.applyAll d ws).effectiveParticipants c) : a ∈ d.effectiveParticipants c :=
  store.applyAll_invariant (P := fun d' => a ∈ d'.effectiveParticipants c → _) id
    (fun w hmem _ ih h => ih (effectiveParticipants_apply (hw w hmem) h)) h

/-- A transaction without the conversation's lock cannot add participants to it. -/
theorem Disciplined.not_admits (h : Disciplined t) (hcov : store.Covered t)
    (hc : .conversation c ∉ t.locks) : ∀ w ∈ t.writes, w.admits c = false := by
  intro w hw
  have hk : w.key ∈ t.locks := hcov w hw
  have halw := h.writes w hw
  cases w with
  | conversation row =>
    have : row.id ≠ c := fun he => hc (he ▸ hk)
    simpa [Write.admits] using this
  | participant row =>
    have : row.conversation ≠ c := fun he => hc (he ▸ hk)
    simpa [Write.admits] using this
  | invitation row =>
    -- only a group transaction accepts invitations, and it holds the lock of its group
    cases hs : t.task.scope with
    | group g =>
      rw [hs] at halw
      have hg : row.conversation = g := by simpa [Scope.allows] using halw
      have hl := h.locked hs (ne_nil_of_mem hw)
      have : row.conversation ≠ c := fun he => hc (he ▸ hg ▸ hl)
      simpa [Write.admits] using this
    | _ => simp [hs, Scope.allows] at halw
  | _ => rfl

/-! ### Tables after the writes of a transaction -/

def messagesIn (ws : List Write) : List Message :=
  ws.filterMap fun
    | .message row => some row
    | _ => none

def deliveriesIn (ws : List Write) : List Delivery :=
  ws.filterMap fun
    | .delivery row => some row
    | _ => none

theorem mem_messagesIn {row : Message} : row ∈ messagesIn ws ↔ .message row ∈ ws := by
  simp only [messagesIn, mem_filterMap]
  constructor
  · rintro ⟨w, hw, he⟩
    cases w <;> simp at he
    exact he ▸ hw
  · intro h
    exact ⟨_, h, rfl⟩

theorem mem_deliveriesIn {row : Delivery} : row ∈ deliveriesIn ws ↔ .delivery row ∈ ws := by
  simp only [deliveriesIn, mem_filterMap]
  constructor
  · rintro ⟨w, hw, he⟩
    cases w <;> simp at he
    exact he ▸ hw
  · intro h
    exact ⟨_, h, rfl⟩

theorem deliveriesIn_append (ws ws' : List Write) :
    deliveriesIn (ws ++ ws') = deliveriesIn ws ++ deliveriesIn ws' :=
  filterMap_append

theorem messages_applyAll (d : Database) (ws : List Write) :
    (store.applyAll d ws).messages = d.messages ++ messagesIn ws := by
  induction ws generalizing d with
  | nil => simp [Language.applyAll, messagesIn]
  | cons w ws ih =>
    refine (ih (w.apply d)).trans ?_
    cases w <;> simp [messagesIn, Write.apply]

theorem message_applyAll (d : Database) (ws : List Write) (m : Nat) :
    (store.applyAll d ws).message m = (d.message m).or (getRow Message.id (messagesIn ws) m) := by
  unfold Database.message getRow
  rw [messages_applyAll, find?_append]

/-- A message that the transaction holds no lock of is as it was. -/
theorem message_view (hcov : store.Covered t) {m : Nat} (hm : .message m ∉ t.locks) :
    (store.view d t).message m = d.message m := by
  refine (message_applyAll d t.writes m).trans ?_
  have : getRow Message.id (messagesIn t.writes) m = none := by
    apply getRow_eq_none_iff.mpr
    intro row hr he
    exact hm (he ▸ hcov _ (mem_messagesIn.mp hr))
  rw [this, Option.or_none]

/-- Publishing only inserts deliveries. -/
theorem deliveries_applyAll (h : ∀ w ∈ ws, Scope.message.allows w = true) :
    (store.applyAll d ws).deliveries = d.deliveries ++ deliveriesIn ws := by
  induction ws generalizing d with
  | nil => simp [Language.applyAll, deliveriesIn]
  | cons w ws ih =>
    have hw := h w mem_cons_self
    refine (ih fun w' hw' => h w' (mem_cons_of_mem _ hw')).trans ?_
    cases w with
    | delivery row => simp [deliveriesIn, Write.apply, store]
    | advance | message | history | stream => rfl
    | _ => simp [Scope.allows] at hw

/-- Publishing leaves every conversation's participants as they are. -/
theorem effectiveParticipants_message (h : ∀ w ∈ ws, Scope.message.allows w = true) (c : Nat) :
    (store.applyAll d ws).effectiveParticipants c = d.effectiveParticipants c := by
  refine store.applyAll_eq (f := fun d => d.effectiveParticipants c) fun w hw d => ?_
  have hallow := h w hw
  cases w with
  | advance c' =>
    unfold Database.effectiveParticipants
    have hg : (store.apply d (.advance c')).isGroup c = d.isGroup c := isGroup_apply rfl
    rw [hg]
    rfl
  | message | history | stream | delivery => rfl
  | _ => simp [Scope.allows] at hallow

end SiliconDm.Server
