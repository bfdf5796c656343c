import SiliconDm.Server.Ownership

/-!
# What a transaction can take away

A membership ends only with a leave, a removal or the deletion of the account, an ownership also
with a demotion, and an account only with its deletion or with a lookup that finds it deleted.
Every other transaction keeps them, whatever commits before it does: it decided on what it read,
and nobody else can have changed the rows it is about to write.

Direct conversations have no invitations, so nobody is anchored in one.
-/

namespace SiliconDm.Server

open Base List Option

/-! ### Tasks -/

def Task.dismisses (c : Nat) (a : ActorRef) : Task → Bool
  | .leaveGroup g member _ => g = c && member = a
  | .removeFromGroup g members acquired _ => g = c && acquired && a ∈ members
  | .deleteAccount uuid _ => a.id = uuid
  | _ => false

def Task.disowns (c : Nat) (a : ActorRef) : Task → Bool
  | .setGroupOwners g members promote acquired _ => g = c && acquired && !promote && a ∈ members
  | task => task.dismisses c a

def Task.ends (uuid : String) : Task → Bool
  | .deleteAccount u _ => u = uuid
  | .recordLookup found _ => found.deleted && found.uuid = uuid
  | _ => false

def Statement.dismisses (c : Nat) (a : ActorRef) : Statement → Bool
  | .group g (.uninvite a') => g = c && a' = a
  | .group g (.leave a') => g = c && a' = a
  | .deletion _ (.uninvite g a') => g = c && a' = a
  | _ => false

def Statement.disowns (c : Nat) (a : ActorRef) : Statement → Bool
  | .group g (.disown a') => g = c && a' = a
  | .deletion _ (.disown g a') => g = c && a' = a
  | _ => false

/-! ### Writes that keep a membership or an ownership -/

variable {d : Database} {c g : Nat} {a : ActorRef} {o : Outcome Statement Check Write Lock}

def KeepsMember (ws : List Write) (c : Nat) (a : ActorRef) : Prop :=
  ∀ d : Database, d.member c a = true → (store.applyAll d ws).member c a = true

def KeepsOwner (ws : List Write) (c : Nat) (a : ActorRef) : Prop :=
  ∀ d : Database, d.owns c a = true → (store.applyAll d ws).owns c a = true

variable {ws ws' : List Write} {row : Invitation} {uuid : String} {s : Statement} {task : Task}

theorem KeepsMember.append (h : KeepsMember ws c a) (h' : KeepsMember ws' c a) :
    KeepsMember (ws ++ ws') c a := by
  intro d hd
  rw [Language.applyAll_append]
  exact h' _ (h d hd)

theorem KeepsOwner.append (h : KeepsOwner ws c a) (h' : KeepsOwner ws' c a) :
    KeepsOwner (ws ++ ws') c a := by
  intro d hd
  rw [Language.applyAll_append]
  exact h' _ (h d hd)

section

variable (h : ∀ w ∈ ws, w.key ≠ .invitation c a)
include h

/-- The invitation of an account is changed only by writes of its row. -/
theorem invitation_applyAll :
    (store.applyAll d ws).invitation c a = d.invitation c a := by
  refine store.applyAll_eq (f := fun d => d.invitation c a) fun w hw d => ?_
  have hkey := h w hw
  cases w with
  | invitation row =>
    have hne : (c, a) ≠ row.key := fun he => hkey (by
      simp only [Invitation.key, Prod.mk.injEq] at he
      simp [Write.key, he])
    exact (getRow_put _ _).trans (if_neg hne)
  | uninvite c' a' =>
    have hne : (c, a) ≠ (c', a') := fun he => hkey (by
      simp only [Prod.mk.injEq] at he
      simp [Write.key, he])
    exact getRow_filter_of_true fun i hi => by simp [hi, hne]
  | _ => rfl

theorem member_applyAll :
    (store.applyAll d ws).member c a = d.member c a := by
  unfold Database.member
  rw [invitation_applyAll h]

theorem keepsMember_of_key : KeepsMember ws c a :=
  fun _ hd => (member_applyAll h).trans hd

end

theorem keepsMember_accepted (h : row.status = .accepted) : KeepsMember [.invitation row] c a := by
  intro d hd
  refine (member_invitation row c a).trans ?_
  split
  · simpa using h
  · exact hd

/-- The write of an invitation keeps a membership, or there was none and the row is now
locked. -/
theorem keepsMember_invitation
    (h : row.status ≠ .accepted → d.member row.conversation row.actor = false) :
    KeepsMember [.invitation row] c a ∨
      d.member c a = false ∧ .invitation c a ∈ [Write.invitation row].map Write.key := by
  by_cases hs : row.status = .accepted
  · exact .inl (keepsMember_accepted hs)
  by_cases hk : row.conversation = c ∧ row.actor = a
  · obtain ⟨rfl, rfl⟩ := hk
    exact .inr ⟨h hs, by simp [Write.key]⟩
  · left
    apply keepsMember_of_key
    intro w hw
    obtain rfl := mem_singleton.mp hw
    simpa [Write.key] using hk

theorem keepsMember_uninvite {c' : Nat} {a' : ActorRef}
    (h : (c', a') = (c, a) → d.member c a = false) :
    KeepsMember [.uninvite c' a'] c a ∨
      d.member c a = false ∧ .invitation c a ∈ [Write.uninvite c' a'].map Write.key := by
  by_cases hk : (c', a') = (c, a)
  · obtain ⟨rfl, rfl⟩ := Prod.mk.inj hk
    exact .inr ⟨h rfl, by simp [Write.key]⟩
  · left
    apply keepsMember_of_key
    intro w hw
    obtain rfl := mem_singleton.mp hw
    simpa [Write.key] using hk

theorem not_member_of_status (h : d.invitation c a = some row) (hs : row.status ≠ .accepted) :
    d.member c a = false := by
  simp [Database.member, h, hs]

theorem invitedRow_status (d : Database) (g : Nat) (a : ActorRef) (accepted : Bool) (now : Nat)
    (h : (invitedRow d g a accepted now).status ≠ .accepted) : d.member g a = false := by
  unfold invitedRow at h
  split at h
  next hn => simp [Database.member, hn]
  next row hr =>
    apply not_member_of_status hr
    intro hs
    simp [hs] at h

/-- The writes of the other scopes are not of invitations. -/
theorem key_ne_invitation {scope : Scope} (hgrp : ∀ g, scope ≠ .group g)
    (hdeletion : ∀ uuid, scope ≠ .deletion uuid) {w : Write} (hw : scope.allows w = true) :
    w.key ≠ .invitation c a := by
  cases scope with
  | group g => exact absurd rfl (hgrp g)
  | deletion uuid => exact absurd rfl (hdeletion uuid)
  | message | lookup | upkeep => cases w <;> simp [Scope.allows, Write.key] at hw ⊢

/-- A group statement that does not dismiss a member keeps it, or it is none. -/
theorem keepsMember_group {s : GroupStatement} (hs : (Statement.group g s).dismisses c a = false)
    (h : groupStatement g s d = .ok o) :
    KeepsMember o.writes c a ∨
      d.member c a = false ∧ .invitation c a ∈ o.writes.map Write.key := by
  cases s with
  | invite a' accepted now =>
    cases h
    obtain ⟨hg, ha⟩ := invitedRow_key d g a' accepted now
    apply keepsMember_invitation
    intro hstat
    rw [hg, ha]
    exact invitedRow_status d g a' accepted now hstat
  | accept a' now =>
    simp only [groupStatement] at h
    split at h
    next row hr =>
      split at h <;> cases h
      exact .inl (keepsMember_accepted rfl)
    next => cases h
  | decline a' =>
    simp only [groupStatement] at h
    split at h <;> cases h
    next hpend =>
      apply keepsMember_uninvite
      rintro he
      obtain ⟨rfl, rfl⟩ := Prod.mk.inj he
      simp only [Option.any_eq_true, decide_eq_true_eq] at hpend
      obtain ⟨row, hr, hstat⟩ := hpend
      exact not_member_of_status hr (by simp [hstat])
  | uninvite a' =>
    have hne : (g, a') ≠ (c, a) := by simpa [Statement.dismisses] using hs
    cases h
    split
    · exact keepsMember_uninvite fun he => absurd he hne
    · exact .inl (keepsMember_of_key (by simp))
  | leave a' =>
    have hne : (g, a') ≠ (c, a) := by simpa [Statement.dismisses] using hs
    simp only [groupStatement] at h
    split at h <;> cases h
    exact keepsMember_uninvite fun he => absurd he hne
  | create | lock | own | disown | requireMember | requireAnOwner | sync | anchor | touch =>
    left
    apply keepsMember_of_key
    simp only [groupStatement] at h
    first
    | (split at h <;> cases h <;> simp [Write.key])
    | (cases h; simp [Write.key])

theorem keepsMember_deletion {s : DeletionStatement}
    (hs : (Statement.deletion uuid s).dismisses c a = false)
    (h : deletionStatement uuid s d = .ok o) : KeepsMember o.writes c a := by
  apply keepsMember_of_key
  cases s with
  | uninvite g a' =>
    have hne : (g, a') ≠ (c, a) := by simpa [Statement.dismisses] using hs
    cases h
    split
    · simpa [Write.key] using hne
    · simp
  | mark | groups | disownAll | uninviteAll | ensureOwner | succeed =>
    cases h
    simp [Write.key]
  | disown | own =>
    cases h
    split <;> simp [Write.key]

/-- A statement that does not dismiss a member keeps it, or it is none. -/
theorem keepsMember_exec (hs : s.dismisses c a = false) (h : s.exec d = .ok o) :
    KeepsMember o.writes c a ∨
      d.member c a = false ∧ .invitation c a ∈ o.writes.map Write.key := by
  cases s with
  | group g s => exact keepsMember_group hs h
  | deletion uuid s => exact .inl (keepsMember_deletion hs h)
  | message | lookup | upkeep =>
    exact .inl (keepsMember_of_key fun w hw => key_ne_invitation (by simp [Statement.scope])
      (by simp [Statement.scope]) ((Statement.exec_scope h).2 w hw))

theorem keepsOwner_of_not_mem (h : .disown ⟨c, a⟩ ∉ ws) : KeepsOwner ws c a := by
  intro d hd
  induction ws generalizing d with
  | nil => exact hd
  | cons w ws ih =>
    apply ih fun hm => h (mem_cons_of_mem _ hm)
    cases w with
    | owner row => exact (owns_owner row c a).trans (by simp [hd])
    | disown row =>
      have hne : ⟨c, a⟩ ≠ row := fun he => h (by simp [he])
      exact (owns_disown row c a).trans (by simp [hd, hne])
    | _ => exact hd

/-- Ownerships are ended by the statements that say so. -/
theorem disown_of_exec (h : s.exec d = .ok o) (hw : .disown ⟨c, a⟩ ∈ o.writes) :
    s.disowns c a = true := by
  have halw := (Statement.exec_scope h).2 _ hw
  cases s with
  | group g s =>
    cases s <;> simp only [Statement.exec, groupStatement] at h
    case disown a' =>
      cases h
      split at hw <;> simp_all [Statement.disowns]
    all_goals (try split at h) <;> (try split at h) <;> cases h
    all_goals simp at hw
  | deletion uuid s =>
    cases s <;> simp only [Statement.exec, deletionStatement] at h
    case disown g a' =>
      cases h
      split at hw <;> simp_all [Statement.disowns]
    all_goals
      cases h
      simp at hw
  | message | lookup | upkeep => simp [Statement.scope, Scope.allows] at halw

theorem keepsOwner_exec (hs : s.disowns c a = false) (h : s.exec d = .ok o) :
    KeepsOwner o.writes c a :=
  keepsOwner_of_not_mem fun hm => by simp [disown_of_exec h hm] at hs

/-! ### What the statements of a task are -/

theorem dismisses_of_code (h : s ∈ task.code) (hs : s.dismisses c a = true) :
    task.dismisses c a = true := by
  have hshape : s = .group c (.uninvite a) ∨ s = .group c (.leave a) ∨
      ∃ uuid, s = .deletion uuid (.uninvite c a) := by
    unfold Statement.dismisses at hs
    split at hs <;> simp_all
  cases task with
  | respondToInvitation g invitee accept now =>
    cases accept <;> rcases hshape with rfl | rfl | ⟨uuid, rfl⟩ <;>
      simp [Task.code, respondToInvitation, finishGroup] at h
  | setGroupOwners g members promote acquired now =>
    cases promote <;> rcases hshape with rfl | rfl | ⟨uuid, rfl⟩ <;>
      simp [Task.code, claimed, setGroupOwners, finishGroup] at h
  | _ =>
    rcases hshape with rfl | rfl | ⟨uuid, rfl⟩ <;>
      simp_all [Task.code, createGroup, inviteIn, claimed, removeFromGroup, leaveGroup,
        finishGroup, reviseMessage, Task.dismisses]

theorem disowns_of_code (h : s ∈ task.code) (hs : s.disowns c a = true) :
    task.disowns c a = true := by
  have hshape : s = .group c (.disown a) ∨ ∃ uuid, s = .deletion uuid (.disown c a) := by
    unfold Statement.disowns at hs
    split at hs <;> simp_all
  cases task with
  | respondToInvitation g invitee accept now =>
    cases accept <;> rcases hshape with rfl | ⟨uuid, rfl⟩ <;>
      simp [Task.code, respondToInvitation, finishGroup] at h
  | setGroupOwners g members promote acquired now =>
    cases promote <;> rcases hshape with rfl | ⟨uuid, rfl⟩ <;>
      simp_all [Task.code, claimed, setGroupOwners, finishGroup, Task.disowns]
  | _ =>
    rcases hshape with rfl | ⟨uuid, rfl⟩ <;>
      simp_all [Task.code, createGroup, inviteIn, claimed, removeFromGroup, leaveGroup,
        finishGroup, reviseMessage, Task.disowns, Task.dismisses]

/-- Statements that follow from others dismiss or disown only the account they delete. -/
theorem deletion_of_next {n : Statement} (h : s.exec d = .ok o) (hn : n ∈ o.next)
    (hs : n.dismisses c a = true ∨ n.disowns c a = true) : s.scope = .deletion a.id := by
  have hsc := (Statement.exec_scope h).1 n hn
  cases s with
  | group g s =>
    cases s <;> simp only [Statement.exec, groupStatement] at h
    case sync now =>
      cases h
      obtain ⟨a', -, rfl⟩ := List.mem_map.mp hn
      simp [Statement.dismisses, Statement.disowns] at hs
    all_goals (try split at h) <;> (try split at h) <;> cases h
    all_goals simp at hn
  | deletion uuid s =>
    cases s with
    | disownAll | uninviteAll =>
      cases h
      simp only [List.mem_map, mem_filter, decide_eq_true_eq] at hn
      obtain ⟨row, ⟨-, rfl⟩, rfl⟩ := hn
      simp only [Statement.dismisses, Statement.disowns, Bool.and_eq_true, decide_eq_true_eq,
        Bool.false_eq_true, false_or, or_false] at hs
      simp [Statement.scope, hs]
    | groups =>
      cases h
      simp only [mem_cons, List.mem_map] at hn
      rcases hn with rfl | rfl | ⟨g, -, rfl⟩ <;>
        simp [Statement.dismisses, Statement.disowns] at hs
    | ensureOwner g =>
      cases h
      split at hn <;> simp at hn
      subst hn
      simp [Statement.dismisses, Statement.disowns] at hs
    | succeed g =>
      cases h
      simp only [mem_toList, map_eq_some_iff] at hn
      obtain ⟨a', -, rfl⟩ := hn
      simp [Statement.dismisses, Statement.disowns] at hs
    | mark | disown | uninvite | own =>
      cases h
      simp at hn
  | message | lookup | upkeep =>
    cases n <;> simp [Statement.scope, Statement.dismisses, Statement.disowns] at hsc hs

/-! ### Every open transaction -/

/-- The conversation is a group, or the transaction creates it as one. -/
def Grouped (d : Database) (t : Open) (g : Nat) : Prop :=
  d.isGroup g = some true ∨
    d.isGroup g = none ∧ ∃ row, .conversation row ∈ t.writes ∧ row.id = g

structure Founded (d : Database) : Prop where
  keyed : Keyed Invitation.key d.invitations
  groups : ∀ i ∈ d.invitations, d.isGroup i.conversation = some true

/-- What an open transaction of the store can do to memberships and ownerships. -/
structure Standing (d : Database) (t : Open) : Prop where
  disciplined : Disciplined t
  dismisses : ∀ c a, ∀ s ∈ t.todo, s.dismisses c a = true → t.task.dismisses c a = true
  disowns : ∀ c a, ∀ s ∈ t.todo, s.disowns c a = true → t.task.disowns c a = true
  member : ∀ c a, t.task.dismisses c a = false →
    KeepsMember t.writes c a ∨ d.member c a = false ∧ .invitation c a ∈ t.locks
  owner : ∀ c a, t.task.disowns c a = false → KeepsOwner t.writes c a
  grouped : ∀ g, t.task.scope = .group g →
    Grouped d t g ∨ t.writes = [] ∧ (t.todo = t.task.code ∨ t.todo = [])
  created : ∀ row, .conversation row ∈ t.writes → row.isGroup = true
  inserts : ∀ m c a, .message (.insert m c a) ∈ t.todo → t.task = .sendMessage m c a
  messages : ∀ row, .message row ∈ t.writes →
    t.task = .sendMessage row.id row.conversation row.sender

variable {t u : Open} {statement : Statement} {rest : List Statement}

theorem dismisses_of_scope (h : task.scope = .deletion a.id) :
    task.dismisses c a = true ∧ task.disowns c a = true := by
  cases task <;> cases h
  simp [Task.disowns, Task.dismisses]

/-- Only sending inserts messages. -/
theorem sendMessage_of_code {m : Nat} (h : .message (.insert m c a) ∈ task.code) :
    task = .sendMessage m c a := by
  cases task with
  | sendMessage m' c' a' => simp_all [Task.code]
  | reviseMessage m' c' actor reviser content now =>
    cases content <;> simp [Task.code, reviseMessage] at h
  | _ => simp [Task.code] at h

theorem standing_opened (d : Database) (id : Nat) (task : Task) :
    Standing d (store.opened id task) where
  disciplined := disciplined_opened id task
  dismisses c a s hs := dismisses_of_code hs
  disowns c a s hs := disowns_of_code hs
  member c a _ := .inl fun _ hd => hd
  owner c a _ := fun _ hd => hd
  grouped g _ := .inr ⟨rfl, .inl rfl⟩
  created := by simp [Language.opened]
  inserts m c a hm := sendMessage_of_code hm
  messages := by simp [Language.opened]

/-- A conversation that a statement creates is a group. -/
theorem isGroup_of_exec {row : Conversation} (h : statement.exec d = .ok o)
    (hw : .conversation row ∈ o.writes) : row.isGroup = true := by
  have halw := (Statement.exec_scope h).2 _ hw
  cases statement with
  | group g s =>
    cases s <;> simp only [Statement.exec, groupStatement] at h
    all_goals (try split at h) <;> (try split at h) <;> cases h
    all_goals simp_all
  | deletion | message | lookup | upkeep => simp [Statement.scope, Scope.allows] at halw

/-- A message is inserted by the statement that says so, and none such follows from others. -/
theorem insert_of_exec (h : statement.exec d = .ok o) :
    (∀ row, .message row ∈ o.writes →
      statement = .message (.insert row.id row.conversation row.sender)) ∧
    ∀ m c a, .message (.insert m c a) ∉ o.next := by
  have hsc := Statement.exec_scope h
  cases statement with
  | message s =>
    cases s <;>
      simp only [Statement.exec, messageStatement, historyStatement, enqueueStatement] at h
    all_goals (try split at h) <;> (try split at h) <;> (try split at h) <;> cases h
    all_goals simp
  | group | deletion | lookup | upkeep =>
    constructor
    · intro row hw
      have := hsc.2 _ hw
      simp [Statement.scope, Scope.allows] at this
    · intro m c a hn
      have := hsc.1 _ hn
      simp [Statement.scope] at this

/-- The first statement of a group request. -/
theorem head_of_code (h : task.scope = .group g) :
    (∃ rest, task.code = .group g .lock :: rest) ∨
      (∃ rest, task.code = .group g .create :: rest) ∨
        ∃ now, task.code = [.group g (.sync now)] := by
  cases task <;> cases h
  case createGroup => exact .inr (.inl ⟨_, rfl⟩)
  case resyncGroup => exact .inr (.inr ⟨_, rfl⟩)
  all_goals exact .inl ⟨_, rfl⟩

theorem Standing.advance (h : Standing d t) (hd : Founded d) (htodo : t.todo = statement :: rest)
    (ho : store.exec statement (store.view d t) = some o) :
    Standing d (store.advance d t rest o) := by
  have hexec := exec_eq_some ho
  have hm : statement ∈ t.todo := by simp [htodo]
  have hsc : statement.scope = t.task.scope := h.disciplined.todo statement hm
  have hrest {s : Statement} (hs : s ∈ rest) : s ∈ t.todo := by simp [htodo, hs]
  constructor
  case disciplined => exact h.disciplined.advance htodo ho
  case dismisses =>
    intro c a s hs hdis
    rcases mem_append.mp hs with hs | hs
    · have := deletion_of_next hexec hs (.inl hdis)
      exact (dismisses_of_scope (hsc ▸ this)).1
    · exact h.dismisses c a s (hrest hs) hdis
  case disowns =>
    intro c a s hs hdis
    rcases mem_append.mp hs with hs | hs
    · have := deletion_of_next hexec hs (.inr hdis)
      exact (dismisses_of_scope (hsc ▸ this)).2
    · exact h.disowns c a s (hrest hs) hdis
  case member =>
    intro c a (htask : t.task.dismisses c a = false)
    have hs : statement.dismisses c a = false := by
      by_contra hdis
      simp [h.dismisses c a statement hm (by simpa using hdis)] at htask
    rcases h.member c a htask with hkp | ⟨hn, hlock⟩
    · rcases keepsMember_exec hs hexec with hkp' | ⟨hn, hk⟩
      · exact .inl (hkp.append hkp')
      · right
        refine ⟨?_, mem_append_right _ (mem_append_right _ hk)⟩
        by_contra hmbr
        have := hkp d (by simpa using hmbr)
        rw [show store.applyAll d t.writes = store.view d t from rfl, hn] at this
        cases this
    · exact .inr ⟨hn, mem_append_left _ hlock⟩
  case owner =>
    intro c a (htask : t.task.disowns c a = false)
    have hs : statement.disowns c a = false := by
      by_contra hdis
      simp [h.disowns c a statement hm (by simpa using hdis)] at htask
    exact (h.owner c a htask).append (keepsOwner_exec hs hexec)
  case grouped =>
    intro g hg
    rcases h.grouped g hg with hgrouped | ⟨hw, hcode | hnil⟩
    · left
      rcases hgrouped with hgrp | ⟨hn, row, hr, hid⟩
      · exact .inl hgrp
      · exact .inr ⟨hn, row, mem_append_left _ hr, hid⟩
    · -- the first statement of the request, which reads what is committed
      have hview : store.view d t = d := by simp [Language.view, Language.applyAll, hw]
      rw [hview] at hexec
      rw [hcode] at htodo
      rcases head_of_code hg with ⟨rest', hc⟩ | ⟨rest', hc⟩ | ⟨now, hc⟩
      · obtain ⟨rfl, -⟩ := List.cons.inj (htodo.symm.trans hc)
        simp only [Statement.exec, groupStatement] at hexec
        split at hexec <;> cases hexec
        next hgrp => exact .inl (.inl hgrp)
      · obtain ⟨rfl, -⟩ := List.cons.inj (htodo.symm.trans hc)
        simp only [Statement.exec, groupStatement] at hexec
        split at hexec <;> cases hexec
        next hn =>
          exact .inl (.inr ⟨by simpa [Database.isGroup] using hn, _,
            mem_append_right _ mem_cons_self, rfl⟩)
      · obtain ⟨rfl, rfl⟩ := List.cons.inj (htodo.symm.trans hc)
        cases hexec
        -- an eligible member has an invitation
        cases hmembers : d.eligibleGroupMembers g with
        | nil =>
          exact .inr ⟨by simp [Language.advance, hw], .inr (by simp [Language.advance])⟩
        | cons a as =>
          have ha : a ∈ d.eligibleGroupMembers g := by simp [hmembers]
          obtain ⟨⟨i, hi, rfl, -⟩, -⟩ := mem_eligibleGroupMembers.mp ha
          exact .inl (.inl (hd.groups i hi))
    · rw [hnil] at htodo
      cases htodo
  case created =>
    exact fun row hr => (mem_append.mp hr).elim (h.created row) (isGroup_of_exec hexec)
  case inserts =>
    intro m c a hs
    rcases mem_append.mp hs with hs | hs
    · exact absurd hs ((insert_of_exec hexec).2 m c a)
    · exact h.inserts m c a (hrest hs)
  case messages =>
    exact fun row hr => (mem_append.mp hr).elim (h.messages row) fun hr =>
      h.inserts _ _ _ ((insert_of_exec hexec).1 row hr ▸ hm)

/-! ### Commits -/

/-- The kind of a conversation after one write. -/
theorem isGroup_write (w : Write) :
    (w.apply d).isGroup g = (d.isGroup g).or (match w with
      | .conversation row => if row.id = g then some row.isGroup else none
      | _ => none) := by
  cases w with
  | conversation row =>
    simp only [Write.apply, Database.isGroup, Database.conversation, getRow_append_singleton,
      map_or]
    split <;> rfl
  | advance c =>
    rw [isGroup_apply rfl]
    exact or_none.symm
  | _ => exact or_none.symm

theorem isGroup_view {group : Bool} (h : d.isGroup g = some group) :
    (store.applyAll d ws).isGroup g = some group :=
  store.applyAll_invariant (P := fun d => d.isGroup g = some group) h
    fun w _ _ hd => (isGroup_write w).trans (by rw [hd]; rfl)

theorem isGroup_view_none (h : d.isGroup g = none)
    (hws : ∀ row, .conversation row ∈ ws → row.id ≠ g) :
    (store.applyAll d ws).isGroup g = none := by
  refine store.applyAll_invariant (P := fun d => d.isGroup g = none) h fun w hw d hd => ?_
  refine (isGroup_write w).trans ?_
  rw [hd, none_or]
  split
  next row => exact if_neg (hws row hw)
  next => rfl

/-- A transaction that creates conversations creates groups. -/
theorem isGroup_view_created {row : Conversation} (h : d.isGroup g = none)
    (hws : ∀ row, .conversation row ∈ ws → row.isGroup = true) (hr : .conversation row ∈ ws)
    (hid : row.id = g) : (store.applyAll d ws).isGroup g = some true := by
  induction ws generalizing d with
  | nil => cases hr
  | cons w ws ih =>
    have hws' : ∀ row, .conversation row ∈ ws → row.isGroup = true := fun row hr =>
      hws row (mem_cons_of_mem _ hr)
    have hw := isGroup_write (d := d) (g := g) w
    rw [h, none_or] at hw
    cases hnow : (w.apply d).isGroup g with
    | some group =>
      -- this write has created it
      have hgrp : group = true := by
        rw [hnow] at hw
        split at hw
        next row' =>
          split at hw
          next => exact (Option.some.inj hw).trans (hws row' mem_cons_self)
          next => cases hw
        next => cases hw
      subst hgrp
      exact isGroup_view (d := w.apply d) hnow
    | none =>
      refine ih hnow hws' ?_
      rcases mem_cons.mp hr with rfl | hr
      · simp [hid, hnow] at hw
      · exact hr

theorem Standing.isGroup_view (h : Standing d t) (hg : Grouped d t g) :
    (store.view d t).isGroup g = some true := by
  rcases hg with hgrp | ⟨hn, row, hr, hid⟩
  · exact Server.isGroup_view hgrp
  · exact isGroup_view_created hn h.created hr hid

theorem mem_invitations_applyAll {i : Invitation} (h : i ∈ (store.applyAll d ws).invitations) :
    i ∈ d.invitations ∨ .invitation i ∈ ws := by
  refine store.applyAll_invariant (P := fun d' => i ∈ d'.invitations → _) .inl
    (fun w hw d' ih h => ?_) h
  cases w with
  | invitation row =>
    rcases mem_put h with rfl | ⟨h, -⟩
    · exact .inr hw
    · exact ih h
  | uninvite c a => exact ih (mem_filter.mp h).1
  | _ => exact ih h

/-- A transaction that writes rows of a group has its group. -/
theorem Standing.grouped_of_write (h : Standing d t) {w : Write} (hw : w ∈ t.writes)
    (hg : t.task.scope = .group g) : Grouped d t g := by
  rcases h.grouped g hg with hgrouped | ⟨hnil, -⟩
  · exact hgrouped
  · rw [hnil] at hw
    cases hw

theorem Standing.commit (h : Standing d t) (hd : Founded d) : Founded (store.view d t) where
  keyed := keyed_applyAll hd.keyed
  groups i hi := by
    rcases mem_invitations_applyAll hi with hold | hnew
    · exact Server.isGroup_view (hd.groups i hold)
    · have halw := h.disciplined.writes _ hnew
      cases hs : t.task.scope with
      | group g =>
        rw [hs] at halw
        have hg : i.conversation = g := by simpa [Scope.allows] using halw
        rw [hg]
        exact h.isGroup_view (h.grouped_of_write hnew hs)
      | _ => simp [hs, Scope.allows] at halw

theorem Standing.rely (ht : Standing d t) (hct : store.Covered t) (hcu : store.Covered u)
    (hdis : t.locks.Disjoint u.locks) : Standing (store.view d u) t where
  disciplined := ht.disciplined
  dismisses := ht.dismisses
  disowns := ht.disowns
  member c a htask := by
    rcases ht.member c a htask with hkp | ⟨hn, hlock⟩
    · exact .inl hkp
    · refine .inr ⟨?_, hlock⟩
      exact (member_applyAll fun w hw hk => hdis hlock (hk ▸ hcu w hw)).trans hn
  owner := ht.owner
  grouped g hg := by
    rcases ht.grouped g hg with (hgrp | ⟨hn, row, hr, hid⟩) | hinit
    · exact .inl (.inl (Server.isGroup_view hgrp))
    · refine .inl (.inr ⟨isGroup_view_none hn fun row' hr' hid' => ?_, row, hr, hid⟩)
      have hlock : .conversation g ∈ t.locks := hid ▸ hct _ hr
      exact hdis hlock (hid' ▸ hcu _ hr')
    · exact .inr hinit
  created := ht.created
  inserts := ht.inserts
  messages := ht.messages

theorem standing_relyGuarantee :
    store.RelyGuarantee (fun _ _ => true) (fun _ _ => true) Founded Standing where
  start d id task _ := standing_opened d id task
  exec _ _ _ _ _ hd ht _ htodo ho := ht.advance hd htodo ho
  commit _ _ hd ht _ _ _ := ht.commit hd
  rely _ _ _ _ ht _ hct hcu hdis _ _ _ := ht.rely hct hcu hdis

/-! ### What a commit leaves -/

theorem Standing.member_view (h : Standing d t) (htask : t.task.dismisses c a = false)
    (hm : d.member c a = true) : (store.view d t).member c a = true := by
  rcases h.member c a htask with hkp | ⟨hn, -⟩
  · exact hkp d hm
  · rw [hm] at hn
    cases hn

theorem Standing.owns_view (h : Standing d t) (htask : t.task.disowns c a = false)
    (ho : d.owns c a = true) : (store.view d t).owns c a = true :=
  h.owner c a htask d ho

def Write.ends (uuid : String) : Write → Bool
  | .markDeleted u _ => u = uuid
  | .lookup found _ => found.deleted && found.uuid = uuid
  | _ => false

theorem deleted_of_applyAll (h : (store.applyAll d ws).deleted uuid = true) :
    d.deleted uuid = true ∨ ∃ w ∈ ws, w.ends uuid = true := by
  refine store.applyAll_invariant (P := fun d' => d'.deleted uuid = true → _) .inl
    (fun w hw d' ih h => ?_) h
  cases w with
  | markDeleted u occurred =>
    have h : isDeleted (markDeleted d'.accounts u occurred) uuid = true := h
    simp only [isDeleted_markDeleted, Bool.or_eq_true, decide_eq_true_eq] at h
    rcases h with rfl | h
    · exact .inr ⟨_, hw, by simp [Write.ends]⟩
    · exact ih h
  | lookup found now =>
    rcases (deleted_lookup found now uuid).mp h with h | ⟨rfl, hdel, -⟩
    · exact ih h
    · exact .inr ⟨_, hw, by simp [Write.ends, hdel]⟩
  | _ => exact ih h

/-- Only a deletion, or a lookup that finds it deleted, ends an account. -/
theorem Standing.deleted_view (h : Standing d t) (hdel : (store.view d t).deleted uuid = true) :
    d.deleted uuid = true ∨ t.task.ends uuid = true := by
  rcases deleted_of_applyAll hdel with hold | ⟨w, hw, hends⟩
  · exact .inl hold
  right
  have halw := h.disciplined.writes w hw
  cases w with
  | markDeleted u occurred | lookup found now =>
    cases htask : t.task <;> simp_all [Task.scope, Scope.allows, Write.ends, Task.ends]
  | _ => cases hends

theorem participants_applyAll (d : Database) (ws : List Write) :
    (store.applyAll d ws).participants = d.participants ++ ws.filterMap fun
      | .participant row => some row
      | _ => none := by
  unfold Language.applyAll
  induction ws generalizing d with
  | nil => simp
  | cons w ws ih =>
    rw [foldl_cons, ih]
    cases w <;> simp [store, Write.apply]

/-- Nobody is added to a direct conversation. -/
theorem Standing.participant_direct (h : Standing d t)
    (hdir : (store.view d t).isGroup c = some false) {p : Participant}
    (hp : p ∈ (store.view d t).participants) (hc : p.conversation = c) : p ∈ d.participants := by
  rw [Language.view, participants_applyAll] at hp
  rcases mem_append.mp hp with hold | hnew
  · exact hold
  obtain ⟨w, hw, he⟩ := mem_filterMap.mp hnew
  cases w with
  | participant row =>
    cases he
    have halw := h.disciplined.writes _ hw
    cases hs : t.task.scope with
    | group g =>
      rw [hs] at halw
      have hg : p.conversation = g := by simpa [Scope.allows] using halw
      have := h.isGroup_view (h.grouped_of_write hw hs)
      rw [← hg, hc, hdir] at this
      cases this
    | _ => simp [hs, Scope.allows] at halw
  | _ => cases he

theorem Standing.isGroup_direct (h : Standing d t)
    (hdir : (store.view d t).isGroup c = some false) : d.isGroup c = some false := by
  cases hd : d.isGroup c with
  | some group =>
    rw [← hdir]
    exact (Server.isGroup_view hd).symm
  | none =>
    -- the conversations a transaction creates are groups
    by_cases hnew : ∃ row, .conversation row ∈ t.writes ∧ row.id = c
    · obtain ⟨row, hr, hid⟩ := hnew
      have hgrp : (store.view d t).isGroup c = some true :=
        isGroup_view_created hd h.created hr hid
      rw [hdir] at hgrp
      cases hgrp
    · have hn : (store.view d t).isGroup c = none :=
        isGroup_view_none hd fun row hr hid => hnew ⟨row, hr, hid⟩
      rw [hdir] at hn
      cases hn

end SiliconDm.Server
