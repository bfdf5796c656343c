import Mathlib.Data.List.Dedup
import SiliconDm.Base.Serial
import SiliconDm.Server.Footprint

/-!
# Groups keep an owner

Group requests serialize on the conversation row; account deletions and lookups do not take it.
A group is in order when every owner is a member and, as long as a member with an account is
left, some owner with an account is. Each request that runs alone keeps this, apart from a few
that do not look (an acceptance into a group that nobody leads, a lookup that finds an account
deleted). Source: `groups.rs:164–434,592–638`, `accounts.rs:189–240,554–611`.
-/

namespace SiliconDm.Server

open Base List

/-! ### What a group is -/

structure Roster where
  members : ActorRef → Prop
  owners : ActorRef → Prop
  live : ActorRef → Prop

/-- Somebody with an account leads the group, and only members do. -/
structure Roster.Led (r : Roster) : Prop where
  owners : ∀ a, r.owners a → r.members a
  led : ∃ a, r.owners a ∧ r.live a

/-- Owners are members, and while a member with an account is left, one of them leads. -/
structure Roster.Sound (r : Roster) : Prop where
  owners : ∀ a, r.owners a → r.members a
  led : (∃ a, r.members a ∧ r.live a) → ∃ a, r.owners a ∧ r.live a

theorem Roster.Led.sound {r : Roster} (h : r.Led) : r.Sound :=
  ⟨h.owners, fun _ => h.led⟩

def Database.roster (d : Database) (g : Nat) : Roster where
  members a := d.member g a = true
  owners a := d.owns g a = true
  live a := d.deleted a.id = false

variable {d : Database} {ws : List Write} {w : Write}

theorem hasOwner_iff {g : Nat} :
    d.hasOwner g = true ↔ ∃ a, (d.roster g).owners a ∧ (d.roster g).live a := by
  simp only [Database.hasOwner, List.any_eq_true, Bool.and_eq_true, decide_eq_true_eq,
    Bool.not_eq_true', Database.roster, Database.owns]
  constructor
  · rintro ⟨o, ho, rfl, hd⟩
    exact ⟨o.actor, ho, hd⟩
  · rintro ⟨a, ha, hd⟩
    exact ⟨⟨g, a⟩, ha, rfl, hd⟩

/-- Every group is in order. -/
structure Owned (d : Database) : Prop where
  keyed : Keyed Invitation.key d.invitations
  sound : ∀ g, (d.roster g).Sound

variable {d : Database} {g : Nat}

theorem mem_eligible_iff (h : Keyed Invitation.key d.invitations) {a : ActorRef} :
    a ∈ d.eligibleGroupMembers g ↔ (d.roster g).members a ∧ (d.roster g).live a := by
  rw [mem_eligibleGroupMembers]
  simp only [Database.roster, Database.member, Option.any_eq_true, decide_eq_true_eq]
  refine and_congr_left fun _ => ?_
  constructor
  · rintro ⟨i, hi, hc, ha, hs⟩
    exact ⟨i, h.getRow_eq_some_iff.mpr ⟨hi, Prod.ext hc ha⟩, hs⟩
  · rintro ⟨i, hi, hs⟩
    obtain ⟨hi, hk⟩ := mem_of_getRow_eq_some hi
    exact ⟨i, hi, congrArg Prod.fst hk, congrArg Prod.snd hk, hs⟩

/-! ### Writes -/

theorem member_invitation (row : Invitation) (c : Nat) (a : ActorRef) :
    ((Write.invitation row).apply d).member c a =
      if (c, a) = row.key then decide (row.status = .accepted) else d.member c a := by
  unfold Database.member Database.invitation Write.apply
  rw [getRow_put]
  split <;> rfl

theorem member_uninvite (c : Nat) (a : ActorRef) (c' : Nat) (a' : ActorRef) :
    ((Write.uninvite c a).apply d).member c' a' =
      (d.member c' a' && decide ((c', a') ≠ (c, a))) := by
  unfold Database.member Database.invitation Write.apply
  by_cases hk : (c', a') = (c, a)
  · have : getRow Invitation.key (d.invitations.filter (·.key ≠ (c, a))) (c', a') = none := by
      apply getRow_eq_none_iff.mpr
      intro i hi he
      simp [he, hk] at hi
    rw [this]
    simp [hk]
  · have : getRow Invitation.key (d.invitations.filter (·.key ≠ (c, a))) (c', a') =
        getRow Invitation.key d.invitations (c', a') :=
      getRow_filter_of_true fun i hi => by simp [hi, hk]
    rw [this]
    simp [hk]

theorem owns_owner (o : Owner) (c : Nat) (a : ActorRef) :
    ((Write.owner o).apply d).owns c a = (d.owns c a || decide (⟨c, a⟩ = o)) := by
  simp [Write.apply, Database.owns]

theorem owns_disown (o : Owner) (c : Nat) (a : ActorRef) :
    ((Write.disown o).apply d).owns c a = (d.owns c a && decide (⟨c, a⟩ ≠ o)) := by
  simp [Write.apply, Database.owns]

theorem keyed_applyAll (h : Keyed Invitation.key d.invitations) :
    Keyed Invitation.key (store.applyAll d ws).invitations := by
  refine store.applyAll_invariant (P := fun d => Keyed _ d.invitations) h fun w _ d h => ?_
  cases w with
  | invitation row => exact h.put row
  | uninvite c a => exact h.filter _
  | _ => exact h

def Write.reaches (g : Nat) : Write → Bool
  | .owner o => o.conversation = g
  | .disown o => o.conversation = g
  | .invitation row => row.conversation = g
  | .uninvite c _ => c = g
  | .markDeleted .. => true
  | .lookup .. => true
  | _ => false

theorem roster_apply (h : w.reaches g = false) : (w.apply d).roster g = d.roster g := by
  have hne : ∀ {c : Nat} {a a' : ActorRef}, c ≠ g → ((g, a) : Nat × ActorRef) ≠ (c, a') :=
    fun hc he => hc (congrArg Prod.fst he).symm
  unfold Database.roster
  cases w with
  | owner o =>
    have hc : o.conversation ≠ g := by simpa [Write.reaches] using h
    have : ∀ a, (⟨g, a⟩ : Owner) ≠ o := fun a he => hc (he ▸ rfl)
    simp only [owns_owner, this, decide_false, Bool.or_false]
    rfl
  | disown o =>
    have hc : o.conversation ≠ g := by simpa [Write.reaches] using h
    have : ∀ a, (⟨g, a⟩ : Owner) ≠ o := fun a he => hc (he ▸ rfl)
    simp only [owns_disown, this, ne_eq, not_false_eq_true, decide_true, Bool.and_true]
    rfl
  | invitation row =>
    have hc : row.conversation ≠ g := by simpa [Write.reaches] using h
    have : ∀ a, (g, a) ≠ row.key := fun a => hne hc
    simp only [member_invitation, this, if_false]
    rfl
  | uninvite c a =>
    have hc : c ≠ g := by simpa [Write.reaches] using h
    have : ∀ a', (g, a') ≠ (c, a) := fun a' => hne hc
    simp only [member_uninvite, this, ne_eq, not_false_eq_true, decide_true, Bool.and_true]
    rfl
  | markDeleted | lookup => simp [Write.reaches] at h
  | _ => rfl

theorem roster_applyAll (h : ∀ w ∈ ws, w.reaches g = false) :
    (store.applyAll d ws).roster g = d.roster g :=
  store.applyAll_eq (f := fun d => d.roster g) fun w hw _ => roster_apply (h w hw)

/-- A group's transaction concerns no other group. -/
theorem not_reaches_of_allows {c : Nat} (h : (Scope.group g).allows w = true) (hc : c ≠ g) :
    w.reaches c = false := by
  cases w <;> simp [Scope.allows, Write.reaches] at h ⊢ <;> exact fun he => hc (he.symm.trans h)

/-! ### Group requests that run alone -/

section Alone

variable {P Q : Database → Prop} {a : ActorRef}

variable {s : GroupStatement}

/-- The rule for a group statement that leads to nothing. -/
theorem triple_group
    (h : ∀ d o, P d → groupStatement g s d = .ok o → o.next = [] ∧ Q (store.applyAll d o.writes)) :
    store.Triple P [.group g s] Q := by
  refine Language.Triple.stmt ?_
  intro d o hp ho
  obtain ⟨hn, hq⟩ := h d o hp (exec_eq_some ho)
  rw [hn]
  exact .nil fun _ he => he ▸ hq

def GroupStatement.quiet : GroupStatement → Bool
  | .create | .lock | .requireMember _ | .requireAnOwner | .sync _ | .anchor .. | .touch => true
  | _ => false

theorem quiet_exec {o : Outcome Statement Check Write Lock} (hs : s.quiet = true)
    (h : groupStatement g s d = .ok o) :
    (∀ w ∈ o.writes, w.reaches g = false) ∧
      ∀ n ∈ o.next, ∃ s', n = .group g s' ∧ s'.quiet = true := by
  cases s <;> simp only [GroupStatement.quiet, Bool.false_eq_true] at hs <;>
    simp only [groupStatement] at h
  case sync now =>
    cases h
    refine ⟨by simp, ?_⟩
    intro n hn
    obtain ⟨a, -, rfl⟩ := List.mem_map.mp hn
    exact ⟨_, rfl, rfl⟩
  case anchor a now =>
    split at h <;> cases h
    refine ⟨?_, by simp⟩
    intro w hw
    split at hw
    · cases hw
    · obtain rfl := mem_singleton.mp hw
      rfl
  all_goals (try split at h) <;> cases h <;> simp [Write.reaches]

/-- Quiet code keeps whatever holds of the roster. -/
theorem triple_quiet (code : List GroupStatement) (hcode : ∀ s ∈ code, s.quiet = true)
    (Q : Roster → Prop) :
    store.Triple (fun d => Q (d.roster g)) (code.map (.group g)) fun d => Q (d.roster g) := by
  refine Language.Triple.frame
    (p := fun s : Statement => ∃ s' : GroupStatement, s = .group g s' ∧ s'.quiet = true) ?_ ?_
  · rintro _ d o ⟨s, rfl, hs⟩ hq ho
    obtain ⟨hw, hnext⟩ := quiet_exec hs (exec_eq_some ho)
    exact ⟨by rwa [roster_applyAll hw], hnext⟩
  · intro s hs
    obtain ⟨s', hs', rfl⟩ := List.mem_map.mp hs
    exact ⟨s', rfl, hcode s' hs'⟩

def OwnersJoined (g : Nat) (d : Database) : Prop :=
  ∀ a, d.owns g a = true → d.member g a = true

/-- All owners but `a` are members. -/
def OwnersJoinedBut (a : ActorRef) (g : Nat) (d : Database) : Prop :=
  ∀ x, d.owns g x = true → x = a ∨ d.member g x = true

theorem triple_uninvite (s : GroupStatement) (hs : s = .uninvite a ∨ s = .leave a) :
    store.Triple (OwnersJoined g) [.group g s] (OwnersJoinedBut a g) := by
  apply triple_group
  intro d o h ho
  have hk : OwnersJoinedBut a g ((Write.uninvite g a).apply d) := by
    intro x hx
    by_cases hxa : x = a
    · exact .inl hxa
    · right
      rw [member_uninvite, h x hx]
      simp [hxa]
  rcases hs with rfl | rfl <;> simp only [groupStatement] at ho
  · cases ho
    refine ⟨rfl, ?_⟩
    dsimp only
    split
    · exact hk
    · exact fun x hx => .inr (h x hx)
  · split at ho <;> cases ho
    exact ⟨rfl, hk⟩

theorem triple_disown : store.Triple (OwnersJoinedBut a g) [.group g (.disown a)]
    (OwnersJoined g) := by
  apply triple_group
  intro d o h ho
  cases ho
  refine ⟨rfl, ?_⟩
  dsimp only
  split
  next =>
    intro x hx
    have hx' : ((Write.disown ⟨g, a⟩).apply d).owns g x = true := hx
    rw [owns_disown, Bool.and_eq_true, decide_eq_true_eq] at hx'
    exact (h x hx'.1).resolve_left fun he => hx'.2 (he ▸ rfl)
  next hna =>
    intro x hx
    refine (h x hx).resolve_left ?_
    rintro rfl
    exact hna hx

theorem triple_requireAnOwner :
    store.Triple (OwnersJoined g) [.group g .requireAnOwner] fun d => (d.roster g).Led := by
  apply triple_group
  intro d o h ho
  simp only [groupStatement] at ho
  split at ho <;> cases ho
  next how => exact ⟨rfl, h, hasOwner_iff.mp how⟩

/-- A statement that at most adds members keeps a led group led. -/
theorem triple_invite (accepted : Bool) (now : Nat) :
    store.Triple (fun d => (d.roster g).Led) [.group g (.invite a accepted now)]
      fun d => (d.roster g).Led := by
  apply triple_group
  intro d o h ho
  cases ho
  refine ⟨rfl, ?_, h.led⟩
  intro x hx
  have hm : d.member g x = true := h.owners x hx
  change ((Write.invitation _).apply d).member g x = true
  rw [member_invitation]
  split
  next hk =>
    obtain ⟨hc, ha⟩ := invitedRow_key d g a accepted now
    obtain rfl : x = a := by simpa [Invitation.key, hc, ha] using hk
    unfold Database.member at hm
    unfold invitedRow
    split
    next hn => simp [hn] at hm
    next row hr =>
      have : row.status = .accepted := by simpa [hr] using hm
      simp [this]
  next => exact hm

theorem triple_accept (now : Nat) :
    store.Triple (fun d => (d.roster g).Led) [.group g (.accept a now)]
      fun d => (d.roster g).Led := by
  apply triple_group
  intro d o h ho
  simp only [groupStatement] at ho
  split at ho
  next row hr =>
    split at ho <;> cases ho
    refine ⟨rfl, ?_, h.led⟩
    intro x hx
    have hm : d.member g x = true := h.owners x hx
    change ((Write.invitation _).apply d).member g x = true
    rw [member_invitation]
    split
    · rfl
    · exact hm
  next => cases ho

theorem triple_own : store.Triple (fun d => OwnersJoinedBut a g d) [.group g (.own a)]
    fun d => OwnersJoinedBut a g d ∧ d.owns g a = true := by
  apply triple_group
  intro d o h ho
  cases ho
  refine ⟨rfl, ?_⟩
  dsimp only
  split
  next hown => exact ⟨h, hown⟩
  next =>
    constructor
    · intro x hx
      have hx' : ((Write.owner ⟨g, a⟩).apply d).owns g x = true := hx
      rw [owns_owner, Bool.or_eq_true, decide_eq_true_eq] at hx'
      rcases hx' with hx' | hx'
      · exact h x hx'
      · exact .inl (congrArg Owner.actor hx')
    · change ((Write.owner ⟨g, a⟩).apply d).owns g a = true
      simp [owns_owner]

/-- An invitation that must be accepted first changes nobody's membership, and neither does
declining one. -/
theorem triple_pending (hs : (∃ now, s = .invite a false now) ∨ s = .decline a) (Q : Roster → Prop) :
    store.Triple (fun d => Q (d.roster g)) [.group g s] fun d => Q (d.roster g) := by
  apply triple_group
  intro d o h ho
  have hsame : ∀ d' : Database, (∀ x, d'.member g x = d.member g x) → d'.owners = d.owners →
      d'.accounts = d.accounts → Q (d'.roster g) := by
    intro d' hm ho ha
    have : d'.roster g = d.roster g := by
      simp only [Database.roster, hm, Database.owns, ho, Database.deleted, ha]
    rwa [this]
  rcases hs with ⟨now, rfl⟩ | rfl
  · cases ho
    refine ⟨rfl, hsame _ (fun x => ?_) rfl rfl⟩
    change ((Write.invitation _).apply d).member g x = _
    rw [member_invitation]
    split
    next hk =>
      obtain ⟨hc, ha⟩ := invitedRow_key d g a false now
      obtain rfl : x = a := by simpa [Invitation.key, hc, ha] using hk
      unfold Database.member invitedRow
      cases hr : d.invitation g x with
      | none => simp
      | some row => cases hst : row.status <;> simp [hst]
    next => rfl
  · simp only [groupStatement] at ho
    split at ho <;> cases ho
    next hpend =>
    refine ⟨rfl, hsame _ (fun x => ?_) rfl rfl⟩
    change ((Write.uninvite g a).apply d).member g x = _
    rw [member_uninvite]
    by_cases hxa : x = a
    · subst hxa
      unfold Database.member
      cases hr : d.invitation g x with
      | none => simp
      | some row =>
        have : row.status = .pending := by simpa [hr] using hpend
        simp [this]
    · simp [hxa]

/-- What a group request asks of the database it commits on: whoever joins at once joins a group
that somebody leads, and the creator has an account. -/
def groupMay (d : Database) : Task → Bool
  | .createGroup _ creator _ _ => !d.deleted creator.id
  | .inviteToGroup g invitees acquired _ => !(acquired && invitees.any (·.accepted)) || d.hasOwner g
  | .respondToInvitation g _ accept _ => !accept || d.hasOwner g
  | _ => true

theorem led_of_hasOwner (h : (d.roster g).Sound) (ho : d.hasOwner g = true) : (d.roster g).Led :=
  ⟨h.owners, hasOwner_iff.mp ho⟩

theorem triple_finish (now : Nat) (Q : Roster → Prop) :
    store.Triple (fun d => Q (d.roster g)) ((finishGroup now).map (.group g))
      fun d => Q (d.roster g) := by
  apply triple_quiet (finishGroup now)
  simp [finishGroup, GroupStatement.quiet]

theorem triple_lock (Q : Roster → Prop) :
    store.Triple (fun d => Q (d.roster g)) [.group g .lock] fun d => Q (d.roster g) :=
  triple_quiet [.lock] (by simp [GroupStatement.quiet]) Q

theorem triple_inviteIn (invitees : List Invitee) (now : Nat) :
    store.Triple (fun d => (d.roster g).Led) ((inviteIn invitees now).map (.group g))
      fun d => (d.roster g).Led := by
  unfold inviteIn
  rw [List.map_map]
  exact Language.Triple.map (I := fun _ (d : Database) => (d.roster g).Led)
    (fun i _ => triple_invite i.accepted now) invitees

/-- A request behind an idempotency key whose body leaves the group in order. -/
theorem triple_claimed {acquired : Bool} {body : List GroupStatement} {now : Nat}
    (h : acquired = true → store.Triple P (body.map (.group g)) fun d => (d.roster g).Sound)
    (hlock : store.Triple P [.group g .lock] P) (hp : ∀ d, P d → (d.roster g).Sound) :
    store.Triple P ((claimed acquired body now).map (.group g)) fun d => (d.roster g).Sound := by
  unfold claimed
  rw [map_append, map_cons]
  refine (hlock.cons ?_).append (triple_finish now Roster.Sound)
  cases acquired with
  | true => exact h rfl
  | false => exact .nil hp

theorem triple_createGroup (creator : ActorRef) (invitees : List Invitee) (now : Nat) :
    store.Triple (fun d => (d.roster g).Sound ∧ d.deleted creator.id = false)
      ((createGroup creator invitees now).map (.group g)) fun d => (d.roster g).Sound := by
  -- the creator owns the group before it joins it
  have hcr : store.Triple (fun d => (d.roster g).Sound ∧ (d.roster g).live creator)
      [.group g .create] fun d => (d.roster g).Sound ∧ (d.roster g).live creator :=
    triple_quiet [.create] (by simp [GroupStatement.quiet])
      fun r => r.Sound ∧ r.live creator
  have hown : store.Triple (fun d => (d.roster g).Sound ∧ (d.roster g).live creator)
      [.group g (.own creator)] fun d => (OwnersJoinedBut creator g d ∧
        d.owns g creator = true) ∧ (d.roster g).live creator := by
    have hlive : store.Triple (fun d => (d.roster g).live creator) [.group g (.own creator)]
        fun d => (d.roster g).live creator := by
      apply triple_group
      intro d o h ho
      cases ho
      refine ⟨rfl, ?_⟩
      dsimp only
      split <;> exact h
    exact (triple_own.and hlive).conseq
      (fun d h => ⟨fun x hx => .inr (h.1.owners x hx), h.2⟩) fun _ h => h
  have hinvite : store.Triple (fun d => (OwnersJoinedBut creator g d ∧
      d.owns g creator = true) ∧ (d.roster g).live creator)
      [.group g (.invite creator true now)] fun d => (d.roster g).Led := by
    apply triple_group
    rintro d o ⟨⟨hbut, hown⟩, hlive⟩ ho
    cases ho
    refine ⟨rfl, ?_, creator, hown, hlive⟩
    intro x hx
    change ((Write.invitation _).apply d).member g x = true
    rw [member_invitation]
    split
    next =>
      unfold invitedRow
      split <;> simp
    next hk =>
      refine (hbut x hx).resolve_left ?_
      rintro rfl
      obtain ⟨hc, ha⟩ := invitedRow_key d g x true now
      exact hk (by simp [Invitation.key, hc, ha])
  have hsync : store.Triple (fun d => (d.roster g).Led) [.group g (.sync now)]
      fun d => (d.roster g).Led :=
    triple_quiet [.sync now] (by simp [GroupStatement.quiet]) Roster.Led
  unfold createGroup
  simp only [inviteIn, map_cons, map_append, map_nil, cons_append,
    nil_append]
  refine hcr.cons (hown.cons (hinvite.cons ?_))
  exact ((triple_inviteIn _ now).append hsync).conseq (fun _ h => h) fun _ h => h.sound

theorem triple_inviteToGroup (invitees : List Invitee) (acquired : Bool) (now : Nat) :
    store.Triple
      (fun d => (d.roster g).Sound ∧ groupMay d (.inviteToGroup g invitees acquired now) = true)
      ((claimed acquired (inviteIn invitees now) now).map (.group g))
      fun d => (d.roster g).Sound := by
  by_cases hjoin : (acquired && invitees.any (·.accepted)) = true
  · refine (triple_claimed (P := fun d => (d.roster g).Led) ?_ (triple_lock Roster.Led)
      fun _ h => h.sound).conseq ?_ fun _ h => h
    · intro _
      exact (triple_inviteIn invitees now).conseq (fun _ h => h) fun _ h => h.sound
    · rintro d ⟨hs, hmay⟩
      exact led_of_hasOwner hs (by simpa [groupMay, hjoin] using hmay)
  · refine (triple_claimed (P := fun d => (d.roster g).Sound) ?_ (triple_lock Roster.Sound)
      fun _ h => h).conseq (fun _ h => h.1) fun _ h => h
    rintro rfl
    have hpend : ∀ i ∈ invitees, i.accepted = false := by simpa using hjoin
    unfold inviteIn
    rw [List.map_map]
    -- every invitation of the list waits for its answer
    clear hjoin
    induction invitees with
    | nil => exact .nil fun _ h => h
    | cons i is ih =>
      rw [map_cons]
      refine Language.Triple.cons ?_ (ih fun i' hi' => hpend i' (mem_cons_of_mem _ hi'))
      have hi := hpend i mem_cons_self
      simp only [Function.comp_apply, hi]
      exact triple_pending (.inl ⟨now, rfl⟩) Roster.Sound

theorem triple_removeFromGroup (members : List ActorRef) :
    store.Triple (fun d => (d.roster g).Sound) ((removeFromGroup members).map (.group g))
      fun d => (d.roster g).Sound := by
  unfold removeFromGroup
  rw [map_append, map_flatMap]
  have hloop : store.Triple (OwnersJoined g)
      (members.flatMap fun a => [GroupStatement.uninvite a, .disown a].map (.group g))
      (OwnersJoined g) :=
    Language.Triple.flatMap (I := fun _ => OwnersJoined g)
      (fun a _ => (triple_uninvite (.uninvite a) (.inl rfl)).cons triple_disown) members
  exact (hloop.append triple_requireAnOwner).conseq (fun _ h => h.owners) fun _ h => h.sound

theorem triple_setGroupOwners (members : List ActorRef) (promote : Bool) :
    store.Triple (fun d => Keyed Invitation.key d.invitations ∧ (d.roster g).Sound)
      ((setGroupOwners members promote).map (.group g)) fun d => (d.roster g).Sound := by
  unfold setGroupOwners
  rw [map_append, map_flatMap]
  have hkd : ∀ s : GroupStatement,
      store.Triple (fun d => Keyed Invitation.key d.invitations) [.group g s]
        fun d => Keyed Invitation.key d.invitations := by
    intro s
    refine Language.Triple.frame (p := fun _ => True) ?_ (fun _ _ => trivial)
    intro _ _ _ _ h _
    exact ⟨keyed_applyAll h, fun _ _ => trivial⟩
  have hbody : ∀ a : ActorRef, store.Triple
      (fun d => Keyed Invitation.key d.invitations ∧ OwnersJoined g d)
      ((if promote then [GroupStatement.requireMember a, .own a] else [.disown a]).map (.group g))
      fun d => Keyed Invitation.key d.invitations ∧ OwnersJoined g d := by
    intro a
    cases promote with
    | true =>
      -- whoever is promoted is a member
      have hmbr : store.Triple
          (fun d => Keyed Invitation.key d.invitations ∧ OwnersJoined g d)
          [.group g (.requireMember a)]
          fun d => Keyed Invitation.key d.invitations ∧ OwnersJoined g d ∧ d.member g a = true := by
        apply triple_group
        rintro d o ⟨hk, hj⟩ ho
        simp only [groupStatement] at ho
        split at ho <;> cases ho
        next hmem => exact ⟨rfl, hk, hj, ((mem_eligible_iff hk).mp hmem).1⟩
      have hown : store.Triple (fun d => OwnersJoined g d ∧ d.member g a = true)
          [.group g (.own a)] (OwnersJoined g) := by
        apply triple_group
        rintro d o ⟨hj, hm⟩ ho
        cases ho
        refine ⟨rfl, ?_⟩
        dsimp only
        split
        next => exact hj
        next =>
          intro x hx
          have hx' : ((Write.owner ⟨g, a⟩).apply d).owns g x = true := hx
          rw [owns_owner, Bool.or_eq_true, decide_eq_true_eq] at hx'
          rcases hx' with hx' | hx'
          · exact hj x hx'
          · rw [show x = a from congrArg Owner.actor hx']
            exact hm
      exact hmbr.cons ((hkd _).and hown)
    | false =>
      refine ((hkd (.disown a)).and triple_disown).conseq ?_ fun _ h => h
      exact fun d h => ⟨h.1, fun x hx => .inr (h.2 x hx)⟩
  have hloop := Language.Triple.flatMap
    (I := fun _ (d : Database) => Keyed Invitation.key d.invitations ∧ OwnersJoined g d)
    (fun a _ => hbody a) members
  refine Language.Triple.append (hloop.conseq (fun d h => ⟨h.1, h.2.owners⟩) fun _ h => h.2) ?_
  exact triple_requireAnOwner.conseq (fun _ h => h) fun _ h => h.sound

variable {task : Task}

/-- Every group request that runs alone, and may, leaves its group in order. -/
theorem triple_local (hs : task.scope = .group g) :
    store.Triple (fun d => Keyed Invitation.key d.invitations ∧ (d.roster g).Sound ∧
      groupMay d task = true) task.code fun d => (d.roster g).Sound := by
  cases task <;> cases hs
  case createGroup creator invitees now =>
    exact (triple_createGroup creator invitees now).conseq
      (fun d h => ⟨h.2.1, by simpa [groupMay] using h.2.2⟩) fun _ h => h
  case resyncGroup now =>
    exact (triple_quiet [.sync now] (by simp [GroupStatement.quiet]) Roster.Sound).conseq
      (fun d h => h.2.1) fun _ h => h
  case inviteToGroup invitees acquired now =>
    exact (triple_inviteToGroup invitees acquired now).conseq (fun d h => h.2) fun _ h => h
  case removeFromGroup members acquired now =>
    exact (triple_claimed (fun _ => triple_removeFromGroup members) (triple_lock Roster.Sound)
      fun _ h => h).conseq (fun d h => h.2.1) fun _ h => h
  case respondToInvitation invitee accept now =>
    cases accept with
    | true =>
      refine ((triple_lock Roster.Led).cons ((triple_accept now).cons
        (triple_finish now Roster.Led))).conseq ?_ fun _ h => h.sound
      rintro d ⟨-, hs, hmay⟩
      exact led_of_hasOwner hs (by simpa [groupMay] using hmay)
    | false =>
      exact ((triple_lock Roster.Sound).cons ((triple_pending (.inr rfl) Roster.Sound).cons
        (triple_finish now Roster.Sound))).conseq (fun d h => h.2.1) fun _ h => h
  case leaveGroup member now =>
    have hleave : store.Triple (fun d => (d.roster g).Sound)
        [.group g .lock, .group g (.leave member), .group g (.disown member),
          .group g .requireAnOwner] fun d => (d.roster g).Led :=
      (triple_lock Roster.Sound).cons (((triple_uninvite (.leave member) (.inr rfl)).conseq
        (fun _ h => h.owners) fun _ h => h).cons (triple_disown.cons triple_requireAnOwner))
    exact (hleave.append (triple_finish now Roster.Led)).conseq (fun d h => h.2.1)
      fun _ h => h.sound
  case setGroupOwners members promote acquired now =>
    refine (triple_claimed (P := fun d => Keyed Invitation.key d.invitations ∧ (d.roster g).Sound)
      (fun _ => triple_setGroupOwners members promote) ?_ fun _ h => h.2).conseq
      (fun d h => ⟨h.1, h.2.1⟩) fun _ h => h
    refine Language.Triple.and ?_ (triple_lock Roster.Sound)
    apply triple_group
    intro d o h ho
    simp only [groupStatement] at ho
    split at ho <;> cases ho
    exact ⟨rfl, h⟩

/-- The same for all groups: a request leaves the other groups as they are. -/
theorem triple_groupTask (hs : task.scope = .group g) :
    store.Triple (fun d => Owned d ∧ groupMay d task = true) task.code Owned := by
  have helse : store.Triple
      (fun d => Keyed Invitation.key d.invitations ∧ ∀ c, c ≠ g → (d.roster c).Sound) task.code
      fun d => Keyed Invitation.key d.invitations ∧ ∀ c, c ≠ g → (d.roster c).Sound := by
    refine Language.Triple.frame (p := fun s : Statement => s.scope = .group g) ?_
      fun s hs' => (scope_of_mem_code hs').trans hs
    rintro s d o hsc ⟨hk, hsd⟩ ho
    obtain ⟨hnext, hws⟩ := s.exec_scope (exec_eq_some ho)
    refine ⟨⟨keyed_applyAll hk, fun c hc => ?_⟩, fun n hn => (hnext n hn).trans hsc⟩
    rw [roster_applyAll fun w hw => not_reaches_of_allows (hsc ▸ hws w hw) hc]
    exact hsd c hc
  refine (helse.and (triple_local hs)).conseq ?_ ?_
  · rintro d ⟨hd, hmay⟩
    exact ⟨⟨hd.keyed, fun c _ => hd.sound c⟩, hd.keyed, hd.sound g, hmay⟩
  · rintro d ⟨⟨hk, helse⟩, hg⟩
    refine ⟨hk, fun c => ?_⟩
    by_cases hc : c = g
    · exact hc ▸ hg
    · exact helse c hc

/-! ### Account deletion that runs alone -/

variable {uuid : String}

/-- The rule for a deletion statement that leads to nothing. -/
theorem triple_deletion {s : DeletionStatement}
    (h : ∀ d o, P d → deletionStatement uuid s d = .ok o →
      o.next = [] ∧ Q (store.applyAll d o.writes)) : store.Triple P [.deletion uuid s] Q := by
  refine Language.Triple.stmt ?_
  intro d o hp ho
  obtain ⟨hn, hq⟩ := h d o hp (exec_eq_some ho)
  rw [hn]
  exact .nil fun _ he => he ▸ hq

/-- While the account is taken out of its groups `gs`: owners are members everywhere, and the
other groups are in order and do not know the account. -/
structure Leaving (uuid : String) (gs : List Nat) (d : Database) : Prop where
  keyed : Keyed Invitation.key d.invitations
  joined : ∀ g, OwnersJoined g d
  sound : ∀ g, g ∉ gs → (d.roster g).Sound
  owners : ∀ o ∈ d.owners, o.actor.id = uuid → o.conversation ∈ gs
  invitations : ∀ i ∈ d.invitations, i.actor.id = uuid → i.conversation ∈ gs

theorem leaving_mark (hd : Owned d) (occurred : Nat) :
    Leaving uuid (groupsOf d uuid) ((Write.markDeleted uuid occurred).apply d) where
  keyed := hd.keyed
  joined g := (hd.sound g).owners
  sound g hg := by
    refine ⟨(hd.sound g).owners, ?_⟩
    have hlive : ∀ a : ActorRef, (((Write.markDeleted uuid occurred).apply d).roster g).live a ↔
        a.id ≠ uuid ∧ (d.roster g).live a := by
      intro a
      have := isDeleted_markDeleted d.accounts uuid occurred a.id
      simp [Database.roster, Database.deleted, Write.apply, this]
    rintro ⟨a, ha, hl⟩
    obtain ⟨o, ho, hol⟩ := (hd.sound g).led ⟨a, ha, ((hlive a).mp hl).2⟩
    refine ⟨o, ho, (hlive o).mpr ⟨fun hid => hg ?_, hol⟩⟩
    -- an owner of this account would make the group one of its groups
    have hm : (⟨g, o⟩ : Owner) ∈ d.owners := by simpa [Database.roster, Database.owns] using ho
    refine mem_dedup.mpr (mem_append_left _ ?_)
    exact List.mem_map.mpr ⟨⟨g, o⟩, mem_filter.mpr ⟨hm, by simpa using hid⟩, rfl⟩
  owners o ho hid := by
    refine mem_dedup.mpr (mem_append_left _ ?_)
    exact List.mem_map.mpr ⟨o, mem_filter.mpr ⟨ho, by simpa using hid⟩, rfl⟩
  invitations i hi hid := by
    refine mem_dedup.mpr (mem_append_right _ ?_)
    exact List.mem_map.mpr ⟨i, mem_filter.mpr ⟨hi, by simpa using hid⟩, rfl⟩

variable {gs : List Nat}

/-- The ownerships of the account that are left are among `xs`, which the scan found. -/
def Disowning (uuid : String) (gs : List Nat) (xs : List Owner) (d : Database) : Prop :=
  Leaving uuid gs d ∧ (∀ o ∈ d.owners, o.actor.id = uuid → o ∈ xs) ∧
    ∀ o ∈ xs, o.conversation ∈ gs

theorem triple_disowning (x : Owner) (xs : List Owner) :
    store.Triple (Disowning uuid gs (x :: xs))
      [.deletion uuid (.disown x.conversation x.actor)] (Disowning uuid gs xs) := by
  apply triple_deletion
  rintro d o ⟨hl, hleft, hscan⟩ ho
  cases ho
  have hgs := hscan x mem_cons_self
  have hscan' : ∀ o ∈ xs, o.conversation ∈ gs := fun o ho => hscan o (mem_cons_of_mem _ ho)
  refine ⟨rfl, ?_⟩
  dsimp only
  split
  next =>
    change Disowning uuid gs xs ((Write.disown x).apply d)
    have hsub : ∀ o ∈ ((Write.disown x).apply d).owners, o ∈ d.owners ∧ o ≠ x := by
      intro o ho
      simpa [Write.apply] using ho
    refine ⟨⟨hl.keyed, ?_, ?_, ?_, hl.invitations⟩, ?_, hscan'⟩
    · intro g y hy
      rw [owns_disown, Bool.and_eq_true] at hy
      exact hl.joined g y hy.1
    · intro g hg
      rw [roster_apply]
      · exact hl.sound g hg
      · have : x.conversation ≠ g := fun he => hg (he ▸ hgs)
        simpa [Write.reaches] using this
    · exact fun o ho => hl.owners o (hsub o ho).1
    · intro o ho hoid
      exact (mem_cons.mp (hleft o (hsub o ho).1 hoid)).resolve_left (hsub o ho).2
  next hna =>
    change Disowning uuid gs xs d
    refine ⟨hl, fun o ho hoid => ?_, hscan'⟩
    refine (mem_cons.mp (hleft o ho hoid)).resolve_left ?_
    rintro rfl
    exact hna (by simpa [Database.owns] using ho)

def Disowned (uuid : String) (gs : List Nat) (d : Database) : Prop :=
  Leaving uuid gs d ∧ ∀ o ∈ d.owners, o.actor.id ≠ uuid

theorem triple_disownAll : store.Triple (Leaving uuid gs) [.deletion uuid .disownAll]
    (Disowned uuid gs) := by
  refine Language.Triple.stmt ?_
  intro d o hp ho
  cases exec_eq_some ho
  refine (Language.Triple.map (I := Disowning uuid gs) triple_disowning _).conseq ?_ ?_
  · rintro _ rfl
    refine ⟨hp, fun o ho hid => mem_filter.mpr ⟨ho, by simpa using hid⟩, fun o ho => ?_⟩
    obtain ⟨ho, hid⟩ := mem_filter.mp ho
    exact hp.owners o ho (by simpa using hid)
  · rintro d ⟨hl, hn, -⟩
    exact ⟨hl, fun o ho hid => by simpa using hn o ho hid⟩

theorem triple_uninviting (x : Invitation) (xs : List Invitation) :
    store.Triple
      (fun d => Disowned uuid gs d ∧ ∀ i ∈ x :: xs, i.actor.id = uuid ∧ i.conversation ∈ gs)
      [.deletion uuid (.uninvite x.conversation x.actor)]
      fun d => Disowned uuid gs d ∧ ∀ i ∈ xs, i.actor.id = uuid ∧ i.conversation ∈ gs := by
  apply triple_deletion
  rintro d o ⟨⟨hl, hn⟩, hscan⟩ ho
  cases ho
  obtain ⟨hid, hgs⟩ := hscan x mem_cons_self
  refine ⟨rfl, ?_, fun i hi => hscan i (mem_cons_of_mem _ hi)⟩
  dsimp only
  split
  next =>
    change Disowned uuid gs ((Write.uninvite x.conversation x.actor).apply d)
    refine ⟨⟨hl.keyed.filter _, ?_, ?_, hl.owners, ?_⟩, hn⟩
    · intro g y hy
      have hy' : d.owns g y = true := hy
      rw [member_uninvite, hl.joined g y hy']
      -- no owner has the account that is being removed
      have : y ≠ x.actor := fun he =>
        hn ⟨g, y⟩ (by simpa [Database.owns] using hy') (he ▸ hid)
      simp [this]
    · intro g hg
      rw [roster_apply]
      · exact hl.sound g hg
      · have : x.conversation ≠ g := fun he => hg (he ▸ hgs)
        simpa [Write.reaches] using this
    · exact fun i hi => hl.invitations i (mem_filter.mp hi).1
  next => exact ⟨hl, hn⟩

theorem triple_uninviteAll : store.Triple (Disowned uuid gs) [.deletion uuid .uninviteAll]
    (Leaving uuid gs) := by
  refine Language.Triple.stmt ?_
  intro d o hp ho
  cases exec_eq_some ho
  refine (Language.Triple.map (I := fun xs d => Disowned uuid gs d ∧
    ∀ i ∈ xs, i.actor.id = uuid ∧ i.conversation ∈ gs) triple_uninviting _).conseq ?_
    fun _ h => h.1.1
  rintro _ rfl
  refine ⟨hp, fun i hi => ?_⟩
  obtain ⟨hi, hid⟩ := mem_filter.mp hi
  have hid' : i.actor.id = uuid := by simpa using hid
  exact ⟨hid', hp.1.invitations i hi hid'⟩

/-! ### Succession -/

theorem longestStanding_eq {g : Nat} :
    (longestStanding d g = none → d.eligibleGroupMembers g = []) ∧
      ∀ a, longestStanding d g = some a → a ∈ d.eligibleGroupMembers g := by
  have hfold : ∀ f : Option ActorRef → ActorRef → Option ActorRef,
      (∀ first a, ∃ b, f first a = some b ∧ (b = a ∨ first = some b)) → ∀ xs first,
      (xs.foldl f first = none → xs = [] ∧ first = none) ∧
        ∀ a, xs.foldl f first = some a → a ∈ xs ∨ first = some a := by
    intro f hfst xs
    induction xs with
    | nil => simp
    | cons x xs ih =>
      intro first
      obtain ⟨b, hb, hor⟩ := hfst first x
      simp only [foldl_cons, hb]
      refine ⟨fun h => by simpa using ((ih (some b)).1 h).2, fun a ha => ?_⟩
      rcases (ih (some b)).2 a ha with h | h
      · exact .inl (mem_cons_of_mem _ h)
      · cases h
        exact hor.imp (fun (h : b = x) => h ▸ mem_cons_self) id
  unfold longestStanding
  refine (hfold _ (fun first a => ?_) _ none).imp (fun h hn => (h hn).1) fun h a ha => by
    simpa using h a ha
  cases first with
  | none => exact ⟨a, rfl, .inl rfl⟩
  | some b =>
    by_cases hb : joinedBefore d g a b = true
    · exact ⟨a, by simp [hb], .inl rfl⟩
    · exact ⟨b, by simp [hb], .inr rfl⟩

/-- Every group outside `gs` is in order. -/
structure Settled (gs : List Nat) (d : Database) : Prop where
  keyed : Keyed Invitation.key d.invitations
  joined : ∀ g, OwnersJoined g d
  sound : ∀ g, g ∉ gs → (d.roster g).Sound

theorem Settled.tail (h : Settled (g :: gs) d) (hg : (d.roster g).Sound) : Settled gs d where
  keyed := h.keyed
  joined := h.joined
  sound c hc := by
    by_cases hcg : c = g
    · exact hcg ▸ hg
    · exact h.sound c (by simp [hcg, hc])

theorem Settled.own (h : Settled (g :: gs) d) (ha : a ∈ d.eligibleGroupMembers g) :
    Settled gs ((Write.owner ⟨g, a⟩).apply d) := by
  obtain ⟨hmbr, hlive⟩ := (mem_eligible_iff h.keyed).mp ha
  have hjoined : ∀ c, OwnersJoined c ((Write.owner ⟨g, a⟩).apply d) := by
    intro c x hx
    rw [owns_owner, Bool.or_eq_true, decide_eq_true_eq] at hx
    rcases hx with hx | hx
    · exact h.joined c x hx
    · cases hx
      exact hmbr
  refine Settled.tail (g := g) ⟨h.keyed, hjoined, fun c hc => ?_⟩ ⟨hjoined g, fun _ => ?_⟩
  · rw [roster_apply]
    · exact h.sound c hc
    · have : g ≠ c := fun he => hc (he ▸ mem_cons_self)
      simpa [Write.reaches] using this
  · exact ⟨a, by simp [Database.roster, owns_owner], hlive⟩

/-- A group that the account has left finds a new owner, if it needs one and has a member. -/
theorem triple_ensureOwner (uuid : String) (g : Nat) (gs : List Nat) :
    store.Triple (Settled (g :: gs)) [.deletion uuid (.ensureOwner g)] (Settled gs) := by
  refine Language.Triple.stmt ?_
  intro d o h ho
  cases exec_eq_some ho
  dsimp only
  split
  next how =>
    refine .nil ?_
    rintro _ rfl
    exact h.tail ⟨h.joined g, fun _ => hasOwner_iff.mp how⟩
  next =>
    refine Language.Triple.stmt ?_
    intro d' o hd ho
    obtain rfl : d = d' := hd.symm
    cases exec_eq_some ho
    dsimp only
    cases hfst : longestStanding d g with
    | none =>
      refine .nil ?_
      rintro _ rfl
      have hnobody := longestStanding_eq.1 hfst
      refine h.tail ⟨h.joined g, ?_⟩
      rintro ⟨a, ha⟩
      have := (mem_eligible_iff h.keyed).mpr ha
      rw [hnobody] at this
      cases this
    | some a =>
      apply triple_deletion
      intro d' o hd ho
      obtain rfl : d = d' := hd.symm
      cases ho
      have ha := longestStanding_eq.2 a hfst
      refine ⟨rfl, ?_⟩
      dsimp only
      split
      next howns =>
        exact h.tail ⟨h.joined g, fun _ => ⟨a, howns, ((mem_eligible_iff h.keyed).mp ha).2⟩⟩
      next => exact h.own ha

/-- An account deletion that runs alone leaves every group in order. -/
theorem triple_deleteAccount (uuid : String) (occurred : Nat) :
    store.Triple Owned (Task.deleteAccount uuid occurred).code Owned := by
  have hmark : store.Triple Owned [.deletion uuid (.mark occurred)]
      fun d => Leaving uuid (groupsOf d uuid) d := by
    apply triple_deletion
    intro d o hd ho
    cases ho
    exact ⟨rfl, leaving_mark hd occurred⟩
  refine hmark.cons (Language.Triple.stmt ?_)
  intro d o hd ho
  cases exec_eq_some ho
  have hleave : store.Triple (Leaving uuid (groupsOf d uuid))
      [.deletion uuid .disownAll, .deletion uuid .uninviteAll] (Settled (groupsOf d uuid)) :=
    triple_disownAll.cons (triple_uninviteAll.conseq (fun _ h => h)
      fun _ h => ⟨h.keyed, h.joined, h.sound⟩)
  have hloop := Language.Triple.map (I := Settled) (triple_ensureOwner uuid)
    (groupsOf d uuid)
  refine (hleave.append hloop).conseq ?_ ?_
  · rintro _ rfl
    exact hd
  · exact fun d h => ⟨h.keyed, fun g => h.sound g (by simp)⟩

end Alone

end SiliconDm.Server
