import SiliconDm.Server.Roster

/-!
# Groups keep an owner, whatever runs beside them

A group request holds the lock of its conversation while it decides, so what it read of the
group is still so when it commits, unless an account ends meanwhile: deletions and lookups do
not take that lock. In runs where they stay apart, each group request and each deletion acts as
if it had run alone at its commit, which brings the results of `Roster` to every reachable state.
A lookup that finds an account deleted only marks it; nobody is appointed in its place.
-/

namespace SiliconDm.Server

open Base List

/-! ### Databases a group request cannot tell apart -/

/-- The rows of the conversations `p`, and who has an account, are the same in both. -/
structure SameOn (p : Nat → Bool) (d d' : Database) : Prop where
  isGroup : ∀ c, p c = true → d'.isGroup c = d.isGroup c
  participants : d'.participants.filter (p ·.conversation) =
    d.participants.filter (p ·.conversation)
  owners : d'.owners.filter (p ·.conversation) = d.owners.filter (p ·.conversation)
  invitations : d'.invitations.filter (p ·.conversation) =
    d.invitations.filter (p ·.conversation)
  deleted : ∀ u, d'.deleted u = d.deleted u

variable {p : Nat → Bool} {d d' d'' : Database} {g : Nat}

theorem SameOn.refl (p : Nat → Bool) (d : Database) : SameOn p d d :=
  ⟨fun _ _ => rfl, rfl, rfl, rfl, fun _ => rfl⟩

theorem SameOn.trans (h : SameOn p d d') (h' : SameOn p d' d'') : SameOn p d d'' where
  isGroup c hc := (h'.isGroup c hc).trans (h.isGroup c hc)
  participants := h'.participants.trans h.participants
  owners := h'.owners.trans h.owners
  invitations := h'.invitations.trans h.invitations
  deleted u := (h'.deleted u).trans (h.deleted u)

/-- The write leaves the rows of `p` alone and ends no account. -/
def Write.foreign (p : Nat → Bool) : Write → Bool
  | .conversation row => !p row.id
  | .participant row => !p row.conversation
  | .owner row => !p row.conversation
  | .disown row => !p row.conversation
  | .invitation row => !p row.conversation
  | .uninvite c _ => !p c
  | .markDeleted .. => false
  | .lookup found _ => !found.deleted
  | _ => true

theorem deleted_lookup (found : AccountLookup) (now : Nat) (u : String) :
    ((Write.lookup found now).apply d).deleted u = true ↔
      d.deleted u = true ∨ u = found.uuid ∧ found.deleted = true ∧
        (recordLookup d.accounts found now).isOk = true := by
  simp only [Write.apply, Database.deleted]
  cases hr : recordLookup d.accounts found now with
  | error e => simp [Except.toOption, Except.isOk, Except.toBool]
  | ok accounts =>
    have := isDeleted_recordLookup hr u
    simp only [Except.toOption, Option.getD_some, this]
    simp [Except.isOk, Except.toBool]
    tauto

variable {w : Write} {ws : List Write}

theorem sameOn_apply (h : w.foreign p = true) : SameOn p d (w.apply d) := by
  have hrefl := SameOn.refl p d
  cases w with
  | conversation row =>
    have hp : p row.id = false := by simpa [Write.foreign] using h
    refine { hrefl with isGroup := fun c hc => isGroup_apply ?_ }
    have : row.id ≠ c := fun he => by simp [he, hc] at hp
    simpa [Write.admits] using this
  | advance c => exact { hrefl with isGroup := fun _ _ => isGroup_apply rfl }
  | participant row =>
    have hp : p row.conversation = false := by simpa [Write.foreign] using h
    exact { hrefl with participants := by simp [Write.apply, hp] }
  | owner row =>
    have hp : p row.conversation = false := by simpa [Write.foreign] using h
    exact { hrefl with owners := by simp [Write.apply, hp] }
  | disown row =>
    have hp : p row.conversation = false := by simpa [Write.foreign] using h
    refine { hrefl with owners := ?_ }
    simp only [Write.apply, List.filter_filter]
    apply filter_congr
    intro o _
    by_cases ho : o = row
    · simp [ho, hp]
    · simp [ho]
  | invitation row =>
    have hp : p row.conversation = false := by simpa [Write.foreign] using h
    refine { hrefl with invitations := filter_put_of_false fun i hi => ?_ }
    rw [show i.conversation = row.conversation from congrArg Prod.fst hi]
    exact hp
  | uninvite c a =>
    have hp : p c = false := by simpa [Write.foreign] using h
    refine { hrefl with invitations := ?_ }
    simp only [Write.apply, List.filter_filter]
    apply filter_congr
    intro i _
    by_cases hi : i.key = (c, a)
    · rw [show i.conversation = c from congrArg Prod.fst hi, hp]
      rfl
    · simp [hi]
  | lookup found now =>
    have hf : found.deleted = false := by simpa [Write.foreign] using h
    refine { hrefl with deleted := fun u => ?_ }
    have := deleted_lookup (d := d) found now u
    simp only [hf, Bool.false_eq_true, false_and, and_false, or_false] at this
    exact Bool.eq_iff_iff.mpr this
  | markDeleted => simp [Write.foreign] at h
  | _ => exact ⟨hrefl.isGroup, rfl, rfl, rfl, hrefl.deleted⟩

theorem sameOn_applyAll (h : ∀ w ∈ ws, w.foreign p = true) :
    SameOn p d (store.applyAll d ws) :=
  store.applyAll_invariant (.refl p d) fun w hw _ hd => hd.trans (sameOn_apply (h w hw))

/-- A write other than a lookup changes both databases alike. -/
theorem SameOn.apply (h : SameOn p d d') (hw : ∀ found now, w ≠ .lookup found now) :
    SameOn p (w.apply d) (w.apply d') := by
  cases w with
  | conversation row =>
    refine { h with isGroup := fun c hc => ?_ }
    have := h.isGroup c hc
    simp only [Database.isGroup, Database.conversation] at this ⊢
    simp only [Write.apply, getRow_append_singleton, Option.map_or, this]
  | advance c =>
    refine { h with isGroup := fun c' hc => ?_ }
    rw [isGroup_apply rfl, isGroup_apply rfl, h.isGroup c' hc]
  | participant row =>
    exact { h with participants := by simp [Write.apply, filter_append, h.participants] }
  | owner row => exact { h with owners := by simp [Write.apply, filter_append, h.owners] }
  | disown row =>
    refine { h with owners := ?_ }
    simp only [Write.apply]
    rw [filter_swap, h.owners, filter_swap]
  | invitation row =>
    refine { h with invitations := ?_ }
    cases hp : p row.conversation with
    | true =>
      have hr : ∀ i : Invitation, i.key = row.key → p i.conversation = true := fun i hi =>
        (congrArg p (congrArg Prod.fst hi)).trans hp
      simp only [Write.apply, filter_put_of_true hr, h.invitations]
    | false =>
      have hr : ∀ i : Invitation, i.key = row.key → p i.conversation = false := fun i hi =>
        (congrArg p (congrArg Prod.fst hi)).trans hp
      simp only [Write.apply, filter_put_of_false hr, h.invitations]
  | uninvite c a =>
    refine { h with invitations := ?_ }
    simp only [Write.apply]
    rw [filter_swap, h.invitations, filter_swap]
  | markDeleted uuid occurred =>
    refine { h with deleted := fun u => ?_ }
    have := h.deleted u
    simp only [Database.deleted] at this
    simp only [Write.apply, Database.deleted, isDeleted_markDeleted, this]
  | lookup found now => exact absurd rfl (hw found now)
  | _ => exact ⟨h.isGroup, h.participants, h.owners, h.invitations, h.deleted⟩

theorem SameOn.applyAll (h : SameOn p d d') (hw : ∀ w ∈ ws, ∀ found now, w ≠ .lookup found now) :
    SameOn p (store.applyAll d ws) (store.applyAll d' ws) := by
  induction ws generalizing d d' with
  | nil => exact h
  | cons w ws ih =>
    exact ih (h.apply (hw w mem_cons_self)) fun w' hw' => hw w' (mem_cons_of_mem _ hw')

/-! ### What a statement reads -/

section Reads

variable (h : SameOn p d d') (hg : p g = true)
include h hg

theorem SameOn.conversation_isSome :
    (d'.conversation g).isSome = (d.conversation g).isSome := by
  have := congrArg Option.isSome (h.isGroup g hg)
  simpa [Database.isGroup] using this

theorem SameOn.invitation (a : ActorRef) : d'.invitation g a = d.invitation g a := by
  have hk : ∀ i : Invitation, i.key = (g, a) → p i.conversation = true := fun i hi =>
    (congrArg p (congrArg Prod.fst hi)).trans hg
  unfold Database.invitation
  rw [← getRow_filter_of_true hk, h.invitations, getRow_filter_of_true hk]

theorem SameOn.owns (a : ActorRef) : d'.owns g a = d.owns g a := by
  have hm : ∀ d : Database, d.owns g a = decide (⟨g, a⟩ ∈ d.owners.filter (p ·.conversation)) := by
    simp [Database.owns, hg]
  rw [hm, hm, h.owners]

theorem SameOn.eligibleGroupMembers : d'.eligibleGroupMembers g = d.eligibleGroupMembers g := by
  unfold Database.eligibleGroupMembers
  simp only [h.deleted]
  rw [filter_eq_of_imp h.invitations]
  intro i hi
  simp only [Bool.and_eq_true, decide_eq_true_eq] at hi
  exact hi.1.1 ▸ hg

theorem SameOn.member (a : ActorRef) : d'.member g a = d.member g a := by
  unfold Database.member
  rw [h.invitation hg]

theorem SameOn.hasOwner : d'.hasOwner g = d.hasOwner g := by
  unfold Database.hasOwner
  simp only [h.deleted]
  refine any_eq_of_filter_eq (filter_eq_of_imp h.owners ?_)
  intro o ho
  simp only [Bool.and_eq_true, decide_eq_true_eq] at ho
  exact ho.1 ▸ hg

theorem SameOn.participantsOf (a : ActorRef) :
    d'.participants.filter (fun q => q.conversation = g && q.actor = a) =
      d.participants.filter fun q => q.conversation = g && q.actor = a := by
  refine filter_eq_of_imp h.participants ?_
  intro q hq
  simp only [Bool.and_eq_true, decide_eq_true_eq] at hq
  exact hq.1 ▸ hg

theorem SameOn.groupStatement (s : GroupStatement) :
    groupStatement g s d' = groupStatement g s d := by
  cases s <;> simp only [Server.groupStatement, h.conversation_isSome hg, h.isGroup g hg,
    h.invitation hg, h.member hg, h.owns hg, h.eligibleGroupMembers hg, h.hasOwner hg,
    any_eq_of_filter_eq (h.participantsOf hg _), invitedRow]

theorem SameOn.joinedAt (a : ActorRef) : joinedAt d' g a = joinedAt d g a := by
  unfold Server.joinedAt
  have := find?_eq_of_filter_eq (h.participantsOf hg a)
  simp only [Bool.decide_and, h.invitation hg, this]

theorem SameOn.longestStanding : longestStanding d' g = longestStanding d g := by
  unfold Server.longestStanding joinedBefore
  simp only [h.eligibleGroupMembers hg, h.joinedAt hg]

end Reads

theorem SameOn.deletionStatement (h : SameOn (fun _ => true) d d') (uuid : String)
    (s : DeletionStatement) : deletionStatement uuid s d' = deletionStatement uuid s d := by
  have howners : d'.owners = d.owners := by simpa using h.owners
  have hinvs : d'.invitations = d.invitations := by simpa using h.invitations
  cases s <;> simp only [Server.deletionStatement, groupsOf, howners, hinvs, h.owns rfl,
    h.invitation rfl, h.hasOwner rfl, h.longestStanding rfl]

/-- The rows that decide what the statement does are those of `p`. -/
def Statement.Within (p : Nat → Bool) : Statement → Prop
  | .group g _ => p g = true
  | .deletion _ _ => p = fun _ => true
  | _ => False

theorem SameOn.exec (h : SameOn p d d') {s : Statement} (hs : s.Within p) :
    s.exec d' = s.exec d := by
  cases s with
  | group g s => exact h.groupStatement hs s
  | deletion uuid s =>
    obtain rfl := hs
    exact h.deletionStatement uuid s
  | message | lookup | upkeep => exact hs.elim

theorem Statement.Within.of_scope {s s' : Statement} (h : s.Within p) (hs : s'.scope = s.scope) :
    s'.Within p := by
  cases s <;> cases s' <;> cases hs <;> exact h

/-- A replay carries over to a database with the same rows. -/
theorem SameOn.replay (h : SameOn p d d') {code todo : List Statement}
    (hcode : ∀ s ∈ code, s.Within p) (hr : store.Replay d code ws todo) :
    store.Replay d' code ws todo := by
  refine hr.congr (R := SameOn p) (p := Statement.Within p) ?_ hcode h
  intro s v v' o hs hv ho
  obtain ⟨hnext, hws⟩ := s.exec_scope (exec_eq_some ho)
  refine ⟨?_, hv.applyAll ?_, fun n hn => hs.of_scope (hnext n hn)⟩
  · have : store.exec s v' = store.exec s v := congrArg Except.toOption (hv.exec hs)
    rw [this, ho]
  · rintro w hw found now rfl
    have := hws _ hw
    cases s <;> simp [Statement.scope, Scope.allows] at this
    exact hs.elim

/-! ### Runs in which accounts end on their own -/

def Task.endsAccount : Task → Bool
  | .deleteAccount .. => true
  | .recordLookup found _ => found.deleted
  | _ => false

def Task.ofGroup (task : Task) : Bool :=
  match task.scope with
  | .group _ => true
  | _ => false

/-- Beside a request that ends an account, no group request and no other such one is open. -/
def apart (t u : Task) : Bool :=
  !(t.endsAccount && (u.endsAccount || u.ofGroup)) &&
    !(u.endsAccount && (t.endsAccount || t.ofGroup))

/-- Every group the account owns has another owner with an account, or no other member with
one. -/
def spares (d : Database) (uuid : String) : Bool :=
  (d.owners.filter (·.actor.id = uuid)).all fun o =>
    (d.owners.any fun o' =>
      o'.conversation = o.conversation && o'.actor.id ≠ uuid && !d.deleted o'.actor.id) ||
      (d.eligibleGroupMembers o.conversation).all (·.id = uuid)

/-- What a request asks of the database it commits on. -/
def mayCommit (d : Database) : Task → Bool
  | .recordLookup found _ => !found.deleted || spares d found.uuid
  | task => groupMay d task

/-- A replayed creation, which only refreshes the anchors, before it takes any lock. -/
def Task.resyncs (g : Nat) : Task → Prop
  | .resyncGroup g' _ => g' = g
  | _ => False

/-- An open transaction: a group request that has begun holds the lock of its group, and group
requests and deletions have done what they would have done alone on the committed database. -/
structure Alone (d : Database) (t : Open) : Prop where
  disciplined : Disciplined t
  group : ∀ g, t.task.scope = .group g → ¬ t.task.resyncs g →
    store.Replay d t.task.code t.writes t.todo ∧
      (t.writes = [] ∧ t.todo = t.task.code ∨ .conversation g ∈ t.locks)
  resync : ∀ g, t.task.resyncs g → (∀ w ∈ t.writes, w.reaches g = false) ∧
    ∀ s ∈ t.todo, ∃ s' : GroupStatement, s = .group g s' ∧ s'.quiet = true
  deletion : ∀ uuid, t.task.scope = .deletion uuid →
    store.Replay d t.task.code t.writes t.todo

theorem lock_first {task : Task} (hs : task.scope = .group g) (hr : ¬ task.resyncs g) :
    ∃ rest, task.code = .group g .lock :: rest ∨ task.code = .group g .create :: rest := by
  cases task <;> cases hs
  case createGroup => exact ⟨_, .inr rfl⟩
  case resyncGroup => exact absurd rfl hr
  all_goals exact ⟨_, .inl rfl⟩

theorem alone_opened (d : Database) (id : Nat) (task : Task) : Alone d (store.opened id task) where
  disciplined := disciplined_opened id task
  group g _ _ := ⟨.start, .inl ⟨rfl, rfl⟩⟩
  resync g hr := by
    refine ⟨by simp [Language.opened], ?_⟩
    intro s hs
    cases task <;> first
      | exact hr.elim
      | skip
    obtain rfl : _ = g := hr
    obtain rfl := mem_singleton.mp hs
    exact ⟨_, rfl, rfl⟩
  deletion uuid _ := .start

section Steps

variable {t u : Open} {statement : Statement} {rest : List Statement}
  {o : Outcome Statement Check Write Lock}

theorem Alone.advance (h : Alone d t) (htodo : t.todo = statement :: rest)
    (ho : store.exec statement (store.view d t) = some o) :
    Alone d (store.advance d t rest o) where
  disciplined := h.disciplined.advance htodo ho
  group g hs hr := by
    obtain ⟨hrpl, hlock⟩ := h.group g hs hr
    rw [htodo] at hrpl
    refine ⟨hrpl.step ho, .inr ?_⟩
    rcases hlock with ⟨-, hcode⟩ | hlock
    · apply mem_append_right
      obtain ⟨rest', he | he⟩ := lock_first hs hr <;>
        obtain ⟨rfl, -⟩ := List.cons.inj (htodo.symm.trans (hcode.trans he))
      · exact lock_of_lock (exec_eq_some ho)
      · exact lock_of_create (exec_eq_some ho)
    · exact mem_append_left _ hlock
  resync g hr := by
    obtain ⟨hws, hquiet⟩ := h.resync g hr
    rw [htodo] at hquiet
    obtain ⟨s, rfl, hs⟩ := hquiet statement mem_cons_self
    obtain ⟨hw, hnext⟩ := quiet_exec hs (exec_eq_some ho)
    constructor
    · exact forall_mem_append.mpr ⟨hws, hw⟩
    · exact forall_mem_append.mpr ⟨hnext, fun n hn => hquiet n (mem_cons_of_mem _ hn)⟩
  deletion uuid hs := by
    have hrpl := h.deletion uuid hs
    rw [htodo] at hrpl
    exact hrpl.step ho

/-- What a request that ends no account writes is foreign to every conversation outside its
group. -/
theorem foreign_writes (hu : Disciplined u) (hend : u.task.endsAccount = false)
    (hp : ∀ c, u.task.scope = .group c → u.writes ≠ [] → p c = false) :
    ∀ w ∈ u.writes, w.foreign p = true := by
  intro w hw
  have halw := hu.writes w hw
  cases hs : u.task.scope with
  | group c =>
    have hc := hp c hs (ne_nil_of_mem hw)
    rw [hs] at halw
    cases w <;> simp [Scope.allows, Write.foreign] at halw ⊢ <;> simp [halw, hc]
  | deletion uuid => cases htask : u.task <;> simp [htask, Task.scope, Task.endsAccount] at hs hend
  | lookup found now =>
    rw [hs] at halw
    cases htask : u.task <;> simp [htask, Task.scope, Task.endsAccount] at hs hend
    cases w <;> simp [Scope.allows, Write.foreign] at halw ⊢
    rw [halw.1, ← hs.1, hend]
  | message | upkeep =>
    rw [hs] at halw
    cases w <;> simp [Scope.allows, Write.foreign] at halw ⊢

theorem endsAccount_of_apart (h : apart t.task u.task = true)
    (ht : (t.task.endsAccount || t.task.ofGroup) = true) : u.task.endsAccount = false := by
  cases hu : u.task.endsAccount with
  | false => rfl
  | true => simp [apart, hu, ht] at h

theorem Alone.rely (ht : Alone d t) (hu : Alone d u) (hdis : t.locks.Disjoint u.locks)
    (hapart : apart t.task u.task = true) : Alone (store.view d u) t where
  disciplined := ht.disciplined
  group g hs hr := by
    obtain ⟨hrpl, hlock⟩ := ht.group g hs hr
    refine ⟨?_, hlock⟩
    rcases hlock with ⟨hw, htodo⟩ | hlock
    · rw [hw, htodo]
      exact .start
    · have hend := endsAccount_of_apart hapart (by simp [Task.ofGroup, hs])
      have hsame : SameOn (· = g) d (store.view d u) := by
        apply sameOn_applyAll
        apply foreign_writes hu.disciplined hend
        intro c hc hne
        -- whoever has written to the group would hold its lock
        have hl := hu.disciplined.locked hc hne
        have : c ≠ g := fun he => hdis hlock (he ▸ hl)
        simpa using this
      refine hsame.replay ?_ hrpl
      intro s hs'
      have hsc := (scope_of_mem_code hs').trans hs
      cases s <;> cases hsc
      exact decide_eq_true rfl
  resync := ht.resync
  deletion uuid hs := by
    have hends : t.task.endsAccount = true := by
      cases htask : t.task <;> simp [htask, Task.scope, Task.endsAccount] at hs ⊢
    have hend := endsAccount_of_apart hapart (by simp [hends])
    have hsame : SameOn (fun _ => true) d (store.view d u) := by
      apply sameOn_applyAll
      apply foreign_writes hu.disciplined hend
      intro c hc _
      -- and no group request is open beside a deletion
      simp [apart, hends, Task.ofGroup, hc] at hapart
    refine hsame.replay ?_ (ht.deletion uuid hs)
    intro s hs'
    have hsc := (scope_of_mem_code hs').trans hs
    cases s <;> cases hsc
    rfl

variable {found : AccountLookup} {ws : List Write}

variable {now : Nat}

/-- A lookup changes no group, and ends at most the account it is about. -/
theorem lookup_applyAll (h : ∀ w ∈ ws, w = .lookup found now) :
    (store.applyAll d ws).owners = d.owners ∧ (store.applyAll d ws).invitations = d.invitations ∧
      (∀ v, (store.applyAll d ws).deleted v = false → d.deleted v = false) ∧
      ∀ v, (store.applyAll d ws).deleted v = true →
        d.deleted v = true ∨ v = found.uuid ∧ found.deleted = true := by
  refine store.applyAll_invariant (P := fun d' => d'.owners = d.owners ∧
    d'.invitations = d.invitations ∧ (∀ v, d'.deleted v = false → d.deleted v = false) ∧
    ∀ v, d'.deleted v = true → d.deleted v = true ∨ v = found.uuid ∧ found.deleted = true)
    ⟨rfl, rfl, fun _ h => h, fun _ h => .inl h⟩ fun w hw d' hd => ?_
  obtain rfl := h w hw
  obtain ⟨howners, hinvs, hlive, hdead⟩ := hd
  refine ⟨howners, hinvs, fun v hv => hlive v ?_, fun v hv => ?_⟩
  · rw [← Bool.not_eq_true] at hv ⊢
    exact fun hd => hv (deleted_apply hd)
  · rcases (deleted_lookup found now v).mp hv with hv | hv
    · exact hdead v hv
    · exact .inr ⟨hv.1, hv.2.1⟩

/-- A lookup that spares every group leaves the groups in order. -/
theorem owned_lookup (hd : Owned d) (h : ∀ w ∈ ws, w = .lookup found now)
    (hmay : (!found.deleted || spares d found.uuid) = true) : Owned (store.applyAll d ws) := by
  obtain ⟨howners, hinvs, hlive, hdead⟩ := lookup_applyAll (d := d) h
  have howns : ∀ g a, (store.applyAll d ws).owns g a = d.owns g a := by
    simp [Database.owns, howners]
  have hmbr : ∀ g a, (store.applyAll d ws).member g a = d.member g a := by
    simp [Database.member, Database.invitation, hinvs]
  -- whoever was left out of the lookup keeps the account
  have hkeep : ∀ v, d.deleted v = false → (v = found.uuid → found.deleted = false) →
      (store.applyAll d ws).deleted v = false := by
    intro v hv hne
    rw [← Bool.not_eq_true]
    intro hv'
    rcases hdead v hv' with h | ⟨rfl, h⟩
    · simp [hv] at h
    · simp [hne rfl] at h
  refine ⟨keyed_applyAll hd.keyed, fun g => ⟨fun a ha => ?_, ?_⟩⟩
  · exact (hmbr g a).trans ((hd.sound g).owners a ((howns g a).symm.trans ha))
  rintro ⟨b, hb, hbl⟩
  have hb' : d.member g b = true := (hmbr g b).symm.trans hb
  have hbl' : d.deleted b.id = false := hlive _ hbl
  obtain ⟨a, ha, hal⟩ := (hd.sound g).led ⟨b, hb', hbl'⟩
  by_cases hna : a.id = found.uuid → found.deleted = false
  · exact ⟨a, (howns g a).trans ha, hkeep a.id hal hna⟩
  simp only [Classical.not_imp, Bool.not_eq_false] at hna
  obtain ⟨hid, hfd⟩ := hna
  -- the owner is the account that ended: another one owns the group, or nobody is left in it
  have hsp : spares d found.uuid = true := by simpa [hfd] using hmay
  simp only [spares, List.all_eq_true, mem_filter, decide_eq_true_eq] at hsp
  have hm : (⟨g, a⟩ : Owner) ∈ d.owners := by simpa [Database.roster, Database.owns] using ha
  have := hsp ⟨g, a⟩ ⟨hm, hid⟩
  simp only [Bool.or_eq_true, List.any_eq_true, Bool.and_eq_true, decide_eq_true_eq,
    Bool.not_eq_true', List.all_eq_true] at this
  rcases this with ⟨o', ho', ⟨rfl, hne⟩, hl⟩ | hnobody
  · refine ⟨o'.actor, (howns _ _).trans ?_, hkeep _ hl fun he => absurd he hne⟩
    simpa [Database.owns] using ho'
  · have hbid := hnobody b ((mem_eligible_iff hd.keyed).mpr ⟨hb', hbl'⟩)
    refine ⟨a, (howns g a).trans ha, ?_⟩
    change (store.applyAll d ws).deleted a.id = false
    rw [hid, ← hbid]
    exact hbl

/-- Writes that reach no group leave all groups in order. -/
theorem owned_unreached (hd : Owned d) (h : ∀ w ∈ ws, ∀ g, w.reaches g = false) :
    Owned (store.applyAll d ws) where
  keyed := keyed_applyAll hd.keyed
  sound g := by
    rw [roster_applyAll fun w hw => h w hw g]
    exact hd.sound g

theorem Alone.commit (ht : Alone d t) (hd : Owned d) (htodo : t.todo = [])
    (hmay : mayCommit d t.task = true) : Owned (store.view d t) := by
  have hws := ht.disciplined.writes
  cases hs : t.task.scope with
  | group g =>
    by_cases hr : t.task.resyncs g
    · apply owned_unreached hd
      intro w hw c
      by_cases hc : c = g
      · exact hc ▸ (ht.resync g hr).1 w hw
      · exact not_reaches_of_allows (hs ▸ hws w hw) hc
    · have hrpl := (ht.group g hs hr).1
      rw [htodo] at hrpl
      have hgrp : groupMay d t.task = true := by
        cases htask : t.task <;> simp only [htask, mayCommit] at hmay ⊢ <;> first
          | exact hmay
          | rfl
      exact triple_groupTask hs d _ ⟨hd, hgrp⟩ hrpl.finished
  | deletion uuid =>
    have hrpl := ht.deletion uuid hs
    rw [htodo] at hrpl
    cases htask : t.task <;> simp only [htask, Task.scope, reduceCtorEq] at hs
    rw [htask] at hrpl
    exact triple_deleteAccount _ _ d _ hd hrpl.finished
  | lookup found now =>
    rw [hs] at hws
    cases htask : t.task <;> simp only [htask, Task.scope, reduceCtorEq] at hs
    cases hs
    have hlookups : ∀ w ∈ t.writes, w = .lookup found now := by
      intro w hw
      have := hws w hw
      cases w <;> simp [Scope.allows] at this
      rw [this.1, this.2]
    exact owned_lookup hd hlookups (by simpa [htask, mayCommit] using hmay)
  | message | upkeep =>
    rw [hs] at hws
    apply owned_unreached hd
    intro w hw g
    have := hws w hw
    cases w <;> simp [Scope.allows, Write.reaches] at this ⊢

end Steps

theorem alone : store.RelyGuarantee apart mayCommit Owned Alone where
  start d id task _ := alone_opened d id task
  exec _ _ _ _ _ _ ht _ htodo ho := ht.advance htodo ho
  commit _ _ hd ht htodo _ hmay := ht.commit hd htodo hmay
  rely _ _ _ _ ht hu _ _ hdis hapart _ _ := ht.rely hu hdis hapart

/-! ### In every reachable state -/

/-- A group with a member left has an owner, and owners are members: in every state of a run in
which requests that end an account are open on their own, whoever joins at once joins a group
with an owner, and lookups only end accounts that no group depends on. -/
theorem group_keeps_owner {s : Sessions Database Statement Check Write Lock Task}
    (h : (server Owned).ReachableWhile
      (fun s l => Language.supervised apart mayCommit s l = true) s) (g : Nat) :
    (∀ a, s.committed.owns g a = true → s.committed.member g a = true) ∧
      ((∃ a, s.committed.member g a = true ∧ s.committed.deleted a.id = false) →
        ∃ a, s.committed.owns g a = true ∧ s.committed.deleted a.id = false ∧
          s.committed.member g a = true) := by
  have howned := (alone.supervised (fun _ hd => hd) h).committed
  refine ⟨(howned.sound g).owners, fun hmember => ?_⟩
  obtain ⟨a, ha, hl⟩ := (howned.sound g).led hmember
  exact ⟨a, ha, hl, (howned.sound g).owners a ha⟩

theorem owned_empty : Owned Database.empty where
  keyed := nodup_nil
  sound g := ⟨by simp [Database.roster, Database.owns, Database.empty],
    by simp [Database.roster, Database.member, Database.invitation, Database.empty, getRow]⟩

def goneLookup (uuid : String) : AccountLookup where
  uuid := uuid
  kind := .carbon
  id := none
  displayName := none
  pfpUrl := none
  custodian := none
  deleted := true

/-- `ada` creates a group and invites `ben`. -/
def inviting : List (Action Task) :=
  .start (.createGroup 1 ⟨.carbon, "ada"⟩ [⟨⟨.carbon, "ben"⟩, false⟩] 0) ::
    List.replicate 6 (.exec 0) ++ [.commit 0]

/-- `ben` accepts, in so many statements. -/
def accepting (id statements : Nat) : List (Action Task) :=
  .start (.respondToInvitation 1 ⟨.carbon, "ben"⟩ true id) ::
    List.replicate statements (.exec id) ++ [.commit id]

/-- The group passes to `ben`, and then a lookup finds `ada` deleted. -/
theorem group_keeps_owner_promoted :
    ∃ s : Sessions Database Statement Check Write Lock Task,
      (server Owned).ReachableWhile
        (fun s l => Language.supervised apart mayCommit s l = true) s ∧
      s.committed.deleted "ada" = true ∧
      ∃ a, s.committed.owns 1 a = true ∧ s.committed.deleted a.id = false ∧
        s.committed.member 1 a = true := by
  have hinit : (server Owned).init (Sessions.boot Database.empty) := ⟨_, owned_empty, rfl⟩
  have hs := System.reachableWhile_get
    (C := fun s l => Language.supervised apart mayCommit s l = true)
    (inviting ++ accepting 1 6 ++ .start (.setGroupOwners 1 [⟨.carbon, "ben"⟩] true true 2) ::
      List.replicate 8 (.exec 2) ++
      [.commit 2, .start (.recordLookup (goneLookup "ada") 3), .exec 3, .commit 3])
    hinit (by decide +kernel)
  exact ⟨_, hs, by decide +kernel,
    (group_keeps_owner hs 1).2 ⟨⟨.carbon, "ben"⟩, by decide +kernel, by decide +kernel⟩⟩

/-- The account of `ada` is deleted before `ben` accepts: the group has nobody to pass to, and
`ben` joins it without an owner. -/
theorem group_loses_owner :
    ∃ s : Sessions Database Statement Check Write Lock Task, (server Owned).Reachable s ∧
      s.committed.member 1 ⟨.carbon, "ben"⟩ = true ∧ s.committed.deleted "ben" = false ∧
      ∀ a, s.committed.owns 1 a = true → s.committed.deleted a.id = true := by
  have hinit : (server Owned).init (Sessions.boot Database.empty) := ⟨_, owned_empty, rfl⟩
  refine ⟨_, System.reachable_get
    (inviting ++ .start (.deleteAccount "ada" 1) :: List.replicate 8 (.exec 1) ++ [.commit 1] ++
      accepting 2 5)
    hinit (by decide +kernel), by decide +kernel, by decide +kernel, fun a ha => ?_⟩
  by_contra hl
  exact absurd (hasOwner_iff.mpr ⟨a, ha, eq_false_of_ne_true hl⟩) (by decide +kernel)

end SiliconDm.Server
