import SiliconDm.Link.Run
import SiliconDm.Server.Standing

/-!
# Who may write into a conversation

The handler of a send first asks `require_current`, in two queries of their own, and only then
runs the transaction of `send_message`, which checks the participant and inserts the message. A
leave, a removal, a deletion or a re-keying may commit between the checks and the commit. A
bundle's display message is sent without `require_current`.

Re-keying locks every table, so it runs while no other transaction has begun to read or write.
`updated_at`, which decides between duplicates, comes with the label.

Sources: `src/api/handlers.rs:216–237,260–288`, `src/infrastructure/postgres/messages.rs:171–351,
916–958`, `conversations.rs:261–302`, `bundles.rs:77–200`, `link_identities.rs:164–262`.
-/

namespace SiliconDm.Server

open Base List

namespace Writing

structure Send where
  message : Nat
  conversation : Nat
  sender : ActorRef
  deriving DecidableEq, Repr

def Send.task (x : Send) : Task :=
  .sendMessage x.message x.conversation x.sender

/-- The message of a transaction that sends one. -/
def sendOf : Task → Option Send
  | .sendMessage message conversation sender => some ⟨message, conversation, sender⟩
  | _ => none

/-- The store with the column `superseded_by`, and the sends before their transaction: those
that passed the first query of `require_current`, and those that passed both. -/
structure State where
  sessions : Sessions Database Statement Check Write Lock Task
  supersededBy : List (Nat × Nat)
  checking : List Send
  checked : List Send

inductive Label where
  | requireOpen (x : Send)
  | requireCurrent (x : Send)
  | send (x : Send)
  | bundle (x : Send)
  | db (action : Action Task)
  | rekey (map : List Link.Entry) (updatedAt : Nat → Nat)

/-! ### The checks -/

def recipientDeleted (d : Database) (c : Nat) : Bool :=
  d.isGroup c = some false && d.participants.any fun p => p.conversation = c && d.deleted p.actor.id

/-- The first query. `conversations.rs:268–284`. -/
def requireOpen (d : Database) (c : Nat) : Except AppError Unit :=
  if recipientDeleted d c then
    .error (.refused "recipient_deleted" ("The other account in this conversation was deleted. " ++
      "Its history stays readable; it takes no new messages."))
  else .ok ()

/-- The second query. `conversations.rs:285–302`. -/
def requireCurrent (supersededBy : List (Nat × Nat)) (c : Nat) : Except AppError Unit :=
  match supersededBy.lookup c with
  | some canonical =>
    .error (.refused "conversation_superseded" (s!"This conversation is kept for its history; " ++
      s!"the same accounts now talk in {canonical}. Send there."))
  | none => .ok ()

/-! ### Re-keying -/

def rekeyActor (map : List Link.Entry) (a : ActorRef) : ActorRef :=
  { a with id := Link.rekey map a.id }

/-- `STREAMS`: the stream of a re-keyed account stays above its deliveries. -/
def raiseStream (map : List Link.Entry) (deliveries : List Delivery) (row : Stream) : Stream :=
  let sequences := (deliveries.filter (·.target = row.actor)).map (·.sequence)
  let high := coalesceMax sequences
  if map.any (·.newKey = row.actor.id) && !sequences.isEmpty && row.nextSequence ≤ high then
    { row with nextSequence := high + 1, syncFloor := max row.syncFloor high }
  else row

/-- `REWRITE` and `STREAMS`: every identity column through the link map. -/
def rekeyDatabase (map : List Link.Entry) (d : Database) : Database :=
  let deliveries := d.deliveries.map fun row => { row with target := rekeyActor map row.target }
  { d with
    participants := d.participants.map fun row => { row with actor := rekeyActor map row.actor }
    owners := d.owners.map fun row => { row with actor := rekeyActor map row.actor }
    invitations := d.invitations.map fun row => { row with actor := rekeyActor map row.actor }
    messages := d.messages.map fun row => { row with sender := rekeyActor map row.sender }
    deliveries := deliveries
    streams := d.streams.map fun row =>
      raiseStream map deliveries { row with actor := rekeyActor map row.actor } }

/-- The unique constraints that stay in force during the rewrite. -/
def unique (d : Database) : Bool :=
  (d.participants.map fun row => (row.conversation, row.actor)).Nodup &&
    d.owners.Nodup && (d.invitations.map Invitation.key).Nodup &&
    (d.deliveries.map fun row => (row.target, row.ref)).Nodup &&
    (d.streams.map (·.actor)).Nodup

/-- The rows of `conversations` that `SUPERSEDE` and `FLATTEN` read. -/
def conversationRows (d : Database) (supersededBy : List (Nat × Nat)) (updatedAt : Nat → Nat) :
    List (Link.Conversation (Multiset (ActorType × String))) :=
  d.conversations.map fun row =>
    { id := row.id
      organization := ""
      isGroup := row.isGroup
      setHash := ((d.participants.filter (·.conversation = row.id)).map fun p =>
        (p.actor.actorType, p.actor.id) : List (ActorType × String))
      supersededBy := supersededBy.lookup row.id
      updatedAt := updatedAt row.id }

/-- `SUPERSEDE`, then `FLATTEN` until it changes nothing. -/
def mergeDuplicates (d : Database) (supersededBy : List (Nat × Nat)) (updatedAt : Nat → Nat) :
    Option (List (Nat × Nat)) :=
  (Link.flatten (d.conversations.length + 2)
    (Link.supersede (conversationRows d supersededBy updatedAt))).map fun rows =>
      rows.filterMap fun row => row.supersededBy.map fun canonical => (row.id, canonical)

/-! ### Steps -/

def State.committed (s : State) : Database :=
  s.sessions.committed

def sends : Action Task → Bool
  | .start task => (sendOf task).isSome
  | .exec _ | .commit _ | .rollback _ => false

/-- A send begins only after its checks; everything else is a step of the store. -/
def State.step (s : State) : Label → Option State
  | .requireOpen x =>
    match requireOpen s.committed x.conversation with
    | .ok () => some { s with checking := s.checking ++ [x] }
    | .error _ => none
  | .requireCurrent x =>
    if x ∈ s.checking then
      match requireCurrent s.supersededBy x.conversation with
      | .ok () => some { s with checking := s.checking.erase x, checked := s.checked ++ [x] }
      | .error _ => none
    else none
  | .send x =>
    if x ∈ s.checked then
      (store.step s.sessions (.start x.task)).map fun sessions =>
        { s with sessions, checked := s.checked.erase x }
    else none
  | .bundle x =>
    if x.sender.actorType = .silicon then
      (store.step s.sessions (.start x.task)).map fun sessions => { s with sessions }
    else none
  | .db action =>
    if sends action then none
    else (store.step s.sessions action).map fun sessions => { s with sessions }
  | .rekey map updatedAt =>
    let d := rekeyDatabase map s.committed
    if s.sessions.active.all (·.views.isEmpty) && unique d then
      (mergeDuplicates d s.supersededBy updatedAt).map fun supersededBy =>
        { s with sessions := { s.sessions with committed := d }, supersededBy }
    else none

def writing (initial : Database → List (Nat × Nat) → Prop) : System State Label where
  init s := ∃ d supersededBy, initial d supersededBy ∧
    s = { sessions := .boot d, supersededBy, checking := [], checked := [] }
  step := State.step

inductive Stepped (s : State) : Label → State → Prop
  | requireOpen (x : Send) (hopen : Writing.requireOpen s.committed x.conversation = .ok ()) :
      Stepped s (.requireOpen x) { s with checking := s.checking ++ [x] }
  | requireCurrent (x : Send) (hx : x ∈ s.checking)
      (hcurrent : Writing.requireCurrent s.supersededBy x.conversation = .ok ()) :
      Stepped s (.requireCurrent x)
        { s with checking := s.checking.erase x, checked := s.checked ++ [x] }
  | send (x : Send) (sessions : Sessions Database Statement Check Write Lock Task)
      (hx : x ∈ s.checked) (hstep : store.step s.sessions (.start x.task) = some sessions) :
      Stepped s (.send x) { s with sessions, checked := s.checked.erase x }
  | bundle (x : Send) (sessions : Sessions Database Statement Check Write Lock Task)
      (hstep : store.step s.sessions (.start x.task) = some sessions) :
      Stepped s (.bundle x) { s with sessions }
  | db (action : Action Task) (sessions : Sessions Database Statement Check Write Lock Task)
      (hsends : sends action = false) (hstep : store.step s.sessions action = some sessions) :
      Stepped s (.db action) { s with sessions }
  | rekey (map : List Link.Entry) (updatedAt : Nat → Nat) (supersededBy : List (Nat × Nat))
      (hviews : s.sessions.active.all (·.views.isEmpty) = true)
      (hunique : unique (rekeyDatabase map s.committed) = true) :
      Stepped s (.rekey map updatedAt)
        { s with
          sessions := { s.sessions with committed := rekeyDatabase map s.committed }
          supersededBy }

variable {l : Label} {task : Task}

theorem stepped_of_step {s s' : State} (h : s.step l = some s') : Stepped s l s' := by
  cases l with
  | requireOpen x =>
    simp only [State.step] at h
    split at h <;> cases h
    next hopen => exact .requireOpen x hopen
  | requireCurrent x =>
    simp only [State.step] at h
    split at h
    next hx =>
      split at h <;> cases h
      next hcur => exact .requireCurrent x hx hcur
    next => cases h
  | send x =>
    simp only [State.step] at h
    split at h
    next hx =>
      obtain ⟨sessions, hstep, rfl⟩ := Option.map_eq_some_iff.mp h
      exact .send x sessions hx hstep
    next => cases h
  | bundle x =>
    simp only [State.step] at h
    split at h
    next =>
      obtain ⟨sessions, hstep, rfl⟩ := Option.map_eq_some_iff.mp h
      exact .bundle x sessions hstep
    next => cases h
  | db action =>
    simp only [State.step] at h
    split at h
    next => cases h
    next hsends =>
      obtain ⟨sessions, hstep, rfl⟩ := Option.map_eq_some_iff.mp h
      exact .db action sessions (by simpa using hsends) hstep
  | rekey map updatedAt =>
    simp only [State.step] at h
    split at h
    next hguard =>
      obtain ⟨supersededBy, -, rfl⟩ := Option.map_eq_some_iff.mp h
      simp only [Bool.and_eq_true] at hguard
      exact .rekey map updatedAt supersededBy hguard.1 hguard.2
    next => cases h

/-! ### The property -/

/-- The account may write into the conversation. -/
structure MayWrite (s : State) (c : Nat) (a : ActorRef) : Prop where
  participant : a ∈ s.committed.effectiveParticipants c
  current : s.supersededBy.lookup c = none
  recipients : s.committed.isGroup c = some false →
    ∀ p ∈ s.committed.participants, p.conversation = c → s.committed.deleted p.actor.id = false

def State.pending (s : State) : List Send :=
  s.checking ++ s.checked ++ s.sessions.active.filterMap (sendOf ·.task)

/-- The task can take away what a send has checked. -/
def overtakes (d : Database) (task : Task) (x : Send) : Bool :=
  task.dismisses x.conversation x.sender || task.ends x.sender.id ||
    d.isGroup x.conversation = some false && d.participants.any fun p =>
      p.conversation = x.conversation && task.ends p.actor.id

/-- Nothing overtakes a send, and bundles are only made where sends would be accepted. -/
def undisturbed (s : State) : Label → Bool
  | .db (.commit id) =>
    (s.sessions.find id).all fun t => s.pending.all fun x => !overtakes s.committed t.task x
  | .rekey .. => s.pending.isEmpty
  | .bundle x =>
    !recipientDeleted s.committed x.conversation &&
      (s.supersededBy.lookup x.conversation).isNone
  | _ => true

/-! ### What other transactions keep -/

variable {d : Database} {t u : Open} {c : Nat} {a : ActorRef}

theorem recipientDeleted_eq_false : recipientDeleted d c = false ↔
    (d.isGroup c = some false → ∀ p ∈ d.participants, p.conversation = c →
      d.deleted p.actor.id = false) := by
  simp only [recipientDeleted, Bool.and_eq_false_iff, decide_eq_false_iff_not, List.any_eq_false,
    Bool.and_eq_true, decide_eq_true_eq, not_and, Bool.not_eq_true]
  exact imp_iff_not_or.symm

/-- Nobody of a direct conversation is deleted by a commit that does not end their account. -/
theorem recipientDeleted_view (hu : Standing d u) (h : recipientDeleted d c = false)
    (hends : d.isGroup c = some false → ∀ p ∈ d.participants, p.conversation = c →
      u.task.ends p.actor.id = false) : recipientDeleted (store.view d u) c = false := by
  rw [recipientDeleted_eq_false] at h ⊢
  intro hdir p hp hc
  have hdir' := hu.isGroup_direct hdir
  have hp' := hu.participant_direct hdir hp hc
  by_contra hdel
  rcases hu.deleted_view (by simpa using hdel) with hold | hends'
  · simp [h hdir' p hp' hc] at hold
  · simp [hends hdir' p hp' hc] at hends'

/-- A participant stays one if its membership and its account stay. -/
theorem effectiveParticipants_view (hu : Standing d u) (hd : Founded d)
    (h : a ∈ d.effectiveParticipants c) (hdismisses : u.task.dismisses c a = false)
    (hends : u.task.ends a.id = false) : a ∈ (store.view d u).effectiveParticipants c := by
  obtain ⟨group, hgrp, ⟨p, hp, hpc, hpa⟩, helig, hlive⟩ := mem_effectiveParticipants.mp h
  have hlive' : (store.view d u).deleted a.id = false := by
    by_contra hdel
    rcases hu.deleted_view (by simpa using hdel) with hold | hends'
    · simp [hlive] at hold
    · simp [hends] at hends'
  refine mem_effectiveParticipants.mpr ⟨group, isGroup_view hgrp, ⟨p, ?_, hpc, hpa⟩,
    fun htrue => ?_, hlive'⟩
  · rw [Language.view, participants_applyAll]
    exact mem_append_left _ hp
  · have hmbr := ((mem_eligible_iff hd.keyed).mp (helig htrue)).1
    have hkd : Keyed Invitation.key (store.view d u).invitations := keyed_applyAll hd.keyed
    exact (mem_eligible_iff hkd).mpr ⟨hu.member_view hdismisses hmbr, hlive'⟩

theorem overtakes_eq_false {x : Send} (h : overtakes d task x = false) :
    task.dismisses x.conversation x.sender = false ∧ task.ends x.sender.id = false ∧
      (d.isGroup x.conversation = some false → ∀ p ∈ d.participants,
        p.conversation = x.conversation → task.ends p.actor.id = false) := by
  simp only [overtakes, Bool.or_eq_false_iff, Bool.and_eq_false_iff, decide_eq_false_iff_not,
    List.any_eq_false, Bool.and_eq_true, decide_eq_true_eq, not_and, Bool.not_eq_true] at h
  exact ⟨h.1.1, h.1.2, fun hdir => h.2.resolve_left (not_not.mpr hdir)⟩

/-! ### Sends stay allowed -/

structure Ready (s : State) : Prop where
  supervised : store.Supervised (fun _ _ => true) Founded Standing s.sessions
  untried : store.Untried s.sessions
  checking : ∀ x ∈ s.checking, recipientDeleted s.committed x.conversation = false
  checked : ∀ x ∈ s.checked, recipientDeleted s.committed x.conversation = false ∧
    s.supersededBy.lookup x.conversation = none
  sending : ∀ t ∈ s.sessions.active, ∀ x, sendOf t.task = some x →
    recipientDeleted s.committed x.conversation = false ∧
      s.supersededBy.lookup x.conversation = none ∧
      (t.writes = [] ∧ t.todo = t.task.code ∨
        x.sender ∈ s.committed.effectiveParticipants x.conversation)

theorem sendOf_eq_some {x : Send} : sendOf task = some x ↔ task = x.task := by
  cases task with
  | sendMessage m c a =>
    simp only [sendOf, Send.task, Option.some.injEq, Task.sendMessage.injEq]
    constructor
    · rintro rfl
      exact ⟨rfl, rfl, rfl⟩
    · rintro ⟨rfl, rfl, rfl⟩
      rfl
  | _ => simp [sendOf, Send.task]

section

variable {s s' : State} {action : Action Task}
  {sessions : Sessions Database Statement Check Write Lock Task}

variable {x : Send} {supersededBy : List (Nat × Nat)}

/-- A step of the store that does not overtake a send leaves it what it has checked. -/
theorem Ready.keeps (h : Ready s) (hs : store.step s.sessions action = some sessions)
    (hc : undisturbed s (.db action) = true) (hx : x ∈ s.pending) :
    (recipientDeleted s.committed x.conversation = false →
      recipientDeleted sessions.committed x.conversation = false) ∧
    (x.sender ∈ s.committed.effectiveParticipants x.conversation →
      x.sender ∈ sessions.committed.effectiveParticipants x.conversation) := by
  rcases Language.committed_of_step hs with he | ⟨t, ht, hfind, rfl, -, -, rfl⟩
  · rw [he]
    exact ⟨id, id⟩
  · have hn : overtakes s.committed t.task x = false := by
      simp only [undisturbed, hfind, Option.all_some, List.all_eq_true] at hc
      simpa using hc x hx
    obtain ⟨hdismisses, hends, hdir⟩ := overtakes_eq_false hn
    have hstand := h.supervised.transaction t ht
    exact ⟨fun hopen => recipientDeleted_view hstand hopen hdir,
      fun hpart => effectiveParticipants_view hstand h.supervised.committed
        hpart hdismisses hends⟩

theorem mem_pending_active (ht : t ∈ s.sessions.active) (hx : sendOf t.task = some x) :
    x ∈ s.pending :=
  mem_append_right _ (mem_filterMap.mpr ⟨t, ht, hx⟩)

/-- The participant check, on a transaction that has done nothing yet. -/
theorem participant_of_exec {statement : Statement} {rest : List Statement}
    {o : Outcome Statement Check Write Lock} (hx : sendOf t.task = some x) (hw : t.writes = [])
    (hcode : t.todo = t.task.code) (htodo : t.todo = statement :: rest)
    (ho : store.exec statement (store.view d t) = some o) :
    x.sender ∈ d.effectiveParticipants x.conversation := by
  have hview : store.view d t = d := by simp [Language.view, Language.applyAll, hw]
  rw [hcode, sendOf_eq_some.mp hx] at htodo
  obtain ⟨rfl, -⟩ := List.cons.inj htodo
  have hexec := exec_eq_some ho
  rw [hview] at hexec
  simp only [Statement.exec, messageStatement] at hexec
  split at hexec
  next hm => exact hm
  next => cases hexec

/-- Every step of the store keeps the sends on their way. -/
theorem Ready.store_step (h : Ready s) (hs : store.step s.sessions action = some sessions)
    (hc : undisturbed s (.db action) = true)
    (hnew : ∀ task x, action = .start task → sendOf task = some x →
      recipientDeleted s.committed x.conversation = false ∧
        s.supersededBy.lookup x.conversation = none) :
    Ready { s with sessions } := by
  constructor
  case supervised =>
    refine h.supervised.step standing_relyGuarantee ?_ hs
    cases action <;> simp [Language.supervised]
  case untried => exact h.untried.step hs
  case checking =>
    intro x hx
    have hpend : x ∈ s.pending := mem_append_left _ (mem_append_left _ hx)
    exact (h.keeps hs hc hpend).1 (h.checking x hx)
  case checked =>
    intro x hx
    have hpend : x ∈ s.pending := mem_append_left _ (mem_append_right _ hx)
    exact ⟨(h.keeps hs hc hpend).1 (h.checked x hx).1, (h.checked x hx).2⟩
  case sending =>
    intro t ht x hx
    -- a transaction that was there and is as it was
    have hold (ht : t ∈ s.sessions.active) :
        recipientDeleted sessions.committed x.conversation = false ∧
          s.supersededBy.lookup x.conversation = none ∧
          (t.writes = [] ∧ t.todo = t.task.code ∨
            x.sender ∈ sessions.committed.effectiveParticipants x.conversation) := by
      obtain ⟨hopen, hcur, hph⟩ := h.sending t ht x hx
      obtain ⟨hkeepsOpen, hkp⟩ := h.keeps hs hc (mem_pending_active ht hx)
      exact ⟨hkeepsOpen hopen, hcur, hph.imp_right hkp⟩
    cases Language.effect_of_step hs with
    | start task =>
      rcases mem_concat.mp ht with ht | rfl
      · exact hold ht
      · obtain ⟨hopen, hcur⟩ := hnew task x rfl hx
        exact ⟨hopen, hcur, .inl ⟨rfl, rfl⟩⟩
    | @exec u statement rest o hu htodo ho hfree =>
      rcases Sessions.mem_replace ht with rfl | ⟨ht, -⟩
      · obtain ⟨hm, -⟩ := Sessions.mem_of_find hu
        have hx : sendOf u.task = some x := hx
        obtain ⟨hopen, hcur, hph⟩ := h.sending u hm x hx
        refine ⟨hopen, hcur, .inr ?_⟩
        rcases hph with ⟨hw, hcode⟩ | hpart
        · exact participant_of_exec hx hw hcode htodo ho
        · exact hpart
      · exact hold ht
    | commit hu htodo hcms | ended => exact hold (Sessions.mem_discard.mp ht).1

/-- Re-keying finds no transaction that has begun, and leaves groups groups. -/
theorem Ready.rekey (h : Ready s) {map : List Link.Entry}
    (hviews : s.sessions.active.all (·.views.isEmpty) = true)
    (huniq : unique (rekeyDatabase map s.committed) = true) (hc : s.pending = []) :
    Ready { s with
      sessions := { s.sessions with committed := rekeyDatabase map s.committed }, supersededBy } := by
  obtain ⟨hn, hact⟩ := append_eq_nil_iff.mp hc
  obtain ⟨hchecking, hchk⟩ := append_eq_nil_iff.mp hn
  constructor
  case supervised =>
    refine ⟨⟨h.supervised.orderly.below, h.supervised.orderly.covered,
      h.supervised.orderly.exclusive⟩, h.supervised.compatible, ⟨?_, ?_⟩, ?_⟩
    · simp only [unique, Bool.and_eq_true, decide_eq_true_eq] at huniq
      exact huniq.1.1.2
    · intro i hi
      obtain ⟨row, hr, rfl⟩ := List.mem_map.mp hi
      exact h.supervised.committed.groups row hr
    · intro t ht
      have hopn := h.untried t ht (by simpa using List.all_eq_true.mp hviews t ht)
      rw [hopn]
      exact standing_opened _ _ _
  case untried => exact h.untried
  case checking => simp [hchecking]
  case checked => simp [hchk]
  case sending =>
    intro t ht x hx
    have hm : x ∈ s.sessions.active.filterMap (sendOf ·.task) :=
      mem_filterMap.mpr ⟨t, ht, hx⟩
    rw [hact] at hm
    cases hm

theorem requireOpen_eq_ok : requireOpen d c = .ok () ↔ recipientDeleted d c = false := by
  unfold requireOpen
  cases recipientDeleted d c <;> simp

theorem requireCurrent_eq_ok :
    requireCurrent supersededBy c = .ok () ↔ supersededBy.lookup c = none := by
  unfold requireCurrent
  cases supersededBy.lookup c <;> simp

/-- Starting a send that may be sent. -/
theorem Ready.start (h : Ready s) (hs : store.step s.sessions (.start x.task) = some sessions)
    (hopen : recipientDeleted s.committed x.conversation = false)
    (hcur : s.supersededBy.lookup x.conversation = none) : Ready { s with sessions } := by
  apply h.store_step hs rfl
  intro task y he hy
  cases he
  obtain rfl : x = y := Option.some.inj hy
  exact ⟨hopen, hcur⟩

theorem Ready.step (h : Ready s) (hc : undisturbed s l = true) (hs : s.step l = some s') :
    Ready s' := by
  cases stepped_of_step hs with
  | requireOpen x hopen =>
    refine { h with checking := fun y hy => ?_ }
    rcases mem_concat.mp hy with hy | rfl
    · exact h.checking y hy
    · exact requireOpen_eq_ok.mp hopen
  | requireCurrent x hx hcur =>
    refine { h with
      checking := fun y hy => h.checking y (mem_of_mem_erase hy)
      checked := fun y hy => ?_ }
    rcases mem_concat.mp hy with hy | rfl
    · exact h.checked y hy
    · exact ⟨h.checking y hx, requireCurrent_eq_ok.mp hcur⟩
  | send x sessions hx hstep =>
    have hready := h.start hstep (h.checked x hx).1 (h.checked x hx).2
    exact { hready with checked := fun y hy => hready.checked y (mem_of_mem_erase hy) }
  | bundle x sessions hstep =>
    have hcur : recipientDeleted s.committed x.conversation = false ∧
        s.supersededBy.lookup x.conversation = none := by
      simpa [undisturbed] using hc
    exact h.start hstep hcur.1 hcur.2
  | db action sessions hsends hstep =>
    refine h.store_step hstep hc fun task x he hx => ?_
    subst he
    simp [sends, hx] at hsends
  | rekey map updatedAt supersededBy hviews huniq =>
    exact h.rekey hviews huniq (by simpa [undisturbed] using hc)

theorem ready_of_reachable {initial : Database → List (Nat × Nat) → Prop}
    (hinit : ∀ d supersededBy, initial d supersededBy → Founded d)
    (h : (writing initial).ReachableWhile (fun s l => undisturbed s l = true) s) : Ready s := by
  apply h.invariant
  · rintro s ⟨d, supersededBy, hd, rfl⟩
    constructor
    case supervised => exact .boot (hinit d supersededBy hd)
    all_goals simp [Language.Untried, Sessions.boot]
  · intro s l s' hs hc hstep
    exact hs.step hc hstep

variable {row : Message}

/-- A message that a step of the store commits is that of the transaction it commits. -/
theorem Ready.message_of_step (h : Ready s) (hs : store.step s.sessions action = some sessions)
    (hr : row ∈ sessions.committed.messages) (hnew : row ∉ s.committed.messages) :
    ∃ t ∈ s.sessions.active, t.todo = [] ∧ sessions.committed = store.view s.committed t ∧
      t.task = .sendMessage row.id row.conversation row.sender := by
  rcases Language.committed_of_step hs with he | ⟨t, ht, -, rfl, htodo, -, rfl⟩
  · rw [he] at hr
    exact absurd hr hnew
  · refine ⟨t, ht, htodo, rfl, (h.supervised.transaction t ht).messages row ?_⟩
    have hr : row ∈ (store.applyAll s.committed t.writes).messages := hr
    rw [messages_applyAll] at hr
    exact mem_messagesIn.mp ((mem_append.mp hr).resolve_left hnew)

/-- The message a step of the store commits. -/
theorem Ready.mayWrite (h : Ready s) (hr : row ∈ s'.committed.messages)
    (hnew : row ∉ s.committed.messages) (hs : store.step s.sessions action = some s'.sessions)
    (hsup : s'.supersededBy = s.supersededBy) :
    MayWrite s' row.conversation row.sender := by
  obtain ⟨t, ht, htodo, hview, htask⟩ := h.message_of_step hs hr hnew
  have hstand := h.supervised.transaction t ht
  have hcom : s'.committed = store.view s.committed t := hview
  obtain ⟨hopen, hcur, hph⟩ :=
    h.sending t ht ⟨row.id, row.conversation, row.sender⟩ (by rw [htask]; rfl)
  have hpart := hph.resolve_left fun hinit => by
    rw [htodo, htask] at hinit
    cases hinit.2
  constructor
  · rw [hcom]
    exact effectiveParticipants_view hstand h.supervised.committed hpart
      (by rw [htask]; rfl) (by rw [htask]; rfl)
  · rw [hsup]
    exact hcur
  · rw [hcom]
    exact recipientDeleted_eq_false.mp (recipientDeleted_view hstand hopen fun _ _ _ _ => by
      rw [htask]; rfl)

/-- A message commits only while its sender may write, in every run in which nothing overtakes
a send between its checks and its commit. -/
theorem sender_may_write_at_commit {initial : Database → List (Nat × Nat) → Prop}
    (hinit : ∀ d supersededBy, initial d supersededBy → Founded d)
    (h : (writing initial).ReachableWhile (fun s l => undisturbed s l = true) s) {l : Label}
    (hs : (writing initial).step s l = some s') {row : Message}
    (hrow : row ∈ s'.committed.messages) (hnew : ∀ old ∈ s.committed.messages, old.id ≠ row.id) :
    MayWrite s' row.conversation row.sender := by
  have hready := ready_of_reachable hinit h
  have hs : s.step l = some s' := hs
  have hnot : row ∉ s.committed.messages := fun hmem => hnew row hmem rfl
  cases stepped_of_step hs with
  | requireOpen | requireCurrent => exact absurd hrow hnot
  | send x sessions hx hstep | bundle x sessions hstep | db action sessions hsends hstep =>
    exact hready.mayWrite hrow hnot hstep rfl
  | rekey map updatedAt supersededBy hviews hunique =>
    obtain ⟨old, hold, rfl⟩ := List.mem_map.mp hrow
    exact absurd rfl (hnew old hold)

end

/-! ### Concrete runs -/

def ada : ActorRef := ⟨.carbon, "ada"⟩

def bot : ActorRef := ⟨.silicon, "bot"⟩

def groupDatabase : Database :=
  { Database.empty with
    conversations := [⟨1, true, 1⟩]
    participants := [⟨1, ada, 0⟩, ⟨1, bot, 0⟩]
    owners := [⟨1, ada⟩]
    invitations := [⟨1, ada, .accepted, some 0, some 0⟩, ⟨1, bot, .accepted, some 0, some 0⟩] }

/-- Two direct conversations of the same two accounts, one under the bot's earlier key. -/
def legacyDatabase : Database :=
  { Database.empty with
    conversations := [⟨1, false, 1⟩, ⟨2, false, 1⟩]
    participants := [⟨1, ada, 0⟩, ⟨1, ⟨.silicon, "si:bot"⟩, 0⟩, ⟨2, ada, 0⟩, ⟨2, bot, 0⟩] }

/-- A direct conversation with two messages, whose other account was deleted. -/
def closedDatabase : Database :=
  { directDatabase with
    conversations := [⟨1, false, 3⟩]
    messages := [⟨3, 1, ada, 1⟩, ⟨4, 1, bot, 2⟩]
    accounts := [{ Account.new "ada" .carbon with status := .deleted, deletedAt := some 0 }] }

def startOf (d : Database) : State :=
  { sessions := .boot d, supersededBy := [], checking := [], checked := [] }

/-- Runs from one database without superseded conversations. -/
def onlyFrom (d : Database) : System State Label :=
  writing fun d' supersededBy => d' = d ∧ supersededBy = []

theorem onlyFrom_init (d : Database) : (onlyFrom d).init (startOf d) :=
  ⟨d, [], ⟨rfl, rfl⟩, rfl⟩

def beginSend (x : Send) : List Label :=
  [.requireOpen x, .requireCurrent x, .send x]

def execs (id n : Nat) : List Label :=
  List.replicate n (.db (.exec id))

theorem founded_directDatabase : Founded directDatabase where
  keyed := by simp [Keyed, directDatabase, Database.empty]
  groups := by simp [directDatabase, Database.empty]

/-- The commit of transaction 0 adds message 7 of a sender to a conversation. -/
def adds (c : Nat) (a : ActorRef) (s : State) : Bool :=
  (s.step (.db (.commit 0))).any fun s' =>
    s.committed.messages.all (·.id ≠ 7) &&
      s'.committed.messages.any fun row => row.id = 7 && row.conversation = c && row.sender = a

theorem adds_eq_true {s : State} (h : adds c a s = true) : ∃ s' row,
    s.step (.db (.commit 0)) = some s' ∧ row ∈ s'.committed.messages ∧
      (∀ old ∈ s.committed.messages, old.id ≠ row.id) ∧ row.conversation = c ∧
      row.sender = a := by
  simp only [adds, Option.any_eq_true, Bool.and_eq_true, List.all_eq_true, List.any_eq_true,
    decide_eq_true_eq] at h
  obtain ⟨s', hs, hold, row, hr, ⟨hid, hc⟩, ha⟩ := h
  exact ⟨s', row, hs, hr, fun old hm => hid ▸ hold old hm, hc, ha⟩

/-- A message commits beside the deletion of an account that has nothing to do with it. -/
theorem sender_may_write_at_commit_hello : ∃ s s' row,
    (onlyFrom directDatabase).ReachableWhile (fun s l => undisturbed s l = true) s ∧
      (onlyFrom directDatabase).step s (.db (.commit 0)) = some s' ∧
      row ∈ s'.committed.messages ∧ MayWrite s' row.conversation row.sender := by
  obtain ⟨s, hs, hp⟩ : ∃ s, (onlyFrom directDatabase).ReachableWhile
      (fun s l => undisturbed s l = true) s ∧ adds 1 ada s = true :=
    ⟨_, System.reachableWhile_get (beginSend ⟨7, 1, ada⟩ ++
      [.db (.start (.deleteAccount "eve" 5))] ++ execs 0 9 ++ execs 1 4 ++ [.db (.commit 1)])
      (onlyFrom_init directDatabase) (by decide +kernel), by decide +kernel⟩
  obtain ⟨s', row, hstep, hrow, hnew, -, -⟩ := adds_eq_true hp
  have hstep : (onlyFrom directDatabase).step s (.db (.commit 0)) = some s' := hstep
  refine ⟨s, s', row, hs, hstep, hrow, ?_⟩
  refine sender_may_write_at_commit ?_ hs hstep hrow hnew
  rintro d supersededBy ⟨rfl, -⟩
  exact founded_directDatabase

/-- A message commits into a conversation that its sender may not write. -/
def Breached (d : Database) : Prop :=
  ∃ s s' l row, (onlyFrom d).Reachable s ∧ (onlyFrom d).step s l = some s' ∧
    row ∈ s'.committed.messages ∧ (∀ old ∈ s.committed.messages, old.id ≠ row.id) ∧
    ¬ MayWrite s' row.conversation row.sender

/-- The commit adds the message although a part of the permission is missing. -/
def addsForbidden (c : Nat) (a : ActorRef) (s : State) : Bool :=
  adds c a s && (s.step (.db (.commit 0))).all fun s' =>
    a ∉ s'.committed.effectiveParticipants c || (s'.supersededBy.lookup c).isSome ||
      recipientDeleted s'.committed c

theorem breached_of_run (ls : List Label)
    (h : ((onlyFrom d).run (startOf d) ls).any (addsForbidden c a) = true) : Breached d := by
  simp only [Option.any_eq_true, addsForbidden, Bool.and_eq_true] at h
  obtain ⟨s, hrun, hp⟩ := h
  obtain ⟨s', row, hstep, hr, hnew, rfl, rfl⟩ := adds_eq_true hp.1
  refine ⟨s, s', .db (.commit 0), row, ⟨_, onlyFrom_init d, System.steps_of_run hrun⟩, hstep, hr,
    hnew, fun hmay => ?_⟩
  have hforbidden := hp.2
  simp [hstep, hmay.participant, hmay.current,
    recipientDeleted_eq_false.mpr hmay.recipients] at hforbidden

/-- The sender leaves the group after the participant check; a re-keying supersedes the
conversation after `require_current`; a bundle is made without it. -/
theorem message_commits_unwritable :
    Breached groupDatabase ∧ Breached legacyDatabase ∧ Breached closedDatabase := by
  refine ⟨?_, ?_, ?_⟩
  · exact breached_of_run (c := 1) (a := bot) (beginSend ⟨7, 1, bot⟩ ++ execs 0 1 ++
      [.db (.start (.leaveGroup 1 bot 5))] ++ execs 1 7 ++ [.db (.commit 1)] ++ execs 0 5)
      (by decide +kernel)
  · exact breached_of_run (c := 2) (a := ada)
      ([.requireOpen ⟨7, 2, ada⟩, .requireCurrent ⟨7, 2, ada⟩,
        .rekey [⟨"si:bot", "bot", "si:bot"⟩] (fun c => if c = 1 then 9 else 3),
        .send ⟨7, 2, ada⟩] ++ execs 0 9) (by decide +kernel)
  · exact breached_of_run (c := 1) (a := bot) (.bundle ⟨7, 1, bot⟩ :: execs 0 6)
      (by decide +kernel)

end Writing

end SiliconDm.Server
