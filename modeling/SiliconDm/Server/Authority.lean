import SiliconDm.Server.Management

/-!
# Who may change a group

A request keeps the ground that its check found: the ownership it manages through, the account of
that owner, or the custodian link. Between the check and the commit another request, a deletion, a
lookup or an event may take it away; in runs where none does, every change of a group is made by
an account that may make it.
-/

namespace SiliconDm.Server

open Base List Option

namespace Management

/-! ### The property -/

/-- The actor manages the group, or takes out Silicons that are its own. -/
def authorized (d : Database) (x : Request) : Bool :=
  managesGroup d x.actor x.group ||
    match x.change with
    | .remove members => members.all fun m => m.actorType = .silicon &&
        custodianOf d.accounts m.id = some x.actor.id
    | _ => false

def State.settings (s : State) (g : Nat) : Option Settings :=
  (getRow Group.conversation s.groups g).map (·.settings)

def Changed (s s' : State) (g : Nat) : Prop :=
  s'.settings g ≠ s.settings g ∨
    (∃ a, s'.committed.invitation g a ≠ s.committed.invitation g a) ∨
    ∃ a, s'.committed.owns g a ≠ s.committed.owns g a

/-- Changes that need no manager: a group's creation, what an account does with its own
invitation or membership, and its deletion. -/
def personal (g : Nat) : Task → Bool
  | .createGroup group .. | .resyncGroup group _ | .respondToInvitation group ..
  | .leaveGroup group .. => group = g
  | .deleteAccount .. => true
  | _ => false

/-- What a commit or an event can take away: ownerships, accounts, and custodian links. -/
structure Threat where
  disowns : Nat → ActorRef → Bool
  ends : String → Bool
  reassigns : String → String → Bool

def taskThreat (task : Task) : Threat where
  disowns c a := task.disowns c a
  ends uuid := task.ends uuid
  reassigns silicon custodian := taskReassigns silicon custodian task

def Naming.threat (e : Naming) : Threat where
  disowns _ _ := false
  ends _ := false
  reassigns silicon custodian := e.reassigns silicon custodian

/-- It takes away what a request was permitted for. -/
def Threat.overtakes (h : Threat) (d : Database) (p : Permit) : Bool :=
  match p.ground, p.request.change with
  | .custodian, .remove members => members.any fun m => h.reassigns m.id p.request.actor.id
  | _, _ =>
    d.owners.any fun o => o.conversation = p.request.group && managesThrough d p.request.actor o &&
      (h.disowns o.conversation o.actor || h.ends o.actor.id ||
        o.actor ≠ p.request.actor && h.reassigns o.actor.id p.request.actor.id)

/-- It changes what a removal has read about the caller's own Silicons. -/
def Threat.misleads (h : Threat) (r : Removal) : Bool :=
  r.custodial && r.accounts.any fun a => h.reassigns a.uuid r.actor.id

/-- No request loses its ground between its check and the end of its transaction; `own` is the
transaction that commits. -/
def State.heeds (s : State) (own : Option Nat) (h : Threat) : Bool :=
  s.resolving.all (!h.misleads ·) && s.permitted.all (!h.overtakes s.committed ·) &&
    s.sessions.active.all fun t => own = some t.id ||
      (s.serving.lookup t.id).all (!h.overtakes s.committed ·)

def undisturbed (s : State) : Label → Bool
  | .commit id => (s.sessions.find id).all fun t => s.heeds (some id) (taskThreat t.task)
  | .naming e => s.heeds none e.threat
  | _ => true

/-! ### Grounds stay -/

variable {d d' : Database} {t u : Open} {p : Permit}

structure Keeps (h : Threat) (d d' : Database) : Prop where
  owner : ∀ g a, h.disowns g a = false → d.owns g a = true → d'.owns g a = true
  live : ∀ uuid, h.ends uuid = false → d.deleted uuid = false → d'.deleted uuid = false
  custodian : ∀ silicon c, h.reassigns silicon c = false →
    custodianOf d.accounts silicon = some c → custodianOf d'.accounts silicon = some c

theorem keeps_view (hu : Standing d u) : Keeps (taskThreat u.task) d (store.view d u) where
  owner _ _ hdisowns howns := hu.owns_view hdisowns howns
  live uuid hends hlive := by
    by_contra hdel
    rcases hu.deleted_view (by simpa using hdel) with hold | hends'
    · simp [hlive] at hold
    · have hends : u.task.ends uuid = false := hends
      simp [hends] at hends'
  custodian _ _ hr hc := custodianOf_view hu hr hc

variable {e : Naming} {accounts : List Account} {h : Threat} {s : State}

theorem keeps_naming (h : e.apply d.accounts = some accounts) :
    Keeps e.threat d { d with accounts } where
  owner _ _ _ howns := howns
  live uuid _ hlive := (Naming.deleted h uuid).trans hlive
  custodian _ _ hr hc := Naming.custodian h hr hc

variable {actor : ActorRef}

theorem managesThrough_iff {o : Owner} :
    managesThrough d actor o = true ↔
      (o.actor = actor ∨ o.actor.actorType = .silicon ∧ actor.actorType = .carbon ∧
        custodianOf d.accounts o.actor.id = some actor.id) ∧ d.deleted o.actor.id = false := by
  simp [managesThrough, Database.custodianReads, custodianOf, and_assoc,
    Option.any_eq_true, bind_eq_some_iff]

theorem managesGroup_iff {g : Nat} :
    managesGroup d actor g = true ↔
      ∃ a, d.owns g a = true ∧ managesThrough d actor ⟨g, a⟩ = true := by
  simp only [managesGroup, List.any_eq_true, Bool.and_eq_true, decide_eq_true_eq, Database.owns]
  constructor
  · rintro ⟨⟨g', a⟩, ho, rfl, hm⟩
    exact ⟨a, ho, hm⟩
  · rintro ⟨a, ho, hm⟩
    exact ⟨⟨g, a⟩, ho, rfl, hm⟩

def Holds (d : Database) (p : Permit) : Prop :=
  match p.ground, p.request.change with
  | .custodian, .remove members => ∀ m ∈ members, m.actorType = .silicon ∧
      custodianOf d.accounts m.id = some p.request.actor.id
  | _, _ => managesGroup d p.request.actor p.request.group = true

theorem Holds.authorized (h : Holds d p) : authorized d p.request = true := by
  unfold Holds at h
  unfold Management.authorized
  split at h
  next members _ hchg =>
    rw [hchg]
    simpa using .inr h
  next => simp [h]

theorem Keeps.manages (hk : Keeps h d d') {g : Nat}
    (hm : managesGroup d actor g = true)
    (hn : ∀ a, d.owns g a = true → managesThrough d actor ⟨g, a⟩ = true →
      h.disowns g a = false ∧ h.ends a.id = false ∧
        (a ≠ actor → h.reassigns a.id actor.id = false)) : managesGroup d' actor g = true := by
  obtain ⟨a, howns, hthr⟩ := managesGroup_iff.mp hm
  obtain ⟨hdisowns, hends, hreassigns⟩ := hn a howns hthr
  obtain ⟨hwho, hlive⟩ := managesThrough_iff.mp hthr
  refine managesGroup_iff.mpr ⟨a, hk.owner g a hdisowns howns, managesThrough_iff.mpr ⟨?_, ?_⟩⟩
  · by_cases ha : a = actor
    · exact .inl ha
    · obtain ⟨hs, hc, hcus⟩ := hwho.resolve_left ha
      exact .inr ⟨hs, hc, hk.custodian _ _ (hreassigns ha) hcus⟩
  · exact hk.live _ hends hlive

theorem Keeps.holds (hk : Keeps h d d') (hp : Holds d p) (hn : h.overtakes d p = false) :
    Holds d' p := by
  unfold Holds Threat.overtakes at *
  split at hp
  next members hground hchg =>
    rw [hground, hchg] at hn
    simp only [List.any_eq_false, Bool.not_eq_true] at hn
    exact fun m hm => ⟨(hp m hm).1, hk.custodian _ _ (hn m hm) (hp m hm).2⟩
  next hne =>
    split at hn
    next members hground hchg => exact absurd hchg (hne members hground)
    next =>
      refine hk.manages hp fun a howns hthr => ?_
      have hmem : (⟨p.request.group, a⟩ : Owner) ∈ d.owners := by simpa [Database.owns] using howns
      have hthis := List.any_eq_false.mp hn _ hmem
      simp only [hthr, decide_true, Bool.and_self, Bool.true_and, Bool.or_eq_true,
        Bool.and_eq_true, decide_eq_true_eq, not_or, Bool.not_eq_true, not_and] at hthis
      exact ⟨hthis.1.1, hthis.1.2, hthis.2⟩

/-! ### Permits stay grounded -/

/-- What holds of the requests on their way. -/
structure Grounded (s : State) : Prop where
  supervised : store.Supervised (fun _ _ => true) Founded Standing s.sessions
  silicons : OnlySilicons s.committed.accounts
  resolving : ∀ r ∈ s.resolving, r.custodial = true → ∀ a ∈ r.accounts, a.kind = .silicon ∧
    custodianOf s.committed.accounts a.uuid = some r.actor.id
  permitted : ∀ p ∈ s.permitted, Holds s.committed p
  below : ∀ e ∈ s.serving, e.1 < s.sessions.fresh
  served : ∀ t ∈ s.sessions.active, managing t.task = true → (s.serving.lookup t.id).isSome
  serving : ∀ t ∈ s.sessions.active, ∀ p, s.serving.lookup t.id = some p →
    (∃ acquired now, t.task = p.request.task acquired now) ∧ Holds s.committed p

/-- Every request on its way keeps its ground in another database; `own` is no longer on its
way. -/
structure Heeded (s : State) (own : Option Nat) (d' : Database) : Prop where
  silicons : OnlySilicons s.committed.accounts → OnlySilicons d'.accounts
  resolving : ∀ r ∈ s.resolving, r.custodial = true → ∀ a ∈ r.accounts,
    custodianOf s.committed.accounts a.uuid = some r.actor.id →
      custodianOf d'.accounts a.uuid = some r.actor.id
  permitted : ∀ p ∈ s.permitted, Holds s.committed p → Holds d' p
  serving : ∀ t ∈ s.sessions.active, own ≠ some t.id → ∀ p, s.serving.lookup t.id = some p →
    Holds s.committed p → Holds d' p

section

variable {s s' : State} {action : Action Task}
  {sessions : Sessions Database Statement Check Write Lock Task}

theorem Heeded.refl (s : State) (own : Option Nat) : Heeded s own s.committed where
  silicons := id
  resolving _ _ _ _ _ := id
  permitted _ _ := id
  serving _ _ _ _ _ := id

theorem heeded_of_heeds {own : Option Nat} (hheeds : s.heeds own h = true)
    (hk : Keeps h s.committed d')
    (hs : OnlySilicons s.committed.accounts → OnlySilicons d'.accounts) :
    Heeded s own d' := by
  simp only [State.heeds, Bool.and_eq_true, List.all_eq_true, Bool.not_eq_true', Bool.or_eq_true,
    decide_eq_true_eq] at hheeds
  obtain ⟨⟨hresolving, hpermitted⟩, hserving⟩ := hheeds
  constructor
  case silicons => exact hs
  case resolving =>
    intro r hr hcust a ha hc
    have hn := hresolving r hr
    simp only [Threat.misleads, hcust, Bool.true_and, List.any_eq_false,
      Bool.not_eq_true] at hn
    exact hk.custodian _ _ (hn a ha) hc
  case permitted =>
    intro p hp hho
    exact hk.holds hho (hpermitted p hp)
  case serving =>
    intro t ht hown p hp hho
    have hn := (hserving t ht).resolve_left hown
    rw [hp, all_some] at hn
    exact hk.holds hho (by simpa using hn)

/-- What a step of the store leaves of the requests that are still on their way. -/
theorem Grounded.heeded (h : Grounded s) (hs : store.step s.sessions action = some sessions)
    (hc : ∀ t, action = .commit t.id → s.sessions.find t.id = some t →
      s.heeds (some t.id) (taskThreat t.task) = true) :
    ∃ own, Heeded s own sessions.committed ∧ ∀ t ∈ sessions.active, own ≠ some t.id := by
  rcases Language.committed_of_step hs with he | ⟨u, hu, hfind, hact, -, -, rfl⟩
  · exact ⟨none, he ▸ Heeded.refl s none, by simp⟩
  · refine ⟨some u.id, heeded_of_heeds (hc u hact hfind)
      (keeps_view (h.supervised.transaction u hu)) onlySilicons_applyAll, fun t ht he => ?_⟩
    exact (Sessions.mem_discard.mp ht).2 (Option.some.inj he).symm

theorem fresh_of_step (hs : store.step s.sessions action = some sessions) :
    s.sessions.fresh ≤ sessions.fresh := by
  cases Language.effect_of_step hs with
  | start task => exact Nat.le_succ _
  | exec | commit | ended => exact Nat.le_refl _

theorem Grounded.lookup_fresh (h : Grounded s) :
    s.serving.lookup s.sessions.fresh = none := by
  rw [lookup_eq_none_iff]
  intro e he
  have hlt := h.below e he
  rw [bne_iff_ne]
  omega

/-- A step of the store that begins no manager's request. -/
theorem Grounded.store_step (h : Grounded s) (hs : store.step s.sessions action = some sessions)
    (hc : ∀ t, action = .commit t.id → s.sessions.find t.id = some t →
      s.heeds (some t.id) (taskThreat t.task) = true)
    (hnew : ∀ task, action = .start task → managing task = false) : Grounded { s with sessions } := by
  obtain ⟨own, hhd, hown⟩ := h.heeded hs hc
  constructor
  case supervised =>
    refine h.supervised.step standing_relyGuarantee ?_ hs
    cases action <;> simp [Language.supervised]
  case silicons => exact hhd.silicons h.silicons
  case resolving =>
    intro r hr hcust a ha
    obtain ⟨hkind, hcus⟩ := h.resolving r hr hcust a ha
    exact ⟨hkind, hhd.resolving r hr hcust a ha hcus⟩
  case permitted => exact fun p hp => hhd.permitted p hp (h.permitted p hp)
  case below => exact fun e he => Nat.lt_of_lt_of_le (h.below e he) (fresh_of_step hs)
  case served =>
    intro t ht hmng
    rcases Language.origin_of_step hs ht with ⟨u, hu, hid, htask⟩ | ⟨hact, -⟩
    · have := h.served u hu (htask ▸ hmng)
      rwa [hid] at this
    · rw [hnew t.task hact] at hmng
      cases hmng
  case serving =>
    intro t ht p (hp : s.serving.lookup t.id = some p)
    rcases Language.origin_of_step hs ht with ⟨u, hu, hid, htask⟩ | ⟨-, hid⟩
    · rw [← hid] at hp
      obtain ⟨hserves, hho⟩ := h.serving u hu p hp
      refine ⟨htask ▸ hserves, hhd.serving u hu ?_ p hp hho⟩
      exact hid ▸ hown t ht
    · rw [hid, h.lookup_fresh] at hp
      cases hp

/-- The transaction of a permit begins. -/
theorem Grounded.serve (h : Grounded s) {p : Permit} {acquired : Bool} {now : Nat}
    (hp : p ∈ s.permitted)
    (hs : store.step s.sessions (.start (p.request.task acquired now)) = some sessions) :
    Grounded { s with
      sessions
      permitted := s.permitted.erase p
      serving := s.serving ++ [(s.sessions.fresh, p)] } := by
  have hsupervised : store.Supervised (fun _ _ => true) Founded Standing sessions :=
    h.supervised.step standing_relyGuarantee (by simp [Language.supervised]) hs
  cases hs
  -- the new entry is found under the new transaction only
  have hlookup : ∀ t ∈ s.sessions.active,
      (s.serving ++ [(s.sessions.fresh, p)]).lookup t.id = s.serving.lookup t.id := by
    intro t ht
    have hne : (t.id == s.sessions.fresh) = false :=
      beq_false_of_ne (Nat.ne_of_lt (h.supervised.orderly.below t ht))
    simp [lookup_append, lookup_cons, hne]
  have hself : (s.serving ++ [(s.sessions.fresh, p)]).lookup s.sessions.fresh = some p := by
    simp [lookup_append, h.lookup_fresh]
  constructor
  case supervised => exact hsupervised
  case silicons => exact h.silicons
  case resolving => exact h.resolving
  case permitted => exact fun q hq => h.permitted q (mem_of_mem_erase hq)
  case below =>
    exact forall_mem_concat.mpr
      ⟨fun e he => Nat.lt_succ_of_lt (h.below e he), Nat.lt_succ_self _⟩
  case served =>
    intro t ht hmng
    rcases mem_concat.mp ht with ht | rfl
    · rw [hlookup t ht]
      exact h.served t ht hmng
    · exact isSome_of_eq_some hself
  case serving =>
    intro t ht q hq
    rcases mem_concat.mp ht with ht | rfl
    · rw [hlookup t ht] at hq
      exact h.serving t ht q hq
    · cases hself.symm.trans hq
      exact ⟨⟨acquired, now, rfl⟩, h.permitted p hp⟩

/-- Nothing that the transactions rely on is in the account rows. -/
theorem supervised_accounts (h : store.Supervised (fun _ _ => true) Founded Standing sessions)
    (accounts : List Account) : store.Supervised (fun _ _ => true) Founded Standing
      { sessions with committed := { sessions.committed with accounts } } where
  orderly := ⟨h.orderly.below, h.orderly.covered, h.orderly.exclusive⟩
  compatible := h.compatible
  committed := ⟨h.committed.keyed, h.committed.groups⟩
  transaction t ht := by
    have hst := h.transaction t ht
    exact ⟨hst.disciplined, hst.dismisses, hst.disowns, hst.member, hst.owner, hst.grouped,
      hst.created, hst.inserts, hst.messages⟩

theorem Grounded.naming (h : Grounded s) (happ : e.apply s.committed.accounts = some accounts)
    (hc : s.heeds none e.threat = true) :
    Grounded { s with
      sessions := { s.sessions with committed := { s.committed with accounts } } } := by
  have hhd : Heeded s none { s.committed with accounts } :=
    heeded_of_heeds hc (keeps_naming happ) (Naming.onlySilicons happ)
  constructor
  case supervised => exact supervised_accounts h.supervised accounts
  case silicons => exact hhd.silicons h.silicons
  case resolving =>
    intro r hr hcust a ha
    obtain ⟨hkind, hcus⟩ := h.resolving r hr hcust a ha
    exact ⟨hkind, hhd.resolving r hr hcust a ha hcus⟩
  case permitted => exact fun p hp => hhd.permitted p hp (h.permitted p hp)
  case below => exact h.below
  case served => exact h.served
  case serving =>
    intro t ht p hp
    obtain ⟨hserves, hho⟩ := h.serving t ht p hp
    exact ⟨hserves, hhd.serving t ht (by simp) p hp hho⟩

/-! ### The checks give the ground -/

variable {g : Nat}

theorem requireManager_eq_ok {issuingApp : Option String} {actor : ActorRef}
    (h : requireManager d issuingApp actor g = .ok ()) : managesGroup d actor g = true := by
  cases issuingApp with
  | some app => cases h
  | none =>
    by_contra hno
    simp [requireManager, requireOwnSession, hno, bind, Except.bind] at h

variable {r : Removal} {a : ActorRef}

theorem Grounded.resolve (h : Grounded s) {uuid : String} {row : Account} (hr : r ∈ s.resolving)
    (hrow : account s.committed.accounts uuid = some row)
    (hcust : (r.resolve row).custodial = true) : ∀ a ∈ (r.resolve row).accounts,
      a.kind = .silicon ∧ custodianOf s.committed.accounts a.uuid = some r.actor.id := by
  unfold Removal.resolve at *
  split at hcust
  next hknown =>
    rw [if_pos hknown]
    exact h.resolving r hr hcust
  next hnew =>
    rw [if_neg hnew]
    simp only [Removal.custodial, all_append, all_cons, all_nil, Bool.and_true,
      Bool.and_eq_true, decide_eq_true_eq] at hcust
    intro a ha
    rcases mem_concat.mp ha with ha | rfl
    · exact h.resolving r hr hcust.1 a ha
    · obtain ⟨-, huuid⟩ := mem_of_getRow_eq_some hrow
      refine ⟨h.silicons uuid a hrow (by simp [hcust.2]), ?_⟩
      rw [huuid, custodianOf, hrow]
      exact hcust.2

theorem Grounded.permit (h : Grounded s) (hr : r ∈ s.resolving)
    (hok : requireRemover s.committed r = .ok ()) : Holds s.committed (r.permit s.committed) := by
  unfold requireRemover at hok
  unfold Holds Removal.permit
  by_cases hman : managesGroup s.committed r.actor r.group = true
  · rw [if_pos hman]
    exact hman
  · have hcust : r.custodial = true := by
      by_contra hno
      simp [hman, hno] at hok
    rw [if_neg hman]
    intro m hm
    obtain ⟨a, ha, rfl⟩ := List.mem_map.mp hm
    exact h.resolving r hr hcust a ha

theorem Grounded.step (h : Grounded s) {l : Label} (hc : undisturbed s l = true)
    (hs : s.step l = some s') : Grounded s' := by
  cases stepped_of_step hs with
  | requireManager issuingApp x hok =>
    refine { h with permitted := fun p hp => ?_ }
    rcases mem_concat.mp hp with hp | rfl
    · exact h.permitted p hp
    · exact requireManager_eq_ok hok
  | openRemoval actor group =>
    refine { h with resolving := fun r hr => ?_ }
    rcases mem_concat.mp hr with hr | rfl
    · exact h.resolving r hr
    · simp
  | resolve r uuid row hr hrow =>
    refine { h with resolving := fun r' hr' => ?_ }
    rcases mem_concat.mp hr' with hr' | rfl
    · exact h.resolving r' (mem_of_mem_erase hr')
    · intro hcust
      have hac : (r.resolve row).actor = r.actor := by
        unfold Removal.resolve
        split <;> rfl
      rw [hac]
      exact h.resolve hr hrow hcust
  | requireRemover r hr hok =>
    refine { h with
      resolving := fun r' hr' => h.resolving r' (mem_of_mem_erase hr')
      permitted := fun p hp => ?_ }
    rcases mem_concat.mp hp with hp | rfl
    · exact h.permitted p hp
    · exact h.permit hr hok
  | serve p acquired now sessions hp hstep => exact h.serve hp hstep
  | create settings group creator invitees now sessions hstep =>
    have hstd := h.store_step hstep (by simp) fun task he => by
      obtain rfl := Action.start.inj he
      rfl
    exact { hstd with }
  | db action sessions hresv hstep =>
    refine h.store_step hstep ?_ ?_
    · rintro t rfl
      cases hresv
    · rintro task rfl
      cases task <;> first | rfl | cases hresv
  | commit t sessions ht hstep =>
    have hen := h.store_step hstep (fun u he hu => ?_) (by simp)
    · exact { hen with }
    · rw [← Action.commit.inj he] at hu ⊢
      obtain rfl : t = u := Option.some.inj (ht.symm.trans hu)
      simpa [undisturbed, ht] using hc
  | conflict t sessions hstep => exact h.store_step hstep (by simp) (by simp)
  | naming e accounts happ => exact h.naming happ hc

theorem grounded_of_reachable {initial : Database → List Group → Prop}
    (hinit : ∀ d groups, initial d groups → Founded d ∧ OnlySilicons d.accounts)
    (h : (managed initial).ReachableWhile (fun s l => undisturbed s l = true) s) : Grounded s := by
  apply h.invariant
  · rintro s ⟨d, groups, hd, rfl⟩
    obtain ⟨hfounded, hsilicons⟩ := hinit d groups hd
    constructor
    case supervised => exact .boot hfounded
    case silicons => exact hsilicons
    all_goals simp [Sessions.boot]
  · intro s l s' hs hc hstep
    exact hs.step hc hstep

/-! ### Who made a change -/

theorem owns_applyAll {ws : List Write} (h : ∀ w ∈ ws, w.key ≠ .owner g a) :
    (store.applyAll d ws).owns g a = d.owns g a := by
  refine store.applyAll_eq (f := fun d => d.owns g a) fun w hw d => ?_
  have hkey := h w hw
  cases w with
  | owner row =>
    have hne : ⟨g, a⟩ ≠ row := fun he => hkey (by simp [Write.key, ← he])
    exact (owns_owner row g a).trans (by simp [hne])
  | disown row =>
    have hne : ⟨g, a⟩ ≠ row := fun he => hkey (by simp [Write.key, ← he])
    exact (owns_disown row g a).trans (by simp [hne])
  | _ => rfl

/-- Rows of a group are written by its own requests and by deletions. -/
theorem scope_of_key (ht : Standing d t) {w : Write} (hw : w ∈ t.writes)
    (hk : w.key = .invitation g a ∨ w.key = .owner g a) :
    t.task.scope = .group g ∨ ∃ uuid, t.task.scope = .deletion uuid := by
  have halw := ht.disciplined.writes w hw
  cases hs : t.task.scope with
  | deletion uuid => exact .inr ⟨uuid, rfl⟩
  | group g' =>
    left
    rw [hs] at halw
    cases w <;> simp [Write.key, Scope.allows] at hk halw <;> simp [← halw, hk]
  | message | lookup | upkeep =>
    rw [hs] at halw
    cases w <;> simp [Write.key, Scope.allows] at hk halw

theorem scope_of_changed (ht : Standing d t)
    (h : (∃ a, (store.view d t).invitation g a ≠ d.invitation g a) ∨
      ∃ a, (store.view d t).owns g a ≠ d.owns g a) :
    t.task.scope = .group g ∨ ∃ uuid, t.task.scope = .deletion uuid := by
  by_contra hno
  rcases h with ⟨a, hne⟩ | ⟨a, hne⟩
  · exact hne (invitation_applyAll fun w hw hk => hno (scope_of_key ht hw (.inl hk)))
  · exact hne (owns_applyAll fun w hw hk => hno (scope_of_key ht hw (.inr hk)))

theorem scope_task (x : Request) (acquired : Bool) (now : Nat) :
    (x.task acquired now).scope = .group x.group := by
  unfold Request.task
  cases x.change <;> rfl

theorem bumps_task (x : Request) (acquired : Bool) (now : Nat) :
    bumps (x.task acquired now) = if acquired then some x.group else none := by
  unfold Request.task
  cases x.change <;> rfl

/-- A transaction of a group, or a deletion, needs no manager or is one of a manager. -/
theorem personal_or_managing {task : Task}
    (h : task.scope = .group g ∨ ∃ uuid, task.scope = .deletion uuid) :
    personal g task = true ∨ managing task = true ∧ task.scope = .group g := by
  rcases h with h | ⟨uuid, h⟩
  · cases task <;> cases h <;> simp [personal, managing, Task.scope]
  · cases task <;> cases h
    exact .inl rfl

/-- The settings of a group change with its creation, or with a request that brings new ones. -/
theorem settings_commit (t : Open) (hcr : personal g t.task = false)
    (hupd : bumps t.task = some g → s.update t.id = none) :
    (getRow Group.conversation (s.groups.map (s.rewritten t) ++ s.inserted t) g).map (·.settings) =
      s.settings g := by
  have hk : ∀ row, (s.rewritten t row).conversation = row.conversation := by
    intro row
    unfold State.rewritten
    split <;> rfl
  have hmap : (getRow Group.conversation (s.groups.map (s.rewritten t)) g).map (·.settings) =
      s.settings g := by
    rw [getRow_map hk]
    unfold State.settings
    cases hr : getRow Group.conversation s.groups g with
    | none => rfl
    | some row =>
      obtain ⟨-, rfl⟩ := mem_of_getRow_eq_some hr
      simp only [map_some, State.rewritten]
      split
      next hbumps => rw [hupd hbumps]; rfl
      next => rfl
  unfold State.inserted
  split
  next g' creator invitees now settings htask _ =>
    have hne : g' ≠ g := by simpa [htask, personal] using hcr
    rw [getRow_append_singleton, if_neg hne, or_none]
    exact hmap
  next => rw [append_nil]; exact hmap

theorem not_changed (hgrps : s'.groups = s.groups)
    (hinvs : s'.committed.invitations = s.committed.invitations)
    (howners : s'.committed.owners = s.committed.owners) : ¬ Changed s s' g := by
  unfold Changed State.settings Database.invitation Database.owns
  simp [hgrps, hinvs, howners]

/-- A manager made the change of the group, in the state it commits in, or it needs none. -/
structure Made (s : State) (l : Label) (g : Nat) (t : Open) : Prop where
  mem : t ∈ s.sessions.active
  commits : l = .commit t.id
  maker : personal g t.task = true ∨ ∃ p acquired now, s.serving.lookup t.id = some p ∧
    t.task = p.request.task acquired now ∧ p.request.group = g ∧
      authorized s.committed p.request = true

/-- The transaction that changes a group at its commit. -/
theorem Grounded.made (h : Grounded s) (ht : s.sessions.find t.id = some t)
    (hchd : personal g t.task = true ∨ bumps t.task = some g ∧ (s.update t.id).isSome = true ∨
      managing t.task = true ∧ t.task.scope = .group g) : Made s (.commit t.id) g t := by
  obtain ⟨hm, -⟩ := Sessions.mem_of_find ht
  refine ⟨hm, rfl, ?_⟩
  rcases hchd with hpers | ⟨hbumps, hupd⟩ | ⟨hmng, hsc⟩
  · exact .inl hpers
  · right
    obtain ⟨update, hupd⟩ := isSome_iff_exists.mp hupd
    obtain ⟨p, hp, -⟩ := bind_eq_some_iff.mp hupd
    obtain ⟨⟨acquired, now, htask⟩, hho⟩ := h.serving t hm p hp
    rw [htask, bumps_task] at hbumps
    cases acquired with
    | false => cases hbumps
    | true => exact ⟨p, true, now, hp, htask, Option.some.inj hbumps, hho.authorized⟩
  · right
    obtain ⟨p, hp⟩ := isSome_iff_exists.mp (h.served t hm hmng)
    obtain ⟨⟨acquired, now, htask⟩, hho⟩ := h.serving t hm p hp
    rw [htask, scope_task] at hsc
    exact ⟨p, acquired, now, hp, htask, Scope.group.inj hsc, hho.authorized⟩

/-- Every change of a group is made by an account that may make it when it commits, in every run
in which nothing takes the ground of a request away between its check and its commit. -/
theorem manager_at_commit {initial : Database → List Group → Prop}
    (hinit : ∀ d groups, initial d groups → Founded d ∧ OnlySilicons d.accounts)
    (h : (managed initial).ReachableWhile (fun s l => undisturbed s l = true) s) {l : Label}
    (hs : (managed initial).step s l = some s') {g : Nat} (hchanged : Changed s s' g) :
    ∃ t, Made s l g t := by
  have hgrounded := grounded_of_reachable hinit h
  have hs : s.step l = some s' := hs
  cases stepped_of_step hs with
  | requireManager | openRemoval | resolve | requireRemover | naming =>
    exact absurd hchanged (not_changed rfl rfl rfl)
  | serve p acquired now sessions hp hstep
  | create settings group creator invitees now sessions hstep | conflict t sessions hstep =>
    have he := Language.committed_of_ne_commit hstep (by simp)
    exact absurd hchanged (not_changed rfl (congrArg _ he) (congrArg _ he))
  | db action sessions hreserved hstep =>
    have he := Language.committed_of_ne_commit hstep fun id hid => by simp [hid, reserved] at hreserved
    exact absurd hchanged (not_changed rfl (congrArg _ he) (congrArg _ he))
  | commit t sessions ht hstep =>
    refine ⟨t, hgrounded.made ht ?_⟩
    have hstanding := hgrounded.supervised.transaction t (Sessions.mem_of_find ht).1
    by_cases hpersonal : personal g t.task = true
    · exact .inl hpersonal
    by_cases hupdate : bumps t.task = some g ∧ (s.update t.id).isSome = true
    · exact .inr (.inl hupdate)
    right; right
    -- the settings stay, so it is an invitation or an ownership
    have hrows : (∃ a, sessions.committed.invitation g a ≠ s.committed.invitation g a) ∨
        ∃ a, sessions.committed.owns g a ≠ s.committed.owns g a := by
      refine hchanged.resolve_left (not_not.mpr ?_)
      have hnone : bumps t.task = some g → s.update t.id = none := by
        intro hbumps
        simpa [hbumps] using hupdate
      have hcommit := settings_commit t (by simpa using hpersonal) hnone
      simp only [State.settings] at hcommit ⊢
      split
      · exact hcommit
      · rfl
    rcases Language.committed_of_commit hstep ht with he | he
    · have he : sessions.committed = s.committed := he
      simp [he] at hrows
    · rw [he] at hrows
      exact (personal_or_managing (scope_of_changed hstanding hrows)).resolve_left hpersonal

end

/-! ### Concrete runs -/

def ada : ActorRef := ⟨.carbon, "ada"⟩

def eve : ActorRef := ⟨.carbon, "eve"⟩

def mia : ActorRef := ⟨.carbon, "mia"⟩

def bot : ActorRef := ⟨.silicon, "bot"⟩

def botRow : Account :=
  { Account.new "bot" .silicon with custodianUuid := some "mia" }

/-- Ada and Eve own a group that the bot is a member of. -/
def crewDatabase : Database :=
  { Database.empty with
    accounts := [botRow]
    conversations := [⟨1, true, 1⟩]
    participants := [⟨1, ada, 0⟩, ⟨1, eve, 0⟩, ⟨1, bot, 0⟩]
    owners := [⟨1, ada⟩, ⟨1, eve⟩]
    invitations := [⟨1, ada, .accepted, some 0, some 0⟩, ⟨1, eve, .accepted, some 0, some 0⟩,
      ⟨1, bot, .accepted, some 0, some 0⟩] }

def crew : List Group :=
  [⟨1, ⟨"Crew", ""⟩, 1⟩]

def crewStart : State where
  sessions := .boot crewDatabase
  groups := crew
  resolving := []
  permitted := []
  serving := []
  creating := []

def crewRuns : System State Label :=
  managed fun d groups => d = crewDatabase ∧ groups = crew

theorem crewRuns_init : crewRuns.init crewStart :=
  ⟨crewDatabase, crew, ⟨rfl, rfl⟩, rfl⟩

theorem founded_crewDatabase : Founded crewDatabase ∧ OnlySilicons crewDatabase.accounts := by
  refine ⟨⟨?_, ?_⟩, ?_⟩
  · show (crewDatabase.invitations.map Invitation.key).Nodup
    decide
  · decide
  · intro u a ha hc
    obtain ⟨hm, -⟩ := mem_of_getRow_eq_some ha
    obtain rfl := mem_singleton.mp hm
    rfl

def execs (id n : Nat) : List Label :=
  List.replicate n (.db (.exec id))

def takeOut : List Label :=
  [.openRemoval mia 1, .resolve ⟨mia, 1, []⟩ "bot", .requireRemover ⟨mia, 1, [botRow]⟩]

def removal : Permit :=
  ⟨⟨mia, 1, .remove [bot]⟩, .custodian⟩

def demotion : List Label :=
  [.requireManager none ⟨eve, 1, .owners [ada] false⟩,
    .serve ⟨⟨eve, 1, .owners [ada] false⟩, .manager⟩ true 5] ++ execs 0 8 ++ [.commit 0]

/-- The commit of a transaction changes an account's invitation to the group. -/
def changesInvitation (id : Nat) (a : ActorRef) (s : State) : Bool :=
  (s.step (.commit id)).any fun s' => s'.committed.invitation 1 a ≠ s.committed.invitation 1 a

variable {id : Nat}

theorem changesInvitation_eq_true {a : ActorRef} (h : changesInvitation id a s = true) :
    ∃ s', s.step (.commit id) = some s' ∧ Changed s s' 1 := by
  simp only [changesInvitation, Option.any_eq_true, decide_eq_true_eq] at h
  obtain ⟨s', hs, hne⟩ := h
  exact ⟨s', hs, .inr (.inl ⟨a, hne⟩)⟩

/-- The custodian takes its Silicon out while one owner demotes the other. -/
theorem manager_at_commit_removal : ∃ s s',
    crewRuns.ReachableWhile (fun s l => undisturbed s l = true) s ∧
      crewRuns.step s (.commit 1) = some s' ∧ Changed s s' 1 ∧ ∃ t, Made s (.commit 1) 1 t := by
  obtain ⟨s, hs, hp⟩ : ∃ s, crewRuns.ReachableWhile (fun s l => undisturbed s l = true) s ∧
      changesInvitation 1 bot s = true :=
    ⟨_, System.reachableWhile_get (takeOut ++ demotion ++ [.serve removal true 6] ++ execs 1 8)
      crewRuns_init (by decide +kernel), by decide +kernel⟩
  obtain ⟨s', hstep, hchanged⟩ := changesInvitation_eq_true hp
  have hstep : crewRuns.step s (.commit 1) = some s' := hstep
  refine ⟨s, s', hs, hstep, hchanged, manager_at_commit ?_ hs hstep hchanged⟩
  rintro d groups ⟨rfl, -⟩
  exact founded_crewDatabase

/-- Nobody who may make the change of a transaction makes it. -/
def unauthorized (id : Nat) (s : State) : Bool :=
  s.sessions.active.all (fun t => t.id ≠ id || !personal 1 t.task) &&
    (s.serving.lookup id).all fun p => !authorized s.committed p.request

theorem not_made (h : unauthorized id s = true) (t : Open) :
    ¬ Made s (.commit id) 1 t := by
  rintro ⟨hm, hcmt, hmaker⟩
  obtain rfl := Label.commit.inj hcmt
  simp only [unauthorized, Bool.and_eq_true, List.all_eq_true, Bool.or_eq_true,
    decide_eq_true_eq, Bool.not_eq_true'] at h
  rcases hmaker with hpers | ⟨p, acquired, now, hp, -, -, hauthorized⟩
  · have hn := (h.1 t hm).resolve_left (not_not.mpr rfl)
    rw [hpers] at hn
    cases hn
  · simp [hp, hauthorized] at h

/-- A change commits that its maker may no longer make. -/
def Overruled (id : Nat) : Prop :=
  ∃ s s', crewRuns.Reachable s ∧ crewRuns.step s (.commit id) = some s' ∧ Changed s s' 1 ∧
    ∀ t, ¬ Made s (.commit id) 1 t

theorem overruled_of_run (ls : List Label) {a : ActorRef}
    (h : (crewRuns.run crewStart ls).any (fun s => changesInvitation id a s && unauthorized id s) =
      true) : Overruled id := by
  simp only [Option.any_eq_true, Bool.and_eq_true] at h
  obtain ⟨s, hrun, hp⟩ := h
  obtain ⟨s', hstep, hchd⟩ := changesInvitation_eq_true hp.1
  exact ⟨s, s', ⟨_, crewRuns_init, System.steps_of_run hrun⟩, hstep, hchd, not_made hp.2⟩

/-- Ada invites after the demotion, and Mia removes the bot after it changed hands. -/
theorem demoted_owner_changes_group : Overruled 1 ∧ Overruled 0 := by
  refine ⟨?_, ?_⟩
  · exact overruled_of_run (a := mia) ([.requireManager none ⟨ada, 1, .invite [⟨mia, false⟩]⟩] ++
      demotion ++ [.serve ⟨⟨ada, 1, .invite [⟨mia, false⟩]⟩, .manager⟩ true 6] ++ execs 1 7)
      (by decide +kernel)
  · exact overruled_of_run (a := bot) (takeOut ++
      [.naming (.custodianChanged "bot" ("zoe", "c:zoe") 3), .serve removal true 6] ++ execs 0 8)
      (by decide +kernel)

end Management

end SiliconDm.Server
