import SiliconDm.Base.System
import SiliconDm.Server.Steady

/-!
# Starting direct conversations

Requests that create a direct conversation, or send to a recipient without one, beside the
conversations DM opens between a Silicon and its custodian. A request resolves its accounts,
looks for the conversation, checks the reach rules account by account, counts what its account
started in the last hour, and creates; each is a store call of its own, so requests interleave
between any two of them, and accounts and allow-lists change in between.

A creation is one transaction. Its rows carry the time it began, and a conversation of the set
that committed before it is found instead (the index of canonical conversations makes a second
insert wait), so what it does is decided at its commit.

Sources: `src/api/access.rs:135–226`, `src/api/handlers.rs:139–172`,
`src/infrastructure/postgres/conversations.rs:73–191,305–362`,
`src/application/accounts.rs:207–252`, `postgres/accounts.rs:433–466`.
-/

namespace SiliconDm.Server.FirstContact

open Base Backend List

/-! ### The system -/

inductive Phase where
  | starting
  | reaching (rest : List Account)
  | ready
  | began (since : Nat)
  deriving DecidableEq, Repr

/-- A request under way. `admitted` is history: for each Silicon that was checked, who of the
participants could reach it at that moment. -/
structure Request where
  id : Nat
  creator : ActorRef
  automatic : Bool
  key : Option String
  others : List Account
  participants : List ActorRef
  phase : Phase
  admitted : List (String × String)
  deriving DecidableEq, Repr

/-- A direct conversation that came into being: its row, when it committed, and the request's
history. -/
structure Created where
  direct : Direct
  committedAt : Nat
  automatic : Bool
  admitted : List (String × String)
  deriving DecidableEq, Repr

structure State where
  now : Nat
  backend : Backend
  requests : List Request
  fresh : Nat
  created : List Created

inductive Action where
  | tick (elapsed : Nat)
  | outside (accounts : List Account) (allowances : List Allowance)
  | create (caller : ActorRef) (uuids : List String) (key : String)
  | sendTo (caller : ActorRef) (uuid : String)
  | ensure (actor : ActorRef)
  | look (request : Nat)
  | reach (request : Nat)
  | count (request : Nat)
  | begin (request : Nat)
  | commit (request conversation : Nat)
  | drop (request : Nat)
  deriving DecidableEq, Repr

def Action.request : Action → Option Nat
  | .look request | .reach request | .count request | .begin request | .commit request _
  | .drop request => some request
  | .tick _ | .outside .. | .create .. | .sendTo .. | .ensure _ => none

def State.find (s : State) (request : Nat) : Option Request :=
  getRow Request.id s.requests request

def State.replace (s : State) (r : Request) : State :=
  { s with requests := put Request.id r s.requests }

def State.close (s : State) (request : Nat) : State :=
  { s with requests := s.requests.filter (·.id ≠ request) }

/-- The participants that may reach a Silicon now. -/
def admittedBy (b : Backend) (silicon : String) (participants : List ActorRef) :
    List (String × String) :=
  (participants.filter fun p => b.mayReachSilicon silicon p.id).map fun p => (silicon, p.id)

def State.push (s : State) (r : Request) : State :=
  { s with requests := s.requests ++ [r], fresh := s.fresh + 1 }

/-- A call of `start_conversation`. -/
def State.start (s : State) (caller : ActorRef) (others : List Account) (key : Option String) :
    State :=
  s.push {
    id := s.fresh, creator := caller, automatic := false, key, others
    participants := others.map Account.actor ++ [caller]
    phase := .starting, admitted := [] }

/-- The Silicon and the custodian of each conversation `ensure_custodian_conversations` opens.
`application/accounts.rs:213–246`. -/
def custodianPairs (accounts : List Account) (actor : ActorRef) : List (ActorRef × ActorRef) :=
  match actor.actorType with
  | .silicon =>
    match (account accounts actor.id).bind (·.custodianUuid) with
    | some custodian => [(actor, ⟨.carbon, custodian⟩)]
    | none => []
  | .carbon =>
    (accounts.filter fun row => row.custodianUuid = some actor.id && row.kind = .silicon &&
      row.status = .active).map fun row => (⟨.silicon, row.uuid⟩, actor)

/-- A call of `ensure_direct_conversation`. -/
def automaticRequest (b : Backend) (id : Nat) (pair : ActorRef × ActorRef) : Request where
  id := id
  creator := pair.1
  automatic := true
  key := none
  others := []
  participants := [pair.1, pair.2]
  phase := .ready
  admitted := admittedBy b pair.1.id [pair.1, pair.2]

def State.ensure (s : State) (actor : ActorRef) : State :=
  (custodianPairs s.backend.db.accounts actor).foldl
    (fun s pair => s.push (automaticRequest s.backend s.fresh pair)) s

/-- The transaction of a request. `conversations.rs:75–136,143–154`. -/
def Request.creation (d : Deployment) (e : Moment) (r : Request) : Serve Nat :=
  transaction <|
    if r.automatic then do
      query fun _ => require (r.participants.dedup.length = 2)
        (.validation "a conversation needs two different accounts")
      canonicalOrInsert e r.creator r.participants.dedup
    else createConversation d e r.creator r.participants
      (r.key.getD ("recipient-chat:" ++ toString (d.requestHash (.participants r.participants))))

/-- One store call of one request. A request that is refused or answered is over. -/
def State.advance (d : Deployment) (s : State) (r : Request) : Action → Option State
  | .look _ =>
    match r.phase with
    | .starting =>
      match s.backend.canonicalDirect r.participants with
      | some _ => some (s.close r.id)
      | none => some (s.replace { r with phase := .reaching r.others })
    | _ => none
  | .reach _ =>
    match r.phase with
    | .reaching (other :: rest) =>
      if other.status = .deleted then some (s.close r.id)
      else
        match s.backend.requireMayReach r.creator other with
        | .error _ => some (s.close r.id)
        | .ok _ => some (s.replace { r with
            phase := .reaching rest
            admitted := r.admitted ++ admittedBy s.backend other.uuid r.participants })
    | _ => none
  | .count _ =>
    match r.phase with
    | .reaching [] =>
      if s.backend.startedLastHour r.creator s.now < firstContactsPerHour then
        some (s.replace { r with phase := .ready })
      else some (s.close r.id)
    | _ => none
  | .begin _ =>
    match r.phase with
    | .ready => some (s.replace { r with phase := .began s.now })
    | _ => none
  | .commit _ conversation =>
    match r.phase with
    | .began since =>
      let (_, b) := r.creation d ⟨since, conversation, 0, 0⟩ s.backend
      some { s.close r.id with
        backend := b
        created := s.created ++ (b.directs.drop s.backend.directs.length).map
          (⟨·, s.now, r.automatic, r.admitted⟩) }
    | _ => none
  | .drop _ => some (s.close r.id)
  | _ => none

def step (d : Deployment) (s : State) : Action → Option State
  | .tick elapsed => some { s with now := s.now + elapsed }
  | .outside accounts allowances =>
    some { s with backend := { s.backend with
      db := { s.backend.db with accounts }, allowances } }
  | .create caller uuids key =>
    match createOthers caller uuids s.backend with
    | .ok others => some (s.start caller others (some key))
    | .error _ => none
  | .sendTo caller uuid =>
    match otherAccount caller uuid s.backend with
    | .ok recipient =>
      match s.backend.canonicalDirect [caller, recipient.actor] with
      | some _ => none
      | none => some (s.start caller [recipient] none)
    | .error _ => none
  | .ensure actor => some (s.ensure actor)
  | a@(.look request) | a@(.reach request) | a@(.count request) | a@(.begin request)
  | a@(.commit request _) | a@(.drop request) =>
    match s.find request with
    | some r => s.advance d r a
    | none => none

/-- Any stored state, before the first request. -/
structure Initial (s : State) : Prop where
  requests : s.requests = []
  created : s.created = []

def starting (d : Deployment) : System State Action where
  init := Initial
  step := step d

variable {d : Deployment} {s s' : State} {a : Action}

/-! ### What a creation does -/

variable {participants : List ActorRef} {r : Request} {b : Backend} {caller actor : ActorRef}
  {others : List Account} {pair : ActorRef × ActorRef}

/-- The conversation of the set is found, or its rows are inserted. -/
theorem canonicalOrInsert_cases {e : Moment} {creator : ActorRef} {c : Nat} {w w' : Work}
    (h : canonicalOrInsert e creator participants w = .ok (c, w')) :
    w' = w ∨ w' = { w with backend := insertDirect e creator participants w.backend } := by
  obtain ⟨found, -, h⟩ := query_bind_eq_ok.mp h
  cases found with
  | some id =>
    obtain ⟨-, rfl⟩ := Tx.pure_eq_ok.mp h
    exact .inl rfl
  | none =>
    obtain ⟨-, -, h⟩ := query_bind_eq_ok.mp h
    have h := write_bind_eq_ok.mp h
    obtain ⟨-, rfl⟩ := Tx.pure_eq_ok.mp h
    exact .inr rfl

/-- The rows a creation adds to the direct conversations: none, or its own. -/
theorem directs_creation (e : Moment) (r : Request) (b : Backend) :
    (r.creation d e b).2.directs = b.directs ∨
      (r.creation d e b).2.directs =
        b.directs ++ [⟨e.conversationId, r.participants.dedup, r.creator, e.now⟩] := by
  cases hr : r.creation d e b with
  | mk answer b' =>
    cases answer with
    | error refusal =>
      obtain rfl : b' = b := transaction_eq_error hr
      exact .inl rfl
    | ok c =>
      obtain ⟨w, hw, hfin⟩ := transaction_eq_ok.mp hr
      obtain rfl := backend_of_finish hfin
      split_ifs at hw with hauto
      · obtain ⟨-, -, hw⟩ := query_bind_eq_ok.mp hw
        rcases canonicalOrInsert_cases hw with rfl | rfl
        · exact .inl rfl
        · exact .inr rfl
      · obtain ⟨_, -, hw⟩ := query_bind_eq_ok.mp hw
        obtain ⟨_, -, hw⟩ := query_bind_eq_ok.mp hw
        have hbody : (canonicalOrInsert e r.creator r.participants.dedup).Moves SameRecords :=
          fun w w' c h => (canonicalOrInsert_eq_ok h).2.1
        obtain ⟨-, hrep⟩ | ⟨records, w₂, records', hrun, rfl, -⟩ := keyed_eq_ok hbody hw
        · obtain ⟨-, rfl⟩ := Tx.pure_eq_ok.mp hrep
          exact .inl rfl
        · rcases canonicalOrInsert_cases hrun with rfl | rfl
          · exact .inl rfl
          · exact .inr rfl

/-- What a commit adds to the history. -/
theorem mem_created {e : Moment} {direct : Direct}
    (h : direct ∈ (r.creation d e b).2.directs.drop b.directs.length) :
    direct = ⟨e.conversationId, r.participants.dedup, r.creator, e.now⟩ := by
  rcases directs_creation (d := d) e r b with hsame | hnew
  · rw [hsame, drop_length] at h
    cases h
  · rw [hnew, drop_left] at h
    exact mem_singleton.mp h

/-! ### Steps -/

inductive Advance (d : Deployment) (s : State) (r : Request) : Action → State → Prop
  | looked {request : Nat} (hphase : r.phase = .starting) :
      Advance d s r (.look request) (s.replace { r with phase := .reaching r.others })
  | reached {request : Nat} {other : Account} {rest : List Account}
      (hphase : r.phase = .reaching (other :: rest))
      (hreach : s.backend.requireMayReach r.creator other = .ok ()) :
      Advance d s r (.reach request) (s.replace { r with
        phase := .reaching rest
        admitted := r.admitted ++ admittedBy s.backend other.uuid r.participants })
  | counted {request : Nat} (hphase : r.phase = .reaching [])
      (hcount : s.backend.startedLastHour r.creator s.now < firstContactsPerHour) :
      Advance d s r (.count request) (s.replace { r with phase := .ready })
  | began {request : Nat} (hphase : r.phase = .ready) :
      Advance d s r (.begin request) (s.replace { r with phase := .began s.now })
  | committed {request conversation since : Nat} (hphase : r.phase = .began since) :
      Advance d s r (.commit request conversation) { s.close r.id with
        backend := (r.creation d ⟨since, conversation, 0, 0⟩ s.backend).2
        created := s.created ++
          ((r.creation d ⟨since, conversation, 0, 0⟩ s.backend).2.directs.drop
            s.backend.directs.length).map (⟨·, s.now, r.automatic, r.admitted⟩) }
  | closed {a : Action} : Advance d s r a (s.close r.id)

theorem advance_cases (h : s.advance d r a = some s') : Advance d s r a s' := by
  cases a with
  | look request =>
    simp only [State.advance] at h
    split at h
    case h_2 => cases h
    case h_1 hph =>
      split at h
      · cases h
        exact .closed
      · cases h
        exact .looked hph
  | reach request =>
    simp only [State.advance] at h
    split at h
    case h_2 => cases h
    case h_1 other rest hph =>
      split at h
      · cases h
        exact .closed
      · split at h
        · cases h
          exact .closed
        · rename_i hreach
          cases h
          exact .reached hph hreach
  | count request =>
    simp only [State.advance] at h
    split at h
    case h_2 => cases h
    case h_1 hph =>
      split_ifs at h with hcount
      · cases h
        exact .counted hph hcount
      · cases h
        exact .closed
  | begin request =>
    simp only [State.advance] at h
    split at h
    case h_2 => cases h
    case h_1 hph =>
      cases h
      exact .began hph
  | commit request conversation =>
    simp only [State.advance] at h
    split at h
    case h_2 => cases h
    case h_1 since hph =>
      cases h
      exact .committed hph
  | drop request =>
    cases h
    exact .closed
  | tick | outside | create | sendTo | ensure => cases h

/-- Everything a step can do: time and other tables move, a request starts, Silicons and
custodians get theirs, or one request goes on. -/
inductive Effect (d : Deployment) (s : State) : Action → State → Prop
  | ticked (elapsed : Nat) : Effect d s (.tick elapsed) { s with now := s.now + elapsed }
  | outside (accounts : List Account) (allowances : List Allowance) :
      Effect d s (.outside accounts allowances) { s with backend := { s.backend with
        db := { s.backend.db with accounts }, allowances } }
  | started {a : Action} {caller : ActorRef} {others : List Account} {key : Option String}
      (hothers : ∀ o ∈ others, o.uuid ≠ caller.id) : Effect d s a (s.start caller others key)
  | ensured (actor : ActorRef) : Effect d s (.ensure actor) (s.ensure actor)
  | advanced {a : Action} {s' : State} {r : Request} (hr : a.request.bind s.find = some r)
      (ha : Advance d s r a s') : Effect d s a s'

theorem uuid_ne_of_createOthers {uuids : List String} (h : createOthers caller uuids b = .ok others) :
    ∀ o ∈ others, o.uuid ≠ caller.id := by
  obtain ⟨-, -, h⟩ := Base.bind_eq_ok.mp h
  obtain ⟨-, -, h⟩ := Base.bind_eq_ok.mp h
  obtain ⟨accounts, -, h⟩ := Base.bind_eq_ok.mp h
  obtain ⟨-, -, h⟩ := Base.bind_eq_ok.mp h
  cases h
  intro o ho
  simpa using (mem_filter.mp ho).2

theorem uuid_ne_of_otherAccount {uuid : String} {recipient : Account}
    (h : otherAccount caller uuid b = .ok recipient) : recipient.uuid ≠ caller.id := by
  obtain ⟨row, -, h⟩ := Base.bind_eq_ok.mp h
  obtain ⟨_, hne, h⟩ := Base.bind_eq_ok.mp h
  cases h
  simpa using require_eq_ok.mp hne

theorem effect_of_step (h : step d s a = some s') : Effect d s a s' := by
  have hgo : ∀ request, a.request = some request → (match s.find request with
      | some r => s.advance d r a
      | none => none) = some s' → Effect d s a s' := by
    intro request hrqst h
    split at h
    · rename_i r hr
      exact .advanced (by rw [hrqst]; exact hr) (advance_cases h)
    · cases h
  cases a with
  | tick elapsed =>
    cases h
    exact .ticked elapsed
  | outside accounts allowances =>
    cases h
    exact .outside accounts allowances
  | create caller uuids key =>
    simp only [step] at h
    split at h
    · rename_i others hoths
      cases h
      exact .started (uuid_ne_of_createOthers hoths)
    · cases h
  | sendTo caller uuid =>
    simp only [step] at h
    split at h
    · rename_i recipient hrcp
      split at h
      · cases h
      · cases h
        exact .started (by simpa using uuid_ne_of_otherAccount hrcp)
    · cases h
  | ensure actor =>
    cases h
    exact .ensured actor
  | look request | reach request | count request | begin request | commit request c
  | drop request => exact hgo request rfl h

theorem mem_close {request : Nat} {x : Request} (h : x ∈ (s.close request).requests) :
    x ∈ s.requests :=
  mem_of_mem_filter h

theorem mem_of_request_bind (h : a.request.bind s.find = some r) : r ∈ s.requests := by
  obtain ⟨request, -, hr⟩ := Option.bind_eq_some_iff.mp h
  exact (mem_of_getRow_eq_some hr).1

/-- Custodians get their requests one by one. -/
theorem ensure_induction {P : State → Prop} (hs : P s)
    (hpush : ∀ t, t.backend = s.backend → P t → ∀ pair ∈ custodianPairs s.backend.db.accounts actor,
      P (t.push (automaticRequest s.backend t.fresh pair))) : P (s.ensure actor) := by
  refine (List.foldlRecOn (motive := fun t => t.backend = s.backend ∧ P t) _ _ ⟨rfl, hs⟩ ?_).2
  rintro t ⟨hb, ht⟩ pair hpair
  exact ⟨hb, hb ▸ hpush t hb ht pair hpair⟩

/-! ### Who may write to a Silicon -/

def Request.pending (r : Request) : List Account :=
  match r.phase with
  | .starting => r.others
  | .reaching rest => rest
  | .ready | .began _ => []

/-- A Silicon's new conversation that it did not ask for: whoever else is in it could reach the
Silicon when the request checked. -/
def Heard (creator : ActorRef) (automatic : Bool) (participants : List ActorRef)
    (admitted : List (String × String)) (silicon : ActorRef) : Prop :=
  silicon.actorType = .silicon → (automatic = true ∨ creator ≠ silicon) →
    ∀ p ∈ participants, p ≠ silicon → (silicon.id, p.id) ∈ admitted

/-- The rule, for every Silicon of a conversation. -/
def Created.Heard (c : Created) : Prop :=
  ∀ silicon ∈ c.direct.participants, FirstContact.Heard c.direct.createdBy c.automatic
    c.direct.participants c.admitted silicon

instance (c : Created) : Decidable c.Heard :=
  inferInstanceAs (Decidable (∀ silicon ∈ c.direct.participants, silicon.actorType = .silicon →
    (c.automatic = true ∨ c.direct.createdBy ≠ silicon) →
      ∀ p ∈ c.direct.participants, p ≠ silicon → (silicon.id, p.id) ∈ c.admitted))

/-- What a request has established: the rule for every Silicon that is not to be checked still. -/
structure Request.Checked (r : Request) : Prop where
  others : ∀ o ∈ r.pending, o.uuid ≠ r.creator.id
  silicons : ∀ silicon ∈ r.participants, silicon ∈ r.pending.map Account.actor ∨
    FirstContact.Heard r.creator r.automatic r.participants r.admitted silicon

/-- Whoever a request names beside its caller may reach the Silicon it is about to check. The
caller is checked by the code. -/
def admitsAll (s : State) : Action → Bool
  | .reach request =>
    match s.find request with
    | some { creator, participants, phase := .reaching (other :: _), .. } =>
      other.kind ≠ .silicon || participants.all fun p =>
        p = other.actor || p = creator || s.backend.mayReachSilicon other.uuid p.id
    | _ => true
  | _ => true

theorem mem_admittedBy {silicon : String} {p : ActorRef} (hp : p ∈ participants)
    (h : b.mayReachSilicon silicon p.id = true) :
    (silicon, p.id) ∈ admittedBy b silicon participants :=
  List.mem_map.mpr ⟨p, mem_filter.mpr ⟨hp, h⟩, rfl⟩

/-- The code's own check is of the caller. -/
theorem mayReachSilicon_of_requireMayReach {who : ActorRef} {target : Account}
    (h : b.requireMayReach who target = .ok ()) (hkind : target.kind = .silicon)
    (hne : target.uuid ≠ who.id) : b.mayReachSilicon target.uuid who.id = true := by
  unfold requireMayReach at h
  rw [if_neg (by simp [hkind, hne])] at h
  exact require_eq_ok.mp h

theorem checked_start {id : Nat} {key : Option String} (hoths : ∀ o ∈ others, o.uuid ≠ caller.id) :
    Request.Checked ⟨id, caller, false, key, others, others.map Account.actor ++ [caller],
      .starting, []⟩ where
  others := hoths
  silicons := by
    intro silicon hsil
    rcases mem_append.mp hsil with hoth | hcaller
    · exact .inl hoth
    · right
      intro _ hne
      simp_all

/-- A custodian may reach its Silicon. -/
theorem mayReachSilicon_of_custodianPairs (h : pair ∈ custodianPairs b.db.accounts actor) :
    pair.2.actorType = .carbon ∧ b.mayReachSilicon pair.1.id pair.2.id = true := by
  unfold custodianPairs at h
  have hmay : ∀ row ∈ b.db.accounts, ∀ custodian, row.custodianUuid = some custodian →
      b.mayReachSilicon row.uuid custodian = true := by
    intro row hr custodian hcus
    exact List.any_eq_true.mpr ⟨row, hr, by simp [hcus]⟩
  split at h
  next =>
    split at h
    next custodian hcus =>
      obtain ⟨row, hr, hcus⟩ := Option.bind_eq_some_iff.mp hcus
      obtain ⟨hm, huuid⟩ := mem_of_getRow_eq_some hr
      obtain rfl := mem_singleton.mp h
      exact ⟨rfl, huuid ▸ hmay row hm custodian hcus⟩
    next => cases h
  next hkind =>
    obtain ⟨row, hr, rfl⟩ := List.mem_map.mp h
    obtain ⟨hm, hr⟩ := mem_filter.mp hr
    simp only [Bool.and_eq_true, decide_eq_true_eq] at hr
    exact ⟨hkind, hmay row hm actor.id hr.1.1⟩

theorem checked_automaticRequest (id : Nat) (h : pair ∈ custodianPairs b.db.accounts actor) :
    (automaticRequest b id pair).Checked where
  others _ ho := absurd ho not_mem_nil
  silicons := by
    obtain ⟨hcarb, hmay⟩ := mayReachSilicon_of_custodianPairs h
    intro silicon hsil
    right
    intro hkind _ p hp hne
    simp only [automaticRequest, mem_cons, not_mem_nil, or_false] at hsil hp
    rcases hsil with rfl | rfl
    · obtain rfl := hp.resolve_left hne
      exact mem_admittedBy (by simp) hmay
    · simp [hcarb] at hkind

/-- One more account is checked: the caller by the code, everyone else by assumption. -/
theorem checked_reached {other : Account} {rest : List Account} (hr : r.Checked)
    (hph : r.phase = .reaching (other :: rest))
    (hreach : s.backend.requireMayReach r.creator other = .ok ())
    (hall : other.kind = .silicon → ∀ p ∈ r.participants, p = other.actor ∨ p = r.creator ∨
      s.backend.mayReachSilicon other.uuid p.id = true) :
    Request.Checked { r with
      phase := .reaching rest
      admitted := r.admitted ++ admittedBy s.backend other.uuid r.participants } := by
  have hpending : r.pending = other :: rest := by rw [Request.pending, hph]
  have hcaller : other.uuid ≠ r.creator.id := hr.others other (by simp [hpending])
  refine ⟨fun o ho => hr.others o (by simp [hpending, show o ∈ rest from ho]), ?_⟩
  intro silicon hsil
  rcases hr.silicons silicon hsil with hpend | hheard
  · rw [hpending, map_cons, mem_cons] at hpend
    rcases hpend with rfl | hpend
    · right
      intro hkind _ p hp hne
      apply mem_append_right
      apply mem_admittedBy hp
      rcases hall hkind p hp with rfl | rfl | hmay
      · exact absurd rfl hne
      · exact mayReachSilicon_of_requireMayReach hreach hkind hcaller
      · exact hmay
    · exact .inl hpend
  · right
    intro hkind hown p hp hne
    exact mem_append_left _ (hheard hkind hown p hp hne)

theorem heard_of_checked {direct : Direct} (hr : r.Checked) (hpending : r.pending = [])
    (hdir : direct.participants = r.participants.dedup) (hcrt : direct.createdBy = r.creator)
    (committedAt : Nat) : Created.Heard ⟨direct, committedAt, r.automatic, r.admitted⟩ := by
  intro silicon hsil hkind hown p hp hne
  rw [hdir, mem_dedup] at hsil hp
  rcases hr.silicons silicon hsil with hpend | hheard
  · rw [hpending] at hpend
    cases hpend
  · exact hheard hkind (hcrt ▸ hown) p hp hne

/-- Requests have checked what they passed, and every new conversation keeps the rule. -/
structure Circles (s : State) : Prop where
  requests : ∀ r ∈ s.requests, r.Checked
  created : ∀ c ∈ s.created, c.Heard

theorem Circles.push (h : Circles s) (hr : r.Checked) : Circles (s.push r) where
  requests := by
    exact forall_mem_concat.mpr ⟨h.requests, hr⟩
  created := h.created

theorem Circles.replace (h : Circles s) (hr : r.Checked) :
    Circles (s.replace r) where
  requests := by
    intro x hx
    rcases mem_put hx with rfl | ⟨hx, -⟩
    · exact hr
    · exact h.requests x hx
  created := h.created

theorem Circles.close (h : Circles s) (request : Nat) : Circles (s.close request) where
  requests x hx := h.requests x (mem_close hx)
  created := h.created

theorem Circles.advance (h : Circles s) (hr : a.request.bind s.find = some r)
    (hc : admitsAll s a = true) (ha : Advance d s r a s') : Circles s' := by
  have hchk : r.Checked := h.requests r (mem_of_request_bind hr)
  -- A phase with nothing left to check says what the last one said.
  have hph : ∀ phase, Request.pending { r with phase } = r.pending →
      Request.Checked { r with phase } := by
    intro phase hpend
    exact ⟨fun o ho => hchk.others o (hpend ▸ ho),
      fun silicon hs => by rw [hpend]; exact hchk.silicons silicon hs⟩
  cases ha with
  | looked hat | counted hat _ | began hat =>
    exact h.replace (hph _ (by simp [Request.pending, hat]))
  | closed => exact h.close _
  | @reached request other rest hat hreach =>
    apply h.replace
    apply checked_reached hchk hat hreach
    intro hkind p hp
    have hfind : s.find request = some r := hr
    obtain ⟨id, creator, automatic, key, others, participants, phase, admitted⟩ := r
    subst hat
    simp only [admitsAll, hfind, hkind, ne_eq, not_true_eq_false, decide_false,
      Bool.false_or, List.all_eq_true, Bool.or_eq_true, decide_eq_true_eq] at hc
    rcases hc p hp with (hoth | hcrt) | hmay
    · exact .inl hoth
    · exact .inr (.inl hcrt)
    · exact .inr (.inr hmay)
  | committed hat =>
    refine ⟨fun x hx => h.requests x (mem_close hx), ?_⟩
    intro c hm
    rcases mem_append.mp hm with hm | hm
    · exact h.created c hm
    · obtain ⟨direct, hdir, rfl⟩ := List.mem_map.mp hm
      obtain rfl := mem_created hdir
      exact heard_of_checked hchk (by simp [Request.pending, hat]) rfl rfl _

theorem Circles.effect (h : Circles s) (hc : admitsAll s a = true) (he : Effect d s a s') :
    Circles s' := by
  cases he with
  | ticked | outside => exact ⟨h.requests, h.created⟩
  | started hoths => exact h.push (checked_start hoths)
  | ensured actor =>
    apply ensure_induction h
    intro t hb ht pair hpair
    exact ht.push (checked_automaticRequest _ hpair)
  | advanced hr ha => exact h.advance hr hc ha

/-- While every account a request names may reach every Silicon it names, a Silicon gets a
conversation it did not ask for only with its custodian, its custodian's other Silicons and the
accounts on its allow-list. -/
theorem silicons_hear_from_their_circle
    (h : (starting d).ReachableWhile (fun s a => admitsAll s a = true) s) :
    ∀ c ∈ s.created, c.Heard := by
  have hcircles : Circles s := by
    refine h.invariant ?_ ?_
    · intro s₀ hs₀
      exact ⟨by simp [hs₀.requests], by simp [hs₀.created]⟩
    · intro s₁ a s₂ hs₁ hc hstep
      exact hs₁.effect hc (effect_of_step hstep)
  exact hcircles.created

def ada : ActorRef :=
  ⟨.carbon, "ada"⟩

/-- Three people's accounts, and a Silicon that one of them looks after. Ada may write to it. -/
def neighbours : State where
  now := 0
  backend := { Backend.empty with
    db := { Database.empty with
      accounts := [.new "ada" .carbon, .new "bea" .carbon, .new "mallory" .carbon,
        { Account.new "scout" .silicon with custodianUuid := some "bea" }] }
    allowances := [⟨"scout", ada, "bea", 0⟩] }
  requests := []
  fresh := 0
  created := []

theorem neighbours_initial (d : Deployment) : (starting d).init neighbours :=
  ⟨rfl, rfl⟩

def plain : Deployment where
  requestHash _ := 0
  heartbeatTimeout := 1
  activityTtl := 1

/-- Ada starts a conversation with two others, the Silicon first. -/
def startsWith (other : String) : List Action :=
  [.create ada ["scout", other] "key", .look 0, .reach 0, .reach 0, .count 0,
    .begin 0, .commit 0 1]

/-- Ada and Bea may both reach Scout, and the three have a conversation. -/
theorem silicons_hear_from_their_circle_three :
    ∃ s, (starting plain).ReachableWhile (fun s a => admitsAll s a = true) s ∧
      (∃ c ∈ s.created, c.direct.participants.length = 3) ∧ ∀ c ∈ s.created, c.Heard := by
  have hs := System.reachableWhile_get (M := starting plain)
    (C := fun s a => admitsAll s a = true) (startsWith "bea") (neighbours_initial _)
    (by decide +kernel)
  exact ⟨_, hs, by decide +kernel, silicons_hear_from_their_circle hs⟩

/-- Ada may reach Scout and brings Mallory along. -/
theorem silicon_hears_from_a_stranger :
    ∃ s, (starting plain).Reachable s ∧ ∃ c ∈ s.created, ¬c.Heard := by
  exact ⟨_, System.reachable_get (M := starting plain) (startsWith "mallory")
    (neighbours_initial _) (by decide +kernel), by decide +kernel⟩

end SiliconDm.Server.FirstContact
