import SiliconDm.Server.Mutations

/-!
# What requests leave alone

A request about messages leaves alone who takes part where, the direct conversations, the
allow-lists and every record of a key; messages stay. So whatever it resolved and was permitted
before, it resolves and is permitted afterwards. A request about a group leaves alone the owners
and invitations it does not name, and ends with every eligible member anchored.
-/

namespace SiliconDm.Server

open Base Management List

variable {d d' d'' : Database}

/-! ### Publishing -/

/-- The same accounts take part in the same conversations, and messages stay. -/
structure Database.Steady (d d' : Database) : Prop where
  accounts : d'.accounts = d.accounts
  isGroup : ∀ c, d'.isGroup c = d.isGroup c
  participants : d'.participants = d.participants
  invitations : d'.invitations = d.invitations
  messages : ∀ m row, d.message m = some row → d'.message m = some row

namespace Database.Steady

theorem refl (d : Database) : d.Steady d where
  accounts := rfl
  isGroup _ := rfl
  participants := rfl
  invitations := rfl
  messages _ _ h := h

section

variable (h : d.Steady d')
include h

theorem trans (h' : d'.Steady d'') : d.Steady d'' where
  accounts := h'.accounts.trans h.accounts
  isGroup c := (h'.isGroup c).trans (h.isGroup c)
  participants := h'.participants.trans h.participants
  invitations := h'.invitations.trans h.invitations
  messages m row hm := h'.messages m row (h.messages m row hm)

theorem deleted (u : String) : d'.deleted u = d.deleted u := by
  unfold Database.deleted
  rw [h.accounts]

theorem eligibleGroupMembers (c : Nat) :
    d'.eligibleGroupMembers c = d.eligibleGroupMembers c := by
  unfold Database.eligibleGroupMembers Database.deleted
  rw [h.accounts, h.invitations]

theorem effectiveParticipants (c : Nat) :
    d'.effectiveParticipants c = d.effectiveParticipants c := by
  unfold Database.effectiveParticipants
  rw [h.isGroup, h.participants, h.eligibleGroupMembers]
  simp only [h.deleted]

theorem isNone_conversation (c : Nat) :
    (d'.conversation c).isNone = (d.conversation c).isNone := by
  have := congrArg Option.isNone (h.isGroup c)
  simpa only [Database.isGroup, Option.isNone_map] using this

theorem conversationAccess (caller : ActorRef) (c : Nat) :
    d'.conversationAccess caller c = d.conversationAccess caller c := by
  have hreads : d'.custodianReads caller = d.custodianReads caller := by
    funext silicon
    unfold Database.custodianReads
    rw [h.accounts]
  unfold Database.conversationAccess
  rw [h.isNone_conversation, h.effectiveParticipants, h.invitations, hreads]

end

theorem applyAll {ws : List Write} (hw : ∀ w ∈ ws, Scope.message.allows w = true) :
    d.Steady (store.applyAll d ws) := by
  refine store.applyAll_invariant (.refl d) fun w hmem d' hd => hd.trans ?_
  cases w with
  | advance c => exact ⟨rfl, fun c' => isGroup_apply rfl, rfl, rfl, fun _ _ hm => hm⟩
  | message row =>
    refine ⟨rfl, fun _ => rfl, rfl, rfl, fun m row' hm => ?_⟩
    unfold Database.message at hm ⊢
    simp only [store, Write.apply, getRow_append_singleton, hm, Option.some_or]
  | history | stream | delivery => exact ⟨rfl, fun _ => rfl, rfl, rfl, fun _ _ hm => hm⟩
  | _ => exact absurd (hw _ hmem) (by simp [Scope.allows])

/-- Statements of the message scope keep everybody's place. -/
theorem of_runs {code : List Statement} (hcode : ∀ s ∈ code, s.scope = .message)
    (h : store.Runs d code d') : d.Steady d' := by
  have hframe : store.Triple d.Steady code d.Steady := by
    refine Language.Triple.frame (p := fun s => s.scope = .message) ?_ hcode
    intro s m o hs hm ho
    obtain ⟨hnext, hws⟩ := Statement.exec_scope (exec_eq_some ho)
    rw [hs] at hnext hws
    exact ⟨hm.trans (applyAll hws), hnext⟩
  exact hframe d d' (.refl d) h

end Database.Steady

namespace Backend

variable {b b' b'' : Backend}

/-- What the path of a conversation and the permission to write there depend on. -/
structure Steady (b b' : Backend) : Prop where
  db : b.db.Steady b'.db
  directs : b'.directs = b.directs
  supersededBy : b'.supersededBy = b.supersededBy
  allowances : b'.allowances = b.allowances
  recorded : ∀ key hash resource, Recorded key hash resource b → Recorded key hash resource b'

theorem Steady.refl (b : Backend) : b.Steady b where
  db := .refl b.db
  directs := rfl
  supersededBy := rfl
  allowances := rfl
  recorded _ _ _ h := h

theorem Steady.trans (h : b.Steady b') (h' : b'.Steady b'') : b.Steady b'' where
  db := h.db.trans h'.db
  directs := h'.directs.trans h.directs
  supersededBy := h'.supersededBy.trans h.supersededBy
  allowances := h'.allowances.trans h.allowances
  recorded _ _ _ hr := h'.recorded _ _ _ (h.recorded _ _ _ hr)

/-- A part of a transaction that is steady. -/
def SteadyWork (w w' : Work) : Prop :=
  w.backend.Steady w'.backend

instance : Std.Refl SteadyWork := ⟨fun w => .refl w.backend⟩

instance : IsTrans Work SteadyWork := ⟨fun _ _ _ h h' => h.trans h'⟩

theorem steady_statements {code : List Statement} (hcode : ∀ s ∈ code, s.scope = .message) :
    (statements code).Moves SteadyWork := by
  intro w w' u h
  obtain ⟨hruns, honly⟩ := runs_of_runStatements (statements_eq_ok.mp h)
  have hdb := Database.Steady.of_runs hcode hruns
  unfold Work.onlyDatabase at honly
  unfold SteadyWork
  rw [honly]
  exact ⟨hdb, rfl, rfl, rfl, fun _ _ _ hr => hr.of_eq rfl⟩

/-- A record put where none was completed changes no completed one. -/
theorem steady_put {row : Idempotency.Record} (hrow : ∀ hash resource,
    ¬ Recorded row.key hash resource b) :
    b.Steady { b with records := put Idempotency.Record.key row b.records } := by
  refine ⟨.refl b.db, rfl, rfl, rfl, fun key hash resource hr => ?_⟩
  have hne : key ≠ row.key := by
    rintro rfl
    exact hrow hash resource hr
  obtain ⟨expiresAt, hget⟩ := hr
  refine ⟨expiresAt, ?_⟩
  rw [getRow_put, if_neg hne]
  exact hget

theorem steady_claim (now hash : Nat) (key : Idempotency.Key) :
    (claim now key hash).Moves SteadyWork := by
  intro w w' found h
  unfold claim at h
  split at h
  next hn =>
    obtain ⟨-, rfl⟩ : none = found ∧ _ = w' := by simpa using h
    apply steady_put
    rintro hash' resource ⟨expiresAt, hr⟩
    simp [hn] at hr
  next =>
    split at h
    · cases h
    · split at h
      next =>
        obtain ⟨-, rfl⟩ : _ = found ∧ w = w' := by simpa using h
        exact .refl _
      next => cases h

theorem steady_complete (key : Idempotency.Key) (resource : Nat) :
    (complete key resource).Moves SteadyWork := by
  intro w w' u h
  unfold complete at h
  split at h
  next key₁ hash lease expiresAt hr =>
    obtain rfl : key₁ = key := (mem_of_getRow_eq_some hr).2
    obtain rfl : _ = w' := congrArg Prod.snd (Except.ok.inj h)
    apply steady_put
    rintro hash' resource' ⟨expiresAt', hr'⟩
    simp [hr] at hr'
  next => cases h

theorem steady_keyed {now hash : Nat} {key : Idempotency.Key} {body : Transact Nat}
    {again : Nat → Transact Unit} (hbody : body.Moves SteadyWork)
    (hrep : ∀ resource, (again resource).Moves SteadyWork) :
    (keyed now key hash body again).Moves SteadyWork := by
  apply Tx.Moves.bind (steady_claim now hash key)
  intro found
  cases found with
  | some resource => exact (hrep resource).bind fun _ => .pure resource
  | none =>
    exact hbody.bind fun resource => (steady_complete key resource).bind fun _ => .pure resource

/-! ### Paths -/

theorem Steady.access (h : b.Steady b') (caller : ActorRef) (c : Nat) :
    access caller c b' = access caller c b := by
  unfold Backend.access
  rw [h.db.conversationAccess]

theorem Steady.getConversation (h : b.Steady b') (viewer : ActorRef) (c : Nat) :
    getConversation viewer c b' = getConversation viewer c b := by
  unfold Backend.getConversation
  rw [h.db.conversationAccess]

theorem Steady.canonicalDirect (h : b.Steady b') (participants : List ActorRef) :
    b'.canonicalDirect participants = b.canonicalDirect participants := by
  unfold Backend.canonicalDirect
  rw [h.directs, h.supersededBy]

theorem Steady.mayReachSilicon (h : b.Steady b') (silicon other : String) :
    b'.mayReachSilicon silicon other = b.mayReachSilicon silicon other := by
  unfold Backend.mayReachSilicon
  rw [h.db.accounts, h.allowances]

theorem Steady.requireMayReach (h : b.Steady b') (who : ActorRef) (target : Account) :
    b'.requireMayReach who target = b.requireMayReach who target := by
  unfold Backend.requireMayReach Backend.custodianName
  rw [h.mayReachSilicon, h.db.accounts]

theorem require_eq_ok {p : Bool} {otherwise : Refusal} {u : Unit} :
    require p otherwise = .ok u ↔ p = true := by
  unfold require
  split <;> simp_all

theorem resolve_eq_ok {accounts : List Account} {uuid : String} {row : Account} :
    resolve accounts uuid = .ok row ↔
      account accounts uuid = some row ∧ row.status ≠ .deleted := by
  unfold resolve
  cases account accounts uuid with
  | none => simp
  | some row' =>
    dsimp only
    split
    next hdead =>
      simp only [reduceCtorEq, Option.some.injEq, false_iff, not_and, not_not]
      rintro rfl
      exact hdead
    next hlive =>
      constructor
      · intro h
        cases h
        exact ⟨rfl, hlive⟩
      · rintro ⟨h, -⟩
        rw [Option.some.inj h]

variable {e e' : Moment} {actor creator : ActorRef} {others : List Account}
  {x y participants : List ActorRef} {c : Nat} {key : String} {b₁ : Backend} {create : Bool}

/-- The hour only moves on. -/
theorem Steady.requireFirstContact (h : b.Steady b') (hnow : e.now ≤ e'.now)
    (hc : requireFirstContact e actor others b = .ok ()) :
    requireFirstContact e' actor others b' = .ok () := by
  unfold Backend.requireFirstContact at hc ⊢
  obtain ⟨u, hreach, hlim⟩ := bind_eq_ok.mp hc
  refine bind_eq_ok.mpr ⟨(), ?_, ?_⟩
  · simpa only [h.requireMayReach] using hreach
  · rw [require_eq_ok, decide_eq_true_eq] at hlim ⊢
    refine Nat.lt_of_le_of_lt ?_ hlim
    unfold startedLastHour
    rw [h.directs]
    apply countP_mono_left
    intro row _ hr
    simp only [Bool.and_eq_true, decide_eq_true_eq] at hr ⊢
    exact ⟨hr.1, by omega⟩

theorem sameSet_congr {z : List ActorRef} (h : ∀ a, a ∈ y ↔ a ∈ z) : sameSet x y = sameSet x z := by
  unfold sameSet
  congr 1
  · simp only [h]
  · rw [Bool.eq_iff_iff]
    simp only [List.all_eq_true, decide_eq_true_eq, h]

/-- A direct conversation is canonical for a set. -/
theorem canonicalDirect_congr (h : ∀ a, a ∈ x ↔ a ∈ y) :
    b.canonicalDirect x = b.canonicalDirect y := by
  unfold canonicalDirect
  simp only [sameSet_congr h]

theorem lookup_filter_ne (l : List (Nat × Nat)) (k k' : Nat) :
    (l.filter (·.1 ≠ k)).lookup k' = if k' = k then none else l.lookup k' := by
  induction l with
  | nil => simp
  | cons p l ih =>
    by_cases hp : p.1 = k
    · rw [filter_cons_of_neg (by simp [hp]), ih]
      split
      · rfl
      next hk => rw [lookup_cons, beq_false_of_ne (hp ▸ hk)]
    · rw [filter_cons_of_pos (by simp [hp]), lookup_cons, ih, lookup_cons]
      by_cases hk : k' = k
      · rw [if_pos hk, if_pos hk, beq_false_of_ne (hk ▸ Ne.symm hp)]
      · rw [if_neg hk, if_neg hk]

/-- A conversation that was inserted is the canonical one. -/
theorem canonicalDirect_insertDirect (hn : b.canonicalDirect participants = none) :
    (insertDirect e creator participants b).canonicalDirect participants =
      some e.conversationId := by
  unfold canonicalDirect at hn ⊢
  rw [Option.map_eq_none_iff, find?_eq_none] at hn
  simp only [insertDirect, lookup_filter_ne, find?_append]
  cases hold : b.directs.find? _ with
  | some row =>
    -- the only row that has become current is one with the new id
    have hm := mem_of_find?_eq_some hold
    have hr := find?_some hold
    have hid : row.conversation = e.conversationId := by
      by_contra hne
      rw [if_neg hne] at hr
      exact hn row hm hr
    simp [hid]
  | none =>
    have hself : sameSet participants participants = true := by simp [sameSet]
    simp [hself]

variable {α β : Type} {w w' : Work}

theorem query_eq_ok {c : Backend → Except Refusal α} {a : α} :
    query c w = .ok (a, w') ↔ c w.backend = .ok a ∧ w = w' :=
  Tx.read_eq_ok

theorem write_eq_ok {f : Backend → Backend} {u : Unit} :
    write f w = .ok (u, w') ↔ { w with backend := f w.backend } = w' :=
  Tx.alter_eq_ok

theorem query_bind_eq_ok {c : Backend → Except Refusal α} {f : α → Transact β} {y : β} :
    (query c >>= f) w = .ok (y, w') ↔
      ∃ a, c w.backend = .ok a ∧ f a w = .ok (y, w') := by
  rw [Tx.bind_eq_ok]
  constructor
  · rintro ⟨a, m, hquery, hf⟩
    obtain ⟨hc, rfl⟩ := query_eq_ok.mp hquery
    exact ⟨a, hc, hf⟩
  · rintro ⟨a, hc, hf⟩
    exact ⟨a, w, query_eq_ok.mpr ⟨hc, rfl⟩, hf⟩

theorem write_bind_eq_ok {g : Backend → Backend} {f : Unit → Transact β} {y : β} :
    (write g >>= f) w = .ok (y, w') ↔
      f () { w with backend := g w.backend } = .ok (y, w') := by
  rw [Tx.bind_eq_ok]
  constructor
  · rintro ⟨u, m, hwrite, hf⟩
    obtain rfl := write_eq_ok.mp hwrite
    exact hf
  · intro hf
    exact ⟨(), _, write_eq_ok.mpr rfl, hf⟩

/-- Afterwards the conversation is the canonical one of its participants. -/
theorem canonicalOrInsert_eq_ok (h : canonicalOrInsert e creator participants w = .ok (c, w')) :
    w'.backend.canonicalDirect participants = some c ∧
      w'.backend.records = w.backend.records ∧
      w'.backend.db.accounts = w.backend.db.accounts := by
  obtain ⟨found, hfnd, h⟩ := query_bind_eq_ok.mp h
  have hfnd : w.backend.canonicalDirect participants = found := Except.ok.inj hfnd
  cases found with
  | some id =>
    obtain ⟨rfl, rfl⟩ := Tx.pure_eq_ok.mp h
    exact ⟨hfnd, rfl, rfl⟩
  | none =>
    obtain ⟨-, -, h⟩ := query_bind_eq_ok.mp h
    have h := write_bind_eq_ok.mp h
    obtain ⟨rfl, rfl⟩ := Tx.pure_eq_ok.mp h
    exact ⟨canonicalDirect_insertDirect hfnd, rfl, rfl⟩

/-- A conversation was created before under the key, or it is the canonical one now. -/
theorem createConversation_eq_ok {d : Deployment}
    (h : createConversation d e creator participants key w = .ok (c, w')) :
    (w = w' ∧ ∀ e' m, SteadyWork w m →
        createConversation d e' creator participants key m = .ok (c, m)) ∨
      w'.backend.canonicalDirect participants = some c := by
  obtain ⟨_, htwo, h⟩ := query_bind_eq_ok.mp h
  obtain ⟨_, hmost, h⟩ := query_bind_eq_ok.mp h
  have hbody : (canonicalOrInsert e creator participants.dedup).Moves SameRecords :=
    fun w w' c h => (canonicalOrInsert_eq_ok h).2.1
  obtain ⟨hrec, hrep⟩ | ⟨records, w₂, records', hrun, rfl, -⟩ := keyed_eq_ok hbody h
  · obtain ⟨-, rfl⟩ := Tx.pure_eq_ok.mp hrep
    refine .inl ⟨rfl, fun e' m hm => ?_⟩
    apply query_bind_eq_ok.mpr ⟨_, htwo, _⟩
    apply query_bind_eq_ok.mpr ⟨_, hmost, _⟩
    exact keyed_of_recorded (hm.recorded _ _ _ hrec) rfl
  · right
    rw [canonicalDirect_congr (fun a => (mem_dedup (a := a)).symm)]
    exact (canonicalOrInsert_eq_ok hrun).1

/-- Participants without a conversation get one, under a new key and with a new id. -/
theorem createConversation_fresh {d : Deployment} (htwo : 2 ≤ participants.dedup.length)
    (hmost : participants.dedup.length ≤ 100)
    (hrec : ∀ row ∈ b.records, row.key ≠ ⟨creator, "conversations.create", key⟩)
    (hn : b.canonicalDirect participants.dedup = none)
    (hfr : b.db.conversation e.conversationId = none) :
    ∃ records, createConversation d e creator participants key ⟨b, [], []⟩ =
        .ok (e.conversationId,
          ⟨{ insertDirect e creator participants.dedup b with records }, [], []⟩) ∧
      ∀ row ∈ records, row ∈ b.records ∨ row.key = ⟨creator, "conversations.create", key⟩ := by
  let inserted : Backend := insertDirect e creator participants.dedup b
  have hinsert : ∀ records, ∃ w', canonicalOrInsert e creator participants.dedup
      ⟨{ b with records }, [], []⟩ = .ok (e.conversationId, w') ∧ w'.backend.records = records ∧
        ∃ records, w' = ⟨{ inserted with records }, [], []⟩ := by
    intro records
    refine ⟨⟨{ inserted with records }, [], []⟩, ?_, rfl, records, rfl⟩
    refine query_bind_eq_ok.mpr ⟨none, congrArg Except.ok hn, ?_⟩
    refine query_bind_eq_ok.mpr ⟨(), require_eq_ok.mpr ?_, rfl⟩
    simpa using hfr
  have hkd : ∃ (w' : Work) (records : List Idempotency.Record),
      keyed e.now ⟨creator, "conversations.create", key⟩
        (d.requestHash (.participants participants.dedup))
        (canonicalOrInsert e creator participants.dedup) (fun _ => pure ()) ⟨b, [], []⟩ =
          .ok (e.conversationId, { w' with backend := { w'.backend with records } }) ∧
      (∃ records, w' = ⟨{ inserted with records }, [], []⟩) ∧
      ∀ row ∈ records, row ∈ b.records ∨ row.key = ⟨creator, "conversations.create", key⟩ :=
    keyed_of_unrecorded (getRow_eq_none_iff.mpr hrec) hinsert
  obtain ⟨_, records, hkd, ⟨_, rfl⟩, hrecs⟩ := hkd
  refine ⟨records, ?_, hrecs⟩
  refine query_bind_eq_ok.mpr ⟨(), require_eq_ok.mpr (by simpa using htwo), ?_⟩
  exact query_bind_eq_ok.mpr ⟨(), require_eq_ok.mpr (by simpa using hmost), hkd⟩

theorem accounts_createConversation {d : Deployment}
    (h : createConversation d e creator participants key w = .ok (c, w')) :
    w'.backend.db.accounts = w.backend.db.accounts := by
  obtain ⟨_, -, h⟩ := query_bind_eq_ok.mp h
  obtain ⟨_, -, h⟩ := query_bind_eq_ok.mp h
  have hbody : (canonicalOrInsert e creator participants.dedup).Moves SameRecords :=
    fun w w' c h => (canonicalOrInsert_eq_ok h).2.1
  obtain ⟨-, hrep⟩ | ⟨records, w₂, records', hrun, rfl, -⟩ := keyed_eq_ok hbody h
  · obtain ⟨-, rfl⟩ := Tx.pure_eq_ok.mp hrep
    rfl
  · exact (canonicalOrInsert_eq_ok hrun).2.2

/-- A conversation that was started is found again. -/
theorem startConversation_again {d : Deployment} {key : Option String}
    (h : startConversation d e actor others key b = (.ok c, b₁)) (hs : b₁.Steady b')
    (hnow : e.now ≤ e'.now) : startConversation d e' actor others key b' = (.ok c, b') := by
  obtain ⟨found, hfnd, h⟩ := Handler.read_bind_eq_ok.mp h
  have hfnd := Except.ok.inj hfnd
  unfold startConversation
  refine Handler.read_bind_eq_ok.mpr ⟨_, rfl, ?_⟩
  cases found with
  | some existing =>
    obtain ⟨rfl, rfl⟩ := Handler.pure_eq_ok.mp h
    rw [hs.canonicalDirect, hfnd]
    rfl
  | none =>
    obtain ⟨_, hcontact, h⟩ := Handler.read_bind_eq_ok.mp h
    obtain ⟨id, m, htx, h⟩ := Handler.bind_eq_ok.mp h
    obtain ⟨answer, hget, h⟩ := Handler.read_bind_eq_ok.mp h
    obtain ⟨rfl, rfl⟩ := Handler.pure_eq_ok.mp h
    obtain ⟨w, hrun, hfin⟩ := transaction_eq_ok.mp htx
    obtain rfl := backend_of_finish hfin
    obtain ⟨rfl, hrep⟩ | hcan := createConversation_eq_ok hrun
    · rw [hs.canonicalDirect, hfnd]
      refine Handler.read_bind_eq_ok.mpr ⟨(), hs.requireFirstContact hnow hcontact, ?_⟩
      refine Handler.bind_eq_ok.mpr ⟨id, b', ?_, ?_⟩
      · exact transaction_of_silent (hrep e' _ hs)
      · refine Handler.read_bind_eq_ok.mpr ⟨answer, ?_, rfl⟩
        rw [hs.getConversation]
        exact hget
    · rw [hs.canonicalDirect, hcan]
      rfl

/-- Starting a conversation writes no account. -/
theorem accounts_startConversation {d : Deployment} {key : Option String}
    (h : startConversation d e actor others key b = (.ok c, b₁)) :
    b₁.db.accounts = b.db.accounts := by
  obtain ⟨found, -, h⟩ := Handler.read_bind_eq_ok.mp h
  cases found with
  | some existing =>
    obtain ⟨-, rfl⟩ := Handler.pure_eq_ok.mp h
    rfl
  | none =>
    obtain ⟨_, -, h⟩ := Handler.read_bind_eq_ok.mp h
    obtain ⟨id, m, htx, h⟩ := Handler.bind_eq_ok.mp h
    obtain ⟨answer, -, h⟩ := Handler.read_bind_eq_ok.mp h
    obtain ⟨-, rfl⟩ := Handler.pure_eq_ok.mp h
    obtain ⟨w, hrun, hfin⟩ := transaction_eq_ok.mp htx
    obtain rfl := backend_of_finish hfin
    exact accounts_createConversation hrun

/-- The way to a recipient's conversation is found again. -/
theorem recipientConversation_again {d : Deployment} {uuid : String}
    (h : recipientConversation d e actor uuid create b = (.ok c, b₁)) (hs : b₁.Steady b')
    (hnow : e.now ≤ e'.now) : recipientConversation d e' actor uuid create b' = (.ok c, b') := by
  obtain ⟨recipient, hoth, h⟩ := Handler.read_bind_eq_ok.mp h
  obtain ⟨found, hfnd, h⟩ := Handler.read_bind_eq_ok.mp h
  have hfnd := Except.ok.inj hfnd
  have hoth' : b'.db.accounts = b.db.accounts → otherAccount actor uuid b' = .ok recipient := by
    intro he
    unfold otherAccount at hoth ⊢
    rwa [he]
  unfold recipientConversation
  cases found with
  | some existing =>
    obtain ⟨rfl, rfl⟩ := Handler.pure_eq_ok.mp h
    refine Handler.read_bind_eq_ok.mpr ⟨recipient, hoth' hs.db.accounts, ?_⟩
    refine Handler.read_bind_eq_ok.mpr ⟨_, rfl, ?_⟩
    rw [hs.canonicalDirect, hfnd]
    rfl
  | none =>
    obtain ⟨_, hcr, h⟩ := Handler.read_bind_eq_ok.mp h
    have haccs := hs.db.accounts.trans (accounts_startConversation h)
    refine Handler.read_bind_eq_ok.mpr ⟨recipient, hoth' haccs, ?_⟩
    refine Handler.read_bind_eq_ok.mpr ⟨_, rfl, ?_⟩
    have hrep := startConversation_again h hs hnow
    cases hcan : b'.canonicalDirect [actor, recipient.actor] with
    | none => exact Handler.read_bind_eq_ok.mpr ⟨_, hcr, hrep⟩
    | some c' =>
      -- the two participants in the other order
      obtain ⟨found, hfnd, hrep⟩ := Handler.read_bind_eq_ok.mp hrep
      have hfnd := Except.ok.inj hfnd
      rw [canonicalDirect_congr (y := [actor, recipient.actor])
        (fun a => by simp [or_comm]), hcan] at hfnd
      subst hfnd
      exact hrep

theorem targetConversation_again {d : Deployment} {target : Target}
    (h : targetConversation d e actor target create b = (.ok c, b₁)) (hs : b₁.Steady b')
    (hnow : e.now ≤ e'.now) : targetConversation d e' actor target create b' = (.ok c, b') := by
  cases target with
  | conversation id =>
    obtain ⟨rfl, -⟩ := Handler.pure_eq_ok.mp h
    rfl
  | accounts first second =>
    obtain ⟨hread, rfl⟩ := Handler.read_eq_ok.mp h
    refine Handler.read_eq_ok.mpr ⟨?_, rfl⟩
    unfold directAddress at hread ⊢
    simpa only [hs.db.accounts, hs.canonicalDirect] using hread
  | recipient uuid => exact recipientConversation_again h hs hnow

/-- A path resolves again, to the same conversation with the same access. -/
theorem conversationPath_again {d : Deployment} {caller : ActorRef} {path : ConversationPath}
    {deletes : Bool} {a : ConversationAccess}
    (h : conversationPath d e caller path create deletes b = (.ok (c, a), b₁)) (hs : b₁.Steady b')
    (hnow : e.now ≤ e'.now) :
    conversationPath d e' caller path create deletes b' = (.ok (c, a), b') := by
  obtain ⟨c', m, htgt, h⟩ := Handler.bind_eq_ok.mp h
  obtain ⟨a', haccs, h⟩ := Handler.read_bind_eq_ok.mp h
  obtain ⟨_, hreq, h⟩ := Handler.read_bind_eq_ok.mp h
  obtain ⟨he, rfl⟩ := Handler.pure_eq_ok.mp h
  cases he
  refine Handler.bind_eq_ok.mpr ⟨c, b', targetConversation_again htgt hs hnow, ?_⟩
  refine Handler.read_bind_eq_ok.mpr ⟨a, ?_, ?_⟩
  · rw [hs.access]
    exact haccs
  · exact Handler.read_bind_eq_ok.mpr ⟨_, hreq, rfl⟩

end Backend

end SiliconDm.Server
