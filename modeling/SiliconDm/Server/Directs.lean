import SiliconDm.Base.System
import SiliconDm.Server.Retried
import SiliconDm.Server.Standing

/-!
# Direct conversations keep their participants

No request changes who takes part in a direct conversation, or turns it into a group. The
invariants of the tables that this rests on (`Sound`) are foreign keys and constraints of the
schema; each transaction keeps them and extends what is there (`Extends`), and so does every
request, whether it is answered or refused.

Sources: as in `Mutations`; `migrations/0001_directory_and_conversations.sql:352–400`.
-/

namespace SiliconDm.Server.Directs

open Base Backend List

/-! ### Databases -/

/-- The accounts in a conversation, in the order of their rows. -/
def roster (d : Database) (c : Nat) : List ActorRef :=
  (d.participants.filter (·.conversation = c)).map (·.actor)

/-- Conversations stay what they are, direct ones keep their participants, and no direct one is
new. -/
structure Extends (d d' : Database) : Prop where
  kinds : ∀ c group, d.isGroup c = some group → d'.isGroup c = some group
  rosters : ∀ c, d.isGroup c = some false → roster d' c = roster d c
  anchors : ∀ p ∈ d'.participants, p ∈ d.participants ∨ d'.isGroup p.conversation = some true
  directs : ∀ c, d'.isGroup c = some false → d.isGroup c = some false

variable {d d' d'' : Database}

theorem Extends.refl (d : Database) : Extends d d where
  kinds _ _ h := h
  rosters _ _ := rfl
  anchors _ h := .inl h
  directs _ h := h

theorem Extends.trans (h : Extends d d') (h' : Extends d' d'') : Extends d d'' where
  kinds c group hc := h'.kinds c group (h.kinds c group hc)
  rosters c hc := (h'.rosters c (h.kinds c false hc)).trans (h.rosters c hc)
  anchors := by
    intro p hp
    rcases h'.anchors p hp with hp | hp
    · rcases h.anchors p hp with hp | hp
      · exact .inl hp
      · exact .inr (h'.kinds _ _ hp)
    · exact .inr hp
  directs c hc := h.directs c (h'.directs c hc)

/-- A write that adds at most a group, or an account to a group. -/
def Tame (d : Database) : Write → Prop
  | .conversation row => row.isGroup = true
  | .participant row => d.isGroup row.conversation = some true
  | _ => True

theorem extends_apply {w : Write} (h : Tame d w) : Extends d (w.apply d) := by
  have hks : ∀ c group, d.isGroup c = some group → (w.apply d).isGroup c = some group := by
    intro c group hc
    rw [isGroup_write, hc, Option.some_or]
  have hdirs : ∀ c, (w.apply d).isGroup c = some false → d.isGroup c = some false := by
    intro c hc
    rw [isGroup_write] at hc
    cases hold : d.isGroup c with
    | some group =>
      rw [hold, Option.some_or] at hc
      exact hc
    | none =>
      cases w with
      | conversation row =>
        have hgrp : row.isGroup = true := h
        simp [hold, hgrp] at hc
      | _ => simp [hold] at hc
  cases w with
  | participant row =>
    refine ⟨hks, ?_, ?_, hdirs⟩
    · intro c hc
      have hne : row.conversation ≠ c := by
        rintro rfl
        rw [show d.isGroup row.conversation = some true from h] at hc
        cases hc
      simp [roster, Write.apply, filter_append, hne]
    · exact forall_mem_concat.mpr ⟨fun p hp => .inl hp, .inr (hks _ _ h)⟩
  | _ => exact ⟨hks, fun _ _ => rfl, fun _ hp => .inl hp, hdirs⟩

theorem extends_applyAll {ws : List Write} (h : ∀ w ∈ ws, Tame d w) :
    Extends d (store.applyAll d ws) := by
  refine store.applyAll_invariant (.refl d) fun w hw d' hd => hd.trans (extends_apply ?_)
  have htame := h w hw
  cases w with
  | participant row => exact hd.kinds _ _ htame
  | conversation row => exact htame
  | _ => trivial

/-- A statement is tame, unless it names a group that is none. -/
theorem tame_of_exec {statement : Statement} {o : Outcome Statement Check Write Lock}
    (hg : ∀ g, statement.scope = .group g → d.isGroup g = some true)
    (h : statement.exec d = .ok o) : ∀ w ∈ o.writes, Tame d w := by
  intro w hw
  have halw := (Statement.exec_scope h).2 w hw
  cases w with
  | conversation row => exact isGroup_of_exec h hw
  | participant row =>
    cases hsc : statement.scope with
    | group g =>
      rw [hsc] at halw
      have hr : row.conversation = g := by simpa [Scope.allows] using halw
      show d.isGroup row.conversation = some true
      rw [hr]
      exact hg g hsc
    | _ => simp [hsc, Scope.allows] at halw
  | _ => trivial

variable {code : List Statement} {first : GroupStatement} {rest : List GroupStatement} {α : Type}
  {f : Backend → Backend} {body : Transact Nat} {again : Nat → Transact Unit}
  {settings : Management.Settings} {creator : ActorRef} {participants : List ActorRef}

/-- Statements of one scope extend the database. -/
theorem extends_of_runs {scope : Scope} (hcode : ∀ s ∈ code, s.scope = scope)
    (hg : ∀ g, scope = .group g → d.isGroup g = some true) (h : store.Runs d code d') :
    Extends d d' := by
  have hframe : store.Triple (Extends d) code (Extends d) := by
    refine Language.Triple.frame (p := fun s => s.scope = scope) ?_ hcode
    intro s m o hs hm ho
    have hexec := exec_eq_some ho
    refine ⟨hm.trans (extends_applyAll (tame_of_exec ?_ hexec)), ?_⟩
    · intro g hsc
      exact hm.kinds g true (hg g (hs ▸ hsc))
    · intro n hn
      rw [(Statement.exec_scope hexec).1 n hn, hs]
  exact hframe d d' (.refl d) h

variable {g resource now hash : Nat} {dep : Deployment} {x : Transact α}

theorem scope_map {code : List GroupStatement} {s : Statement} (h : s ∈ code.map (.group g)) :
    s.scope = .group g := by
  obtain ⟨_, -, rfl⟩ := List.mem_map.mp h
  rfl

/-- The code of a group begins with its lock, or creates it. -/
theorem extends_of_groupRuns (hfst : first = .lock ∨ first = .create)
    (h : store.Runs d ((first :: rest).map (.group g)) d') :
    Extends d d' ∧ d'.isGroup g = some true := by
  rw [map_cons] at h
  generalize htail : rest.map (Statement.group g) = tail at h
  cases h with
  | @cons _ _ _ _ o ho hrest =>
    have hexec := exec_eq_some ho
    rcases hfst with rfl | rfl
    · simp only [Statement.exec, groupStatement] at hexec
      split at hexec
      next hgrp =>
        cases hexec
        have hext := extends_of_runs (fun s hs => scope_map (htail ▸ hs))
          (by rintro _ ⟨⟩; exact hgrp) hrest
        exact ⟨hext, hext.kinds _ _ hgrp⟩
      next => cases hexec
    · simp only [Statement.exec, groupStatement] at hexec
      split at hexec
      next => cases hexec
      next hn =>
        cases hexec
        have hgrp : (store.applyAll d [.conversation ⟨g, true, 1⟩]).isGroup g = some true := by
          show ((Write.conversation ⟨g, true, 1⟩).apply d).isGroup g = some true
          have hd : d.isGroup g = none := by simpa [Database.isGroup] using hn
          simp [isGroup_write, hd]
        have hext := extends_of_runs (fun s hs => scope_map (htail ▸ hs))
          (by rintro _ ⟨⟩; exact hgrp) hrest
        exact ⟨(extends_applyAll (by simp [Tame])).trans hext, hext.kinds _ _ hgrp⟩

/-! ### Transactions -/

/-- The kind of conversation that a request with a record has created. -/
def createdKind : String → Option Bool
  | "conversations.create" => some false
  | "groups.create" => some true
  | _ => none

/-- The tables refer to what is there, and a direct conversation has its participants. -/
structure Sound (b : Backend) : Prop where
  anchors : ∀ p ∈ b.db.participants, (b.db.isGroup p.conversation).isSome = true
  groups : ∀ g ∈ b.groups, b.db.isGroup g.conversation = some true
  directs : ∀ row ∈ b.directs, b.db.isGroup row.conversation = some false
  records : ∀ row ∈ b.records, ∀ resource group, row.status = .completed resource →
    createdKind row.key.operation = some group → b.db.isGroup resource = some group
  rosters : ∀ c, b.db.isGroup c = some false →
    (roster b.db c).Nodup ∧ 2 ≤ (roster b.db c).length ∧ (roster b.db c).length ≤ 100

/-- From a sound state to a sound state in which direct conversations are as they were. -/
structure Grown (b b' : Backend) : Prop where
  sound : Sound b'
  kinds : ∀ c group, b.db.isGroup c = some group → b'.db.isGroup c = some group
  rosters : ∀ c, b.db.isGroup c = some false → roster b'.db c = roster b.db c

def Keeps (b b' : Backend) : Prop :=
  Sound b → Grown b b'

variable {b b' : Backend} {w w' : Work}

instance : Std.Refl Keeps :=
  ⟨fun _ h => ⟨h, fun _ _ hc => hc, fun _ _ => rfl⟩⟩

instance : IsTrans Backend Keeps where
  trans _ _ _ h h' hs :=
    let g := h hs
    let g' := h' g.sound
    ⟨g'.sound, fun c group hc => g'.kinds c group (g.kinds c group hc),
      fun c hc => (g'.rosters c (g.kinds c false hc)).trans (g.rosters c hc)⟩

def KeepsWork (w w' : Work) : Prop :=
  Keeps w.backend w'.backend

instance : Std.Refl KeepsWork := ⟨fun w => refl w.backend⟩

instance : IsTrans Work KeepsWork := ⟨fun _ _ _ h h' => IsTrans.trans (r := Keeps) _ _ _ h h'⟩

def KeepsGroup (g : Nat) (w w' : Work) : Prop :=
  w.backend.db.isGroup g = some true → KeepsWork w w'

instance (g : Nat) : Std.Refl (KeepsGroup g) := ⟨fun w _ => refl w⟩

instance (g : Nat) : IsTrans Work (KeepsGroup g) where
  trans _ _ _ h h' hg hs :=
    IsTrans.trans (r := Keeps) _ _ _ (h hg) (h' ((h hg hs).kinds g true hg)) hs

/-- Only the database is extended, and rows that nothing here reads. -/
theorem keeps_of_extends (hdb : Extends b.db b'.db)
    (hgrps : b'.groups.map (·.conversation) = b.groups.map (·.conversation))
    (hdirs : b'.directs = b.directs) (hrecs : b'.records = b.records) : Keeps b b' := by
  intro hs
  refine ⟨⟨?_, ?_, ?_, ?_, ?_⟩, hdb.kinds, hdb.rosters⟩
  · intro p hp
    rcases hdb.anchors p hp with hp | hgrp
    · obtain ⟨group, hgrp⟩ := Option.isSome_iff_exists.mp (hs.anchors p hp)
      rw [hdb.kinds _ _ hgrp]
      rfl
    · rw [hgrp]
      rfl
  · intro g hg
    have hm : g.conversation ∈ b.groups.map (·.conversation) :=
      hgrps ▸ List.mem_map_of_mem hg
    obtain ⟨g₀, hg₀, he⟩ := List.mem_map.mp hm
    exact hdb.kinds _ _ (he ▸ hs.groups g₀ hg₀)
  · intro row hr
    exact hdb.kinds _ _ (hs.directs row (hdirs ▸ hr))
  · intro row hr resource group hstat hkind
    exact hdb.kinds _ _ (hs.records row (hrecs ▸ hr) resource group hstat hkind)
  · intro c hc
    have hold := hdb.directs c hc
    rw [hdb.rosters c hold]
    exact hs.rosters c hold

theorem keeps_query (c : Backend → Except Refusal α) : (query c).Moves KeepsWork :=
  .read _

/-- A write to a table that nothing here reads. -/
theorem keeps_write (h : ∀ b, (f b).db = b.db ∧
      (f b).groups.map (·.conversation) = b.groups.map (·.conversation) ∧
      (f b).directs = b.directs ∧ (f b).records = b.records) : (write f).Moves KeepsWork := by
  apply Tx.Moves.alter
  intro w
  obtain ⟨hdb, hgrps, hdirs, hrecs⟩ := h w.backend
  exact keeps_of_extends (by rw [hdb]; exact .refl _) hgrps hdirs hrecs

theorem keeps_of_runs (h : statements code w = .ok ((), w'))
    (hdb : Extends w.backend.db w'.backend.db) : KeepsWork w w' := by
  obtain ⟨-, honly⟩ := runs_of_runStatements (statements_eq_ok.mp h)
  unfold Work.onlyDatabase at honly
  unfold KeepsWork
  rw [honly]
  exact keeps_of_extends (by rw [honly] at hdb; exact hdb) rfl rfl rfl

theorem keeps_statements (hcode : ∀ s ∈ code, s.scope = .message) :
    (statements code).Moves KeepsWork := by
  intro w w' u h
  obtain ⟨hruns, -⟩ := runs_of_runStatements (statements_eq_ok.mp h)
  exact keeps_of_runs h (extends_of_runs hcode (by simp) hruns)

theorem keeps_groupStatements (g : Nat) (code : List GroupStatement) :
    (statements (code.map (.group g))).Moves (KeepsGroup g) := by
  intro w w' u h hg
  obtain ⟨hruns, -⟩ := runs_of_runStatements (statements_eq_ok.mp h)
  exact keeps_of_runs h (extends_of_runs (fun s hs => scope_map hs)
    (by rintro _ ⟨⟩; exact hg) hruns)

/-- The first statement of a group's code says that there is a group. -/
theorem keeps_groupCode (hfst : first = .lock ∨ first = .create) {u : Unit}
    (h : statements ((first :: rest).map (.group g)) w = .ok (u, w')) :
    KeepsWork w w' ∧ w'.backend.db.isGroup g = some true := by
  obtain ⟨hruns, -⟩ := runs_of_runStatements (statements_eq_ok.mp h)
  obtain ⟨hext, hgrp⟩ := extends_of_groupRuns hfst hruns
  exact ⟨keeps_of_runs h hext, hgrp⟩

/-! ### Records -/

/-- A record that names nothing yet, or what was created. -/
theorem keeps_record {row : Idempotency.Record}
    (hr : ∀ resource group, row.status = .completed resource →
      createdKind row.key.operation = some group → b.db.isGroup resource = some group) :
    Keeps b { b with records := put Idempotency.Record.key row b.records } := by
  intro hs
  refine ⟨⟨hs.anchors, hs.groups, hs.directs, ?_, hs.rosters⟩, fun _ _ hc => hc, fun _ _ => rfl⟩
  intro row' hr' resource group hstat hkind
  rcases mem_put hr' with rfl | ⟨hm, -⟩
  · exact hr resource group hstat hkind
  · exact hs.records row' hm resource group hstat hkind

theorem keeps_claim (now hash : Nat) (key : Idempotency.Key) :
    (claim now key hash).Moves KeepsWork := by
  intro w w' found h
  unfold claim at h
  split at h
  next =>
    obtain ⟨-, rfl⟩ : none = found ∧ _ = w' := by simpa using h
    exact keeps_record (by simp)
  next =>
    split at h
    · cases h
    · split at h
      next =>
        obtain ⟨-, rfl⟩ : _ = found ∧ w = w' := by simpa using h
        exact refl w
      next => cases h

theorem keeps_complete {key : Idempotency.Key} {u : Unit}
    (hkind : ∀ group, createdKind key.operation = some group →
      w.backend.db.isGroup resource = some group)
    (h : complete key resource w = .ok (u, w')) : KeepsWork w w' := by
  unfold complete at h
  split at h
  next key₁ hash lease expiresAt hr =>
    obtain rfl : key₁ = key := (mem_of_getRow_eq_some hr).2
    obtain rfl : _ = w' := congrArg Prod.snd (Except.ok.inj h)
    apply keeps_record
    rintro resource' group ⟨⟩ hgrp
    exact hkind group hgrp
  next => cases h

/-- A request behind a key that creates no conversation. -/
theorem keeps_keyed {R : Work → Work → Prop} [Std.Refl R] [IsTrans Work R]
    (hR : ∀ w w', KeepsWork w w' → R w w') {key : Idempotency.Key}
    (hk : createdKind key.operation = none) (hbody : body.Moves R)
    (hrep : ∀ resource, (again resource).Moves R) : (keyed now key hash body again).Moves R := by
  apply Tx.Moves.bind ((keeps_claim now hash key).mono hR)
  intro found
  cases found with
  | some resource => exact (hrep resource).bind fun _ => .pure resource
  | none =>
    apply hbody.bind
    intro resource
    have hcmp : (complete key resource).Moves R := by
      intro w w' u h
      exact hR w w' (keeps_complete (by simp [hk]) h)
    exact hcmp.bind fun _ => .pure resource

/-- A request behind a key that creates a conversation, or finds the one it created. -/
theorem creates_keyed (group : Bool) {key : Idempotency.Key}
    (hk : createdKind key.operation = some group)
    (hbody : ∀ w w' c, body w = .ok (c, w') → KeepsWork w w' ∧
      (Sound w.backend → w'.backend.db.isGroup c = some group))
    (hrep : ∀ w w' c, w.backend.db.isGroup c = some group → again c w = .ok ((), w') →
      KeepsWork w w')
    (h : keyed now key hash body again w = .ok (resource, w')) :
    KeepsWork w w' ∧ (Sound w.backend → w'.backend.db.isGroup resource = some group) := by
  obtain ⟨found, m, hclaim, h⟩ := Tx.bind_eq_ok.mp h
  have hcld := keeps_claim now hash key w m found hclaim
  obtain ⟨r, rfl, ⟨expiresAt, hr⟩, rfl⟩ | ⟨rfl, -⟩ := claim_eq_ok hclaim
  · obtain ⟨_, m, hrun, h⟩ := Tx.bind_eq_ok.mp h
    obtain ⟨rfl, rfl⟩ := Tx.pure_eq_ok.mp h
    -- the record names what was created
    have hkind : Sound w.backend → w.backend.db.isGroup r = some group := fun hs =>
      hs.records _ (mem_of_getRow_eq_some hr).1 r group rfl hk
    exact ⟨fun hs => hrep w m r (hkind hs) hrun hs,
      fun hs => (hrep w m r (hkind hs) hrun hs).kinds r group (hkind hs)⟩
  · obtain ⟨r, m₁, hrun, h⟩ := Tx.bind_eq_ok.mp h
    obtain ⟨_, m₂, hcmp, h⟩ := Tx.bind_eq_ok.mp h
    obtain ⟨rfl, rfl⟩ := Tx.pure_eq_ok.mp h
    obtain ⟨hkp, hkind⟩ := hbody m m₁ r hrun
    have hrest : Sound w.backend → Grown w.backend m₂.backend ∧
        m₂.backend.db.isGroup r = some group := by
      intro hs
      have hcld := hcld hs
      have hcrd := hkind hcld.sound
      have hdone : Grown m₁.backend m₂.backend := by
        refine keeps_complete ?_ hcmp (hkp hcld.sound).sound
        intro group' hgrp'
        cases hk.symm.trans hgrp'
        exact hcrd
      have hbef : Keeps w.backend m₁.backend :=
        IsTrans.trans _ _ _ (fun _ => hcld) hkp
      exact ⟨IsTrans.trans (r := Keeps) _ _ _ hbef (fun _ => hdone) hs,
        hdone.kinds r group hcrd⟩
    exact ⟨fun hs => (hrest hs).1, fun hs => (hrest hs).2⟩

/-! ### Groups -/

variable {e : Moment} {g c : Nat}

theorem keepsGroup_write (h : (write f).Moves KeepsWork) : (write f).Moves (KeepsGroup g) :=
  h.mono fun _ _ hw _ => hw

theorem keeps_touch (c now : Nat) : (write (touch c now)).Moves KeepsWork :=
  keeps_write fun _ => ⟨rfl, rfl, rfl, rfl⟩

/-- Rows of `groups` change, and stay the rows of their conversations. -/
theorem keeps_groupRows {f : Management.Group → Management.Group}
    (hf : ∀ row, (f row).conversation = row.conversation) :
    (write fun b => { b with groups := b.groups.map f }).Moves KeepsWork :=
  keeps_write fun b => ⟨rfl, by simp [List.map_map, Function.comp_def, hf], rfl, rfl⟩

theorem keeps_bump (g : Nat) : (write (bump g)).Moves KeepsWork :=
  keeps_groupRows fun row => by split <;> rfl

theorem keeps_finishGroup (e : Moment) (g : Nat) : (Backend.finishGroup e g).Moves (KeepsGroup g) :=
  (keeps_groupStatements g _).bind fun _ => keepsGroup_write (keeps_touch g e.now)

theorem keeps_bumped (g : Nat) (code : List GroupStatement) :
    (bumped g code).Moves (KeepsGroup g) :=
  (keeps_groupStatements g code).bind fun _ => keepsGroup_write (keeps_bump g)

theorem keeps_updateRow (g : Nat) (settings : Management.Settings) (version : Int) :
    (updateRow g settings version).Moves (KeepsGroup g) :=
  .bind (.read _) fun _ => keepsGroup_write (keeps_groupRows fun row => by split <;> rfl)

theorem keeps_changeGroup {actor : ActorRef} {operation key : String} {body : Transact Unit}
    (hk : createdKind operation = none) (hbody : body.Moves (KeepsGroup g)) :
    (changeGroup e actor g operation key hash body).Moves KeepsWork := by
  intro w w' u h
  obtain ⟨_, m, hlock, h⟩ := Tx.bind_eq_ok.mp h
  obtain ⟨hgrp, rfl⟩ := lock_eq_ok.mp hlock
  have hrest : (do
      let _ ← keyed e.now ⟨actor, operation, key⟩ hash (do body; pure g) fun _ => pure ()
      Backend.finishGroup e g : Transact Unit).Moves (KeepsGroup g) := by
    apply Tx.Moves.bind _ fun _ => keeps_finishGroup e g
    exact keeps_keyed (R := KeepsGroup g) (fun _ _ hw _ => hw) hk (hbody.bind fun _ => .pure g)
      fun _ => .pure ()
  exact hrest w w' u h hgrp

/-- Code of a group that begins with its lock, then a new version and time. -/
theorem keeps_lockedCode :
    (do
      statements ((.lock :: rest).map (.group g))
      write (bump g)
      write (touch g e.now) : Transact Unit).Moves KeepsWork := by
  have hcode : (statements ((.lock :: rest).map (.group g))).Moves KeepsWork :=
    fun w w' u h => (keeps_groupCode (.inl rfl) h).1
  exact hcode.bind fun _ => (keeps_bump g).bind fun _ => keeps_touch g e.now

theorem keeps_respond (invitee : ActorRef) (accept : Bool) :
    (respond e g invitee accept).Moves KeepsWork :=
  keeps_lockedCode

theorem keeps_leave (member : ActorRef) : (leave e g member).Moves KeepsWork :=
  keeps_lockedCode

/-- The rows of a new group. -/
theorem keeps_newGroup (hg : b.db.isGroup g = some true) : Keeps b { b with
      groups := b.groups ++ [⟨g, settings, 1⟩]
      updatedAt := Function.update b.updatedAt g now } := by
  intro hs
  refine ⟨⟨hs.anchors, ?_, hs.directs, hs.records, hs.rosters⟩, fun _ _ hc => hc, fun _ _ => rfl⟩
  exact forall_mem_concat.mpr ⟨hs.groups, hg⟩

theorem creates_createGroup {invitees : List Invitee} {key : String}
    (h : Backend.createGroup dep e creator settings invitees key w = .ok (c, w')) :
    KeepsWork w w' ∧ (Sound w.backend → w'.backend.db.isGroup c = some true) := by
  refine creates_keyed true rfl ?_ ?_ h
  · intro w w' c hbody
    obtain ⟨_, m, hcode, hbody⟩ := Tx.bind_eq_ok.mp hbody
    obtain ⟨hkp, hgrp⟩ := keeps_groupCode (.inr rfl) hcode
    have hbody := write_bind_eq_ok.mp hbody
    obtain ⟨rfl, rfl⟩ := Tx.pure_eq_ok.mp hbody
    exact ⟨IsTrans.trans (r := Keeps) _ _ _ hkp (keeps_newGroup hgrp), fun _ => hgrp⟩
  · intro w w' c hgrp hrep
    exact keeps_groupStatements c [.sync e.now] w w' () hrep hgrp

/-! ### Direct conversations -/

theorem isGroup_insertDirect (hfr : b.db.conversation e.conversationId = none) (c : Nat) :
    (insertDirect e creator participants b).db.isGroup c =
      if c = e.conversationId then some false else b.db.isGroup c := by
  show ((Write.conversation ⟨e.conversationId, false, 1⟩).apply b.db).isGroup c = _
  rw [isGroup_write]
  by_cases hc : c = e.conversationId
  · subst hc
    simp [Database.isGroup, hfr]
  · simp [hc, Ne.symm hc]

theorem roster_insertDirect (c : Nat) :
    roster (insertDirect e creator participants b).db c =
      roster b.db c ++ if c = e.conversationId then participants else [] := by
  unfold roster insertDirect
  simp only [filter_append, map_append]
  congr 1
  by_cases hc : c = e.conversationId
  · simp [hc, List.filter_map, List.map_map, Function.comp_def]
  · simp [hc, Ne.symm hc, List.filter_map]

theorem roster_of_fresh
    (hanchors : ∀ p ∈ b.db.participants, (b.db.isGroup p.conversation).isSome = true)
    (hfr : b.db.conversation c = none) : roster b.db c = [] := by
  unfold roster
  rw [map_eq_nil_iff, filter_eq_nil_iff]
  intro p hp hc
  have hanchor := hanchors p hp
  rw [of_decide_eq_true hc, Database.isGroup, hfr] at hanchor
  cases hanchor

/-- The rows of a new direct conversation. -/
theorem keeps_insertDirect (hnd : participants.Nodup) (htwo : 2 ≤ participants.length)
    (hmost : participants.length ≤ 100) (hfr : b.db.conversation e.conversationId = none) :
    Keeps b (insertDirect e creator participants b) := by
  intro hs
  have hn : b.db.isGroup e.conversationId = none := by simp [Database.isGroup, hfr]
  have hks : ∀ c group, b.db.isGroup c = some group →
      (insertDirect e creator participants b).db.isGroup c = some group := by
    intro c group hc
    rw [isGroup_insertDirect hfr, if_neg]
    · exact hc
    · rintro rfl
      simp [hn] at hc
  refine ⟨⟨?_, ?_, ?_, ?_, ?_⟩, hks, ?_⟩
  · intro p hp
    rcases mem_append.mp hp with hp | hp
    · obtain ⟨group, hgrp⟩ := Option.isSome_iff_exists.mp (hs.anchors p hp)
      rw [hks _ _ hgrp]
      rfl
    · obtain ⟨a, -, rfl⟩ := List.mem_map.mp hp
      rw [isGroup_insertDirect hfr, if_pos rfl]
      rfl
  · intro g hg
    exact hks _ _ (hs.groups g hg)
  · refine forall_mem_concat.mpr ⟨fun row hr => hks _ _ (hs.directs row hr), ?_⟩
    rw [isGroup_insertDirect hfr, if_pos rfl]
  · intro row hr resource group hstat hkind
    exact hks _ _ (hs.records row hr resource group hstat hkind)
  · intro c hc
    rw [roster_insertDirect]
    by_cases hnew : c = e.conversationId
    · rw [if_pos hnew, hnew, roster_of_fresh hs.anchors hfr, nil_append]
      exact ⟨hnd, htwo, hmost⟩
    · rw [isGroup_insertDirect hfr, if_neg hnew] at hc
      rw [if_neg hnew, append_nil]
      exact hs.rosters c hc
  · intro c hc
    rw [roster_insertDirect, if_neg, append_nil]
    rintro rfl
    simp [hn] at hc

theorem mem_of_canonicalDirect (h : b.canonicalDirect participants = some c) :
    ∃ row ∈ b.directs, row.conversation = c := by
  obtain ⟨row, hr, rfl⟩ := Option.map_eq_some_iff.mp h
  exact ⟨row, mem_of_find?_eq_some hr, rfl⟩

theorem creates_canonicalOrInsert (hnd : participants.Nodup) (htwo : 2 ≤ participants.length)
    (hmost : participants.length ≤ 100)
    (h : canonicalOrInsert e creator participants w = .ok (c, w')) :
    KeepsWork w w' ∧ (Sound w.backend → w'.backend.db.isGroup c = some false) := by
  obtain ⟨found, hfnd, h⟩ := query_bind_eq_ok.mp h
  cases found with
  | some id =>
    obtain ⟨rfl, rfl⟩ := Tx.pure_eq_ok.mp h
    obtain ⟨row, hr, rfl⟩ := mem_of_canonicalDirect (Except.ok.inj hfnd)
    exact ⟨refl w, fun hs => hs.directs row hr⟩
  | none =>
    obtain ⟨_, hreq, h⟩ := query_bind_eq_ok.mp h
    have hfr : w.backend.db.conversation e.conversationId = none := by
      simpa using require_eq_ok.mp hreq
    have h := write_bind_eq_ok.mp h
    obtain ⟨rfl, rfl⟩ := Tx.pure_eq_ok.mp h
    refine ⟨keeps_insertDirect hnd htwo hmost hfr, fun _ => ?_⟩
    show (insertDirect e creator participants w.backend).db.isGroup e.conversationId = some false
    rw [isGroup_insertDirect hfr, if_pos rfl]

theorem creates_createConversation {key : String}
    (h : createConversation dep e creator participants key w = .ok (c, w')) :
    KeepsWork w w' ∧ (Sound w.backend → w'.backend.db.isGroup c = some false) := by
  obtain ⟨_, htwo, h⟩ := query_bind_eq_ok.mp h
  obtain ⟨_, hmost, h⟩ := query_bind_eq_ok.mp h
  refine creates_keyed false rfl ?_ ?_ h
  · intro w w' c hbody
    exact creates_canonicalOrInsert (nodup_dedup _) (by simpa using require_eq_ok.mp htwo)
      (by simpa using require_eq_ok.mp hmost) hbody
  · intro w w' c _ hrep
    obtain ⟨-, rfl⟩ := Tx.pure_eq_ok.mp hrep
    exact refl w

/-! ### Messages, receipts, drafts and bundles -/

variable {dep : Deployment} {actor : ActorRef} {m : Nat} {key : String}

theorem keeps_newMessage (m c now : Nat) : (write (newMessage m c now)).Moves KeepsWork :=
  keeps_write fun _ => ⟨rfl, rfl, rfl, rfl⟩

theorem keeps_send (content : String) : (send dep e actor c content key).Moves KeepsWork := by
  apply Tx.Moves.bind (keeps_statements (by simp [Statement.scope]))
  intro _
  apply keeps_keyed (R := KeepsWork) (fun _ _ h => h) rfl _ fun _ => .pure ()
  apply Tx.Moves.bind (keeps_statements (by simp [Statement.scope]))
  intro _
  apply Tx.Moves.bind (keeps_newMessage _ _ _)
  intro _
  exact .bind (keeps_write fun _ => ⟨rfl, rfl, rfl, rfl⟩) fun _ => .pure _

theorem keeps_revise (reviser : Reviser) (content : Option String) :
    (revise dep e actor reviser c m content key).Moves KeepsWork := by
  apply Tx.Moves.bind (keeps_statements (by simp [Statement.scope]))
  intro _
  apply keeps_keyed (R := KeepsWork) (fun _ _ h => h) (by cases content <;> rfl) _ fun _ => .pure ()
  apply Tx.Moves.bind (keeps_statements (by cases content <;> simp [Statement.scope]))
  intro _
  exact .bind (keeps_touch _ _) fun _ => .pure _

theorem keeps_recordReceipt (device : String) (status : ReceiptStatus) :
    (recordReceipt e actor c m device status).Moves KeepsWork := by
  apply Tx.Moves.bind (keeps_statements (by simp [Statement.scope]))
  intro _
  apply Tx.Moves.bind (keeps_query _)
  intro _
  apply Tx.Moves.bind (keeps_query _)
  intro previous
  refine Tx.Moves.bind (keeps_write fun _ => ⟨rfl, rfl, rfl, rfl⟩) ?_
  intro _
  have hadvance : ∀ b, ∃ aggregates, advanceAggregate m e.now b = { b with aggregates } := by
    intro b
    unfold advanceAggregate
    dsimp only
    split_ifs <;> exact ⟨_, rfl⟩
  have hwrite : (write (advanceAggregate m e.now)).Moves KeepsWork := by
    apply keeps_write
    intro b
    obtain ⟨aggregates, h⟩ := hadvance b
    rw [h]
    exact ⟨rfl, rfl, rfl, rfl⟩
  apply hwrite.bind
  intro _
  apply Tx.Moves.bind (keeps_query _)
  intro now
  split
  · exact keeps_statements (by simp [Statement.scope])
  · exact .pure ()

theorem keeps_saveDraft (content : String) (expected : Int) :
    (saveDraft c actor content expected).Moves KeepsWork := by
  apply Tx.Moves.bind (keeps_statements (by simp [Statement.scope]))
  intro _
  apply Tx.Moves.bind (keeps_query _)
  intro row
  exact .bind (keeps_write fun _ => ⟨rfl, rfl, rfl, rfl⟩) fun _ => .pure _

theorem keeps_deleteDraft : (deleteDraft c actor).Moves KeepsWork :=
  .bind (keeps_statements (by simp [Statement.scope])) fun _ =>
    keeps_write fun _ => ⟨rfl, rfl, rfl, rfl⟩

theorem keeps_bundle (messages : List Nat) (display : String) :
    (bundle dep e actor c messages display key).Moves KeepsWork := by
  apply Tx.Moves.bind (keeps_statements (by simp [Statement.scope]))
  intro _
  apply keeps_keyed (R := KeepsWork) (fun _ _ h => h) rfl _ fun _ => .pure ()
  apply Tx.Moves.bind (keeps_query _)
  intro _
  apply Tx.Moves.bind (keeps_statements (by simp [Statement.scope]))
  intro _
  apply Tx.Moves.bind (keeps_newMessage _ _ _)
  intro _
  refine Tx.Moves.bind (keeps_write fun _ => ⟨rfl, rfl, rfl, rfl⟩) ?_
  intro _
  exact .bind (keeps_statements (by simp [Statement.scope])) fun _ => .pure _

/-! ### Requests -/

theorem leaves_transaction (h : x.Moves KeepsWork) :
    Handler.Leaves Keeps b (transaction x) := by
  apply Handler.Leaves.transaction
  intro a w b' hx hfin
  rw [← backend_of_finish hfin]
  exact h _ w a hx

theorem leaves_startConversation (others : List Account) (key : Option String) :
    Handler.Leaves Keeps b (startConversation dep e actor others key) := by
  apply Handler.Leaves.read_bind
  intro found _
  cases found with
  | some existing => exact .pure existing
  | none =>
    apply Handler.Leaves.read_bind
    intro _ _
    apply Handler.Leaves.bind
      (leaves_transaction fun w w' c h => (creates_createConversation h).1)
    intro id b' _
    apply Handler.Leaves.read_bind
    intro _ _
    exact .pure id

theorem leaves_conversationPath (path : ConversationPath) (create deletes : Bool) :
    Handler.Leaves Keeps b (conversationPath dep e actor path create deletes) := by
  have htgt : Handler.Leaves Keeps b (targetConversation dep e actor path.target create) := by
    unfold targetConversation
    split
    · exact .pure _
    · exact .read _
    · apply Handler.Leaves.read_bind
      intro recipient _
      apply Handler.Leaves.read_bind
      intro found _
      cases found with
      | some c => exact .pure c
      | none =>
        apply Handler.Leaves.read_bind
        intro _ _
        exact leaves_startConversation _ _
  apply htgt.bind
  intro c b' _
  apply Handler.Leaves.read_bind
  intro access _
  apply Handler.Leaves.read_bind
  intro _ _
  exact .pure _

/-- A request on the path of a conversation. -/
theorem leaves_on {path : ConversationPath} {create deletes : Bool}
    {f : Nat × ConversationAccess → Serve α} (hf : ∀ x b, Handler.Leaves Keeps b (f x)) :
    Handler.Leaves Keeps b (conversationPath dep e actor path create deletes >>= f) :=
  (leaves_conversationPath path create deletes).bind fun x b' _ => hf x b'

/-- A transaction, and a query for the answer. -/
theorem leaves_answer {β : Type} {f : α → Serve β} (h : x.Moves KeepsWork)
    (hf : ∀ a b, Handler.Leaves Keeps b (f a)) : Handler.Leaves Keeps b (transaction x >>= f) :=
  (leaves_transaction h).bind fun a b' _ => hf a b'

theorem leaves_reviseMessage (reviser : Reviser) (content : Option String) :
    Handler.Leaves Keeps b (Backend.reviseMessage dep e actor reviser c m content key) := by
  apply Handler.Leaves.read_bind
  intro _ _
  exact leaves_answer (keeps_revise _ _) fun _ _ => .read _

/-- Every request, answered or refused. -/
theorem leaves_execute (caller : Caller) (mutation : Mutation) :
    Handler.Leaves Keeps b (execute dep e caller mutation) := by
  cases mutation with
  | createGroup settings members key =>
    apply Handler.Leaves.read_bind
    intro invited _
    exact leaves_answer (fun w w' c h => (creates_createGroup h).1) fun _ _ => .read _
  | updateGroup g settings version key =>
    apply Handler.Leaves.read_bind
    intro _ _
    exact leaves_answer (keeps_changeGroup rfl (keeps_updateRow _ _ _)) fun _ _ => .read _
  | inviteGroupMembers g members key | removeGroupMembers g members key
  | addGroupOwners g members key | removeGroupOwners g members key =>
    apply Handler.Leaves.read_bind
    intro _ _
    exact leaves_answer (keeps_changeGroup rfl (keeps_bumped _ _)) fun _ _ => .read _
  | acceptInvitation g =>
    apply Handler.Leaves.read_bind
    intro _ _
    apply Handler.Leaves.read_bind
    intro _ _
    exact leaves_answer (keeps_respond _ _) fun _ _ => .read _
  | declineInvitation g forAccount =>
    apply Handler.Leaves.read_bind
    intro _ _
    apply Handler.Leaves.read_bind
    intro _ _
    exact leaves_answer (keeps_respond _ _) fun _ _ => .pure _
  | leaveGroup g =>
    apply Handler.Leaves.read_bind
    intro _ _
    apply Handler.Leaves.read_bind
    intro _ _
    exact leaves_answer (keeps_leave _) fun _ _ => .pure _
  | allow accounts forAccount =>
    apply Handler.Leaves.read_bind
    intro _ _
    apply Handler.Leaves.bind _ fun _ _ _ => .pure _
    apply Handler.Leaves.forM
    intro who _ b
    apply Handler.Leaves.read_bind
    intro _ _
    apply leaves_transaction
    apply keeps_write
    intro b
    split <;> exact ⟨rfl, rfl, rfl, rfl⟩
  | disallow accounts forAccount =>
    apply Handler.Leaves.read_bind
    intro _ _
    apply Handler.Leaves.bind _ fun _ _ _ => .pure _
    apply Handler.Leaves.forM
    intro who _ b
    exact leaves_transaction (keeps_write fun _ => ⟨rfl, rfl, rfl, rfl⟩)
  | createConversation participants key =>
    apply Handler.Leaves.read_bind
    intro others _
    exact (leaves_startConversation _ _).bind fun _ _ _ => .read _
  | sendMessage path content key =>
    apply leaves_on
    rintro ⟨c, _⟩ b
    apply Handler.Leaves.read_bind
    intro _ _
    exact leaves_answer (keeps_send _) fun _ _ => .read _
  | editMessage path m content key | deleteMessage path m key =>
    apply leaves_on
    rintro ⟨c, a⟩ b
    exact leaves_reviseMessage _ _
  | receipt path m status device =>
    apply leaves_on
    rintro ⟨c, _⟩ b
    apply Handler.Leaves.read_bind
    intro _ _
    exact leaves_answer (keeps_recordReceipt _ _) fun _ _ => .read _
  | putDraft path content version =>
    apply leaves_on
    rintro ⟨c, _⟩ b
    apply Handler.Leaves.read_bind
    intro _ _
    exact leaves_answer (keeps_saveDraft _ _) fun _ _ => .pure _
  | deleteDraft path =>
    apply leaves_on
    rintro ⟨c, _⟩ b
    apply Handler.Leaves.read_bind
    intro _ _
    exact leaves_answer keeps_deleteDraft fun _ _ => .pure _
  | createBundle path messages display key =>
    apply leaves_on
    rintro ⟨c, _⟩ b
    apply Handler.Leaves.read_bind
    intro _ _
    exact leaves_answer (keeps_bundle _ _) fun _ _ => .read _
  | setPresence activity =>
    apply Handler.Leaves.read_bind
    intro _ _
    exact leaves_answer (keeps_write fun _ => ⟨rfl, rfl, rfl, rfl⟩)
      fun _ _ => .pure _

/-! ### Runs -/

/-- What happens to the store: requests, the tasks of webhooks and workers, and the pointers that
linking identities sets. -/
inductive Event where
  | request (dep : Deployment) (moment : Moment) (caller : Caller) (mutation : Mutation)
  | task (task : Task)
  | supersede (supersededBy : List (Nat × Nat))

def inBackground (task : Task) : Bool :=
  match task.scope with
  | .deletion _ | .lookup .. | .upkeep => true
  | .group _ | .message => false

def serving : System Backend Event where
  init := Sound
  step b
    | .request dep moment caller mutation => some (execute dep moment caller mutation b).2
    | .task task =>
      if inBackground task then some (transaction (statements task.code) b).2 else none
    | .supersede supersededBy => some { b with supersededBy }

theorem keeps_task {task : Task} (h : inBackground task = true) :
    (statements task.code).Moves KeepsWork := by
  intro w w' u hrun
  obtain ⟨hruns, -⟩ := runs_of_runStatements (statements_eq_ok.mp hrun)
  refine keeps_of_runs hrun (extends_of_runs (fun s hs => scope_of_mem_code hs) ?_ hruns)
  intro g hg
  simp [inBackground, hg] at h

theorem keeps_step {event : Event} (h : serving.step b event = some b') : Keeps b b' := by
  cases event with
  | request dep moment caller mutation =>
    cases h
    exact leaves_execute caller mutation
  | task task =>
    simp only [serving] at h
    split at h
    next htask =>
      cases h
      exact leaves_transaction (keeps_task htask)
    next => cases h
  | supersede supersededBy =>
    cases h
    exact keeps_of_extends (.refl _) rfl rfl rfl

/-- Along every run, direct conversations keep their participants. -/
theorem grown_of_steps (hs : Sound b) (h : serving.Steps (fun _ _ => True) b b') : Grown b b' := by
  have hkp : Keeps b b' := by
    refine h.preserves (I := Keeps b) ?_ (refl b)
    intro s l s' hbef _ hstep
    exact IsTrans.trans _ _ _ hbef (keeps_step hstep)
  exact hkp hs

theorem sound_of_reachable (h : serving.Reachable b) : Sound b := by
  refine h.invariant (fun _ hinit => hinit) ?_
  intro s l s' hs hstep
  exact (keeps_step hstep hs).sound

end SiliconDm.Server.Directs
