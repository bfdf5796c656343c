import SiliconDm.Server.Repeats

/-!
# Requests, repeated

Half of the requests are repeated without a trace once they succeeded: those about a message, the
deletion of a draft, and those that make a group or a conversation or change an allow-list. The
others always leave one: a change of a group stamps it, also when its key is replayed, saving a
draft makes a new version, and a presence change renews its lease.
-/

namespace SiliconDm.Server

open Base Management List

/-- The request is about one message, draft or bundle of a conversation. -/
def Mutation.publishes : Mutation → Bool
  | .sendMessage .. | .editMessage .. | .deleteMessage .. | .receipt .. | .deleteDraft ..
  | .createBundle .. => true
  | _ => false

/-- The request makes a group or a conversation, or changes an allow-list. -/
def Mutation.founds : Mutation → Bool
  | .createGroup .. | .allow .. | .disallow .. | .createConversation .. => true
  | _ => false

/-- The request leaves no trace when it is repeated: it is not a change of a group, a saved draft
or a presence change. -/
def Mutation.repeatable (m : Mutation) : Bool :=
  m.publishes || m.founds

def Mutation.group : Mutation → Option Nat
  | .updateGroup g .. | .inviteGroupMembers g .. | .removeGroupMembers g .. | .addGroupOwners g ..
  | .removeGroupOwners g .. | .acceptInvitation g | .declineInvitation g _ | .leaveGroup g => some g
  | _ => none

variable {d d' : Database} {g : Nat}

/-! ### Synced groups -/

/-- Every eligible member is anchored. -/
def Database.Synced (d : Database) (g : Nat) : Prop :=
  ∀ a ∈ d.eligibleGroupMembers g, (d.conversation g).isSome = true ∧
    (d.participants.any fun p => p.conversation = g && p.actor = a) = true

/-- The anchors that a refresh makes, one after the other. -/
theorem triple_anchors (members : List ActorRef) (now : Nat) :
    store.Triple (· = d) (members.map fun a => .group g (.anchor a now)) fun d' =>
      d'.invitations = d.invitations ∧ d'.accounts = d.accounts ∧
        ∀ a ∈ members, (d'.conversation g).isSome = true ∧
          (d'.participants.any fun p => p.conversation = g && p.actor = a) = true := by
  have hloop := Language.Triple.map (L := store)
    (f := fun a => Statement.group g (.anchor a now))
    (I := fun (rest : List ActorRef) (m : Database) => m.invitations = d.invitations ∧
      m.accounts = d.accounts ∧ ∀ a ∈ members, a ∈ rest ∨ (m.conversation g).isSome = true ∧
        (m.participants.any fun p => p.conversation = g && p.actor = a) = true) ?_ members
  · refine hloop.conseq ?_ ?_
    · rintro _ rfl
      exact ⟨rfl, rfl, fun a ha => .inl ha⟩
    · rintro m ⟨hi, ha, hall⟩
      exact ⟨hi, ha, fun a hm => (hall a hm).resolve_left (by simp)⟩
  · intro a rest
    apply triple_group
    rintro m o ⟨hi, ha, hall⟩ ho
    simp only [groupStatement] at ho
    split at ho
    next hsome =>
      cases ho
      refine ⟨rfl, ?_⟩
      dsimp only
      split
      next hanchored =>
        refine ⟨hi, ha, fun a' hm => ?_⟩
        rcases hall a' hm with hrest | hdone
        · rcases mem_cons.mp hrest with rfl | hrest
          · exact .inr ⟨hsome, hanchored⟩
          · exact .inl hrest
        · exact .inr hdone
      next =>
        refine ⟨hi, ha, fun a' hm => ?_⟩
        have hgrows : ∀ a'', ((m.participants ++ [(⟨g, a, now⟩ : Participant)]).any
            fun p => p.conversation = g && p.actor = a'') =
            ((m.participants.any fun p => p.conversation = g && p.actor = a'') ||
              decide (a = a'')) := by
          intro a''
          simp
        rcases hall a' hm with hrest | hdone
        · rcases mem_cons.mp hrest with rfl | hrest
          · exact .inr ⟨hsome, (hgrows a').trans (by simp)⟩
          · exact .inl hrest
        · exact .inr ⟨hdone.1, (hgrows a').trans (by simp [hdone.2])⟩
    next => cases ho

/-- A refresh syncs the group. -/
theorem triple_sync (now : Nat) :
    store.Triple (fun _ => True) [.group g (.sync now)] (·.Synced g) := by
  refine Language.Triple.stmt ?_
  intro d o _ ho
  cases exec_eq_some ho
  refine (triple_anchors (d.eligibleGroupMembers g) now).conseq (fun _ h => h) ?_
  rintro d' ⟨hi, ha, hall⟩ a hm
  apply hall
  unfold Database.eligibleGroupMembers Database.deleted at hm ⊢
  rwa [hi, ha] at hm

/-- A refresh of a synced group finds nothing to do. -/
theorem runStatements_sync {w : Work} {now n : Nat} (h : w.backend.db.Synced g) :
    runStatements (n + 2) [.group g (.sync now)] w = .ok w := by
  simp only [runStatements, foldlM_cons, foldlM_nil]
  refine bind_eq_ok.mpr ⟨w, bind_eq_ok.mpr ⟨_, rfl, ?_⟩, rfl⟩
  have hwrote : ∀ next, w.wrote { next } = w := by
    intro next
    simp [Work.wrote, Language.applyAll]
  rw [hwrote]
  suffices hsi : runStatements (n + 1) _ w = .ok w by simpa only [runStatements] using hsi
  apply runStatements_silent
  intro s hs
  obtain ⟨a, ha, rfl⟩ := List.mem_map.mp hs
  obtain ⟨hsome, hanchored⟩ := h a ha
  refine ⟨[.conversation g], ?_⟩
  simp only [Statement.exec, groupStatement, if_pos hsome, if_pos hanchored]

/-- Statements about a group write no account. -/
theorem accounts_of_groupRuns {code : List Statement} (hcode : ∀ s ∈ code, s.scope = .group g)
    (h : store.Runs d code d') : d'.accounts = d.accounts := by
  have hwrites : ∀ (ws : List Write) (m : Database),
      (∀ w ∈ ws, (Scope.group g).allows w = true) →
      (store.applyAll m ws).accounts = m.accounts := by
    intro ws
    induction ws with
    | nil => exact fun _ _ => rfl
    | cons w ws ih =>
      intro m hws
      refine (ih _ fun w' hw' => hws w' (mem_cons_of_mem _ hw')).trans ?_
      have hw := hws w mem_cons_self
      cases w with
      | markDeleted | lookup => simp [Scope.allows] at hw
      | _ => rfl
  refine Language.Triple.frame (L := store) (p := fun s => s.scope = .group g)
    (P := fun m => m.accounts = d.accounts) ?_ hcode d d' rfl h
  intro s m o hs hm ho
  obtain ⟨hnext, halwd⟩ := Statement.exec_scope (exec_eq_some ho)
  rw [hs] at hnext halwd
  exact ⟨(hwrites _ _ halwd).trans hm, hnext⟩

namespace Backend

variable {b b' b₁ b₂ : Backend} {d : Deployment} {e e' : Moment} {caller : Caller} {w w' : Work}

variable {α : Type} {actor : ActorRef} {uuids : List String}
  {a : Rendered} {u : Unit} {settings : Settings} {m : Mutation} {key : String}

theorem lock_eq_ok : statements [.group g .lock] w = .ok (u, w') ↔
    w.backend.db.isGroup g = some true ∧ w = w' := by
  by_cases hg : w.backend.db.isGroup g = some true
  · have hrun : statements [.group g .lock] w = .ok ((), w) := by
      apply statements_silent
      intro s hs
      obtain rfl := mem_singleton.mp hs
      exact ⟨[.conversation g], by simp [Statement.exec, groupStatement, hg]⟩
    rw [hrun]
    simp [hg]
  · have hexec : (Statement.group g .lock).exec w.backend.db = .error .notFound := by
      simp [Statement.exec, groupStatement, hg]
    simp only [hg, false_and, iff_false, statements_eq_ok, nesting, runStatements,
      foldlM_cons, hexec]
    intro h
    cases h

theorem sameRecords_write {f : Backend → Backend} (hf : ∀ b, (f b).records = b.records) :
    (write f).Moves SameRecords :=
  .alter fun w => hf w.backend

/-- Who may be invited is read from accounts and allow-lists. -/
theorem invitees_congr (haccs : b'.db.accounts = b.db.accounts)
    (hall : b'.allowances = b.allowances) :
    b'.invitees actor uuids = b.invitees actor uuids := by
  unfold invitees requireMayReach mayReachSilicon custodianName
  rw [haccs, hall]

/-! ### New groups and conversations -/

theorem groupStatements_eq_ok (code : List GroupStatement) {w w' : Work}
    (h : statements (code.map (.group g)) w = .ok (u, w')) :
    store.Runs w.backend.db (code.map (.group g)) w'.backend.db ∧
      w'.backend.db.accounts = w.backend.db.accounts ∧
      w'.backend.allowances = w.backend.allowances := by
  obtain ⟨hruns, honly⟩ := runs_of_runStatements (statements_eq_ok.mp h)
  refine ⟨hruns, accounts_of_groupRuns (g := g) ?_ hruns, by rw [honly]⟩
  intro s hs
  obtain ⟨s', -, rfl⟩ := List.mem_map.mp hs
  rfl

/-- A group that was created is found by its key, and is synced already. -/
theorem createGroup_again {creator : ActorRef} {invited : List Invitee} {id : Nat} (e' : Moment)
    (h : transaction (createGroup d e creator settings invited key) b = (.ok id, b₁)) :
    b₁.db.accounts = b.db.accounts ∧ b₁.allowances = b.allowances ∧
      transaction (createGroup d e' creator settings invited key) b₁ = (.ok id, b₁) := by
  obtain ⟨w, hrun, hfin⟩ := transaction_eq_ok.mp h
  obtain rfl := backend_of_finish hfin
  suffices hdone : w.backend.db.accounts = b.db.accounts ∧
      w.backend.allowances = b.allowances ∧ w.backend.db.Synced id ∧
      Recorded ⟨creator, "groups.create", key⟩
        (d.requestHash (.group settings (dedupInvitees (invited.filter (·.actor ≠ creator)))))
        id w.backend by
    obtain ⟨haccs, hall, hsync, hrec⟩ := hdone
    refine ⟨haccs, hall, transaction_of_silent (keyed_of_recorded hrec ?_)⟩
    exact statements_eq_ok.mpr (runStatements_sync hsync)
  have hrecs : Tx.Moves SameRecords (do
      statements ((Server.createGroup creator invited e.now).map (.group e.conversationId))
      write fun b =>
        { b with
          groups := b.groups ++ [⟨e.conversationId, settings, 1⟩]
          updatedAt := Function.update b.updatedAt e.conversationId e.now }
      pure e.conversationId : Transact Nat) :=
    (sameRecords_statements _).bind fun _ => .bind (sameRecords_write fun _ => rfl) fun _ => .pure _
  have hrec := recorded_of_keyed hrecs (fun _ => sameRecords_statements _) hrun
  obtain ⟨-, hrep⟩ | ⟨records, w₂, records', hwork, rfl, -⟩ := keyed_eq_ok hrecs hrun
  · obtain ⟨hruns, haccs, hall⟩ :=
      groupStatements_eq_ok [.sync e.now] hrep
    exact ⟨haccs, hall, triple_sync e.now _ _ trivial hruns, hrec⟩
  · obtain ⟨_, w₃, hstmts, hwork⟩ := Tx.bind_eq_ok.mp hwork
    have hwork := write_bind_eq_ok.mp hwork
    obtain ⟨rfl, rfl⟩ := Tx.pure_eq_ok.mp hwork
    obtain ⟨hruns, haccs, hall⟩ := groupStatements_eq_ok _ hstmts
    refine ⟨haccs, hall, ?_, hrec⟩
    rw [Server.createGroup, map_append] at hruns
    obtain ⟨m, -, hlast⟩ := hruns.split
    exact triple_sync e.now m _ trivial hlast

/-! ### Every request -/

/-- A path, then the rest of a request on a message. -/
theorem message_again {path : ConversationPath} {create deletes : Bool}
    {rest rest' : Nat × ConversationAccess → Serve Rendered} (hnow : e.now ≤ e'.now)
    (hrest : ∀ x b b₁, rest x b = (.ok a, b₁) → b.Steady b₁ ∧ rest' x b₁ = (.ok a, b₁))
    (h : (conversationPath d e caller.actor path create deletes >>= rest) b = (.ok a, b₁)) :
    (conversationPath d e' caller.actor path create deletes >>= rest') b₁ = (.ok a, b₁) := by
  obtain ⟨x, m, hpath, h⟩ := Handler.bind_eq_ok.mp h
  obtain ⟨hs, hrep⟩ := hrest x m b₁ h
  exact Handler.bind_eq_ok.mpr ⟨x, b₁, conversationPath_again hpath hs hnow, hrep⟩

/-- A transaction, then what the request reads back. -/
theorem transaction_read_again {x x' : Transact α} {c : α → Backend → Except Refusal Rendered}
    (hx : ∀ r b b₁, transaction x b = (.ok r, b₁) → b.Steady b₁ ∧ transaction x' b₁ = (.ok r, b₁))
    (h : (transaction x >>= fun r => Handler.read (c r)) b = (.ok a, b₁)) :
    b.Steady b₁ ∧ (transaction x' >>= fun r => Handler.read (c r)) b₁ = (.ok a, b₁) := by
  obtain ⟨r, m, htx, h⟩ := Handler.bind_eq_ok.mp h
  obtain ⟨hread, rfl⟩ := Handler.read_eq_ok.mp h
  obtain ⟨hs, hrep⟩ := hx r b m htx
  exact ⟨hs, Handler.bind_eq_ok.mpr ⟨r, m, hrep, Handler.read_eq_ok.mpr ⟨hread, rfl⟩⟩⟩

/-- A request on a message is repeated without a trace. -/
theorem publishing_again (hnow : e.now ≤ e'.now) (hm : m.publishes = true)
    (h : execute d e caller m b = (.ok a, b₁)) : execute d e' caller m b₁ = (.ok a, b₁) := by
  cases m with
  | sendMessage path content key =>
    refine message_again hnow ?_ h
    rintro ⟨c, access⟩ b b₁ h
    obtain ⟨_, hcur, h⟩ := Handler.read_bind_eq_ok.mp h
    obtain ⟨hs, hrep⟩ := transaction_read_again (fun _ _ _ => send_again) h
    refine ⟨hs, Handler.read_bind_eq_ok.mpr ⟨(), ?_, hrep⟩⟩
    rw [hs.requireCurrent]
    exact hcur
  | editMessage path message content key | deleteMessage path message key =>
    refine message_again hnow ?_ h
    rintro ⟨c, access⟩ b b₁ h
    exact reviseMessage_again h
  | receipt path message status device =>
    refine message_again hnow ?_ h
    rintro ⟨c, access⟩ b b₁ h
    obtain ⟨_, hval, h⟩ := Handler.read_bind_eq_ok.mp h
    obtain ⟨hs, hrep⟩ := transaction_read_again (fun _ _ _ => recordReceipt_again) h
    exact ⟨hs, Handler.read_bind_eq_ok.mpr ⟨(), hval, hrep⟩⟩
  | deleteDraft path =>
    refine message_again hnow ?_ h
    rintro ⟨c, access⟩ b b₁ h
    obtain ⟨_, hpart, h⟩ := Handler.read_bind_eq_ok.mp h
    obtain ⟨_, m, htx, h⟩ := Handler.bind_eq_ok.mp h
    obtain ⟨rfl, rfl⟩ := Handler.pure_eq_ok.mp h
    obtain ⟨hs, hrep⟩ := deleteDraft_again htx
    exact ⟨hs, Handler.read_bind_eq_ok.mpr ⟨(), hpart,
      Handler.bind_eq_ok.mpr ⟨_, m, hrep, rfl⟩⟩⟩
  | createBundle path messages display key =>
    refine message_again hnow ?_ h
    rintro ⟨c, access⟩ b b₁ h
    obtain ⟨_, hsil, h⟩ := Handler.read_bind_eq_ok.mp h
    obtain ⟨hs, hrep⟩ := transaction_read_again (fun _ _ _ => bundle_again) h
    exact ⟨hs, Handler.read_bind_eq_ok.mpr ⟨(), hsil, hrep⟩⟩
  | _ => cases hm

theorem listed_congr {uuids : List String} {forAccount : Option String} (h : b₁.db = b.db) :
    listed caller uuids forAccount b₁ = listed caller uuids forAccount b := by
  unfold listed
  rw [h]

/-- A request that makes something without a path is repeated without a trace. -/
theorem founding_again (hnow : e.now ≤ e'.now) (hm : m.founds = true)
    (h : execute d e caller m b = (.ok a, b₁)) : execute d e' caller m b₁ = (.ok a, b₁) := by
  cases m with
  | createGroup settings members key =>
    obtain ⟨invited, hinv, h⟩ := Handler.read_bind_eq_ok.mp h
    obtain ⟨id, m, htx, h⟩ := Handler.bind_eq_ok.mp h
    obtain ⟨hread, rfl⟩ := Handler.read_eq_ok.mp h
    obtain ⟨haccs, hall, hrep⟩ := createGroup_again e' htx
    refine Handler.read_bind_eq_ok.mpr ⟨invited, ?_, ?_⟩
    · obtain ⟨_, hown, hinv⟩ := bind_eq_ok.mp hinv
      refine bind_eq_ok.mpr ⟨_, hown, ?_⟩
      rw [invitees_congr haccs hall]
      exact hinv
    · exact Handler.bind_eq_ok.mpr ⟨id, m, hrep, Handler.read_eq_ok.mpr ⟨hread, rfl⟩⟩
  | allow accounts forAccount =>
    obtain ⟨⟨silicon, named⟩, hlisted, h⟩ := Handler.read_bind_eq_ok.mp h
    obtain ⟨_, m, hloop, h⟩ := Handler.bind_eq_ok.mp h
    obtain ⟨rfl, rfl⟩ := Handler.pure_eq_ok.mp h
    obtain ⟨hdb, hrep⟩ := forM_allowContact_again hloop
    refine Handler.read_bind_eq_ok.mpr ⟨(silicon, named), ?_, ?_⟩
    · rw [listed_congr hdb]
      exact hlisted
    · exact Handler.bind_eq_ok.mpr ⟨(), m, hrep, rfl⟩
  | disallow accounts forAccount =>
    obtain ⟨⟨silicon, named⟩, hlisted, h⟩ := Handler.read_bind_eq_ok.mp h
    obtain ⟨_, m, hloop, h⟩ := Handler.bind_eq_ok.mp h
    obtain ⟨rfl, rfl⟩ := Handler.pure_eq_ok.mp h
    obtain ⟨hdb, hrep⟩ := forM_disallowContact_again hloop
    refine Handler.read_bind_eq_ok.mpr ⟨(silicon, named), ?_, ?_⟩
    · rw [listed_congr hdb]
      exact hlisted
    · exact Handler.bind_eq_ok.mpr ⟨(), m, hrep, rfl⟩
  | createConversation participants key =>
    obtain ⟨others, hoths, h⟩ := Handler.read_bind_eq_ok.mp h
    obtain ⟨id, m, hsta, h⟩ := Handler.bind_eq_ok.mp h
    obtain ⟨hread, rfl⟩ := Handler.read_eq_ok.mp h
    have hrep := startConversation_again hsta (.refl m) hnow
    refine Handler.read_bind_eq_ok.mpr ⟨others, ?_, ?_⟩
    · simpa only [createOthers, accounts_startConversation hsta] using hoths
    · exact Handler.bind_eq_ok.mpr ⟨id, m, hrep, Handler.read_eq_ok.mpr ⟨hread, rfl⟩⟩
  | _ => cases hm

/-! ### Requests that leave a trace -/

/-- Every success leaves the group stamped with the time. -/
def Stamps (g now : Nat) (x : Transact α) : Prop :=
  ∀ w w' a, x w = .ok (a, w') → now ≤ w'.backend.updatedAt g

theorem Stamps.bind {β : Type} {x : Transact β} {f : β → Transact α} {now : Nat}
    (hf : ∀ r, Stamps g now (f r)) : Stamps g now (x >>= f) := by
  intro w w' a h
  obtain ⟨r, m, -, h⟩ := Tx.bind_eq_ok.mp h
  exact hf r m w' a h

theorem stamps_touch (g now : Nat) : Stamps g now (write (touch g now)) := by
  intro w w' _ h
  obtain rfl := write_eq_ok.mp h
  simp [touch]

theorem stamps_finishGroup (e : Moment) (g : Nat) : Stamps g e.now (finishGroup e g) :=
  .bind fun _ => stamps_touch g e.now

theorem stamps_changeGroup {operation : String} {hash : Nat} {body : Transact Unit} :
    Stamps g e.now (changeGroup e actor g operation key hash body) :=
  .bind fun _ => .bind fun _ => stamps_finishGroup e g

/-- A transaction that stamps a group, then the answer. -/
theorem stamped_of_serve {x : Transact α} {c : α → Backend → Except Refusal Rendered} {now : Nat}
    (hx : Stamps g now x)
    (h : (transaction x >>= fun r => Handler.read (c r)) b = (.ok a, b₁)) :
    now ≤ b₁.updatedAt g := by
  obtain ⟨r, m, htx, h⟩ := Handler.bind_eq_ok.mp h
  obtain ⟨-, rfl⟩ := Handler.read_eq_ok.mp h
  obtain ⟨w, hrun, hfin⟩ := transaction_eq_ok.mp htx
  obtain rfl := backend_of_finish hfin
  exact hx _ _ _ hrun

/-- A change of a group stamps it, whether it is made or replayed. -/
theorem stamped_of_execute (hm : m.group = some g) (h : execute d e caller m b = (.ok a, b₁)) :
    e.now ≤ b₁.updatedAt g := by
  cases m with
  | updateGroup | inviteGroupMembers | removeGroupMembers | addGroupOwners | removeGroupOwners =>
    cases hm
    obtain ⟨_, -, h⟩ := Handler.read_bind_eq_ok.mp h
    exact stamped_of_serve stamps_changeGroup h
  | acceptInvitation | declineInvitation | leaveGroup =>
    cases hm
    obtain ⟨_, -, h⟩ := Handler.read_bind_eq_ok.mp h
    obtain ⟨_, -, h⟩ := Handler.read_bind_eq_ok.mp h
    exact stamped_of_serve (.bind fun _ => .bind fun _ => stamps_touch _ e.now) h
  | _ => cases hm

/-- A path that creates nothing only reads. -/
theorem conversationPath_reads {path : ConversationPath} {deletes : Bool}
    {x : Nat × ConversationAccess}
    (h : conversationPath d e actor path false deletes b = (.ok x, b₁)) : b₁ = b := by
  obtain ⟨c, m, htgt, h⟩ := Handler.bind_eq_ok.mp h
  obtain ⟨_, -, h⟩ := Handler.read_bind_eq_ok.mp h
  obtain ⟨_, -, h⟩ := Handler.read_bind_eq_ok.mp h
  obtain ⟨-, rfl⟩ := Handler.pure_eq_ok.mp h
  generalize path.target = target at htgt
  cases target with
  | conversation => exact (Handler.pure_eq_ok.mp htgt).2.symm
  | accounts => exact (Handler.read_eq_ok.mp htgt).2.symm
  | recipient =>
    obtain ⟨recipient, -, htgt⟩ := Handler.read_bind_eq_ok.mp htgt
    obtain ⟨found, -, htgt⟩ := Handler.read_bind_eq_ok.mp htgt
    cases found with
    | some existing => exact (Handler.pure_eq_ok.mp htgt).2.symm
    | none =>
      obtain ⟨_, hcreate, -⟩ := Handler.read_bind_eq_ok.mp htgt
      cases hcreate

theorem draftOf_putDraftRow (row : Draft) (b : Backend) :
    (putDraftRow row b).draftOf row.conversation row.actor = some row := by
  have hnone : (b.drafts.filter fun other => !(other.conversation = row.conversation &&
      other.actor = row.actor)).find? (fun other => other.conversation = row.conversation &&
        other.actor = row.actor) = none :=
    find?_eq_none.mpr fun other hother hp => by
      rw [mem_filter, hp] at hother
      exact absurd hother.2 (by simp)
  simp only [draftOf, putDraftRow, find?_append, hnone]
  simp

/-- A saved draft has a new version. -/
theorem savedDraft_ne {c : Nat} {content : String} {expected : Int} {row : Draft}
    (h : savedDraft c actor content expected b = .ok row) :
    row.conversation = c ∧ row.actor = actor ∧ b.draftOf c actor ≠ some row := by
  unfold savedDraft at h
  split at h
  next hnone =>
    split at h <;> cases h
    exact ⟨rfl, rfl, by simp [hnone]⟩
  next old hold =>
    split at h <;> cases h
    refine ⟨rfl, rfl, fun he => ?_⟩
    have := congrArg Draft.version (Option.some.inj (hold.symm.trans he))
    simp at this

theorem putDraft_ne {path : ConversationPath} {content : String} {version : Int}
    (h : execute d e caller (.putDraft path content version) b = (.ok a, b₁)) : b₁ ≠ b := by
  obtain ⟨⟨c, access⟩, m, hpath, hrest⟩ := Handler.bind_eq_ok.mp h
  cases conversationPath_reads hpath
  obtain ⟨_, -, hrest⟩ := Handler.read_bind_eq_ok.mp hrest
  obtain ⟨row, m', htx, hrest⟩ := Handler.bind_eq_ok.mp hrest
  obtain ⟨-, rfl⟩ := Handler.pure_eq_ok.mp hrest
  obtain ⟨-, htx⟩ := transaction_participant.mp htx
  obtain ⟨w, hrun, hfin⟩ := transaction_eq_ok.mp htx
  obtain ⟨row', hsaved, hrun⟩ := query_bind_eq_ok.mp hrun
  have hrun := write_bind_eq_ok.mp hrun
  obtain ⟨rfl, rfl⟩ := Tx.pure_eq_ok.mp hrun
  obtain rfl := backend_of_finish hfin
  obtain ⟨rfl, hactor, hold⟩ := savedDraft_ne hsaved
  rw [← hactor] at hold
  intro he
  exact hold ((congrArg (·.draftOf row'.conversation row'.actor) he).symm.trans
    (draftOf_putDraftRow row' b))

/-- The renewed lease of the caller's device begins now. -/
theorem heartbeat_of_setPresence {activity : Option Activity}
    (h : execute d e caller (.setPresence activity) b = (.ok a, b₁)) :
    ∃ l, getRow Lease.key b₁.presence.leases (caller.actor, caller.device) = some l ∧
      l.heartbeatAt = e.now := by
  obtain ⟨_, -, h⟩ := Handler.read_bind_eq_ok.mp h
  obtain ⟨_, m, htx, h⟩ := Handler.bind_eq_ok.mp h
  obtain ⟨-, rfl⟩ := Handler.pure_eq_ok.mp h
  obtain rfl := transaction_write.mp htx
  dsimp only
  rw [getRow_upsert, if_pos rfl]
  · refine ⟨_, rfl, ?_⟩
    cases getRow Lease.key _ _ <;> rfl
  · rfl
  · exact fun _ _ => rfl

/-- From some time on, a request that leaves a trace does not succeed without leaving one. -/
theorem execute_leaves_trace (b : Backend) (hm : m.repeatable = false) :
    ∃ t, ∀ e' : Moment, t ≤ e'.now → ∀ a, execute d e' caller m b ≠ (.ok a, b) := by
  cases hg : m.group with
  | some g =>
    refine ⟨b.updatedAt g + 1, fun e' ht a h => ?_⟩
    have := stamped_of_execute hg h
    omega
  | none =>
    cases m with
    | putDraft => exact ⟨0, fun e' _ a h => putDraft_ne h rfl⟩
    | setPresence =>
      refine ⟨((getRow Lease.key b.presence.leases (caller.actor, caller.device)).elim 0
        (·.heartbeatAt)) + 1, fun e' ht a h => ?_⟩
      obtain ⟨l, hl, hbeat⟩ := heartbeat_of_setPresence h
      rw [hl, Option.elim_some] at ht
      omega
    | _ => simp [Mutation.repeatable, Mutation.publishes, Mutation.founds, Mutation.group] at hm hg

/-- A request that succeeded succeeds again without a trace. -/
theorem execute_again (e' : Moment) (hm : m.repeatable = true) (hnow : e.now ≤ e'.now)
    (h : execute d e caller m b = (.ok a, b₁)) : execute d e' caller m b₁ = (.ok a, b₁) :=
  (Bool.or_eq_true_iff.mp hm).elim (fun hm => publishing_again hnow hm h)
    fun hm => founding_again hnow hm h

end Backend

end SiliconDm.Server
