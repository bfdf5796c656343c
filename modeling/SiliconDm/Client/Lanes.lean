import Mathlib.Data.String.Basic
import SiliconDm.Client.Terminal
import SiliconDm.Server.Routes

/-!
# Lanes and conversations

The outbox orders the requests of a lane, and the lane of a request about a conversation is the
text that the caller gave for it. The server reads several texts as the same conversation, so
two requests about one conversation may have two lanes.

Sources: `crates/client/src/runtime/queue.rs:89–130`, `src/api/access.rs:24–159`.
-/

namespace SiliconDm.Client

open Server Server.Routes List Option
open Base (mem_of_getRow_eq_some bind_eq_ok)
open Server.Backend (resolve_eq_ok require_eq_ok)

def Operation.conversation : Operation → Option String
  | .listMessages c | .getMessage c | .sendMessage c | .editMessage c | .deleteMessage c
  | .receipt c | .getDraft c | .putDraft c | .deleteDraft c | .createBundle c
  | .getBundle c => some c
  | _ => none

theorem lane_of_conversation {operation : Operation} {value : String}
    (h : operation.conversation = some value) : lane operation = "conversation:" ++ value := by
  cases operation <;> cases h <;> rfl

/-- The conversation that an address names at the server, if there is one. -/
def conversationOf (names : Names) (d : Deployment) (e : Moment) (actor : ActorRef)
    (value : String) (b : Backend) : Except Refusal Nat := do
  let target ← pathTarget names actor value b
  (Backend.targetConversation d e actor target false b).1

/-! ### Addresses as the server writes them -/

inductive Form where
  | uuid
  | group
  | direct
  | recipient
  | account
  deriving DecidableEq, Repr

/-- An id as it is recorded for the account that has it. -/
def IsCurrent (names : Names) (b : Backend) (id : String) : Prop :=
  ∃ row, resolve names b.db.accounts id = .ok row ∧ row.currentId = some id

/-- An address of a form, written as the server writes it: the two ids of a direct address in
their order. -/
inductive Written (names : Names) (actor : ActorRef) (b : Backend) : Form → String → Prop
  | uuid {n : Nat} (hvisible : (b.db.conversationAccess actor n).isSome = true) :
      Written names actor b .uuid (names.uuidText n)
  | group {value : String} (hgroup : "g:".toList.isPrefixOf value.toList = true)
      (hnot : names.parseUuid value = none) : Written names actor b .group value
  | direct {x y : String} (hx : IsCurrent names b x) (hy : IsCurrent names b y) (hle : x ≤ y)
      (hparts : directParts (x ++ "::" ++ y).toList = some (x.toList, y.toList))
      (hgroup : "g:".toList.isPrefixOf (x ++ "::" ++ y).toList = false)
      (hnot : names.parseUuid (x ++ "::" ++ y) = none) :
      Written names actor b .direct (x ++ "::" ++ y)
  | recipient {value : String} (hvalue : IsCurrent names b value)
      (hone : isAddress value = false) (hnot : names.parseUuid value = none) :
      Written names actor b .recipient value
  | account {value : String} (hparse : Selector.parse value = .ok (.uuid value))
      (hone : isAddress value = false)
      (hnot : ∀ n, names.parseUuid value = some n → b.db.conversationAccess actor n = none) :
      Written names actor b .account value

variable {names : Names} {d : Deployment} {e : Moment} {actor : ActorRef} {b : Backend}
  {value : String} {c : Nat}

/-! ### Conversations and their participants -/

theorem mem_iff_of_sameSet {x y : List ActorRef} (h : Backend.sameSet x y = true) (a : ActorRef) :
    a ∈ x ↔ a ∈ y := by
  simp only [Backend.sameSet, Bool.and_eq_true, List.all_eq_true, decide_eq_true_eq] at h
  exact ⟨h.1 a, h.2 a⟩

/-- A conversation is canonical for one set. -/
theorem mem_iff_of_canonicalDirect (hkd : (b.directs.map (·.conversation)).Nodup)
    {x y : List ActorRef} (hx : b.canonicalDirect x = some c) (hy : b.canonicalDirect y = some c)
    (a : ActorRef) : a ∈ x ↔ a ∈ y := by
  obtain ⟨row, hr, hid⟩ := map_eq_some_iff.mp hx
  obtain ⟨row', hr', hid'⟩ := map_eq_some_iff.mp hy
  obtain rfl := inj_on_of_nodup_map hkd (mem_of_find?_eq_some hr)
    (mem_of_find?_eq_some hr') (hid.trans hid'.symm)
  have hset := find?_some hr
  have hset' := find?_some hr'
  rw [Bool.and_eq_true] at hset hset'
  exact (mem_iff_of_sameSet hset.1 a).symm.trans (mem_iff_of_sameSet hset'.1 a)

variable {row first second : Account}

variable {uuid x y v : String}

/-- A uuid finds the account that has it. -/
theorem uuid_of_resolve (hprs : Selector.parse value = .ok (.uuid value))
    (h : resolve names b.db.accounts value = .ok row) : row.uuid = value := by
  unfold resolve at h
  rw [hprs] at h
  exact (mem_of_getRow_eq_some (resolve_eq_ok.mp h).1).2

/-- What the recipient of an address was found to be. -/
theorem recipient_of_conversationOf
    (h : (Backend.targetConversation d e actor (.recipient uuid) false b).1 = .ok c) :
    ∃ row, account b.db.accounts uuid = some row ∧ row.uuid ≠ actor.id ∧
      b.canonicalDirect [actor, row.actor] = some c := by
  obtain ⟨b', h⟩ : ∃ b', Backend.targetConversation d e actor (.recipient uuid) false b =
      (.ok c, b') := ⟨_, Prod.ext h rfl⟩
  obtain ⟨row, hr, h⟩ := Base.Handler.read_bind_eq_ok.mp h
  obtain ⟨found, hfnd, h⟩ := Base.Handler.read_bind_eq_ok.mp h
  obtain ⟨resolved, hres, hr⟩ := bind_eq_ok.mp hr
  obtain ⟨_, hoth, hr⟩ := bind_eq_ok.mp hr
  obtain rfl := Except.ok.inj hr
  refine ⟨resolved, (resolve_eq_ok.mp hres).1, ?_, ?_⟩
  · simpa using require_eq_ok.mp hoth
  · cases found with
    | some id =>
      obtain ⟨rfl, -⟩ := Base.Handler.pure_eq_ok.mp h
      exact Except.ok.inj hfnd
    | none =>
      obtain ⟨_, hcr, -⟩ := Base.Handler.read_bind_eq_ok.mp h
      cases hcr

/-- The other participant of a conversation of the actor is one account. -/
theorem eq_of_same_conversation (hkd : (b.directs.map (·.conversation)).Nodup)
    {x y : Account} (hr : account b.db.accounts x.uuid = some x)
    (hr' : account b.db.accounts y.uuid = some y) (hx : x.uuid ≠ actor.id)
    (hcx : b.canonicalDirect [actor, x.actor] = some c)
    (hcy : b.canonicalDirect [actor, y.actor] = some c) : x = y := by
  have hm := (mem_iff_of_canonicalDirect hkd hcx hcy x.actor).mp (by simp)
  have huuid : x.uuid = y.uuid := by
    rcases mem_cons.mp hm with hself | hoth
    · exact absurd (congrArg ActorRef.id hself) hx
    · exact congrArg ActorRef.id (mem_singleton.mp hoth)
  rw [huuid] at hr
  exact Option.some.inj (hr.symm.trans hr')

/-! ### One address of a form -/

theorem pathTarget_of_hidden
    (hnot : ∀ n, names.parseUuid value = some n → b.db.conversationAccess actor n = none) :
    pathTarget names actor value b = if isAddress value then resolveAddress names value b
      else (resolve names b.db.accounts value).map fun row => .recipient row.uuid := by
  have hnone : (names.parseUuid value).filter (fun c => (b.db.conversationAccess actor c).isSome) =
      none := by
    rw [filter_eq_none_iff]
    intro n hn
    rw [hnot n hn]
    exact Bool.false_ne_true
  unfold pathTarget
  rw [hnone]

/-- An address that is one account. -/
theorem recipient_of_written
    (hn : ∀ n, names.parseUuid value = some n → b.db.conversationAccess actor n = none)
    (hone : isAddress value = false) (h : conversationOf names d e actor value b = .ok c) :
    ∃ found, resolve names b.db.accounts value = .ok found ∧ found.uuid ≠ actor.id ∧
      b.canonicalDirect [actor, found.actor] = some c := by
  obtain ⟨target, htgt, h⟩ := bind_eq_ok.mp h
  rw [pathTarget_of_hidden hn, hone] at htgt
  cases hfnd : resolve names b.db.accounts value with
  | error refusal =>
    rw [hfnd] at htgt
    cases htgt
  | ok found =>
    rw [hfnd] at htgt
    obtain rfl := Except.ok.inj htgt
    obtain ⟨row, hr, hoth, hc⟩ := recipient_of_conversationOf h
    obtain rfl := Option.some.inj ((account_of_resolve hfnd).1.symm.trans hr)
    exact ⟨found, rfl, hoth, hc⟩

theorem doubled_append {c : Char} (s t : List Char) :
    Selector.doubled c (s ++ c :: c :: t) = true := by
  induction s with
  | nil => simp [Selector.doubled]
  | cons x s ih =>
    unfold Selector.doubled at ih ⊢
    rw [List.any_eq_true] at ih ⊢
    obtain ⟨p, hp, htwice⟩ := ih
    refine ⟨p, ?_, htwice⟩
    cases hs : s ++ c :: c :: t with
    | nil => simp at hs
    | cons y rest =>
      rw [hs] at hp
      rw [cons_append, hs]
      exact mem_cons_of_mem _ hp

/-- A direct address names the conversation of the accounts that have its ids. -/
theorem accounts_of_written (hx : IsCurrent names b x) (hy : IsCurrent names b y)
    (hparts : directParts (x ++ "::" ++ y).toList = some (x.toList, y.toList))
    (hgrp : "g:".toList.isPrefixOf (x ++ "::" ++ y).toList = false)
    (hn : names.parseUuid (x ++ "::" ++ y) = none)
    (h : conversationOf names d e actor (x ++ "::" ++ y) b = .ok c) :
    ∃ first second : Account, (first.currentId = some x ∧ second.currentId = some y) ∧
      (account b.db.accounts first.uuid = some first ∧
        account b.db.accounts second.uuid = some second) ∧
      b.canonicalDirect [first.actor, second.actor] = some c := by
  obtain ⟨first, hfst, hcur⟩ := hx
  obtain ⟨second, hsecond, hcur'⟩ := hy
  obtain ⟨hr, hlive⟩ := account_of_resolve hfst
  obtain ⟨hr', hlive'⟩ := account_of_resolve hsecond
  refine ⟨first, second, ⟨hcur, hcur'⟩, ⟨hr, hr'⟩, ?_⟩
  have haddr : isAddress (x ++ "::" ++ y) = true := by
    have htext : (x ++ "::" ++ y).toList = x.toList ++ ':' :: ':' :: y.toList := by simp
    rw [isAddress, htext, doubled_append, Bool.or_true]
  have htgt : pathTarget names actor (x ++ "::" ++ y) b =
      .ok (.accounts first.uuid second.uuid) := by
    rw [pathTarget_of_hidden (by simp [hn]), haddr, if_pos rfl]
    unfold resolveAddress
    simp only [hn, hgrp, Bool.false_eq_true, if_false, hparts, String.ofList_toList, hfst,
      hsecond]
  obtain ⟨target, htgt', h⟩ := bind_eq_ok.mp h
  obtain rfl := Except.ok.inj (htgt.symm.trans htgt')
  change Backend.directAddress first.uuid second.uuid b = .ok c at h
  unfold Backend.directAddress at h
  rw [resolve_eq_ok.mpr ⟨hr, hlive⟩, resolve_eq_ok.mpr ⟨hr', hlive'⟩] at h
  cases hfnd : b.canonicalDirect [first.actor, second.actor] with
  | none =>
    simp only [bind, Except.bind, hfnd] at h
    cases h
  | some found =>
    simp only [bind, Except.bind, hfnd] at h
    rw [Except.ok.inj h]

theorem group_of_written (hgrp : "g:".toList.isPrefixOf value.toList = true)
    (hn : names.parseUuid value = none) (h : conversationOf names d e actor value b = .ok c) :
    names.group value = some c := by
  obtain ⟨target, htgt, h⟩ := bind_eq_ok.mp h
  rw [pathTarget_of_hidden (by simp [hn]), isAddress, hgrp, Bool.true_or, if_pos rfl] at htgt
  unfold resolveAddress at htgt
  simp only [hn, hgrp, if_true] at htgt
  split_ifs at htgt
  cases hfnd : names.group value with
  | none =>
    simp only [hfnd] at htgt
    cases htgt
  | some found =>
    simp only [hfnd] at htgt
    obtain rfl := Except.ok.inj htgt
    exact congrArg some (Except.ok.inj h)

/-- Accounts that take part as one actor are one, and have one id. -/
theorem id_eq_of_actor (hr : account b.db.accounts first.uuid = some first)
    (hr' : account b.db.accounts second.uuid = some second) (hx : first.currentId = some x)
    (hy : second.currentId = some y) (h : first.actor = second.actor) : x = y := by
  have huuid : first.uuid = second.uuid := congrArg ActorRef.id h
  rw [huuid] at hr
  cases hr.symm.trans hr'
  exact Option.some.inj (hx.symm.trans hy)

theorem id_of_mem_pair {i : String} (hr : account b.db.accounts row.uuid = some row)
    (hfst : account b.db.accounts first.uuid = some first)
    (hsecond : account b.db.accounts second.uuid = some second) (hi : row.currentId = some i)
    (hx : first.currentId = some x) (hy : second.currentId = some y)
    (hm : row.actor ∈ [first.actor, second.actor]) : i = x ∨ i = y := by
  rcases mem_cons.mp hm with h | h
  · exact .inl (id_eq_of_actor hr hfst hi hx h)
  · exact .inr (id_eq_of_actor hr hsecond hi hy (mem_singleton.mp h))

/-- Two ordered pairs of the same ids. -/
theorem pair_eq_of_le {x' y' : String} (hle : x ≤ y) (hle' : x' ≤ y') (hx : x = x' ∨ x = y')
    (hy : y = x' ∨ y = y') (hx' : x' = x ∨ x' = y) (hy' : y' = x ∨ y' = y) : x = x' ∧ y = y' := by
  have hfst : x = x' := by
    rcases hx with rfl | rfl
    · rfl
    · rcases hx' with rfl | rfl
      · rfl
      · exact le_antisymm hle hle'
  refine ⟨hfst, ?_⟩
  rcases hy with rfl | rfl
  · rcases hy' with rfl | rfl
    · exact hfst.symm
    · rfl
  · rfl

/-- Two addresses of one form for one conversation are one text. -/
theorem eq_of_written (hkd : (b.directs.map (·.conversation)).Nodup)
    (hgrps : ∀ x y c, names.group x = some c → names.group y = some c → x = y) {form : Form}
    {w : String} (hv : Written names actor b form v) (hw : Written names actor b form w)
    (hcv : conversationOf names d e actor v b = .ok c)
    (hcw : conversationOf names d e actor w b = .ok c) : v = w := by
  cases hv with
  | @uuid n hvis =>
    cases hw with
    | @uuid n' hvis' =>
      have hsame : ∀ {n}, (b.db.conversationAccess actor n).isSome = true →
          conversationOf names d e actor (names.uuidText n) b = .ok c → n = c := by
        intro n hvis h
        obtain ⟨target, htgt, h⟩ := bind_eq_ok.mp h
        unfold pathTarget at htgt
        rw [names.parse_uuidText, filter_some, if_pos hvis] at htgt
        obtain rfl := Except.ok.inj htgt
        exact Except.ok.inj h
      rw [hsame hvis hcv, hsame hvis' hcw]
  | group hgrp hn =>
    cases hw with
    | group hgrp' hn' =>
      exact hgrps _ _ c (group_of_written hgrp hn hcv) (group_of_written hgrp' hn' hcw)
  | @direct x y hx hy hle hparts hgrp hn =>
    cases hw with
    | @direct x' y' hx' hy' hle' hparts' hgrp' hn' =>
      obtain ⟨a, b', ⟨ha, hb⟩, ⟨hra, hrb⟩, hc⟩ := accounts_of_written hx hy hparts hgrp hn hcv
      obtain ⟨a', b'', ⟨ha', hb'⟩, ⟨hra', hrb'⟩, hc'⟩ :=
        accounts_of_written hx' hy' hparts' hgrp' hn' hcw
      have hset := mem_iff_of_canonicalDirect hkd hc hc'
      obtain ⟨rfl, rfl⟩ := pair_eq_of_le hle hle'
        (id_of_mem_pair hra hra' hrb' ha ha' hb' ((hset _).mp (by simp)))
        (id_of_mem_pair hrb hra' hrb' hb ha' hb' ((hset _).mp (by simp)))
        (id_of_mem_pair hra' hra hrb ha' ha hb ((hset _).mpr (by simp)))
        (id_of_mem_pair hrb' hra hrb hb' ha hb ((hset _).mpr (by simp)))
      rfl
  | recipient hcur hone hn =>
    cases hw with
    | recipient hcur' hone' hn' =>
      obtain ⟨found, hfnd, hoth, hc⟩ := recipient_of_written (by simp [hn]) hone hcv
      obtain ⟨found', hfnd', -, hc'⟩ := recipient_of_written (by simp [hn']) hone' hcw
      obtain ⟨_, hres, hid⟩ := hcur
      obtain rfl := Except.ok.inj (hres.symm.trans hfnd)
      obtain ⟨_, hres', hid'⟩ := hcur'
      obtain rfl := Except.ok.inj (hres'.symm.trans hfnd')
      obtain rfl := eq_of_same_conversation hkd (account_of_resolve hfnd).1
        (account_of_resolve hfnd').1 hoth hc hc'
      exact Option.some.inj (hid.symm.trans hid')
  | account hprs hone hn =>
    cases hw with
    | account hprs' hone' hn' =>
      obtain ⟨found, hfnd, hoth, hc⟩ := recipient_of_written hn hone hcv
      obtain ⟨found', hfnd', -, hc'⟩ := recipient_of_written hn' hone' hcw
      obtain rfl := eq_of_same_conversation hkd (account_of_resolve hfnd).1
        (account_of_resolve hfnd').1 hoth hc hc'
      rw [← uuid_of_resolve hprs hfnd, uuid_of_resolve hprs' hfnd']

/-! ### Requests about one conversation -/

/-- A row of the outbox as `enqueue` files it. -/
def Row.Filed (r : Row) : Prop :=
  r.session = sessionKey r.request.request.profile ∧ r.lane = Client.lane r.request.request.request

theorem Row.Continues.filed {r r' : Row} (h : r.Continues r') (hr : r.Filed) : r'.Filed := by
  unfold Row.Filed
  rw [h.session, h.lane, h.request]
  exact hr

/-- The relay files what it is given and moves no row to another lane. -/
theorem filed_of_step {s s' : Home} {event : Event} (h : ∀ r ∈ s.rows, r.Filed)
    (hs : s.step event = some s') : ∀ r ∈ s'.rows, r.Filed := by
  have hrewrites : ∀ {rows}, Rewrites s.rows rows → ∀ r ∈ rows, r.Filed := by
    intro rows hrw r' hr'
    obtain ⟨r, hr, hcontinues⟩ := hrw.origin r' hr'
    exact hcontinues.filed (h r hr)
  cases Home.effect_of_step hs with
  | enqueue hok =>
    rcases enqueue_eq_ok hok with ⟨rfl, -⟩ | ⟨rfl, -⟩
    · exact h
    · exact Base.forall_mem_concat.mpr ⟨h, rfl, rfl⟩
  | @bulk _ hit error _ _ => exact hrewrites (rewrites_failWhere hit error s.rows)
  | @settle _ ending t _ => exact hrewrites (rewrites_settle t.request s.now s.rows ending)
  | _ => exact h

/-- Two requests of one profile about the conversations of two addresses. -/
structure About (v w : String) (p r : Row) : Prop where
  profile : p.request.request.profile = r.request.request.profile
  first : p.request.request.request.conversation = some v
  second : r.request.request.request.conversation = some w

theorem About.same {p r : Row} (h : About v v p r) (hp : p.Filed) (hr : r.Filed) :
    p.session = r.session ∧ p.lane = r.lane := by
  constructor
  · rw [hp.1, hr.1, h.profile]
  · rw [hp.2, hr.2, lane_of_conversation h.first, lane_of_conversation h.second]

/-- Operations about one conversation have one lane exactly if they address it by one text; so
they do where both addresses are of one form and written as the server writes them. In every run
of the relay two requests of a profile with one address are never in flight together, and when
one starts no earlier one is pending. -/
theorem one_lane_per_conversation (hkeyed : (b.directs.map (·.conversation)).Nodup)
    (hgroups : ∀ x y c, names.group x = some c → names.group y = some c → x = y) {v w : String}
    (hcv : conversationOf names d e actor v b = .ok c)
    (hcw : conversationOf names d e actor w b = .ok c) :
    (∀ x y : Operation, x.conversation = some v → y.conversation = some w →
      (lane x = lane y ↔ v = w)) ∧
    (∀ form, Written names actor b form v → Written names actor b form w → v = w) ∧
    (v = w → ∀ s₀ s, s₀.Initial → (∀ r ∈ s₀.rows, r.Filed) → relay.Steps (fun _ _ => True) s₀ s →
      (∀ p ∈ s.rows, ∀ r ∈ s.rows, About v w p r → ∀ t₁ ∈ s.tasks, ∀ t₂ ∈ s.tasks,
        p.requestId = t₁.request.requestId → r.requestId = t₂.request.requestId →
          t₁.id = t₂.id) ∧
      ∀ event s', relay.step s event = some s' → ∀ t, Home.Starts s s' t →
        ∀ p ∈ s'.rows, ∀ r ∈ s'.rows, About v w p r → r.requestId = t.request.requestId →
          p.rowid < r.rowid → p.state ≠ .pending) := by
  refine ⟨fun x y hx hy => ?_,
    fun form hv hw => eq_of_written hkeyed hgroups hv hw hcv hcw, ?_⟩
  · rw [lane_of_conversation hx, lane_of_conversation hy]
    exact String.append_right_inj _
  rintro rfl s₀ s hinitial hfiled hsteps
  have hordered : s.Ordered := .of_reachable ⟨s₀, hinitial, hsteps⟩
  have hrows : ∀ r ∈ s.rows, r.Filed :=
    Base.System.Steps.preserves hsteps (fun _ _ _ h _ hs => filed_of_step h hs) hfiled
  constructor
  · intro p hp r hr habout t₁ ht₁ t₂ ht₂ hid₁ hid₂
    obtain ⟨hsession, hlane⟩ := habout.same (hrows p hp) (hrows r hr)
    by_contra hne
    exact hordered.lane_ne ht₁ ht₂ hne hp hr hid₁ hid₂ hsession hlane
  · intro event s' hs t hstart p hp r hr habout hid hlt hpending
    have hrows' := filed_of_step hrows hs
    obtain ⟨hsession, hlane⟩ := habout.same (hrows' p hp) (hrows' r hr)
    exact (hordered.unblocked_of_starts hs hstart hr hid p hp hsession hlt hpending).1 hlane

open FirstContact (plain ada)
open Removal (told)

/-- Ada's conversation with Scout, where the server knows their ids. -/
def withScout : Backend :=
  let b := (told "ada").backend
  { b with db := { b.db with accounts := b.db.accounts.map fun row =>
    { row with currentId := [("ada", "c:ada"), ("scout", "si:scout")].lookup row.uuid } } }

/-- Ada addresses the conversation by the direct address and by an id that is not written as the
server writes it: one lane for each text, and not the same. -/
theorem one_lane_for_direct :
    (∀ v ∈ ["c:ada::si:scout", "SI:Scout"],
      conversationOf listed plain ⟨2, 0, 3, 0⟩ ada v withScout = .ok 1) ∧
    (∀ x y : Operation, x.conversation = some "SI:Scout" → y.conversation = some "SI:Scout" →
      lane x = lane y) ∧
    ∀ x y : Operation, x.conversation = some "c:ada::si:scout" →
      y.conversation = some "SI:Scout" → lane x ≠ lane y := by
  have hc : ∀ v ∈ ["c:ada::si:scout", "SI:Scout"],
      conversationOf listed plain ⟨2, 0, 3, 0⟩ ada v withScout = .ok 1 := by decide +kernel
  have hlanes : ∀ v ∈ ["c:ada::si:scout", "SI:Scout"], ∀ w ∈ ["c:ada::si:scout", "SI:Scout"],
      ∀ x y : Operation, x.conversation = some v → y.conversation = some w →
        (lane x = lane y ↔ v = w) := fun v hv w hw =>
    (one_lane_per_conversation (by decide +kernel) (fun _ _ _ h => by cases h) (hc v hv)
      (hc w hw)).1
  refine ⟨hc, fun x y hx hy => (hlanes _ (by simp) _ (by simp) x y hx hy).mpr rfl,
    fun x y hx hy he => ?_⟩
  have := (hlanes _ (by simp) _ (by simp) x y hx hy).mp he
  revert this
  decide

/-- Every address of the conversation has a lane of its own, and what Ada sends second to it
arrives first. -/
theorem lanes_of_one_conversation :
    (∀ v ∈ ["u", "c:ada::si:scout", "si:scout::c:ada", "si:scout", "SI:Scout"],
      conversationOf listed plain ⟨2, 0, 3, 0⟩ ada v withScout = .ok 1) ∧
    (["u", "c:ada::si:scout", "si:scout::c:ada", "si:scout", "SI:Scout"].map
      fun v => lane (.sendMessage v)).Nodup ∧
    ∃ s, relay.Reachable s ∧ s.sent = [(2, "ada"), (1, "ada")] ∧
      s.rows.map (fun r => (r.requestId, r.request.request.request.conversation)) =
        [(1, some "si:scout"), (2, some "c:ada::si:scout")] := by
  refine ⟨by decide +kernel, by decide +kernel, _, Base.System.reachable_get (M := relay)
    [.countPending (sampleSignIn "ada" "c:ada"), .install "default:production",
      .finishSignIn "default:production", .enqueue (sampleSend 1 "si:scout"),
      .enqueue (sampleSend 2 "c:ada::si:scout"), .scan, .consider true 8, .consider true 8,
      .authenticate 1, .send 1, .settle 1 (.answered "sent"), .authenticate 0, .send 0]
    (Home.initial_idle .missing) (by decide +kernel), by decide +kernel⟩

end SiliconDm.Client
