import Mathlib
import SiliconDm.Base.System
import SiliconDm.Server.Mutations

/-!
# Device leases

Renewals, closes and expiry passes of one account, over its rows of `client_presence_leases` and
`actor_presence_state`. Each statement reads the clock when it runs. A transaction holds the
account's advisory lock from before its first statement to its commit, so it is one step: its
statements have run at `t₁` and `t₂`, after the commit before it, and what they wrote is seen
from now on. Reads take no lock. Beside the rows stands what they are for, the end of each
device's latest renewal. A time that may be missing is below all times, as `max` and `GREATEST`
have it.

Sources: `src/infrastructure/postgres/http_presence.rs:34–232`, `presence.rs:50–95`.
-/

namespace SiliconDm.Server.Leases

open Base Backend

structure Tables where
  devices : Finset String
  lease : String → Lease
  lastSeenAt : WithBot Nat
  ends : String → WithBot Nat

def live (now : Nat) (l : Lease) : Bool :=
  l.disconnectedAt.isNone && now < l.leaseExpiresAt

def ended (l : Lease) : Nat :=
  l.disconnectedAt.getD l.leaseExpiresAt

def Tables.latest (v : Tables) : WithBot Nat :=
  v.devices.sup fun x => .some (ended (v.lease x))

/-- `record_actor_offline`. `http_presence.rs:192–232`. -/
def recordActorOffline (now : Nat) (v : Tables) : Tables :=
  { v with
    lastSeenAt := if ∃ x ∈ v.devices, live now (v.lease x) then v.lastSeenAt
      else max v.lastSeenAt v.latest }

/-- The upsert of a renewal. `http_presence.rs:93–123`. -/
def renew (d : Deployment) (actor : ActorRef) (now : Nat) (device : String)
    (activity : Option Activity) (v : Tables) : Tables :=
  { v with
    devices := insert device v.devices
    lease := Function.update v.lease device
      (if device ∈ v.devices then renewLease d now activity (v.lease device)
      else
        { actor, device
          heartbeatAt := now
          leaseExpiresAt := now + d.heartbeatTimeout
          activity
          activityExpiresAt := activity.map fun _ => now + min d.activityTtl d.heartbeatTimeout
          disconnectedAt := none
          lastSeenAt := none })
    ends := Function.update v.ends device (.some (now + d.heartbeatTimeout)) }

/-- The `UPDATE` of a close and of the expiry pass. -/
def disconnect (p : Bool) (time : Nat) (l : Lease) : Lease :=
  if p && l.disconnectedAt.isNone then
    { l with disconnectedAt := some time, activity := none, activityExpiresAt := none }
  else l

def close (now : Nat) (device : String) (v : Tables) : Tables :=
  { v with
    lease := fun x => disconnect (x = device) (min (v.lease x).leaseExpiresAt now) (v.lease x)
    ends := fun x => if x = device then min (v.ends x) (.some now) else v.ends x }

def expire (now : Nat) (v : Tables) : Tables :=
  { v with
    lease := fun x =>
      disconnect ((v.lease x).leaseExpiresAt ≤ now) (v.lease x).leaseExpiresAt (v.lease x) }

inductive Task where
  | renew (device : String) (activity : Option Activity)
  | close (device : String)
  | expire
  deriving DecidableEq, Repr

def Task.run (d : Deployment) (actor : ActorRef) (t₁ t₂ : Nat) (v : Tables) : Task → Tables
  | .renew device activity => Leases.renew d actor t₂ device activity (recordActorOffline t₁ v)
  | .close device => recordActorOffline t₂ (Leases.close t₁ device v)
  | .expire =>
    -- rows that changed
    if ∃ x ∈ v.devices, (v.lease x).disconnectedAt = none ∧ (v.lease x).leaseExpiresAt ≤ t₁ then
      recordActorOffline t₂ (Leases.expire t₁ v)
    else Leases.expire t₁ v

/-- `since` is the time of the last commit. -/
structure State where
  now : Nat
  since : Nat
  committed : Tables

inductive Action where
  | tick (n : Nat)
  | commit (task : Task) (t₁ t₂ : Nat)
  deriving DecidableEq, Repr

def State.step (d : Deployment) (actor : ActorRef) (s : State) : Action → Option State
  | .tick n => some { s with now := s.now + n }
  | .commit task t₁ t₂ =>
    if s.since ≤ t₁ ∧ t₁ ≤ t₂ ∧ t₂ ≤ s.now then
      some ⟨s.now, s.now, task.run d actor t₁ t₂ s.committed⟩
    else none

def leases (d : Deployment) (actor : ActorRef) : System State Action where
  init s := s.since ≤ s.now ∧ s.committed.devices = ∅ ∧ s.committed.lastSeenAt = ⊥ ∧
    s.committed.ends = fun _ => ⊥
  step := State.step d actor

structure Reported where
  online : Bool
  activity : Option Activity
  lastSeenAt : WithBot Nat
  deriving DecidableEq

def seen (now : Nat) (l : Lease) : WithBot Nat :=
  match l.disconnectedAt with
  | some t => .some t
  | none => if l.leaseExpiresAt ≤ now then .some l.leaseExpiresAt else ⊥

/-- `presence.rs:50–95`. -/
def getPresence (now : Nat) (v : Tables) : Reported :=
  let active := v.devices.filter fun x => live now (v.lease x)
  { online := active ≠ ∅
    activity :=
      (((active.filter fun x => (v.lease x).activity.isSome ∧
          (v.lease x).activityExpiresAt.any (now < ·)).sort.map v.lease).mergeSort
        fun l l' => l'.heartbeatAt ≤ l.heartbeatAt).head?.bind (·.activity)
    lastSeenAt := max v.lastSeenAt
      (if active = ∅ then v.devices.sup fun x => seen now (v.lease x) else ⊥) }

def State.read (s : State) : Reported :=
  getPresence s.now s.committed

/-! ### What the rows say -/

variable {d : Deployment} {actor : ActorRef} {now now' : Nat} {l : Lease} {v c : Tables}
  {s s' : State} {a : Action} {e : WithBot Nat} {device : String}

/-- No device has a renewal that goes on. -/
def Offline (now : Nat) (v : Tables) : Prop :=
  ∀ x, v.ends x ≤ .some now

def Fits (now : Nat) (l : Lease) (e : WithBot Nat) : Prop :=
  e = .some (ended l) ∧ ∀ t ∈ l.disconnectedAt, t ≤ now

structure Tracks (now : Nat) (v : Tables) : Prop where
  fits : ∀ x ∈ v.devices, Fits now (v.lease x) (v.ends x)
  others : ∀ x ∉ v.devices, v.ends x = ⊥
  past : v.lastSeenAt ≤ .some now
  stored : ∀ b, (∀ x, v.ends x ≤ b) → v.lastSeenAt ≤ b

theorem Fits.live_iff (h : Fits now l e) : live now l = true ↔ now < ended l := by
  cases ht : l.disconnectedAt with
  | none => simp [live, ended, ht]
  | some t => simpa [live, ended, ht] using h.2 t ht

theorem Fits.disconnect {p : Bool} {t : Nat} (h : Fits now l e)
    (ht : p = true → t = min l.leaseExpiresAt now) :
    Fits now (disconnect p t l) (if p then min e (.some now) else e) := by
  obtain ⟨rfl, hpast⟩ := h
  cases p with
  | false => exact ⟨rfl, hpast⟩
  | true =>
    cases hx : l.disconnectedAt with
    | none => simp [Leases.disconnect, Fits, ended, hx, ht rfl]
    | some x => simp [Leases.disconnect, Fits, ended, hx, hpast x hx]

namespace Tracks

theorem later (h : Tracks now v) (hle : now ≤ now') : Tracks now' v :=
  ⟨fun x hx => ⟨(h.fits x hx).1, fun t ht => ((h.fits x hx).2 t ht).trans hle⟩, h.others,
    h.past.trans (by exact_mod_cast hle), h.stored⟩

variable (h : Tracks now v)
include h

theorem latest_le_iff {b : WithBot Nat} : v.latest ≤ b ↔ ∀ x, v.ends x ≤ b := by
  rw [Tables.latest, Finset.sup_le_iff]
  refine forall_congr' fun x => ?_
  by_cases hx : x ∈ v.devices
  · simp [hx, (h.fits x hx).1]
  · simp [hx, h.others x hx]

theorem live_iff : (∃ x ∈ v.devices, live now (v.lease x) = true) ↔ ¬ Offline now v := by
  rw [Offline, ← h.latest_le_iff, Tables.latest, Finset.sup_le_iff]
  push Not
  refine exists_congr fun x => and_congr_right fun hx => ?_
  rw [(h.fits x hx).live_iff]
  exact_mod_cast Iff.rfl

theorem active_iff : (v.devices.filter fun x => live now (v.lease x)) = ∅ ↔ Offline now v := by
  rw [← not_iff_not, ← h.live_iff, ← ne_eq, ← Finset.nonempty_iff_ne_empty]
  simp [Finset.Nonempty]

theorem online_iff : (getPresence now v).online = true ↔ ¬ Offline now v := by
  simp [getPresence, h.active_iff]

theorem lastSeenAt_eq (hoff : Offline now v) :
    (getPresence now v).lastSeenAt = max v.lastSeenAt v.latest := by
  simp only [getPresence, h.active_iff.mpr hoff, if_true]
  refine congrArg (max v.lastSeenAt) (Finset.sup_congr rfl fun x hx => ?_)
  have hle := hoff x
  rw [(h.fits x hx).1] at hle
  cases ht : (v.lease x).disconnectedAt with
  | none => simpa [seen, ended, ht] using hle
  | some t => simp [seen, ended, ht]

theorem recordActorOffline : Tracks now (recordActorOffline now v) := by
  refine ⟨h.fits, h.others, ?_, fun b hb => ?_⟩ <;> unfold Leases.recordActorOffline <;>
    dsimp only <;> split
  · exact h.past
  next hoff => exact max_le h.past (h.latest_le_iff.mpr (not_not.mp (mt h.live_iff.mpr hoff)))
  · exact h.stored b hb
  · exact max_le (h.stored b hb) (h.latest_le_iff.mpr hb)

theorem renew (activity : Option Activity) : Tracks now (renew d actor now device activity v) := by
  refine ⟨fun x hx => ?_, fun x hx => ?_, h.past, fun b hb => ?_⟩
  · by_cases hd : x = device
    · subst hd
      simp only [Leases.renew, Function.update_self]
      split <;> exact ⟨rfl, nofun⟩
    · simp only [Leases.renew, Function.update_of_ne hd]
      exact h.fits x (Finset.mem_of_mem_insert_of_ne hx hd)
  · obtain ⟨hd, hx⟩ := not_or.mp (mt Finset.mem_insert.mpr hx)
    exact (Function.update_of_ne hd ..).trans (h.others x hx)
  · have hle := hb device
    simp only [Leases.renew, Function.update_self] at hle
    exact h.past.trans (le_trans (by exact_mod_cast Nat.le_add_right ..) hle)

theorem close : Tracks now (close now device v) := by
  refine ⟨fun x hx => ?_, fun x hx => ?_, h.past, fun b hb => ?_⟩
  · simpa [Leases.close] using (h.fits x hx).disconnect (p := x = device) fun _ => rfl
  · simp [Leases.close, h.others x hx]
  · rcases le_or_gt (.some now) b with hle | hlt
    · exact h.past.trans hle
    · refine h.stored b fun x => ?_
      have hend := hb x
      simp only [Leases.close] at hend
      split at hend
      · exact (min_le_iff.mp hend).resolve_right (not_le.mpr hlt)
      · exact hend

theorem expire : Tracks now (expire now v) := by
  refine ⟨fun x hx => ?_, h.others, h.past, h.stored⟩
  have hfits := (h.fits x hx).disconnect (p := (v.lease x).leaseExpiresAt ≤ now)
    fun hle => (min_eq_left (by simpa using hle)).symm
  rwa [ite_eq_right_iff.mpr fun hle => ?_] at hfits
  have hend : ¬ now < ended (v.lease x) := by
    rw [← (h.fits x hx).live_iff, live]
    simpa using fun _ => hle
  rw [(h.fits x hx).1]
  exact_mod_cast min_eq_left (not_lt.mp hend)

/-- A later read, of what a transaction has made of the tables. -/
theorem lastSeenAt_le (h' : Tracks now' c) (hle : v.lastSeenAt ≤ c.lastSeenAt)
    (hkept : Offline now v →
      (∀ x, v.ends x ≤ c.lastSeenAt) ∨ Offline now' c ∧ c.ends = v.ends) :
    (getPresence now v).lastSeenAt ≤ (getPresence now' c).lastSeenAt := by
  by_cases hoff : Offline now v
  · rw [h.lastSeenAt_eq hoff]
    obtain hends | ⟨hoff', hends⟩ := hkept hoff
    · exact (max_le hle (h.latest_le_iff.mpr hends)).trans (le_max_left ..)
    · rw [h'.lastSeenAt_eq hoff']
      refine max_le_max hle (h.latest_le_iff.mpr ?_)
      rw [← hends, ← h'.latest_le_iff]
  · simpa [getPresence, mt h.active_iff.mp hoff] using .inl hle

end Tracks

/-! ### Runs -/

section Run

variable {t₁ t₂ : Nat} (task : Task)

theorem le_recordActorOffline (v : Tables) :
    v.lastSeenAt ≤ (recordActorOffline now v).lastSeenAt := by
  unfold recordActorOffline
  dsimp only
  split
  · exact le_rfl
  · exact le_max_left ..

theorem le_run : v.lastSeenAt ≤ (task.run d actor t₁ t₂ v).lastSeenAt := by
  cases task with
  | renew device activity => exact le_recordActorOffline v
  | close device => exact le_recordActorOffline (close t₁ device v)
  | expire =>
    simp only [Task.run]
    split
    · exact le_recordActorOffline (expire t₁ v)
    · exact le_rfl

theorem Tracks.run (h : Tracks t₁ v) (hle : t₁ ≤ t₂) : Tracks t₂ (task.run d actor t₁ t₂ v) := by
  cases task with
  | renew device activity => exact (h.recordActorOffline.later hle).renew activity
  | close device => exact (h.close.later hle).recordActorOffline
  | expire =>
    simp only [Task.run]
    split
    · exact (h.expire.later hle).recordActorOffline
    · exact h.expire.later hle

/-- Where the account was offline already, a renewal has stored its latest end, and the others
have changed no end. -/
theorem Tracks.run_of_offline (h : Tracks t₁ v) (hoff : Offline t₁ v) :
    (∀ x, v.ends x ≤ (task.run d actor t₁ t₂ v).lastSeenAt) ∨
      (task.run d actor t₁ t₂ v).ends = v.ends := by
  cases task with
  | renew device activity =>
    refine .inl fun x => (h.latest_le_iff.mp le_rfl x).trans ?_
    simp only [Task.run, Leases.renew, Leases.recordActorOffline]
    rw [if_neg fun hlive => h.live_iff.mp hlive hoff]
    exact le_max_right ..
  | close device => exact .inr (funext fun x => ite_eq_right_iff.mpr fun _ => min_eq_left (hoff x))
  | expire =>
    right
    simp only [Task.run]
    split <;> rfl

end Run

/-- The last lease does not run out between a transaction's first statement and its commit. -/
def quiet (s : State) : Action → Bool
  | .tick _ => true
  | .commit _ t₁ _ => !(getPresence t₁ s.committed).online || (getPresence s.now s.committed).online

structure Inv (s : State) : Prop where
  since : s.since ≤ s.now
  tracks : Tracks s.since s.committed

theorem Inv.step (h : Inv s) (hs : s.step d actor a = some s') :
    Inv s' ∧ (quiet s a = true → s.read.lastSeenAt ≤ s'.read.lastSeenAt) := by
  have htracks := h.tracks.later h.since
  cases a with
  | tick n =>
    cases hs
    have hle : s.now ≤ s.now + n := Nat.le_add_right ..
    refine ⟨⟨h.since.trans hle, h.tracks⟩, fun _ => ?_⟩
    exact htracks.lastSeenAt_le (htracks.later hle) le_rfl fun hoff =>
      .inr ⟨fun x => (hoff x).trans (by exact_mod_cast hle), rfl⟩
  | commit task t₁ t₂ =>
    obtain ⟨⟨h₁, h₂, h₃⟩, ⟨⟩⟩ := Option.ite_none_right_eq_some.mp hs
    have hfirst := h.tracks.later h₁
    have hrun : Tracks s.now (task.run d actor t₁ t₂ s.committed) := (hfirst.run task h₂).later h₃
    refine ⟨⟨Nat.le_refl _, hrun⟩, fun hq =>
      htracks.lastSeenAt_le hrun (le_run task) fun hoff => ?_⟩
    have hoff₁ : Offline t₁ s.committed := by
      by_contra hon
      simp only [quiet, hfirst.online_iff.mpr hon, Bool.not_true, Bool.false_or] at hq
      exact htracks.online_iff.mp hq hoff
    exact (hfirst.run_of_offline task hoff₁).imp id fun hends =>
      ⟨fun x => (congrFun hends x).trans_le (hoff x), hends⟩

theorem inv_of_reachable {C : State → Action → Prop} (h : (leases d actor).ReachableWhile C s) :
    Inv s := by
  refine h.invariant ?_ fun s a s' hi _ hs => (hi.step hs).1
  rintro s ⟨hsince, hdevices, hstored, hends⟩
  exact ⟨hsince, by simp [hdevices], by simp [hends], by simp [hstored], by simp [hstored]⟩

/-- In every run: an account is online exactly when the latest renewal of some device goes on, its
activity is one of such a device, and an offline account was last seen when the latest of its
renewals ended. In every quiet run, `last_seen_at` never decreases. -/
theorem presence_is_the_union_of_leases (d : Deployment) (actor : ActorRef) :
    (∀ s, (leases d actor).Reachable s →
      (s.read.online = true ↔ ∃ x, .some s.now < s.committed.ends x) ∧
      (∀ activity ∈ s.read.activity,
        ∃ x, (s.committed.lease x).activity = some activity ∧ .some s.now < s.committed.ends x) ∧
      (s.read.online = false → IsLUB (Set.range s.committed.ends) s.read.lastSeenAt)) ∧
    ∀ s a s', (leases d actor).ReachableWhile (fun s a => quiet s a = true) s →
      quiet s a = true → s.step d actor a = some s' → s.read.lastSeenAt ≤ s'.read.lastSeenAt := by
  refine ⟨fun s hs => ?_, fun s a s' hs hq hl => ((inv_of_reachable hs).step hl).2 hq⟩
  have hi := inv_of_reachable hs
  have h := hi.tracks.later hi.since
  refine ⟨by simp [State.read, h.online_iff, Offline], fun activity ha => ?_, fun hoff => ?_⟩
  · obtain ⟨l, hl, ha⟩ := Option.bind_eq_some_iff.mp ha
    have hmem := List.mem_of_head? hl
    simp only [List.mem_mergeSort, List.mem_map, Finset.mem_sort, Finset.mem_filter] at hmem
    obtain ⟨x, ⟨⟨hx, hlive⟩, -⟩, rfl⟩ := hmem
    refine ⟨x, ha, ?_⟩
    rw [(h.fits x hx).1]
    exact_mod_cast (h.fits x hx).live_iff.mp hlive
  · have hoff : Offline s.now s.committed := not_not.mp fun hon => by
      simp [State.read, h.online_iff.mpr hon] at hoff
    rw [State.read, h.lastSeenAt_eq hoff, max_eq_right (h.stored _ (h.latest_le_iff.mp le_rfl))]
    refine isLUB_iff_le_iff.mpr fun b => h.latest_le_iff.trans ?_
    simp [upperBounds]

def ada : ActorRef :=
  ⟨.carbon, "ada"⟩

def brief : Deployment :=
  ⟨fun _ => 0, 10, 5⟩

def adaIsNew : State :=
  ⟨0, 0, ∅, fun _ => ⟨ada, "", 0, 0, none, none, none, none⟩, ⊥, fun _ => ⊥⟩

theorem adaIsNew_init : (leases brief ada).init adaIsNew :=
  ⟨Nat.le_refl 0, rfl, rfl, rfl⟩

/-- The phone closes its lease while the desk is online; when the desk's lease has run out, Ada was
last seen at its end, also after the next renewal. -/
theorem presence_is_the_union_of_leases_two : ∃ s s', (leases brief ada).Reachable s ∧
    s.step brief ada (.commit (.renew "phone" none) 12 12) = some s' ∧
    s.read.online = false ∧ s.read.lastSeenAt = .some 12 ∧
    IsLUB (Set.range s.committed.ends) s.read.lastSeenAt ∧ s'.read.online = true ∧
    s.read.lastSeenAt ≤ s'.read.lastSeenAt := by
  have hs := System.reachableWhile_get (M := leases brief ada) (C := fun s a => quiet s a = true)
    [.commit (.renew "phone" none) 0 0, .tick 2, .commit (.renew "desk" none) 2 2, .tick 5,
      .commit (.close "phone") 7 7, .tick 5] adaIsNew_init (by decide +kernel)
  obtain ⟨hall, hquiet⟩ := presence_is_the_union_of_leases brief ada
  exact ⟨_, _, hs.reachable, (Option.some_get (by decide +kernel)).symm, by decide +kernel,
    by decide +kernel, (hall _ hs.reachable).2.2 (by decide +kernel), by decide +kernel,
    hquiet _ _ _ hs (by decide +kernel) (Option.some_get _).symm⟩

/-- The lease of the only device ends at 10. A renewal whose first statement ran at 9 commits: a
read has said that the account was last seen at 10, and the next one says it never was. -/
theorem last_seen_is_lost : ∃ s s', (leases brief ada).Reachable s ∧
    s.step brief ada (.commit (.renew "phone" none) 9 10) = some s' ∧
    s.read.lastSeenAt = .some 10 ∧ s'.read.lastSeenAt = ⊥ :=
  ⟨_, _, System.reachable_get [.commit (.renew "phone" none) 0 0, .tick 10] adaIsNew_init
    (by decide +kernel), (Option.some_get (by decide +kernel)).symm, by decide +kernel,
    by decide +kernel⟩

end SiliconDm.Server.Leases
