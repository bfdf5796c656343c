import SiliconDm.Base.System
import SiliconDm.Base.Table

/-!
# Proof refresh tokens

Enrolments and re-enrolments of one account with Ting, in all processes and workers. Between two
awaits a task holds what it was given before; only re-enrolments take the advisory lock. Tokens
are numbered as Silicon Accounts issues them, and a token it has exchanged it refuses. When an
enrolment is due (`reserve_ting_enrolment`) is left open.

Sources: `src/infrastructure/ting_enrollment.rs:50–126,227–329`,
`src/infrastructure/postgres/ting.rs:329–451`.
-/

namespace SiliconDm.Server.ProofTokens

open Base

/-- What a task does next: an enrolment asks for a proof, saves its token and subscribes; a
re-enrolment reads the stored token, exchanges it, saves the new one and subscribes. -/
inductive Task where
  | issue
  | save (token : Nat)
  | subscribe
  | read
  | exchange (token : Nat)
  | resave (token : Nat)
  | resubscribe
  deriving DecidableEq, Repr

/-- `ting_enrollment.rs:238–249`. -/
def Task.locked : Task → Bool
  | .issue | .save _ | .subscribe => false
  | .read | .exchange _ | .resave _ | .resubscribe => true

/-- What Silicon Accounts answers: no proof, one without a refresh token, or one with. -/
inductive Answer where
  | refused
  | once
  | renewable
  deriving DecidableEq, Repr

/-- `stored` is the row of `ting_proof_grants`. -/
structure State where
  stored : Option Nat
  issued : Nat
  exchanged : List Nat
  tasks : List (Nat × Task)
  deriving DecidableEq, Repr

inductive Action where
  | enrol (id : Nat)
  | reenrol (id : Nat)
  | advance (id : Nat) (a : Answer)
  deriving DecidableEq, Repr

def State.goTo (s : State) (id : Nat) (next : Option Task) : State :=
  { s with tasks := s.tasks.filter (·.1 ≠ id) ++ (next.map (id, ·)).toList }

def State.advance (s : State) (id : Nat) (a : Answer) : Task → State
  | .issue =>
    match a with
    | .refused => s.goTo id none
    | .once => s.goTo id (some .subscribe)
    | .renewable => { s with issued := s.issued + 1 }.goTo id (some (.save s.issued))
  | .save token => { s with stored := some token }.goTo id (some .subscribe)
  | .read => s.goTo id (s.stored.map .exchange)
  | .exchange token =>
    if token ∈ s.exchanged then s.goTo id none
    else
      match a with
      | .refused => s.goTo id none
      -- without a new token the stored row stays as it is
      | .once => { s with exchanged := token :: s.exchanged }.goTo id (some .resubscribe)
      | .renewable =>
        { s with exchanged := token :: s.exchanged, issued := s.issued + 1 }.goTo id
          (some (.resave s.issued))
  | .resave token => { s with stored := some token }.goTo id (some .resubscribe)
  | .subscribe | .resubscribe => s.goTo id none

def step (s : State) : Action → Option State
  | .enrol id => if (s.tasks.lookup id).isSome then none else some (s.goTo id (some .issue))
  | .reenrol id =>
    if (s.tasks.lookup id).isSome || s.tasks.any (·.2.locked) then none
    else some (s.goTo id (some .read))
  | .advance id a => (s.tasks.lookup id).map (s.advance id a)

/-- Nothing is under way, and nothing was exchanged yet. -/
def tokens : System State Action where
  init s := s.tasks = [] ∧ s.exchanged = [] ∧ ∀ k ∈ s.stored, k < s.issued
  step := step

def presented (s : State) : Action → Option Nat
  | .advance id _ =>
    match s.tasks.lookup id with
    | some (.exchange token) => some token
    | _ => none
  | _ => none

def Task.subscribes : Task → Bool
  | .subscribe | .resubscribe => true
  | _ => false

/-- The tasks that may still read or write a token. -/
def State.busy (s : State) : List (Nat × Task) :=
  s.tasks.filter (!·.2.subscribes)

/-- A task begins when no other has more to do than to subscribe, and every exchange gives a new
token. -/
def inTurn (s : State) : Action → Bool
  | .enrol _ | .reenrol _ => s.busy.isEmpty
  | .advance id a => (presented s (.advance id a)).isNone || a ≠ .once

variable {s s' : State} {a : Action}

def Task.Fits (s : State) : Task → Prop
  | .save token => token < s.issued ∧ token ∉ s.exchanged ∧
      ∀ k ∈ s.stored, k < token ∧ k ∉ s.exchanged
  | .exchange token => s.stored = some token ∧ token ∉ s.exchanged
  | .resave token => token < s.issued ∧ token ∉ s.exchanged ∧ ∀ k ∈ s.stored, k < token
  | .issue | .subscribe | .read | .resubscribe => ∀ k ∈ s.stored, k ∉ s.exchanged

structure Inv (s : State) : Prop where
  keyed : (s.tasks.map Prod.fst).Nodup
  stored : ∀ k ∈ s.stored, k < s.issued
  exchanged : ∀ k ∈ s.exchanged, k < s.issued
  alone : (s.busy = [] ∧ ∀ k ∈ s.stored, k ∉ s.exchanged) ∨
    ∃ id t, s.busy = [(id, t)] ∧ t.Fits s

variable {id : Nat} {next : Option Task}

theorem keyed_goTo (h : (s.tasks.map Prod.fst).Nodup) :
    ((s.goTo id next).tasks.map Prod.fst).Nodup := by
  rw [State.goTo, List.map_append]
  refine List.nodup_append.mpr ⟨h.sublist (List.filter_sublist.map _), ?_, ?_⟩
  · cases next <;> simp
  · cases next <;> simp

theorem busy_goTo (htks : ∀ p ∈ s.tasks, p.1 = id ∨ p.2.subscribes = true) :
    (s.goTo id next).busy = ((next.filter (!·.subscribes)).map (id, ·)).toList := by
  have hn : (s.tasks.filter (·.1 ≠ id)).filter (!·.2.subscribes) = [] := by
    rw [List.filter_filter, List.filter_eq_nil_iff]
    intro p hp
    rcases htks p hp with h | h <;> simp [h]
  rw [State.busy, State.goTo, List.filter_append, hn]
  cases next with
  | none => rfl
  | some t => cases ht : t.subscribes <;> simp [ht, Option.filter]

theorem inv_goTo (hkd : (s.tasks.map Prod.fst).Nodup)
    (htks : ∀ p ∈ s.tasks, p.1 = id ∨ p.2.subscribes = true)
    (hsto : ∀ k ∈ s.stored, k < s.issued) (hexd : ∀ k ∈ s.exchanged, k < s.issued)
    (hnext : (next.getD .issue).Fits s) : Inv (s.goTo id next) := by
  refine ⟨keyed_goTo hkd, hsto, hexd, ?_⟩
  rw [busy_goTo htks]
  cases next with
  | none => exact .inl ⟨rfl, hnext⟩
  | some t =>
    cases t with
    | subscribe | resubscribe => exact .inl ⟨rfl, hnext⟩
    | _ => exact .inr ⟨id, _, rfl, hnext⟩

theorem Inv.advance {t : Task} {a : Answer} (h : Inv s) (ht : s.tasks.lookup id = some t)
    (hid : ∀ p ∈ s.tasks, p.1 = id ∨ p.2.subscribes = true) (hfits : t.Fits s)
    (hc : inTurn s (.advance id a) = true) :
    Inv (s.advance id a t) ∧ ∀ k ∈ s.stored, ∃ k' ∈ (s.advance id a t).stored, k ≤ k' := by
  have hsame : ∀ k ∈ s.stored, ∃ k' ∈ s.stored, k ≤ k' := fun k hk => ⟨k, hk, Nat.le_refl k⟩
  have hlat : ∀ k ∈ s.stored, k < s.issued + 1 := fun k hk => Nat.lt_succ_of_lt (h.stored k hk)
  have hnew : s.issued ∉ s.exchanged := fun hm => Nat.lt_irrefl _ (h.exchanged _ hm)
  cases t with
  | issue =>
    cases a with
    | refused | once => exact ⟨inv_goTo h.keyed hid h.stored h.exchanged hfits, hsame⟩
    | renewable =>
      refine ⟨inv_goTo h.keyed hid hlat (fun k hk => Nat.lt_succ_of_lt (h.exchanged k hk)) ?_, hsame⟩
      exact ⟨Nat.lt_succ_self _, hnew, fun k hk => ⟨h.stored k hk, hfits k hk⟩⟩
  | save token =>
    obtain ⟨hlt, hunu, hold⟩ := hfits
    exact ⟨inv_goTo h.keyed hid (by simpa using hlt) h.exchanged (by simpa [Task.Fits] using hunu),
      fun k hk => ⟨token, rfl, Nat.le_of_lt (hold k hk).1⟩⟩
  | resave token =>
    obtain ⟨hlt, hunu, hold⟩ := hfits
    exact ⟨inv_goTo h.keyed hid (by simpa using hlt) h.exchanged (by simpa [Task.Fits] using hunu),
      fun k hk => ⟨token, rfl, Nat.le_of_lt (hold k hk)⟩⟩
  | read =>
    refine ⟨inv_goTo h.keyed hid h.stored h.exchanged ?_, hsame⟩
    cases hsto : s.stored with
    | none => exact hfits
    | some token => exact ⟨hsto, hfits token hsto⟩
  | exchange token =>
    obtain ⟨hsto, hunu⟩ := hfits
    simp only [State.advance, if_neg hunu]
    cases a with
    | refused =>
      exact ⟨inv_goTo h.keyed hid h.stored h.exchanged (by simpa [Task.Fits, hsto] using hunu), hsame⟩
    | once => simp [inTurn, presented, ht] at hc
    | renewable =>
      have hlt : token < s.issued := h.stored token hsto
      refine ⟨inv_goTo h.keyed hid hlat ?_ ⟨Nat.lt_succ_self _, ?_, h.stored⟩, hsame⟩
      · rintro k (_ | ⟨_, hk⟩)
        · exact Nat.lt_succ_of_lt hlt
        · exact Nat.lt_succ_of_lt (h.exchanged k hk)
      · simpa using ⟨Nat.ne_of_gt hlt, hnew⟩
  | subscribe | resubscribe => exact ⟨inv_goTo h.keyed hid h.stored h.exchanged hfits, hsame⟩

/-- A task that only subscribes ends, and the busy one goes on. -/
theorem Inv.subscribed {t : Task} (h : Inv s) (ht : s.tasks.lookup id = some t)
    (hsub : t.subscribes = true) : Inv (s.goTo id none) := by
  refine ⟨keyed_goTo h.keyed, h.stored, h.exchanged, ?_⟩
  have hbusy : (s.goTo id none).busy = s.busy := by
    simp only [State.busy, State.goTo, Option.map_none, Option.toList_none, List.append_nil,
      List.filter_filter]
    refine List.filter_congr fun p hp => ?_
    by_cases he : p.1 = id
    · obtain rfl := List.inj_on_of_nodup_map h.keyed hp (mem_of_lookup ht) he
      simp [hsub]
    · simp [he]
  rw [hbusy]
  exact h.alone

theorem Inv.step (h : Inv s) (hc : inTurn s a = true) (hs : step s a = some s') :
    Inv s' ∧ (∀ k ∈ presented s a, k ∉ s.exchanged) ∧ ∀ k ∈ s.stored, ∃ k' ∈ s'.stored, k ≤ k' := by
  cases a with
  | enrol id | reenrol id =>
    have hfree : s.busy = [] := by simpa [inTurn] using hc
    obtain ⟨-, hunu⟩ := h.alone.resolve_right (by simp [hfree])
    have hid : ∀ p ∈ s.tasks, p.1 = id ∨ p.2.subscribes = true := fun p hp =>
      .inr (by simpa using List.filter_eq_nil_iff.mp hfree p hp)
    simp only [ProofTokens.step] at hs
    split at hs <;> cases hs
    exact ⟨inv_goTo h.keyed hid h.stored h.exchanged hunu, by simp [presented],
      fun k hk => ⟨k, hk, Nat.le_refl k⟩⟩
  | advance id a =>
    obtain ⟨t, ht, rfl⟩ := Option.map_eq_some_iff.mp hs
    cases hsub : t.subscribes with
    | true =>
      have hsame : s.advance id a t = s.goTo id none := by cases t <;> first | rfl | cases hsub
      rw [hsame]
      refine ⟨h.subscribed ht hsub, fun k hk => ?_, fun k hk => ⟨k, hk, Nat.le_refl k⟩⟩
      simp only [presented, ht] at hk
      cases t <;> cases hk
      cases hsub
    | false =>
      have hm : (id, t) ∈ s.busy := List.mem_filter.mpr ⟨mem_of_lookup ht, by simp [hsub]⟩
      obtain ⟨hfree, -⟩ | ⟨id', t', hone, hfits⟩ := h.alone
      · rw [hfree] at hm
        cases hm
      · obtain ⟨rfl, rfl⟩ : id = id' ∧ t = t' := by simpa [hone] using hm
        have hid : ∀ p ∈ s.tasks, p.1 = id ∨ p.2.subscribes = true := by
          intro p hp
          by_cases hps : p.2.subscribes = true
          · exact .inr hps
          · have : p ∈ s.busy := List.mem_filter.mpr ⟨hp, by simpa using hps⟩
            rw [hone, List.mem_singleton] at this
            exact .inl (congrArg Prod.fst this)
        obtain ⟨hinv, hsto⟩ := h.advance ht hid hfits hc
        refine ⟨hinv, fun k hk => ?_, hsto⟩
        simp only [presented, ht] at hk
        cases t <;> cases hk
        exact hfits.2

/-- Where tasks of the account handle tokens one after the other and every exchange gives a new token, no
token is presented after its exchange, and no older grant replaces a newer one. -/
theorem tokens_are_used_once (h : tokens.ReachableWhile (fun s a => inTurn s a = true) s)
    (hc : inTurn s a = true) (hs : step s a = some s') :
    (∀ k ∈ presented s a, k ∉ s.exchanged) ∧ ∀ k ∈ s.stored, ∃ k' ∈ s'.stored, k ≤ k' := by
  have hinv : Inv s := by
    refine h.invariant ?_ fun s a s' hs hc hl => (hs.step hc hl).1
    rintro s ⟨htasks, hexchanged, hstored⟩
    exact ⟨by simp [htasks], hstored, by simp [hexchanged],
      .inl ⟨by simp [State.busy, htasks], by simp [hexchanged]⟩⟩
  exact (hinv.step hc hs).2

def enrolment (id : Nat) : List Action :=
  [.enrol id, .advance id .renewable, .advance id .once, .advance id .once]

def reenrolment (id : Nat) : List Action :=
  [.reenrol id, .advance id .once]

theorem tokens_init : tokens.init ⟨none, 0, [], []⟩ := by
  simp [tokens]

/-- The token that a first re-enrolment was given is presented once by the second, while an
enrolment still subscribes. -/
theorem tokens_are_used_once_again : ∃ s s' : State, s.stored = some 1 ∧ s.exchanged = [0] ∧
    s.tasks.lookup 0 = some .subscribe ∧ presented s (.advance 2 .renewable) = some 1 ∧
    1 ∉ s.exchanged ∧ step s (.advance 2 .renewable) = some s' ∧ ∃ k ∈ s'.stored, 1 ≤ k := by
  have hs := System.reachableWhile_get (C := fun s a => inTurn s a = true)
    ((enrolment 0).dropLast ++ reenrolment 1 ++
      [.advance 1 .renewable, .advance 1 .once, .advance 1 .once] ++ reenrolment 2)
    tokens_init (by decide)
  have hone := tokens_are_used_once hs (a := .advance 2 .renewable) (by decide)
    (Option.some_get (by decide)).symm
  exact ⟨_, _, by decide, by decide, by decide, by decide, hone.1 1 (by decide),
    (Option.some_get (by decide)).symm, hone.2 1 (by decide)⟩

/-- An exchange that gives no new token leaves the used one stored, and the next re-enrolment
presents it again. And where a refused re-enrolment was followed by an enrolment, whose token a
second re-enrolment overtakes, the earlier token replaces the later one. -/
theorem used_token_is_presented :
    (∃ s a k, tokens.Reachable s ∧ presented s a = some k ∧ k ∈ s.exchanged) ∧
      ∃ s a s', tokens.Reachable s ∧ step s a = some s' ∧ s.stored = some 2 ∧
        s'.stored = some 1 := by
  constructor
  · exact ⟨_, .advance 2 .once, 0, System.reachable_get
      (enrolment 0 ++ reenrolment 1 ++ [.advance 1 .once, .advance 1 .once] ++ reenrolment 2)
      tokens_init (by decide), by decide, by decide⟩
  · exact ⟨_, .advance 2 .once, _, System.reachable_get
      (enrolment 0 ++ reenrolment 1 ++ [.advance 1 .refused, .enrol 2, .advance 2 .renewable] ++
        reenrolment 3 ++ [.advance 3 .renewable, .advance 3 .once]) tokens_init (by decide),
      (Option.some_get (by decide)).symm, by decide, by decide⟩

end SiliconDm.Server.ProofTokens
