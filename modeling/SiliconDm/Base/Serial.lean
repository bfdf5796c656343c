import SiliconDm.Base.ReadCommitted

/-!
# Transactions one at a time

What a transaction does when nothing else happens (`Runs`), rules of pre- and postconditions
for its code, and the relation between an interleaved transaction and such a run: `Replay`
says that the statements an open transaction has executed would have done the same had they
all been executed on one database. A transaction whose replay on the committed database is
intact at its commit acts as if it had run alone at that moment.
-/

namespace SiliconDm.Base.Language

open List

variable {D S C W K T : Type*} {L : Language D S C W K T}

/-- The code runs to its end on a database that nobody else changes. -/
inductive Runs (L : Language D S C W K T) : D → List S → D → Prop
  | nil (d : D) : Runs L d [] d
  | cons {d d' : D} {stmt : S} {rest : List S} {o : Outcome S C W K}
      (ho : L.exec stmt d = some o) (hrest : Runs L (L.applyAll d o.writes) (o.next ++ rest) d') :
      Runs L d (stmt :: rest) d'

variable {p q code : List S} {α : Type*} {I : List α → D → Prop}

/-- Code in two parts runs one part after the other. -/
theorem Runs.split {d d' : D} (h : L.Runs d (p ++ q) d') :
    ∃ m, L.Runs d p m ∧ L.Runs m q d' := by
  generalize hpq : p ++ q = code at h
  induction h generalizing p with
  | nil d =>
    obtain ⟨rfl, rfl⟩ := append_eq_nil_iff.mp hpq
    exact ⟨d, .nil d, .nil d⟩
  | @cons d d' stmt rest o ho hrest ih =>
    cases p with
    | nil =>
      obtain rfl : q = stmt :: rest := hpq
      exact ⟨d, .nil d, .cons ho hrest⟩
    | cons s p =>
      obtain ⟨rfl, rfl⟩ : s = stmt ∧ p ++ q = rest := List.cons.inj hpq
      obtain ⟨m, hp, hq⟩ := ih (p := o.next ++ p) (append_assoc _ _ _)
      exact ⟨m, .cons ho hp, hq⟩

theorem Runs.append {d m d' : D} (hp : L.Runs d p m) (hq : L.Runs m q d') :
    L.Runs d (p ++ q) d' := by
  induction hp with
  | nil => exact hq
  | cons ho hrest ih =>
    apply Runs.cons ho
    have := ih hq
    rwa [append_assoc] at this

/-! ### Pre- and postconditions -/

/-- Whenever the code runs to its end from a database with `P`, the result has `Q`. -/
def Triple (L : Language D S C W K T) (P : D → Prop) (code : List S) (Q : D → Prop) : Prop :=
  ∀ d d', P d → L.Runs d code d' → Q d'

variable {P P' Q Q' M : D → Prop}

theorem Triple.nil (h : ∀ d, P d → Q d) : L.Triple P [] Q := by
  intro d d' hp hr
  cases hr
  exact h d hp

theorem Triple.append (hp : L.Triple P p M) (hq : L.Triple M q Q) :
    L.Triple P (p ++ q) Q := by
  intro d d' h hr
  obtain ⟨m, h₁, h₂⟩ := hr.split
  exact hq m d' (hp d m h h₁) h₂

/-- The statement rule: from its outcome, the statements that follow from it do the rest. -/
theorem Triple.stmt {stmt : S}
    (h : ∀ d o, P d → L.exec stmt d = some o →
      L.Triple (· = L.applyAll d o.writes) o.next Q) : L.Triple P [stmt] Q := by
  intro d d' hp hr
  cases hr with
  | @cons _ _ _ _ o ho hrest =>
    rw [append_nil] at hrest
    exact h d o hp ho _ _ rfl hrest

theorem Triple.cons {stmt : S} {rest : List S} (h : L.Triple P [stmt] M)
    (hrest : L.Triple M rest Q) : L.Triple P (stmt :: rest) Q :=
  h.append hrest

theorem Triple.conseq (h : L.Triple P code Q) (hp : ∀ d, P' d → P d) (hq : ∀ d, Q d → Q' d) :
    L.Triple P' code Q' :=
  fun d d' hp' hr => hq d' (h d d' (hp d hp') hr)

theorem Triple.and (h : L.Triple P code Q) (h' : L.Triple P' code Q') :
    L.Triple (fun d => P d ∧ P' d) code fun d => Q d ∧ Q' d :=
  fun d d' hp hr => ⟨h d d' hp.1 hr, h' d d' hp.2 hr⟩

/-- The frame rule: statements of a kind that only leads to its own kind, each of which keeps
`P`. -/
theorem Triple.frame {p : S → Prop}
    (hexec : ∀ stmt d o, p stmt → P d → L.exec stmt d = some o →
      P (L.applyAll d o.writes) ∧ ∀ s ∈ o.next, p s)
    (hcode : ∀ s ∈ code, p s) : L.Triple P code P := by
  intro d d' hp hr
  induction hr with
  | nil => exact hp
  | @cons d d' stmt rest o ho hrest ih =>
    obtain ⟨hp', hnext⟩ := hexec stmt d o (hcode stmt mem_cons_self) hp ho
    refine ih (fun s hs => ?_) hp'
    rcases mem_append.mp hs with hs | hs
    · exact hnext s hs
    · exact hcode s (mem_cons_of_mem _ hs)

/-- The loop rule: `I xs` is what holds while the elements `xs` are still to be treated. -/
theorem Triple.flatMap {f : α → List S} (h : ∀ x xs, L.Triple (I (x :: xs)) (f x) (I xs))
    (xs : List α) :
    L.Triple (I xs) (xs.flatMap f) (I []) := by
  induction xs with
  | nil => exact Triple.nil fun _ h => h
  | cons x xs ih =>
    rw [flatMap_cons]
    exact (h x xs).append ih

/-- The loop rule for one statement per element. -/
theorem Triple.map {f : α → S} (h : ∀ x xs, L.Triple (I (x :: xs)) [f x] (I xs)) (xs : List α) :
    L.Triple (I xs) (xs.map f) (I []) := by
  induction xs with
  | nil => exact Triple.nil fun _ h => h
  | cons x xs ih => exact (h x xs).cons ih

/-! ### Replays -/

/-- Executed on `d` alone, the code has by now made the writes `ws` and has `todo` left. -/
inductive Replay (L : Language D S C W K T) (d : D) (code : List S) : List W → List S → Prop
  | start : Replay L d code [] code
  | step {ws : List W} {stmt : S} {rest : List S} {o : Outcome S C W K}
      (h : Replay L d code ws (stmt :: rest)) (ho : L.exec stmt (L.applyAll d ws) = some o) :
      Replay L d code (ws ++ o.writes) (o.next ++ rest)

variable {d d' : D} {code todo : List S} {ws : List W}

theorem applyAll_append (d : D) (ws ws' : List W) :
    L.applyAll d (ws ++ ws') = L.applyAll (L.applyAll d ws) ws' :=
  foldl_append ..

/-- What is left of a replayed transaction finishes a run of the whole. -/
theorem Replay.runs (h : L.Replay d code ws todo) (hr : L.Runs (L.applyAll d ws) todo d') :
    L.Runs d code d' := by
  induction h with
  | start => exact hr
  | step h ho ih =>
    apply ih
    rw [applyAll_append] at hr
    exact .cons ho hr

/-- A transaction that has replayed all of its code is a run of it. -/
theorem Replay.finished (h : L.Replay d code ws []) : L.Runs d code (L.applyAll d ws) :=
  h.runs (.nil _)

/-- A replay carries over to a database that the statements cannot tell from the first: `R`
relates databases on which they have the same outcome and whose difference they keep. -/
theorem Replay.congr {R : D → D → Prop} {p : S → Prop}
    (hexec : ∀ stmt v v' o, p stmt → R v v' → L.exec stmt v = some o →
      L.exec stmt v' = some o ∧ R (L.applyAll v o.writes) (L.applyAll v' o.writes) ∧
        ∀ s ∈ o.next, p s)
    (hcode : ∀ s ∈ code, p s) (hR : R d d') (h : L.Replay d code ws todo) :
    L.Replay d' code ws todo := by
  suffices L.Replay d' code ws todo ∧ R (L.applyAll d ws) (L.applyAll d' ws) ∧
      ∀ s ∈ todo, p s from this.1
  induction h with
  | start => exact ⟨.start, hR, hcode⟩
  | @step ws stmt rest o _ ho ih =>
    obtain ⟨hrpl, hR', hp⟩ := ih
    obtain ⟨ho', hR'', hnext⟩ := hexec stmt _ _ o (hp stmt mem_cons_self) hR' ho
    refine ⟨hrpl.step ho', by rwa [applyAll_append, applyAll_append], ?_⟩
    exact forall_mem_append.mpr ⟨hnext, fun s hs => hp s (mem_cons_of_mem _ hs)⟩

end SiliconDm.Base.Language
