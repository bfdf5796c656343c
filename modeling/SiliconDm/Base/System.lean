import Mathlib.Logic.Relation

/-!
# Transition systems given by a partial step function

States, labels and one partial, executable step function. A run is a list of labels; a
side condition `C s l` on the state before a step and its label restricts the runs that are
considered, so the same rules serve unconditional invariants (`C` always true) and
statements about the runs whose steps all meet a condition.
-/

namespace SiliconDm.Base

/-- A transition system: which states a run may start in, and what one step does. A label
that is not enabled in a state has no successor there. -/
structure System (S L : Type*) where
  init : S → Prop
  step : S → L → Option S

namespace System

variable {S L : Type*} (M : System S L)

/-- Execute the labels in order; `none` as soon as one of them is not enabled. -/
def run (s : S) : List L → Option S
  | [] => some s
  | l :: ls => (M.step s l).bind fun s' => run s' ls

/-- One step whose label and pre-state meet `C`. -/
def Step (C : S → L → Prop) (s s' : S) : Prop :=
  ∃ l, C s l ∧ M.step s l = some s'

/-- Finitely many steps that all meet `C`. -/
def Steps (C : S → L → Prop) : S → S → Prop :=
  Relation.ReflTransGen (M.Step C)

/-- The state is reached from an initial one by steps that all meet `C`. -/
def ReachableWhile (C : S → L → Prop) (s : S) : Prop :=
  ∃ s₀, M.init s₀ ∧ M.Steps C s₀ s

/-- The state is reached by some run. -/
def Reachable (s : S) : Prop :=
  M.ReachableWhile (fun _ _ => True) s

variable {M} {C D : S → L → Prop} {I : S → Prop} {s s' s'' : S} {l : L}

/-- Preservation along a run: a predicate that every step meeting `C` keeps. -/
theorem Steps.preserves (h : M.Steps C s s')
    (hstep : ∀ s l s', I s → C s l → M.step s l = some s' → I s') (hs : I s) : I s' := by
  induction h with
  | refl => exact hs
  | tail _ h ih =>
    obtain ⟨l, hc, hl⟩ := h
    exact hstep _ l _ ih hc hl

/-- The invariant rule: initial states satisfy `I` and every step meeting `C` keeps it. -/
theorem ReachableWhile.invariant (h : M.ReachableWhile C s) (h₀ : ∀ s, M.init s → I s)
    (hstep : ∀ s l s', I s → C s l → M.step s l = some s' → I s') : I s := by
  obtain ⟨s₀, hi, hs⟩ := h
  exact hs.preserves hstep (h₀ s₀ hi)

/-- The invariant rule for unconditional runs. -/
theorem Reachable.invariant (h : M.Reachable s) (h₀ : ∀ s, M.init s → I s)
    (hstep : ∀ s l s', I s → M.step s l = some s' → I s') : I s :=
  ReachableWhile.invariant h h₀ fun s l s' hs _ hl => hstep s l s' hs hl

/-- Reachability is closed under steps that meet the condition. -/
theorem ReachableWhile.steps (h : M.ReachableWhile C s) (hs : M.Steps C s s') :
    M.ReachableWhile C s' := by
  obtain ⟨s₀, hi, h₀⟩ := h
  exact ⟨s₀, hi, h₀.trans hs⟩

/-- One more step of a conditional run. -/
theorem ReachableWhile.step (h : M.ReachableWhile C s) (hc : C s l)
    (hl : M.step s l = some s') : M.ReachableWhile C s' :=
  h.steps (.single ⟨l, hc, hl⟩)

theorem ReachableWhile.reachable (h : M.ReachableWhile C s) : M.Reachable s :=
  h.invariant (fun s hi => ⟨s, hi, .refl⟩) fun _ _ _ hs _ hl => ReachableWhile.step hs trivial hl

/-- The system restricted to the steps an executable condition allows. -/
def guard (M : System S L) (c : S → L → Bool) : System S L where
  init := M.init
  step s l := if c s l then M.step s l else none

/-- An executed run is a sequence of steps. -/
theorem steps_of_run {ls : List L} (h : M.run s ls = some s') :
    M.Steps (fun _ _ => True) s s' := by
  induction ls generalizing s with
  | nil =>
    obtain rfl : s = s' := by simpa [run] using h
    exact .refl
  | cons l ls ih =>
    obtain ⟨t, ht, hrest⟩ := Option.bind_eq_some_iff.mp h
    exact (ih hrest).head ⟨l, trivial, ht⟩

/-- An executed run of the restricted system meets the condition at every step. -/
theorem steps_of_guard_run {c : S → L → Bool} {ls : List L}
    (h : (M.guard c).run s ls = some s') : M.Steps (fun s l => c s l = true) s s' := by
  refine Relation.ReflTransGen.mono ?_ _ _ (steps_of_run h)
  rintro a b ⟨l, -, hl⟩
  by_cases hc : c a l = true
  · exact ⟨l, hc, by simpa [guard, hc] using hl⟩
  · simp [guard, hc] at hl

section Get

variable {s₀ : S} [∀ s l, Decidable (C s l)] (ls : List L)

/-- The state that a concrete run ends in is reachable. -/
theorem reachable_get (hi : M.init s₀) (h : (M.run s₀ ls).isSome = true) :
    M.Reachable ((M.run s₀ ls).get h) :=
  ⟨s₀, hi, steps_of_run (Option.some_get h).symm⟩

/-- The same for a run whose steps meet an executable condition, from any state. -/
theorem steps_get (h : ((M.guard fun s l => C s l).run s ls).isSome = true) :
    M.Steps C s (((M.guard fun s l => C s l).run s ls).get h) := by
  simpa using steps_of_guard_run (Option.some_get h).symm

theorem reachableWhile_get (hi : M.init s₀)
    (h : ((M.guard fun s l => C s l).run s₀ ls).isSome = true) :
    M.ReachableWhile C (((M.guard fun s l => C s l).run s₀ ls).get h) :=
  ⟨s₀, hi, steps_get ls h⟩

end Get

end System

end SiliconDm.Base
