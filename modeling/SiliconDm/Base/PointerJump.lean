import Mathlib.Data.List.Nodup
import Mathlib.Data.List.Perm.Subperm
import Mathlib.Logic.Relation

/-!
# Pointer jumping

A partial function `next : α → Option α` is a set of links, at most one from each element;
an element without one is a root. `jump` replaces every link by the two links it starts, for
all elements at once. Each round halves the number of links to the root, so that rounds
repeated until nothing changes end with every link pointing at a root, however long the
chains were.
-/

namespace SiliconDm.Base

variable {α : Type*} {next : α → Option α} {a b r : α} {n N : Nat}

/-- No element comes back to itself. -/
def Acyclic (next : α → Option α) : Prop :=
  ∀ a, ¬ Relation.TransGen (fun x y => next x = some y) a a

/-- Every link points at a root. -/
def Flat (next : α → Option α) : Prop :=
  ∀ a b, next a = some b → next b = none

/-- Following `n` links from an element reaches the root `r`. -/
inductive LeadsTo (next : α → Option α) : α → Nat → α → Prop where
  | root {a : α} (h : next a = none) : LeadsTo next a 0 a
  | link {a b r : α} {n : Nat} (h : next a = some b) (hb : LeadsTo next b n r) :
      LeadsTo next a (n + 1) r

/-- Every element reaches a root within `N` links. -/
def Within (next : α → Option α) (N : Nat) : Prop :=
  ∀ a, ∃ n r, n ≤ N ∧ LeadsTo next a n r

/-- One round: every link becomes the two links it starts. -/
def jump (next : α → Option α) (a : α) : Option α :=
  (next a).bind fun b => (next b).or (some b)

/-- What a link of the round is made of. -/
theorem jump_eq_some_iff {c : α} :
    jump next a = some c ↔
      ∃ b, next a = some b ∧ (next b = some c ∨ next b = none ∧ b = c) := by
  simp only [jump, Option.bind_eq_some_iff, Option.or_eq_some_iff, Option.some.injEq]

/-- A round keeps the roots. -/
theorem jump_eq_none_iff : jump next a = none ↔ next a = none := by
  cases h : next a <;> simp [jump, h]

/-- A relation that composes and holds along the links holds along the links of a round. -/
theorem jump_rel {R : α → α → Prop} (hR : ∀ x y z, R x y → R y z → R x z)
    (h : ∀ x y, next x = some y → R x y) (x z : α) (hx : jump next x = some z) : R x z := by
  obtain ⟨y, hy, hz | ⟨-, rfl⟩⟩ := jump_eq_some_iff.mp hx
  · exact hR x y z (h x y hy) (h y z hz)
  · exact h x y hy

/-- A round halves the way to the root, rounding up. -/
theorem LeadsTo.jump (h : LeadsTo next a n r) : LeadsTo (jump next) a ((n + 1) / 2) r := by
  -- two links at a time
  induction n using Nat.strongRecOn generalizing a with
  | ind n ih =>
    cases h with
    | root h => exact .root (jump_eq_none_iff.mpr h)
    | link h hb =>
      cases hb with
      | root hb =>
        have hlink : Base.jump next a = some r :=
          jump_eq_some_iff.mpr ⟨_, h, .inr ⟨hb, rfl⟩⟩
        exact .link hlink (.root (jump_eq_none_iff.mpr hb))
      | @link _ c _ m hb hc =>
        have hlen : (m + 1 + 1 + 1) / 2 = (m + 1) / 2 + 1 := by omega
        rw [hlen]
        exact .link (jump_eq_some_iff.mpr ⟨_, h, .inl hb⟩) (ih m (by omega) hc)

theorem Within.jump (h : Within next N) : Within (jump next) ((N + 1) / 2) := by
  intro a
  obtain ⟨n, r, hn, ha⟩ := h a
  exact ⟨(n + 1) / 2, r, by omega, ha.jump⟩

/-- Chains of at most one link are flat. -/
theorem Within.flat (h : Within next N) (hN : N ≤ 1) : Flat next := by
  intro a b hab
  obtain ⟨n, r, hn, ha⟩ := h a
  cases ha with
  | root ha => simp [ha] at hab
  | link hc hb =>
    cases hab.symm.trans hc
    cases hb with
    | root hb => exact hb
    | link => omega

theorem Flat.acyclic (h : Flat next) : Acyclic next := by
  intro a ha
  obtain ⟨b, hab, hba⟩ := Relation.TransGen.head'_iff.mp ha
  have hb : next b = none := h a b hab
  cases hba.cases_head with
  | inl he =>
    subst he
    simp [hab] at hb
  | inr hc =>
    obtain ⟨c, hc, -⟩ := hc
    simp [hb] at hc

/-- A chain without repetition is no longer than the list of the elements that have a link:
`seen` holds those passed on the way to `a`. -/
private theorem leadsTo_of_seen {support : List α} (hac : Acyclic next)
    (hs : ∀ a b, next a = some b → a ∈ support) (fuel : Nat) :
    ∀ (a : α) (seen : List α), seen.Nodup → seen ⊆ support →
      (∀ x ∈ seen, Relation.TransGen (fun x y => next x = some y) x a) →
      support.length ≤ seen.length + fuel → ∃ n r, n ≤ fuel ∧ LeadsTo next a n r := by
  induction fuel with
  | zero =>
    intro a seen hnd hsub hseen hlen
    cases hn : next a with
    | none => exact ⟨0, a, Nat.le_refl 0, .root hn⟩
    | some b =>
      -- every element that has a link was passed, so `a` was passed before
      have hall : seen.Subperm support := hnd.subperm hsub
      have hm : a ∈ seen := (hall.perm_of_length_le hlen).mem_iff.mpr (hs a b hn)
      exact absurd (hseen a hm) (hac a)
  | succ fuel ih =>
    intro a seen hnd hsub hseen hlen
    cases hn : next a with
    | none => exact ⟨0, a, by omega, .root hn⟩
    | some b =>
      have hnew : a ∉ seen := fun hm => hac a (hseen a hm)
      obtain ⟨n, r, hle, hb⟩ := ih b (a :: seen) (List.nodup_cons.mpr ⟨hnew, hnd⟩)
        (List.cons_subset.mpr ⟨hs a b hn, hsub⟩)
        (fun x hx => by
          cases List.mem_cons.mp hx with
          | inl he => exact he ▸ .single hn
          | inr hx => exact (hseen x hx).tail hn)
        (by simp only [List.length_cons]; omega)
      exact ⟨n + 1, r, by omega, .link hn hb⟩

/-- Acyclic links of finitely many elements lead to a root, in no more links than there are
elements with one. -/
theorem Acyclic.within {support : List α} (h : Acyclic next)
    (hs : ∀ a b, next a = some b → a ∈ support) : Within next support.length := fun a =>
  leadsTo_of_seen h hs support.length a [] List.nodup_nil (by simp) (by simp) (by simp)

/-- Linking some of the roots to other roots makes no chain longer than one more link. -/
theorem Within.attach {next' : α → Option α} (h : Within next N)
    (hold : ∀ a b, next a = some b → next' a = some b)
    (hnew : ∀ a b, next a = none → next' a = some b → next' b = none) :
    Within next' (N + 1) := by
  have lift : ∀ {a n r}, LeadsTo next a n r → ∃ m s, m ≤ n + 1 ∧ LeadsTo next' a m s := by
    intro a n r ha
    induction ha with
    | @root a ha =>
      cases hn : next' a with
      | none => exact ⟨0, a, by omega, .root hn⟩
      | some b => exact ⟨1, b, by omega, .link hn (.root (hnew a b ha hn))⟩
    | link hab _ ih =>
      obtain ⟨m, s, hm, hb⟩ := ih
      exact ⟨m + 1, s, by omega, .link (hold _ _ hab) hb⟩
  intro a
  obtain ⟨n, r, hn, ha⟩ := h a
  obtain ⟨m, s, hm, ha'⟩ := lift ha
  exact ⟨m, s, by omega, ha'⟩

end SiliconDm.Base
