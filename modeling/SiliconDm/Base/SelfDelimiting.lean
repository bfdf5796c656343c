import Mathlib.Data.List.Basic

/-!
# Self-delimiting codes

A code is self-delimiting on the values it admits if what follows a code word never changes
which value it is read as. Words of one length are, a word after its framed length is, and so
are the pairs and the concatenations of such words; a concatenation then determines the list
it was made of.
-/

namespace SiliconDm.Base

open List

variable {α β γ : Type*}

/-- A code word is told from every other one whatever follows. -/
def SelfDelimiting (P : α → Prop) (code : α → List γ) : Prop :=
  ∀ a b, P a → P b → ∀ r s, code a ++ r = code b ++ s → a = b ∧ r = s

variable {P : α → Prop} {Q : β → Prop}

variable {code : α → List γ}

/-- Words of one length. -/
theorem SelfDelimiting.of_length (n : Nat) (hlen : ∀ a, P a → (code a).length = n)
    (hinj : ∀ a b, P a → P b → code a = code b → a = b) : SelfDelimiting P code := by
  intro a b ha hb r s h
  obtain ⟨hcode, hrest⟩ := append_inj h ((hlen a ha).trans (hlen b hb).symm)
  exact ⟨hinj a b ha hb hcode, hrest⟩

/-- A string behind its length. -/
theorem SelfDelimiting.framed {len : Nat → List γ} {R : Nat → Prop} (h : SelfDelimiting R len) :
    SelfDelimiting (fun xs : List γ => R xs.length) fun xs => len xs.length ++ xs := by
  intro xs ys hx hy r s heq
  rw [append_assoc, append_assoc] at heq
  obtain ⟨hlen, hrest⟩ := h _ _ hx hy _ _ heq
  exact append_inj hrest hlen

/-- The image of an injection. -/
theorem SelfDelimiting.comp {code : β → List γ} (h : SelfDelimiting Q code) {f : α → β}
    (hf : Function.Injective f) : SelfDelimiting (fun a => Q (f a)) fun a => code (f a) := by
  intro a b ha hb r s heq
  obtain ⟨hcode, hrest⟩ := h _ _ ha hb r s heq
  exact ⟨hf hcode, hrest⟩

/-- One word after another. -/
theorem SelfDelimiting.append {code' : β → List γ} (h : SelfDelimiting P code)
    (h' : SelfDelimiting Q code') :
    SelfDelimiting (fun a : α × β => P a.1 ∧ Q a.2) fun a => code a.1 ++ code' a.2 := by
  intro a b ha hb r s heq
  rw [append_assoc, append_assoc] at heq
  obtain ⟨hfst, hrest⟩ := h _ _ ha.1 hb.1 _ _ heq
  obtain ⟨hsnd, hrest⟩ := h' _ _ ha.2 hb.2 _ _ hrest
  exact ⟨Prod.ext hfst hsnd, hrest⟩

/-- A concatenation of words that are not empty determines their list. -/
theorem SelfDelimiting.flatMap_inj (h : SelfDelimiting P code) (hne : ∀ a, code a ≠ [])
    {l l' : List α} (hl : ∀ a ∈ l, P a) (hl' : ∀ a ∈ l', P a)
    (heq : l.flatMap code = l'.flatMap code) : l = l' := by
  induction l generalizing l' with
  | nil =>
    cases l' with
    | nil => rfl
    | cons b l' => exact absurd (append_eq_nil_iff.mp heq.symm).1 (hne b)
  | cons a l ih =>
    cases l' with
    | nil => exact absurd (append_eq_nil_iff.mp heq).1 (hne a)
    | cons b l' =>
      rw [flatMap_cons, flatMap_cons] at heq
      obtain ⟨rfl, hrest⟩ := h a b (hl a (by simp)) (hl' b (by simp)) _ _ heq
      rw [ih (fun x hx => hl x (by simp [hx])) (fun x hx => hl' x (by simp [hx])) hrest]

end SiliconDm.Base
