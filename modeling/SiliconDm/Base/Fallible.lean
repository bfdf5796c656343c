import Mathlib.Data.List.Forall2

/-!
# Rules for fallible loops

A loop that stops at its first error is a fold or a map in `Except`. What a successful one
did is said step by step: a fold keeps an invariant indexed by the elements it has passed,
and a map has a result for each element.
-/

namespace SiliconDm.Base

open List

variable {ε α β σ : Type}

variable {x : Except ε α} {f : α → Except ε β} {l : List α}

theorem bind_eq_ok {b : β} : x >>= f = .ok b ↔ ∃ a, x = .ok a ∧ f a = .ok b := by
  cases x with
  | error e | ok a => simp [bind, Except.bind]

theorem eq_ok_of_toOption {a : α} (h : x.toOption = some a) : x = .ok a := by
  cases x with
  | error e => cases h
  | ok b => exact congrArg Except.ok (Option.some.inj h)

/-- The invariant rule of a fold: `I done s` after the elements `done`. -/
theorem foldlM_invariant {f : σ → α → Except ε σ} {I : List α → σ → Prop} {s s' : σ}
    (h : l.foldlM f s = .ok s') (hi : I [] s)
    (hstep : ∀ done a s s', a ∈ l → I done s → f s a = .ok s' → I (done ++ [a]) s') : I l s' := by
  -- generalised over the elements already passed
  have main : ∀ (rest done : List α) (s : σ), (∀ a ∈ rest, a ∈ l) → I done s →
      rest.foldlM f s = .ok s' → I (done ++ rest) s' := by
    intro rest
    induction rest with
    | nil =>
      intro done s _ hd h
      obtain rfl : s = s' := Except.ok.inj h
      simpa using hd
    | cons a rest ih =>
      intro done s hl hd h
      rw [foldlM_cons] at h
      obtain ⟨m, hm, hr⟩ := bind_eq_ok.mp h
      have := ih (done ++ [a]) m (fun b hb => hl b (mem_cons_of_mem a hb))
        (hstep done a s m (hl a mem_cons_self) hd hm) hr
      simpa using this
  simpa using main l [] s (fun _ ha => ha) hi h

theorem forM_eq_ok {f : α → Except ε Unit} : l.forM f = .ok () ↔ ∀ a ∈ l, f a = .ok () := by
  induction l with
  | nil => simp [List.forM, pure, Except.pure]
  | cons a l ih =>
    rw [forall_mem_cons, ← ih]
    show (f a >>= fun _ => l.forM f) = .ok () ↔ _
    rw [bind_eq_ok]
    exact ⟨fun ⟨_, ha, hl⟩ => ⟨ha, hl⟩, fun ⟨ha, hl⟩ => ⟨(), ha, hl⟩⟩

/-- A map whose elements all succeed. -/
theorem mapM_of_forall {g : α → β} (h : ∀ a ∈ l, f a = .ok (g a)) : l.mapM f = .ok (l.map g) := by
  induction l with
  | nil => rfl
  | cons a l ih =>
    rw [mapM_cons, h a mem_cons_self,
      ih fun b hb => h b (mem_cons_of_mem a hb)]
    rfl

/-- A map that succeeds has a result for each element, in order. -/
theorem forall₂_of_mapM :
    ∀ {l' : List β}, l.mapM f = .ok l' → List.Forall₂ (fun a b => f a = .ok b) l l' := by
  induction l with
  | nil =>
    intro l' h
    obtain rfl : [] = l' := Except.ok.inj h
    exact .nil
  | cons a l ih =>
    intro l' h
    rw [mapM_cons] at h
    obtain ⟨b, hb, h⟩ := bind_eq_ok.mp h
    obtain ⟨bs, hbs, h⟩ := bind_eq_ok.mp h
    obtain rfl : b :: bs = l' := Except.ok.inj h
    exact .cons hb (ih hbs)

/-- A map whose every element succeeds, with a result for each. -/
theorem exists_mapM {Q : α → β → Prop} (h : ∀ a ∈ l, ∃ b, f a = .ok b ∧ Q a b) :
    ∃ l', l.mapM f = .ok l' ∧ ∀ a ∈ l, ∃ b ∈ l', Q a b := by
  induction l with
  | nil => exact ⟨[], rfl, by simp⟩
  | cons a l ih =>
    obtain ⟨b, hb, hq⟩ := h a mem_cons_self
    obtain ⟨bs, hbs, hqs⟩ := ih fun a' ha' => h a' (mem_cons_of_mem a ha')
    refine ⟨b :: bs, ?_, ?_⟩
    · rw [mapM_cons]
      exact bind_eq_ok.mpr ⟨b, hb, bind_eq_ok.mpr ⟨bs, hbs, rfl⟩⟩
    · intro a' ha'
      rcases mem_cons.mp ha' with rfl | ha'
      · exact ⟨b, mem_cons_self, hq⟩
      · obtain ⟨b', hb', hq'⟩ := hqs a' ha'
        exact ⟨b', mem_cons_of_mem b hb', hq'⟩

/-- An element of the second of two related lists has one of the first. -/
theorem forall₂_mem_right {R : α → β → Prop} {l' : List β} (h : List.Forall₂ R l l') {b : β}
    (hb : b ∈ l') : ∃ a ∈ l, R a b := by
  induction h with
  | nil => cases hb
  | @cons a b' l l' hr _ ih =>
    cases mem_cons.mp hb with
    | inl he => exact ⟨a, mem_cons_self, he ▸ hr⟩
    | inr hb =>
      obtain ⟨a', ha', hr'⟩ := ih hb
      exact ⟨a', mem_cons_of_mem a ha', hr'⟩

end SiliconDm.Base
