import Mathlib.Order.Defs.Unbundled

/-!
# Request handlers

A handler reads the state and runs transactions on it, one after the other. A transaction that
fails leaves no trace; a handler that fails keeps what its earlier transactions committed. What
a successful handler did is said step by step, by one equivalence for each way of composing.
-/

namespace SiliconDm.Base

variable {ε σ ω α β : Type}

/-- A part of a transaction, over what the transaction has done so far. -/
def Tx (ε ω α : Type) : Type :=
  ω → Except ε (α × ω)

/-- A request handler, over the committed state. -/
def Handler (ε σ α : Type) : Type :=
  σ → Except ε α × σ

instance : Monad (Tx ε ω) where
  pure a := fun w => .ok (a, w)
  bind x f := fun w =>
    match x w with
    | .ok (a, w') => f a w'
    | .error e => .error e

instance : Monad (Handler ε σ) where
  pure a := fun s => (.ok a, s)
  bind x f := fun s =>
    match x s with
    | (.ok a, s') => f a s'
    | (.error e, s') => (.error e, s')

namespace Tx

/-- A query. -/
def read (c : ω → Except ε α) : Tx ε ω α := fun w =>
  match c w with
  | .ok a => .ok (a, w)
  | .error e => .error e

/-- A write that cannot fail. -/
def alter (f : ω → ω) : Tx ε ω Unit := fun w =>
  .ok ((), f w)

variable {a : α} {w w' : ω} {x : Tx ε ω α} {f : α → Tx ε ω β} {c : ω → Except ε α}

theorem pure_eq_ok {b : α} : (pure a : Tx ε ω α) w = .ok (b, w') ↔ a = b ∧ w = w' := by
  constructor
  · intro h
    have := Except.ok.inj h
    exact ⟨congrArg Prod.fst this, congrArg Prod.snd this⟩
  · rintro ⟨rfl, rfl⟩
    rfl

theorem bind_eq_ok {b : β} :
    (x >>= f) w = .ok (b, w') ↔ ∃ a m, x w = .ok (a, m) ∧ f a m = .ok (b, w') := by
  show (match x w with
    | .ok (a, m) => f a m
    | .error e => .error e) = _ ↔ _
  cases x w with
  | error e => simp
  | ok r =>
    constructor
    · intro h
      exact ⟨r.1, r.2, rfl, h⟩
    · rintro ⟨a, m, hr, h⟩
      cases hr
      exact h

theorem bind_of_ok {m : ω} (h : x w = .ok (a, m)) : (x >>= f) w = f a m := by
  show (match x w with
    | .ok (a, m) => f a m
    | .error e => .error e) = _
  rw [h]

theorem bind_of_error {e : ε} (h : x w = .error e) : (x >>= f) w = .error e := by
  show (match x w with
    | .ok (a, m) => f a m
    | .error e => .error e) = _
  rw [h]

/-- What follows a part matters only where that part succeeds. -/
theorem bind_congr {g : α → Tx ε ω β} (h : ∀ a m, x w = .ok (a, m) → f a m = g a m) :
    (x >>= f) w = (x >>= g) w := by
  cases hx : x w with
  | error e => rw [bind_of_error hx, bind_of_error hx]
  | ok r => rw [bind_of_ok hx, bind_of_ok hx, h r.1 r.2 hx]

theorem bind_congr_left {y : Tx ε ω α} (h : x w = y w) : (x >>= f) w = (y >>= f) w := by
  cases hy : y w with
  | error e => rw [bind_of_error hy, bind_of_error (h.trans hy)]
  | ok r => rw [bind_of_ok hy, bind_of_ok (h.trans hy)]

theorem read_bind_of_ok (h : c w = .ok a) : (read c >>= f) w = f a w :=
  bind_of_ok (by simp only [read, h])

theorem read_eq_ok : read c w = .ok (a, w') ↔ c w = .ok a ∧ w = w' := by
  unfold read
  cases c w with
  | error e | ok b => simp

theorem alter_eq_ok {f : ω → ω} {u : Unit} :
    (alter f : Tx ε ω Unit) w = .ok (u, w') ↔ f w = w' := by
  simp [alter]

/-- Every success of the transaction moves its state along `R`. -/
def Moves (R : ω → ω → Prop) (x : Tx ε ω α) : Prop :=
  ∀ w w' a, x w = .ok (a, w') → R w w'

section

variable {R : ω → ω → Prop}

theorem Moves.bind [IsTrans ω R] {x : Tx ε ω α} {f : α → Tx ε ω β} (hx : Moves R x)
    (hf : ∀ a, Moves R (f a)) : Moves R (x >>= f) := by
  intro w w' b h
  obtain ⟨a, m, hxm, hfm⟩ := bind_eq_ok.mp h
  exact IsTrans.trans _ _ _ (hx w m a hxm) (hf a m w' b hfm)

theorem Moves.pure [Std.Refl R] (a : α) : Moves R (Pure.pure a : Tx ε ω α) := by
  intro w w' b h
  obtain ⟨-, rfl⟩ := pure_eq_ok.mp h
  exact refl w

theorem Moves.read [Std.Refl R] (c : ω → Except ε α) : Moves R (Tx.read c) := by
  intro w w' b h
  obtain ⟨-, rfl⟩ := read_eq_ok.mp h
  exact refl w

theorem Moves.mono {R' : ω → ω → Prop} {x : Tx ε ω α} (hx : Moves R x)
    (h : ∀ w w', R w w' → R' w w') : Moves R' x :=
  fun w w' a hw => h w w' (hx w w' a hw)

theorem Moves.alter {f : ω → ω} (h : ∀ w, R w (f w)) : Moves R (Tx.alter f : Tx ε ω Unit) := by
  intro w w' u hw
  obtain rfl := alter_eq_ok.mp hw
  exact h w

end

end Tx

namespace Handler

/-- A query outside any transaction. -/
def read (c : σ → Except ε α) : Handler ε σ α := fun s =>
  (c s, s)

/-- Run a transaction: `start` opens it and `finish` commits it, or it is rolled back. -/
def transaction (start : σ → ω) (finish : ω → Except ε σ) (x : Tx ε ω α) : Handler ε σ α :=
  fun s =>
    match x (start s) with
    | .error e => (.error e, s)
    | .ok (a, w) =>
      match finish w with
      | .error e => (.error e, s)
      | .ok s' => (.ok a, s')

variable {a : α} {x : Handler ε σ α} {f : α → Handler ε σ β} {c : σ → Except ε α} {start : σ → ω}
  {finish : ω → Except ε σ}

variable {s s' : σ} {xs : List α}

theorem pure_eq_ok {b : α} :
    (pure a : Handler ε σ α) s = (.ok b, s') ↔ a = b ∧ s = s' := by
  show ((Except.ok a, s) : Except ε α × σ) = _ ↔ _
  simp

theorem bind_eq_ok {b : β} :
    (x >>= f) s = (.ok b, s') ↔ ∃ a m, x s = (.ok a, m) ∧ f a m = (.ok b, s') := by
  show (match x s with
    | (.ok a, m) => f a m
    | (.error e, m) => (.error e, m)) = _ ↔ _
  rcases x s with ⟨r, m⟩
  cases r with
  | error e => simp
  | ok a =>
    constructor
    · intro h
      exact ⟨a, m, rfl, h⟩
    · rintro ⟨a', m', hr, h⟩
      obtain ⟨rfl, rfl⟩ : a = a' ∧ m = m' := by simpa using hr
      exact h

/-- What follows a part that succeeds. -/
theorem bind_of_ok (h : x s = (.ok a, s')) : (x >>= f) s = f a s' := by
  show (match x s with
    | (.ok a, m) => f a m
    | (.error e, m) => (.error e, m)) = _
  rw [h]

theorem bind_of_error {e : ε} (h : x s = (.error e, s')) :
    (x >>= f) s = (.error e, s') := by
  show (match x s with
    | (.ok a, m) => f a m
    | (.error e, m) => (.error e, m)) = _
  rw [h]

theorem read_eq_ok : read c s = (.ok a, s') ↔ c s = .ok a ∧ s = s' := by
  simp [read]

theorem read_bind_eq_ok {b : β} :
    (read c >>= f) s = (.ok b, s') ↔ ∃ a, c s = .ok a ∧ f a s = (.ok b, s') := by
  rw [bind_eq_ok]
  constructor
  · rintro ⟨a, m, hread, hf⟩
    obtain ⟨hc, rfl⟩ := read_eq_ok.mp hread
    exact ⟨a, hc, hf⟩
  · rintro ⟨a, hc, hf⟩
    exact ⟨a, s, read_eq_ok.mpr ⟨hc, rfl⟩, hf⟩

theorem read_bind_of_ok (h : c s = .ok a) : (read c >>= f) s = f a s :=
  bind_of_ok (read_eq_ok.mpr ⟨h, rfl⟩)

/-- The loop rule: `I xs` is what holds while the elements `xs` are still to be treated. -/
theorem forM_invariant {f : α → Handler ε σ Unit} {I : List α → σ → Prop}
    (hstep : ∀ x xs s s', I (x :: xs) s → f x s = (.ok (), s') → I xs s') {u : Unit} (hs : I xs s)
    (h : xs.forM f s = (.ok u, s')) : I [] s' := by
  induction xs generalizing s with
  | nil =>
    obtain ⟨-, rfl⟩ := pure_eq_ok.mp h
    exact hs
  | cons x xs ih =>
    obtain ⟨_, m, hx, hxs⟩ := bind_eq_ok.mp h
    exact ih (hstep x xs s m hs hx) hxs

/-- A loop whose passes all leave the state alone. -/
theorem forM_of_pass {f : α → Handler ε σ Unit} (h : ∀ x ∈ xs, f x s = (.ok (), s)) :
    xs.forM f s = (.ok (), s) := by
  induction xs with
  | nil => rfl
  | cons x xs ih =>
    exact bind_eq_ok.mpr ⟨(), s, h x List.mem_cons_self,
      ih fun y hy => h y (List.mem_cons_of_mem _ hy)⟩

theorem transaction_eq_ok {x : Tx ε ω α} : transaction start finish x s = (.ok a, s') ↔
      ∃ w, x (start s) = .ok (a, w) ∧ finish w = .ok s' := by
  unfold transaction
  cases x (start s) with
  | error e => simp
  | ok r =>
    constructor
    · intro h
      cases hf : finish r.2 with
      | error e => simp [hf] at h
      | ok m =>
        obtain ⟨rfl, rfl⟩ : r.1 = a ∧ m = s' := by simpa [hf] using h
        exact ⟨r.2, rfl, hf⟩
    · rintro ⟨w, hr, hf⟩
      cases hr
      simp [hf]

/-- A transaction that fails leaves the state alone. -/
theorem transaction_eq_error {x : Tx ε ω α} {e : ε}
    (h : transaction start finish x s = (.error e, s')) : s' = s := by
  unfold transaction at h
  split at h
  · exact (congrArg Prod.snd h).symm
  · split at h
    · exact (congrArg Prod.snd h).symm
    · cases h

/-- From `s` the handler leaves a state along `R`, whether it succeeds or not. -/
def Leaves (R : σ → σ → Prop) (s : σ) (x : Handler ε σ α) : Prop :=
  R s (x s).2

section

variable {R : σ → σ → Prop} {s : σ}

theorem Leaves.pure [Std.Refl R] (a : α) : Leaves R s (Pure.pure a : Handler ε σ α) :=
  refl s

theorem Leaves.read [Std.Refl R] (c : σ → Except ε α) : Leaves R s (Handler.read c) :=
  refl s

variable {x : Handler ε σ α} {f : α → Handler ε σ β} {c : σ → Except ε α}

theorem Leaves.bind [IsTrans σ R] (hx : Leaves R s x)
    (hf : ∀ a s', x s = (.ok a, s') → Leaves R s' (f a)) : Leaves R s (x >>= f) := by
  unfold Leaves at hx ⊢
  show R s (match x s with
    | (.ok a, m) => f a m
    | (.error e, m) => (.error e, m)).2
  cases hr : x s with
  | mk r m =>
    rw [hr] at hx
    cases r with
    | error e => exact hx
    | ok a => exact IsTrans.trans _ _ _ hx (hf a m hr)

/-- What a query found is known to the rest. -/
theorem Leaves.read_bind [Std.Refl R] (hf : ∀ a, c s = .ok a → Leaves R s (f a)) :
    Leaves R s (Handler.read c >>= f) := by
  unfold Leaves
  show R s (match (c s, s) with
    | (.ok a, m) => f a m
    | (.error e, m) => (.error e, m)).2
  cases hr : c s with
  | error e => exact refl s
  | ok a => exact hf a hr

theorem Leaves.transaction [Std.Refl R] {start : σ → ω} {finish : ω → Except ε σ} {x : Tx ε ω α}
    (h : ∀ a w s', x (start s) = .ok (a, w) → finish w = .ok s' → R s s') :
    Leaves R s (Handler.transaction start finish x) := by
  unfold Leaves
  cases hr : Handler.transaction start finish x s with
  | mk r s' =>
    cases r with
    | error e =>
      rw [transaction_eq_error hr]
      exact refl s
    | ok a =>
      obtain ⟨w, hx, hfin⟩ := transaction_eq_ok.mp hr
      exact h a w s' hx hfin

theorem Leaves.forM [Std.Refl R] [IsTrans σ R] {f : α → Handler ε σ Unit}
    (hf : ∀ x ∈ xs, ∀ s, Leaves R s (f x)) : Leaves R s (xs.forM f) := by
  induction xs generalizing s with
  | nil => exact .pure ()
  | cons x xs ih =>
    apply Leaves.bind (hf x List.mem_cons_self s)
    intro _ s' _
    exact ih fun y hy => hf y (List.mem_cons_of_mem _ hy)

/-- From `s` a handler that fails leaves `s` as it was. -/
def Restores (s : σ) (x : Handler ε σ α) : Prop :=
  ∀ e s', x s = (.error e, s') → s' = s

/-- Behind a part that changes nothing. -/
theorem Restores.bind (hx : (x s).2 = s) (hf : ∀ a, x s = (.ok a, s) → Restores s (f a)) :
    Restores s (x >>= f) := by
  intro e s' h
  rcases hr : x s with ⟨r, m⟩
  rw [hr] at hx
  obtain rfl : m = s := hx
  cases r with
  | error e' =>
    rw [bind_of_error hr] at h
    exact (congrArg Prod.snd h).symm
  | ok a =>
    rw [bind_of_ok hr] at h
    exact hf a hr e s' h

theorem Restores.read_bind (hf : ∀ a, c s = .ok a → Restores s (f a)) :
    Restores s (Handler.read c >>= f) :=
  .bind rfl fun a ha => hf a (read_eq_ok.mp ha).1

end

end Handler

end SiliconDm.Base
