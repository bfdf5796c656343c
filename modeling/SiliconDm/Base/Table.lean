import Mathlib.Data.List.Nodup

/-!
# Tables with a primary key

A table is the list of its rows; `key` reads the primary key. Statements are maps and
filters over the rows, and `getRow` is the view by key that proofs about several statements
compose: an update by key, an upsert and a delete each have one equation for it.
-/

namespace SiliconDm.Base

open List Option

variable {α κ : Type*} {key : α → κ} {rows : List α}

theorem mem_concat {r new : α} : r ∈ rows ++ [new] ↔ r ∈ rows ∨ r = new := by
  simp

theorem forall_mem_concat {p : α → Prop} {new : α} :
    (∀ r ∈ rows ++ [new], p r) ↔ (∀ r ∈ rows, p r) ∧ p new := by
  rw [forall_mem_append, forall_mem_singleton]

/-- The primary key constraint. -/
def Keyed (key : α → κ) (rows : List α) : Prop :=
  (rows.map key).Nodup

variable {r new row : α} {f : α → α} {k : κ} {p q : α → Bool} {rows' : List α}

/-- Two rows with one key are one row. -/
theorem Keyed.unique (h : Keyed key rows) {r' : α} (hr : r ∈ rows) (hr' : r' ∈ rows)
    (hk : key r = key r') : r = r' :=
  inj_on_of_nodup_map h hr hr' hk

theorem Keyed.map (hf : ∀ r, key (f r) = key r) (h : Keyed key rows) : Keyed key (rows.map f) := by
  unfold Keyed
  rw [List.map_map]
  have : key ∘ f = key := funext hf
  rw [this]
  exact h

theorem Keyed.filter (h : Keyed key rows) (p : α → Bool) : Keyed key (rows.filter p) :=
  h.sublist (filter_sublist.map key)

variable [DecidableEq κ]

/-- The row of a key. -/
def getRow (key : α → κ) (rows : List α) (k : κ) : Option α :=
  rows.find? (key · = k)

/-- `INSERT … ON CONFLICT (key) DO UPDATE`: change the row of a key, or append one. -/
def upsert (key : α → κ) (k : κ) (new : α) (f : α → α) (rows : List α) : List α :=
  if (getRow key rows k).isSome then rows.map fun r => if key r = k then f r else r
  else rows ++ [new]

theorem mem_of_getRow_eq_some (h : getRow key rows k = some r) : r ∈ rows ∧ key r = k :=
  ⟨mem_of_find?_eq_some h, by simpa using find?_some h⟩

/-- Under the key constraint, a row is what its key gets. -/
theorem Keyed.getRow_eq_some_iff (h : Keyed key rows) :
    getRow key rows k = some r ↔ r ∈ rows ∧ key r = k := by
  constructor
  · exact mem_of_getRow_eq_some
  · rintro ⟨hr, rfl⟩
    cases hg : getRow key rows (key r) with
    | none =>
      have := find?_eq_none.mp hg r hr
      simp at this
    | some r' =>
      obtain ⟨hr', hk⟩ := mem_of_getRow_eq_some hg
      rw [inj_on_of_nodup_map h hr' hr hk]

/-- A key-preserving change of every row acts on the view row by row. -/
theorem getRow_map (hf : ∀ r, key (f r) = key r) (k : κ) :
    getRow key (rows.map f) k = (getRow key rows k).map f := by
  unfold getRow
  rw [find?_map]
  congr 2
  funext r
  simp [hf]

theorem getRow_append_singleton (new : α) (k : κ) :
    getRow key (rows ++ [new]) k =
      (getRow key rows k).or (if key new = k then some new else none) := by
  unfold getRow
  rw [find?_append]
  by_cases h : key new = k <;> simp [h]

theorem getRow_eq_none_iff : getRow key rows k = none ↔ ∀ r ∈ rows, key r ≠ k := by
  simp [getRow, find?_eq_none]

theorem Keyed.append_singleton (h : Keyed key rows) (hn : getRow key rows (key new) = none) :
    Keyed key (rows ++ [new]) := by
  unfold Keyed
  rw [map_append, nodup_append]
  refine ⟨h, by simp, ?_⟩
  intro k hk k' hk' he
  obtain ⟨r, hr, rfl⟩ := List.mem_map.mp hk
  obtain rfl : key new = k' := by simpa [eq_comm] using hk'
  exact getRow_eq_none_iff.mp hn r hr he

private theorem key_ite (k : κ) (hf : ∀ r, key r = k → key (f r) = key r) (r : α) :
    key (if key r = k then f r else r) = key r := by
  split
  next h => exact hf r h
  next => rfl

/-- The view after an upsert: the row of the key is the change of the old one, or the new
row; other keys are untouched. -/
theorem getRow_upsert (hn : key new = k) (hf : ∀ r, key r = k → key (f r) = key r) (k' : κ) :
    getRow key (upsert key k new f rows) k' =
      if k' = k then some ((getRow key rows k).elim new f) else getRow key rows k' := by
  unfold upsert
  cases hg : getRow key rows k with
  | none =>
    simp only [isSome_none, Bool.false_eq_true, if_false, elim_none]
    rw [getRow_append_singleton, hn]
    by_cases hk : k' = k
    · subst hk
      simp [hg]
    · rw [if_neg hk, if_neg (Ne.symm hk), or_none]
  | some r =>
    simp only [isSome_some, if_true, elim_some]
    rw [getRow_map (key_ite k hf)]
    by_cases hk : k' = k
    · subst hk
      have := (mem_of_getRow_eq_some hg).2
      simp [hg, this]
    · rw [if_neg hk]
      cases hg' : getRow key rows k' with
      | none => rfl
      | some r' =>
        have hr' := (mem_of_getRow_eq_some hg').2
        simp [hr', hk]

theorem Keyed.upsert (h : Keyed key rows) (hn : key new = k)
    (hf : ∀ r, key r = k → key (f r) = key r) : Keyed key (upsert key k new f rows) := by
  unfold Base.upsert
  cases hg : getRow key rows k with
  | none =>
    simp only [isSome_none, Bool.false_eq_true, if_false]
    exact h.append_singleton (by rw [hn]; exact hg)
  | some r =>
    simp only [isSome_some, if_true]
    exact h.map (key_ite k hf)

/-- An upsert whose change leaves what the first one wrote changes nothing. -/
theorem upsert_upsert {new' : α} {f' : α → α} (hn : key new = k)
    (hf : ∀ r, key r = k → key (f r) = key r) (hnew : f' new = new) (hff : ∀ r, f' (f r) = f r) :
    upsert key k new' f' (upsert key k new f rows) = upsert key k new f rows := by
  have hsome : (getRow key (upsert key k new f rows) k).isSome = true := by
    rw [getRow_upsert hn hf, if_pos rfl]
    rfl
  have hrow : ∀ r ∈ upsert key k new f rows, key r = k → f' r = r := by
    intro r hr hk
    unfold upsert at hr
    split at hr
    · obtain ⟨r', -, rfl⟩ := List.mem_map.mp hr
      by_cases hk' : key r' = k
      · rw [if_pos hk', hff]
      · rw [if_neg hk'] at hk
        exact absurd hk hk'
    next hnone =>
      rcases mem_append.mp hr with hr | hr
      · exact absurd hk (getRow_eq_none_iff.mp (by simpa using hnone) r hr)
      · rw [mem_singleton.mp hr, hnew]
  generalize upsert key k new f rows = written at hsome hrow ⊢
  unfold upsert
  rw [if_pos hsome]
  conv_rhs => rw [← List.map_id written]
  apply map_congr_left
  intro r hr
  by_cases hk : key r = k
  · rw [if_pos hk, hrow r hr hk]
    rfl
  · rw [if_neg hk]
    rfl

/-- Insert a row, or replace the one with its key. -/
def put (key : α → κ) (row : α) (rows : List α) : List α :=
  upsert key (key row) row (fun _ => row) rows

theorem mem_put (h : r ∈ put key row rows) : r = row ∨ r ∈ rows ∧ key r ≠ key row := by
  unfold put Base.upsert at h
  split at h
  next =>
    obtain ⟨r', hr', rfl⟩ := List.mem_map.mp h
    by_cases hk : key r' = key row
    · left
      simp [hk]
    · right
      simpa [hk] using hr'
  next hn =>
    rcases mem_append.mp h with hr | hr
    · exact .inr ⟨hr, getRow_eq_none_iff.mp (by simpa using hn) r hr⟩
    · exact .inl (mem_singleton.mp hr)

theorem getRow_put (row : α) (k : κ) :
    getRow key (put key row rows) k = if k = key row then some row else getRow key rows k := by
  unfold put
  rw [getRow_upsert rfl fun _ h => h.symm]
  cases getRow key rows (key row) <;> rfl

/-- The last row is replaced in its place. -/
theorem put_append_singleton (hn : getRow key rows (key new) = none) (hk : key row = key new) :
    put key row (rows ++ [new]) = rows ++ [row] := by
  have hsome : (getRow key (rows ++ [new]) (key row)).isSome = true := by
    simp [getRow_append_singleton, hk]
  unfold put upsert
  rw [if_pos hsome, map_append]
  congr 1
  · conv_rhs => rw [← List.map_id rows]
    apply map_congr_left
    intro r hr
    rw [if_neg (hk ▸ getRow_eq_none_iff.mp hn r hr), id]
  · simp [hk]

theorem Keyed.put (h : Keyed key rows) (row : α) : Keyed key (put key row rows) :=
  h.upsert rfl fun _ hk => hk.symm

/-- An upsert that does not change the row of its key changes nothing. -/
theorem Keyed.upsert_eq_self (h : Keyed key rows) (hr : getRow key rows k = some r) (hf : f r = r) :
    Base.upsert key k new f rows = rows := by
  unfold Base.upsert
  rw [hr, isSome_some, if_pos rfl]
  conv_rhs => rw [← List.map_id rows]
  apply map_congr_left
  intro r' hr'
  by_cases hk : key r' = k
  · obtain ⟨hm, hkey⟩ := mem_of_getRow_eq_some hr
    obtain rfl : r' = r := h.unique hr' hm (hk.trans hkey.symm)
    rw [if_pos hk, hf]
    rfl
  · rw [if_neg hk]
    rfl

theorem getRow_filter_of_true (hp : ∀ r, key r = k → p r = true) :
    getRow key (rows.filter p) k = getRow key rows k := by
  unfold getRow
  rw [find?_filter]
  congr 1
  funext r
  by_cases hk : key r = k
  · simp [hk, hp r hk]
  · simp [hk]

/-- A part of the table that is told by the key, and that the row belongs to. -/
theorem filter_put_of_true (hp : ∀ r, key r = key row → p r = true) :
    (put key row rows).filter p = put key row (rows.filter p) := by
  unfold Base.put Base.upsert
  rw [getRow_filter_of_true hp]
  split
  · rw [List.filter_map]
    congr 1
    apply filter_congr
    intro r _
    simp only [Function.comp_apply]
    split
    next hk => rw [hp row rfl, hp r hk]
    next => rfl
  · rw [filter_append]
    simp [hp row rfl]

/-- A part of the table that the row does not belong to. -/
theorem filter_put_of_false (hp : ∀ r, key r = key row → p r = false) :
    (put key row rows).filter p = rows.filter p := by
  unfold Base.put Base.upsert
  split
  · rw [List.filter_map]
    have hcomp : (p ∘ fun r => if key r = key row then row else r) = p := by
      funext r
      simp only [Function.comp_apply]
      split
      next hk => rw [hp row rfl, hp r hk]
      next => rfl
    rw [hcomp]
    conv_rhs => rw [← List.map_id (rows.filter p)]
    apply map_congr_left
    intro r hr
    have : key r ≠ key row := fun hk => by simp [hp r hk] at hr
    simp [this]
  · rw [filter_append]
    simp [hp row rfl]

omit [DecidableEq κ] in
/-- Tables that agree on the rows of `p` agree on those of every `q` that implies it. -/
theorem filter_eq_of_imp (h : rows'.filter p = rows.filter p) (hq : ∀ r, q r = true → p r = true) :
    rows'.filter q = rows.filter q := by
  have hboth : ∀ rows : List α, rows.filter q = (rows.filter p).filter q := by
    intro rows
    rw [List.filter_filter]
    apply filter_congr
    intro r _
    cases hr : q r with
    | false => rfl
    | true => simp [hq r hr]
  rw [hboth rows, hboth rows', h]

omit [DecidableEq κ] in
theorem filter_swap (p q : α → Bool) : (rows.filter p).filter q = (rows.filter q).filter p := by
  simp only [List.filter_filter, Bool.and_comm]

omit [DecidableEq κ] in
theorem any_eq_of_filter_eq (h : rows'.filter q = rows.filter q) : rows'.any q = rows.any q := by
  simpa [List.any_filter] using congrArg (List.any · q) h

omit [DecidableEq κ] in
theorem find?_eq_of_filter_eq (h : rows'.filter q = rows.filter q) :
    rows'.find? q = rows.find? q := by
  rw [← head?_filter, h, head?_filter]

/-- What an association list maps a key to is listed with it. -/
theorem mem_of_lookup {K V : Type*} [BEq K] [LawfulBEq K] {l : List (K × V)} {k : K} {v : V}
    (h : l.lookup k = some v) : (k, v) ∈ l := by
  obtain ⟨before, after, he, -⟩ := List.lookup_eq_some_iff.mp h
  rw [he]
  simp

end SiliconDm.Base
