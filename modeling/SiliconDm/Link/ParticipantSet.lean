import Mathlib.Data.List.Destutter
import Mathlib.Data.List.Sort
import SiliconDm.Base.Numeral
import SiliconDm.Base.SelfDelimiting
import SiliconDm.Link.Supersession

/-!
# The hash of a participant set

A direct conversation is found by the SHA-256 of its participants, written one after the other
as length-framed kinds and storage keys in the order of their bytes. The service computes the
bytes from the participants a caller names, the re-key computes them in SQL from the rows of
the conversation. Sources: `src/infrastructure/postgres/conversations.rs:593–616`,
`link_identities.rs:214–231`, `migrations/0036_public_identifier_schema.sql`.
-/

namespace SiliconDm.Link

open Base List
open Server (ActorType)

/-! ## Bytes -/

/-- `str::as_bytes`, `convert_to(…, 'UTF8')`. -/
def utf8 (s : String) : List UInt8 :=
  s.toByteArray.data.toList

theorem utf8_injective : Function.Injective utf8 := by
  intro s t h
  apply String.toByteArray_inj.mp
  exact ByteArray.ext (Array.toList_inj.mp h)

def toBeBytes (n : Nat) : List UInt8 :=
  (numeral 256 8 n).map UInt8.ofNat

/-- A string no longer than the address space allows. -/
def Fits (s : String) : Prop :=
  (utf8 s).length < 2 ^ 63

instance (s : String) : Decidable (Fits s) :=
  inferInstanceAs (Decidable (_ < _))

theorem length_toBeBytes {n : Nat} (h : n < 2 ^ 64) : (toBeBytes n).length = 8 := by
  have hdig : (Nat.digits 256 n).length ≤ 8 :=
    (Nat.digits_length_le_iff (by omega) n).mpr (by omega)
  rw [toBeBytes, length_map, length_numeral]
  omega

theorem toBeBytes_inj {n m : Nat} (h : toBeBytes n = toBeBytes m) : n = m := by
  have hread : ∀ k, (toBeBytes k).map UInt8.toNat = numeral 256 8 k := by
    intro k
    rw [toBeBytes, List.map_map]
    conv_rhs => rw [← List.map_id (numeral 256 8 k)]
    apply map_congr_left
    intro d hd
    exact Nat.mod_eq_of_lt (lt_of_mem_numeral (by omega) hd)
  rw [← readDigits_numeral 256 8 n, ← hread n, h, hread m, readDigits_numeral]

/-- Lengths that fit are told apart by their eight bytes. -/
theorem selfDelimiting_toBeBytes : SelfDelimiting (· < 2 ^ 64) toBeBytes :=
  .of_length 8 (fun _ h => length_toBeBytes h) fun _ _ _ _ h => toBeBytes_inj h

/-! ## The order of participants -/

theorem kindText_injective : Function.Injective kindText := by
  intro k l h
  cases k <;> cases l <;> first | rfl | exact absurd h (by decide)

/-- The two fields that participants are compared by. -/
def sortKey (a : ActorType × String) : List (List UInt8) :=
  [utf8 (kindText a.1), utf8 a.2]

theorem sortKey_injective : Function.Injective sortKey := by
  rintro ⟨k, i⟩ ⟨l, j⟩ h
  obtain ⟨hkind, hid⟩ : utf8 (kindText k) = utf8 (kindText l) ∧ utf8 i = utf8 j := by
    simpa [sortKey] using h
  rw [kindText_injective (utf8_injective hkind), utf8_injective hid]

/-- The order of `(left.actor_type, left.id).cmp(…)`, which is that of
`actor_kind::text COLLATE "C", actor_id COLLATE "C"`. -/
def before (a b : ActorType × String) : Prop :=
  sortKey a ≤ sortKey b

instance : DecidableRel before :=
  fun a b => inferInstanceAs (Decidable (sortKey a ≤ sortKey b))

instance : Std.Total before :=
  ⟨fun a b => Std.Total.total (sortKey a) (sortKey b)⟩

instance : IsTrans (ActorType × String) before :=
  ⟨fun _ _ _ h h' => List.le_trans h h'⟩

theorem before_antisymm {a b : ActorType × String} (h : before a b) (h' : before b a) : a = b :=
  sortKey_injective (List.le_antisymm h h')

/-- `canonicalize_participants`: sorted, then without repetitions of a neighbour. -/
def canonicalize (participants : List (ActorType × String)) : List (ActorType × String) :=
  (participants.insertionSort before).destutter (· ≠ ·)

variable {l l' : List (ActorType × String)} {a : ActorType × String}

theorem mem_destutter_ne {α : Type*} [DecidableEq α] {l : List α} {a : α} :
    a ∈ l.destutter (· ≠ ·) ↔ a ∈ l := by
  have haux : ∀ (l : List α) (b : α), a ∈ l.destutter' (· ≠ ·) b ↔ a ∈ b :: l := by
    intro l
    induction l with
    | nil => simp
    | cons c l ih =>
      intro b
      by_cases hbc : b = c
      · rw [destutter'_cons_neg _ (by simpa using hbc), ih, hbc]
        simp
      · rw [destutter'_cons_pos _ hbc, mem_cons, ih, mem_cons (b := b)]
  cases l with
  | nil => simp
  | cons b l => exact haux l b

theorem mem_canonicalize : a ∈ canonicalize l ↔ a ∈ l := by
  rw [canonicalize, mem_destutter_ne]
  exact (perm_insertionSort before l).mem_iff

theorem sorted_canonicalize (l : List (ActorType × String)) :
    (canonicalize l).Pairwise before :=
  (pairwise_insertionSort before l).sublist (destutter_sublist _ _)

/-- In a sorted list without equal neighbours no two elements are equal. -/
theorem nodup_of_isChain_ne (hle : l.Pairwise before) (hne : l.IsChain (· ≠ ·)) : l.Nodup := by
  induction l with
  | nil => exact nodup_nil
  | cons a l ih =>
    obtain ⟨ha, hl⟩ := pairwise_cons.mp hle
    refine nodup_cons.mpr ⟨fun hm => ?_, ih hl hne.tail⟩
    cases l with
    | nil => cases hm
    | cons b l =>
      -- what comes back after `b` is `b` itself
      have hab : before a b := ha b mem_cons_self
      have hba : before b a := by
        rcases mem_cons.mp hm with rfl | hrest
        · exact hab
        · exact (pairwise_cons.mp hl).1 a hrest
      exact (isChain_cons_cons.mp hne).1 (before_antisymm hab hba)

theorem nodup_canonicalize (l : List (ActorType × String)) : (canonicalize l).Nodup :=
  nodup_of_isChain_ne (sorted_canonicalize l) (isChain_destutter _ _)

/-- Sorted lists of the same elements, without repetitions, are one list. -/
theorem eq_of_sorted (hs : l.Pairwise before) (hs' : l'.Pairwise before) (hn : l.Nodup)
    (hn' : l'.Nodup) (h : ∀ a, a ∈ l ↔ a ∈ l') : l = l' := by
  refine List.Perm.eq_of_pairwise (fun a b _ _ hab hba => before_antisymm hab hba) hs hs' ?_
  exact (perm_ext_iff_of_nodup hn hn').mpr h

/-- Callers who name one set in any order, with any repetitions, have one canonical list. -/
theorem canonicalize_eq_iff : canonicalize l = canonicalize l' ↔ ∀ a, a ∈ l ↔ a ∈ l' := by
  constructor
  · intro h a
    rw [← mem_canonicalize, h, mem_canonicalize]
  · intro h
    apply eq_of_sorted (sorted_canonicalize l) (sorted_canonicalize l') (nodup_canonicalize l)
      (nodup_canonicalize l')
    intro a
    rw [mem_canonicalize, mem_canonicalize, h]

/-! ## The bytes the service hashes -/

/-- `u64::try_from(len).unwrap_or(u64::MAX).to_be_bytes()` and the bytes. -/
def framed (bytes : List UInt8) : List UInt8 :=
  toBeBytes (min bytes.length (2 ^ 64 - 1)) ++ bytes

/-- What `participant_set_hash` feeds its hasher. `conversations.rs:603–616`. -/
def preimage (participants : List (ActorType × String)) : List UInt8 :=
  participants.flatMap fun a => framed (utf8 (kindText a.1)) ++ framed (utf8 a.2)

variable {H : Type}

/-- `participant_set_hash` under a hash function. -/
def participantSetHash (sha256 : List UInt8 → H) (participants : List (ActorType × String)) : H :=
  sha256 (preimage participants)

theorem selfDelimiting_framed :
    SelfDelimiting (fun bytes : List UInt8 => bytes.length < 2 ^ 64) framed := by
  intro xs ys hx hy r s h
  refine selfDelimiting_toBeBytes.framed xs ys hx hy r s ?_
  unfold framed at h
  rwa [Nat.min_eq_left (by omega), Nat.min_eq_left (by omega)] at h

theorem fits_kindText (k : ActorType) : Fits (kindText k) := by
  cases k <;> decide

/-- The preimage determines the list of participants. -/
theorem preimage_inj (hl : ∀ a ∈ l, Fits a.2) (hl' : ∀ a ∈ l', Fits a.2)
    (h : preimage l = preimage l') : l = l' := by
  have hcode := (selfDelimiting_framed.comp (utf8_injective.comp kindText_injective)).append
    (selfDelimiting_framed.comp utf8_injective)
  have hfits : ∀ s, Fits s → (utf8 s).length < 2 ^ 64 := fun s hs => lt_trans hs (by norm_num)
  refine hcode.flatMap_inj ?_ (fun a ha => ?_) (fun a ha => ?_) h
  · intro a hnil
    have hlen := congrArg List.length hnil
    simp [framed, toBeBytes, length_numeral] at hlen
  · exact ⟨hfits _ (fits_kindText a.1), hfits _ (hl a ha)⟩
  · exact ⟨hfits _ (fits_kindText a.1), hfits _ (hl' a ha)⟩

/-! ## The bytes the re-key hashes -/

/-- `int8send`: the eight bytes of a 64-bit number. -/
def int8send (n : Nat) : List UInt8 :=
  toBeBytes (n % 2 ^ 64)

/-- `ORDER BY actor_kind::text COLLATE "C", actor_id COLLATE "C"`. -/
def ordered (rows : Multiset (ActorType × String)) : List (ActorType × String) :=
  Quot.liftOn rows (·.insertionSort before) fun l l' h =>
    List.Perm.eq_of_pairwise (fun _ _ _ _ hab hba => before_antisymm hab hba)
      (pairwise_insertionSort before l) (pairwise_insertionSort before l')
      (((perm_insertionSort before l).trans h).trans
        (perm_insertionSort before l').symm)

/-- `string_agg` over the rows of one conversation. `link_identities.rs:219–221`. -/
def sqlPreimage (rows : Multiset (ActorType × String)) : List UInt8 :=
  (ordered rows).flatMap fun a =>
    int8send (utf8 (kindText a.1)).length ++ utf8 (kindText a.1) ++
      (int8send (utf8 a.2).length ++ utf8 a.2)

/-- The hash of a conversation's rows. -/
def rowsHash (sha256 : List UInt8 → H) (rows : Multiset (ActorType × String)) : H :=
  sha256 (sqlPreimage rows)

theorem coe_ordered (rows : Multiset (ActorType × String)) : (ordered rows : Multiset _) = rows := by
  induction rows using Quot.inductionOn with
  | h l => exact Quot.sound (perm_insertionSort before l)

variable {rows : Multiset (ActorType × String)}

theorem mem_ordered : a ∈ ordered rows ↔ a ∈ rows := by
  rw [← Multiset.mem_coe, coe_ordered]

theorem sorted_ordered (rows : Multiset (ActorType × String)) : (ordered rows).Pairwise before := by
  induction rows using Quot.inductionOn with
  | h l => exact pairwise_insertionSort before l

theorem int8send_eq {s : String} (h : Fits s) :
    int8send (utf8 s).length ++ utf8 s = framed (utf8 s) := by
  have hlt : (utf8 s).length < 2 ^ 63 := h
  unfold int8send framed
  rw [Nat.mod_eq_of_lt (by omega), Nat.min_eq_left (by omega)]

/-- SQL hashes the bytes the service hashes for the same list. -/
theorem sqlPreimage_eq (h : ∀ a ∈ rows, Fits a.2) : sqlPreimage rows = preimage (ordered rows) := by
  apply flatMap_congr
  intro a ha
  rw [int8send_eq (fits_kindText a.1), int8send_eq (h a (mem_ordered.mp ha))]

/-- The rows of a conversation are in the order of the canonical list of its participants. -/
theorem ordered_eq_canonicalize (hn : rows.Nodup) (h : ∀ a, a ∈ rows ↔ a ∈ l) :
    ordered rows = canonicalize l := by
  apply eq_of_sorted (sorted_ordered rows) (sorted_canonicalize l) _ (nodup_canonicalize l)
  · intro a
    rw [mem_ordered, mem_canonicalize, h]
  · rw [← Multiset.coe_nodup, coe_ordered]
    exact hn

/-- The re-key's hashes are collision free if SHA-256 is. -/
theorem collisionFree_rowsHash {sha256 : List UInt8 → H} (h : Function.Injective sha256) :
    CollisionFree Fits (rowsHash sha256) := by
  intro M N hM hN heq
  have hbytes := h heq
  rw [sqlPreimage_eq hM, sqlPreimage_eq hN] at hbytes
  rw [← coe_ordered M, ← coe_ordered N]
  congr 1
  exact preimage_inj (fun a ha => hM a (mem_ordered.mp ha)) (fun a ha => hN a (mem_ordered.mp ha))
    hbytes

end SiliconDm.Link
