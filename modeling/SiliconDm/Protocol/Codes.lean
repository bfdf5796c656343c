import SiliconDm.Base.Numeral
import Mathlib.Tactic.Lift

/-!
# Message and bundle codes

Messages and bundles are addressed by base-36 numerals of their sequence in the conversation,
`crates/protocol/src/lib.rs`. A message sequence starts at one and its code at `000`; a bundle
sequence starts at one and its code at `001`. An `i64` is an `Int`, with the checked operations
of the source.
-/

namespace SiliconDm.Protocol

open Base List Option

/-- `i64::MAX`. -/
def i64Max : Int := 2 ^ 63 - 1

/-- The result of a checked `i64` operation. -/
def checkedI64 (value : Int) : Option Int :=
  if -(2 ^ 63) ≤ value ∧ value ≤ i64Max then some value else none

def digitChars : List Char := "0123456789abcdefghijklmnopqrstuvwxyz".toList

def digitChar (digit : Nat) : Char := digitChars.getD digit '0'

/-- The division loop of `message_code`: the digits of a value from the last one. -/
def pushDigits (value : Nat) : List Char :=
  digitChar (value % 36) :: if value / 36 = 0 then [] else pushDigits (value / 36)
termination_by value
decreasing_by omega

def messageCode (sequence : Int) : Option String := do
  let value ← (← checkedI64 (sequence - 1)).toNat?
  let digits := pushDigits value
  let digits := digits ++ List.replicate (3 - digits.length) '0'
  -- every byte pushed is an ASCII digit or letter, so `String::from_utf8` succeeds
  some (String.ofList digits.reverse)

/-- The value of a digit byte: `0` to `9`, then `a` to `z`. -/
def digitValue (byte : UInt8) : Option Nat :=
  if 48 ≤ byte ∧ byte ≤ 57 then some (byte - 48).toNat
  else if 97 ≤ byte ∧ byte ≤ 122 then some (byte - 97 + 10).toNat
  else none

/-- One round of the loop of `message_sequence`. -/
def readByte (value : Int) (byte : UInt8) : Option Int := do
  let digit ← digitValue byte
  checkedI64 ((← checkedI64 (value * 36)) + digit)

def messageSequence (code : String) : Option Int :=
  if 3 ≤ code.utf8ByteSize ∧ code.utf8ByteSize ≤ 13 then do
    let value ← code.toByteArray.data.toList.foldlM readByte 0
    let sequence ← checkedI64 (value + 1)
    if (← messageCode sequence) = code then some sequence else none
  else none

def bundleCode (sequence : Int) : Option String :=
  if sequence < 1 then none
  else do messageCode (← checkedI64 (sequence + 1))

def bundleSequence (code : String) : Option Int := do
  let sequence ← checkedI64 ((← messageSequence code) - 1)
  if sequence > 0 then some sequence else none

/-! ### Codes are numerals -/

/-- The code of a value is its base-36 numeral of at least three digits. -/
def codeOf (value : Nat) : String := String.ofList ((numeral 36 3 value).map digitChar)

theorem checkedI64_eq_some {value result : Int} : checkedI64 value = some result ↔
    -(2 ^ 63) ≤ value ∧ value ≤ i64Max ∧ result = value := by
  unfold checkedI64
  split_ifs with h
  · rw [Option.some.injEq, eq_comm]
    exact ⟨fun heq => ⟨h.1, h.2, heq⟩, fun heq => heq.2.2⟩
  · exact ⟨nofun, fun heq => absurd ⟨heq.1, heq.2.1⟩ h⟩

theorem checkedI64_of_le {value : Int} (hlow : 0 ≤ value) (hhigh : value ≤ i64Max) :
    checkedI64 value = some value :=
  checkedI64_eq_some.mpr ⟨by omega, hhigh, rfl⟩

theorem pushDigits_pos {value : Nat} (h : 0 < value) :
    pushDigits value = (Nat.digits 36 value).map digitChar := by
  induction value using Nat.strong_induction_on with
  | h value ih =>
    rw [pushDigits, Nat.digits_def' (by omega) h, map_cons]
    split_ifs with hlast
    · rw [hlast, Nat.digits_zero, map_nil]
    · rw [ih (value / 36) (by omega) (by omega)]

/-- The loop and the padding after it write the numeral. -/
theorem padded_pushDigits (value : Nat) :
    (pushDigits value ++ List.replicate (3 - (pushDigits value).length) '0').reverse =
      (numeral 36 3 value).map digitChar := by
  have hzero : digitChar 0 = '0' := rfl
  by_cases h : value = 0
  · subst h
    rw [pushDigits]
    rfl
  · rw [pushDigits_pos (by omega), reverse_append, reverse_replicate, numeral,
      map_append, map_replicate, map_reverse, length_map, hzero]

variable {sequence : Int} {code : String}

theorem messageCode_eq_some : messageCode sequence = some code ↔
    1 ≤ sequence ∧ sequence - 1 ≤ i64Max ∧ code = codeOf (sequence - 1).toNat := by
  unfold messageCode codeOf
  simp only [bind_eq_bind, bind_eq_some_iff, checkedI64_eq_some,
    padded_pushDigits, Option.some.injEq]
  constructor
  · rintro ⟨_, ⟨-, hhigh, rfl⟩, value, hvalue, rfl⟩
    obtain ⟨hle, rfl⟩ : 0 ≤ sequence - 1 ∧ (sequence - 1).toNat = value := by
      cases hs : sequence - 1 with
      | ofNat v =>
        rw [hs] at hvalue
        exact ⟨Int.natCast_nonneg v, Option.some.inj hvalue⟩
      | negSucc v =>
        rw [hs] at hvalue
        cases hvalue
    exact ⟨by omega, hhigh, rfl⟩
  · rintro ⟨hlow, hhigh, rfl⟩
    refine ⟨sequence - 1, ⟨by omega, hhigh, rfl⟩, (sequence - 1).toNat, ?_, rfl⟩
    lift sequence - 1 to Nat using (by omega) with v
    rfl

/-! ### Reading a code back -/

def digitByte (digit : Nat) : UInt8 := (digitChar digit).val.toUInt8

theorem digitValue_digitByte {digit : Nat} (h : digit < 36) :
    digitValue (digitByte digit) = some digit := by
  have hall : ∀ d ∈ List.range 36, digitValue (digitByte d) = some d := by decide +kernel
  exact hall digit (mem_range.mpr h)

theorem utf8EncodeChar_digitChar {digit : Nat} (h : digit < 36) :
    String.utf8EncodeChar (digitChar digit) = [digitByte digit] := by
  have hall : ∀ d ∈ List.range 36, String.utf8EncodeChar (digitChar d) = [digitByte d] := by
    decide +kernel
  exact hall digit (mem_range.mpr h)

theorem bytes_codeOf (value : Nat) :
    (codeOf value).toByteArray.data.toList = (numeral 36 3 value).map digitByte := by
  have hm : ∀ d ∈ numeral 36 3 value, d < 36 := fun d => lt_of_mem_numeral (by omega)
  rw [codeOf, String.toByteArray_ofList, List.utf8Encode]
  generalize numeral 36 3 value = digits at hm
  have hbytes : (digits.map digitChar).flatMap String.utf8EncodeChar =
      digits.map digitByte := by
    induction digits with
    | nil => rfl
    | cons d digits ih =>
      rw [map_cons, flatMap_cons, utf8EncodeChar_digitChar (hm d mem_cons_self),
        ih fun d' hd' => hm d' (mem_cons_of_mem _ hd')]
      rfl
  rw [hbytes]
  simp

theorem utf8ByteSize_codeOf (value : Nat) :
    (codeOf value).utf8ByteSize = (numeral 36 3 value).length := by
  rw [← String.size_toByteArray, ByteArray.size, ← Array.length_toList, bytes_codeOf,
    length_map]

/-- Reading digits does not overflow when the number they stand for does not: the value of the
loop only grows. -/
theorem foldlM_readByte {digits : List Nat} (hdig : ∀ d ∈ digits, d < 36) (value : Nat)
    (hmax : (digits.foldl (fun value digit => value * 36 + digit) value : Nat) ≤ i64Max) :
    (digits.map digitByte).foldlM readByte (value : Int) =
      some (digits.foldl (fun value digit => value * 36 + digit) value : Nat) := by
  induction digits generalizing value with
  | nil => rfl
  | cons d digits ih =>
    have hgrows := foldl_digits (b := 36) digits (value * 36 + d)
    have hone : 1 ≤ 36 ^ digits.length := Nat.one_le_pow _ _ (by omega)
    have hstep : value * 36 + d ≤ digits.foldl (fun value digit => value * 36 + digit)
        (value * 36 + d) := by
      rw [hgrows]
      calc value * 36 + d = (value * 36 + d) * 1 := by ring
        _ ≤ (value * 36 + d) * 36 ^ digits.length := Nat.mul_le_mul_left _ hone
        _ ≤ _ := by omega
    rw [foldl_cons] at hmax
    have hread : readByte value (digitByte d) = some ((value * 36 + d : Nat) : Int) := by
      unfold readByte
      rw [digitValue_digitByte (hdig d mem_cons_self)]
      simp only [bind_eq_bind, bind_some]
      rw [checkedI64_of_le (by omega) (by omega), bind_some,
        checkedI64_of_le (by omega) (by omega)]
      push_cast
      rfl
    rw [map_cons, foldlM_cons, hread, foldl_cons]
    exact ih (fun d' hd' => hdig d' (mem_cons_of_mem _ hd')) _ hmax

theorem length_numeral_le {value : Nat} (h : (value : Int) ≤ i64Max) :
    (numeral 36 3 value).length ≤ 13 := by
  rw [length_numeral]
  apply max_le (by omega)
  rw [Nat.digits_length_le_iff (by omega)]
  unfold i64Max at h
  omega

/-- The codes that `message_sequence` accepts are those that `message_code` writes, and it reads
the sequence they were written for. -/
theorem messageSequence_eq_some :
    messageSequence code = some sequence ↔
      sequence ≤ i64Max ∧ messageCode sequence = some code := by
  constructor
  · intro h
    unfold messageSequence at h
    split_ifs at h
    simp only [bind_eq_bind, bind_eq_some_iff, checkedI64_eq_some] at h
    obtain ⟨value, -, _, ⟨-, hhigh, rfl⟩, written, hwr, h⟩ := h
    split_ifs at h with heq
    cases h
    exact ⟨hhigh, by rw [hwr, heq]⟩
  · rintro ⟨hmax, hcode⟩
    obtain ⟨hlow, -, rfl⟩ := messageCode_eq_some.mp hcode
    obtain ⟨v, hv⟩ := Int.eq_ofNat_of_zero_le (by omega : 0 ≤ sequence - 1)
    obtain rfl : sequence = v + 1 := by omega
    have hnat : ((v : Int) + 1 - 1).toNat = v := by omega
    rw [hnat] at hcode ⊢
    have hlen : (numeral 36 3 v).length ≤ 13 := length_numeral_le (by omega)
    have hthree : 3 ≤ (numeral 36 3 v).length := by
      rw [length_numeral]
      exact le_max_left _ _
    have hdig : ∀ d ∈ numeral 36 3 v, d < 36 := fun d => lt_of_mem_numeral (by omega)
    have hread := foldlM_readByte hdig 0 (by
      show (readDigits 36 (numeral 36 3 v) : Int) ≤ _
      rw [readDigits_numeral]
      omega)
    unfold messageSequence
    rw [utf8ByteSize_codeOf, if_pos ⟨hthree, hlen⟩, bytes_codeOf]
    change _ = some (readDigits 36 (numeral 36 3 v) : Int) at hread
    rw [readDigits_numeral] at hread
    simp only [bind_eq_bind, bind_eq_some_iff]
    refine ⟨v, hread, v + 1, checkedI64_of_le (by omega) hmax, codeOf v, hcode, ?_⟩
    rw [if_pos rfl]

theorem bundleCode_eq_some : bundleCode sequence = some code ↔
    1 ≤ sequence ∧ sequence + 1 ≤ i64Max ∧ messageCode (sequence + 1) = some code := by
  unfold bundleCode
  split_ifs with h
  · exact ⟨nofun, fun heq => absurd heq.1 (by omega)⟩
  · simp only [bind_eq_bind, bind_eq_some_iff, checkedI64_eq_some]
    constructor
    · rintro ⟨_, ⟨-, hhigh, rfl⟩, hcode⟩
      exact ⟨by omega, hhigh, hcode⟩
    · rintro ⟨hlow, hhigh, hcode⟩
      exact ⟨_, ⟨by omega, hhigh, rfl⟩, hcode⟩

/-- `bundle_sequence` reads exactly what `bundle_code` writes. -/
theorem bundleSequence_eq_some :
    bundleSequence code = some sequence ↔ bundleCode sequence = some code := by
  rw [bundleCode_eq_some]
  unfold bundleSequence
  simp only [bind_eq_bind, bind_eq_some_iff, checkedI64_eq_some,
    messageSequence_eq_some]
  constructor
  · rintro ⟨message, ⟨hmax, hcode⟩, _, ⟨-, -, rfl⟩, h⟩
    split_ifs at h with hpos
    cases h
    rw [Int.sub_add_cancel]
    exact ⟨by omega, hmax, hcode⟩
  · rintro ⟨hlow, hmax, hcode⟩
    refine ⟨sequence + 1, ⟨hmax, hcode⟩, sequence, ⟨by omega, by omega, by omega⟩, ?_⟩
    rw [if_pos (by omega)]

/-! ### Order of codes -/

theorem digitChar_lt_iff {d e : Nat} (hd : d < 36) (he : e < 36) :
    digitChar d < digitChar e ↔ d < e := by
  have hall : ∀ d ∈ List.range 36, ∀ e ∈ List.range 36,
      (digitChar d < digitChar e ↔ d < e) := by decide +kernel
  exact hall d (mem_range.mpr hd) e (mem_range.mpr he)

theorem digitChar_inj {d e : Nat} (hd : d < 36) (he : e < 36) :
    digitChar d = digitChar e ↔ d = e := by
  have hall : ∀ d ∈ List.range 36, ∀ e ∈ List.range 36,
      (digitChar d = digitChar e ↔ d = e) := by decide +kernel
  exact hall d (mem_range.mpr hd) e (mem_range.mpr he)

theorem map_digitChar_lt_iff {xs ys : List Nat} (hx : ∀ d ∈ xs, d < 36) (hy : ∀ d ∈ ys, d < 36) :
    xs.map digitChar < ys.map digitChar ↔ xs < ys := by
  induction xs generalizing ys with
  | nil => cases ys <;> simp
  | cons x xs ih =>
    cases ys with
    | nil => simp
    | cons y ys =>
      have hx0 := hx x mem_cons_self
      have hy0 := hy y mem_cons_self
      rw [map_cons, map_cons, cons_lt_cons_iff, cons_lt_cons_iff,
        digitChar_lt_iff hx0 hy0, digitChar_inj hx0 hy0,
        ih (fun d hd => hx d (mem_cons_of_mem _ hd))
          fun d hd => hy d (mem_cons_of_mem _ hd)]

/-- Shorter codes come first, codes of one length are in alphabetical order. -/
def Precedes (s t : String) : Prop := s.length < t.length ∨ s.length = t.length ∧ s < t

theorem precedes_codeOf (v v' : Nat) : Precedes (codeOf v) (codeOf v') ↔ v < v' := by
  have hdig : ∀ v, ∀ d ∈ numeral 36 3 v, d < 36 := fun v d => lt_of_mem_numeral (by omega)
  unfold Precedes codeOf
  rw [String.lt_iff, String.toList_ofList, String.toList_ofList, String.length_ofList,
    String.length_ofList, length_map, length_map,
    map_digitChar_lt_iff (hdig v) (hdig v'), ← lt_iff_numeral_lt (by omega)]

theorem precedes_of_messageCode {n m : Int} {s t : String} (hs : messageCode n = some s)
    (ht : messageCode m = some t) : n < m ↔ Precedes s t := by
  obtain ⟨hn, -, rfl⟩ := messageCode_eq_some.mp hs
  obtain ⟨hm, -, rfl⟩ := messageCode_eq_some.mp ht
  rw [precedes_codeOf]
  omega

/-! ### Codes and sequences determine each other -/

/-- What a pair of code functions promises for the sequences from one to `last`. -/
structure Coding (encode : Int → Option String) (decode : String → Option Int) (last : Int) :
    Prop where
  /-- These are the sequences that have a code. -/
  defined (n : Int) : n ≤ i64Max → ((encode n).isSome ↔ 1 ≤ n ∧ n ≤ last)
  round_trip (n : Int) : 1 ≤ n → n ≤ last → (encode n).bind decode = some n
  /-- Nothing but a code is read: no alias, no other padding, no upper case, no overflow. -/
  accepts (s : String) : (decode s).isSome ↔ ∃ n, 1 ≤ n ∧ n ≤ last ∧ encode n = some s
  ordered (n m : Int) (s t : String) : 1 ≤ n → n ≤ last → 1 ≤ m → m ≤ last →
    encode n = some s → encode m = some t → (n < m ↔ Precedes s t)

theorem coding_message : Coding messageCode messageSequence i64Max where
  defined n hmax := by
    rw [isSome_iff_exists]
    constructor
    · rintro ⟨s, hs⟩
      exact ⟨(messageCode_eq_some.mp hs).1, hmax⟩
    · rintro ⟨hlow, -⟩
      exact ⟨_, messageCode_eq_some.mpr ⟨hlow, by omega, rfl⟩⟩
  round_trip n hlow hmax := by
    have hcode := messageCode_eq_some.mpr ⟨hlow, by omega, rfl⟩
    rw [hcode, bind_some]
    exact messageSequence_eq_some.mpr ⟨hmax, hcode⟩
  accepts s := by
    rw [isSome_iff_exists]
    constructor
    · rintro ⟨n, hn⟩
      obtain ⟨hmax, hcode⟩ := messageSequence_eq_some.mp hn
      exact ⟨n, (messageCode_eq_some.mp hcode).1, hmax, hcode⟩
    · rintro ⟨n, -, hmax, hcode⟩
      exact ⟨n, messageSequence_eq_some.mpr ⟨hmax, hcode⟩⟩
  ordered _ _ _ _ _ _ _ _ := precedes_of_messageCode

theorem coding_bundle : Coding bundleCode bundleSequence (i64Max - 1) where
  defined n hmax := by
    rw [isSome_iff_exists]
    constructor
    · rintro ⟨s, hs⟩
      obtain ⟨hlow, hhigh, -⟩ := bundleCode_eq_some.mp hs
      exact ⟨hlow, by omega⟩
    · rintro ⟨hlow, hhigh⟩
      exact ⟨_, bundleCode_eq_some.mpr ⟨hlow, by omega,
        messageCode_eq_some.mpr ⟨by omega, by omega, rfl⟩⟩⟩
  round_trip n hlow hmax := by
    have hcode := bundleCode_eq_some.mpr ⟨hlow, by omega,
      messageCode_eq_some.mpr ⟨by omega, by omega, rfl⟩⟩
    rw [hcode, bind_some]
    exact bundleSequence_eq_some.mpr hcode
  accepts s := by
    rw [isSome_iff_exists]
    constructor
    · rintro ⟨n, hn⟩
      have hcode := bundleSequence_eq_some.mp hn
      obtain ⟨hlow, hhigh, -⟩ := bundleCode_eq_some.mp hcode
      exact ⟨n, hlow, by omega, hcode⟩
    · rintro ⟨n, -, -, hcode⟩
      exact ⟨n, bundleSequence_eq_some.mpr hcode⟩
  ordered n m s t _ _ _ _ hs ht := by
    obtain ⟨-, -, hs⟩ := bundleCode_eq_some.mp hs
    obtain ⟨-, -, ht⟩ := bundleCode_eq_some.mp ht
    rw [← precedes_of_messageCode hs ht]
    omega

/-- Message codes and bundle codes are in one-to-one correspondence with the sequences they
stand for, and in their order. -/
theorem codes_are_bijective :
    Coding messageCode messageSequence i64Max ∧ Coding bundleCode bundleSequence (i64Max - 1) :=
  ⟨coding_message, coding_bundle⟩

example : messageCode 46657 = some "1000" ∧ messageSequence "0000" = none ∧
    messageSequence "zzzzzzzzzzzzz" = none ∧ bundleCode 1 = some "001" := by
  decide +kernel

end SiliconDm.Protocol
