import Mathlib.Data.Nat.Digits.Lemmas
import Mathlib.Data.List.Lex

/-!
# Numerals of a minimum width

The digits of a number in a base, first digit first and filled with zeros to a width. Numbers
and such numerals determine each other, and numerals are in the order of their numbers when
they are compared by length first and then digit by digit.
-/

namespace SiliconDm.Base

open List

/-- The digits of `n`, at least `w` of them. -/
def numeral (b w n : Nat) : List Nat :=
  List.replicate (w - (b.digits n).length) 0 ++ (b.digits n).reverse

/-- The number of a digit string, as a left-to-right loop reads it. -/
def readDigits (b : Nat) (digits : List Nat) : Nat :=
  digits.foldl (fun value digit => value * b + digit) 0

variable {b w n m : Nat}

theorem foldl_digits (digits : List Nat) (value : Nat) :
    digits.foldl (fun value digit => value * b + digit) value =
      value * b ^ digits.length + readDigits b digits := by
  unfold readDigits
  induction digits generalizing value with
  | nil => simp
  | cons d digits ih =>
    rw [foldl_cons, foldl_cons, ih, ih (0 * b + d), length_cons]
    ring

theorem readDigits_cons (d : Nat) (digits : List Nat) :
    readDigits b (d :: digits) = d * b ^ digits.length + readDigits b digits := by
  show digits.foldl _ (0 * b + d) = _
  rw [foldl_digits]
  ring

theorem readDigits_append (xs ys : List Nat) :
    readDigits b (xs ++ ys) = readDigits b xs * b ^ ys.length + readDigits b ys := by
  show (xs ++ ys).foldl _ 0 = _
  rw [foldl_append, foldl_digits]
  rfl

theorem readDigits_replicate (k : Nat) : readDigits b (List.replicate k 0) = 0 := by
  induction k with
  | zero => rfl
  | succ k ih =>
    rw [replicate_succ, readDigits_cons, ih]
    simp

theorem readDigits_reverse (digits : List Nat) :
    readDigits b digits.reverse = Nat.ofDigits b digits := by
  induction digits with
  | nil => rfl
  | cons d digits ih =>
    rw [reverse_cons, readDigits_append, ih, Nat.ofDigits_cons]
    show _ * b ^ 1 + (0 * b + d) = _
    ring

/-- A numeral reads as its number. -/
theorem readDigits_numeral (b w n : Nat) : readDigits b (numeral b w n) = n := by
  unfold numeral
  rw [readDigits_append, readDigits_replicate, readDigits_reverse, Nat.ofDigits_digits]
  omega

theorem length_numeral (b w n : Nat) :
    (numeral b w n).length = max w (b.digits n).length := by
  simp only [numeral, length_append, length_replicate, length_reverse]
  omega

theorem lt_of_mem_numeral (hb : 1 < b) {d : Nat} (h : d ∈ numeral b w n) : d < b := by
  rcases mem_append.mp h with h | h
  · rw [eq_of_mem_replicate h]
    omega
  · exact Nat.digits_lt_base hb (mem_reverse.mp h)

/-! ### Order -/

theorem readDigits_lt {digits : List Nat} (h : ∀ d ∈ digits, d < b) :
    readDigits b digits < b ^ digits.length := by
  induction digits with
  | nil => exact Nat.one_pos
  | cons d digits ih =>
    have hd : d + 1 ≤ b := h d mem_cons_self
    have hrest := ih fun d' hd' => h d' (mem_cons_of_mem _ hd')
    rw [readDigits_cons, length_cons, pow_succ, Nat.mul_comm (b ^ _)]
    calc d * b ^ digits.length + readDigits b digits
        < d * b ^ digits.length + b ^ digits.length := by omega
      _ = (d + 1) * b ^ digits.length := by ring
      _ ≤ b * b ^ digits.length := Nat.mul_le_mul_right _ hd

/-- Digit strings of one length are in the order of the numbers they read as. -/
theorem readDigits_lt_readDigits_iff {xs ys : List Nat}
    (hlen : xs.length = ys.length) (hx : ∀ d ∈ xs, d < b) (hy : ∀ d ∈ ys, d < b) :
    readDigits b xs < readDigits b ys ↔ xs < ys := by
  induction xs generalizing ys with
  | nil =>
    obtain rfl := length_eq_zero_iff.mp hlen.symm
    simp
  | cons x xs ih =>
    cases ys with
    | nil => simp at hlen
    | cons y ys =>
      have hlen : xs.length = ys.length := by simpa using hlen
      have hx' := readDigits_lt fun d hd => hx d (mem_cons_of_mem _ hd)
      have hy' := readDigits_lt fun d hd => hy d (mem_cons_of_mem _ hd)
      rw [readDigits_cons, readDigits_cons, cons_lt_cons_iff, ← hlen,
        ← ih hlen (fun d hd => hx d (mem_cons_of_mem _ hd))
          fun d hd => hy d (mem_cons_of_mem _ hd)]
      rw [← hlen] at hy'
      generalize b ^ xs.length = B at hx' hy' ⊢
      rcases Nat.lt_trichotomy x y with hlt | rfl | hgt
      · have hstep : x * B + B ≤ y * B := by
          calc x * B + B = (x + 1) * B := by ring
            _ ≤ y * B := Nat.mul_le_mul_right B hlt
        exact ⟨fun _ => .inl hlt, fun _ => by omega⟩
      · constructor
        · intro h
          exact .inr ⟨rfl, by omega⟩
        · rintro (h | ⟨-, h⟩) <;> omega
      · have hstep : y * B + B ≤ x * B := by
          calc y * B + B = (y + 1) * B := by ring
            _ ≤ x * B := Nat.mul_le_mul_right B hgt
        constructor
        · intro h
          omega
        · rintro (h | ⟨h, -⟩) <;> omega

/-- A longer numeral is of a larger number. -/
theorem lt_of_length_numeral_lt
    (h : (numeral b w n).length < (numeral b w m).length) : n < m := by
  rw [length_numeral, length_numeral] at h
  by_contra hle
  have := Nat.le_length_digits_le b m n (by omega)
  omega

/-- Numerals are in the order of their numbers, shorter ones first. -/
theorem lt_iff_numeral_lt (hb : 1 < b) : n < m ↔
    (numeral b w n).length < (numeral b w m).length ∨
      (numeral b w n).length = (numeral b w m).length ∧ numeral b w n < numeral b w m := by
  have hsame : (numeral b w n).length = (numeral b w m).length →
      (n < m ↔ numeral b w n < numeral b w m) := by
    intro hlen
    rw [← readDigits_lt_readDigits_iff hlen (fun d => lt_of_mem_numeral hb)
      fun d => lt_of_mem_numeral hb, readDigits_numeral, readDigits_numeral]
  constructor
  · intro h
    rcases Nat.lt_trichotomy (numeral b w n).length (numeral b w m).length with hl | hl | hl
    · exact .inl hl
    · exact .inr ⟨hl, (hsame hl).mp h⟩
    · have := lt_of_length_numeral_lt hl
      omega
  · rintro (hl | ⟨hl, hlt⟩)
    · exact lt_of_length_numeral_lt hl
    · exact (hsame hl).mpr hlt

end SiliconDm.Base
