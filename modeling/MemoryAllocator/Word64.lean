/-
# 64-bit machine words

Unsigned 64-bit arithmetic on natural numbers below `2 ^ 64`, with the wrap-around
written out, and the two masking idioms of systems code: clearing the low bits of a
word (rounding down to a power of two) and clearing a single bit.

The operations are irreducible: a proof uses the lemmas below, never the numerals.
-/
import Mathlib

namespace Word64

/-- Addition modulo `2 ^ 64`. -/
@[irreducible] def add (a b : ℕ) : ℕ := (a + b) % 2 ^ 64

/-- Subtraction modulo `2 ^ 64` of two words. -/
@[irreducible] def sub (a b : ℕ) : ℕ := if b ≤ a then a - b else a + 2 ^ 64 - b

/-- Multiplication modulo `2 ^ 64`. -/
@[irreducible] def mul (a b : ℕ) : ℕ := (a * b) % 2 ^ 64

/-- Left shift modulo `2 ^ 64`. -/
@[irreducible] def shl (a k : ℕ) : ℕ := (a <<< k) % 2 ^ 64

/-- Bitwise complement. -/
@[irreducible] def not (a : ℕ) : ℕ := 2 ^ 64 - 1 - a

theorem add_of_lt {a b : ℕ} (h : a + b < 2 ^ 64) : add a b = a + b := by
  rw [add]
  exact Nat.mod_eq_of_lt h

theorem sub_of_le {a b : ℕ} (hb : b ≤ a) : sub a b = a - b := by
  rw [sub, if_pos hb]

theorem mul_of_lt {a b : ℕ} (h : a * b < 2 ^ 64) : mul a b = a * b := by
  rw [mul]
  exact Nat.mod_eq_of_lt h

theorem shl_of_lt {a k : ℕ} (h : a * 2 ^ k < 2 ^ 64) : shl a k = a * 2 ^ k := by
  rw [shl, Nat.shiftLeft_eq]
  exact Nat.mod_eq_of_lt h

theorem testBit_not {a : ℕ} (ha : a < 2 ^ 64) (i : ℕ) :
    (not a).testBit i = (decide (i < 64) && !a.testBit i) := by
  rw [not, show 2 ^ 64 - 1 - a = 2 ^ 64 - (a + 1) by omega]
  exact Nat.testBit_two_pow_sub_succ ha i

/-- Bits past the word are clear. -/
theorem testBit_of_le {a i : ℕ} (ha : a < 2 ^ 64) (hi : 64 ≤ i) : a.testBit i = false :=
  Nat.testBit_eq_false_of_lt (ha.trans_le (Nat.pow_le_pow_right (by norm_num) hi))

/-- Masking with the complement of `2 ^ n - 1` rounds down to a multiple of `2 ^ n`. -/
theorem land_not_low {x n : ℕ} (hx : x < 2 ^ 64) (hn : n ≤ 64) :
    x &&& not (2 ^ n - 1) = x / 2 ^ n * 2 ^ n := by
  have hpos : 0 < 2 ^ n := by positivity
  have hle : 2 ^ n ≤ 2 ^ 64 := Nat.pow_le_pow_right (by norm_num) hn
  apply Nat.eq_of_testBit_eq
  intro i
  rw [Nat.testBit_and, testBit_not (by omega), Nat.testBit_two_pow_sub_one,
    Nat.testBit_mul_two_pow, Nat.testBit_div_two_pow]
  by_cases hi : n ≤ i
  · rw [Nat.sub_add_cancel hi]
    by_cases h64 : i < 64
    · simp [hi, h64]
    · simp [testBit_of_le hx (not_lt.mp h64)]
  · simp [hi, not_le.mp hi]

/-- Masking with the complement of `2 ^ n` clears bit `n`: a multiple of `2 ^ n` goes
down to a multiple of `2 ^ (n + 1)`. -/
theorem land_not_bit {q n : ℕ} (hx : q * 2 ^ n < 2 ^ 64) (hn : n < 64) :
    q * 2 ^ n &&& not (2 ^ n) = q / 2 * 2 ^ (n + 1) := by
  have hlt : 2 ^ n < 2 ^ 64 := Nat.pow_lt_pow_right (by norm_num) hn
  apply Nat.eq_of_testBit_eq
  intro i
  rw [Nat.testBit_and, testBit_not hlt, Nat.testBit_two_pow, Nat.testBit_mul_two_pow,
    Nat.testBit_mul_two_pow, ← Nat.testBit_add_one]
  rcases lt_trichotomy i n with hi | rfl | hi
  · simp [not_le.mpr hi, show ¬ n + 1 ≤ i by omega]
  · simp
  · have hbit : i - (n + 1) + 1 = i - n := by omega
    rw [hbit]
    by_cases h64 : i < 64
    · simp [hi.le, h64, show n ≠ i by omega, show n + 1 ≤ i by omega]
    · have hclear := testBit_of_le hx (not_lt.mp h64)
      rw [Nat.testBit_mul_two_pow] at hclear
      simp only [hi.le, decide_true, Bool.true_and] at hclear
      simp [hclear]

/-- Clearing bit `n` leaves the bits above and below it. -/
theorem land_not_two_pow {x n : ℕ} (hx : x < 2 ^ 64) (hn : n < 64) :
    x &&& not (2 ^ n) = 2 ^ (n + 1) * (x / 2 ^ (n + 1)) + x % 2 ^ n := by
  have hlt : 2 ^ n < 2 ^ 64 := Nat.pow_lt_pow_right (by norm_num) hn
  have hlow : x % 2 ^ n < 2 ^ (n + 1) := by
    have hmod := Nat.mod_lt x (Nat.two_pow_pos n)
    rw [pow_succ]
    omega
  apply Nat.eq_of_testBit_eq
  intro i
  rw [Nat.testBit_and, testBit_not hlt, Nat.testBit_two_pow, Nat.testBit_two_pow_mul_add _ hlow,
    Nat.testBit_div_two_pow, Nat.testBit_mod_two_pow]
  rcases lt_trichotomy i n with hi | rfl | hi
  · simp [hi, show i < n + 1 by omega, show i < 64 by omega, hi.ne']
  · simp
  · rw [if_neg (by omega), Nat.sub_add_cancel (by omega)]
    by_cases h64 : i < 64
    · simp [h64, hi.ne]
    · simp [testBit_of_le hx (not_lt.mp h64)]

/-- Clearing bit `n` subtracts it. -/
theorem land_not_two_pow_add {x n : ℕ} (hx : x < 2 ^ 64) (hn : n < 64) :
    (x &&& not (2 ^ n)) + 2 ^ n * (x / 2 ^ n % 2) = x := by
  rw [land_not_two_pow hx hn, add_assoc, ← Nat.mod_pow_succ]
  exact Nat.div_add_mod x (2 ^ (n + 1))

theorem land_two_pow_eq_zero_iff (x n : ℕ) : x &&& 2 ^ n = 0 ↔ x / 2 ^ n % 2 = 0 := by
  rw [Nat.and_two_pow, Nat.testBit_eq_decide_div_mod_eq]
  rcases Nat.mod_two_eq_zero_or_one (x / 2 ^ n) with h | h
  · simp [h]
  · simp [h]

/-- **Clearing a bit of a sum.**  Beside a multiple of `2 ^ n`, bit `n` may be cleared in
the sum instead of in the multiple exactly when the other summand does not have it. -/
theorem add_land_not_two_pow_iff {x q n : ℕ} (h : x + q * 2 ^ n < 2 ^ 64) (hn : n < 64) :
    (x + q * 2 ^ n) &&& not (2 ^ n) = x + (q * 2 ^ n &&& not (2 ^ n)) ↔ x &&& 2 ^ n = 0 := by
  have hpos : 0 < 2 ^ n := Nat.two_pow_pos n
  have hsum := land_not_two_pow_add h hn
  have hq := land_not_two_pow_add (show q * 2 ^ n < 2 ^ 64 by omega) hn
  rw [Nat.add_mul_div_right _ _ hpos] at hsum
  rw [Nat.mul_div_cancel _ hpos] at hq
  -- both sides miss the sum by the bit they clear
  have hbits : (x + q * 2 ^ n) &&& not (2 ^ n) = x + (q * 2 ^ n &&& not (2 ^ n)) ↔
      2 ^ n * ((x / 2 ^ n + q) % 2) = 2 ^ n * (q % 2) := by omega
  rw [hbits, Nat.mul_right_inj hpos.ne', land_two_pow_eq_zero_iff]
  omega

/-- Exclusive or with `2 ^ n` exchanges the two multiples of `2 ^ n` of a pair. -/
theorem xor_two_pow (q n : ℕ) : q * 2 ^ n ^^^ 2 ^ n = (q ^^^ 1) * 2 ^ n := by
  have h := Nat.shiftLeft_xor_distrib (a := q) (b := 1) (i := n)
  rw [Nat.shiftLeft_eq, Nat.shiftLeft_eq, Nat.shiftLeft_eq, one_mul] at h
  exact h.symm

end Word64
