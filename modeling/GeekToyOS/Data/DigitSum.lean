import Mathlib.Algebra.BigOperators.Ring.Finset
import Mathlib.Data.Nat.Bitwise
import Mathlib.Tactic.Ring

/-!
# Adding up the digits of a number

A number packs the values of a function, one a digit. Its bits are such a packing, and a count of the
bits can be made without a loop over them: add up neighbouring digits, all pairs at once, and there are
half as many digits, twice as wide, with the same sum.

Masks do the taking apart. A mask with ones in every other digit keeps these digits and clears the
others; shifted by one digit first, the number shows it the others.

## Main definitions

* `packed k n f` — the number whose digits of `k` bits are `f 0, ..., f (n - 1)`

## Main results

* `packed_pairs` — a number of `2 * n` digits is a number of `n` digits twice as wide
* `packed_and_mask`, `packed_shift_and_mask` — what a mask keeps of it
* `sum_pairs` — the sum of the digits after neighbours are added
* `packed_testBit` — the bits of a number are digits
-/

namespace DigitSum

open Finset

/-- The number whose digits of `k` bits are the first `n` values of `f`. -/
def packed (k n : ℕ) (f : ℕ → ℕ) : ℕ := ∑ i ∈ range n, f i * (2 ^ k) ^ i

theorem packed_succ (k n : ℕ) (f : ℕ → ℕ) : packed k (n + 1) f = packed k n f + f n * (2 ^ k) ^ n :=
  sum_range_succ _ n

theorem packed_add (k n : ℕ) (f g : ℕ → ℕ) :
    packed k n f + packed k n g = packed k n fun i => f i + g i := by
  rw [packed, packed, packed, ← sum_add_distrib]
  exact sum_congr rfl fun i _ => (Nat.add_mul _ _ _).symm

theorem packed_lt {k n : ℕ} {f : ℕ → ℕ} (h : ∀ i, f i < 2 ^ k) : packed k n f < (2 ^ k) ^ n := by
  induction n with
  | zero => simp [packed]
  | succ n ih =>
    have htop : (f n + 1) * (2 ^ k) ^ n ≤ 2 ^ k * (2 ^ k) ^ n := Nat.mul_le_mul_right _ (h n)
    calc packed k (n + 1) f = packed k n f + f n * (2 ^ k) ^ n := packed_succ k n f
      _ < (2 ^ k) ^ n + f n * (2 ^ k) ^ n := Nat.add_lt_add_right ih _
      _ = (f n + 1) * (2 ^ k) ^ n := by ring
      _ ≤ 2 ^ k * (2 ^ k) ^ n := htop
      _ = (2 ^ k) ^ (n + 1) := by ring

/-! ### Pairs of digits -/

/-- **Two digits are one twice as wide**: a number is the sum of its even digits and its odd ones moved up.
-/
theorem packed_pairs (k n : ℕ) (f : ℕ → ℕ) :
    packed k (2 * n) f
      = packed (2 * k) n (fun i => f (2 * i)) + 2 ^ k * packed (2 * k) n fun i => f (2 * i + 1) := by
  induction n with
  | zero => rfl
  | succ n ih =>
    have hpow : (2 ^ (2 * k)) ^ n = (2 ^ k) ^ (2 * n) := by rw [← pow_mul, ← pow_mul]; ring_nf
    rw [show 2 * (n + 1) = 2 * n + 1 + 1 from rfl, packed_succ, packed_succ, packed_succ, packed_succ, ih,
      hpow]
    ring

/-- **Adding up neighbours keeps the sum** of all digits. -/
theorem sum_pairs (n : ℕ) (f : ℕ → ℕ) :
    ∑ i ∈ range n, (f (2 * i) + f (2 * i + 1)) = ∑ i ∈ range (2 * n), f i := by
  induction n with
  | zero => rfl
  | succ n ih =>
    rw [sum_range_succ, ih, show 2 * (n + 1) = 2 * n + 1 + 1 from rfl, sum_range_succ, sum_range_succ,
      Nat.add_assoc]

/-! ### Masks -/

/-- The mask for the lower half of each digit of `2 * k` bits. -/
def halfMask (k n : ℕ) : ℕ := packed (2 * k) n fun _ => 2 ^ k - 1

theorem and_of_lt {s a b x y : ℕ} (ha : a < 2 ^ s) (hb : b < 2 ^ s) :
    (a + x * 2 ^ s) &&& (b + y * 2 ^ s) = (a &&& b) + (x &&& y) * 2 ^ s := by
  have hsplit : ∀ {u v : ℕ}, u < 2 ^ s → ∀ j,
      (u + v * 2 ^ s).testBit j = if j < s then u.testBit j else v.testBit (j - s) := by
    intro u v hu j
    rw [Nat.add_comm, Nat.mul_comm]
    exact Nat.testBit_two_pow_mul_add v hu j
  refine Nat.eq_of_testBit_eq fun j => ?_
  rw [Nat.testBit_and, hsplit ha, hsplit hb, hsplit (lt_of_le_of_lt Nat.and_le_left ha)]
  split <;> rw [Nat.testBit_and]

/-- Digits of `2 * k` bits under the mask: what a digit holds above its lower half is dropped. -/
theorem and_mask {k n : ℕ} {f : ℕ → ℕ} (h : ∀ i, f i < 2 ^ (2 * k)) :
    packed (2 * k) n f &&& halfMask k n = packed (2 * k) n fun i => f i % 2 ^ k := by
  induction n with
  | zero => exact Nat.zero_and _
  | succ n ih =>
    have hlow : 2 ^ k - 1 < 2 ^ (2 * k) :=
      lt_of_lt_of_le (Nat.sub_lt (Nat.two_pow_pos k) Nat.one_pos)
        (Nat.pow_le_pow_right (by norm_num) (by omega))
    have hf : packed (2 * k) n f < 2 ^ (2 * k * n) := by rw [pow_mul]; exact packed_lt h
    have hm : halfMask k n < 2 ^ (2 * k * n) := by rw [pow_mul]; exact packed_lt fun _ => hlow
    have hstep : halfMask k (n + 1) = halfMask k n + (2 ^ k - 1) * 2 ^ (2 * k * n) := by
      rw [halfMask, packed_succ, pow_mul 2 (2 * k) n, halfMask]
    rw [hstep, packed_succ, packed_succ, ← ih, ← pow_mul, and_of_lt hf hm, Nat.and_two_pow_sub_one_eq_mod]

/-- **The mask keeps the even digits**, each with room for two. -/
theorem packed_and_mask {k n : ℕ} {f : ℕ → ℕ} (h : ∀ i, f i < 2 ^ k) :
    packed k (2 * n) f &&& halfMask k n = packed (2 * k) n fun i => f (2 * i) := by
  have hpair : ∀ i, f (2 * i) + 2 ^ k * f (2 * i + 1) < 2 ^ (2 * k) := by
    intro i
    have h0 := h (2 * i)
    have h1 : 2 ^ k * (f (2 * i + 1) + 1) ≤ 2 ^ k * 2 ^ k := Nat.mul_le_mul_left _ (h (2 * i + 1))
    rw [Nat.mul_add, ← pow_add, ← two_mul] at h1
    omega
  have hjoin : packed k (2 * n) f = packed (2 * k) n fun i => f (2 * i) + 2 ^ k * f (2 * i + 1) := by
    rw [packed_pairs, packed, packed, packed, mul_sum, ← sum_add_distrib]
    exact sum_congr rfl fun i _ => by ring
  rw [hjoin, and_mask hpair]
  refine congrArg (packed (2 * k) n) (funext fun i => ?_)
  rw [Nat.add_mul_mod_self_left, Nat.mod_eq_of_lt (h (2 * i))]

/-- Shifting a number by one digit drops the lowest one. -/
theorem packed_shift {k n : ℕ} {f : ℕ → ℕ} (h : ∀ i, f i < 2 ^ k) :
    packed k (n + 1) f / 2 ^ k = packed k n fun i => f (i + 1) := by
  have hsplit : packed k (n + 1) f = f 0 + 2 ^ k * packed k n fun i => f (i + 1) := by
    rw [packed, sum_range_succ', packed, mul_sum, Nat.add_comm]
    refine congrArg₂ _ (by simp) (sum_congr rfl fun i _ => by ring)
  rw [hsplit, Nat.add_mul_div_left _ _ (Nat.two_pow_pos k), Nat.div_eq_of_lt (h 0), Nat.zero_add]

/-- **Shifted by a digit, it keeps the odd ones**, each with room for two. -/
theorem packed_shift_and_mask {k n : ℕ} {f : ℕ → ℕ} (h : ∀ i, f i < 2 ^ k) :
    packed k (2 * n) f / 2 ^ k &&& halfMask k n = packed (2 * k) n fun i => f (2 * i + 1) := by
  cases n with
  | zero => simp [packed]
  | succ n =>
    rw [show 2 * (n + 1) = 2 * n + 1 + 1 from rfl, packed_shift h]
    -- one more digit, which is zero, makes the number of digits even again
    have hpad : packed k (2 * n + 1) (fun i => f (i + 1))
        = packed k (2 * (n + 1)) fun i => if i < 2 * n + 1 then f (i + 1) else 0 := by
      rw [show 2 * (n + 1) = 2 * n + 1 + 1 from rfl, packed_succ k (2 * n + 1), if_neg (lt_irrefl _),
        Nat.zero_mul, Nat.add_zero, packed, packed]
      exact sum_congr rfl fun i hi => by rw [if_pos (mem_range.mp hi)]
    rw [hpad, packed_and_mask fun i => by split; exacts [h _, Nat.two_pow_pos k], packed, packed]
    refine sum_congr rfl fun i hi => ?_
    rw [mem_range] at hi
    rw [if_pos (by omega)]

/-! ### Bits -/

/-- **A number is packed from its bits**, as digits of one bit each. -/
theorem packed_testBit {n x : ℕ} (h : x < 2 ^ n) : packed 1 n (fun i => (x.testBit i).toNat) = x := by
  have hmod : ∀ m, packed 1 m (fun i => (x.testBit i).toNat) = x % 2 ^ m := by
    intro m
    induction m with
    | zero => rw [pow_zero, Nat.mod_one]; rfl
    | succ m ih => rw [packed_succ, ih, pow_one, Nat.mod_pow_succ, Nat.toNat_testBit, Nat.mul_comm]
  rw [hmod, Nat.mod_eq_of_lt h]

/-- The sum of the bits is the number of those that are set. -/
theorem sum_toNat (n : ℕ) (p : ℕ → Bool) :
    ∑ i ∈ range n, (p i).toNat = ((range n).filter fun i => p i).card := by
  rw [card_filter]
  exact sum_congr rfl fun i _ => by cases p i <;> rfl

end DigitSum
