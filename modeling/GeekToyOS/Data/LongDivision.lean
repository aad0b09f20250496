import Mathlib.Data.Nat.Bitwise
import Mathlib.Tactic.Ring

/-!
# Long division, one bit at a time

A number is divided from its highest bit down. What the bits read so far come to has been divided
already; one more bit doubles it and adds the bit, and the divisor fits into the new remainder once or
not at all.

## Main definitions

* `Partway n d k q r` — `n` without its low `k` bits, divided by `d`

## Main results

* `Partway.start` — a number below the divisor needs no division
* `Partway.step_take`, `Partway.step_leave` — one more bit
* `Partway.done` — no bit is left
-/

namespace LongDivision

/-- `q` and `r` are quotient and remainder of `n / 2 ^ k`. -/
structure Partway (n d k q r : ℕ) : Prop where
  eq : n / 2 ^ k = d * q + r
  lt : r < d

variable {n d k q r : ℕ}

theorem Partway.start (h : n / 2 ^ k < d) : Partway n d k 0 (n / 2 ^ k) where
  eq := by rw [mul_zero, zero_add]
  lt := h

/-- The remainder with one more bit read. -/
def next (n k r : ℕ) : ℕ := 2 * r + (n.testBit k).toNat

theorem div_two_pow (n k : ℕ) : n / 2 ^ k = 2 * (n / 2 ^ (k + 1)) + (n.testBit k).toNat := by
  have h := Nat.div_add_mod (n / 2 ^ k) 2
  rw [Nat.div_div_eq_div_mul, ← pow_succ, ← Nat.toNat_testBit] at h
  exact h.symm

theorem Partway.next_eq (h : Partway n d (k + 1) q r) : n / 2 ^ k = d * (2 * q) + next n k r := by
  rw [div_two_pow, h.eq, next]
  ring

theorem Partway.next_le (h : Partway n d (k + 1) q r) : next n k r ≤ n := by
  have hle : next n k r ≤ n / 2 ^ k := by rw [h.next_eq]; exact Nat.le_add_left _ _
  exact le_trans hle (Nat.div_le_self _ _)

theorem Partway.next_lt (h : Partway n d (k + 1) q r) : next n k r < 2 * d := by
  have hlt := h.lt
  have hbit := Bool.toNat_le (n.testBit k)
  rw [next]
  omega

/-- **The divisor fits once more**: the quotient gets a one, and the divisor is taken from the remainder. -/
theorem Partway.step_take (h : Partway n d (k + 1) q r) (hd : d ≤ next n k r) :
    Partway n d k (2 * q + 1) (next n k r - d) where
  eq := by
    rw [h.next_eq, Nat.mul_add, mul_one, Nat.add_assoc, Nat.add_sub_cancel' hd]
  lt := by
    have hlt := h.next_lt
    omega

/-- **The divisor does not fit**: the quotient gets a zero, and the remainder stays. -/
theorem Partway.step_leave (h : Partway n d (k + 1) q r) (hd : next n k r < d) :
    Partway n d k (2 * q) (next n k r) where
  eq := h.next_eq
  lt := hd

/-- **All bits are read**: what has come out is the quotient and the remainder. -/
theorem Partway.done (h : Partway n d 0 q r) : q = n / d ∧ r = n % d := by
  have heq := h.eq
  rw [pow_zero, Nat.div_one] at heq
  constructor
  · rw [heq, Nat.mul_add_div (lt_of_le_of_lt (Nat.zero_le r) h.lt), Nat.div_eq_of_lt h.lt, Nat.add_zero]
  · rw [heq, Nat.mul_add_mod, Nat.mod_eq_of_lt h.lt]

/-- The quotient of what is read has no more bits than were read below the first remainder. -/
theorem Partway.quotient_lt {m : ℕ} (h : Partway n d k q r) (hm : n / 2 ^ (k + m) < d) : q < 2 ^ m := by
  by_contra hq
  have hle : d * 2 ^ m ≤ n / 2 ^ k := by
    rw [h.eq]
    exact le_trans (Nat.mul_le_mul_left d (Nat.le_of_not_lt hq)) (Nat.le_add_right _ _)
  rw [pow_add, ← Nat.div_div_eq_div_mul] at hm
  exact absurd ((Nat.le_div_iff_mul_le (Nat.two_pow_pos m)).mpr hle) (Nat.not_le.mpr hm)

end LongDivision
