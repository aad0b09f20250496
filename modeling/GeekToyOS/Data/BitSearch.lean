import Mathlib.Data.Nat.Bitwise
import Mathlib.Tactic.Ring

/-!
# Finding a bit by halving

The place of the highest or of the lowest one in a number is found without a loop over its bits. Look at
half of the places that are left: where all of them are zero, move the number on by that half.

## Main definitions

* `Leading w x s p` — the number `p.1` is `x` moved up by `p.2`, and its highest one is among the top `s` bits
* `Trailing x s p` — the number `p.1` is `x` moved down by `p.2`, and its lowest one is among the low `s` bits

## Main results

* `Leading.halve`, `Trailing.halve` — one step
* `Leading.spec`, `Trailing.spec` — what the search has found when one place is left
-/

namespace BitSearch

variable {w s x a n : ℕ}

/-- A state of the search for the highest one of `x`, a number of `w` bits. -/
structure Leading (w x s : ℕ) (p : ℕ × ℕ) : Prop where
  moved : p.1 = x * 2 ^ p.2
  lt : p.1 < 2 ^ w
  le : 2 ^ (w - s) ≤ p.1

theorem Leading.start (h0 : x ≠ 0) (hx : x < 2 ^ w) : Leading w x w (x, 0) where
  moved := by rw [pow_zero, mul_one]
  lt := hx
  le := by rw [Nat.sub_self, pow_zero]; exact Nat.pos_of_ne_zero h0

/-- **One step up**: the upper half of the places is zero, or it is not. -/
theorem Leading.halve (h : Leading w x (2 * s) (a, n)) (hs : 2 * s ≤ w) :
    Leading w x s (if a < 2 ^ (w - s) then (a * 2 ^ s, n + s) else (a, n)) := by
  have hlow : 2 ^ (w - s) = 2 ^ (w - 2 * s) * 2 ^ s := by rw [← pow_add]; congr 1; omega
  have htop : 2 ^ w = 2 ^ (w - s) * 2 ^ s := by rw [← pow_add]; congr 1; omega
  have hmoved : a = x * 2 ^ n := h.moved
  have hle : 2 ^ (w - 2 * s) ≤ a := h.le
  split
  case isTrue hlt =>
    exact {
      moved := by rw [hmoved, pow_add, mul_assoc]
      lt := by rw [htop]; exact Nat.mul_lt_mul_of_pos_right hlt (Nat.two_pow_pos s)
      le := by rw [hlow]; exact Nat.mul_le_mul_right _ hle }
  case isFalse hge => exact { moved := hmoved, lt := h.lt, le := Nat.le_of_not_lt hge }

/-- The highest one of a number between two powers. -/
theorem testBit_of_bounds {i : ℕ} (hlo : 2 ^ i ≤ x) (hhi : x < 2 ^ (i + 1)) :
    x.testBit i = true ∧ ∀ j, i < j → x.testBit j = false := by
  refine ⟨?_, fun j hj => Nat.testBit_lt_two_pow (lt_of_lt_of_le hhi (Nat.pow_le_pow_right (by norm_num) hj))⟩
  have hdiv : x / 2 ^ i = 1 := Nat.div_eq_of_lt_le (by omega) (by rw [pow_succ] at hhi; omega)
  rw [Nat.testBit_eq_decide_div_mod_eq, hdiv]
  rfl

/-- **The end of the search for the highest one**: with one bit left, the count is the distance of the
highest one from the top. -/
theorem Leading.spec (h : Leading w x 1 (a, n)) :
    n < w ∧ x.testBit (w - 1 - n) = true ∧ ∀ j, w - 1 - n < j → x.testBit j = false := by
  have hmoved : a = x * 2 ^ n := h.moved
  have hlt : a < 2 ^ w := h.lt
  have hle : 2 ^ (w - 1) ≤ a := h.le
  have hx : x ≠ 0 := by
    rintro rfl
    rw [zero_mul] at hmoved
    have := Nat.two_pow_pos (w - 1)
    omega
  have hn : n < w := by
    refine (Nat.pow_lt_pow_iff_right (show 1 < 2 by norm_num)).mp (lt_of_le_of_lt ?_ hlt)
    rw [hmoved]
    exact Nat.le_mul_of_pos_left _ (Nat.pos_of_ne_zero hx)
  refine ⟨hn, testBit_of_bounds (Nat.le_of_mul_le_mul_right ?_ (Nat.two_pow_pos n))
    (lt_of_mul_lt_mul_right ?_ (Nat.zero_le (2 ^ n)))⟩
  · rw [← pow_add, ← hmoved, show w - 1 - n + n = w - 1 by omega]
    exact hle
  · rw [← pow_add, ← hmoved, show w - 1 - n + 1 + n = w by omega]
    exact hlt

/-- A state of the search for the lowest one of `x`. -/
structure Trailing (x s : ℕ) (p : ℕ × ℕ) : Prop where
  moved : x = p.1 * 2 ^ p.2
  not_dvd : ¬2 ^ s ∣ p.1

theorem Trailing.start (h0 : x ≠ 0) (hx : x < 2 ^ w) : Trailing x w (x, 0) where
  moved := by rw [pow_zero, mul_one]
  not_dvd := Nat.not_dvd_of_pos_of_lt (Nat.pos_of_ne_zero h0) hx

/-- **One step down**: if the lower half is clear, the search goes on in the upper one and counts the half
it has passed. -/
theorem Trailing.halve (h : Trailing x (2 * s) (a, n)) :
    Trailing x s (if 2 ^ s ∣ a then (a / 2 ^ s, n + s) else (a, n)) := by
  have hmoved : x = a * 2 ^ n := h.moved
  split
  case isTrue hdvd =>
    obtain ⟨c, rfl⟩ := hdvd
    rw [Nat.mul_div_cancel_left c (Nat.two_pow_pos s)]
    refine { moved := ?_, not_dvd := fun hc => h.not_dvd ?_ }
    · rw [hmoved]
      ring
    · rw [two_mul, pow_add]
      exact Nat.mul_dvd_mul_left _ hc
  case isFalse hnot => exact { moved := hmoved, not_dvd := hnot }

/-- **The end of the search for the lowest one**: with one bit left, the count is the place of the lowest
one. -/
theorem Trailing.spec (h : Trailing x 1 (a, n)) :
    x.testBit n = true ∧ ∀ j < n, x.testBit j = false := by
  have hmoved : x = a * 2 ^ n := h.moved
  have hodd : ¬2 ∣ a := h.not_dvd
  refine ⟨?_, fun j hj => ?_⟩
  · rw [hmoved, Nat.testBit_mul_two_pow, Nat.sub_self, Nat.testBit_zero]
    have hmod : a % 2 = 1 := Nat.two_dvd_ne_zero.mp hodd
    simp [hmod]
  · rw [hmoved, Nat.testBit_mul_two_pow]
    simp [Nat.not_le.mpr hj]

end BitSearch
