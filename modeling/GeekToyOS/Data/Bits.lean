import Mathlib.Data.Nat.Bitwise
import Mathlib.Tactic.Ring

/-!
# Masks as arithmetic

A machine word of `w` bits is a natural number below `2 ^ w`. The macros of a C program take words
apart with `&`, `|` and `~`; the proofs about them want quotients and remainders. This file is the
passage between the two, once and for all, for masks made of a run of low bits.

## Main results

* `and_highMask` — masking the low `k` bits away is rounding down to a multiple of `2 ^ k`
* `or_eq_add_of_low` — joining a multiple of `2 ^ k` with a number below `2 ^ k` is addition
* `mul_xor_two_pow`, `and_xor_one` — flipping the bit that leads a multiple of `2 ^ k`, and what
  the two numbers have in common
* `and_ne_zero_iff`, `and_twoPow_ne_zero` — testing a vector with a mask
-/

namespace Bits

/-- The complement, in `w` bits, of the mask of the low `k` bits. -/
def highMask (w k : ℕ) : ℕ := 2 ^ w - 2 ^ k

theorem highMask_eq {w k : ℕ} (h : k ≤ w) : highMask w k = (2 ^ (w - k) - 1) <<< k := by
  have hw : 2 ^ w = 2 ^ (w - k) * 2 ^ k := by rw [← pow_add, Nat.sub_add_cancel h]
  rw [highMask, Nat.shiftLeft_eq, Nat.sub_mul, one_mul, hw]

theorem testBit_highMask {w k : ℕ} (h : k ≤ w) (i : ℕ) :
    (highMask w k).testBit i = decide (k ≤ i ∧ i < w) := by
  rw [highMask_eq h, Nat.testBit_shiftLeft, Nat.testBit_two_pow_sub_one]
  by_cases hk : k ≤ i
  · simp only [hk, decide_true, true_and, Bool.true_and]
    congr 1
    exact propext ⟨fun _ => by omega, fun _ => by omega⟩
  · simp [hk]

/-- **Masking low bits away rounds down** to a multiple of the power of two. -/
theorem and_highMask {w k x : ℕ} (hk : k ≤ w) (hx : x < 2 ^ w) :
    x &&& highMask w k = x / 2 ^ k * 2 ^ k := by
  refine Nat.eq_of_testBit_eq fun i => ?_
  rw [Nat.testBit_and, testBit_highMask hk, ← Nat.shiftLeft_eq, Nat.testBit_shiftLeft,
    Nat.testBit_div_two_pow]
  by_cases hki : k ≤ i
  · rw [Nat.sub_add_cancel hki]
    by_cases hi : i < w
    · simp [hki, hi]
    · have hlt : x < 2 ^ i := lt_of_lt_of_le hx (Nat.pow_le_pow_right (by norm_num) (by omega))
      simp [hki, Nat.testBit_lt_two_pow hlt]
  · simp [hki]

/-- On a number that need not be a word, it drops the bits above too. -/
theorem and_highMask_mod {w k : ℕ} (hk : k ≤ w) (x : ℕ) :
    x &&& highMask w k = x % 2 ^ w / 2 ^ k * 2 ^ k := by
  rw [← and_highMask hk (Nat.mod_lt x (Nat.two_pow_pos w))]
  refine Nat.eq_of_testBit_eq fun i => ?_
  rw [Nat.testBit_and, Nat.testBit_and, testBit_highMask hk, Nat.testBit_mod_two_pow]
  by_cases hi : i < w <;> simp [hi]

/-- **Joining disjoint bits adds**: a multiple of a power of two and a number below it. -/
theorem or_eq_add_of_low {k a b : ℕ} (ha : 2 ^ k ∣ a) (hb : b < 2 ^ k) : a ||| b = a + b := by
  obtain ⟨c, rfl⟩ := ha
  exact (Nat.two_pow_add_eq_or_of_lt hb c).symm

/-! ### Flipping one bit of a multiple -/

theorem mul_xor_two_pow (k q : ℕ) : (2 ^ k * q) ^^^ 2 ^ k = 2 ^ k * (q ^^^ 1) := by
  rw [Nat.mul_comm, Nat.mul_comm (2 ^ k), ← Nat.shiftLeft_eq, ← Nat.shiftLeft_eq,
    Nat.shiftLeft_xor_distrib, Nat.one_shiftLeft]

theorem mul_and_mul (k q r : ℕ) : (2 ^ k * q) &&& (2 ^ k * r) = 2 ^ k * (q &&& r) := by
  rw [Nat.mul_comm, Nat.mul_comm (2 ^ k) r, Nat.mul_comm (2 ^ k), ← Nat.shiftLeft_eq,
    ← Nat.shiftLeft_eq, ← Nat.shiftLeft_eq, Nat.shiftLeft_and_distrib]

theorem xor_one_of_odd {q : ℕ} (h : q % 2 = 1) : q ^^^ 1 = q - 1 := by
  have hev : (q - 1) ^^^ 1 = q := by
    rw [Nat.xor_one_of_even (Nat.even_iff.mpr (by omega))]
    omega
  calc q ^^^ 1 = ((q - 1) ^^^ 1) ^^^ 1 := by rw [hev]
    _ = q - 1 := by rw [Nat.xor_assoc, Nat.xor_self, Nat.xor_zero]

theorem and_xor_one (q : ℕ) : (q ^^^ 1) &&& q = q / 2 * 2 := by
  refine Nat.eq_of_testBit_eq fun i => ?_
  rw [Nat.testBit_and, Nat.testBit_xor]
  cases i with
  | zero => simp
  | succ i =>
    rw [Nat.testBit_succ, Nat.testBit_succ, Nat.testBit_succ, Nat.mul_div_cancel _ (by norm_num)]
    simp

/-! ### Single bits of vectors -/

/-- A mask leaves something of a word iff there is a bit that is set in both. -/
theorem and_ne_zero_iff {w : ℕ} {x m : BitVec w} :
    x &&& m ≠ 0#w ↔ ∃ i < w, x.getLsbD i = true ∧ m.getLsbD i = true := by
  constructor
  · intro hne
    by_contra hall
    refine hne (BitVec.eq_of_getLsbD_eq fun i hi => ?_)
    rw [BitVec.getLsbD_and, BitVec.getLsbD_zero, Bool.and_eq_false_iff, ← Bool.not_eq_true,
      ← Bool.not_eq_true, ← not_and_or]
    exact fun hboth => hall ⟨i, hi, hboth⟩
  · rintro ⟨i, -, hx, hm⟩ hzero
    have hbit := congrArg (·.getLsbD i) hzero
    simp only [BitVec.getLsbD_and, hx, hm, BitVec.getLsbD_zero] at hbit
    cases hbit

theorem and_twoPow_ne_zero {w : ℕ} (x : BitVec w) {i : ℕ} (hi : i < w) :
    x &&& BitVec.twoPow w i ≠ 0 ↔ x.getLsbD i = true := by
  refine and_ne_zero_iff.trans ⟨?_, fun h => ⟨i, hi, h, by simp [hi]⟩⟩
  rintro ⟨j, -, hx, hbit⟩
  rw [BitVec.getLsbD_twoPow, Bool.and_eq_true, decide_eq_true_eq, decide_eq_true_eq] at hbit
  rwa [hbit.2]

/-- The bits of a word in which one bit is set on a condition. -/
theorem ite_or_twoPow_getLsbD {w i b : ℕ} {p : Prop} [Decidable p] (x : BitVec w) (c : Bool)
    (hp : p ↔ c = true) (hi : i < w) :
    (if p then x ||| BitVec.twoPow w i else x).getLsbD b = (x.getLsbD b || (decide (b = i) && c)) := by
  have hbit : (BitVec.twoPow w i).getLsbD b = decide (b = i) := by
    rw [BitVec.getLsbD_twoPow]
    simp only [hi, decide_true, Bool.true_and, eq_comm]
  cases c with
  | true => rw [if_pos (hp.mpr rfl), BitVec.getLsbD_or, hbit, Bool.and_true]
  | false => rw [if_neg (mt hp.mp Bool.false_ne_true), Bool.and_false, Bool.or_false]

end Bits
