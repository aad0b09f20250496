import GeekToyOS.Data.LongDivision
import GeekToyOS.Lib.Div

/-!
# Division of 64-bit words

The part of `src/lib/div.c` that a 32-bit target calls for `/` and `%` on 64 bits. Unsigned words are
divided by long division: the numerator is shifted out at the top of a register while the quotient is
shifted in at its bottom, one bit late. Whether the divisor fits is read off the sign of a difference that
wraps around. Signed words are divided through their absolute values.

A division by zero divides by zero: it ends in the exception, and there is no result.

## Main definitions

* `divmoddi4` — quotient and remainder
* `udivdi3`, `umoddi3`, `divdi3`, `moddi3` — what the compiler calls

## Main results

* `compare_eq` — the sign of the wrapped difference is the comparison
* `DivState.At.turn` — one turn of the loop is one step of a long division
* `divmoddi4_eq` — quotient and remainder, for all words
* `divdi3_eq`, `moddi3_eq` — truncated division
* `unsigned_division`, `signed_division` — what a division promises
-/

namespace GeekToyOS.Div

open LongDivision

/-- The variables `a`, `rem` and `wrap` of the loop. -/
structure DivState where
  a : BitVec 64
  rem : BitVec 64
  wrap : BitVec 64

/-- One turn of `while (bits-- > 0)`. -/
def DivState.turn (b : BitVec 64) (s : DivState) : DivState :=
  let rem := s.rem <<< 1 ||| s.a >>> 63
  let a := s.a <<< 1 ||| (s.wrap &&& 1)
  let wrap := (b - rem - 1).sshiftRight 63
  { a := a, rem := rem - (b &&& wrap), wrap := wrap }

/-- The loop. -/
def DivState.loop (b : BitVec 64) : ℕ → DivState → DivState
  | 0, s => s
  | bits + 1, s => DivState.loop b bits (s.turn b)

/-- The long division at the end of `__divmoddi4`. Where it is reached `b ≤ a`, so `bits` is positive. -/
def longDivision (a b : BitVec 64) : BitVec 64 × BitVec 64 :=
  let bits := clzdi2 b - clzdi2 a + 1
  let s := DivState.loop b bits { a := a <<< (64 - bits), rem := a >>> bits, wrap := 0 }
  (s.a <<< 1 ||| (s.wrap &&& 1), s.rem)

/-- `__divmoddi4`: the quotient and `*c`. A division by zero has no result. -/
def divmoddi4 (a b : BitVec 64) : Option (BitVec 64 × BitVec 64) :=
  if b > a then some (0, a)
  else if hi b = 0 ∧ b = 0 then none
  else if hi b = 0 ∧ b = 1 then some (a, 0)
  else if hi b = 0 ∧ hi a = 0 then some ((lo a / lo b).setWidth 64, (lo a % lo b).setWidth 64)
  else some (longDivision a b)

/-- `arith64_neg`. -/
def neg (a b : BitVec 64) : BitVec 64 :=
  (a ^^^ ((if 0 ≤ b.toInt then 1 else 0) - 1)) + if b.toInt < 0 then 1 else 0

/-- `arith64_abs`. -/
def abs (a : BitVec 64) : BitVec 64 := neg a a

/-- `__absvdi2`. -/
def absvdi2 (a : BitVec 64) : BitVec 64 := abs a

/-- `__udivdi3`. -/
def udivdi3 (a b : BitVec 64) : Option (BitVec 64) := (divmoddi4 a b).map Prod.fst

/-- `__umoddi3`. -/
def umoddi3 (a b : BitVec 64) : Option (BitVec 64) := (divmoddi4 a b).map Prod.snd

/-- `__divdi3`. -/
def divdi3 (a b : BitVec 64) : Option (BitVec 64) :=
  (divmoddi4 (abs a) (abs b)).map fun r => neg r.1 (a ^^^ b)

/-- `__moddi3`. -/
def moddi3 (a b : BitVec 64) : Option (BitVec 64) :=
  (divmoddi4 (abs a) (abs b)).map fun r => neg r.2 a

/-! ### One turn of the loop -/

/-- The arithmetic shift by 63 spreads the sign bit over the word. -/
theorem sshiftRight_63 (x : BitVec 64) :
    x.sshiftRight 63 = if 2 ^ 63 ≤ x.toNat then BitVec.allOnes 64 else 0#64 := by
  have hlast : x.getLsbD 63 = x.msb := (BitVec.msb_eq_getLsbD_last x).symm
  have hmsb : x.msb = decide (2 ^ 63 ≤ x.toNat) := BitVec.msb_eq_decide x
  have hbit : ∀ i < 64, (x.sshiftRight 63).getLsbD i = decide (2 ^ 63 ≤ x.toNat) := by
    intro i hi
    rw [BitVec.getLsbD_sshiftRight, ← hmsb, decide_eq_false (Nat.not_le.mpr hi), Bool.not_false,
      Bool.true_and]
    split
    · rw [show 63 + i = 63 by omega, hlast]
    · rfl
  refine BitVec.eq_of_getLsbD_eq fun i hi => ?_
  rw [hbit i hi]
  split
  case isTrue h => rw [decide_eq_true h, BitVec.getLsbD_allOnes, decide_eq_true hi]
  case isFalse h => rw [decide_eq_false h, BitVec.getLsbD_zero]

/-- **The comparison.** It goes wrong only where divisor and remainder are more than half of the words
apart. -/
theorem compare_eq {b rem : BitVec 64} (h : b.toNat ≤ rem.toNat + 2 ^ 63)
    (h' : rem.toNat < b.toNat + 2 ^ 63) :
    (b - rem - 1).sshiftRight 63 = if b.toNat ≤ rem.toNat then BitVec.allOnes 64 else 0#64 := by
  have hb := b.isLt
  have hrem := rem.isLt
  rw [sshiftRight_63]
  refine if_congr ?_ rfl rfl
  rw [BitVec.toNat_sub, BitVec.toNat_sub, show (1 : BitVec 64).toNat = 1 from rfl]
  omega

variable {n d k q : ℕ}

/-- The register `a` holds the bits that are still to be read, and below them the quotient but for its
last bit. The top bit is the next one. -/
theorem register_top {y : ℕ} (hk : k < 64) (hy : y < 2 ^ (63 - k)) :
    (n % 2 ^ (k + 1) * 2 ^ (63 - k) + y) / 2 ^ 63 = (n.testBit k).toNat := by
  have hword : 2 ^ 63 = 2 ^ (63 - k) * 2 ^ k := by rw [← pow_add]; congr 1; omega
  rw [hword, ← Nat.div_div_eq_div_mul, Nat.add_comm, Nat.add_mul_div_right _ _ (Nat.two_pow_pos _),
    Nat.div_eq_of_lt hy, Nat.zero_add, Nat.toNat_testBit, Nat.mod_pow_succ,
    Nat.add_mul_div_left _ _ (Nat.two_pow_pos k), Nat.div_eq_of_lt (Nat.mod_lt n (Nat.two_pow_pos k)),
    Nat.zero_add]

/-- Shifted left by one, the register that holds both numerator and quotient loses the highest bit of the
numerator. -/
theorem register_shift {y : ℕ} (hk : k < 64) (hy : y < 2 ^ (63 - k)) :
    (n % 2 ^ (k + 1) * 2 ^ (63 - k) + y) * 2 % 2 ^ 64 = n % 2 ^ k * 2 ^ (64 - k) + 2 * y := by
  have hpow : 2 ^ (64 - k) = 2 ^ (63 - k) * 2 := by rw [← pow_succ]; congr 1; omega
  have hword : 2 ^ k * 2 ^ (64 - k) = 2 ^ 64 := by rw [← pow_add]; congr 1; omega
  have hlt : n % 2 ^ k * 2 ^ (64 - k) + 2 * y < 2 ^ 64 := by
    have hle : (n % 2 ^ k + 1) * 2 ^ (64 - k) ≤ 2 ^ k * 2 ^ (64 - k) :=
      Nat.mul_le_mul_right _ (Nat.mod_lt n (Nat.two_pow_pos k))
    rw [hword, Nat.add_mul, one_mul] at hle
    omega
  have hsum : (n % 2 ^ (k + 1) * 2 ^ (63 - k) + y) * 2
      = n % 2 ^ k * 2 ^ (64 - k) + 2 * y + 2 ^ 64 * (n / 2 ^ k % 2) := by
    rw [Nat.mod_pow_succ, ← hword, hpow]
    ring
  rw [hsum, Nat.add_mul_mod_self_left, Nat.mod_eq_of_lt hlt]

/-- The state with `k` bits to go, when the quotient so far is `q`. -/
structure DivState.At (n d k q : ℕ) (s : DivState) : Prop where
  partway : Partway n d k q s.rem.toNat
  a_eq : s.a.toNat = n % 2 ^ k * 2 ^ (64 - k) + q / 2
  wrap_eq : s.wrap = if q % 2 = 1 then BitVec.allOnes 64 else 0#64

/-- `wrap & 1` is the last bit of the quotient so far. -/
theorem DivState.At.wrap_and_one {s : DivState} (h : s.At n d k q) : (s.wrap &&& 1).toNat = q % 2 := by
  rw [h.wrap_eq]
  split
  case isTrue h1 => rw [h1]; rfl
  case isFalse h0 => rw [Nat.mod_two_ne_one.mp h0]; rfl

/-- A word is shifted left by one, and a bit joins it at the right. -/
theorem shiftLeft_or_toNat {x y : BitVec 64} (hy : y.toNat < 2) :
    (x <<< 1 ||| y).toNat = x.toNat * 2 % 2 ^ 64 + y.toNat := by
  rw [BitVec.toNat_or, BitVec.toNat_shiftLeft, Nat.shiftLeft_eq, pow_one]
  exact Bits.or_eq_add_of_low (k := 1) (by rw [pow_one]; omega) (by rwa [pow_one])

/-- `a`, moved up by one, takes in the last bit of the quotient. -/
theorem DivState.At.shift_in {s : DivState} (h : s.At n d (k + 1) q) (hk : k < 64)
    (hq : q / 2 < 2 ^ (63 - k)) :
    (s.a <<< 1 ||| (s.wrap &&& 1)).toNat = n % 2 ^ k * 2 ^ (64 - k) + q := by
  have ha : s.a.toNat = n % 2 ^ (k + 1) * 2 ^ (63 - k) + q / 2 := by rw [h.a_eq, Nat.add_sub_add_right 63 1 k]
  have hwrap := h.wrap_and_one
  rw [shiftLeft_or_toNat (by rw [hwrap]; omega), hwrap, ha, register_shift hk hq]
  omega

/-- `rem` takes in the next bit of the numerator, the highest of the register. -/
theorem DivState.At.next_eq {s : DivState} (h : s.At n d (k + 1) q) (hn : n < 2 ^ 64) (hk : k < 64)
    (hq : q / 2 < 2 ^ (63 - k)) : (s.rem <<< 1 ||| s.a >>> 63).toNat = next n k s.rem.toNat := by
  have ha : s.a.toNat = n % 2 ^ (k + 1) * 2 ^ (63 - k) + q / 2 := by rw [h.a_eq, Nat.add_sub_add_right 63 1 k]
  have hbit : (s.a >>> 63).toNat = (n.testBit k).toNat := by
    rw [BitVec.toNat_ushiftRight, Nat.shiftRight_eq_div_pow, ha, register_top hk hq]
  have hle := h.partway.next_le
  have hlt := Bool.toNat_le (n.testBit k)
  rw [shiftLeft_or_toNat (by omega), hbit]
  rw [next] at hle ⊢
  omega

/-- **One turn of the loop is one step of a long division**, if the sign of the difference shows which of
the two is larger. -/
theorem DivState.At.turn {s : DivState} {b : BitVec 64} (h : s.At n b.toNat (k + 1) q) (hn : n < 2 ^ 64)
    (hk : k < 64) (hq : q / 2 < 2 ^ (63 - k)) (hsign : b.toNat ≤ 2 ^ 63 ∨ b.toNat ≤ next n k s.rem.toNat) :
    ∃ q', (s.turn b).At n b.toNat k q' := by
  have hrem := h.next_eq hn hk hq
  have ha := h.shift_in hk hq
  have hle := h.partway.next_le
  have hlt := h.partway.next_lt
  have hwrap : (b - (s.rem <<< 1 ||| s.a >>> 63) - 1).sshiftRight 63
      = if b.toNat ≤ next n k s.rem.toNat then BitVec.allOnes 64 else 0#64 := by
    rw [compare_eq (by omega) (by omega), hrem]
  by_cases hfit : b.toNat ≤ next n k s.rem.toNat
  · refine ⟨2 * q + 1, ?_, ?_, ?_⟩
    · have hsub : (s.turn b).rem.toNat = next n k s.rem.toNat - b.toNat := by
        have hle' : b ≤ s.rem <<< 1 ||| s.a >>> 63 := by rw [BitVec.le_def, hrem]; exact hfit
        rw [DivState.turn, hwrap, if_pos hfit, BitVec.and_allOnes, BitVec.toNat_sub_of_le hle', hrem]
      rw [hsub]
      exact h.partway.step_take hfit
    · rw [show (2 * q + 1) / 2 = q by omega]
      exact ha
    · rw [DivState.turn, hwrap, if_pos hfit, if_pos (by omega)]
  · refine ⟨2 * q, ?_, ?_, ?_⟩
    · have hsub : (s.turn b).rem.toNat = next n k s.rem.toNat := by
        rw [DivState.turn, hwrap, if_neg hfit, BitVec.and_zero, BitVec.sub_zero, hrem]
      rw [hsub]
      exact h.partway.step_leave (Nat.not_le.mp hfit)
    · rw [show 2 * q / 2 = q by omega]
      exact ha
    · rw [DivState.turn, hwrap, if_neg hfit, if_neg (by omega)]

/-- **The loop is a long division.** `m` bits are read in all. -/
theorem DivState.At.loop {m : ℕ} {s : DivState} {b : BitVec 64} (hn : n < 2 ^ 64) (hm : m < 64)
    (hlt : n / 2 ^ m < b.toNat) (hsign : b.toNat ≤ 2 ^ 63 ∨ m ≤ 1 ∧ b.toNat ≤ n) (hk : k ≤ m)
    (h : s.At n b.toNat k q) :
    (loop b k s).At n b.toNat 0 (n / b.toNat) := by
  induction k generalizing s q with
  | zero => exact h.partway.done.1 ▸ h
  | succ k ih =>
    have hquot : q < 2 ^ (m - (k + 1)) :=
      h.partway.quotient_lt (by rw [show k + 1 + (m - (k + 1)) = m by omega]; exact hlt)
    have hroom : 2 ^ (m - (k + 1)) ≤ 2 ^ (63 - k) := Nat.pow_le_pow_right (by norm_num) (by omega)
    have hfirst : b.toNat ≤ 2 ^ 63 ∨ b.toNat ≤ next n k s.rem.toNat := by
      refine hsign.imp_right fun ⟨hone, hle⟩ => ?_
      -- one bit in all: the remainder is the whole numerator
      obtain rfl : k = 0 := by omega
      obtain rfl : q = 0 := by
        rw [show m - (0 + 1) = 0 by omega, pow_zero] at hquot
        omega
      have heq := h.partway.next_eq
      rw [pow_zero, Nat.div_one, mul_zero, mul_zero, zero_add] at heq
      rw [← heq]
      exact hle
    obtain ⟨q', hturn⟩ := h.turn hn (by omega) (by omega) hfirst
    exact ih (by omega) hturn

/-! ### The functions -/

theorem lt_of_leading {a : BitVec 64} (h : a ≠ 0) : a.toNat < 2 ^ (64 - clzdi2 a) := by
  obtain ⟨hlt, -, hzero⟩ := clzdi2_leading h
  refine Nat.lt_pow_two_of_testBit _ fun i hi => ?_
  rw [← BitVec.getLsbD]
  exact hzero i (by omega)

theorem le_of_leading {a : BitVec 64} (h : a ≠ 0) : 2 ^ (63 - clzdi2 a) ≤ a.toNat := by
  obtain ⟨-, hone, -⟩ := clzdi2_leading h
  exact Nat.ge_two_pow_of_testBit hone

/-- The state in which the loop starts: the bits above those that are left are the remainder. -/
theorem DivState.At.start {a b : BitVec 64} {m : ℕ} (hm : m < 64) (hlt : a.toNat / 2 ^ m < b.toNat) :
    DivState.At a.toNat b.toNat m 0 { a := a <<< (64 - m), rem := a >>> m, wrap := 0 } where
  partway := by
    rw [BitVec.toNat_ushiftRight, Nat.shiftRight_eq_div_pow]
    exact .start hlt
  a_eq := by
    have hword : 2 ^ 64 = 2 ^ m * 2 ^ (64 - m) := by rw [← pow_add]; congr 1; omega
    rw [BitVec.toNat_shiftLeft, Nat.shiftLeft_eq, hword, Nat.mul_mod_mul_right]
    rfl
  wrap_eq := rfl

/-- **The loop divides**, where the divisor is above one and does not exceed the numerator. -/
theorem longDivision_eq {a b : BitVec 64} (hb : b.toNat ≤ a.toNat) (h1 : 1 < b.toNat) :
    longDivision a b = (a / b, a % b) := by
  have hb0 : b ≠ 0 := fun h0 => by rw [h0] at h1; exact absurd h1 (by decide)
  have ha0 : a ≠ 0 := fun h0 => by rw [h0] at hb; exact absurd (lt_of_lt_of_le h1 hb) (by decide)
  obtain ⟨m, hm⟩ : ∃ m, m = clzdi2 b - clzdi2 a + 1 := ⟨_, rfl⟩
  have hpow : ∀ {i j : ℕ}, 2 ^ i < 2 ^ j → i < j := (Nat.pow_lt_pow_iff_right (by norm_num)).mp
  have hca := (clzdi2_leading ha0).1
  have hcb := (clzdi2_leading hb0).1
  have horder : 63 - clzdi2 b < 64 - clzdi2 a :=
    hpow (lt_of_le_of_lt (le_of_leading hb0) (lt_of_le_of_lt hb (lt_of_leading ha0)))
  have htwo : 1 < 64 - clzdi2 b := hpow (lt_of_le_of_lt h1 (lt_of_leading hb0))
  have hlt : a.toNat / 2 ^ m < b.toNat := by
    refine lt_of_lt_of_le ((Nat.div_lt_iff_lt_mul (Nat.two_pow_pos m)).mpr ?_) (le_of_leading hb0)
    rw [← pow_add, show 63 - clzdi2 b + m = 64 - clzdi2 a by omega]
    exact lt_of_leading ha0
  have hsign : b.toNat ≤ 2 ^ 63 ∨ m ≤ 1 ∧ b.toNat ≤ a.toNat := by
    refine or_iff_not_imp_left.mpr fun hbig => ⟨?_, hb⟩
    have htop := hpow (lt_trans (Nat.not_le.mp hbig) (lt_of_leading hb0))
    omega
  have hend := (DivState.At.start (by omega) hlt).loop a.isLt (by omega) hlt hsign le_rfl
  refine Prod.ext (BitVec.eq_of_toNat_eq ?_) (BitVec.eq_of_toNat_eq ?_)
  · have ha := hend.a_eq
    have hwrap := hend.wrap_and_one
    have hle : a.toNat / b.toNat ≤ a.toNat := Nat.div_le_self _ _
    have hword := a.isLt
    rw [pow_zero, Nat.mod_one, Nat.zero_mul, Nat.zero_add] at ha
    rw [BitVec.toNat_udiv, longDivision, ← hm, shiftLeft_or_toNat (by rw [hwrap]; omega), hwrap, ha]
    omega
  · rw [BitVec.toNat_umod, longDivision, ← hm]
    exact hend.partway.done.2

theorem lo_toNat (a : BitVec 64) : (lo a).toNat = a.toNat % 2 ^ 32 := by
  rw [lo, BitVec.extractLsb'_toNat, Nat.shiftRight_zero]

theorem hi_toNat (a : BitVec 64) : (hi a).toNat = a.toNat / 2 ^ 32 := by
  have ha := a.isLt
  rw [hi, BitVec.extractLsb'_toNat, Nat.shiftRight_eq_div_pow]
  omega

/-- `!arith64_hi(n)` tests whether the word fits 32 bits. -/
theorem hi_eq_zero_iff (a : BitVec 64) : hi a = 0 ↔ a.toNat < 2 ^ 32 := by
  rw [← BitVec.toNat_inj, hi_toNat, BitVec.ofNat_eq_ofNat, BitVec.toNat_ofNat, Nat.zero_mod,
    Nat.div_eq_zero_iff_lt (by norm_num)]

theorem div_of_hi_eq_zero {a b : BitVec 64} (ha : hi a = 0) (hb : hi b = 0) :
    (lo a / lo b).setWidth 64 = a / b ∧ (lo a % lo b).setWidth 64 = a % b := by
  rw [hi_eq_zero_iff] at ha hb
  have hlo : ∀ {x : BitVec 64}, x.toNat < 2 ^ 32 → (lo x).toNat = x.toNat := fun {x} hx => by
    rw [lo_toNat, Nat.mod_eq_of_lt hx]
  have hdiv : a.toNat / b.toNat ≤ a.toNat := Nat.div_le_self _ _
  have hmod : a.toNat % b.toNat ≤ a.toNat := Nat.mod_le _ _
  constructor
  · refine BitVec.eq_of_toNat_eq ?_
    rw [BitVec.toNat_setWidth, BitVec.toNat_udiv, BitVec.toNat_udiv, hlo ha, hlo hb,
      Nat.mod_eq_of_lt (by omega)]
  · refine BitVec.eq_of_toNat_eq ?_
    rw [BitVec.toNat_setWidth, BitVec.toNat_umod, BitVec.toNat_umod, hlo ha, hlo hb,
      Nat.mod_eq_of_lt (by omega)]

/-- **`__divmoddi4` divides**, unless the divisor is zero: then the processor faults. -/
theorem divmoddi4_eq (a b : BitVec 64) : divmoddi4 a b = if b = 0 then none else some (a / b, a % b) := by
  rw [divmoddi4]
  by_cases hgt : b > a
  · have hlt : a.toNat < b.toNat := hgt
    have hb0 : b ≠ 0 := fun h0 => by rw [h0] at hlt; exact absurd hlt (Nat.not_lt_zero _)
    have hq : a / b = 0 := BitVec.eq_of_toNat_eq (by rw [BitVec.toNat_udiv, Nat.div_eq_of_lt hlt]; rfl)
    have hr : a % b = a := BitVec.eq_of_toNat_eq (by rw [BitVec.toNat_umod, Nat.mod_eq_of_lt hlt])
    rw [if_pos hgt, if_neg hb0, hq, hr]
  have hle : b.toNat ≤ a.toNat := Nat.le_of_not_lt hgt
  rw [if_neg hgt]
  by_cases hb0 : b = 0
  · rw [if_pos ⟨by rw [hb0]; rfl, hb0⟩, if_pos hb0]
  rw [if_neg (fun h => hb0 h.2), if_neg hb0]
  by_cases hb1 : b = 1
  · rw [if_pos ⟨by rw [hb1]; rfl, hb1⟩, hb1]
    exact congrArg some (Prod.ext BitVec.udiv_one.symm BitVec.umod_one.symm)
  rw [if_neg (fun h => hb1 h.2)]
  by_cases hsmall : hi b = 0 ∧ hi a = 0
  · obtain ⟨hq, hr⟩ := div_of_hi_eq_zero hsmall.2 hsmall.1
    rw [if_pos hsmall, hq, hr]
  · have h0 : b.toNat ≠ 0 := fun h => hb0 (BitVec.eq_of_toNat_eq h)
    have h1 : b.toNat ≠ 1 := fun h => hb1 (BitVec.eq_of_toNat_eq h)
    rw [if_neg hsmall, longDivision_eq hle (by omega)]

/-! ### Signed words -/

theorem neg_eq (a b : BitVec 64) : neg a b = if b.msb then -a else a := by
  have hmsb : b.msb = decide (b.toInt < 0) := BitVec.msb_eq_toInt
  by_cases h : b.toInt < 0
  · rw [hmsb, decide_eq_true h, if_pos rfl, neg, if_neg (by omega), if_pos h, BitVec.neg_eq_not_add]
    exact congrArg (· + 1#64) BitVec.xor_allOnes
  · rw [hmsb, decide_eq_false h, if_neg Bool.false_ne_true, neg, if_pos (by omega), if_neg h]
    simp

theorem abs_eq_zero_iff (b : BitVec 64) : abs b = 0 ↔ b = 0 := by
  rw [abs, neg_eq]
  split
  · exact BitVec.neg_eq_zero_iff
  · rfl

/-- **Truncated division.** The one quotient that does not fit wraps around. -/
theorem divdi3_eq (a b : BitVec 64) : divdi3 a b = if b = 0 then none else some (a.sdiv b) := by
  rw [divdi3, divmoddi4_eq, if_congr (abs_eq_zero_iff b) rfl rfl]
  split
  · rfl
  · rw [Option.map_some, neg_eq, BitVec.msb_xor, BitVec.sdiv_eq, abs, abs, neg_eq, neg_eq]
    cases a.msb <;> cases b.msb <;> rfl

/-- **The remainder has the sign of the numerator.** -/
theorem moddi3_eq (a b : BitVec 64) : moddi3 a b = if b = 0 then none else some (a.srem b) := by
  rw [moddi3, divmoddi4_eq, if_congr (abs_eq_zero_iff b) rfl rfl]
  split
  · rfl
  · rw [Option.map_some, neg_eq, BitVec.srem_eq, abs, abs, neg_eq, neg_eq]
    cases a.msb <;> cases b.msb <;> rfl

/-! ### What the compiler relies on -/

/-- **Unsigned division** gives the quotient and a remainder below the divisor, and faults where that is
zero. -/
theorem unsigned_division (a b : BitVec 64) :
    (b = 0 → udivdi3 a b = none ∧ umoddi3 a b = none) ∧
    (b ≠ 0 → ∃ q r, udivdi3 a b = some q ∧ umoddi3 a b = some r ∧
      a.toNat = b.toNat * q.toNat + r.toNat ∧ r.toNat < b.toNat) := by
  rw [udivdi3, umoddi3, divmoddi4_eq]
  constructor
  · intro hb
    rw [if_pos hb]
    exact ⟨rfl, rfl⟩
  · intro hb
    have hpos : 0 < b.toNat := Nat.pos_of_ne_zero fun h => hb (BitVec.eq_of_toNat_eq h)
    rw [if_neg hb]
    refine ⟨a / b, a % b, rfl, rfl, ?_, ?_⟩
    · rw [BitVec.toNat_udiv, BitVec.toNat_umod, Nat.div_add_mod]
    · rw [BitVec.toNat_umod]
      exact Nat.mod_lt _ hpos

/-- **Signed division.** It rounds towards zero; the remainder belongs to the quotient before that one
wraps around, which only the smallest number divided by `-1` does. -/
theorem signed_division (a b : BitVec 64) :
    (b = 0 → divdi3 a b = none ∧ moddi3 a b = none) ∧
    (b ≠ 0 → ∃ q r, divdi3 a b = some q ∧ moddi3 a b = some r ∧
      r.toInt = a.toInt.tmod b.toInt ∧ q.toInt = (a.toInt.tdiv b.toInt).bmod (2 ^ 64) ∧
      (a ≠ BitVec.intMin 64 ∨ b ≠ -1 → q.toInt = a.toInt.tdiv b.toInt)) := by
  rw [divdi3_eq, moddi3_eq]
  constructor
  · intro hb
    rw [if_pos hb, if_pos hb]
    exact ⟨rfl, rfl⟩
  · intro hb
    rw [if_neg hb, if_neg hb]
    exact ⟨_, _, rfl, rfl, BitVec.toInt_srem a b, BitVec.toInt_sdiv a b, BitVec.toInt_sdiv_of_ne_or_ne a b⟩

end GeekToyOS.Div
