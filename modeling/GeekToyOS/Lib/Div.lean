import GeekToyOS.Data.BitSearch
import GeekToyOS.Data.DigitSum
import GeekToyOS.Lib.Const

/-!
# Bits of 64-bit words

The part of `src/lib/div.c` that a 32-bit target calls for shifts and for counting bits. A word is shifted
as its two halves. The counts are made without loops: the place of the first or last one by halving, the
number of ones by adding up digits side by side.

## Main definitions

* `ashldi3`, `lshrdi3`, `ashrdi3` — the three shifts
* `clzsi2`, `clzdi2`, `ctzsi2`, `ctzdi2`, `ffsdi2` — the first and the last one
* `popcountsi2`, `popcountdi2` — the number of ones

## Main results

* `ashldi3_eq`, `lshrdi3_eq`, `ashrdi3_eq` — the halves together are shifted as one word
* `clzdi2_leading`, `ctzdi2_trailing` — the searches, and `ones_located` for all of them
* `popcount_eq` — the digits added up
-/

namespace GeekToyOS.Div

/-! ### Halves -/

/-- `arith64_hi`. -/
def hi (n : BitVec 64) : BitVec 32 := n.extractLsb' 32 32

/-- `arith64_lo`. -/
def lo (n : BitVec 64) : BitVec 32 := n.extractLsb' 0 32

/-- `arith64_word`, put together from `hi` and `lo`. -/
def word (hi lo : BitVec 32) : BitVec 64 := hi ++ lo

@[simp] theorem hi_getLsbD (n : BitVec 64) (i : ℕ) :
    (hi n).getLsbD i = (decide (i < 32) && n.getLsbD (32 + i)) :=
  BitVec.getLsbD_extractLsb' ..

@[simp] theorem lo_getLsbD (n : BitVec 64) (i : ℕ) :
    (lo n).getLsbD i = (decide (i < 32) && n.getLsbD i) := by
  rw [lo, BitVec.getLsbD_extractLsb', Nat.zero_add]

@[simp] theorem word_getLsbD (h l : BitVec 32) (i : ℕ) :
    (word h l).getLsbD i = if i < 32 then l.getLsbD i else h.getLsbD (i - 32) := BitVec.getLsbD_append

/-! ### Shifts -/

/-- `__ashldi3`. -/
def ashldi3 (a : BitVec 64) (b : BitVec 32) : BitVec 64 :=
  let b := (b &&& 63).toNat
  if b ≥ 32 then word (lo a <<< (b - 32)) 0
  else if b ≠ 0 then word (lo a >>> (32 - b) ||| hi a <<< b) (lo a <<< b)
  else a

/-- `__lshrdi3`. -/
def lshrdi3 (a : BitVec 64) (b : BitVec 32) : BitVec 64 :=
  let b := (b &&& 63).toNat
  if b ≥ 32 then word 0 (hi a >>> (b - 32))
  else if b ≠ 0 then word (hi a >>> b) (hi a <<< (32 - b) ||| lo a >>> b)
  else a

/-- `__ashrdi3`. -/
def ashrdi3 (a : BitVec 64) (b : BitVec 32) : BitVec 64 :=
  let b := (b &&& 63).toNat
  if b ≥ 32 then word ((hi a).sshiftRight 31) ((hi a).sshiftRight (b - 32))
  else if b ≠ 0 then word ((hi a).sshiftRight b) (hi a <<< (32 - b) ||| lo a >>> b)
  else a

/-- `b &= 63` takes the count modulo 64. -/
theorem and_63 (b : BitVec 32) : (b &&& 63).toNat = b.toNat % 64 := by
  rw [BitVec.toNat_and]
  exact Nat.and_two_pow_sub_one_eq_mod b.toNat 6

/-- **`__ashldi3` shifts left**, by the count modulo 64. -/
theorem ashldi3_eq (a : BitVec 64) (b : BitVec 32) : ashldi3 a b = a <<< (b.toNat % 64) := by
  have hb : b.toNat % 64 < 64 := Nat.mod_lt _ (by norm_num)
  rw [ashldi3, and_63]
  generalize b.toNat % 64 = b at hb
  refine BitVec.eq_of_getLsbD_eq fun i hi => ?_
  split
  case isTrue hge =>
    simp only [word_getLsbD, BitVec.getLsbD_shiftLeft, lo_getLsbD, BitVec.ofNat_eq_ofNat, BitVec.getLsbD_zero]
    grind
  case isFalse hlt =>
    split
    case isTrue hne =>
      simp only [word_getLsbD, BitVec.getLsbD_shiftLeft, BitVec.getLsbD_or, BitVec.getLsbD_ushiftRight,
        lo_getLsbD, hi_getLsbD]
      grind
    case isFalse h0 => rw [not_not.mp h0, BitVec.shiftLeft_zero]

/-- The lower half after a shift right takes bits from both halves. -/
theorem funnel_getLsbD (a : BitVec 64) {b i : ℕ} (hb : b < 32) (hi32 : i < 32) :
    (hi a <<< (32 - b) ||| lo a >>> b).getLsbD i = a.getLsbD (b + i) := by
  rw [BitVec.getLsbD_or, BitVec.getLsbD_shiftLeft, BitVec.getLsbD_ushiftRight, hi_getLsbD, lo_getLsbD]
  by_cases hlow : i < 32 - b
  · simp [hlow, show b + i < 32 by omega]
  · rw [show 32 + (i - (32 - b)) = b + i by omega]
    simp [hlow, hi32, show ¬b + i < 32 by omega, show i - (32 - b) < 32 by omega]

/-- **`__lshrdi3` shifts right**, with zeros from the left. -/
theorem lshrdi3_eq (a : BitVec 64) (b : BitVec 32) : lshrdi3 a b = a >>> (b.toNat % 64) := by
  have hb : b.toNat % 64 < 64 := Nat.mod_lt _ (by norm_num)
  rw [lshrdi3, and_63]
  generalize b.toNat % 64 = b at hb
  refine BitVec.eq_of_getLsbD_eq fun i hi => ?_
  split
  case isTrue hge =>
    simp only [word_getLsbD, BitVec.getLsbD_ushiftRight, hi_getLsbD, BitVec.ofNat_eq_ofNat,
      BitVec.getLsbD_zero]
    grind
  case isFalse hlt =>
    split
    case isTrue hne =>
      rw [word_getLsbD, BitVec.getLsbD_ushiftRight]
      split
      case isTrue hi32 => rw [funnel_getLsbD a (by omega) hi32, BitVec.getLsbD_ushiftRight]
      case isFalse hi32 =>
        rw [BitVec.getLsbD_ushiftRight, hi_getLsbD, show 32 + (b + (i - 32)) = b + i by omega]
        grind
    case isFalse h0 => rw [not_not.mp h0, BitVec.ushiftRight_zero]

theorem hi_msb (a : BitVec 64) : (hi a).msb = a.msb := by
  rw [BitVec.msb_eq_getLsbD_last, BitVec.msb_eq_getLsbD_last, hi_getLsbD]
  rfl

/-- **`__ashrdi3` shifts right**, with the sign from the left. -/
theorem ashrdi3_eq (a : BitVec 64) (b : BitVec 32) : ashrdi3 a b = a.sshiftRight (b.toNat % 64) := by
  have hb : b.toNat % 64 < 64 := Nat.mod_lt _ (by norm_num)
  have htop : a.getLsbD 63 = a.msb := (BitVec.msb_eq_getLsbD_last a).symm
  rw [ashrdi3, and_63]
  generalize b.toNat % 64 = b at hb
  refine BitVec.eq_of_getLsbD_eq fun i hi => ?_
  split
  case isTrue hge =>
    simp only [word_getLsbD, BitVec.getLsbD_sshiftRight, hi_getLsbD, hi_msb]
    grind
  case isFalse hlt =>
    split
    case isTrue hne =>
      rw [word_getLsbD, BitVec.getLsbD_sshiftRight]
      split
      case isTrue hi32 =>
        rw [funnel_getLsbD a (by omega) hi32]
        grind
      case isFalse hi32 =>
        rw [BitVec.getLsbD_sshiftRight, hi_getLsbD, hi_msb, show 32 + (b + (i - 32)) = b + i by omega]
        grind
    case isFalse h0 => rw [not_not.mp h0, BitVec.sshiftRight_zero]

/-- **The three shifts.** The count is taken modulo 64. -/
theorem shifts_eq (a : BitVec 64) (b : BitVec 32) :
    ashldi3 a b = a <<< (b.toNat % 64) ∧ lshrdi3 a b = a >>> (b.toNat % 64) ∧
      ashrdi3 a b = a.sshiftRight (b.toNat % 64) :=
  ⟨ashldi3_eq a b, lshrdi3_eq a b, ashrdi3_eq a b⟩

/-! ### The first one -/

/-- One line of `__clzsi2` and `__clzdi2`: the value of `a` and `n` after it. -/
def clzStep {w : ℕ} (p : BitVec w × ℕ) (mask : BitVec w) (k : ℕ) : BitVec w × ℕ :=
  let b := if p.1 &&& mask = 0 then 1 <<< k else 0
  (p.1 <<< b, p.2 + b)

/-- `__clzsi2`. -/
def clzsi2 (a : BitVec 32) : ℕ :=
  let p := clzStep (a, 0) 0xffff0000 4
  let p := clzStep p 0xff000000 3
  let p := clzStep p 0xf0000000 2
  let p := clzStep p 0xc0000000 1
  p.2 + if p.1 &&& 0x80000000 = 0 then 1 else 0

/-- `__clzdi2`. -/
def clzdi2 (a : BitVec 64) : ℕ :=
  let p := clzStep (a, 0) 0xffffffff00000000 5
  let p := clzStep p 0xffff000000000000 4
  let p := clzStep p 0xff00000000000000 3
  let p := clzStep p 0xf000000000000000 2
  let p := clzStep p 0xc000000000000000 1
  p.2 + if p.1 &&& 0x8000000000000000 = 0 then 1 else 0

variable {w x : ℕ} {mask : BitVec w} {p : BitVec w × ℕ}

/-- The state of a search that the two variables stand for. -/
def state (p : BitVec w × ℕ) : ℕ × ℕ := (p.1.toNat, p.2)

theorem and_highMask_eq_zero {a : BitVec w} {s : ℕ} (hs : s ≤ w) (hm : mask.toNat = Bits.highMask w s) :
    a &&& mask = 0 ↔ a.toNat < 2 ^ s := by
  rw [← BitVec.toNat_inj, BitVec.toNat_and, hm, Bits.and_highMask hs a.isLt]
  change _ = 0 ↔ _
  rw [Nat.mul_eq_zero, Nat.div_eq_zero_iff_lt (Nat.two_pow_pos s)]
  exact or_iff_left (Nat.two_pow_pos s).ne'

theorem clzStep_halve (k : ℕ) (mask : BitVec w) (h : BitSearch.Leading w x (2 * 2 ^ k) (state p))
    (hs : 2 * 2 ^ k ≤ w) (hm : mask.toNat = Bits.highMask w (w - 2 ^ k)) :
    BitSearch.Leading w x (2 ^ k) (state (clzStep p mask k)) := by
  have hstep := h.halve hs
  rw [clzStep, state]
  split at hstep
  case isTrue hlt =>
    rw [if_pos ((and_highMask_eq_zero (Nat.sub_le _ _) hm).mpr hlt), Nat.one_shiftLeft,
      BitVec.toNat_shiftLeft, Nat.shiftLeft_eq, Nat.mod_eq_of_lt hstep.lt]
    exact hstep
  case isFalse hge =>
    rw [if_neg (mt (and_highMask_eq_zero (Nat.sub_le _ _) hm).mp hge), BitVec.shiftLeft_zero]
    exact hstep

/-- **`__clzsi2` finds the highest one**: the bit with so many above it is set, and none above it is. -/
theorem clzsi2_leading {a : BitVec 32} (h : a ≠ 0) :
    clzsi2 a < 32 ∧ a.getLsbD (31 - clzsi2 a) = true ∧ ∀ j, 31 - clzsi2 a < j → a.getLsbD j = false := by
  have h0 : BitSearch.Leading 32 a.toNat 32 (state (a, 0)) :=
    .start (fun h0 => h (BitVec.eq_of_toNat_eq h0)) a.isLt
  have h4 := clzStep_halve 4 0xffff0000 h0 (by decide) (by decide)
  have h3 := clzStep_halve 3 0xff000000 h4 (by decide) (by decide)
  have h2 := clzStep_halve 2 0xf0000000 h3 (by decide) (by decide)
  have h1 := clzStep_halve 1 0xc0000000 h2 (by decide) (by decide)
  exact (clzStep_halve 0 0x80000000 h1 (by decide) (by decide)).spec

/-- **`__clzdi2` finds the highest one**, by its halves. -/
theorem clzdi2_leading {a : BitVec 64} (h : a ≠ 0) :
    clzdi2 a < 64 ∧ a.getLsbD (63 - clzdi2 a) = true ∧ ∀ j, 63 - clzdi2 a < j → a.getLsbD j = false := by
  have h0 : BitSearch.Leading 64 a.toNat 64 (state (a, 0)) :=
    .start (fun h0 => h (BitVec.eq_of_toNat_eq h0)) a.isLt
  have h5 := clzStep_halve 5 0xffffffff00000000 h0 (by decide) (by decide)
  have h4 := clzStep_halve 4 0xffff000000000000 h5 (by decide) (by decide)
  have h3 := clzStep_halve 3 0xff00000000000000 h4 (by decide) (by decide)
  have h2 := clzStep_halve 2 0xf000000000000000 h3 (by decide) (by decide)
  have h1 := clzStep_halve 1 0xc000000000000000 h2 (by decide) (by decide)
  exact (clzStep_halve 0 0x8000000000000000 h1 (by decide) (by decide)).spec

/-! ### The last one -/

/-- One line of `__ctzsi2` and `__ctzdi2`. -/
def ctzStep {w : ℕ} (p : BitVec w × ℕ) (mask : BitVec w) (k : ℕ) : BitVec w × ℕ :=
  let b := if p.1 &&& mask = 0 then 1 <<< k else 0
  (p.1 >>> b, p.2 + b)

/-- `__ctzsi2`. -/
def ctzsi2 (a : BitVec 32) : ℕ :=
  let p := ctzStep (a, 0) 0x0000ffff 4
  let p := ctzStep p 0x000000ff 3
  let p := ctzStep p 0x0000000f 2
  let p := ctzStep p 0x00000003 1
  p.2 + if p.1 &&& 0x00000001 = 0 then 1 else 0

/-- `__ctzdi2`. -/
def ctzdi2 (a : BitVec 64) : ℕ :=
  let p := ctzStep (a, 0) 0x00000000ffffffff 5
  let p := ctzStep p 0x000000000000ffff 4
  let p := ctzStep p 0x00000000000000ff 3
  let p := ctzStep p 0x000000000000000f 2
  let p := ctzStep p 0x0000000000000003 1
  p.2 + if p.1 &&& 0x0000000000000001 = 0 then 1 else 0

/-- `__ffsdi2`. -/
def ffsdi2 (a : BitVec 64) : ℕ := if a ≠ 0 then ctzdi2 a + 1 else 0

theorem and_lowMask_eq_zero {a : BitVec w} {s : ℕ} (hm : mask.toNat = 2 ^ s - 1) :
    a &&& mask = 0 ↔ 2 ^ s ∣ a.toNat := by
  rw [← BitVec.toNat_inj, BitVec.toNat_and, hm, Nat.and_two_pow_sub_one_eq_mod]
  exact (Nat.dvd_iff_mod_eq_zero ..).symm

theorem ctzStep_halve (k : ℕ) (mask : BitVec w) (h : BitSearch.Trailing x (2 * 2 ^ k) (state p))
    (hm : mask.toNat = 2 ^ 2 ^ k - 1) :
    BitSearch.Trailing x (2 ^ k) (state (ctzStep p mask k)) := by
  have hstep := h.halve
  rw [ctzStep, state]
  split at hstep
  case isTrue hdvd =>
    rw [if_pos ((and_lowMask_eq_zero hm).mpr hdvd), Nat.one_shiftLeft, BitVec.toNat_ushiftRight,
      Nat.shiftRight_eq_div_pow]
    exact hstep
  case isFalse hnot =>
    rw [if_neg (mt (and_lowMask_eq_zero hm).mp hnot), BitVec.ushiftRight_zero]
    exact hstep

/-- **`__ctzsi2` finds the lowest one**: the bit is set, and none below it is. -/
theorem ctzsi2_trailing {a : BitVec 32} (h : a ≠ 0) :
    a.getLsbD (ctzsi2 a) = true ∧ ∀ j < ctzsi2 a, a.getLsbD j = false := by
  have h0 : BitSearch.Trailing a.toNat 32 (state (a, 0)) :=
    .start (fun h0 => h (BitVec.eq_of_toNat_eq h0)) a.isLt
  have h4 := ctzStep_halve 4 0x0000ffff h0 (by decide)
  have h3 := ctzStep_halve 3 0x000000ff h4 (by decide)
  have h2 := ctzStep_halve 2 0x0000000f h3 (by decide)
  have h1 := ctzStep_halve 1 0x00000003 h2 (by decide)
  exact (ctzStep_halve 0 0x00000001 h1 (by decide)).spec

/-- **`__ctzdi2` finds the lowest one**, by its halves. -/
theorem ctzdi2_trailing {a : BitVec 64} (h : a ≠ 0) :
    a.getLsbD (ctzdi2 a) = true ∧ ∀ j < ctzdi2 a, a.getLsbD j = false := by
  have h0 : BitSearch.Trailing a.toNat 64 (state (a, 0)) :=
    .start (fun h0 => h (BitVec.eq_of_toNat_eq h0)) a.isLt
  have h5 := ctzStep_halve 5 0x00000000ffffffff h0 (by decide)
  have h4 := ctzStep_halve 4 0x000000000000ffff h5 (by decide)
  have h3 := ctzStep_halve 3 0x00000000000000ff h4 (by decide)
  have h2 := ctzStep_halve 2 0x000000000000000f h3 (by decide)
  have h1 := ctzStep_halve 1 0x0000000000000003 h2 (by decide)
  exact (ctzStep_halve 0 0x0000000000000001 h1 (by decide)).spec

/-- **The highest and the lowest one** of a word are found, for both sizes of words. -/
theorem ones_located (a : BitVec 64) (c : BitVec 32) :
    (a ≠ 0 → (clzdi2 a < 64 ∧ a.getLsbD (63 - clzdi2 a) = true ∧
        ∀ j, 63 - clzdi2 a < j → a.getLsbD j = false) ∧
      a.getLsbD (ctzdi2 a) = true ∧ ∀ j < ctzdi2 a, a.getLsbD j = false) ∧
    (c ≠ 0 → (clzsi2 c < 32 ∧ c.getLsbD (31 - clzsi2 c) = true ∧
        ∀ j, 31 - clzsi2 c < j → c.getLsbD j = false) ∧
      c.getLsbD (ctzsi2 c) = true ∧ ∀ j < ctzsi2 c, c.getLsbD j = false) ∧
    (ffsdi2 a = 0 ↔ a = 0) ∧ ∀ i, ffsdi2 a = i + 1 ↔ a.getLsbD i = true ∧ ∀ j < i, a.getLsbD j = false := by
  refine ⟨fun ha => ⟨clzdi2_leading ha, ctzdi2_trailing ha⟩,
    fun hc => ⟨clzsi2_leading hc, ctzsi2_trailing hc⟩, ?_, fun i => ?_⟩
  · rw [ffsdi2]
    split
    case isTrue ha => exact iff_of_false (Nat.succ_ne_zero _) ha
    case isFalse ha => exact iff_of_true rfl (not_not.mp ha)
  · by_cases ha : a = 0
    · rw [ffsdi2, if_neg (not_not.mpr ha), ha, BitVec.ofNat_eq_ofNat, BitVec.getLsbD_zero]
      exact iff_of_false (Nat.succ_ne_zero i).symm fun h => Bool.false_ne_true h.1
    · obtain ⟨hone, hzero⟩ := ctzdi2_trailing ha
      rw [ffsdi2, if_pos ha, Nat.add_right_cancel_iff]
      constructor
      · rintro rfl
        exact ⟨hone, hzero⟩
      · rintro ⟨hi, hbelow⟩
        rcases lt_trichotomy (ctzdi2 a) i with hlt | heq | hgt
        · exact absurd ((hbelow _ hlt).symm.trans hone) Bool.false_ne_true
        · exact heq
        · exact absurd ((hzero _ hgt).symm.trans hi) Bool.false_ne_true

/-! ### The number of ones -/

/-- `__popcountsi2`. -/
def popcountsi2 (a : BitVec 32) : ℕ :=
  let a := a - (a >>> 1 &&& 0x55555555)
  let a := (a >>> 2 &&& 0x33333333) + (a &&& 0x33333333)
  let a := (a + a >>> 4) &&& 0x0F0F0F0F
  let a := a + a >>> 16
  ((a + a >>> 8) &&& 63).toNat

/-- `__popcountdi2`. -/
def popcountdi2 (a : BitVec 64) : ℕ :=
  let a := a - (a >>> 1 &&& 0x5555555555555555)
  let a := (a >>> 2 &&& 0x3333333333333333) + (a &&& 0x3333333333333333)
  let a := (a + a >>> 4) &&& 0x0F0F0F0F0F0F0F0F
  let a := a + a >>> 32
  let a := a + a >>> 16
  ((a + a >>> 8) &&& 127).toNat

section Popcount

open DigitSum Finset

/-- Bit `i` as a digit. -/
def bitDigit (a : BitVec w) (i : ℕ) : ℕ := (a.getLsbD i).toNat

/-- Neighbours added up. -/
def pair (f : ℕ → ℕ) (i : ℕ) : ℕ := f (2 * i) + f (2 * i + 1)

theorem bitDigit_le (a : BitVec w) (i : ℕ) : bitDigit a i ≤ 1 := Bool.toNat_le _

theorem pair_le {f : ℕ → ℕ} {c : ℕ} (h : ∀ i, f i ≤ c) (i : ℕ) : pair f i ≤ 2 * c := by
  have h0 := h (2 * i)
  have h1 := h (2 * i + 1)
  rw [pair]
  omega

/-- A word is the sum of its bits, each at its place. -/
theorem packed_bitDigit (a : BitVec w) : packed 1 w (bitDigit a) = a.toNat :=
  packed_testBit a.isLt

variable {n : ℕ} {a m : BitVec w} {f : ℕ → ℕ}

/-- The first line: two digits of one bit, the upper one taken off. -/
theorem sub_step (hf : ∀ i, f i ≤ 1) (ha : a.toNat = packed 1 (2 * n) f) (hm : m.toNat = halfMask 1 n) :
    (a - (a >>> 1 &&& m)).toNat = packed 2 n (pair f) := by
  have hodd : (a >>> 1 &&& m).toNat = packed (2 * 1) n fun i => f (2 * i + 1) := by
    rw [BitVec.toNat_and, BitVec.toNat_ushiftRight, Nat.shiftRight_eq_div_pow, ha, hm]
    exact packed_shift_and_mask fun i => lt_of_le_of_lt (hf i) (by norm_num)
  have hsplit := packed_pairs 1 n f
  have hsum := packed_add (2 * 1) n (fun i => f (2 * i)) fun i => f (2 * i + 1)
  have hle : (a >>> 1 &&& m).toNat ≤ a.toNat := by rw [hodd, ha, hsplit]; omega
  rw [BitVec.toNat_sub_of_le hle, hodd, ha, hsplit]
  change _ = packed (2 * 1) n fun i => f (2 * i) + f (2 * i + 1)
  omega

/-- The second line: both digits under the mask, then added. -/
theorem mask_step {k : ℕ} (hk : 1 ≤ k) (hw : 2 * k * n ≤ w) (hf : ∀ i, f i < 2 ^ k)
    (ha : a.toNat = packed k (2 * n) f) (hm : m.toNat = halfMask k n) :
    ((a >>> k &&& m) + (a &&& m)).toNat = packed (2 * k) n (pair f) := by
  have hodd : (a >>> k &&& m).toNat = packed (2 * k) n fun i => f (2 * i + 1) := by
    rw [BitVec.toNat_and, BitVec.toNat_ushiftRight, Nat.shiftRight_eq_div_pow, ha, hm]
    exact packed_shift_and_mask hf
  have heven : (a &&& m).toNat = packed (2 * k) n fun i => f (2 * i) := by
    rw [BitVec.toNat_and, ha, hm]
    exact packed_and_mask hf
  have hpair : ∀ i, f (2 * i + 1) + f (2 * i) < 2 ^ (2 * k) := by
    intro i
    have h0 := hf (2 * i)
    have h1 := hf (2 * i + 1)
    have hpow : 2 ^ (k + 1) ≤ 2 ^ (2 * k) := Nat.pow_le_pow_right (by norm_num) (by omega)
    rw [pow_succ] at hpow
    omega
  rw [BitVec.toNat_add, hodd, heven, packed_add, Nat.mod_eq_of_lt]
  · exact congrArg (packed (2 * k) n) (funext fun i => Nat.add_comm _ _)
  · exact lt_of_lt_of_le (packed_lt hpair) (by rw [← pow_mul]; exact Nat.pow_le_pow_right (by norm_num) hw)

/-- The third line: the digits are wide enough to be added before the mask. -/
theorem add_step {k : ℕ} (hw : 2 * k * n ≤ w) (hf : ∀ i, f i + f (i + 1) < 2 ^ k) (h0 : f (2 * n) = 0)
    (ha : a.toNat = packed k (2 * n) f) (hm : m.toNat = halfMask k n) :
    ((a + a >>> k) &&& m).toNat = packed (2 * k) n (pair f) := by
  have hlt : ∀ i, f i < 2 ^ k := fun i => lt_of_le_of_lt (Nat.le_add_right _ _) (hf i)
  have hshift : (a >>> k).toNat = packed k (2 * n) fun i => f (i + 1) := by
    have hpad : packed k (2 * n + 1) f = packed k (2 * n) f := by
      rw [packed_succ, h0, Nat.zero_mul, Nat.add_zero]
    rw [BitVec.toNat_ushiftRight, Nat.shiftRight_eq_div_pow, ha, ← hpad, packed_shift hlt]
  rw [BitVec.toNat_and, BitVec.toNat_add, hshift, ha, packed_add, Nat.mod_eq_of_lt, hm, packed_and_mask hf]
  · rfl
  · refine lt_of_lt_of_le (packed_lt hf) ?_
    rw [← pow_mul]
    exact Nat.pow_le_pow_right (by norm_num) (le_trans (le_of_eq (by ring)) hw)

/-- The sum of the digits after neighbours are added three times. -/
theorem sum_pair_three (n : ℕ) (f : ℕ → ℕ) :
    ∑ i ∈ range n, pair (pair (pair f)) i = ∑ i ∈ range (2 * (2 * (2 * n))), f i := by
  rw [← sum_pairs, ← sum_pairs, ← sum_pairs]
  rfl

/-- The three lines both functions begin with: each byte of the word holds the number of its ones. -/
theorem bytes_eq (n : ℕ) (m1 m2 m4 : BitVec w) (hw : w = 2 * (2 * (2 * n)))
    (h1 : m1.toNat = halfMask 1 (2 * (2 * n))) (h2 : m2.toNat = halfMask 2 (2 * n))
    (h4 : m4.toNat = halfMask 4 n) (a : BitVec w) :
    let b := a - (a >>> 1 &&& m1)
    let c := (b >>> 2 &&& m2) + (b &&& m2)
    ((c + c >>> 4) &&& m4).toNat = packed 8 n (pair (pair (pair (bitDigit a)))) := by
  intro b c
  have ha : a.toNat = packed 1 (2 * (2 * (2 * n))) (bitDigit a) :=
    (packed_bitDigit a).symm.trans (congrArg (packed 1 · (bitDigit a)) hw)
  have hbit := bitDigit_le a
  have hpair := pair_le hbit
  have hquad := pair_le hpair
  have hb : b.toNat = packed 2 (2 * (2 * n)) (pair (bitDigit a)) := sub_step hbit ha h1
  have hc : c.toNat = packed 4 (2 * n) (pair (pair (bitDigit a))) :=
    mask_step (by norm_num) (by omega) (fun i => lt_of_le_of_lt (hpair i) (by decide)) hb h2
  refine add_step (k := 4) (by omega) (fun i => ?_) ?_ hc h4
  · have hi := hquad i
    have hi1 := hquad (i + 1)
    norm_num
    omega
  · have hzero : ∀ i, w ≤ i → bitDigit a i = 0 := by
      intro i hi
      rw [bitDigit, BitVec.getLsbD_of_ge a i hi]
      rfl
    rw [pair, pair, pair, hzero _ (by omega), hzero _ (by omega), hzero _ (by omega), hzero _ (by omega)]

/-- Two shifts and two sums add up the four bytes of a word, if none of them exceeds 8. -/
theorem fold_four {g0 g1 g2 g3 x y : ℕ} (h0 : g0 ≤ 8) (h1 : g1 ≤ 8) (h2 : g2 ≤ 8) (h3 : g3 ≤ 8)
    (hx : x = g0 + g1 * 256 + g2 * 65536 + g3 * 16777216) (hy : y = (x + x / 2 ^ 16) % 2 ^ 32) :
    (y + y / 2 ^ 8) % 2 ^ 32 % 2 ^ 6 = g0 + g1 + g2 + g3 := by
  have hshift : x / 2 ^ 16 = g2 + g3 * 256 := by omega
  have hy' : y = g0 + g2 + (g1 + g3) * 256 + g2 * 65536 + g3 * 16777216 := by omega
  have hshift' : y / 2 ^ 8 = g1 + g3 + g2 * 256 + g3 * 65536 := by omega
  rw [hshift', hy']
  omega

/-- Eight bytes added up. Above the lowest bytes nothing matters, as long as it stays so small that it
does not leave the word. -/
theorem fold_eight {g0 g1 g2 g3 u x y : ℕ} (h0 : g0 ≤ 16) (h1 : g1 ≤ 16) (h2 : g2 ≤ 16) (h3 : g3 ≤ 16)
    (hu : u ≤ 2 ^ 28) (hx : x = g0 + g1 * 256 + g2 * 65536 + g3 * 16777216 + u * 4294967296)
    (hy : y = (x + x / 2 ^ 16) % 2 ^ 64) : (y + y / 2 ^ 8) % 2 ^ 64 % 2 ^ 7 = g0 + g1 + g2 + g3 := by
  have hshift : x / 2 ^ 16 = g2 + g3 * 256 + u * 65536 := by omega
  obtain ⟨v, hv⟩ : ∃ v, v = g2 + g3 * 256 + u * 65536 + u := ⟨_, rfl⟩
  have hy' : y = g0 + g2 + (g1 + g3) * 256 + v * 65536 := by omega
  have hshift' : y / 2 ^ 8 = g1 + g3 + v * 256 := by omega
  rw [hshift', hy']
  omega

/-- The upper four bytes of eight added to the lower four. -/
theorem fold_upper {g0 g1 g2 g3 u x y : ℕ} (h0 : g0 ≤ 8) (h1 : g1 ≤ 8) (h2 : g2 ≤ 8) (h3 : g3 ≤ 8)
    (hu : u < 2 ^ 28) (hx : x = g0 + g1 * 256 + g2 * 65536 + g3 * 16777216 + u * 4294967296)
    (hy : y = (x + x / 2 ^ 32) % 2 ^ 64) :
    y = g0 + g1 * 256 + g2 * 65536 + g3 * 16777216 + u + u * 4294967296 := by
  have hshift : x / 2 ^ 32 = u := by omega
  omega

theorem add_shift_toNat (x : BitVec w) (k : ℕ) :
    (x + x >>> k).toNat = (x.toNat + x.toNat / 2 ^ k) % 2 ^ w := by
  rw [BitVec.toNat_add, BitVec.toNat_ushiftRight, Nat.shiftRight_eq_div_pow]

theorem fold_word32 {c : BitVec 32} {g : ℕ → ℕ} (hg : ∀ i, g i ≤ 8) (hc : c.toNat = packed 8 4 g) :
    ((c + c >>> 16 + (c + c >>> 16) >>> 8) &&& 63).toNat = ∑ i ∈ range 4, g i := by
  norm_num [packed, sum_range_succ] at hc
  rw [and_63, add_shift_toNat]
  refine (fold_four (hg 0) (hg 1) (hg 2) (hg 3) hc (add_shift_toNat c 16)).trans ?_
  norm_num [sum_range_succ]

theorem fold_word64 {c d : BitVec 64} {g : ℕ → ℕ} (hg : ∀ i, g i ≤ 8) (hc : c.toNat = packed 8 8 g)
    (hd : d = c + c >>> 32) :
    ((d + d >>> 16 + (d + d >>> 16) >>> 8) &&& 127).toNat = ∑ i ∈ range 8, g i := by
  have hu : g 4 + g 5 * 256 + g 6 * 65536 + g 7 * 16777216 < 2 ^ 28 := by
    have h4 := hg 4
    have h5 := hg 5
    have h6 := hg 6
    have h7 := hg 7
    omega
  have hsplit : c.toNat = g 0 + g 1 * 256 + g 2 * 65536 + g 3 * 16777216
      + (g 4 + g 5 * 256 + g 6 * 65536 + g 7 * 16777216) * 4294967296 := by
    norm_num [packed, sum_range_succ] at hc
    rw [hc]
    ring
  have hupper := fold_upper (hg 0) (hg 1) (hg 2) (hg 3) hu hsplit (add_shift_toNat c 32)
  rw [← hd] at hupper
  have h16 : ∀ i j, g i + g j ≤ 16 := fun i j => Nat.add_le_add (hg i) (hg j)
  have hsum := fold_eight (h16 0 4) (h16 1 5) (h16 2 6) (h16 3 7) hu.le (hupper.trans (by ring))
    (add_shift_toNat d 16)
  rw [BitVec.toNat_and, add_shift_toNat]
  refine (Nat.and_two_pow_sub_one_eq_mod _ 7).trans (hsum.trans ?_)
  norm_num [sum_range_succ]
  ring

/-- **`__popcountsi2` counts the ones** of a word of 32 bits. -/
theorem popcountsi2_eq (a : BitVec 32) : popcountsi2 a = ((range 32).filter fun i => a.getLsbD i).card := by
  have hbytes := bytes_eq 4 0x55555555 0x33333333 0x0F0F0F0F rfl
    (by decide) (by decide) (by decide) a
  rw [← sum_toNat]
  exact (fold_word32 (pair_le (pair_le (pair_le (bitDigit_le a)))) hbytes).trans
    (sum_pair_three 4 (bitDigit a))

/-- **`__popcountdi2` counts the ones** of a word of 64 bits. -/
theorem popcountdi2_eq (a : BitVec 64) : popcountdi2 a = ((range 64).filter fun i => a.getLsbD i).card := by
  have hbytes := bytes_eq 8 0x5555555555555555 0x3333333333333333 0x0F0F0F0F0F0F0F0F rfl
    (by decide) (by decide) (by decide) a
  rw [← sum_toNat]
  exact (fold_word64 (pair_le (pair_le (pair_le (bitDigit_le a)))) hbytes rfl).trans
    (sum_pair_three 8 (bitDigit a))

/-- **The ones are counted**, for both sizes of words. -/
theorem popcount_eq (a : BitVec 64) (c : BitVec 32) :
    popcountdi2 a = ((range 64).filter fun i => a.getLsbD i).card ∧
      popcountsi2 c = ((range 32).filter fun i => c.getLsbD i).card :=
  ⟨popcountdi2_eq a, popcountsi2_eq c⟩

end Popcount

end GeekToyOS.Div
