import GeekToyOS.Data.Bits

/-!
# Words and the macros of `const.h`

Addresses and sizes (`addr_t`, `size_t`) are 64-bit words, held as natural numbers below `2 ^ 64`;
wherever the code's arithmetic can leave that range the reduction is written out. The macros of
`include/lib/const.h` are kept as the bit operations they are; for a power of two they round.
-/

namespace GeekToyOS

/-- `a + b` on `size_t`. -/
def wadd (a b : ℕ) : ℕ := (a + b) % 2 ^ 64

/-- `a - b` on `size_t`. -/
def wsub (a b : ℕ) : ℕ := (a + 2 ^ 64 - b) % 2 ^ 64

/-- `a * b` on `size_t`. -/
def wmul (a b : ℕ) : ℕ := a * b % 2 ^ 64

/-- `a << k` on `size_t`. -/
def wshl (a k : ℕ) : ℕ := (a <<< k) % 2 ^ 64

theorem wadd_of_lt {a b : ℕ} (h : a + b < 2 ^ 64) : wadd a b = a + b := Nat.mod_eq_of_lt h

theorem wsub_of_le {a b : ℕ} (hb : b ≤ a) (ha : a < 2 ^ 64) : wsub a b = a - b := by
  rw [wsub]
  omega

theorem wsub_self_add {a b : ℕ} (ha : a < 2 ^ 64) (hb : b < 2 ^ 64) : wadd b (wsub a b) = a := by
  rw [wadd, wsub]
  omega

theorem wshl_eq (a k : ℕ) : wshl a k = a * 2 ^ k % 2 ^ 64 := by rw [wshl, Nat.shiftLeft_eq]

/-- `word_size`. -/
def wordSize : ℕ := 8

/-- `size_mask`. -/
def sizeMask (size : ℕ) : ℕ := size - 1

/-- `bit_size`. -/
def bitSize (x : ℕ) : ℕ := 1 <<< x

/-- `bit_mask`. -/
def bitMask (size : ℕ) : ℕ := sizeMask (bitSize size)

/-- `div_round_up`. -/
def divRoundUp (x d : ℕ) : ℕ := wsub (wadd x d) 1 / d

/-- `~size_mask(a)` on 64 bits. -/
def notSizeMask (a : ℕ) : ℕ := 2 ^ 64 - 1 - sizeMask a

/-- `align`. -/
def align (x a : ℕ) : ℕ := wadd x (sizeMask a) &&& notSizeMask a

/-- `align_down`. -/
def alignDown (x a : ℕ) : ℕ := x &&& notSizeMask a

theorem bitSize_eq (k : ℕ) : bitSize k = 2 ^ k := Nat.one_shiftLeft k

theorem bitMask_eq (k : ℕ) : bitMask k = 2 ^ k - 1 := by rw [bitMask, sizeMask, bitSize_eq]

theorem notSizeMask_two_pow (k : ℕ) : notSizeMask (2 ^ k) = Bits.highMask 64 k := by
  have := Nat.two_pow_pos k
  rw [notSizeMask, sizeMask, Bits.highMask]
  omega

/-- **`align_down` rounds down** to a multiple of a power of two. -/
theorem alignDown_two_pow {x k : ℕ} (hk : k ≤ 64) (hx : x < 2 ^ 64) :
    alignDown x (2 ^ k) = x / 2 ^ k * 2 ^ k := by
  rw [alignDown, notSizeMask_two_pow, Bits.and_highMask hk hx]

/-- **`align` rounds up** to a multiple of a power of two, where the sum does not wrap around. -/
theorem align_two_pow {x k : ℕ} (hk : k ≤ 64) (hx : x + (2 ^ k - 1) < 2 ^ 64) :
    align x (2 ^ k) = (x + (2 ^ k - 1)) / 2 ^ k * 2 ^ k := by
  rw [align, sizeMask, wadd_of_lt hx, notSizeMask_two_pow, Bits.and_highMask hk hx]

end GeekToyOS
