import GeekToyOS.Lib.Const

/-!
# Bitmaps

`bitmap_set` and `bitmap_find` of `src/lib/bitmap.c`, byte by byte. A range of bits is worked on in
three parts: the end of its first byte, the whole bytes, and the beginning of its last byte. Each part
comes with a mask, and the proofs follow the same cut.

## Main definitions

* `Bitmap.bit m i` — bit `i`
* `bitmapSet`, `bitmapFind` — the two functions of the source

## Main results

* `bitmapSet_bit` — the bits after setting a range
* `bitmapFind_spec` — the search finds the first bit that has the value, or there is none
-/

namespace GeekToyOS

/-- `struct bitmap`; `map i` is the byte at `map + i`. -/
structure Bitmap where
  map : ℕ → BitVec 8
  size : ℕ

namespace Bitmap

/-- Bit `i` of the map. -/
def bit (m : Bitmap) (i : ℕ) : Bool := (m.map (i / 8)).getLsbD (i % 8)

end Bitmap

/-- A `size_t` returned as an `int`. -/
def toInt (n : ℕ) : ℤ := Int.bmod n (2 ^ 32)

theorem toInt_of_lt {n : ℕ} (h : n < 2 ^ 31) : toInt n = n := by
  have hm : ((2 ^ 32 : ℕ) : ℤ) = 4294967296 := rfl
  exact Int.bmod_eq_of_le (by omega) (by omega)

/-- `bit_mask(n)` as a `u8`. -/
def bitMask8 (n : ℕ) : BitVec 8 := BitVec.ofNat 8 (bitMask n)

/-- `if(value) map[i] |= mask; else map[i] &= ~mask;` -/
def Bitmap.setMasked (m : Bitmap) (value : ℤ) (i : ℕ) (mask : BitVec 8) : Bitmap :=
  { m with map := Function.update m.map i (if value ≠ 0 then m.map i ||| mask else m.map i &&& ~~~mask) }

/-- `memset(map + start, value? 0xFF: 0x0, len)`. -/
def Bitmap.memset (m : Bitmap) (value : ℤ) (start len : ℕ) : Bitmap :=
  { m with map := fun i =>
      if start ≤ i ∧ i < start + len then (if value ≠ 0 then 0xFF else 0) else m.map i }

/-- `bitmap_set`. -/
def bitmapSet (m : Bitmap) (value : ℤ) (start len : ℕ) : Bitmap :=
  let startBit := min m.size start
  let endBit := min m.size (wadd start len)
  let startByte := align startBit 8 >>> 3
  let endByte := endBit >>> 3
  let startBoundBit := wsub (startByte <<< 3) startBit
  let endBoundBit := wsub endBit (endByte <<< 3)
  if endByte < startByte then
    m.setMasked value (wsub startByte 1) (~~~bitMask8 (8 - startBoundBit) &&& bitMask8 endBoundBit)
  else
    let m := if startBoundBit ≠ 0 then
        m.setMasked value (wsub startByte 1) (~~~bitMask8 (8 - startBoundBit)) else m
    let m := if endByte > startByte then m.memset value startByte (endByte - startByte) else m
    if endBoundBit ≠ 0 then m.setMasked value endByte (bitMask8 endBoundBit) else m

/-- `skip`: a byte that holds nothing to find. -/
def skip (value : ℤ) : BitVec 8 := if value ≠ 0 then 0x0 else 0xFF

/-- Look at one byte under a mask: bits outside the mask are made uninteresting. The result is the
byte's index and what is left of it, unless that is `skip`. -/
def Bitmap.probe (m : Bitmap) (value : ℤ) (i : ℕ) (mask : BitVec 8) : Option (ℕ × BitVec 8) :=
  let byte := if value ≠ 0 then m.map i &&& mask else m.map i ||| ~~~mask
  if byte ≠ skip value then some (i, byte) else none

/-- The loop over the whole bytes. -/
def Bitmap.scan (m : Bitmap) (value : ℤ) : ℕ → ℕ → Option (ℕ × BitVec 8)
  | 0, _ => none
  | n + 1, i => if m.map i ≠ skip value then some (i, m.map i) else m.scan value n (i + 1)

/-- `while(byte&1)`: the number of ones below the first zero. A byte has eight bits. -/
def bitPos : ℕ → BitVec 8 → ℕ → ℕ
  | 0, _, pos => pos
  | n + 1, byte, pos => if byte &&& 1 ≠ 0 then bitPos n (byte >>> 1) (pos + 1) else pos

/-- `bitmap_find`. -/
def bitmapFind (m : Bitmap) (value : ℤ) (start len : ℕ) : ℤ :=
  let startBit := min m.size start
  let endBit := min m.size (wadd start len)
  let startByte := align startBit 8 >>> 3
  let endByte := endBit >>> 3
  let startBoundBit := wsub (startByte <<< 3) startBit
  let endBoundBit := wsub endBit (endByte <<< 3)
  let found :=
    if endByte < startByte then
      m.probe value (wsub startByte 1) (~~~bitMask8 (8 - startBoundBit) &&& bitMask8 endBoundBit)
    else
      (if startBoundBit ≠ 0 then m.probe value (wsub startByte 1) (~~~bitMask8 (8 - startBoundBit))
        else none) <|>
      m.scan value (endByte - startByte) startByte <|>
      (if endBoundBit ≠ 0 then m.probe value endByte (bitMask8 endBoundBit) else none)
  match found with
  | none => -1
  | some (foundByte, byte) =>
    let byte := if value ≠ 0 then ~~~byte else byte
    toInt ((foundByte <<< 3) + bitPos 8 byte 0)

/-! ### Masks -/

theorem getLsbD_bitMask8 {n k : ℕ} (hk : k < 8) : (bitMask8 n).getLsbD k = decide (k < n) := by
  rw [bitMask8, bitMask_eq, BitVec.getLsbD_ofNat, Nat.testBit_two_pow_sub_one]
  simp [hk]

theorem getLsbD_not_bitMask8 {n k : ℕ} (hk : k < 8) :
    (~~~bitMask8 n).getLsbD k = decide (n ≤ k) := by
  rw [BitVec.getLsbD_not, getLsbD_bitMask8 hk]
  simp only [hk, decide_true, Bool.true_and, ← decide_not, Nat.not_lt]

theorem getLsbD_ones : ∀ k < 8, (0xFF : BitVec 8).getLsbD k = true := by decide

/-- The mask covers the bits of byte `i` that lie in `[a, b)`. -/
def Covers (mask : BitVec 8) (i a b : ℕ) : Prop :=
  ∀ k < 8, mask.getLsbD k = decide (a ≤ 8 * i + k ∧ 8 * i + k < b)

theorem getLsbD_skip {value : ℤ} {k : ℕ} (hk : k < 8) :
    (skip value).getLsbD k = decide (value = 0) := by
  by_cases hv : value = 0
  · rw [skip, if_neg (not_not.mpr hv), getLsbD_ones k hk]
    simp [hv]
  · simp [skip, hv]

namespace Bitmap

variable {m : Bitmap} {value : ℤ} {i a b c : ℕ} {mask : BitVec 8}

/-! ### Setting -/

theorem setMasked_bit (hmask : Covers mask i a b) (ha : i ≤ a / 8) (hb : b ≤ 8 * i + 8) (j : ℕ) :
    (m.setMasked value i mask).bit j
      = if a ≤ j ∧ j < b then decide (value ≠ 0) else m.bit j := by
  have hj : j % 8 < 8 := Nat.mod_lt _ (by norm_num)
  by_cases hji : j / 8 = i
  · have hcov := hmask _ hj
    have hval : 8 * i + j % 8 = j := by omega
    rw [hval] at hcov
    rw [bit, setMasked]
    simp only [hji, Function.update_self]
    by_cases hv : value = 0
    · rw [if_neg (not_not.mpr hv), BitVec.getLsbD_and, BitVec.getLsbD_not, hcov]
      by_cases hin : a ≤ j ∧ j < b
      · simp [hin, hv]
      · simp [hin, hj, bit, hji]
    · rw [if_pos hv, BitVec.getLsbD_or, hcov]
      by_cases hin : a ≤ j ∧ j < b
      · simp [hin, hv]
      · simp [hin, bit, hji]
  · rw [if_neg (by omega), bit, bit, setMasked]
    simp only [Function.update_of_ne hji]

theorem memset_bit (n j : ℕ) :
    (m.memset value i n).bit j
      = if 8 * i ≤ j ∧ j < 8 * (i + n) then decide (value ≠ 0) else m.bit j := by
  have hj : j % 8 < 8 := Nat.mod_lt _ (by norm_num)
  have hbyte : i ≤ j / 8 ∧ j / 8 < i + n ↔ 8 * i ≤ j ∧ j < 8 * (i + n) := by omega
  rw [bit, memset]
  by_cases hin : 8 * i ≤ j ∧ j < 8 * (i + n)
  · simp only [hbyte.mpr hin, hin, and_self, if_true]
    by_cases hv : value = 0
    · simp [hv]
    · rw [if_pos hv, getLsbD_ones _ hj]
      simp [hv]
  · rw [if_neg hin]
    simp only [hbyte, hin, if_false]
    rw [bit]

/-! ### Searching -/

/-- What a search of the bits in `[a, b)` may return. -/
def Finds (m : Bitmap) (value : ℤ) (a b : ℕ) : Option (ℕ × BitVec 8) → Prop
  | none => ∀ j, a ≤ j → j < b → m.bit j ≠ decide (value ≠ 0)
  | some (i, byte) =>
    let p := (i <<< 3) + bitPos 8 (if value ≠ 0 then ~~~byte else byte) 0
    a ≤ p ∧ p < b ∧ m.bit p = decide (value ≠ 0) ∧
      ∀ j, a ≤ j → j < p → m.bit j ≠ decide (value ≠ 0)

/-- Searching one range and then the next is searching both. -/
theorem Finds.orElse {r r' : Option (ℕ × BitVec 8)} (h : m.Finds value a b r)
    (h' : m.Finds value b c r') (hab : a ≤ b) (hbc : b ≤ c) : m.Finds value a c (r <|> r') := by
  cases r with
  | some p => exact ⟨h.1, lt_of_lt_of_le h.2.1 hbc, h.2.2⟩
  | none =>
    cases r' with
    | none =>
      intro j hj hj'
      by_cases hjb : j < b
      · exact h j hj hjb
      · exact h' j (by omega) hj'
    | some p =>
      refine ⟨le_trans hab h'.1, h'.2.1, h'.2.2.1, fun j hj hj' => ?_⟩
      by_cases hjb : j < b
      · exact h j hj hjb
      · exact h'.2.2.2 j (by omega) hj'

end Bitmap

/-- **The position loop counts the ones below the first zero.** -/
theorem bitPos_spec : ∀ (n : ℕ) (x : BitVec 8) (pos k : ℕ), k < n → x.getLsbD k = false →
    (∀ j < k, x.getLsbD j = true) → bitPos n x pos = pos + k := by
  intro n
  induction n with
  | zero => exact fun x pos k hk => absurd hk (Nat.not_lt_zero k)
  | succ n ih =>
    intro x pos k hk hzero hones
    have hbit : ∀ x : BitVec 8, x &&& 1 ≠ 0 ↔ x.getLsbD 0 = true := by decide
    cases k with
    | zero =>
      rw [bitPos, if_neg]
      · rfl
      · rw [hbit x, hzero]
        exact Bool.false_ne_true
    | succ k =>
      rw [bitPos, if_pos ((hbit x).mpr (hones 0 (Nat.succ_pos k))), ih (x >>> 1) (pos + 1) k (by omega)]
      · omega
      · rwa [BitVec.getLsbD_ushiftRight, Nat.add_comm]
      · intro j hj
        rw [BitVec.getLsbD_ushiftRight, Nat.add_comm]
        exact hones (j + 1) (by omega)

namespace Bitmap

variable {m : Bitmap} {value : ℤ} {i a b c : ℕ} {mask : BitVec 8}

/-- A byte in which exactly the bits of `[a, b)` that have the value stand out from `skip`. -/
theorem finds_of_byte {byte : BitVec 8} (ha : 8 * i ≤ a) (hb : b ≤ 8 * i + 8)
    (hbyte : ∀ k < 8, (byte.getLsbD k = decide (value ≠ 0) ↔
      (a ≤ 8 * i + k ∧ 8 * i + k < b) ∧ m.bit (8 * i + k) = decide (value ≠ 0))) :
    m.Finds value a b (if byte ≠ skip value then some (i, byte) else none) := by
  have hother : ∀ k < 8, (byte.getLsbD k = decide (value ≠ 0) ↔
      byte.getLsbD k ≠ (skip value).getLsbD k) := by
    intro k hk
    rw [getLsbD_skip hk]
    by_cases hv : value = 0 <;> simp [hv]
  by_cases hskip : byte = skip value
  · rw [if_neg (not_not.mpr hskip)]
    intro j hj hj' hbit
    have hval : 8 * i + j % 8 = j := by omega
    have hk : j % 8 < 8 := Nat.mod_lt _ (by norm_num)
    have := (hbyte _ hk).mpr (hval.symm ▸ ⟨⟨hj, hj'⟩, hbit⟩)
    exact (hother _ hk).mp this (by rw [hskip])
  · rw [if_pos hskip]
    have hex : ∃ k, k < 8 ∧ byte.getLsbD k = decide (value ≠ 0) := by
      by_contra hnone
      push Not at hnone
      refine hskip (BitVec.eq_of_getLsbD_eq fun k hk => ?_)
      by_contra hne
      exact hnone k hk ((hother k hk).mpr hne)
    obtain ⟨hk, hfound⟩ := Nat.find_spec hex
    have hleast : ∀ j < Nat.find hex, byte.getLsbD j ≠ decide (value ≠ 0) := fun j hj he =>
      Nat.find_min hex hj ⟨by omega, he⟩
    have hpos : bitPos 8 (if value ≠ 0 then ~~~byte else byte) 0 = Nat.find hex := by
      rw [bitPos_spec 8 _ 0 (Nat.find hex) hk, Nat.zero_add]
      · by_cases hv : value = 0
        · rw [if_neg (not_not.mpr hv), hfound]
          simp [hv]
        · rw [if_pos hv, BitVec.getLsbD_not, hfound]
          simp [hv]
      · intro j hj
        have hne := hleast j hj
        by_cases hv : value = 0
        · rw [if_neg (not_not.mpr hv)]
          simpa [hv] using hne
        · rw [if_pos hv, BitVec.getLsbD_not]
          have hj8 : j < 8 := by omega
          simpa [hv, hj8] using hne
    have hshift : i <<< 3 = 8 * i := by
      rw [Nat.shiftLeft_eq]
      omega
    obtain ⟨hin, hbit⟩ := (hbyte _ hk).mp hfound
    simp only [Finds, hpos, hshift]
    refine ⟨hin.1, hin.2, hbit, fun j hj hj' hjbit => ?_⟩
    have hval : 8 * i + j % 8 = j := by omega
    exact hleast (j % 8) (by omega)
      ((hbyte _ (Nat.mod_lt _ (by norm_num))).mpr (hval.symm ▸ ⟨⟨hj, by omega⟩, hjbit⟩))

theorem bit_byte {k : ℕ} (hk : k < 8) : m.bit (8 * i + k) = (m.map i).getLsbD k := by
  rw [bit]
  congr 2 <;> omega

theorem probe_finds (hmask : Covers mask i a b) (ha : 8 * i ≤ a) (hb : b ≤ 8 * i + 8) :
    m.Finds value a b (m.probe value i mask) := by
  refine finds_of_byte ha hb fun k hk => ?_
  rw [bit_byte hk]
  by_cases hv : value = 0
  · rw [if_neg (not_not.mpr hv), BitVec.getLsbD_or, BitVec.getLsbD_not, hmask k hk]
    simp [hv, hk, and_comm]
  · rw [if_pos hv, BitVec.getLsbD_and, hmask k hk]
    simp [hv, and_comm]

theorem scan_finds : ∀ n i, m.Finds value (8 * i) (8 * (i + n)) (m.scan value n i) := by
  intro n
  induction n with
  | zero =>
    intro i j hj hj'
    omega
  | succ n ih =>
    intro i
    have hbyte : m.Finds value (8 * i) (8 * (i + 1))
        (if m.map i ≠ skip value then some (i, m.map i) else none) := by
      refine finds_of_byte le_rfl (by omega) fun k hk => ?_
      rw [bit_byte hk]
      exact ⟨fun h => ⟨⟨by omega, by omega⟩, h⟩, And.right⟩
    have hrest := ih (i + 1)
    rw [Nat.add_right_comm, Nat.add_assoc] at hrest
    have hboth := hbyte.orElse hrest (by omega) (by omega)
    rw [scan]
    by_cases hskip : m.map i ≠ skip value
    · rw [if_pos hskip] at hboth ⊢
      exact hboth
    · rw [if_neg hskip] at hboth ⊢
      exact hboth

/-! ### The three parts of a range -/

variable {s e : ℕ}

/-- The byte bounds of a range, as the code computes them. -/
theorem bounds_eq (hs : s + 7 < 2 ^ 64) (he : e < 2 ^ 64) :
    align s 8 >>> 3 = (s + 7) / 8 ∧ wsub (((s + 7) / 8) <<< 3) s = (s + 7) / 8 * 8 - s ∧
      e >>> 3 = e / 8 ∧ wsub e ((e / 8) <<< 3) = e % 8 := by
  have hal := align_two_pow (x := s) (k := 3) (by decide) (by simpa using hs)
  norm_num at hal
  simp only [Nat.shiftRight_eq_div_pow, Nat.shiftLeft_eq]
  norm_num
  refine ⟨by omega, ?_, ?_⟩
  · rw [wsub_of_le (by omega) (by omega)]
  · rw [wsub_of_le (by omega) he]
    omega

theorem covers_head (hs : s < (s + 7) / 8 * 8) :
    Covers (~~~bitMask8 (8 - ((s + 7) / 8 * 8 - s))) ((s + 7) / 8 - 1) s ((s + 7) / 8 * 8) := by
  intro k hk
  rw [getLsbD_not_bitMask8 hk]
  exact decide_eq_decide.mpr (by omega)

theorem covers_tail : Covers (bitMask8 (e % 8)) (e / 8) (e / 8 * 8) e := by
  intro k hk
  rw [getLsbD_bitMask8 hk]
  exact decide_eq_decide.mpr (by omega)

/-- The mask of a range that lies inside one byte. -/
theorem covers_same (hse : s ≤ e) (hb : e / 8 < (s + 7) / 8) :
    Covers (~~~bitMask8 (8 - ((s + 7) / 8 * 8 - s)) &&& bitMask8 (e % 8)) ((s + 7) / 8 - 1) s e := by
  intro k hk
  rw [BitVec.getLsbD_and, getLsbD_not_bitMask8 hk, getLsbD_bitMask8 hk, ← Bool.decide_and]
  exact decide_eq_decide.mpr (by omega)

/-- A range whose end wrapped around to before its start. -/
theorem covers_wrapped (hse : e < s) :
    Covers (~~~bitMask8 (8 - ((s + 7) / 8 * 8 - s)) &&& bitMask8 (e % 8)) ((s + 7) / 8 - 1) s
      (((s + 7) / 8 - 1) * 8 + e % 8) := by
  intro k hk
  rw [BitVec.getLsbD_and, getLsbD_not_bitMask8 hk, getLsbD_bitMask8 hk, ← Bool.decide_and]
  exact decide_eq_decide.mpr (by omega)

end Bitmap

open Bitmap

variable {m : Bitmap} {value : ℤ} {start len : ℕ}

/-- **The bits after setting a range**, where rounding its start up to a byte does not wrap. -/
theorem bitmapSet_bit_of_start (hsize : m.size < 2 ^ 64) (hstart : min m.size start + 7 < 2 ^ 64)
    (hrange : min m.size start ≤ min m.size (wadd start len)) (j : ℕ) :
    (bitmapSet m value start len).bit j
      = if min m.size start ≤ j ∧ j < min m.size (wadd start len) then decide (value ≠ 0)
        else m.bit j := by
  have he : min m.size (wadd start len) ≤ m.size := Nat.min_le_left _ _
  rw [bitmapSet]
  dsimp only
  generalize min m.size start = s at *
  generalize min m.size (wadd start len) = e at *
  obtain ⟨h1, h2, h3, h4⟩ := bounds_eq (s := s) (e := e) (by omega) (by omega)
  rw [h1, h2, h3, h4]
  by_cases hb : e / 8 < (s + 7) / 8
  · rw [if_pos hb, wsub_of_le (by omega) (by omega),
      setMasked_bit (covers_same hrange hb) (by omega) (by omega)]
  · rw [if_neg hb]
    -- the three writes, last one first
    set m₁ := if (s + 7) / 8 * 8 - s ≠ 0 then
      m.setMasked value (wsub ((s + 7) / 8) 1) (~~~bitMask8 (8 - ((s + 7) / 8 * 8 - s))) else m with hm₁
    set m₂ := if e / 8 > (s + 7) / 8 then
      m₁.memset value ((s + 7) / 8) (e / 8 - (s + 7) / 8) else m₁ with hm₂
    have hfirst : m₁.bit j
        = if s ≤ j ∧ j < (s + 7) / 8 * 8 then decide (value ≠ 0) else m.bit j := by
      rw [hm₁]
      by_cases h0 : (s + 7) / 8 * 8 - s ≠ 0
      · rw [if_pos h0, wsub_of_le (by omega) (by omega),
          setMasked_bit (covers_head (by omega)) (by omega) (by omega)]
      · rw [if_neg h0, if_neg (by omega)]
    have hsecond : m₂.bit j
        = if s ≤ j ∧ j < e / 8 * 8 then decide (value ≠ 0) else m.bit j := by
      rw [hm₂]
      by_cases h0 : e / 8 > (s + 7) / 8
      · rw [if_pos h0, memset_bit, hfirst, ← ite_or]
        exact if_congr (by omega) rfl rfl
      · rw [if_neg h0, hfirst]
        exact if_congr (by omega) rfl rfl
    by_cases h0 : e % 8 ≠ 0
    · rw [if_pos h0, setMasked_bit covers_tail (by omega) (by omega), hsecond, ← ite_or]
      exact if_congr (by omega) rfl rfl
    · rw [if_neg h0, hsecond]
      exact if_congr (by omega) rfl rfl

/-- **The bits after setting a range**, where the end of the range is not before its start. -/
theorem bitmapSet_bit (hsize : m.size + 7 < 2 ^ 64)
    (hrange : min m.size start ≤ min m.size (wadd start len)) (j : ℕ) :
    (bitmapSet m value start len).bit j
      = if min m.size start ≤ j ∧ j < min m.size (wadd start len) then decide (value ≠ 0)
        else m.bit j :=
  bitmapSet_bit_of_start (by omega) (by omega) hrange j

/-- **The bits after setting a range whose end wraps around**: bits of one byte, at most. -/
theorem bitmapSet_bit_wrapped (hsize : m.size + 7 < 2 ^ 64)
    (hrange : min m.size (wadd start len) < min m.size start) (j : ℕ) :
    (bitmapSet m value start len).bit j
      = if min m.size start ≤ j ∧
            j < ((min m.size start + 7) / 8 - 1) * 8 + min m.size (wadd start len) % 8 then
          decide (value ≠ 0) else m.bit j := by
  have hs : min m.size start ≤ m.size := Nat.min_le_left _ _
  have he : min m.size (wadd start len) ≤ m.size := Nat.min_le_left _ _
  rw [bitmapSet]
  dsimp only
  generalize min m.size start = s at *
  generalize min m.size (wadd start len) = e at *
  obtain ⟨h1, h2, h3, h4⟩ := bounds_eq (s := s) (e := e) (by omega) (by omega)
  rw [h1, h2, h3, h4, if_pos (by omega), wsub_of_le (by omega) (by omega),
    setMasked_bit (covers_wrapped hrange) (by omega) (by omega)]

/-- The bits that setting a range writes. -/
def Bitmap.Written (m : Bitmap) (start len i : ℕ) : Prop :=
  min m.size start ≤ i ∧ i < if min m.size start ≤ min m.size (wadd start len) then
    min m.size (wadd start len)
  else ((min m.size start + 7) / 8 - 1) * 8 + min m.size (wadd start len) % 8

instance (m : Bitmap) (start len i : ℕ) : Decidable (m.Written start len i) :=
  inferInstanceAs (Decidable (_ ∧ _))

/-- The bits after setting any range, also one whose end has wrapped around. -/
theorem bitmapSet_bit_written (hsize : m.size + 7 < 2 ^ 64) (j : ℕ) :
    (bitmapSet m value start len).bit j
      = if m.Written start len j then decide (value ≠ 0) else m.bit j := by
  by_cases hrange : min m.size start ≤ min m.size (wadd start len)
  · rw [bitmapSet_bit hsize hrange]
    exact if_congr (by rw [Written, if_pos hrange]) rfl rfl
  · rw [bitmapSet_bit_wrapped hsize (Nat.lt_of_not_le hrange)]
    exact if_congr (by rw [Written, if_neg hrange]) rfl rfl

@[simp] theorem bitmapSet_size : (bitmapSet m value start len).size = m.size := by
  rw [bitmapSet]
  dsimp only
  split_ifs <;> rfl

/-- **The search finds the first bit of the range that has the value, or there is none.** -/
theorem bitmapFind_spec (hsize : m.size + 7 < 2 ^ 64)
    (hrange : min m.size start ≤ min m.size (wadd start len)) :
    (bitmapFind m value start len = -1 ∧
      ∀ j, min m.size start ≤ j → j < min m.size (wadd start len) →
        m.bit j ≠ decide (value ≠ 0)) ∨
    ∃ p, bitmapFind m value start len = toInt p ∧
      min m.size start ≤ p ∧ p < min m.size (wadd start len) ∧ m.bit p = decide (value ≠ 0) ∧
      ∀ j, min m.size start ≤ j → j < p → m.bit j ≠ decide (value ≠ 0) := by
  have hs : min m.size start ≤ m.size := Nat.min_le_left _ _
  have he : min m.size (wadd start len) ≤ m.size := Nat.min_le_left _ _
  rw [bitmapFind]
  dsimp only
  generalize min m.size start = s at *
  generalize min m.size (wadd start len) = e at *
  obtain ⟨h1, h2, h3, h4⟩ := bounds_eq (s := s) (e := e) (by omega) (by omega)
  rw [h1, h2, h3, h4]
  suffices hfinds : m.Finds value s e
      (if e / 8 < (s + 7) / 8 then
        m.probe value (wsub ((s + 7) / 8) 1)
          (~~~bitMask8 (8 - ((s + 7) / 8 * 8 - s)) &&& bitMask8 (e % 8))
      else
        (if (s + 7) / 8 * 8 - s ≠ 0 then
          m.probe value (wsub ((s + 7) / 8) 1) (~~~bitMask8 (8 - ((s + 7) / 8 * 8 - s))) else none) <|>
        m.scan value (e / 8 - (s + 7) / 8) ((s + 7) / 8) <|>
        (if e % 8 ≠ 0 then m.probe value (e / 8) (bitMask8 (e % 8)) else none)) by
    generalize (if e / 8 < (s + 7) / 8 then _ else _ : Option (ℕ × BitVec 8)) = r at hfinds ⊢
    cases r with
    | none => exact Or.inl ⟨rfl, hfinds⟩
    | some p => exact Or.inr ⟨_, rfl, hfinds⟩
  by_cases hb : e / 8 < (s + 7) / 8
  · rw [if_pos hb, wsub_of_le (by omega) (by omega)]
    exact probe_finds (covers_same hrange hb) (by omega) (by omega)
  · rw [if_neg hb]
    have hempty : ∀ {a b : ℕ}, b ≤ a → m.Finds value a b none := fun hle j hj hj' => by omega
    have hfirst : m.Finds value s ((s + 7) / 8 * 8)
        (if (s + 7) / 8 * 8 - s ≠ 0 then
          m.probe value (wsub ((s + 7) / 8) 1) (~~~bitMask8 (8 - ((s + 7) / 8 * 8 - s))) else none) := by
      by_cases h0 : (s + 7) / 8 * 8 - s ≠ 0
      · rw [if_pos h0, wsub_of_le (by omega) (by omega)]
        exact probe_finds (covers_head (by omega)) (by omega) (by omega)
      · rw [if_neg h0]
        exact hempty (by omega)
    have hsecond : m.Finds value ((s + 7) / 8 * 8) (e / 8 * 8)
        (m.scan value (e / 8 - (s + 7) / 8) ((s + 7) / 8)) := by
      have hscan := @scan_finds m value (e / 8 - (s + 7) / 8) ((s + 7) / 8)
      rwa [Nat.add_sub_cancel' (by omega), Nat.mul_comm 8, Nat.mul_comm 8] at hscan
    have hthird : m.Finds value (e / 8 * 8) e
        (if e % 8 ≠ 0 then m.probe value (e / 8) (bitMask8 (e % 8)) else none) := by
      by_cases h0 : e % 8 ≠ 0
      · rw [if_pos h0]
        exact probe_finds covers_tail (by omega) (by omega)
      · rw [if_neg h0]
        exact hempty (by omega)
    exact hfirst.orElse (hsecond.orElse hthird (by omega) (by omega)) (by omega) (by omega)

/-- **Searching a range whose end wraps around** looks at one byte, at most. -/
theorem bitmapFind_wrapped (hsize : m.size + 7 < 2 ^ 64)
    (hrange : min m.size (wadd start len) < min m.size start) :
    (bitmapFind m value start len = -1 ∧ ∀ j, min m.size start ≤ j →
      j < ((min m.size start + 7) / 8 - 1) * 8 + min m.size (wadd start len) % 8 →
        m.bit j ≠ decide (value ≠ 0)) ∨
    ∃ p, bitmapFind m value start len = toInt p ∧ min m.size start ≤ p ∧
      p < ((min m.size start + 7) / 8 - 1) * 8 + min m.size (wadd start len) % 8 ∧
      m.bit p = decide (value ≠ 0) ∧
      ∀ j, min m.size start ≤ j → j < p → m.bit j ≠ decide (value ≠ 0) := by
  have hs : min m.size start ≤ m.size := Nat.min_le_left _ _
  have he : min m.size (wadd start len) ≤ m.size := Nat.min_le_left _ _
  rw [bitmapFind]
  dsimp only
  generalize min m.size start = s at *
  generalize min m.size (wadd start len) = e at *
  obtain ⟨h1, h2, h3, h4⟩ := bounds_eq (s := s) (e := e) (by omega) (by omega)
  rw [h1, h2, h3, h4, if_pos (by omega), wsub_of_le (by omega) (by omega)]
  have hfinds := @probe_finds m value ((s + 7) / 8 - 1) _ _ _ (covers_wrapped hrange) (by omega)
    (by omega)
  generalize m.probe value ((s + 7) / 8 - 1) _ = r at hfinds ⊢
  cases r with
  | none => exact Or.inl ⟨rfl, hfinds⟩
  | some p => exact Or.inr ⟨_, rfl, hfinds⟩

/-- Searching a range, wherever it ends: the bits that are looked at are those that setting it writes. -/
theorem bitmapFind_written (hsize : m.size + 7 < 2 ^ 64) :
    (bitmapFind m value start len = -1 ∧
      ∀ j, m.Written start len j → m.bit j ≠ decide (value ≠ 0)) ∨
    ∃ p, bitmapFind m value start len = toInt p ∧ m.Written start len p ∧
      m.bit p = decide (value ≠ 0) ∧
      ∀ j, min m.size start ≤ j → j < p → m.bit j ≠ decide (value ≠ 0) := by
  by_cases hrange : min m.size start ≤ min m.size (wadd start len)
  · simp only [Written, if_pos hrange, and_imp]
    rcases bitmapFind_spec hsize hrange with hnone | ⟨p, hp, hlo, hhi, hrest⟩
    · exact Or.inl hnone
    · exact Or.inr ⟨p, hp, ⟨hlo, hhi⟩, hrest⟩
  · simp only [Written, if_neg hrange, and_imp]
    rcases bitmapFind_wrapped hsize (Nat.lt_of_not_le hrange) with hnone | ⟨p, hp, hlo, hhi, hrest⟩
    · exact Or.inl hnone
    · exact Or.inr ⟨p, hp, ⟨hlo, hhi⟩, hrest⟩

end GeekToyOS
