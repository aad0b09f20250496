import GeekToyOS.Data.Raster
import GeekToyOS.Lib.Const

/-!
# `memcpy` and `memmove`

The two functions of `src/lib/string.c`, on a memory of bytes by address.

`memcpy` copies single bytes up to an aligned address, then words if source and destination are aligned
alike, and the rest as single bytes again. Each loop is a step that is repeated, and a step copies the next
piece behind what is copied already. The loop over the words does not move `d`, by which it is bounded: it
ends when the count is used up, in the middle of a word or at its end.

## Main definitions

* `Copying` — the pointers and the count of `memcpy`, with the memory
* `memcpy`, `memmove`
* `Overruns` — the last word reaches behind the range
* `CopiesExactly`, `Moves` — what the two functions are for

## Main results

* `memcpy_eq`, `memcpy_overrun` — what `memcpy` leaves
* `copiesExactly_iff` — where `memcpy` copies exactly the range
* `moves_iff` — where `memmove` moves the range
-/

namespace GeekToyOS

open Raster

/-- The memory, the pointers `d` and `s`, and the count `sz` of `memcpy`. -/
structure Copying where
  m : Mem
  d : ℕ
  s : ℕ
  sz : ℤ

namespace Copying

/-- `*(d++) = *(s++); sz--;` -/
def byte (c : Copying) : Copying :=
  ⟨Function.update c.m c.d (c.m c.s), c.d + 1, c.s + 1, c.sz - 1⟩

/-- `*(dptr++) = *(sptr++); sz -= word_size;` -/
def word (c : Copying) : Copying :=
  ⟨storeBytes c.m c.d wordSize (loadBytes c.m c.s wordSize), c.d + wordSize, c.s + wordSize,
    c.sz - wordSize⟩

/-- `while (sz > 0 && d < (char*)dptr)` -/
def headLoop (dptr : ℕ) (c : Copying) : Copying :=
  if c.sz > 0 ∧ c.d < dptr then headLoop dptr c.byte else c
termination_by c.sz.toNat
decreasing_by
  simp only [byte]
  omega

/-- `while (sz > 0 && d < (char*)dptr_end)`, where `d` stays. -/
def wordLoop (d dptrEnd : ℕ) (c : Copying) : Copying :=
  if c.sz > 0 ∧ d < dptrEnd then wordLoop d dptrEnd c.word else c
termination_by c.sz.toNat
decreasing_by
  simp only [word, wordSize]
  omega

/-- `while (sz > 0)` -/
def tailLoop (c : Copying) : Copying :=
  if c.sz > 0 then tailLoop c.byte else c
termination_by c.sz.toNat
decreasing_by
  simp only [byte]
  omega

end Copying

/-- A `size_t` as an `ssize_t`. -/
def toSsize (n : ℕ) : ℤ := if n < 2 ^ 63 then n else n - 2 ^ 64

/-- `memcpy` -/
def memcpy (m : Mem) (dst src n : ℕ) : Mem :=
  let dptr := align dst wordSize
  let dptrEnd := alignDown (wadd dst n) wordSize
  let c := Copying.headLoop dptr ⟨m, dst, src, toSsize n⟩
  let c :=
    if c.s &&& sizeMask wordSize = 0 then Copying.wordLoop c.d dptrEnd { c with d := dptr } else c
  c.tailLoop.m

/-- The loop of `memmove`: `*(--d) = *(--s); n--;` -/
def backLoop : ℕ → Mem → ℕ → ℕ → Mem
  | 0, m, _, _ => m
  | n + 1, m, d, s => backLoop n (Function.update m (d - 1) (m (s - 1))) (d - 1) (s - 1)

/-- `memmove` -/
def memmove (m : Mem) (dst src n : ℕ) : Mem :=
  if wsub dst src ≥ n then memcpy m dst src n else backLoop n m (dst + n) (src + n)

/-! ### What they are for -/

/-- **`memcpy` copies exactly the range**: its bytes are those of the source before, and the other bytes
stay. -/
def CopiesExactly (dst src n : ℕ) : Prop :=
  ∀ m : Mem, (∀ i < n, memcpy m dst src n (dst + i) = m (src + i)) ∧
    ∀ a, ¬ (dst ≤ a ∧ a < dst + n) → memcpy m dst src n a = m a

/-- **`memmove` moves the range**: its bytes are those of the source before. -/
def Moves (dst src n : ℕ) : Prop := ∀ m : Mem, ∀ i < n, memmove m dst src n (dst + i) = m (src + i)

/-- The bytes up to an aligned address. -/
def headLen (dst : ℕ) : ℕ := (8 - dst % 8) % 8

/-- **The last word reaches behind the range**: source and destination are aligned alike, there is a whole
word to copy, and the range does not end where a word does. -/
def Overruns (dst src n : ℕ) : Prop := src % 8 = dst % 8 ∧ headLen dst + 8 ≤ n ∧ (dst + n) % 8 ≠ 0

/-- **Rounding the destination up wraps around to zero**, and the source is aligned. -/
def WrapsToZero (dst src n : ℕ) : Prop := 2 ^ 64 - 8 < dst ∧ src % 8 = 0 ∧ 0 < n

instance (dst src n : ℕ) : Decidable (Overruns dst src n) := inferInstanceAs (Decidable (_ ∧ _))

instance (dst src n : ℕ) : Decidable (WrapsToZero dst src n) := inferInstanceAs (Decidable (_ ∧ _))

variable {m : Mem} {c : Copying} {d s k r n dst src dptr dptrEnd : ℕ}

namespace Copying

/-! ### The loops repeat a step -/

theorem iterate_byte (c : Copying) (r : ℕ) :
    (byte^[r] c).d = c.d + r ∧ (byte^[r] c).s = c.s + r ∧ (byte^[r] c).sz = c.sz - r := by
  induction r with
  | zero => simp
  | succ r ih =>
    rw [Function.iterate_succ_apply', byte]
    dsimp only
    omega

theorem iterate_word (c : Copying) (r : ℕ) :
    (word^[r] c).d = c.d + 8 * r ∧ (word^[r] c).s = c.s + 8 * r ∧
      (word^[r] c).sz = c.sz - 8 * r := by
  induction r with
  | zero => simp
  | succ r ih =>
    rw [Function.iterate_succ_apply', word, wordSize]
    dsimp only
    omega

theorem headLoop_eq (dptr : ℕ) (c : Copying) :
    headLoop dptr c = byte^[min c.sz.toNat (dptr - c.d)] c := by
  fun_induction headLoop dptr c with
  | case1 c h ih =>
    have hcount : min c.sz.toNat (dptr - c.d) = min c.byte.sz.toNat (dptr - c.byte.d) + 1 := by
      simp only [byte]
      omega
    rw [ih, hcount, Function.iterate_succ_apply]
  | case2 c h =>
    rw [show min c.sz.toNat (dptr - c.d) = 0 by omega, Function.iterate_zero_apply]

theorem tailLoop_eq (c : Copying) : tailLoop c = byte^[c.sz.toNat] c := by
  fun_induction tailLoop c with
  | case1 c h ih =>
    have hcount : c.sz.toNat = c.byte.sz.toNat + 1 := by
      simp only [byte]
      omega
    rw [ih, hcount, Function.iterate_succ_apply]
  | case2 c h => rw [show c.sz.toNat = 0 by omega, Function.iterate_zero_apply]

/-- Where there is a word to copy, words are copied until the count is used up. -/
theorem wordLoop_eq (hd : d < dptrEnd) (c : Copying) :
    wordLoop d dptrEnd c = word^[(c.sz.toNat + 7) / 8] c := by
  fun_induction wordLoop d dptrEnd c with
  | case1 c h ih =>
    have hcount : (c.sz.toNat + 7) / 8 = (c.word.sz.toNat + 7) / 8 + 1 := by
      simp only [word, wordSize]
      omega
    rw [ih, hcount, Function.iterate_succ_apply]
  | case2 c h => rw [show (c.sz.toNat + 7) / 8 = 0 by omega, Function.iterate_zero_apply]

theorem wordLoop_of_le (hd : dptrEnd ≤ d) (c : Copying) : wordLoop d dptrEnd c = c := by
  rw [wordLoop, if_neg (by omega)]

/-! ### What a step does to the memory -/

/-- `k` bytes have been copied. -/
structure Copied (m : Mem) (dst src k : ℕ) (c : Copying) : Prop where
  m_eq : c.m = copyBytes m m dst src k
  d_eq : c.d = dst + k
  s_eq : c.s = src + k

theorem Copied.start (m : Mem) (dst src : ℕ) (sz : ℤ) : Copied m dst src 0 ⟨m, dst, src, sz⟩ :=
  ⟨(copyBytes_zero m dst src).symm, rfl, rfl⟩

/-- **A byte more is copied**, if it was not overwritten before. -/
theorem Copied.byte (h : Copied m dst src k c) (hahead : dst ≤ src ∨ src + k + 1 ≤ dst) :
    Copied m dst src (k + 1) c.byte := by
  obtain ⟨hm, hd, hs⟩ := h
  refine ⟨?_, by rw [Copying.byte, hd, Nat.add_assoc], by rw [Copying.byte, hs, Nat.add_assoc]⟩
  rw [Copying.byte, ← copyBytes_append hahead, copyBytes_one, hm, hd, hs]

/-- **A word more is copied**, if none of its bytes was overwritten before. -/
theorem Copied.word (h : Copied m dst src k c) (hahead : dst ≤ src ∨ src + k + 8 ≤ dst) :
    Copied m dst src (k + 8) c.word := by
  obtain ⟨hm, hd, hs⟩ := h
  refine ⟨?_, by rw [Copying.word, hd, wordSize, Nat.add_assoc],
    by rw [Copying.word, hs, wordSize, Nat.add_assoc]⟩
  rw [Copying.word, storeBytes_loadBytes, wordSize, ← copyBytes_append hahead, hm, hd, hs]

theorem Copied.bytes (h : Copied m dst src k c) (hahead : dst ≤ src ∨ src + k + r ≤ dst) :
    Copied m dst src (k + r) (Copying.byte^[r] c) := by
  induction r with
  | zero => exact h
  | succ r ih =>
    rw [Function.iterate_succ_apply', ← Nat.add_assoc]
    exact (ih (by omega)).byte (by omega)

theorem Copied.words (h : Copied m dst src k c) (hahead : dst ≤ src ∨ src + k + 8 * r ≤ dst) :
    Copied m dst src (k + 8 * r) (Copying.word^[r] c) := by
  induction r with
  | zero => exact h
  | succ r ih =>
    rw [Function.iterate_succ_apply', Nat.mul_succ, ← Nat.add_assoc]
    exact (ih (by omega)).word (by omega)

/-- The last loop copies the bytes that are left, one by one. -/
theorem Copied.tail (h : Copied m dst src k c) (hsz : c.sz = n - k) (hk : k ≤ n)
    (hahead : dst ≤ src ∨ src + n ≤ dst) : c.tailLoop.m = copyBytes m m dst src n := by
  have hrest := h.bytes (r := n - k) (by omega)
  rw [tailLoop_eq, show c.sz.toNat = n - k by omega, hrest.m_eq, Nat.add_sub_cancel' hk]

end Copying

open Copying

/-! ### The aligned addresses -/

theorem toSsize_of_lt (hn : n < 2 ^ 63) : toSsize n = n := if_pos hn

theorem align_wordSize (hd : dst ≤ 2 ^ 64 - 8) : align dst wordSize = dst + headLen dst := by
  have hal := align_two_pow (x := dst) (k := 3) (by decide) (by omega)
  rw [show wordSize = 2 ^ 3 from rfl, hal, headLen]
  omega

theorem align_wordSize_of_wrap (hd : 2 ^ 64 - 8 < dst) (hlt : dst < 2 ^ 64) :
    align dst wordSize = 0 := by
  have hadd : wadd dst (sizeMask wordSize) = dst + 7 - 2 ^ 64 := by
    rw [wadd, show sizeMask wordSize = 7 from rfl]
    omega
  rw [align, hadd, show wordSize = 2 ^ 3 from rfl, notSizeMask_two_pow,
    Bits.and_highMask (by norm_num) (by omega)]
  omega

/-- The end of the last whole word; there is none where the range ends with the address space. -/
theorem alignDown_end (hd : dst + n ≤ 2 ^ 64) :
    alignDown (wadd dst n) wordSize = if dst + n = 2 ^ 64 then 0 else (dst + n) / 8 * 8 := by
  have hlt : wadd dst n < 2 ^ 64 := Nat.mod_lt _ (by norm_num)
  have hdown := alignDown_two_pow (k := 3) (by norm_num) hlt
  rw [show wordSize = 2 ^ 3 from rfl, hdown, wadd]
  split <;> omega

theorem and_sizeMask_wordSize (x : ℕ) : x &&& sizeMask wordSize = x % 8 :=
  Nat.and_two_pow_sub_one_eq_mod x 3

/-! ### What `memcpy` leaves -/

/-- Nothing is copied where the count is not positive. -/
theorem memcpy_of_nonpos (hn : toSsize n ≤ 0) : memcpy m dst src n = m := by
  have hhead : headLoop (align dst wordSize) ⟨m, dst, src, toSsize n⟩ = ⟨m, dst, src, toSsize n⟩ := by
    rw [headLoop, if_neg fun h => absurd h.1 (by dsimp only; omega)]
  have hword : ∀ d dptrEnd dptr, wordLoop d dptrEnd ⟨m, dptr, src, toSsize n⟩
      = ⟨m, dptr, src, toSsize n⟩ := fun d dptrEnd dptr => by
    rw [wordLoop, if_neg fun h => absurd h.1 (by dsimp only; omega)]
  have htail : ∀ d, (tailLoop ⟨m, d, src, toSsize n⟩).m = m := fun d => by
    rw [tailLoop, if_neg (by dsimp only; omega)]
  rw [memcpy, hhead]
  dsimp only
  split
  · rw [hword, htail]
  · exact htail dst

/-- The state behind the first loop, where rounding up does not wrap. -/
theorem headLoop_copied (hd : dst ≤ 2 ^ 64 - 8) (hn : n < 2 ^ 63) (hahead : dst ≤ src ∨ src + n ≤ dst) :
    ∃ c, headLoop (align dst wordSize) ⟨m, dst, src, toSsize n⟩ = c ∧
      Copied m dst src (min n (headLen dst)) c ∧ c.sz = n - (min n (headLen dst) : ℕ) := by
  refine ⟨_, headLoop_eq _ _, ?_⟩
  rw [align_wordSize hd, toSsize_of_lt hn, Nat.add_sub_cancel_left, Int.toNat_natCast]
  have hcopied := (Copied.start m dst src n).bytes (r := min n (headLen dst)) (by omega)
  rw [Nat.zero_add] at hcopied
  exact ⟨hcopied, (iterate_byte _ _).2.2⟩

/-- **`memcpy` copies the range**, if the last word does not overrun it and rounding does not wrap. -/
theorem memcpy_eq (hd : dst + n ≤ 2 ^ 64) (hn : n < 2 ^ 63) (hahead : dst ≤ src ∨ src + n ≤ dst)
    (hover : ¬ Overruns dst src n) (hwrap : ¬ WrapsToZero dst src n) :
    memcpy m dst src n = copyBytes m m dst src n := by
  rcases Nat.eq_zero_or_pos n with rfl | hpos
  · rw [memcpy_of_nonpos (by decide), copyBytes_zero]
  rw [memcpy]
  rcases Nat.lt_or_ge (2 ^ 64 - 8) dst with htop | htop
  · -- rounded up, the destination is zero: there is no head, and the source is not aligned
    have hsrc : src % 8 ≠ 0 := fun h => hwrap ⟨htop, h, hpos⟩
    rw [headLoop_eq, align_wordSize_of_wrap htop (by omega), Nat.zero_sub, Nat.min_zero,
      Function.iterate_zero_apply, and_sizeMask_wordSize, if_neg hsrc]
    have hsz : toSsize n = n - (0 : ℕ) := by
      rw [toSsize_of_lt hn, Nat.cast_zero, sub_zero]
    exact (Copied.start m dst src _).tail hsz (Nat.zero_le n) hahead
  · obtain ⟨c, hc, hcopied, hsz⟩ := headLoop_copied (m := m) htop hn hahead
    rw [hc, and_sizeMask_wordSize]
    split
    · rename_i haligned
      rw [hcopied.s_eq] at haligned
      rcases Nat.lt_or_ge (headLen dst) n with hlt | hge
      · rw [Nat.min_eq_right (Nat.le_of_lt hlt)] at hcopied hsz haligned
        have hdptr : ({ c with d := align dst wordSize } : Copying) = c := by
          rw [align_wordSize htop, ← hcopied.d_eq]
        rw [hdptr, alignDown_end hd, hcopied.d_eq]
        have hword : (dst + headLen dst) % 8 = 0 := by
          rw [headLen]
          omega
        rcases Nat.lt_or_ge (dst + headLen dst) (if dst + n = 2 ^ 64 then 0 else (dst + n) / 8 * 8)
          with hw | hw
        · -- whole words, up to the end
          have hend : (dst + n) % 8 = 0 := by
            by_contra hne
            refine hover ⟨?_, ?_, hne⟩
            · omega
            · split at hw <;> omega
          rw [wordLoop_eq hw]
          have hcount : 8 * ((c.sz.toNat + 7) / 8) = n - headLen dst := by omega
          have hall := hcopied.words (r := (c.sz.toNat + 7) / 8) (by omega)
          rw [hcount] at hall
          have hsz' := (iterate_word c ((c.sz.toNat + 7) / 8)).2.2
          exact hall.tail (by omega) (by omega) hahead
        · rw [wordLoop_of_le hw]
          exact hcopied.tail hsz (by omega) hahead
      · -- the head is all there is
        rw [Nat.min_eq_left hge] at hcopied hsz
        have hnone : wordLoop c.d (alignDown (wadd dst n) wordSize)
            { c with d := align dst wordSize } = { c with d := align dst wordSize } := by
          rw [wordLoop, if_neg fun h => absurd h.1 (by dsimp only; omega)]
        rw [hnone, tailLoop, if_neg (by dsimp only; omega)]
        exact hcopied.m_eq
    · exact hcopied.tail hsz (by omega) hahead

/-- **What an overrun leaves**: a last word that starts in the range and ends behind it. -/
theorem memcpy_overrun (hd : dst + n ≤ 2 ^ 64) (hn : n < 2 ^ 63) (hover : Overruns dst src n) :
    ∃ k < n, n < k + 8 ∧ ∀ m : Mem, dst ≤ src ∨ src + n ≤ dst → ∃ M,
      M = copyBytes m m dst src k ∧ memcpy m dst src n = copyBytes M M (dst + k) (src + k) 8 := by
  obtain ⟨halike, hlen, hend⟩ := hover
  have hword : (dst + headLen dst) % 8 = 0 := by
    rw [headLen]
    omega
  refine ⟨headLen dst + 8 * ((n - headLen dst) / 8), by omega, by omega, fun m hahead => ⟨_, rfl, ?_⟩⟩
  rw [memcpy]
  obtain ⟨c, hc, hcopied, hsz⟩ := headLoop_copied (m := m) (show dst ≤ 2 ^ 64 - 8 by omega) hn hahead
  rw [Nat.min_eq_right (show headLen dst ≤ n by omega)] at hcopied hsz
  have hdptr : ({ c with d := align dst wordSize } : Copying) = c := by
    rw [align_wordSize (by omega), ← hcopied.d_eq]
  have haligned : c.s % 8 = 0 := by
    rw [hcopied.s_eq]
    omega
  have hw : dst + headLen dst < if dst + n = 2 ^ 64 then 0 else (dst + n) / 8 * 8 := by
    rw [if_neg (by omega)]
    omega
  rw [hc, and_sizeMask_wordSize, if_pos haligned, hdptr, alignDown_end hd, hcopied.d_eq,
    wordLoop_eq hw]
  have hcount : (c.sz.toNat + 7) / 8 = (n - headLen dst) / 8 + 1 := by omega
  have hall := hcopied.words (r := (n - headLen dst) / 8) (by omega)
  have hsz' := (iterate_word c ((n - headLen dst) / 8 + 1)).2.2
  rw [hcount, tailLoop, if_neg (by omega), Function.iterate_succ_apply', Copying.word,
    storeBytes_loadBytes, hall.m_eq, hall.d_eq, hall.s_eq]
  rfl

/-- **What a wrapped destination leaves**: the copy goes to address zero. -/
theorem memcpy_wrap (hd : dst + n ≤ 2 ^ 64) (hwrap : WrapsToZero dst src n) :
    memcpy m dst src n = copyBytes m m 0 src n := by
  obtain ⟨htop, hsrc, hpos⟩ := hwrap
  rw [memcpy]
  rw [headLoop_eq, align_wordSize_of_wrap htop (by omega), Nat.zero_sub, Nat.min_zero,
    Function.iterate_zero_apply, and_sizeMask_wordSize, if_pos hsrc, alignDown_end hd,
    wordLoop_of_le (by dsimp only; split <;> omega)]
  have hsz : toSsize n = n - (0 : ℕ) := by
    rw [toSsize_of_lt (by omega), Nat.cast_zero, sub_zero]
  exact (Copied.start m 0 src _).tail hsz (Nat.zero_le n) (Or.inl (Nat.zero_le src))

/-! ### `memcpy` -/

theorem copyBytes_inside {i : ℕ} (hi : i < n) : copyBytes m m dst src n (dst + i) = m (src + i) := by
  rw [copyBytes, if_pos (by omega), Nat.add_sub_cancel_left]

/-- A memory with a one at a single address tells where a byte comes from. -/
def oneAt (a : ℕ) : Mem := fun o => if o = a then 1 else 0

/-- Where the count is not positive, or rounding wraps, the first byte is not the one of the source. -/
theorem memcpy_misses (hd : dst + n ≤ 2 ^ 64) (hpos : 0 < n) (hne : dst ≠ src)
    (hbad : 2 ^ 63 ≤ n ∨ WrapsToZero dst src n) : ∃ m : Mem, memcpy m dst src n dst ≠ m src := by
  refine ⟨oneAt src, ?_⟩
  have hstays : memcpy (oneAt src) dst src n dst = oneAt src dst := by
    rcases hbad with hn | hwrap
    · rw [memcpy_of_nonpos (by rw [toSsize]; split <;> omega)]
    · rw [memcpy_wrap hd hwrap, copyBytes, if_neg]
      have := hwrap.1
      omega
  rw [hstays, oneAt, if_neg hne, oneAt, if_pos rfl]
  decide

/-- **`memcpy` copies exactly the range** just where the count is one of an `ssize_t`, the last word does
not overrun the range, and rounding the destination up does not wrap. -/
theorem copiesExactly_iff (hd : dst + n ≤ 2 ^ 64) (hdisj : dst + n ≤ src ∨ src + n ≤ dst) :
    CopiesExactly dst src n ↔ n < 2 ^ 63 ∧ ¬ Overruns dst src n ∧ ¬ WrapsToZero dst src n := by
  have hahead : dst ≤ src ∨ src + n ≤ dst := by omega
  constructor
  · intro h
    have hgood : 0 < n → ¬ (2 ^ 63 ≤ n ∨ WrapsToZero dst src n) := fun hpos hbad => by
      obtain ⟨m, hm⟩ := memcpy_misses hd hpos (by omega) hbad
      exact hm ((h m).1 0 hpos)
    have hn : n < 2 ^ 63 := by
      by_contra hge
      exact hgood (by omega) (Or.inl (by omega))
    refine ⟨hn, fun hover => ?_, fun hwrap => hgood hwrap.2.2 (Or.inr hwrap)⟩
    -- the byte behind the range comes from the byte behind the source
    obtain ⟨k, hk, hnk, hall⟩ := memcpy_overrun hd hn hover
    obtain ⟨M, hM, hres⟩ := hall (oneAt (dst + n)) hahead
    have hframe := (h (oneAt (dst + n))).2 (dst + n) (by omega)
    have hvalue : memcpy (oneAt (dst + n)) dst src n (dst + n) = M (src + n) := by
      rw [hres, copyBytes, if_pos (by omega)]
      congr 1
      omega
    have hzero : M (src + n) = 0 := by
      rw [hM, copyBytes]
      split
      · exact if_neg (by omega)
      · exact if_neg (by omega)
    rw [hvalue, hzero, oneAt, if_pos rfl] at hframe
    exact absurd hframe (by decide)
  · rintro ⟨hn, hover, hwrap⟩ m
    rw [memcpy_eq hd hn hahead hover hwrap]
    exact ⟨fun i hi => copyBytes_inside hi, fun a ha => if_neg ha⟩

theorem copiesExactly_iff_page : CopiesExactly 0x1000 0x2003 0x1000 ↔
    0x1000 < 2 ^ 63 ∧ ¬ Overruns 0x1000 0x2003 0x1000 ∧ ¬ WrapsToZero 0x1000 0x2003 0x1000 :=
  copiesExactly_iff (by decide) (by decide)

/-- Nine bytes from one aligned address to another: sixteen are copied. -/
theorem not_copiesExactly_nineBytes : ¬ CopiesExactly 0x1000 0x2000 9 := by
  intro h
  obtain ⟨k, hk, hnk, hall⟩ := @memcpy_overrun 9 0x1000 0x2000 (by decide) (by decide)
    (by decide)
  obtain ⟨M, hM, hres⟩ := hall (oneAt 0x2009) (Or.inl (by decide))
  have hframe := (h (oneAt 0x2009)).2 0x1009 (by decide)
  have hvalue : copyBytes M M (0x1000 + k) (0x2000 + k) 8 0x1009 = M 0x2009 := by
    rw [copyBytes, if_pos (by omega)]
    congr 1
    omega
  rw [hres, hvalue, hM, copyBytes, if_neg (by omega)] at hframe
  exact absurd hframe (by decide)

/-! ### `memmove` -/

/-- The loop from the end copies what is left of the range. -/
theorem backLoop_eq (hle : src ≤ dst) (m : Mem) : ∀ k j, backLoop k (copyBytes m m (dst + k) (src + k) j)
    (dst + k) (src + k) = copyBytes m m dst src (k + j) := by
  intro k
  induction k with
  | zero =>
    intro j
    rw [backLoop, Nat.add_zero, Nat.add_zero, Nat.zero_add]
  | succ k ih =>
    intro j
    have hstep : Function.update (copyBytes m m (dst + (k + 1)) (src + (k + 1)) j) (dst + k)
        (copyBytes m m (dst + (k + 1)) (src + (k + 1)) j (src + k))
          = copyBytes m m (dst + k) (src + k) (j + 1) := by
      funext o
      rcases eq_or_ne o (dst + k) with rfl | hne
      · rw [Function.update_self, copyBytes, if_neg (by omega), copyBytes, if_pos (by omega),
          Nat.sub_self, Nat.add_zero]
      · rw [Function.update_of_ne hne, copyBytes, copyBytes]
        by_cases ho : dst + (k + 1) ≤ o ∧ o < dst + (k + 1) + j
        · rw [if_pos ho, if_pos (by omega)]
          congr 1
          omega
        · rw [if_neg ho, if_neg (by omega)]
    rw [backLoop, ← Nat.add_assoc, ← Nat.add_assoc, Nat.add_sub_cancel, Nat.add_sub_cancel,
      Nat.add_assoc dst, Nat.add_assoc src, hstep, ih, Nat.add_right_comm, Nat.add_assoc k]

/-- The subtraction tells the two directions apart. -/
theorem wsub_ge_iff (hd : dst < 2 ^ 64) (hs : src + n ≤ 2 ^ 64) (hpos : 0 < n) :
    wsub dst src ≥ n ↔ ¬ (src ≤ dst ∧ dst < src + n) := by
  rw [wsub]
  omega

/-- **`memmove` moves the range** just where it copies from the end, or the count is one of an `ssize_t` and
rounding the destination up does not wrap. -/
theorem moves_iff (hd : dst + n ≤ 2 ^ 64) (hs : src + n ≤ 2 ^ 64) :
    Moves dst src n ↔
      src ≤ dst ∧ dst < src + n ∨ n < 2 ^ 63 ∧ ¬ WrapsToZero dst src n := by
  rcases Nat.eq_zero_or_pos n with rfl | hpos
  · refine iff_of_true (fun m i hi => absurd hi (Nat.not_lt_zero i)) (Or.inr ⟨by decide, fun h => ?_⟩)
    exact absurd h.2.2 (Nat.lt_irrefl 0)
  by_cases hback : src ≤ dst ∧ dst < src + n
  · refine iff_of_true (fun m i hi => ?_) (Or.inl hback)
    have hloop := backLoop_eq hback.1 m n 0
    rw [copyBytes_zero, Nat.add_zero] at hloop
    rw [memmove, if_neg (by rw [wsub_ge_iff (by omega) hs hpos]; exact not_not.mpr hback), hloop,
      copyBytes_inside hi]
  · have hmove : ∀ m, memmove m dst src n = memcpy m dst src n := fun m =>
      if_pos ((wsub_ge_iff (by omega) hs hpos).mpr hback)
    have hahead : dst ≤ src ∨ src + n ≤ dst := by omega
    constructor
    · intro h
      by_contra hcon
      have hbad : 2 ^ 63 ≤ n ∨ WrapsToZero dst src n := by
        by_contra hgood
        exact hcon (Or.inr ⟨by omega, fun hw => hgood (Or.inr hw)⟩)
      obtain ⟨m, hm⟩ := memcpy_misses hd hpos (by omega) hbad
      have hfirst := h m 0 hpos
      rw [hmove] at hfirst
      exact hm hfirst
    · intro h m i hi
      obtain ⟨hn, hwrap⟩ := h.resolve_left hback
      rw [hmove]
      by_cases hover : Overruns dst src n
      · -- the overrun is behind the range
        obtain ⟨k, hk, hnk, hall⟩ := memcpy_overrun hd hn hover
        obtain ⟨M, hM, hres⟩ := hall m hahead
        rw [hres, copyBytes]
        rcases Nat.lt_or_ge i k with hik | hik
        · rw [if_neg (by omega), hM, copyBytes_inside hik]
        · rw [if_pos (by omega), show src + k + (dst + i - (dst + k)) = src + i by omega, hM, copyBytes,
            if_neg (by omega)]
      · rw [memcpy_eq hd hn hahead hover hwrap, copyBytes_inside hi]

/-- More than a page is moved by three bytes, onto itself. -/
theorem moves_iff_overlap : Moves 0x1000 0x1003 0x1000 ↔
    0x1003 ≤ 0x1000 ∧ 0x1000 < 0x1003 + 0x1000 ∨ 0x1000 < 2 ^ 63 ∧ ¬ WrapsToZero 0x1000 0x1003 0x1000 :=
  moves_iff (by decide) (by decide)

/-- The last four bytes of the address space stay as they are. -/
theorem not_moves_lastBytes : ¬ Moves (2 ^ 64 - 4) 0x1000 4 := by
  intro h
  have hfirst := h (oneAt 0x1000) 0 (by decide)
  rw [memmove, if_pos (by decide), memcpy_wrap (by decide) (by decide), copyBytes, if_neg (by decide)]
    at hfirst
  exact absurd hfirst (by decide)

end GeekToyOS
