import GeekToyOS.Lib.Bitmap
import Mathlib

/-!
# Bitmaps as assignments and searches of a range

What `bitmap_set` and `bitmap_find` are for: to give a value to the bits of a range, and to find the first
bit of a range that has a value.

`bitmap_set` is taken apart into its writes to see which bytes it works on. The byte in which the range
starts comes from rounding up; a start in the last seven bits of the `size_t` range rounds up to zero, and
the byte before that is no byte of the map.

## Main definitions

* `BitmapWrite`, `bitmapSetWrites` — the writes of `bitmap_set`
* `AssignsRange` — the bits of the range get the value, the others stay, in the bytes of the map
* `Window` — the bits of a range that have a value

## Main results

* `bitmapSet_eq_foldl` — `bitmap_set` is its writes
* `assignsRange_iff` — where it assigns the range
* `bitmapFind_isLeast` — `bitmap_find` finds the first bit
-/

namespace GeekToyOS

open Bitmap

/-- A write of `bitmap_set`: some bits of a byte, or whole bytes. -/
inductive BitmapWrite
  | masked (i : ℕ) (mask : BitVec 8)
  | fill (start len : ℕ)
deriving DecidableEq, Repr

namespace BitmapWrite

/-- What it does. -/
def apply (value : ℤ) (m : Bitmap) : BitmapWrite → Bitmap
  | masked i mask => m.setMasked value i mask
  | fill start len => m.memset value start len

/-- The byte is read or written. -/
def Accesses (i : ℕ) : BitmapWrite → Prop
  | masked j _ => i = j
  | fill start len => start ≤ i ∧ i < start + len

end BitmapWrite

/-- The writes of `bitmap_set` on a map of that size, in order. -/
def bitmapSetWrites (size start len : ℕ) : List BitmapWrite :=
  let startBit := min size start
  let endBit := min size (wadd start len)
  let startByte := align startBit 8 >>> 3
  let endByte := endBit >>> 3
  let startBoundBit := wsub (startByte <<< 3) startBit
  let endBoundBit := wsub endBit (endByte <<< 3)
  if endByte < startByte then
    [.masked (wsub startByte 1) (~~~bitMask8 (8 - startBoundBit) &&& bitMask8 endBoundBit)]
  else
    (if startBoundBit ≠ 0 then [.masked (wsub startByte 1) (~~~bitMask8 (8 - startBoundBit))] else []) ++
      (if endByte > startByte then [.fill startByte (endByte - startByte)] else []) ++
      if endBoundBit ≠ 0 then [.masked endByte (bitMask8 endBoundBit)] else []

variable {m : Bitmap} {value : ℤ} {start len : ℕ}

/-- **`bitmap_set` is its writes**, one after another. -/
theorem bitmapSet_eq_foldl :
    bitmapSet m value start len
      = (bitmapSetWrites m.size start len).foldl (BitmapWrite.apply value) m := by
  rw [bitmapSet, bitmapSetWrites]
  dsimp only
  split_ifs <;> rfl

/-- **`bitmap_set` assigns the range**: the bits of the range get the value and the others stay, in the
bytes that hold the bits of the map. -/
structure AssignsRange (m : Bitmap) (value : ℤ) (start len : ℕ) : Prop where
  inside : ∀ i, start ≤ i → i < min m.size (start + len) →
    (bitmapSet m value start len).bit i = decide (value ≠ 0)
  outside : ∀ i, ¬ (start ≤ i ∧ i < min m.size (start + len)) →
    (bitmapSet m value start len).bit i = m.bit i
  accesses : ∀ w ∈ bitmapSetWrites m.size start len, ∀ i, w.Accesses i → i < (m.size + 7) / 8

/-! ### Setting -/

/-- Where rounding up does not wrap, the writes are in the bytes of the map. -/
theorem accesses_lt (hsize : m.size < 2 ^ 64) (hstart : min m.size start + 7 < 2 ^ 64)
    (hrange : min m.size start ≤ min m.size (wadd start len)) :
    ∀ w ∈ bitmapSetWrites m.size start len, ∀ i, w.Accesses i → i < (m.size + 7) / 8 := by
  have he : min m.size (wadd start len) ≤ m.size := Nat.min_le_left _ _
  rw [bitmapSetWrites]
  generalize min m.size start = s at *
  generalize min m.size (wadd start len) = e at *
  obtain ⟨h1, h2, h3, h4⟩ := bounds_eq (s := s) (e := e) (by omega) (by omega)
  rw [h1, h2, h3, h4]
  by_cases hb : e / 8 < (s + 7) / 8
  · rw [if_pos hb, wsub_of_le (by omega) (by omega)]
    intro w hw i hi
    obtain rfl := List.mem_singleton.mp hw
    rw [show i = (s + 7) / 8 - 1 from hi]
    omega
  · rw [if_neg hb]
    intro w hw i hi
    rcases List.mem_append.mp hw with hw | hw
    · rcases List.mem_append.mp hw with hw | hw
      · split at hw
        · obtain rfl := List.mem_singleton.mp hw
          rw [show i = wsub ((s + 7) / 8) 1 from hi, wsub_of_le (by omega) (by omega)]
          omega
        · exact absurd hw List.not_mem_nil
      · split at hw
        · obtain rfl := List.mem_singleton.mp hw
          obtain ⟨hlo, hhi⟩ := hi
          omega
        · exact absurd hw List.not_mem_nil
    · split at hw
      · obtain rfl := List.mem_singleton.mp hw
        rw [show i = e / 8 from hi]
        omega
      · exact absurd hw List.not_mem_nil

/-- Where rounding up wraps, the byte before the map is written. -/
theorem exists_access_of_wrap (hsize : m.size < 2 ^ 64) (hwrap : 2 ^ 64 ≤ min m.size start + 7) :
    ∃ w ∈ bitmapSetWrites m.size start len, w.Accesses (2 ^ 64 - 1) := by
  have hs : min m.size start ≤ m.size := Nat.min_le_left _ _
  rw [bitmapSetWrites]
  generalize min m.size start = s at *
  have hstart : align s 8 >>> 3 = 0 := by
    have hadd : wadd s 7 = s + 7 - 2 ^ 64 := by
      rw [wadd]
      omega
    rw [align, show sizeMask 8 = 7 from rfl, hadd, show 8 = 2 ^ 3 from rfl, notSizeMask_two_pow,
      Bits.and_highMask (by norm_num) (by omega), Nat.shiftRight_eq_div_pow]
    omega
  have hbound : wsub (0 <<< 3) s = 2 ^ 64 - s := by
    rw [wsub]
    omega
  rw [hstart, hbound, if_neg (Nat.not_lt_zero _), if_pos (show 2 ^ 64 - s ≠ 0 by omega)]
  exact ⟨_, List.mem_append_left _ (List.mem_append_left _ (List.mem_singleton_self _)),
    show 2 ^ 64 - 1 = wsub 0 1 by decide⟩

/-- **`bitmap_set` assigns the range** just where rounding the start up to a byte does not wrap. -/
theorem assignsRange_iff (hsize : m.size < 2 ^ 64) (hlen : start + len < 2 ^ 64) (value : ℤ) :
    AssignsRange m value start len ↔ min m.size start ≤ 2 ^ 64 - 8 := by
  constructor
  · intro h
    by_contra hwrap
    obtain ⟨w, hw, hacc⟩ := @exists_access_of_wrap m start len hsize (by omega)
    have := h.accesses w hw _ hacc
    omega
  · intro hstart
    have hadd : wadd start len = start + len := wadd_of_lt hlen
    have hrange : min m.size start ≤ min m.size (wadd start len) := by omega
    refine ⟨fun i hlo hhi => ?_, fun i hi => ?_, accesses_lt hsize (by omega) hrange⟩
    · rw [bitmapSet_bit_of_start hsize (by omega) hrange, hadd, if_pos (by omega)]
    · rw [bitmapSet_bit_of_start hsize (by omega) hrange, hadd, if_neg (by omega)]

/-- Twelve bits, from the fifth on, of a bitmap of twenty. -/
theorem assignsRange_iff_twentyBits :
    AssignsRange ⟨fun _ => 0, 20⟩ 1 5 12 ↔ min 20 5 ≤ 2 ^ 64 - 8 :=
  assignsRange_iff (m := ⟨fun _ => 0, 20⟩) (by decide) (by decide) 1

/-- The last bits of the longest bitmap there is: `align` wraps around. -/
theorem not_assignsRange_longest : ¬ AssignsRange ⟨fun _ => 0, 2 ^ 64 - 1⟩ 1 (2 ^ 64 - 3) 1 := by
  intro h
  have := h.accesses (.masked (2 ^ 64 - 1) (~~~bitMask8 5)) (by decide +kernel) (2 ^ 64 - 1) rfl
  exact absurd this (by decide)

/-! ### Searching -/

/-- The bits of a range that have the value. -/
def Window (m : Bitmap) (value : ℤ) (start len : ℕ) : Set ℕ :=
  {i | start ≤ i ∧ i < min m.size (start + len) ∧ m.bit i = decide (value ≠ 0)}

/-- What the search returns: the first bit of the window, or that there is none. -/
theorem bitmapFind_window (hsize : m.size < 2 ^ 31) (hlen : start + len < 2 ^ 64) (value : ℤ) :
    (bitmapFind m value start len = -1 ∧ Window m value start len = ∅) ∨
    ∃ p : ℕ, bitmapFind m value start len = p ∧ IsLeast (Window m value start len) p := by
  have hadd : wadd start len = start + len := wadd_of_lt hlen
  have hspec := @bitmapFind_spec m value start len (by omega) (by omega)
  rw [hadd] at hspec
  rcases hspec with ⟨hfind, hnone⟩ | ⟨p, hfind, hlo, hhi, hbit, hleast⟩
  · refine Or.inl ⟨hfind, Set.eq_empty_of_forall_notMem fun i hi => ?_⟩
    obtain ⟨h1, h2, h3⟩ := hi
    exact hnone i (by omega) h2 h3
  · refine Or.inr ⟨p, by rw [hfind, toInt_of_lt (by omega)], ⟨by omega, hhi, hbit⟩, fun i hi => ?_⟩
    obtain ⟨h1, h2, h3⟩ := hi
    by_contra hlt
    exact hleast i (by omega) (by omega) h3

/-- **`bitmap_find` finds the first bit of the range that has the value**, `-1` says that there is none,
and other bits do not matter. -/
theorem bitmapFind_isLeast (hsize : m.size < 2 ^ 31) (hlen : start + len < 2 ^ 64) (value : ℤ) :
    (∀ p : ℕ, bitmapFind m value start len = p ↔ IsLeast (Window m value start len) p) ∧
    (bitmapFind m value start len = -1 ↔ Window m value start len = ∅) ∧
    ∀ m' : Bitmap, m'.size = m.size →
      (∀ i, start ≤ i → i < min m.size (start + len) → m'.bit i = m.bit i) →
      bitmapFind m' value start len = bitmapFind m value start len := by
  refine ⟨fun p => ?_, ?_, fun m' hsize' hbits => ?_⟩
  · rcases bitmapFind_window hsize hlen value with ⟨hfind, hempty⟩ | ⟨q, hfind, hq⟩
    · rw [hfind, hempty]
      exact ⟨fun h => by omega, fun h => absurd h.1 (Set.notMem_empty p)⟩
    · rw [hfind, Nat.cast_inj]
      exact ⟨fun h => h ▸ hq, fun h => hq.unique h⟩
  · rcases bitmapFind_window hsize hlen value with ⟨hfind, hempty⟩ | ⟨q, hfind, hq⟩
    · exact iff_of_true hfind hempty
    · exact iff_of_false (by omega) (Set.nonempty_iff_ne_empty.mp ⟨q, hq.1⟩)
  · have hwindow : Window m' value start len = Window m value start len := by
      ext i
      rw [Window, Window, hsize']
      refine and_congr_right fun h1 => and_congr_right fun h2 => ?_
      rw [hbits i h1 h2]
    rcases bitmapFind_window hsize hlen value with ⟨hfind, hempty⟩ | ⟨q, hfind, hq⟩
    · rcases bitmapFind_window (m := m') (by omega) hlen value with ⟨hfind', -⟩ | ⟨q', -, hq'⟩
      · rw [hfind, hfind']
      · rw [hwindow, hempty] at hq'
        exact absurd hq'.1 (Set.notMem_empty q')
    · rcases bitmapFind_window (m := m') (by omega) hlen value with ⟨-, hempty'⟩ | ⟨q', hfind', hq'⟩
      · rw [← hwindow, hempty'] at hq
        exact absurd hq.1 (Set.notMem_empty q)
      · rw [hwindow] at hq'
        rw [hfind, hfind', hq.unique hq']

/-- A search that begins in one byte and finds its bit in the next. -/
theorem bitmapFind_isLeast_twentyBits :
    bitmapFind ⟨fun i => if i = 1 then 4 else 0, 20⟩ 1 5 12 = (10 : ℕ) ↔
      IsLeast (Window ⟨fun i => if i = 1 then 4 else 0, 20⟩ 1 5 12) 10 :=
  (@bitmapFind_isLeast ⟨fun i => if i = 1 then 4 else 0, 20⟩ 5 12 (by decide) (by decide) 1).1 10

end GeekToyOS
