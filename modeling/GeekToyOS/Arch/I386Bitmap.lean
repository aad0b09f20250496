import GeekToyOS.Arch.I386Paging
import GeekToyOS.Lib.BitmapRange

/-!
# Bitmaps on i386

`bitmap_set` and `bitmap_find` where `size_t` has 32 bits. The two functions see the range they are given
only through its bounds, cut off at the end of the map. So a call does what the call for 64 bits does whose
range is cut off to the same bits.

## Main definitions

* `I386.bitmapSet`, `I386.bitmapFind` — the two functions of the source

## Main results

* `I386.bitmapSet_eq`, `I386.bitmapFind_eq` — calls whose ranges have the same bounds
-/

namespace GeekToyOS.I386

open Bitmap

/-- `bitmap_set`. -/
def bitmapSet (m : Bitmap) (value : ℤ) (start len : ℕ) : Bitmap :=
  let startBit := min m.size start
  let endBit := min m.size (wadd start len)
  let startByte := align startBit 8 >>> 3
  let endByte := endBit >>> 3
  let startBoundBit := wsub (startByte <<< 3) startBit
  let endBoundBit := wsub endBit (endByte <<< 3)
  if endByte < startByte then
    m.setMasked value (wsub startByte 1) (~~~bitMask8 (8 - startBoundBit) &&& bitMask8 endBoundBit)
  else
    let m := if startBoundBit ≠ 0 then
        m.setMasked value (wsub startByte 1) (~~~bitMask8 (8 - startBoundBit)) else m
    let m := if endByte > startByte then m.memset value startByte (endByte - startByte) else m
    if endBoundBit ≠ 0 then m.setMasked value endByte (bitMask8 endBoundBit) else m

/-- What `bitmap_find` returns for what it found: the label `_found`. -/
def foundBit (value : ℤ) : Option (ℕ × BitVec 8) → ℤ
  | none => -1
  | some (foundByte, byte) =>
    let byte := if value ≠ 0 then ~~~byte else byte
    toInt ((foundByte <<< 3) + bitPos 8 byte 0)

/-- `bitmap_find`. -/
def bitmapFind (m : Bitmap) (value : ℤ) (start len : ℕ) : ℤ :=
  let startBit := min m.size start
  let endBit := min m.size (wadd start len)
  let startByte := align startBit 8 >>> 3
  let endByte := endBit >>> 3
  let startBoundBit := wsub (startByte <<< 3) startBit
  let endBoundBit := wsub endBit (endByte <<< 3)
  foundBit value <|
    if endByte < startByte then
      m.probe value (wsub startByte 1) (~~~bitMask8 (8 - startBoundBit) &&& bitMask8 endBoundBit)
    else
      (if startBoundBit ≠ 0 then m.probe value (wsub startByte 1) (~~~bitMask8 (8 - startBoundBit))
        else none) <|>
      m.scan value (endByte - startByte) startByte <|>
      (if endBoundBit ≠ 0 then m.probe value endByte (bitMask8 endBoundBit) else none)

variable {m : Bitmap} {value : ℤ} {start len start' len' s e : ℕ}

/-- The byte bounds of a range, as the code computes them. -/
theorem bounds_eq (hs : s + 7 < 2 ^ 32) (e : ℕ) :
    align s 8 >>> 3 = (s + 7) / 8 ∧ wsub (((s + 7) / 8) <<< 3) s = (s + 7) / 8 * 8 - s ∧
      e >>> 3 = e / 8 ∧ wsub e ((e / 8) <<< 3) = e % 8 := by
  have hal : align s 8 = (s + 7) % 2 ^ 32 / 2 ^ 3 * 2 ^ 3 := by
    have h := Bits.and_highMask_mod (w := 32) (k := 3) (by norm_num) (wadd s 7)
    rw [wadd, Nat.mod_mod] at h
    exact h
  rw [Nat.mod_eq_of_lt hs] at hal
  rw [hal]
  simp only [Nat.shiftRight_eq_div_pow, Nat.shiftLeft_eq, wsub]
  norm_num
  omega

/-- The index of the last byte below a bound is the same on 32 bits as on 64: it does not wrap around. -/
theorem wsub_one_eq (hs : s + 7 < 2 ^ 32) (hpos : 0 < (s + 7) / 8) :
    wsub ((s + 7) / 8) 1 = GeekToyOS.wsub ((s + 7) / 8) 1 := by
  rw [wsub, GeekToyOS.wsub]
  omega

section Bounds

variable (hsize : m.size + 7 < 2 ^ 32) (hs : min m.size start = min m.size start')
  (he : min m.size (wadd start len) = min m.size (GeekToyOS.wadd start' len'))

include hsize hs he

theorem bitmapSet_eq : bitmapSet m value start len = GeekToyOS.bitmapSet m value start' len' := by
  have hsm : min m.size start' ≤ m.size := Nat.min_le_left _ _
  have hem : min m.size (GeekToyOS.wadd start' len') ≤ m.size := Nat.min_le_left _ _
  rw [bitmapSet, GeekToyOS.bitmapSet, hs, he]
  dsimp only
  generalize min m.size start' = s at *
  generalize min m.size (GeekToyOS.wadd start' len') = e at *
  obtain ⟨h1, h2, h3, h4⟩ := bounds_eq (show s + 7 < 2 ^ 32 by omega) e
  obtain ⟨g1, g2, -, g4⟩ := Bitmap.bounds_eq (s := s) (e := e) (by omega) (by omega)
  rw [h1, h2, h3, h4, g1, g2, g4]
  split
  · rw [wsub_one_eq (by omega) (by omega)]
  · by_cases hb : (s + 7) / 8 * 8 - s = 0
    · rw [if_neg (not_not.mpr hb), if_neg (not_not.mpr hb)]
    · rw [wsub_one_eq (by omega) (by omega)]

theorem bitmapFind_eq : bitmapFind m value start len = GeekToyOS.bitmapFind m value start' len' := by
  have hsm : min m.size start' ≤ m.size := Nat.min_le_left _ _
  have hem : min m.size (GeekToyOS.wadd start' len') ≤ m.size := Nat.min_le_left _ _
  rw [bitmapFind, GeekToyOS.bitmapFind, hs, he]
  dsimp only
  generalize min m.size start' = s at *
  generalize min m.size (GeekToyOS.wadd start' len') = e at *
  obtain ⟨h1, h2, h3, h4⟩ := bounds_eq (show s + 7 < 2 ^ 32 by omega) e
  obtain ⟨g1, g2, -, g4⟩ := Bitmap.bounds_eq (s := s) (e := e) (by omega) (by omega)
  rw [h1, h2, h3, h4, g1, g2, g4]
  refine congrArg (foundBit value) ?_
  by_cases hlt : e / 8 < (s + 7) / 8
  · rw [if_pos hlt, if_pos hlt, wsub_one_eq (by omega) (by omega)]
  · rw [if_neg hlt, if_neg hlt]
    by_cases hb : (s + 7) / 8 * 8 - s = 0
    · rw [if_neg (not_not.mpr hb), if_neg (not_not.mpr hb)]
    · rw [wsub_one_eq (by omega) (by omega)]

end Bounds

end GeekToyOS.I386
