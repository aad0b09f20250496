import GeekToyOS.Data.Walk
import GeekToyOS.Drivers.Video

/-!
# Loading the font

`psf_init` of `src/drivers/video.c` on the bytes of a font. Behind the glyphs of a PSF2 font with a table
there is, for each glyph, a list of characters in UTF-8 that ends with `0xFF`. The loop is to put the number
of the glyph into `unicode_table` for each.

It does not run for such a font: `psf_init` returns when there is a table, and goes on when there is none.
Even where it runs it counts no glyph, because a byte `0xFF` is a `char`, and as `u16` it is `0xFFFF`.

Addresses are those in the image. A read is its place and its size.

## Main definitions

* `psfInitImage` — `psf_init`
* `IsPsfImage` — a font with its lists of characters
* `PsfLoads` — what `psf_init` should do

## Main results

* `psfInitImage_unicodeTable` — whatever the bytes are, all entries of `unicode_table` stay 0
* `psfLoads_iff`
-/

namespace GeekToyOS

open Raster (Mem loadBytes)

/-- `UINT16_MAX`, the size of `unicode_table`. -/
def uint16Max : ℕ := 65535

/-- `PSF_FONT_MAGIC` -/
def psfFontMagic : ℕ := 0x864ab572

/-! ### The code -/

section Image

variable (m : Mem)

/-- `font->headersize` -/
def psfHeadersize : ℕ := loadBytes m 8 4

/-- `font->flags` -/
def psfFlags : ℕ := loadBytes m 12 4

/-- `font->numglyph` -/
def psfNumglyph : ℕ := loadBytes m 16 4

/-- `font->bytesperglyph` -/
def psfBytesperglyph : ℕ := loadBytes m 20 4

/-- The font, when `unicode_table` is `table`. -/
def psfFont (table : ℕ → BitVec 16) : PsfFont where
  flags := psfFlags m
  numglyph := psfNumglyph m
  bytesperglyph := psfBytesperglyph m
  height := loadBytes m 24 4
  width := loadBytes m 28 4
  glyph i := m (psfHeadersize m + i)
  unicodeTable uc := (table uc).toNat

/-- The variables of the loop, with the places of `unicode_table` that were written. -/
structure PsfState where
  s : ℕ
  glyph : BitVec 16
  unicodeTable : ℕ → BitVec 16
  written : List ℕ

/-- `(u16)((unsigned char *)s[0])`, where `s[0]` is a `char`. -/
def psfChar (s : ℕ) : BitVec 16 := (m s).signExtend 16

/-- `s[i] & 0x3F` -/
def utf8Tail (s : ℕ) : ℕ := (m s).toNat &&& 0x3F

/-- UTF-8 to unicode, with the number of the bytes that follow. -/
def psfDecode (s : ℕ) : BitVec 16 × ℕ :=
  let uc := psfChar m s
  let s0 := (m s).toNat
  if uc &&& 128 ≠ 0 then
    if uc &&& 32 = 0 then (BitVec.ofNat 16 (((s0 &&& 0x1F) <<< 6) + utf8Tail m (s + 1)), 1)
    else if uc &&& 16 = 0 then
      (BitVec.ofNat 16 (((((s0 &&& 0xF) <<< 6) + utf8Tail m (s + 1)) <<< 6) + utf8Tail m (s + 2)), 2)
    else if uc &&& 8 = 0 then
      (BitVec.ofNat 16 (((((((s0 &&& 0x7) <<< 6) + utf8Tail m (s + 1)) <<< 6) + utf8Tail m (s + 2)) <<< 6)
        + utf8Tail m (s + 3)), 3)
    else (0, 0)
  else (uc, 0)

/-- A turn of the loop. -/
def psfNext (t : PsfState) : PsfState :=
  if psfChar m t.s = 0xFF then { t with glyph := t.glyph + 1, s := t.s + 1 }
  else
    let uc := (psfDecode m t.s).1.toNat
    { t with
      unicodeTable := Function.update t.unicodeTable uc t.glyph
      written := t.written ++ [uc]
      s := t.s + (psfDecode m t.s).2 + 1 }

/-- `while (s > _binary_font_psf_end)` -/
def psfStop (fontEnd : ℕ) (t : PsfState) : Prop := ¬ t.s > fontEnd

instance (fontEnd : ℕ) : DecidablePred (psfStop fontEnd) := fun _ => inferInstanceAs (Decidable (¬ _))

/-- The reads of a turn. -/
def psfReads (fontEnd : ℕ) (t : PsfState) : List (ℕ × ℕ) :=
  if psfStop fontEnd t then []
  else if psfChar m t.s = 0xFF then [(t.s, 1)]
  else [(t.s, (psfDecode m t.s).2 + 1)]

/-- What `psf_init` leaves, and what it read. -/
structure PsfResult where
  info : ScreenInfo
  unicodeTable : ℕ → BitVec 16
  written : List ℕ
  reads : List (ℕ × ℕ)

/-- `psf_init`, for an image from 0 to `fontEnd`. -/
def psfInitImage (fontEnd : ℕ) (info : ScreenInfo) (table : ℕ → BitVec 16) (fuel : ℕ) : Option PsfResult :=
  let header := [(24, 4), (28, 4), (20, 4), (8, 4), (12, 4)]
  if psfFlags m ≠ 0 then some ⟨psfInit info (psfFont m table), table, [], header⟩
  else
    let s := psfHeadersize m + psfNumglyph m * psfBytesperglyph m % 2 ^ 32
    (Walk.run (psfNext m) (psfStop fontEnd) (psfReads m fontEnd) fuel ⟨s, 0, table, []⟩).map
      fun (t, reads) => ⟨psfInit info (psfFont m t.unicodeTable), t.unicodeTable, t.written,
        header ++ [(16, 4), (20, 4)] ++ reads⟩

/-! ### What it should do -/

/-- The lists of characters as bytes. -/
def unicodeBytes (lists : List (List Char)) : List (BitVec 8) :=
  lists.flatMap fun chars => (chars.flatMap String.utf8EncodeChar).map UInt8.toBitVec ++ [0xFF]

/-- **The image of a PSF2 font**: a header, the glyphs, and the lists of characters if the flags announce
them. -/
structure IsPsfImage (size : ℕ) (lists : List (List Char)) : Prop where
  magic : loadBytes m 0 4 = psfFontMagic
  headersize_ge : 32 ≤ psfHeadersize m
  size_eq : size = psfHeadersize m + psfNumglyph m * psfBytesperglyph m + (unicodeBytes lists).length
  length_eq : lists.length = if psfFlags m ≠ 0 then psfNumglyph m else 0
  bytes : ∀ i b, (unicodeBytes lists)[i]? = some b →
    m (psfHeadersize m + psfNumglyph m * psfBytesperglyph m + i) = b

/-- The last glyph whose list has the character. -/
def IsLastGlyph (lists : List (List Char)) (uc i : ℕ) : Prop :=
  (∃ chars, lists[i]? = some chars ∧ ∃ c ∈ chars, c.toNat = uc) ∧
    ∀ j > i, ∀ chars, lists[j]? = some chars → ∀ c ∈ chars, c.toNat ≠ uc

/-- **`psf_init` loads the font**: it fills `unicode_table` from the lists, and does not set the table of
the screen if there are none. -/
structure PsfLoads (size : ℕ) (lists : List (List Char)) (info : ScreenInfo) : Prop where
  table : psfFlags m ≠ 0 → ∃ fuel r, psfInitImage m size info (fun _ => 0) fuel = some r ∧
    (∀ a ∈ r.reads, a.1 + a.2 ≤ size) ∧ (∀ uc ∈ r.written, uc < uint16Max) ∧
    ∀ uc < uint16Max, ∀ i, IsLastGlyph lists uc i → (r.unicodeTable uc).toNat = i
  noTable : psfFlags m = 0 → ∃ fuel r, psfInitImage m size info (fun _ => 0) fuel = some r ∧
    r.info.table = none

/-! ### What it does -/

variable {m} {size : ℕ} {lists : List (List Char)} {info : ScreenInfo}

/-- The byte `0xFF` at the end of a list is not recognized: a `char` is never equal to it. -/
theorem psfChar_ne (s : ℕ) : psfChar m s ≠ 0xFF := by
  have hall : ∀ b : BitVec 8, b.signExtend 16 ≠ 0xFF := by decide
  exact hall (m s)

/-- A turn of the loop counts no glyph, as it never sees the end of a list. -/
theorem psfNext_glyph (t : PsfState) : (psfNext m t).glyph = t.glyph := by
  rw [psfNext, if_neg (psfChar_ne t.s)]

/-- **All entries of `unicode_table` stay 0**, whatever the bytes are. -/
theorem psfInitImage_unicodeTable {fuel : ℕ} {r : PsfResult}
    (h : psfInitImage m size info (fun _ => 0) fuel = some r) : r.unicodeTable = fun _ => 0 := by
  rw [psfInitImage] at h
  split at h
  · rw [← Option.some.inj h]
  · obtain ⟨r', hr', rfl⟩ := Option.map_eq_some_iff.mp h
    obtain ⟨k, -, -, rfl⟩ := Walk.run_eq_some_iff.mp hr'
    -- the number of the glyph is 0 in every turn
    have hzero : ∀ k, ∀ t : PsfState, t.glyph = 0 → t.unicodeTable = (fun _ => 0) →
        ((psfNext m)^[k] t).unicodeTable = fun _ => 0 := by
      intro k
      induction k with
      | zero => exact fun t _ h => h
      | succ k ih =>
        intro t hglyph htable
        refine ih (psfNext m t) ((psfNext_glyph t).trans hglyph) ?_
        rw [psfNext, if_neg (psfChar_ne t.s)]
        dsimp only
        rw [hglyph, htable]
        exact Function.update_eq_self _ _
    exact hzero k _ rfl rfl

theorem exists_isLastGlyph {uc i : ℕ} {chars : List Char} (hi : lists[i]? = some chars)
    (hc : ∃ c ∈ chars, c.toNat = uc) : ∃ j, i ≤ j ∧ IsLastGlyph lists uc j := by
  classical
  have hle : ∀ {j chars}, lists[j]? = some chars → j ≤ lists.length := fun hj =>
    (List.getElem?_eq_some_iff.mp hj).1.le
  refine ⟨Nat.findGreatest (fun j => ∃ chars, lists[j]? = some chars ∧ ∃ c ∈ chars, c.toNat = uc)
    lists.length, Nat.le_findGreatest (hle hi) ⟨chars, hi, hc⟩,
    Nat.findGreatest_spec (P := fun j => ∃ chars, lists[j]? = some chars ∧ ∃ c ∈ chars, c.toNat = uc)
      (hle hi) ⟨chars, hi, hc⟩, fun j hj chars' hj' c hc' heq => ?_⟩
  exact absurd (Nat.le_findGreatest (hle hj') ⟨chars', hj', c, hc', heq⟩) (not_le.mpr hj)

/-- **When `psf_init` loads the font**: if its flags say so, and only the list of the first glyph has
characters for the table. -/
theorem psfLoads_iff (h : IsPsfImage m size lists) (info : ScreenInfo) : PsfLoads m size lists info ↔
    psfFlags m ≠ 0 ∧ ∀ i > 0, ∀ chars, lists[i]? = some chars → ∀ c ∈ chars, uint16Max ≤ c.toNat := by
  constructor
  · intro hloads
    have hflags : psfFlags m ≠ 0 := by
      intro hzero
      obtain ⟨fuel, r, hr, hnone⟩ := hloads.noTable hzero
      rw [psfInitImage, if_neg (not_not_intro hzero)] at hr
      obtain ⟨r', -, rfl⟩ := Option.map_eq_some_iff.mp hr
      dsimp only [psfInit, psfFont] at hnone
      rw [if_neg (not_not_intro hzero)] at hnone
      cases hnone
    refine ⟨hflags, fun i hi chars hchars c hc => not_lt.mp fun hlt => ?_⟩
    obtain ⟨fuel, r, hr, -, -, htable⟩ := hloads.table hflags
    obtain ⟨j, hij, hlast⟩ := exists_isLastGlyph hchars ⟨c, hc, rfl⟩
    have hj := htable c.toNat hlt j hlast
    rw [psfInitImage_unicodeTable hr] at hj
    simp at hj
    omega
  · rintro ⟨hflags, hall⟩
    refine ⟨fun _ => ⟨0, _, if_pos hflags, fun a ha => ?_, fun uc huc => absurd huc List.not_mem_nil,
      fun uc huc i hlast => ?_⟩, fun hzero => absurd hzero hflags⟩
    · have hsize : 32 ≤ size := by
        rw [h.size_eq]
        exact h.headersize_ge.trans (by omega)
      simp at ha
      rcases ha with rfl | rfl | rfl | rfl | rfl <;> dsimp only <;> omega
    · obtain ⟨⟨chars, hchars, c, hc, rfl⟩, -⟩ := hlast
      have hi : i = 0 := by
        by_contra hne
        exact absurd huc (not_lt.mpr (hall i (Nat.pos_of_ne_zero hne) chars hchars c hc))
      rw [hi]
      rfl

end Image

/-- A font with glyphs of one row of eight pixels. -/
def oneRowFont (lists : List (List Char)) : Mem := fun o =>
  (([0x72, 0xB5, 0x4A, 0x86, 0, 0, 0, 0, 32, 0, 0, 0, 1, 0, 0, 0, BitVec.ofNat 8 lists.length, 0, 0, 0,
    1, 0, 0, 0, 1, 0, 0, 0, 8, 0, 0, 0] ++ List.replicate lists.length 0) ++ unicodeBytes lists).getD o 0

theorem isPsfImage_oneRowFont (lists : List (List Char)) (h : lists.length < 256) :
    IsPsfImage (oneRowFont lists) (32 + lists.length + (unicodeBytes lists).length) lists := by
  have hnum : psfNumglyph (oneRowFont lists) = lists.length := by
    change (BitVec.ofNat 8 lists.length).toNat + 256 * 0 = lists.length
    rw [BitVec.toNat_ofNat]
    omega
  have hbytes : psfBytesperglyph (oneRowFont lists) = 1 := rfl
  have hhead : psfHeadersize (oneRowFont lists) = 32 := rfl
  refine ⟨?_, hhead.ge, ?_, ?_, fun i b hb => ?_⟩
  · change 0x72 + 256 * (0xB5 + 256 * (0x4A + 256 * (0x86 + 256 * 0))) = psfFontMagic
    norm_num [psfFontMagic]
  · rw [hnum, hbytes, hhead, Nat.mul_one]
  · rw [hnum]
    exact (if_pos (show (1 : ℕ) ≠ 0 from one_ne_zero)).symm
  · rw [hnum, hbytes, hhead, Nat.mul_one, oneRowFont, List.getD_eq_getElem?_getD,
      List.getElem?_append_right (by simp; omega), List.length_append, List.length_replicate]
    simp [hb]

theorem psfLoads_iff_one : PsfLoads (oneRowFont [['A', 'B']]) 36 [['A', 'B']] screenInfoUnset :=
  (psfLoads_iff (isPsfImage_oneRowFont [['A', 'B']] (by decide)) screenInfoUnset).mpr
    ⟨by decide, fun i hi chars hchars => by
      rw [List.getElem?_eq_none (Nat.succ_le_of_lt hi)] at hchars
      cases hchars⟩

/-- Of two glyphs the second is not in the table after `psf_init`. -/
theorem not_psfLoads_two : ¬ ∀ (m : Mem) (size : ℕ) (lists : List (List Char)), IsPsfImage m size lists →
    PsfLoads m size lists screenInfoUnset := by
  intro hall
  obtain ⟨fuel, r, hr, -, -, htable⟩ :=
    (hall _ _ _ (isPsfImage_oneRowFont [['A'], ['B']] (by decide))).table (by decide)
  have hlast : IsLastGlyph [['A'], ['B']] 66 1 := by
    refine ⟨⟨['B'], rfl, 'B', by decide, rfl⟩, fun j hj chars hchars => ?_⟩
    rw [List.getElem?_eq_none (Nat.succ_le_of_lt hj)] at hchars
    cases hchars
  have hone := htable 66 (by decide) 1 hlast
  rw [psfInitImage_unicodeTable hr] at hone
  cases hone

end GeekToyOS
