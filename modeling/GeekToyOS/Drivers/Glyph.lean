import GeekToyOS.Drivers.Video

/-!
# Glyphs on the screen

A row of a glyph is tested with a mask that starts at the left and is shifted to the right. The mask is an
`int`. With a width of 32 it starts with the sign bit, and the shift keeps it: every pixel is tested with
all the bits up to its own.

`screen_info` has a byte for the height: of a glyph of 256 rows or more, only so many are drawn as the byte
says.

## Main definitions

* `PsfFont.bit` — the pixels of a glyph
* `HasFont` — the screen shows pixels, and has the font
* `Renders` — the glyph is in its cell, and nothing else changed

## Main results

* `and_glyphMask_wide` — the mask of a width of 32
* `renders_iff` — which glyphs are rendered
-/

namespace GeekToyOS

/-- The pixel `(dx, dy)` of a glyph: the high bit of a byte is on the left. -/
def PsfFont.bit (font : PsfFont) (index dx dy : ℕ) : Bool :=
  (font.glyph (index * font.bytesperglyph + dy * ((font.width + 7) / 8) + dx / 8)).getLsbD (7 - dx % 8)

/-- A screen of pixels with a font, as `screen_init` makes it. -/
structure HasFont (s : Screen) (font : PsfFont) : Prop where
  loaded : ∃ info, s.info = psfInit info font
  type : s.info.type ≠ .vga
  pixels : s.info.Pixels
  clean : s.bufferDirty = false
  one_le_width : 1 ≤ font.width
  width_le : font.width ≤ 32
  bytesperglyph : font.bytesperglyph = font.height * ((font.width + 7) / 8)

/-- The pixel of a glyph on the screen. -/
def ScreenInfo.glyphPixel (info : ScreenInfo) (font : PsfFont) (frontColor backColor chr dx dy : ℕ) : ℕ :=
  info.stored (if font.bit (glyphIndex info chr) dx dy then transColor2Pixel info frontColor
    else transColor2Pixel info backColor)

/-- **The glyph of a character is in its cell**, and nothing else changed. -/
structure Renders (s t : Screen) (font : PsfFont) (x y frontColor backColor chr : ℕ) : Prop where
  cell : ∀ dx < font.width, ∀ dy < font.height, s.info.pixelAt t.base (x + dx) (y + dy) =
    s.info.glyphPixel font frontColor backColor chr dx dy
  others : ∀ i < s.info.width, ∀ j, ¬ ((y ≤ j ∧ j < y + font.height) ∧ x ≤ i ∧ i < x + font.width) →
    s.info.pixelAt t.base i j = s.info.pixelAt s.base i j

/-- After the first pixel that is set, all are. -/
def PsfFont.FilledRow (font : PsfFont) (index dy : ℕ) : Prop :=
  ∀ dx < font.width, ∀ k ≤ dx, font.bit index k dy → font.bit index dx dy

variable {s : Screen} {font : PsfFont} {x y i j frontColor backColor chr : ℕ}

/-- **A mask of 32 bits** has the bit of the pixel and all those before. -/
theorem and_glyphMask_wide {dx : ℕ} (hdx : dx < 32) (glyph : ℕ → BitVec 8) (ptr : ℕ) :
    glyphWord 32 glyph ptr &&& glyphMask 32 dx ≠ 0 ↔
      ∃ k ≤ dx, (glyph (ptr + k / 8)).getLsbD (7 - k % 8) = true := by
  have hmask : ∀ b < 32, (glyphMask 32 dx).getLsbD b = decide (31 - dx ≤ b) := fun b hb => by
    change ((BitVec.twoPow 32 31).sshiftRight dx).getLsbD b = _
    rw [BitVec.getLsbD_sshiftRight, BitVec.getLsbD_twoPow, decide_eq_false (show ¬ 32 ≤ b by omega)]
    by_cases hin : dx + b < 32
    · rw [if_pos hin]
      by_cases heq : 31 - dx ≤ b
      · rw [decide_eq_true heq, decide_eq_true (show 31 = dx + b by omega)]
        rfl
      · simp [heq, show 31 ≠ dx + b by omega]
    · rw [if_neg hin, decide_eq_true (show 31 - dx ≤ b by omega)]
      rfl
  refine Bits.and_ne_zero_iff.trans ⟨?_, ?_⟩
  · rintro ⟨b, hb, hg, hm⟩
    rw [hmask b hb, decide_eq_true_eq] at hm
    refine ⟨31 - b, by omega, ?_⟩
    rwa [← glyphWord_getLsbD (le_refl 32) (by omega), show 32 - 1 - (31 - b) = b by omega]
  · rintro ⟨k, hk, hbit⟩
    refine ⟨31 - k, by omega, ?_, ?_⟩
    · rwa [← glyphWord_getLsbD (le_refl 32) (by omega)] at hbit
    · rw [hmask _ (by omega), decide_eq_true_eq]
      omega

/-- The pixel that the code draws. -/
def PsfFont.drawnBit (font : PsfFont) (index dx dy : ℕ) : Bool :=
  if font.width < 32 then font.bit index dx dy else ∃ k ≤ dx, font.bit index k dy

theorem PsfFont.drawnBit_of_lt {font : PsfFont} {dx : ℕ} (h : font.width < 32) (index dy : ℕ) :
    font.drawnBit index dx dy = font.bit index dx dy := if_pos h

theorem PsfFont.drawnBit_wide {font : PsfFont} {index dx dy : ℕ} (h : ¬ font.width < 32) :
    font.drawnBit index dx dy = true ↔ ∃ k ≤ dx, font.bit index k dy = true := by
  rw [PsfFont.drawnBit, if_neg h, decide_eq_true_eq]

/-- In a row where every bit behind one that is set is set too, the sign of the mask does no harm. -/
theorem PsfFont.FilledRow.drawnBit {font : PsfFont} {index dx dy : ℕ} (h : font.FilledRow index dy)
    (hdx : dx < font.width) : font.drawnBit index dx dy = font.bit index dx dy := by
  by_cases hlt : font.width < 32
  · exact drawnBit_of_lt hlt index dy
  · refine Bool.eq_iff_iff.mpr ((drawnBit_wide hlt).trans ⟨?_, fun hbit => ⟨dx, le_rfl, hbit⟩⟩)
    rintro ⟨k, hk, hbit⟩
    exact h dx hdx k hk hbit

/-- **What `screen_input_char` draws**: as many rows as a byte counts. -/
theorem HasFont.pixelAt_screenInputChar (h : HasFont s font) (frontColor backColor : ℕ) (hchr : chr < 65535)
    (hx : x + font.width ≤ s.info.width) (hy : y + font.height ≤ s.info.height) (hi : i < s.info.width) :
    s.info.pixelAt (screenInputChar s x y frontColor backColor chr).base i j =
      if (y ≤ j ∧ j < y + font.height % 256) ∧ x ≤ i ∧ i < x + font.width then
        s.info.stored (if font.drawnBit (glyphIndex s.info chr) (i - x) (j - y)
          then transColor2Pixel s.info frontColor else transColor2Pixel s.info backColor)
      else s.info.pixelAt s.base i j := by
  obtain ⟨info, hinfo⟩ := h.loaded
  have hle := h.width_le
  have hwidth : s.info.fontWidth = font.width := by
    rw [hinfo]
    exact Nat.mod_eq_of_lt (by omega)
  have hheight : s.info.fontHeight = font.height % 256 := by
    rw [hinfo]
    rfl
  have hglyph : s.info.glyph = font.glyph := by
    rw [hinfo]
    rfl
  have hbytes : s.info.bytesperglyph = font.bytesperglyph := by
    rw [hinfo]
    rfl
  have hmod := Nat.mod_le font.height 256
  obtain ⟨t, ht, -, -, hpix, -⟩ := screenInputChar_draws (x := x) (y := y) h.pixels h.clean h.type hchr
    frontColor backColor (by rwa [hwidth]) (by omega)
  rw [ht, hpix i hi, hwidth, hheight, hglyph, hbytes]
  split
  · rename_i hin
    refine congrArg s.info.stored (if_congr ?_ rfl rfl)
    by_cases hlt : font.width < 32
    · rw [PsfFont.drawnBit_of_lt hlt, and_glyphMask_ne_zero (by omega) (by omega)]
      rfl
    · have heq : font.width = 32 := by omega
      rw [PsfFont.drawnBit_wide hlt, heq, and_glyphMask_wide (by omega)]
      simp only [PsfFont.bit, heq]
  · rfl

/-- **Which glyphs are rendered**: those with less than 32 columns or rows that the signed mask does no harm
to, as far as their rows are drawn. -/
theorem renders_iff (h : HasFont s font) (hchr : chr < 65535) (hx : x + font.width ≤ s.info.width)
    (hy : y + font.height ≤ s.info.height) :
    Renders s (screenInputChar s x y frontColor backColor chr) font x y frontColor backColor chr ↔
      (font.width < 32 ∨ s.info.stored (transColor2Pixel s.info frontColor) =
          s.info.stored (transColor2Pixel s.info backColor) ∨
        ∀ dy < font.height % 256, font.FilledRow (glyphIndex s.info chr) dy) ∧
      ∀ dx < font.width, ∀ dy, font.height % 256 ≤ dy → dy < font.height →
        s.info.pixelAt s.base (x + dx) (y + dy) = s.info.glyphPixel font frontColor backColor chr dx dy := by
  have hmod := Nat.mod_le font.height 256
  have hpix := fun {i j : ℕ} (hi : i < s.info.width) =>
    h.pixelAt_screenInputChar (j := j) frontColor backColor hchr hx hy hi
  -- the pixels of the cell, by rows that are drawn and rows that are not
  have hdrawn : ∀ dx < font.width, ∀ dy < font.height % 256,
      s.info.pixelAt (screenInputChar s x y frontColor backColor chr).base (x + dx) (y + dy) =
        s.info.stored (if font.drawnBit (glyphIndex s.info chr) dx dy
          then transColor2Pixel s.info frontColor else transColor2Pixel s.info backColor) :=
    fun dx hdx dy hdy => by
      rw [hpix (by omega), if_pos (by omega), Nat.add_sub_cancel_left, Nat.add_sub_cancel_left]
  have hkept : ∀ dx < font.width, ∀ dy, font.height % 256 ≤ dy →
      s.info.pixelAt (screenInputChar s x y frontColor backColor chr).base (x + dx) (y + dy) =
        s.info.pixelAt s.base (x + dx) (y + dy) := fun dx hdx dy hdy => by
    rw [hpix (by omega), if_neg (by omega)]
  constructor
  · intro hr
    refine ⟨?_, fun dx hdx dy hlo hhi => (hkept dx hdx dy hlo).symm.trans (hr.cell dx hdx dy hhi)⟩
    refine or_iff_not_imp_left.mpr fun hwide => or_iff_not_imp_left.mpr fun hcolors => ?_
    intro dy hdy dx hdx k hk hbit
    have hset : font.drawnBit (glyphIndex s.info chr) dx dy = true :=
      (PsfFont.drawnBit_wide hwide).mpr ⟨k, hk, hbit⟩
    have hcell := (hdrawn dx hdx dy hdy).symm.trans (hr.cell dx hdx dy (by omega))
    rw [hset, if_pos rfl, ScreenInfo.glyphPixel] at hcell
    by_contra hclear
    rw [if_neg hclear] at hcell
    exact hcolors hcell
  · rintro ⟨hcond, hrest⟩
    refine ⟨fun dx hdx dy hdy => ?_, fun i hi j hout => by rw [hpix hi, if_neg (by omega)]⟩
    by_cases hrow : dy < font.height % 256
    · rw [hdrawn dx hdx dy hrow, ScreenInfo.glyphPixel]
      obtain hlt | hcolors | hfilled := hcond
      · rw [PsfFont.drawnBit_of_lt hlt]
      · rw [apply_ite s.info.stored, apply_ite s.info.stored, hcolors, ite_self, ite_self]
      · rw [(hfilled dy hrow).drawnBit hdx]
    · rw [hkept dx hdx dy (by omega), hrest dx hdx dy (by omega) hdy]

/-- A font with one glyph of one row, its first pixel set. -/
def rowFont (width : ℕ) : PsfFont where
  flags := 1
  numglyph := 1
  bytesperglyph := (width + 7) / 8
  height := 1
  width := width
  glyph i := if i = 0 then 0x80 else 0
  unicodeTable _ := 0

/-- A screen of 32 pixels in black and white. -/
def rowScreen (width : ℕ) : Screen :=
  let info := { screenInfoUnset with
    width := 32
    height := 1
    pitch := 32
    bpp := 1
    type := .index
    palette := [⟨0, 0, 0⟩, ⟨255, 255, 255⟩] }
  screenStart (psfInit info (rowFont width)) fun _ => 0

theorem hasFont_rowScreen {width : ℕ} (h1 : 1 ≤ width) (hle : width ≤ 32) :
    HasFont (rowScreen width) (rowFont width) where
  loaded := ⟨_, rfl⟩
  type := ScreenType.noConfusion
  pixels := ⟨le_rfl, (by decide : 1 ≤ 4), le_rfl⟩
  clean := rfl
  one_le_width := h1
  width_le := hle
  bytesperglyph := (Nat.one_mul _).symm

theorem renders_iff_narrow : Renders (rowScreen 8) (screenInputChar (rowScreen 8) 3 0 0xFFFFFF 0 65)
    (rowFont 8) 3 0 0xFFFFFF 0 65 :=
  (renders_iff (hasFont_rowScreen (by decide) (by decide)) (by decide) (by decide) (by decide)).mpr
    ⟨.inl (by decide), fun _ _ dy hlo hhi => absurd hhi (not_lt.mpr hlo)⟩

/-- The first of 32 pixels is set, and the second is drawn. -/
theorem not_renders_wide : ¬ ∀ (s : Screen) (font : PsfFont) (x y frontColor backColor chr : ℕ),
    HasFont s font → chr < 65535 → x + font.width ≤ s.info.width → y + font.height ≤ s.info.height →
    Renders s (screenInputChar s x y frontColor backColor chr) font x y frontColor backColor chr := by
  intro hall
  have hr := hall (rowScreen 32) (rowFont 32) 0 0 0xFFFFFF 0 65 (hasFont_rowScreen (by decide) (by decide))
    (by decide) (by decide) (by decide)
  exact absurd (hr.cell 1 (by decide) 0 (by decide)) (by decide +kernel)

end GeekToyOS
