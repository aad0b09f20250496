import GeekToyOS.Data.Raster
import GeekToyOS.Lib.Const

/-!
# `video.c`

The screen of `src/drivers/video.c`: pixels are drawn into a buffer, and a dirty rectangle of it is then
copied to the visible memory. Scrolling copies the visible memory back into the buffer, a cell higher, and
everything to the visible memory again.

Both memories are bytes by offset; `memcpy` and `memmove` copy what they are asked for. The visible memory
is mapped, and the log of a wrong pixel size is left out.

## Main definitions

* `FramebufferTag`, `PsfFont` — what `screen_init` and `psf_init` read
* `ScreenInfo`, `Screen` — `screen_info`, and with it the memories and the dirty rectangle
* `screenPutPixel`, `screenMove`, `transColor2Pixel`, `screenInputChar`
* `ScreenInfo.Regular` — pixels of one to four bytes of their own (`Pixels`), less than 4 GiB of them, and
  glyphs at most 31 pixels wide
* `ScreenInfo.cell` — the glyph of a character, pixel by pixel

## Main results

* `pixelAt_screenPutPixel` — a pixel is drawn, and nothing else
* `glyphWord_getLsbD` — the bits of a row of a glyph
* `pixelAt_drawGlyph`, `screenInputChar_draws` — a glyph is drawn, pixel by pixel
* `pixelAt_screenFlushBuffer` — the dirty rectangle becomes visible
-/

namespace GeekToyOS

open Raster

/-- `SCREEN_VGA`, `SCREEN_RGB` and `SCREEN_INDEX`. -/
inductive ScreenType
  | vga
  | rgb
  | index
deriving DecidableEq, Repr

/-- `color_bit` -/
structure ColorBit where
  pos : ℕ
  size : ℕ
deriving DecidableEq, Repr

/-- `color_palette` -/
structure ColorPalette where
  r : ℕ
  g : ℕ
  b : ℕ
deriving DecidableEq, Repr

/-- `struct multiboot_tag_framebuffer`, but for the address. -/
structure FramebufferTag where
  framebufferPitch : ℕ
  framebufferWidth : ℕ
  framebufferHeight : ℕ
  framebufferBpp : ℕ
  framebufferType : ℕ
  red : ColorBit
  green : ColorBit
  blue : ColorBit
  /-- `framebuffer_palette`, as many entries as it says -/
  framebufferPalette : List ColorPalette

/-- `PSF_font` and the bitmaps behind it, with the table that `psf_init` builds where `flags` is zero. -/
structure PsfFont where
  flags : ℕ
  numglyph : ℕ
  bytesperglyph : ℕ
  height : ℕ
  width : ℕ
  glyph : ℕ → BitVec 8
  unicodeTable : ℕ → ℕ

/-- `screen_info` -/
structure ScreenInfo where
  width : ℕ
  height : ℕ
  pitch : ℕ
  bytesperglyph : ℕ
  bpp : ℕ
  type : ScreenType
  fontWidth : ℕ
  fontHeight : ℕ
  table : Option (ℕ → ℕ)
  numglyph : ℕ
  glyph : ℕ → BitVec 8
  r : ColorBit
  g : ColorBit
  b : ColorBit
  /-- `palette`, with `num_colors` entries -/
  palette : List ColorPalette

/-- The screen with its two memories and the dirty rectangle. -/
structure Screen where
  info : ScreenInfo
  base : Mem
  buffer : Mem
  dirtyXstart : ℕ
  dirtyXend : ℕ
  dirtyYstart : ℕ
  dirtyYend : ℕ
  bufferDirty : Bool

/-! ### Colors -/

/-- `bit_part` -/
def bitPart (x pos size : ℕ) : ℕ := (x >>> pos) &&& bitMask size

/-- `bit_build` -/
def bitBuild (x pos size : ℕ) : ℕ := (x &&& bitMask size) <<< pos % 2 ^ 32

def rgbWhite : ℕ := 0xFFFFFF

def rgbBlack : ℕ := 0x000000

/-- An entry of the VGA palette: `make_vga_palette`. -/
def makeVgaPalette (color : ℕ) : ColorPalette := ⟨bitPart color 16 8, bitPart color 8 8, bitPart color 0 8⟩

def vgaPalette : List ColorPalette :=
  [0x000000, 0x0000AA, 0x00AA00, 0x00AAAA, 0xAA0000, 0xAA00AA, 0xAA5500, 0xAAAAAA, 0x555555, 0x5555FF,
    0x55FF55, 0x55FFFF, 0xFF5555, 0xFF55FF, 0xFFFF55, 0xFFFFFF].map makeVgaPalette

/-- The square of the distance of two colors. -/
def colorDistance (r g b : ℕ) (c : ColorPalette) : ℕ :=
  (((r - c.r : ℤ) * (r - c.r) + (g - c.g) * (g - c.g) + (b - c.b) * (b - c.b)) % 2 ^ 32).toNat

/-- The loop over the palette: the first of the nearest entries. -/
def nearestColor (r g b : ℕ) : List ColorPalette → ℕ → ℕ → ℕ → ℕ
  | [], _, pixel, _ => pixel
  | c :: rest, i, pixel, distance =>
    if colorDistance r g b c < distance then nearestColor r g b rest (i + 1) i (colorDistance r g b c)
    else nearestColor r g b rest (i + 1) pixel distance

/-- `trans_color2pixel` -/
def transColor2Pixel (info : ScreenInfo) (color : ℕ) : ℕ :=
  let r := bitPart color 16 8
  let g := bitPart color 8 8
  let b := bitPart color 0 8
  if info.type = .rgb then
    bitBuild r info.r.pos info.r.size ||| bitBuild g info.g.pos info.g.size
      ||| bitBuild b info.b.pos info.b.size
  else nearestColor r g b info.palette 0 0 (3 * 256 * 256)

/-! ### Setting up -/

/-- `psf_init` -/
def psfInit (info : ScreenInfo) (font : PsfFont) : ScreenInfo :=
  { info with
    fontHeight := font.height % 2 ^ 8
    fontWidth := font.width % 2 ^ 8
    bytesperglyph := font.bytesperglyph
    numglyph := font.numglyph
    glyph := font.glyph
    table := if font.flags ≠ 0 then info.table else some font.unicodeTable }

/-- `screen_info` before `screen_init`. -/
def screenInfoUnset : ScreenInfo where
  width := 0
  height := 0
  pitch := 0
  bytesperglyph := 0
  bpp := 0
  type := .vga
  fontWidth := 0
  fontHeight := 0
  table := none
  numglyph := 0
  glyph _ := 0
  r := ⟨0, 0⟩
  g := ⟨0, 0⟩
  b := ⟨0, 0⟩
  palette := []

/-- `screen_init`, when there is a tag. -/
def screenInit (tag : FramebufferTag) (font : PsfFont) : ScreenInfo :=
  let info := { screenInfoUnset with
    bpp := divRoundUp tag.framebufferBpp 8
    height := tag.framebufferHeight
    width := tag.framebufferWidth
    pitch := tag.framebufferPitch }
  let info :=
    if tag.framebufferType = 1 then
      { info with type := .rgb, r := tag.red, g := tag.green, b := tag.blue }
    else if tag.framebufferType = 0 then
      { info with type := .index, palette := tag.framebufferPalette }
    else if tag.framebufferType = 2 then { info with type := .vga, palette := vgaPalette }
    else info
  if info.type = .vga then { info with fontHeight := 1, fontWidth := 1 } else psfInit info font

/-- The screen that `screen_init` leaves: the visible memory is as it is, the buffer is zeroed. -/
def screenStart (info : ScreenInfo) (base : Mem) : Screen := ⟨info, base, fun _ => 0, 0, 0, 0, 0, false⟩

/-! ### Drawing -/

/-- `screen_put_pixel` into the buffer. -/
def screenPutPixel (info : ScreenInfo) (buffer : Mem) (x y pixel : ℕ) : Mem :=
  if x ≥ info.width ∨ y ≥ info.height then buffer
  else
    let psize := info.bpp
    let pptr := y * info.pitch + x * psize
    match psize with
    | 1 => storeBytes buffer pptr 1 (pixel &&& 0xFF)
    | 2 => storeBytes buffer pptr 2 (pixel &&& 0xFFFF)
    | 3 => storeBytes buffer pptr 4 ((pixel &&& 0xFFFFFF) ||| (loadBytes buffer pptr 4 &&& 0xFF000000))
    | 4 => storeBytes buffer pptr 4 pixel
    -- `error("invalid bpp")`
    | _ => buffer

/-- `screen_buffer_write` -/
def screenBufferWrite (s : Screen) (xstart xend ystart yend : ℕ) : Screen :=
  if s.bufferDirty then
    { s with
      dirtyXstart := min s.dirtyXstart xstart
      dirtyXend := max s.dirtyXend xend
      dirtyYstart := min s.dirtyYstart ystart
      dirtyYend := max s.dirtyYend yend }
  else
    { s with
      dirtyXstart := xstart
      dirtyXend := xend
      dirtyYstart := ystart
      dirtyYend := yend
      bufferDirty := true }

/-- One row of `screen_flush_buffer`. -/
def flushRow (info : ScreenInfo) (buffer : Mem) (xstart xend : ℕ) (base : Mem) (y : ℕ) : Mem :=
  let offs := info.pitch * y + xstart * info.bpp
  copyBytes base buffer offs offs ((xend - xstart) * info.bpp)

/-- `screen_flush_buffer` -/
def screenFlushBuffer (s : Screen) : Screen :=
  if s.bufferDirty then
    { s with
      base := (List.range' s.dirtyYstart (s.dirtyYend - s.dirtyYstart)).foldl
        (flushRow s.info s.buffer s.dirtyXstart s.dirtyXend) s.base
      bufferDirty := false }
  else s

/-- One row of the loops of `screen_move`. -/
def fillRow (info : ScreenInfo) (fill : ℕ) (buffer : Mem) (y : ℕ) : Mem :=
  (List.range info.width).foldl (fun buffer x => screenPutPixel info buffer x y fill) buffer

/-- `screen_move` -/
def screenMove (s : Screen) (ystep : ℤ) (fillColor : ℕ) : Screen :=
  let info := s.info
  let fill := transColor2Pixel info fillColor
  let buffer :=
    if ystep ≥ 0 then
      let ystep := ystep.toNat
      let size := (info.height + 2 ^ 32 - ystep) % 2 ^ 32 * info.pitch % 2 ^ 32
      let buffer := copyBytes s.buffer s.buffer (ystep * info.pitch % 2 ^ 32) 0 size
      (List.range ystep).foldl (fillRow info fill) buffer
    else
      let ystep := (-ystep).toNat
      let top := (info.height + 2 ^ 32 - ystep) % 2 ^ 32
      let buffer := copyBytes s.buffer s.base 0 (ystep * info.pitch % 2 ^ 32)
        (top * info.pitch % 2 ^ 32)
      (List.range' top (info.height - top)).foldl (fillRow info fill) buffer
  screenFlushBuffer (screenBufferWrite { s with buffer := buffer } 0 info.width 0 info.height)

/-- The row of a glyph as a number: `g = (g << 8) + *(glyph + i)`, then `g >>= bytesperline * 8 - fwidth`. -/
def glyphWord (fwidth : ℕ) (glyph : ℕ → BitVec 8) (ptr : ℕ) : BitVec 32 :=
  let bytesperline := (fwidth + 7) / 8
  let g := (List.range bytesperline).foldl
    (fun (g : BitVec 32) i => (g <<< 8) + (glyph (ptr + i)).setWidth 32) 0
  g >>> (bytesperline * 8 - fwidth)

/-- The loop over a row of a glyph. The mask is an `int`: it is shifted with its sign. -/
def drawRow (info : ScreenInfo) (g : BitVec 32) (pixel pixelBack x y : ℕ) :
    ℕ → ℕ → BitVec 32 → Mem → Mem
  | 0, _, _, buffer => buffer
  | n + 1, dx, mask, buffer =>
    drawRow info g pixel pixelBack x y n (dx + 1) (mask.sshiftRight 1)
      (screenPutPixel info buffer (x + dx) y (if g &&& mask ≠ 0 then pixel else pixelBack))

/-- The loop over the rows of a glyph: `mask = 1 << (fwidth - 1)`. The processor shifts by the count
modulo 32. -/
def drawGlyph (info : ScreenInfo) (pixel pixelBack x y ptr : ℕ) (buffer : Mem) : Mem :=
  let bytesperline := (info.fontWidth + 7) / 8
  (List.range info.fontHeight).foldl (fun buffer dy =>
    drawRow info (glyphWord info.fontWidth info.glyph (ptr + dy * bytesperline)) pixel pixelBack x
      (y + dy) info.fontWidth 0 (1 <<< ((info.fontWidth + 31) % 32)) buffer) buffer

/-- The place of a character among the glyphs. -/
def glyphIndex (info : ScreenInfo) (chr : ℕ) : ℕ :=
  let chr := match info.table with
    | some table => table chr
    | none => chr
  if chr ≥ info.numglyph then 0 else chr

/-- The pixel of a character on a text screen. -/
def textPixel (info : ScreenInfo) (frontColor backColor chr : ℕ) : ℕ :=
  ((transColor2Pixel info frontColor &&& 0xF) ||| ((transColor2Pixel info backColor &&& 0xF) <<< 4)) <<< 8
    ||| (chr &&& 0xFF)

/-- `screen_input_char`. The offset of the glyph is not reduced to 32 bits: no font in the kernel is as large
as 4 GiB. -/
def screenInputChar (s : Screen) (x y frontColor backColor chr : ℕ) : Screen :=
  let info := s.info
  if info.type = .vga then
    let buffer := screenPutPixel info s.buffer x y (textPixel info frontColor backColor chr)
    screenFlushBuffer (screenBufferWrite { s with buffer := buffer } x (x + 1) y (y + 1))
  -- `UINT16_MAX`
  else if chr ≥ 65535 then s
  else
    let buffer := drawGlyph info (transColor2Pixel info frontColor) (transColor2Pixel info backColor) x y
      (glyphIndex info chr * info.bytesperglyph) s.buffer
    screenFlushBuffer (screenBufferWrite { s with buffer := buffer } x (x + info.fontWidth) y
      (y + info.fontHeight))

/-! ### What a character looks like -/

namespace ScreenInfo

variable (info : ScreenInfo)

/-- The value of a pixel. -/
def pixelAt (m : Mem) (x y : ℕ) : ℕ := loadBytes m (info.pitch * y + x * info.bpp) info.bpp

/-- A value, as far as the bytes of a pixel hold it. -/
def stored (pixel : ℕ) : ℕ := pixel % 256 ^ info.bpp

/-- The pixel `(dx, dy)` of the glyph of a character: the high bit of a byte is on the left. -/
def glyphBit (chr dx dy : ℕ) : Bool :=
  (info.glyph (glyphIndex info chr * info.bytesperglyph + dy * ((info.fontWidth + 7) / 8)
    + dx / 8)).getLsbD (7 - dx % 8)

/-- **The cell of a character**, pixel by pixel. -/
def cell (frontColor backColor chr : ℕ) (dx dy : ℕ) : ℕ :=
  info.stored <|
    if info.type = .vga then textPixel info frontColor backColor chr
    else if info.glyphBit chr dx dy then transColor2Pixel info frontColor
    else transColor2Pixel info backColor

/-- The pixels have one to four bytes of their own, there are less than 4 GiB of them, and a glyph is at
most 31 pixels wide. -/
structure Regular : Prop where
  one_le_bpp : 1 ≤ info.bpp
  bpp_le : info.bpp ≤ 4
  fits : info.width * info.bpp ≤ info.pitch
  size_lt : info.pitch * info.height < 2 ^ 32
  fontWidth_le : info.fontWidth ≤ 31

variable {info}

/-- Where the pixels are. -/
def Regular.layout (h : info.Regular) : Layout := ⟨info.width, info.bpp, info.pitch, h.fits⟩

variable (info) in
/-- The pixels have one to four bytes of their own. -/
structure Pixels : Prop where
  one_le_bpp : 1 ≤ info.bpp
  bpp_le : info.bpp ≤ 4
  fits : info.width * info.bpp ≤ info.pitch

theorem Regular.pixels (h : info.Regular) : info.Pixels := ⟨h.one_le_bpp, h.bpp_le, h.fits⟩

/-- Where they are. -/
def Pixels.layout (h : info.Pixels) : Layout := ⟨info.width, info.bpp, info.pitch, h.fits⟩

end ScreenInfo

variable {info : ScreenInfo} {m buffer base : Mem} {x y i j n pixel pixelBack : ℕ}

/-! ### Pixels -/

theorem and_or_and_eq (a b : ℕ) (hb : b < 2 ^ 32) :
    (a &&& 0xFFFFFF) ||| (b &&& 0xFF000000) = a % 2 ^ 24 + b / 2 ^ 24 * 2 ^ 24 := by
  have hlow : a &&& 0xFFFFFF = a % 2 ^ 24 := Nat.and_two_pow_sub_one_eq_mod a 24
  have hhigh : b &&& 0xFF000000 = b / 2 ^ 24 * 2 ^ 24 := by
    have := Bits.and_highMask (w := 32) (k := 24) (x := b) (by norm_num) hb
    rwa [show Bits.highMask 32 24 = 0xFF000000 by decide] at this
  rw [hlow, hhigh, Nat.or_comm, Bits.or_eq_add_of_low (dvd_mul_left _ _) (Nat.mod_lt _ (by norm_num)),
    Nat.add_comm]

/-- Three bytes stored as four, the last one as it was. -/
theorem storeBytes_three (p : ℕ) : storeBytes m p 4
    ((pixel &&& 0xFFFFFF) ||| (loadBytes m p 4 &&& 0xFF000000)) = storeBytes m p 3 pixel := by
  have hload : loadBytes m p 4 = (m p).toNat + 256 * ((m (p + 1)).toNat + 256 * ((m (p + 2)).toNat
      + 256 * (m (p + 3)).toNat)) := by
    simp [loadBytes, Nat.add_assoc]
  have h0 := (m p).isLt
  have h1 := (m (p + 1)).isLt
  have h2 := (m (p + 2)).isLt
  have h3 := (m (p + 3)).isLt
  have hlast : loadBytes m p 4 / 2 ^ 24 = (m (p + 3)).toNat := by omega
  rw [and_or_and_eq _ _ (by omega), hlast]
  funext o
  rw [storeBytes, storeBytes]
  rcases Nat.lt_or_ge o p with hlo | hlo
  · rw [if_neg (by omega), if_neg (by omega)]
  · obtain ⟨j, rfl⟩ := Nat.exists_eq_add_of_le hlo
    rw [Nat.add_sub_cancel_left]
    apply BitVec.eq_of_toNat_eq
    rcases (by omega : j = 0 ∨ j = 1 ∨ j = 2 ∨ j = 3 ∨ 4 ≤ j) with rfl | rfl | rfl | rfl | hj
    · rw [if_pos (by omega), if_pos (by omega), BitVec.toNat_ofNat, BitVec.toNat_ofNat]
      omega
    · rw [if_pos (by omega), if_pos (by omega), BitVec.toNat_ofNat, BitVec.toNat_ofNat]
      omega
    · rw [if_pos (by omega), if_pos (by omega), BitVec.toNat_ofNat, BitVec.toNat_ofNat]
      omega
    · rw [if_pos (by omega), if_neg (by omega), BitVec.toNat_ofNat]
      omega
    · rw [if_neg (by omega), if_neg (by omega)]

/-- **A pixel is stored in its bytes**, whatever their number. -/
theorem screenPutPixel_eq (h : info.Pixels) (hx : x < info.width) (hy : y < info.height) :
    screenPutPixel info m x y pixel = storeBytes m (info.pitch * y + x * info.bpp) info.bpp pixel := by
  have h1 := h.one_le_bpp
  have h4 := h.bpp_le
  rw [screenPutPixel, if_neg (by omega), Nat.mul_comm y]
  dsimp only
  generalize info.bpp = bpp at h1 h4 ⊢
  interval_cases bpp
  · exact storeBytes_congr (by rw [show pixel &&& 0xFF = pixel % 2 ^ 8 from
      Nat.and_two_pow_sub_one_eq_mod pixel 8]; omega)
  · exact storeBytes_congr (by rw [show pixel &&& 0xFFFF = pixel % 2 ^ 16 from
      Nat.and_two_pow_sub_one_eq_mod pixel 16]; omega)
  · exact storeBytes_three _
  · rfl

/-- **A pixel is drawn, and nothing else**: it gets what its bytes hold of the value. -/
theorem pixelAt_screenPutPixel (h : info.Pixels) (hx : x < info.width) (hy : y < info.height)
    (hi : i < info.width) : info.pixelAt (screenPutPixel info m x y pixel) i j =
      if i = x ∧ j = y then info.stored pixel else info.pixelAt m i j := by
  rw [screenPutPixel_eq h hx hy]
  exact Layout.pixelAt_storeBytes (L := h.layout) hx hi

/-! ### Glyphs -/

/-- The bytes of a row of a glyph, one after the other. -/
theorem glyphBytes_getLsbD (glyph : ℕ → BitVec 8) (ptr : ℕ) : ∀ n ≤ 4, ∀ k < 8 * n,
    ((List.range n).foldl (fun (g : BitVec 32) i => (g <<< 8) + (glyph (ptr + i)).setWidth 32) 0).getLsbD
      (8 * n - 1 - k) = (glyph (ptr + k / 8)).getLsbD (7 - k % 8) := by
  intro n
  induction n with
  | zero =>
    intro _ k hk
    omega
  | succ n ih =>
    intro hn k hk
    rw [List.range_succ, List.foldl_append, List.foldl_cons, List.foldl_nil]
    generalize hg : (List.range n).foldl (fun (g : BitVec 32) i => (g <<< 8) + (glyph (ptr + i)).setWidth 32)
      0 = g at ih
    have hdisjoint : (g <<< 8) &&& (glyph (ptr + n)).setWidth 32 = 0#32 := by
      refine BitVec.eq_of_getLsbD_eq fun l hl => ?_
      rw [BitVec.getLsbD_and, BitVec.getLsbD_shiftLeft, BitVec.getLsbD_setWidth]
      by_cases h8 : l < 8
      · simp [h8]
      · simp [BitVec.getLsbD_of_ge (glyph (ptr + n)) l (by omega)]
    rw [BitVec.add_eq_or_of_and_eq_zero _ _ hdisjoint, BitVec.getLsbD_or, BitVec.getLsbD_shiftLeft,
      BitVec.getLsbD_setWidth]
    rcases Nat.lt_or_ge k (8 * n) with hlt | hge
    · have hbits := ih (by omega) k hlt
      rw [show 8 * (n + 1) - 1 - k - 8 = 8 * n - 1 - k by omega, hbits,
        BitVec.getLsbD_of_ge (glyph (ptr + n)) _ (by omega)]
      simp [show 8 * (n + 1) - 1 - k < 32 by omega, show ¬ 8 * (n + 1) - 1 - k < 8 by omega]
    · have hk8 : k / 8 = n := by omega
      rw [hk8, show 8 * (n + 1) - 1 - k = 7 - k % 8 by omega]
      simp [show 7 - k % 8 < 32 by omega, show 7 - k % 8 < 8 by omega]

/-- **The bits of a row of a glyph**, from the left. -/
theorem glyphWord_getLsbD {fwidth dx : ℕ} (hf : fwidth ≤ 32) (hdx : dx < fwidth) (glyph : ℕ → BitVec 8)
    (ptr : ℕ) : (glyphWord fwidth glyph ptr).getLsbD (fwidth - 1 - dx)
      = (glyph (ptr + dx / 8)).getLsbD (7 - dx % 8) := by
  rw [glyphWord, BitVec.getLsbD_ushiftRight, ← glyphBytes_getLsbD glyph ptr ((fwidth + 7) / 8) (by omega) dx
    (by omega)]
  congr 1
  omega

/-- **A row of a glyph is drawn**: the mask moves on with every pixel. -/
theorem pixelAt_drawRow (h : info.Pixels) (g : BitVec 32) (hy : y < info.height) (n dx : ℕ)
    (mask : BitVec 32) (m : Mem) (hfit : x + dx + n ≤ info.width) (hi : i < info.width) :
    info.pixelAt (drawRow info g pixel pixelBack x y n dx mask m) i j =
      if j = y ∧ x + dx ≤ i ∧ i < x + dx + n then
        info.stored (if g &&& mask.sshiftRight (i - (x + dx)) ≠ 0 then pixel else pixelBack)
      else info.pixelAt m i j := by
  induction n generalizing dx mask m with
  | zero => rw [drawRow, if_neg (by omega)]
  | succ n ih =>
    rw [drawRow, ih (dx + 1) _ _ (by omega), pixelAt_screenPutPixel h (by omega) hy hi]
    by_cases hj : j = y
    · subst hj
      rcases Nat.lt_trichotomy i (x + dx) with hlt | rfl | hgt
      · rw [if_neg (show ¬ (j = j ∧ x + (dx + 1) ≤ i ∧ i < x + (dx + 1) + n) by omega),
          if_neg (show ¬ (i = x + dx ∧ j = j) by omega),
          if_neg (show ¬ (j = j ∧ x + dx ≤ i ∧ i < x + dx + (n + 1)) by omega)]
      · -- the pixel that this round draws
        rw [if_neg (show ¬ (j = j ∧ x + (dx + 1) ≤ x + dx ∧ x + dx < x + (dx + 1) + n) by omega),
          if_pos (show x + dx = x + dx ∧ j = j from ⟨rfl, rfl⟩),
          if_pos (show j = j ∧ x + dx ≤ x + dx ∧ x + dx < x + dx + (n + 1) by omega), Nat.sub_self,
          BitVec.sshiftRight_zero]
      · rw [if_neg (show ¬ (i = x + dx ∧ j = j) by omega)]
        by_cases hin : i < x + dx + (n + 1)
        · rw [if_pos (show j = j ∧ x + (dx + 1) ≤ i ∧ i < x + (dx + 1) + n by omega),
            if_pos (show j = j ∧ x + dx ≤ i ∧ i < x + dx + (n + 1) by omega),
            ← BitVec.sshiftRight_add, show 1 + (i - (x + (dx + 1))) = i - (x + dx) by omega]
        · rw [if_neg (show ¬ (j = j ∧ x + (dx + 1) ≤ i ∧ i < x + (dx + 1) + n) by omega),
            if_neg (show ¬ (j = j ∧ x + dx ≤ i ∧ i < x + dx + (n + 1)) by omega)]
    · rw [if_neg fun hc => hj hc.1, if_neg fun hc => hj hc.2, if_neg fun hc => hj hc.1]

/-- The mask that a row of a glyph is tested with at `dx`. -/
def glyphMask (fwidth dx : ℕ) : BitVec 32 :=
  (1 <<< ((fwidth + 31) % 32) : BitVec 32).sshiftRight dx

/-- **A glyph is drawn**, pixel by pixel: those of its cell get one of the two values, by the bits of the
glyph under the mask. -/
theorem pixelAt_drawGlyph (h : info.Pixels) (ptr : ℕ) (hx : x + info.fontWidth ≤ info.width)
    (hy : y + info.fontHeight ≤ info.height) (hi : i < info.width) :
    info.pixelAt (drawGlyph info pixel pixelBack x y ptr m) i j =
      if (y ≤ j ∧ j < y + info.fontHeight) ∧ x ≤ i ∧ i < x + info.fontWidth then
        info.stored (if glyphWord info.fontWidth info.glyph (ptr + (j - y) * ((info.fontWidth + 7) / 8))
          &&& glyphMask info.fontWidth (i - x) ≠ 0 then pixel else pixelBack)
      else info.pixelAt m i j := by
  rw [drawGlyph]
  refine h.layout.pixelAt_rows (P := fun i => x ≤ i ∧ i < x + info.fontWidth)
    (v := fun i dy => info.stored (if glyphWord info.fontWidth info.glyph
      (ptr + dy * ((info.fontWidth + 7) / 8)) &&& glyphMask info.fontWidth (i - x) ≠ 0 then pixel
      else pixelBack)) ?_ hi
  intro m dy hdy i hi j
  exact pixelAt_drawRow h _ (by omega) info.fontWidth 0 _ m hx hi

/-- **A mask of less than 32 bits has one bit**: the one of the pixel. -/
theorem glyphMask_eq {fwidth dx : ℕ} (hf : fwidth ≤ 31) (hdx : dx < fwidth) :
    glyphMask fwidth dx = BitVec.twoPow 32 (fwidth - 1 - dx) := by
  rw [glyphMask, show (fwidth + 31) % 32 = fwidth - 1 by omega]
  interval_cases fwidth <;> interval_cases dx <;> rfl

theorem and_glyphMask_ne_zero {fwidth dx : ℕ} (hf : fwidth ≤ 31) (hdx : dx < fwidth)
    (glyph : ℕ → BitVec 8) (ptr : ℕ) : glyphWord fwidth glyph ptr &&& glyphMask fwidth dx ≠ 0 ↔
      (glyph (ptr + dx / 8)).getLsbD (7 - dx % 8) = true := by
  rw [glyphMask_eq hf hdx, ← glyphWord_getLsbD (by omega) hdx]
  exact Bits.and_twoPow_ne_zero _ (by omega)

/-! ### Rows -/

/-- A row is filled with one value, and the other rows stay. -/
theorem pixelAt_fillRow (h : info.Pixels) (fill : ℕ) (hy : y < info.height) (hi : i < info.width) :
    info.pixelAt (fillRow info fill m y) i j =
      if j = y then info.stored fill else info.pixelAt m i j := by
  have hcols : ∀ n ≤ info.width, info.pixelAt ((List.range n).foldl
      (fun buffer x => screenPutPixel info buffer x y fill) m) i j =
      if j = y ∧ i < n then info.stored fill else info.pixelAt m i j := by
    intro n
    induction n with
    | zero =>
      intro _
      rw [List.range_zero, List.foldl_nil, if_neg (by omega)]
    | succ n ih =>
      intro hn
      rw [List.range_succ, List.foldl_append, List.foldl_cons, List.foldl_nil,
        pixelAt_screenPutPixel h (by omega) hy hi, ih (by omega)]
      by_cases hin : i = n ∧ j = y
      · rw [if_pos hin, if_pos (by omega)]
      · rw [if_neg hin]
        by_cases hlt : j = y ∧ i < n
        · rw [if_pos hlt, if_pos (by omega)]
        · rw [if_neg hlt, if_neg (by omega)]
  rw [fillRow, hcols info.width le_rfl]
  simp [hi]

theorem foldl_range' {f : Mem → ℕ → Mem} (a : ℕ) :
    (List.range' a n).foldl f m = (List.range n).foldl (fun m dy => f m (a + dy)) m := by
  rw [List.range'_eq_map_range, List.foldl_map]

/-- The rows from `top` on are filled with one value, and those above stay. -/
theorem pixelAt_fillRows (h : info.Pixels) (fill : ℕ) {top : ℕ} (htop : top ≤ info.height)
    (hi : i < info.width) (hj : j < info.height) :
    info.pixelAt ((List.range' top (info.height - top)).foldl (fillRow info fill) m) i j =
      if j < top then info.pixelAt m i j else info.stored fill := by
  rw [foldl_range']
  refine (h.layout.pixelAt_rows (P := fun _ => True) (v := fun _ _ => info.stored fill) (a := top)
    ?_ hi).trans ?_
  · intro m dy hdy i hi j
    refine (pixelAt_fillRow h fill (by omega) hi).trans ?_
    simp only [and_true]
    rfl
  · by_cases hlt : j < top
    · rw [if_neg (by omega), if_pos hlt]
      rfl
    · rw [if_pos (by simp; omega), if_neg hlt]

/-- **The rectangle becomes visible**: its pixels on the screen are those of the buffer, and the others
stay. -/
theorem pixelAt_flushRows (h : info.Pixels) {xs xe ys ye : ℕ} (hxs : xs ≤ xe) (hxe : xe ≤ info.width)
    (hys : ys ≤ ye) (hi : i < info.width) :
    info.pixelAt ((List.range' ys (ye - ys)).foldl (flushRow info buffer xs xe) base) i j =
      if (ys ≤ j ∧ j < ye) ∧ xs ≤ i ∧ i < xe then info.pixelAt buffer i j
      else info.pixelAt base i j := by
  rw [foldl_range']
  refine (h.layout.pixelAt_rows (P := fun i => xs ≤ i ∧ i < xe)
    (v := fun i dy => info.pixelAt buffer i (ys + dy)) (a := ys) ?_ hi).trans ?_
  · intro m dy _ i hi j
    refine (Layout.pixelAt_copyRow (L := h.layout) hi hxe hxs).trans ?_
    split
    · rename_i hin
      rw [hin.1]
      rfl
    · rfl
  · rw [Nat.add_sub_cancel' hys]
    split
    · rename_i hin
      rw [Nat.add_sub_cancel' hin.1.1]
    · rfl

/-- Flushing a rectangle writes nothing outside of the picture. -/
theorem flushRows_of_outside (h : info.Pixels) {xs xe ys ye o : ℕ} (hxs : xs ≤ xe)
    (hxe : xe ≤ info.width) (hye : ye ≤ info.height) (ho : h.layout.Outside info.height o) :
    (List.range' ys (ye - ys)).foldl (flushRow info buffer xs xe) base o = base o := by
  rw [foldl_range']
  have hrows : ∀ n ≤ ye - ys, (List.range n).foldl
      (fun base dy => flushRow info buffer xs xe base (ys + dy)) base o = base o := by
    intro n
    induction n with
    | zero => exact fun _ => rfl
    | succ n ih =>
      intro hn
      rw [List.range_succ, List.foldl_append, List.foldl_cons, List.foldl_nil]
      exact (Layout.copyRow_of_outside ho (by omega) hxe hxs).trans (ih (by omega))
  exact hrows _ le_rfl

/-! ### The screen -/

/-- The dirty rectangle is a rectangle of the screen, and it becomes visible. -/
theorem screenFlush_write {s : Screen} (h : s.info.Pixels) (hclean : s.bufferDirty = false)
    {xs xe ys ye : ℕ} (hxs : xs ≤ xe) (hxe : xe ≤ s.info.width) (hys : ys ≤ ye)
    (hye : ye ≤ s.info.height) :
    ∃ t, screenFlushBuffer (screenBufferWrite s xs xe ys ye) = t ∧ t.info = s.info ∧
      t.bufferDirty = false ∧
      (∀ i < s.info.width, ∀ j, s.info.pixelAt t.base i j =
        if (ys ≤ j ∧ j < ye) ∧ xs ≤ i ∧ i < xe then s.info.pixelAt s.buffer i j
        else s.info.pixelAt s.base i j) ∧
      ∀ o, h.layout.Outside s.info.height o → t.base o = s.base o := by
  refine ⟨_, rfl, ?_⟩
  rw [screenBufferWrite, hclean, if_neg Bool.false_ne_true, screenFlushBuffer, if_pos rfl]
  exact ⟨rfl, rfl, fun i hi j => pixelAt_flushRows h hxs hxe hys hi,
    fun o ho => flushRows_of_outside h hxs hxe hye ho⟩

/-- **`screen_input_char` draws a glyph**, pixel by pixel. -/
theorem screenInputChar_draws {s : Screen} (h : s.info.Pixels) (hclean : s.bufferDirty = false)
    (htype : s.info.type ≠ .vga) {chr : ℕ} (hchr : chr < 65535) (frontColor backColor : ℕ)
    (hx : x + s.info.fontWidth ≤ s.info.width) (hy : y + s.info.fontHeight ≤ s.info.height) :
    ∃ t, screenInputChar s x y frontColor backColor chr = t ∧ t.info = s.info ∧ t.bufferDirty = false ∧
      (∀ i < s.info.width, ∀ j, s.info.pixelAt t.base i j =
        if (y ≤ j ∧ j < y + s.info.fontHeight) ∧ x ≤ i ∧ i < x + s.info.fontWidth then
          s.info.stored (if glyphWord s.info.fontWidth s.info.glyph (glyphIndex s.info chr
              * s.info.bytesperglyph + (j - y) * ((s.info.fontWidth + 7) / 8))
              &&& glyphMask s.info.fontWidth (i - x) ≠ 0
            then transColor2Pixel s.info frontColor else transColor2Pixel s.info backColor)
        else s.info.pixelAt s.base i j) ∧
      ∀ o, h.layout.Outside s.info.height o → t.base o = s.base o := by
  refine ⟨_, rfl, ?_⟩
  obtain ⟨b, hb⟩ : ∃ b, drawGlyph s.info (transColor2Pixel s.info frontColor)
    (transColor2Pixel s.info backColor) x y (glyphIndex s.info chr * s.info.bytesperglyph) s.buffer
      = b := ⟨_, rfl⟩
  obtain ⟨t, ht, hinfo, hdirty, hpix, hout⟩ := screenFlush_write (s := { s with buffer := b }) h hclean
    (Nat.le_add_right x s.info.fontWidth) hx (Nat.le_add_right y s.info.fontHeight) hy
  rw [screenInputChar, if_neg htype, if_neg (show ¬ chr ≥ 65535 by omega)]
  dsimp only at ht ⊢
  rw [hb, ht]
  refine ⟨hinfo, hdirty, fun i hi j => (hpix i hi j).trans ?_, hout⟩
  split
  · rename_i hin
    dsimp only at hin ⊢
    rw [← hb, pixelAt_drawGlyph h _ hx hy hi, if_pos hin]
  · rfl

/-- **`screen_input_char` draws the cell of a character.** -/
theorem screenInputChar_spec {s : Screen} (h : s.info.Regular) (hclean : s.bufferDirty = false)
    {chr : ℕ} (hchr : chr < 65535) (frontColor backColor : ℕ)
    (htext : s.info.type = .vga → s.info.fontWidth = 1 ∧ s.info.fontHeight = 1)
    (hx : x + s.info.fontWidth ≤ s.info.width) (hy : y + s.info.fontHeight ≤ s.info.height) :
    ∃ t, screenInputChar s x y frontColor backColor chr = t ∧ t.info = s.info ∧ t.bufferDirty = false ∧
      (∀ i < s.info.width, ∀ j, s.info.pixelAt t.base i j =
        if (y ≤ j ∧ j < y + s.info.fontHeight) ∧ x ≤ i ∧ i < x + s.info.fontWidth then
          s.info.cell frontColor backColor chr (i - x) (j - y)
        else s.info.pixelAt s.base i j) ∧
      ∀ o, h.layout.Outside s.info.height o → t.base o = s.base o := by
  by_cases htype : s.info.type = .vga
  · refine ⟨_, rfl, ?_⟩
    rw [screenInputChar]
    obtain ⟨hw, hh⟩ := htext htype
    rw [hw] at hx
    rw [hh] at hy
    obtain ⟨b, hb⟩ : ∃ b, screenPutPixel s.info s.buffer x y (textPixel s.info frontColor backColor chr)
      = b := ⟨_, rfl⟩
    obtain ⟨t, ht, hinfo, hdirty, hpix, hout⟩ := screenFlush_write (s := { s with buffer := b }) h.pixels
      hclean (Nat.le_succ x) hx (Nat.le_succ y) hy
    rw [if_pos htype, hb, ht]
    refine ⟨hinfo, hdirty, fun i hi j => (hpix i hi j).trans ?_, hout⟩
    rw [hw, hh]
    split
    · rename_i hin
      dsimp only
      rw [← hb, pixelAt_screenPutPixel h.pixels (by omega) (by omega) hi, if_pos (by omega), ScreenInfo.cell,
        if_pos htype]
    · rfl
  · obtain ⟨t, ht, hinfo, hdirty, hpix, hout⟩ :=
      screenInputChar_draws h.pixels hclean htype hchr frontColor backColor hx hy
    refine ⟨t, ht, hinfo, hdirty, fun i hi j => (hpix i hi j).trans ?_, hout⟩
    split
    · rename_i hin
      rw [ScreenInfo.cell, if_neg htype, ScreenInfo.glyphBit]
      simp only [and_glyphMask_ne_zero h.fontWidth_le (show i - x < s.info.fontWidth by omega)]
    · rfl

/-- **`screen_move` moves the visible picture up**, with blank rows below. -/
theorem screenMove_up_spec {s : Screen} (h : s.info.Regular) (hclean : s.bufferDirty = false)
    {ystep : ℕ} (hpos : 0 < ystep) (hle : ystep ≤ s.info.height) (hwidth : 0 < s.info.width)
    (fillColor : ℕ) :
    ∃ t, screenMove s (-(ystep : ℤ)) fillColor = t ∧ t.info = s.info ∧ t.bufferDirty = false ∧
      (∀ i < s.info.width, ∀ j < s.info.height, s.info.pixelAt t.base i j =
        if j < s.info.height - ystep then s.info.pixelAt s.base i (j + ystep)
        else s.info.stored (transColor2Pixel s.info fillColor)) ∧
      ∀ o, h.layout.Outside s.info.height o → t.base o = s.base o := by
  refine ⟨_, rfl, ?_⟩
  have hsize := h.size_lt
  -- nothing wraps
  have hpitch : 0 < s.info.pitch :=
    (Nat.mul_pos hwidth h.one_le_bpp).trans_le h.fits
  have hheight : s.info.height < 2 ^ 32 := (Nat.le_mul_of_pos_left _ hpitch).trans_lt hsize
  have htop : (s.info.height + 2 ^ 32 - ystep) % 2 ^ 32 = s.info.height - ystep := by omega
  have hsrc : ystep * s.info.pitch % 2 ^ 32 = ystep * s.info.pitch := by
    refine Nat.mod_eq_of_lt ((Nat.mul_le_mul_right _ hle).trans_lt ?_)
    rwa [Nat.mul_comm]
  have hlen : (s.info.height - ystep) * s.info.pitch % 2 ^ 32 = (s.info.height - ystep) * s.info.pitch := by
    refine Nat.mod_eq_of_lt ((Nat.mul_le_mul_right _ (Nat.sub_le _ _)).trans_lt ?_)
    rwa [Nat.mul_comm]
  obtain ⟨b, hb⟩ : ∃ b, (List.range' (s.info.height - ystep) (s.info.height - (s.info.height - ystep))).foldl
      (fillRow s.info (transColor2Pixel s.info fillColor))
      (copyBytes s.buffer s.base 0 (ystep * s.info.pitch) ((s.info.height - ystep) * s.info.pitch)) = b :=
    ⟨_, rfl⟩
  obtain ⟨t, ht, hinfo, hdirty, hpix, hout⟩ := screenFlush_write (s := { s with buffer := b }) h.pixels hclean
    (Nat.zero_le s.info.width) le_rfl (Nat.zero_le s.info.height) le_rfl
  rw [screenMove]
  dsimp only at ht ⊢
  rw [if_neg (show ¬ (-(ystep : ℤ)) ≥ 0 by omega), show (-(-(ystep : ℤ))).toNat = ystep by omega, htop,
    hsrc, hlen, hb, ht]
  refine ⟨hinfo, hdirty, fun i hi j hj => (hpix i hi j).trans ?_, hout⟩
  dsimp only
  rw [if_pos ⟨⟨Nat.zero_le _, hj⟩, Nat.zero_le _, hi⟩, ← hb,
    pixelAt_fillRows h.pixels _ (Nat.sub_le _ _) hi hj]
  split
  · rename_i hlt
    refine (Layout.pixelAt_copyRows (L := h.layout) hi).trans ?_
    rw [if_pos hlt]
    rfl
  · rfl

end GeekToyOS
