import GeekToyOS.Data.Terminal
import GeekToyOS.Drivers.Video

/-!
# The console

`cputchar` and `console_init` of `src/kernel/console.c` on the screen, and the terminal that they are
for. The copy for the serial port is left out.

The terminal knows nothing of buffers: it draws a cell, moves its cursor, and moves the picture up. The
console does the same to the visible memory, byte by byte.

## Main definitions

* `Console`, `cputchar`, `consoleInit`
* `terminalPut` — what a character does to the terminal
* `Refines` — the visible memory shows the picture of the terminal, and the cursors agree

## Main results

* `Agrees.cputchar` — one character
* `cputchar_refines` — any text, on any regular screen
* `not_cputchar_refines_wideFont` — a glyph of 32 pixels is smeared
-/

namespace GeekToyOS

open Raster

/-- `console`, with the screen it is on. -/
structure Console where
  x : ℕ
  y : ℕ
  xlimit : ℕ
  ylimit : ℕ
  xstep : ℕ
  ystep : ℕ
  screen : Screen

/-- `console_init`, when there is a screen. -/
def consoleInit (tag : FramebufferTag) (font : PsfFont) (base : Mem) : Console :=
  let info := screenInit tag font
  { x := 0
    y := 0
    xlimit := info.width / info.fontWidth
    ylimit := info.height / info.fontHeight
    xstep := info.fontWidth
    ystep := info.fontHeight
    screen := screenStart info base }

/-- `cputchar` -/
def cputchar (s : Console) (ch : ℕ) : Console :=
  let s :=
    -- '\n'
    if ch = 10 then { s with x := 0, y := s.y + 1 }
    else
      { s with
        screen := screenInputChar s.screen (s.x * s.xstep % 2 ^ 32) (s.y * s.ystep % 2 ^ 32) rgbWhite
          rgbBlack ch
        x := s.x + 1 }
  let s := if s.x = s.xlimit then { s with x := 0, y := s.y + 1 } else s
  if s.y = s.ylimit then { s with screen := screenMove s.screen (-(s.ystep : ℤ)) rgbBlack, y := s.y - 1 }
  else s

/-! ### What it is for -/

namespace ScreenInfo

variable (info : ScreenInfo)

/-- The cells of the screen. -/
def cells : CellGrid := ⟨info.width, info.height, info.fontWidth, info.fontHeight⟩

/-- **What a character does to the terminal.** -/
def terminalPut (t : Terminal ℕ) (ch : ℕ) : Terminal ℕ :=
  t.put info.cells (info.stored (transColor2Pixel info rgbBlack))
    (if ch = 10 then none else some (info.cell rgbWhite rgbBlack ch))

/-- The terminal with the cursor at the start, on the picture that is there. -/
def terminalStart (base : Mem) : Terminal ℕ := ⟨info.pixelAt base, 0, 0⟩

/-- The address belongs to no pixel. -/
def Outside (o : ℕ) : Prop :=
  ∀ x < info.width, ∀ y < info.height, ∀ i < info.bpp, o ≠ info.pitch * y + x * info.bpp + i

end ScreenInfo

/-- **The console shows the terminal**: the cursors agree and are on the screen, with the pixels that the
next character draws; the visible memory holds the picture, and where it holds none it is as it was. -/
structure Refines (info : ScreenInfo) (base : Mem) (s : Console) (t : Terminal ℕ) : Prop where
  x_eq : s.x = t.x
  y_eq : s.y = t.y
  x_lt : s.x < s.xlimit
  y_lt : s.y < s.ylimit
  xcell_le : s.x * s.xstep + s.xstep ≤ info.width
  ycell_le : s.y * s.ystep + s.ystep ≤ info.height
  visible : ∀ i < info.width, ∀ j < info.height, info.pixelAt s.screen.base i j = t.image i j
  untouched : ∀ o, info.Outside o → s.screen.base o = base o

/-- The console shows the terminal, wherever the cursor is. -/
structure Agrees (info : ScreenInfo) (base : Mem) (s : Console) (t : Terminal ℕ) : Prop where
  info_eq : s.screen.info = info
  clean : s.screen.bufferDirty = false
  xlimit_eq : s.xlimit = info.cells.xlimit
  ylimit_eq : s.ylimit = info.cells.ylimit
  xstep_eq : s.xstep = info.fontWidth
  ystep_eq : s.ystep = info.fontHeight
  x_eq : s.x = t.x
  y_eq : s.y = t.y
  visible : ∀ i < info.width, ∀ j < info.height, info.pixelAt s.screen.base i j = t.image i j
  untouched : ∀ o, info.Outside o → s.screen.base o = base o

variable {info : ScreenInfo} {base : Mem} {s : Console} {t : Terminal ℕ} {ch : ℕ}

/-! ### One character -/

/-- The sizes of the screen fit 32 bits, and there is at least one column of pixels. -/
theorem ScreenInfo.Regular.lt (hr : info.Regular) (hx : 1 ≤ info.cells.xlimit)
    (hy : 1 ≤ info.cells.ylimit) : 0 < info.width ∧ info.width < 2 ^ 32 ∧ info.height < 2 ^ 32 := by
  have hwidth : 0 < info.width := Nat.pos_of_div_pos hx
  have hheight : 0 < info.height := Nat.pos_of_div_pos hy
  have hsize := hr.size_lt
  have hfits := hr.fits
  have hbpp : info.width ≤ info.width * info.bpp := Nat.le_mul_of_pos_right _ hr.one_le_bpp
  have hpitch : info.pitch ≤ info.pitch * info.height := Nat.le_mul_of_pos_right _ hheight
  have hrows : info.height ≤ info.pitch * info.height := Nat.le_mul_of_pos_left _ (by omega)
  omega

/-- If the cursor moves alone, console and terminal still agree. -/
theorem Agrees.move (h : Agrees info base s t) (x y : ℕ) :
    Agrees info base { s with x := x, y := y } { t with x := x, y := y } :=
  ⟨h.info_eq, h.clean, h.xlimit_eq, h.ylimit_eq, h.xstep_eq, h.ystep_eq, rfl, rfl, h.visible,
    h.untouched⟩

/-- Drawing a cell at the cursor keeps console and terminal in agreement. -/
theorem Agrees.draw (h : Agrees info base s t) (hr : info.Regular)
    (htext : info.type = .vga → info.fontWidth = 1 ∧ info.fontHeight = 1) (hch : ch < 256)
    (hin : t.Inside info.cells) :
    Agrees info base
      { s with
        screen := screenInputChar s.screen (s.x * s.xstep % 2 ^ 32) (s.y * s.ystep % 2 ^ 32) rgbWhite
          rgbBlack ch }
      (t.drawCell info.cells (info.cell rgbWhite rgbBlack ch)) := by
  obtain ⟨rfl, hclean, hxl, hyl, hxs, hys, hx, hy, hvis, hout⟩ := h
  obtain ⟨hcx, hcy⟩ := CellGrid.cell_inside hin.1 hin.2
  obtain ⟨-, hw, hh⟩ := hr.lt (Nat.one_le_of_lt hin.1) (Nat.one_le_of_lt hin.2)
  simp only [ScreenInfo.cells] at hcx hcy
  have hxmod : s.x * s.xstep % 2 ^ 32 = t.x * s.screen.info.fontWidth := by
    rw [hx, hxs]
    exact Nat.mod_eq_of_lt (by omega)
  have hymod : s.y * s.ystep % 2 ^ 32 = t.y * s.screen.info.fontHeight := by
    rw [hy, hys]
    exact Nat.mod_eq_of_lt (by omega)
  obtain ⟨u, hu, hinfo, hdirty, hpix, huout⟩ := screenInputChar_spec hr hclean
    (show ch < 65535 by omega) rgbWhite rgbBlack htext hcx hcy
  rw [hxmod, hymod, hu]
  refine ⟨hinfo, hdirty, hxl, hyl, hxs, hys, hx, hy, fun i hi j hj => ?_, fun o ho => ?_⟩
  · rw [hpix i hi j, Terminal.drawCell]
    dsimp only [ScreenInfo.cells]
    by_cases hcell : (t.y * s.screen.info.fontHeight ≤ j ∧
        j < t.y * s.screen.info.fontHeight + s.screen.info.fontHeight) ∧
      t.x * s.screen.info.fontWidth ≤ i ∧ i < t.x * s.screen.info.fontWidth + s.screen.info.fontWidth
    · exact (if_pos hcell).trans (if_pos hcell).symm
    · exact (if_neg hcell).trans ((hvis i hi j hj).trans (if_neg hcell).symm)
  · exact (huout o ho).trans (hout o ho)

/-- At the end of a line the cursor of both goes to the next one. -/
theorem Agrees.wrap (h : Agrees info base s t) :
    Agrees info base (if s.x = s.xlimit then { s with x := 0, y := s.y + 1 } else s)
      (t.wrap info.cells) := by
  rw [Terminal.wrap, ← h.x_eq, ← h.xlimit_eq]
  split
  · have hmove := h.move 0 (s.y + 1)
    rwa [h.y_eq] at hmove ⊢
  · exact h

/-- Below the last line the picture of both moves up by one line, and the new one is blank. -/
theorem Agrees.scroll (h : Agrees info base s t) (hr : info.Regular) (hx : 1 ≤ info.cells.xlimit)
    (hy : 1 ≤ info.cells.ylimit) :
    Agrees info base
      (if s.y = s.ylimit then
        { s with screen := screenMove s.screen (-(s.ystep : ℤ)) rgbBlack, y := s.y - 1 } else s)
      (t.scroll info.cells (info.stored (transColor2Pixel info rgbBlack))) := by
  rw [Terminal.scroll, ← h.y_eq, ← h.ylimit_eq]
  split
  · obtain ⟨rfl, hclean, hxl, hyl, hxs, hys, hcx, hcy, hvis, hout⟩ := h
    obtain ⟨hwidth, -, -⟩ := hr.lt hx hy
    have hpos : 0 < s.screen.info.fontHeight := by
      by_contra h0
      simp [ScreenInfo.cells, CellGrid.ylimit, Nat.eq_zero_of_not_pos h0] at hy
    have hle : s.screen.info.fontHeight ≤ s.screen.info.height := by
      by_contra hlt
      simp [ScreenInfo.cells, CellGrid.ylimit, Nat.div_eq_of_lt (not_le.mp hlt)] at hy
    obtain ⟨u, hu, hinfo, hdirty, hpix, huout⟩ := screenMove_up_spec hr hclean hpos hle hwidth rgbBlack
    rw [hys, hu]
    refine ⟨hinfo, hdirty, hxl, hyl, hxs, rfl, hcx, rfl, fun i hi j hj => ?_, fun o ho => ?_⟩
    · rw [hpix i hi j hj]
      dsimp only [ScreenInfo.cells]
      by_cases htop : j < s.screen.info.height - s.screen.info.fontHeight
      · exact (if_pos htop).trans ((hvis i hi _ (by omega)).trans (if_pos htop).symm)
      · exact (if_neg htop).trans (if_neg htop).symm
    · exact (huout o ho).trans (hout o ho)
  · exact h

/-- **One character** keeps console and terminal in agreement, and the cursor on the screen. -/
theorem Agrees.cputchar (h : Agrees info base s t) (hr : info.Regular)
    (htext : info.type = .vga → info.fontWidth = 1 ∧ info.fontHeight = 1)
    (hx : 1 ≤ info.cells.xlimit) (hy : 1 ≤ info.cells.ylimit) (hin : t.Inside info.cells)
    (hch : ch < 256) :
    Agrees info base (cputchar s ch) (info.terminalPut t ch) ∧
      (info.terminalPut t ch).Inside info.cells := by
  refine ⟨?_, Terminal.inside_put hx _ hin⟩
  by_cases hnl : ch = 10
  · have hmove := h.move 0 (s.y + 1)
    rw [show ({ t with x := 0, y := s.y + 1 } : Terminal ℕ) = { t with x := 0, y := t.y + 1 } by
      rw [h.y_eq]] at hmove
    rw [GeekToyOS.cputchar, ScreenInfo.terminalPut, if_pos hnl, if_pos hnl]
    exact hmove.wrap.scroll hr hx hy
  · have hdraw := (h.draw hr htext hch hin).move (s.x + 1) s.y
    rw [show ({ t.drawCell info.cells (info.cell rgbWhite rgbBlack ch) with
      x := s.x + 1, y := s.y } : Terminal ℕ) = { t.drawCell info.cells (info.cell rgbWhite rgbBlack ch) with
        x := t.x + 1 } by rw [h.x_eq, h.y_eq]; rfl] at hdraw
    rw [GeekToyOS.cputchar, ScreenInfo.terminalPut, if_neg hnl, if_neg hnl]
    exact hdraw.wrap.scroll hr hx hy

/-- **Any text** does so, character by character. -/
theorem Agrees.foldl_cputchar (hr : info.Regular)
    (htext : info.type = .vga → info.fontWidth = 1 ∧ info.fontHeight = 1)
    (hx : 1 ≤ info.cells.xlimit) (hy : 1 ≤ info.cells.ylimit) (text : List ℕ)
    (hch : ∀ ch ∈ text, ch < 256) (h : Agrees info base s t) (hin : t.Inside info.cells) :
    Agrees info base (text.foldl GeekToyOS.cputchar s) (text.foldl info.terminalPut t) ∧
      (text.foldl info.terminalPut t).Inside info.cells := by
  induction text generalizing s t with
  | nil => exact ⟨h, hin⟩
  | cons ch text ih =>
    obtain ⟨h', hin'⟩ := h.cputchar hr htext hx hy hin (hch ch (by simp))
    exact ih (fun c hc => hch c (by simp [hc])) h' hin'

/-- On a text screen `screen_init` sets cells of one pixel. -/
theorem screenInit_vga (tag : FramebufferTag) (font : PsfFont) (h : (screenInit tag font).type = .vga) :
    (screenInit tag font).fontWidth = 1 ∧ (screenInit tag font).fontHeight = 1 := by
  rw [screenInit] at h ⊢
  dsimp only at h ⊢
  generalize (if tag.framebufferType = 1 then _ else _ : ScreenInfo) = info at h ⊢
  by_cases htype : info.type = .vga
  · rw [if_pos htype]
    exact ⟨rfl, rfl⟩
  · rw [if_neg htype] at h
    exact absurd h htype

/-- **The console refines the terminal**, for any text, on any regular screen. -/
theorem cputchar_refines (tag : FramebufferTag) (font : PsfFont) (base : Mem)
    (hr : (screenInit tag font).Regular) (hx : 1 ≤ (screenInit tag font).cells.xlimit)
    (hy : 1 ≤ (screenInit tag font).cells.ylimit) (text : List ℕ) (htext : ∀ ch ∈ text, ch < 256) :
    Refines (screenInit tag font) base (text.foldl cputchar (consoleInit tag font base))
      (text.foldl (screenInit tag font).terminalPut ((screenInit tag font).terminalStart base)) := by
  obtain ⟨info, hinfo⟩ : ∃ info, screenInit tag font = info := ⟨_, rfl⟩
  have hvga := screenInit_vga tag font
  have hstart : Agrees info base (consoleInit tag font base) (info.terminalStart base) := by
    rw [← hinfo]
    exact ⟨rfl, rfl, rfl, rfl, rfl, rfl, rfl, rfl, fun i _ j _ => rfl, fun o _ => rfl⟩
  rw [hinfo] at hr hx hy hvga ⊢
  -- the text is written from the left
  obtain ⟨h, hin⟩ := Agrees.foldl_cputchar hr hvga hx hy text htext hstart ⟨hx, hy⟩
  obtain ⟨hxcell, hycell⟩ := CellGrid.cell_inside hin.1 hin.2
  refine ⟨h.x_eq, h.y_eq, ?_, ?_, ?_, ?_, h.visible, h.untouched⟩
  · rw [h.x_eq, h.xlimit_eq]
    exact hin.1
  · rw [h.y_eq, h.ylimit_eq]
    exact hin.2
  · rw [h.x_eq, h.xstep_eq]
    exact hxcell
  · rw [h.y_eq, h.ystep_eq]
    exact hycell

/-- A text screen of 80 columns and 25 lines. -/
def textTag : FramebufferTag := ⟨160, 80, 25, 16, 2, ⟨0, 0⟩, ⟨0, 0⟩, ⟨0, 0⟩, []⟩

/-- A screen of 64 by 2 pixels of 8 bits. -/
def rgbTag : FramebufferTag := ⟨64, 64, 2, 8, 1, ⟨0, 8⟩, ⟨0, 8⟩, ⟨0, 8⟩, []⟩

/-- A font of 32 by 1 pixels, with one glyph. Only its second pixel is set. -/
def wideFont : PsfFont := ⟨1, 1, 4, 1, 32, fun o => if o = 0 then 0x40 else 0, fun _ => 0⟩

theorem cputchar_refines_textTag :
    Refines (screenInit textTag wideFont) (fun _ => 0)
      ([72, 105, 10].foldl cputchar (consoleInit textTag wideFont fun _ => 0))
      ([72, 105, 10].foldl (screenInit textTag wideFont).terminalPut
        ((screenInit textTag wideFont).terminalStart fun _ => 0)) :=
  cputchar_refines textTag wideFont (fun _ => 0)
    ⟨by decide, by decide, by decide, by decide, by decide⟩ (by decide) (by decide) [72, 105, 10]
    (by decide)

/-- The mask of a glyph of 32 pixels is negative: it keeps its sign, and the pixels to the right of a set
one are set. -/
theorem not_cputchar_refines_wideFont :
    ¬ ∀ (tag : FramebufferTag) (font : PsfFont) (base : Mem),
      1 ≤ (screenInit tag font).cells.xlimit → 1 ≤ (screenInit tag font).cells.ylimit →
      ∀ text : List ℕ, (∀ ch ∈ text, ch < 256) →
        Refines (screenInit tag font) base (text.foldl cputchar (consoleInit tag font base))
          (text.foldl (screenInit tag font).terminalPut ((screenInit tag font).terminalStart base)) := by
  intro h
  have hpixel := (h rgbTag wideFont (fun _ => 0) (by decide) (by decide) [65] (by decide)).visible 2
    (by decide) 0 (by decide)
  revert hpixel
  decide +kernel

end GeekToyOS
