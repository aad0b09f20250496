import GeekToyOS.Data.Search
import GeekToyOS.Drivers.Video

/-!
# Colors on the screen

`trans_color2pixel`: on a screen with a palette a color becomes the index of the nearest entry, on one with
color fields each channel is put into its field.

A field of `size` bits is to hold the highest bits of its channel. `bit_build` keeps the lowest.

## Main definitions

* `Channel` — red, green and blue, with their fields
* `ScreenInfo.Displays` — the palette has entries, or the fields do not overlap
* `ClosestColor` — the color becomes the closest that there is

## Main results

* `isFirstLeast_transColor2Pixel` — the palette
* `bitPart_transColor2Pixel` — the fields
* `closestColor_iff`
-/

namespace GeekToyOS

open Search

/-- Red, green and blue. -/
inductive Channel
  | red
  | green
  | blue
deriving DecidableEq, Repr

/-- The field of a channel in a pixel. -/
def ScreenInfo.field (info : ScreenInfo) : Channel → ColorBit
  | .red => info.r
  | .green => info.g
  | .blue => info.b

/-- The value of a channel in a color. -/
def Channel.value (color : ℕ) : Channel → ℕ
  | .red => color / 2 ^ 16 % 256
  | .green => color / 2 ^ 8 % 256
  | .blue => color % 256

/-- The square of the distance of a color from an entry of the palette. -/
def distanceSq (color : ℕ) (c : ColorPalette) : ℤ :=
  ((Channel.red.value color : ℤ) - c.r) ^ 2 + ((Channel.green.value color : ℤ) - c.g) ^ 2
    + ((Channel.blue.value color : ℤ) - c.b) ^ 2

/-- The screen has a palette with an entry, or fields of one to eight bits that do not overlap. -/
structure ScreenInfo.Displays (info : ScreenInfo) : Prop where
  palette_ne_nil : info.type ≠ .rgb → info.palette ≠ []
  palette_lt : ∀ c ∈ info.palette, c.r < 256 ∧ c.g < 256 ∧ c.b < 256
  one_le_size : info.type = .rgb → ∀ ch, 1 ≤ (info.field ch).size
  size_le : info.type = .rgb → ∀ ch, (info.field ch).size ≤ 8
  field_le : info.type = .rgb → ∀ ch, (info.field ch).pos + (info.field ch).size ≤ 32
  disjoint : info.type = .rgb → ∀ ch ch', ch ≠ ch' →
    (info.field ch).pos + (info.field ch).size ≤ (info.field ch').pos ∨
      (info.field ch').pos + (info.field ch').size ≤ (info.field ch).pos

/-- **The color becomes the closest that there is**: the first of the nearest entries, or the highest bits
of the channels. -/
structure ClosestColor (info : ScreenInfo) (color : ℕ) : Prop where
  palette : info.type ≠ .rgb → IsFirstLeast (fun j => distanceSq color (info.palette.getD j ⟨0, 0, 0⟩))
    info.palette.length (transColor2Pixel info color)
  fields : info.type = .rgb → ∀ ch, bitPart (transColor2Pixel info color) (info.field ch).pos
    (info.field ch).size = ch.value color / 2 ^ (8 - (info.field ch).size)

/-- **A brighter channel is not displayed darker.** -/
def BrighterIsBrighter (info : ScreenInfo) : Prop :=
  info.type = .rgb → ∀ ch : Channel, ∀ color < 2 ^ 24, ∀ color' < 2 ^ 24, ch.value color ≤ ch.value color' →
    bitPart (transColor2Pixel info color) (info.field ch).pos (info.field ch).size ≤
      bitPart (transColor2Pixel info color') (info.field ch).pos (info.field ch).size

variable {info : ScreenInfo} {color : ℕ}

/-! ### The palette -/

theorem bitPart_eq (x pos size : ℕ) : bitPart x pos size = x / 2 ^ pos % 2 ^ size := by
  rw [bitPart, bitMask, sizeMask, bitSize, Nat.one_shiftLeft, Nat.shiftRight_eq_div_pow,
    Nat.and_two_pow_sub_one_eq_mod]

theorem Channel.value_lt (color : ℕ) (ch : Channel) : ch.value color < 256 := by
  cases ch <;> exact Nat.mod_lt _ (by norm_num)

theorem Channel.value_mod (color : ℕ) (ch : Channel) : ch.value color % 2 ^ 8 = ch.value color :=
  Nat.mod_eq_of_lt (ch.value_lt color)

/-- The distance of two colors is less than the one that the loop starts with. -/
theorem distanceSq_lt (color : ℕ) {c : ColorPalette} (hc : c.r < 256 ∧ c.g < 256 ∧ c.b < 256) :
    distanceSq color c < 3 * 256 * 256 := by
  have hsq : ∀ {x y : ℕ}, x < 256 → y < 256 → ((x : ℤ) - y) ^ 2 ≤ 255 ^ 2 := fun {x y} hx hy =>
    sq_le_sq' (by omega) (by omega)
  have hr := hsq (Channel.red.value_lt color) hc.1
  have hg := hsq (Channel.green.value_lt color) hc.2.1
  have hb := hsq (Channel.blue.value_lt color) hc.2.2
  rw [distanceSq]
  omega

theorem distanceSq_nonneg (color : ℕ) (c : ColorPalette) : 0 ≤ distanceSq color c := by
  rw [distanceSq]
  positivity

/-- The code's unsigned arithmetic computes the square of the distance. -/
theorem colorDistance_eq {c : ColorPalette} (hc : c.r < 256 ∧ c.g < 256 ∧ c.b < 256) :
    (colorDistance (Channel.red.value color) (Channel.green.value color) (Channel.blue.value color) c : ℤ) =
      distanceSq color c := by
  have hlt := distanceSq_lt color hc
  have hnonneg := distanceSq_nonneg color c
  rw [colorDistance, ← sq, ← sq, ← sq]
  change ((distanceSq color c % 2 ^ 32).toNat : ℤ) = _
  omega

/-- **The loop over the palette** keeps the first of the nearest entries. -/
theorem nearestColor_spec {r g b : ℕ} {f : ℕ → ℤ} (palette : List ColorPalette) (i pixel distance : ℕ)
    (hf : ∀ j c, palette[j]? = some c → f (i + j) = colorDistance r g b c)
    (hlt : ∀ c ∈ palette, colorDistance r g b c < 3 * 256 * 256)
    (hinv : i = 0 ∧ distance = 3 * 256 * 256 ∧ palette ≠ [] ∨ IsFirstLeast f i pixel ∧ f pixel = distance) :
    IsFirstLeast f (i + palette.length) (nearestColor r g b palette i pixel distance) := by
  induction palette generalizing i pixel distance with
  | nil =>
    obtain ⟨-, -, hne⟩ | ⟨h, -⟩ := hinv
    · exact absurd rfl hne
    · exact h
  | cons c rest ih =>
    have hc : f i = colorDistance r g b c := hf 0 c rfl
    have hrest : ∀ j c', rest[j]? = some c' → f (i + 1 + j) = colorDistance r g b c' := fun j c' h => by
      rw [Nat.add_assoc, Nat.add_comm 1]
      exact hf (j + 1) c' h
    have hltc := hlt c List.mem_cons_self
    rw [nearestColor, List.length_cons, Nat.add_comm rest.length, ← Nat.add_assoc]
    split
    · rename_i hnear
      refine ih (i + 1) i _ hrest (fun c' h => hlt c' (List.mem_cons_of_mem c h)) (.inr ⟨?_, hc⟩)
      obtain ⟨rfl, -, -⟩ | ⟨h, heq⟩ := hinv
      · exact isFirstLeast_one f
      · exact h.snoc_of_lt (by omega)
    · rename_i hfar
      refine ih (i + 1) pixel distance hrest (fun c' h => hlt c' (List.mem_cons_of_mem c h)) (.inr ?_)
      obtain ⟨-, rfl, -⟩ | ⟨h, heq⟩ := hinv
      · omega
      · exact ⟨h.snoc_of_le (by omega), heq⟩

theorem isFirstLeast_transColor2Pixel (h : info.Displays) (htype : info.type ≠ .rgb) :
    IsFirstLeast (fun j => distanceSq color (info.palette.getD j ⟨0, 0, 0⟩)) info.palette.length
      (transColor2Pixel info color) := by
  have hdist : ∀ c ∈ info.palette, (colorDistance (Channel.red.value color) (Channel.green.value color)
      (Channel.blue.value color) c : ℤ) = distanceSq color c := fun c hc =>
    colorDistance_eq (h.palette_lt c hc)
  have hspec := nearestColor_spec (f := fun j => distanceSq color (info.palette.getD j ⟨0, 0, 0⟩))
    info.palette 0 0 (3 * 256 * 256) (fun j c hj => by
      rw [Nat.zero_add, List.getD_eq_getElem?_getD, hj, Option.getD_some,
        hdist c (List.mem_of_getElem? hj)]) (fun c hc => by
      have hlt := distanceSq_lt color (h.palette_lt c hc)
      have := hdist c hc
      omega) (.inl ⟨rfl, rfl, h.palette_ne_nil htype⟩)
  rw [Nat.zero_add] at hspec
  rw [transColor2Pixel, if_neg htype]
  simp only [bitPart_eq]
  rw [pow_zero, Nat.div_one]
  exact hspec

/-! ### The fields -/

theorem bitBuild_testBit {x pos size i : ℕ} (h : pos + size ≤ 32) : (bitBuild x pos size).testBit i =
    (decide (pos ≤ i ∧ i < pos + size) && x.testBit (i - pos)) := by
  rw [bitBuild, bitMask, sizeMask, bitSize, Nat.one_shiftLeft, Nat.and_two_pow_sub_one_eq_mod,
    Nat.testBit_mod_two_pow, Nat.testBit_shiftLeft, Nat.testBit_mod_two_pow]
  by_cases hi : pos ≤ i ∧ i < pos + size
  · rw [decide_eq_true hi, decide_eq_true (show i < 32 by omega), decide_eq_true (show i ≥ pos by omega),
      decide_eq_true (show i - pos < size by omega)]
    simp
  · rw [decide_eq_false hi]
    by_cases hpos : i ≥ pos
    · rw [decide_eq_false (show ¬ i - pos < size by omega)]
      simp
    · rw [decide_eq_false hpos]
      simp

theorem transColor2Pixel_testBit (h : info.Displays) (htype : info.type = .rgb) (i : ℕ) :
    (transColor2Pixel info color).testBit i = true ↔ ∃ ch : Channel,
      ((info.field ch).pos ≤ i ∧ i < (info.field ch).pos + (info.field ch).size) ∧
        (ch.value color).testBit (i - (info.field ch).pos) = true := by
  have hr : info.r.pos + info.r.size ≤ 32 := h.field_le htype .red
  have hg : info.g.pos + info.g.size ≤ 32 := h.field_le htype .green
  have hb : info.b.pos + info.b.size ≤ 32 := h.field_le htype .blue
  rw [transColor2Pixel, if_pos htype, Nat.testBit_or, Nat.testBit_or, bitBuild_testBit hr,
    bitBuild_testBit hg, bitBuild_testBit hb]
  simp only [bitPart_eq, Bool.or_eq_true, Bool.and_eq_true, decide_eq_true_eq]
  constructor
  · rintro ((h | h) | h)
    · exact ⟨.red, h⟩
    · exact ⟨.green, h⟩
    · rw [pow_zero, Nat.div_one] at h
      exact ⟨.blue, h⟩
  · rintro ⟨_ | _ | _, h⟩
    · exact .inl (.inl h)
    · exact .inl (.inr h)
    · rw [pow_zero, Nat.div_one]
      exact .inr h

/-- **A field holds the lowest bits of its channel**, and nothing of the others. -/
theorem bitPart_transColor2Pixel (h : info.Displays) (htype : info.type = .rgb) (ch : Channel) :
    bitPart (transColor2Pixel info color) (info.field ch).pos (info.field ch).size =
      ch.value color % 2 ^ (info.field ch).size := by
  refine Nat.eq_of_testBit_eq fun i => Bool.eq_iff_iff.mpr ?_
  rw [bitPart_eq, Nat.testBit_mod_two_pow, Nat.testBit_mod_two_pow, Nat.testBit_div_two_pow,
    Bool.and_eq_true, Bool.and_eq_true, transColor2Pixel_testBit h htype]
  refine and_congr_right fun hi => ?_
  rw [decide_eq_true_eq] at hi
  constructor
  · rintro ⟨ch', hin, hbit⟩
    -- a bit belongs to one field
    have heq : ch' = ch := by
      by_contra hne
      have := h.disjoint htype ch' ch hne
      omega
    rwa [heq, Nat.add_sub_cancel] at hbit
  · intro hbit
    exact ⟨ch, by omega, by rwa [Nat.add_sub_cancel]⟩

theorem closestColor_iff_channels (h : info.Displays) : ClosestColor info color ↔
    (info.type = .rgb → ∀ ch : Channel, ch.value color % 2 ^ (info.field ch).size =
      ch.value color / 2 ^ (8 - (info.field ch).size)) := by
  constructor
  · intro hclose htype ch
    rw [← bitPart_transColor2Pixel h htype, hclose.fields htype]
  · intro hchannels
    refine ⟨isFirstLeast_transColor2Pixel h, fun htype ch => ?_⟩
    rw [bitPart_transColor2Pixel h htype, hchannels htype]

/-- A gray has one value in all three channels. -/
theorem Channel.value_gray {v : ℕ} (hv : v < 256) (ch : Channel) : ch.value (v * 0x010101) = v := by
  have hred : v * 0x010101 / 2 ^ 16 = v := Nat.div_eq_of_lt_le (by omega) (by omega)
  have hgreen : v * 0x010101 / 2 ^ 8 = v * 257 := Nat.div_eq_of_lt_le (by omega) (by omega)
  cases ch with
  | red => rw [Channel.value, hred, Nat.mod_eq_of_lt hv]
  | green =>
    rw [Channel.value, hgreen]
    omega
  | blue =>
    rw [Channel.value]
    omega

/-- **When a color becomes the closest that there is**, and when all do. -/
theorem closestColor_iff (h : info.Displays) :
    (∀ color < 2 ^ 24, ClosestColor info color ↔ (info.type = .rgb → ∀ ch : Channel,
      ch.value color % 2 ^ (info.field ch).size = ch.value color / 2 ^ (8 - (info.field ch).size))) ∧
    ((∀ color < 2 ^ 24, ClosestColor info color) ∧ BrighterIsBrighter info ↔
      (info.type = .rgb → ∀ ch, (info.field ch).size = 8)) := by
  refine ⟨fun color _ => closestColor_iff_channels h, ?_, ?_⟩
  · rintro ⟨hall, -⟩ htype ch
    by_contra hne
    have hone := h.one_le_size htype ch
    have hle := h.size_le htype ch
    generalize hs : (info.field ch).size = size at hne hone hle
    have hv : 2 ^ size - 1 < 256 := by
      have : 2 ^ size ≤ 2 ^ 8 := Nat.pow_le_pow_right two_pos hle
      omega
    have hpos : 2 ≤ 2 ^ size := Nat.pow_le_pow_right two_pos hone
    -- a gray of `size` bits has fewer than these among the highest
    have hgray := (closestColor_iff_channels h).mp (hall ((2 ^ size - 1) * 0x010101) (by omega)) htype ch
    rw [Channel.value_gray hv, hs, Nat.mod_eq_of_lt (by omega)] at hgray
    have hlt : (2 ^ size - 1) / 2 ^ (8 - size) < 2 ^ size - 1 :=
      Nat.div_lt_self (by omega) (Nat.one_lt_two_pow (by omega))
    omega
  · intro hsize
    refine ⟨fun color _ => (closestColor_iff_channels h).mpr fun htype ch => ?_, ?_⟩
    · rw [hsize htype ch, ch.value_mod, Nat.sub_self, pow_zero, Nat.div_one]
    · intro htype ch color _ color' _ hle
      rw [bitPart_transColor2Pixel h htype, bitPart_transColor2Pixel h htype, hsize htype ch,
        ch.value_mod, ch.value_mod]
      exact hle

/-- A screen with three color fields. -/
def rgbScreen (r g b : ColorBit) : ScreenInfo := { screenInfoUnset with type := .rgb, r := r, g := g, b := b }

theorem displays_rgbScreen {r g b : ColorBit} (hsize : ∀ f ∈ [r, g, b], 1 ≤ f.size ∧ f.size ≤ 8)
    (hle : r.pos + r.size ≤ 32) (hgr : g.pos + g.size ≤ r.pos) (hbg : b.pos + b.size ≤ g.pos) :
    (rgbScreen r g b).Displays where
  palette_ne_nil h := absurd rfl h
  palette_lt c hc := absurd hc List.not_mem_nil
  one_le_size := by rintro - (_ | _ | _) <;> exact (hsize _ (by simp [ScreenInfo.field, rgbScreen])).1
  size_le := by rintro - (_ | _ | _) <;> exact (hsize _ (by simp [ScreenInfo.field, rgbScreen])).2
  field_le := by rintro - (_ | _ | _) <;> simp only [ScreenInfo.field, rgbScreen] <;> omega
  disjoint := by
    rintro - (_ | _ | _) (_ | _ | _) hne <;> simp only [ScreenInfo.field, rgbScreen] <;>
      first | exact absurd rfl hne | omega

theorem closestColor_iff_true : ClosestColor (rgbScreen ⟨16, 8⟩ ⟨8, 8⟩ ⟨0, 8⟩) 0x123456 :=
  ((closestColor_iff (displays_rgbScreen (by decide) (by decide) (by decide) (by decide))).1 0x123456
    (by norm_num)).mpr (by rintro - (_ | _ | _) <;> decide)

/-- With five bits for red, the red `0x08` becomes `8`, and not `1`. -/
theorem not_closestColor_565 :
    ¬ ∀ (info : ScreenInfo), info.Displays → ∀ color < 2 ^ 24, ClosestColor info color := by
  intro hall
  have hclose := hall (rgbScreen ⟨11, 5⟩ ⟨5, 6⟩ ⟨0, 5⟩)
    (displays_rgbScreen (by decide) (by decide) (by decide) (by decide)) 0x080000 (by norm_num)
  exact absurd (hclose.fields rfl .red) (by decide)

end GeekToyOS
