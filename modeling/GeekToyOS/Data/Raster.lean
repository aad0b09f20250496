import Mathlib

/-!
# Pixels in memory

A picture in memory: rows of bytes, one after the other, with the pixels of a row packed at its start.
Numbers are stored with the low byte first.

The operations are those of a frame buffer: storing a pixel, copying a part of a row, and copying whole
rows up or down. Each is described by what it does to every pixel.

## Main definitions

* `copyBytes`, `storeBytes`, `loadBytes` — bytes at addresses
* `Layout` — where the pixels are; pixels of one row do not reach into the next
* `Layout.pixelAt` — the value of a pixel

## Main results

* `Layout.offset_unique` — no two pixels share a byte
* `Layout.pixelAt_storeBytes`, `Layout.pixelAt_copyRow`, `Layout.pixelAt_copyRows` — the operations,
  pixel by pixel
-/

namespace Raster

/-- Bytes by address. -/
abbrev Mem := ℕ → BitVec 8

/-- Copy `n` bytes from `src + s` to `dst + d`. -/
def copyBytes (dst src : Mem) (d s n : ℕ) : Mem := fun o =>
  if d ≤ o ∧ o < d + n then src (s + (o - d)) else dst o

/-- Store the low `k` bytes of `v` at `p`. -/
def storeBytes (m : Mem) (p k v : ℕ) : Mem := fun o =>
  if p ≤ o ∧ o < p + k then BitVec.ofNat 8 (v / 256 ^ (o - p)) else m o

/-- The number in `k` bytes at `p`. -/
def loadBytes (m : Mem) (p : ℕ) : ℕ → ℕ
  | 0 => 0
  | k + 1 => (m p).toNat + 256 * loadBytes m (p + 1) k

variable {m m' : Mem} {p q k v : ℕ}

theorem loadBytes_congr (h : ∀ j < k, m (p + j) = m' (q + j)) : loadBytes m p k = loadBytes m' q k := by
  induction k generalizing p q with
  | zero => rfl
  | succ k ih =>
    have hrest : loadBytes m (p + 1) k = loadBytes m' (q + 1) k := ih fun j hj => by
      have := h (j + 1) (by omega)
      rwa [← Nat.add_assoc, ← Nat.add_assoc, Nat.add_right_comm, Nat.add_right_comm q] at this
    rw [loadBytes, loadBytes, hrest, show m p = m' q from h 0 (Nat.succ_pos k)]

theorem loadBytes_lt (m : Mem) (p k : ℕ) : loadBytes m p k < 256 ^ k := by
  induction k generalizing p with
  | zero => exact one_pos
  | succ k ih =>
    have hfirst := (m p).isLt
    have hrest := ih (p + 1)
    rw [loadBytes, pow_succ']
    omega

/-- **The bytes of a number make up the number**, as far as there are bytes. -/
theorem loadBytes_eq (h : ∀ j < k, m (p + j) = BitVec.ofNat 8 (v / 256 ^ j)) :
    loadBytes m p k = v % 256 ^ k := by
  induction k generalizing p v with
  | zero => rw [loadBytes, pow_zero, Nat.mod_one]
  | succ k ih =>
    have hrest : loadBytes m (p + 1) k = v / 256 % 256 ^ k := ih fun j hj => by
      rw [Nat.add_assoc, Nat.add_comm 1, h (j + 1) (by omega), Nat.div_div_eq_div_mul, pow_succ']
    have hfirst : (m p).toNat = v % 256 := by
      have := h 0 (Nat.succ_pos k)
      rw [Nat.add_zero, pow_zero, Nat.div_one] at this
      rw [this, BitVec.toNat_ofNat]
    rw [loadBytes, hrest, hfirst, pow_succ', Nat.mod_mul]

/-- Only the low bytes count of what is stored. -/
theorem storeBytes_congr {w : ℕ} (h : v % 256 ^ k = w % 256 ^ k) :
    storeBytes m p k v = storeBytes m p k w := by
  have hbyte : ∀ u j : ℕ, j < k → u / 256 ^ j % 256 = u % 256 ^ k % 256 ^ (j + 1) / 256 ^ j :=
    fun u j hj => by
      rw [Nat.mod_mod_of_dvd _ (pow_dvd_pow 256 hj), pow_succ, Nat.mod_mul_right_div_self]
  funext o
  rw [storeBytes, storeBytes]
  split
  · rename_i ho
    have hj : o - p < k := by omega
    apply BitVec.eq_of_toNat_eq
    rw [BitVec.toNat_ofNat, BitVec.toNat_ofNat]
    exact (hbyte v _ hj).trans ((congrArg (· % 256 ^ (o - p + 1) / 256 ^ (o - p)) h).trans
      (hbyte w _ hj).symm)
  · rfl

theorem loadBytes_div {j : ℕ} (hj : j < k) : loadBytes m p k / 256 ^ j % 256 = (m (p + j)).toNat := by
  induction k generalizing p j with
  | zero => omega
  | succ k ih =>
    have hfirst := (m p).isLt
    rw [loadBytes]
    cases j with
    | zero =>
      rw [pow_zero, Nat.div_one, Nat.add_mul_mod_self_left, Nat.mod_eq_of_lt hfirst, Nat.add_zero]
    | succ j =>
      have hrest : ((m p).toNat + 256 * loadBytes m (p + 1) k) / 256 = loadBytes m (p + 1) k := by
        omega
      rw [pow_succ', ← Nat.div_div_eq_div_mul, hrest, ih (by omega), Nat.add_right_comm,
        Nat.add_assoc p j 1]

/-- **A number that is loaded and stored is copied**, byte by byte. -/
theorem storeBytes_loadBytes : storeBytes m p k (loadBytes m' q k) = copyBytes m m' p q k := by
  funext o
  rw [storeBytes, copyBytes]
  split
  · rename_i ho
    apply BitVec.eq_of_toNat_eq
    rw [BitVec.toNat_ofNat]
    exact loadBytes_div (by omega)
  · rfl

/-- **Copying on** behind a copied piece, where it has not overwritten what comes next. -/
theorem copyBytes_append {d s j : ℕ} (h : d ≤ s ∨ s + k + j ≤ d) :
    copyBytes (copyBytes m m d s k) (copyBytes m m d s k) (d + k) (s + k) j
      = copyBytes m m d s (k + j) := by
  funext o
  by_cases hnew : d + k ≤ o ∧ o < d + k + j
  · -- the source is unchanged, or its first piece was copied from further on
    have hsrc : copyBytes m m d s k (s + k + (o - (d + k))) = m (s + k + (o - (d + k))) := by
      rw [copyBytes, if_neg (by omega)]
    rw [copyBytes, if_pos hnew, hsrc, copyBytes, if_pos (by omega),
      show s + k + (o - (d + k)) = s + (o - d) by omega]
  · rw [copyBytes, if_neg hnew]
    by_cases hold : d ≤ o ∧ o < d + k
    · rw [copyBytes, if_pos hold, copyBytes, if_pos (by omega)]
    · rw [copyBytes, if_neg hold, copyBytes, if_neg (by omega)]

theorem copyBytes_one (m : Mem) (d s : ℕ) : copyBytes m m d s 1 = Function.update m d (m s) := by
  funext o
  by_cases ho : o = d
  · rw [ho, Function.update_self, copyBytes, if_pos (by omega), Nat.sub_self, Nat.add_zero]
  · rw [Function.update_of_ne ho, copyBytes, if_neg (by omega)]

@[simp] theorem copyBytes_zero (m : Mem) (d s : ℕ) : copyBytes m m d s 0 = m := by
  funext o
  rw [copyBytes, if_neg (by omega)]

/-- Rows of pixels: `width` to a row, of `bpp` bytes each, in rows of `pitch` bytes. -/
structure Layout where
  width : ℕ
  bpp : ℕ
  pitch : ℕ
  fits : width * bpp ≤ pitch

namespace Layout

variable (L : Layout)

/-- The address of a pixel. -/
def offset (x y : ℕ) : ℕ := L.pitch * y + x * L.bpp

/-- The value of a pixel. -/
def pixelAt (m : Mem) (x y : ℕ) : ℕ := loadBytes m (L.offset x y) L.bpp

/-- The address belongs to no pixel of the first `height` rows. -/
def Outside (height o : ℕ) : Prop :=
  ∀ x < L.width, ∀ y < height, ∀ i < L.bpp, o ≠ L.offset x y + i

variable {L} {x x' x₀ x₁ y y' i j height o : ℕ} {dst src : Mem}

theorem column_lt (hx : x < L.width) (hi : i < L.bpp) : x * L.bpp + i < L.pitch := by
  have hnext : (x + 1) * L.bpp ≤ L.width * L.bpp := Nat.mul_le_mul_right _ hx
  have := L.fits
  rw [Nat.add_mul, one_mul] at hnext
  omega

/-- **No two pixels share a byte**: the place of a byte tells the pixel and which of its bytes it is. -/
theorem offset_unique (hx : x < L.width) (hx' : x' < L.width) (hi : i < L.bpp) (hj : j < L.bpp)
    (h : L.offset x y + i = L.offset x' y' + j) : x = x' ∧ y = y' ∧ i = j := by
  have hcol := column_lt hx hi
  have hcol' := column_lt hx' hj
  rw [offset, offset, Nat.add_assoc, Nat.add_assoc] at h
  have hy : y = y' := by
    have := congrArg (· / L.pitch) h
    simpa [Nat.mul_add_div (show 0 < L.pitch by omega), Nat.div_eq_of_lt hcol,
      Nat.div_eq_of_lt hcol'] using this
  subst hy
  have hrow : x * L.bpp + i = x' * L.bpp + j := Nat.add_left_cancel h
  have hxx : x = x' := by
    have := congrArg (· / L.bpp) hrow
    simpa [Nat.mul_comm _ L.bpp, Nat.mul_add_div (show 0 < L.bpp by omega), Nat.div_eq_of_lt hi,
      Nat.div_eq_of_lt hj] using this
  subst hxx
  exact ⟨rfl, rfl, Nat.add_left_cancel hrow⟩

theorem pixelAt_congr (h : ∀ i < L.bpp, m (L.offset x y + i) = m' (L.offset x' y' + i)) :
    L.pixelAt m x y = L.pixelAt m' x' y' := loadBytes_congr h

/-- **Storing a pixel** changes that pixel, to what its bytes hold of the value, and no other. -/
theorem pixelAt_storeBytes (hx : x < L.width) (hx' : x' < L.width) :
    L.pixelAt (storeBytes m (L.offset x y) L.bpp v) x' y' =
      if x' = x ∧ y' = y then v % 256 ^ L.bpp else L.pixelAt m x' y' := by
  split
  · rename_i h
    obtain ⟨rfl, rfl⟩ := h
    refine loadBytes_eq fun j hj => ?_
    rw [storeBytes, if_pos (by omega), Nat.add_sub_cancel_left]
  · rename_i h
    refine pixelAt_congr fun i hi => ?_
    rw [storeBytes, if_neg]
    rintro ⟨hle, hlt⟩
    have hoff : L.offset x' y' + i = L.offset x y + (L.offset x' y' + i - L.offset x y) := by omega
    obtain ⟨hxx, hyy, -⟩ := offset_unique hx' hx hi (show _ < L.bpp by omega) hoff
    exact h ⟨hxx, hyy⟩

/-- A byte in the columns from `x₀` to `x₁` of a row. -/
theorem mem_row_iff (hx : x' < L.width) (hx₁ : x₁ ≤ L.width) (hle : x₀ ≤ x₁) (hi : i < L.bpp) :
    (L.offset x₀ y ≤ L.offset x' y' + i ∧
        L.offset x' y' + i < L.offset x₀ y + (x₁ - x₀) * L.bpp) ↔
      y' = y ∧ x₀ ≤ x' ∧ x' < x₁ := by
  have hlen : L.offset x₀ y + (x₁ - x₀) * L.bpp = L.offset x₁ y := by
    rw [offset, offset, Nat.add_assoc, ← Nat.add_mul, Nat.add_sub_cancel' hle]
  have hcol := column_lt hx hi
  have hend : x₁ * L.bpp ≤ L.pitch := (Nat.mul_le_mul_right _ hx₁).trans L.fits
  rw [hlen, offset, offset, offset]
  constructor
  · rintro ⟨hlo, hhi⟩
    have hy : y' = y := by
      rcases Nat.lt_trichotomy y' y with h | h | h
      · have := Nat.mul_le_mul_left L.pitch (show y' + 1 ≤ y from h)
        rw [Nat.mul_add, mul_one] at this
        omega
      · exact h
      · have := Nat.mul_le_mul_left L.pitch (show y + 1 ≤ y' from h)
        rw [Nat.mul_add, mul_one] at this
        omega
    subst hy
    refine ⟨rfl, ?_, ?_⟩
    · by_contra hlt
      have := Nat.mul_le_mul_right L.bpp (show x' + 1 ≤ x₀ by omega)
      rw [Nat.add_mul, one_mul] at this
      omega
    · by_contra hge
      have := Nat.mul_le_mul_right L.bpp (show x₁ ≤ x' by omega)
      omega
  · rintro ⟨rfl, hlo, hhi⟩
    have h0 := Nat.mul_le_mul_right L.bpp hlo
    have h1 := Nat.mul_le_mul_right L.bpp (show x' + 1 ≤ x₁ from hhi)
    rw [Nat.add_mul, one_mul] at h1
    omega

/-- **Copying a part of a row** copies its pixels, and no others. -/
theorem pixelAt_copyRow (hx : x' < L.width) (hx₁ : x₁ ≤ L.width) (hle : x₀ ≤ x₁) :
    L.pixelAt (copyBytes dst src (L.offset x₀ y) (L.offset x₀ y) ((x₁ - x₀) * L.bpp)) x' y' =
      if y' = y ∧ x₀ ≤ x' ∧ x' < x₁ then L.pixelAt src x' y' else L.pixelAt dst x' y' := by
  split
  · rename_i h
    refine pixelAt_congr fun i hi => ?_
    have hmem := (mem_row_iff hx hx₁ hle hi).mpr h
    rw [copyBytes, if_pos hmem]
    congr 1
    omega
  · rename_i h
    refine pixelAt_congr fun i hi => ?_
    rw [copyBytes, if_neg (mt (mem_row_iff hx hx₁ hle hi).mp h)]

/-- **Copying `n` rows from row `k` on to the top** moves the pixels up. -/
theorem pixelAt_copyRows {n : ℕ} (hx : x < L.width) :
    L.pixelAt (copyBytes dst src 0 (k * L.pitch) (n * L.pitch)) x y =
      if y < n then L.pixelAt src x (y + k) else L.pixelAt dst x y := by
  have hiff : ∀ i < L.bpp, L.offset x y + i < n * L.pitch ↔ y < n := fun i hi => by
    have hcol := column_lt hx hi
    rw [offset]
    constructor
    · intro h
      by_contra hge
      have := Nat.mul_le_mul_left L.pitch (show n ≤ y by omega)
      rw [Nat.mul_comm n] at h
      omega
    · intro h
      have := Nat.mul_le_mul_left L.pitch (show y + 1 ≤ n from h)
      rw [Nat.mul_add, mul_one] at this
      rw [Nat.mul_comm n]
      omega
  split
  · rename_i h
    refine pixelAt_congr fun i hi => ?_
    rw [copyBytes, if_pos ⟨Nat.zero_le _, by rw [Nat.zero_add]; exact (hiff i hi).mpr h⟩, offset, offset]
    congr 1
    rw [Nat.mul_add, Nat.mul_comm k, Nat.sub_zero]
    omega
  · rename_i h
    refine pixelAt_congr fun i hi => ?_
    rw [copyBytes, if_neg]
    rintro ⟨-, hlt⟩
    exact h ((hiff i hi).mp (by omega))

/-- **A loop over rows**, each of which sets some pixels of its own row, sets them all. -/
theorem pixelAt_rows {f : Mem → ℕ → Mem} {P : ℕ → Prop} [DecidablePred P] {v : ℕ → ℕ → ℕ} {a : ℕ} :
    ∀ {n : ℕ}, (∀ m, ∀ dy < n, ∀ i < L.width, ∀ j, L.pixelAt (f m dy) i j =
        if j = a + dy ∧ P i then v i dy else L.pixelAt m i j) →
      ∀ {m : Mem} {i j : ℕ}, i < L.width → L.pixelAt ((List.range n).foldl f m) i j =
        if (a ≤ j ∧ j < a + n) ∧ P i then v i (j - a) else L.pixelAt m i j := by
  intro n
  induction n with
  | zero =>
    intro _ m i j _
    rw [List.range_zero, List.foldl_nil, if_neg (by omega)]
  | succ n ih =>
    intro h m i j hi
    have hrest := ih (fun m dy hdy => h m dy (by omega)) (m := m) (j := j) hi
    rw [List.range_succ, List.foldl_append, List.foldl_cons, List.foldl_nil,
      h _ n (Nat.lt_succ_self n) i hi, hrest]
    by_cases hP : P i
    · by_cases hj : j = a + n
      · subst hj
        rw [if_pos ⟨rfl, hP⟩, if_pos ⟨by omega, hP⟩, Nat.add_sub_cancel_left]
      · rw [if_neg fun hc => hj hc.1]
        by_cases hin : a ≤ j ∧ j < a + n
        · rw [if_pos ⟨hin, hP⟩, if_pos ⟨by omega, hP⟩]
        · rw [if_neg fun hc => hin hc.1, if_neg fun hc => hin (by omega)]
    · rw [if_neg fun hc => hP hc.2, if_neg fun hc => hP hc.2, if_neg fun hc => hP hc.2]

/-- Copying a part of a row writes nothing outside of the picture. -/
theorem copyRow_of_outside (ho : L.Outside height o) (hy : y < height) (hx₁ : x₁ ≤ L.width)
    (hle : x₀ ≤ x₁) :
    copyBytes dst src (L.offset x₀ y) (L.offset x₀ y) ((x₁ - x₀) * L.bpp) o = dst o := by
  rw [copyBytes, if_neg]
  rintro ⟨hlo, hhi⟩
  obtain ⟨r, rfl⟩ := Nat.exists_eq_add_of_le hlo
  have hr : r < (x₁ - x₀) * L.bpp := Nat.lt_of_add_lt_add_left hhi
  have hbpp : 0 < L.bpp := Nat.pos_of_ne_zero fun h0 => by simp [h0] at hr
  have hcol : r / L.bpp < x₁ - x₀ := (Nat.div_lt_iff_lt_mul hbpp).mpr hr
  refine ho (x₀ + r / L.bpp) (by omega) y hy (r % L.bpp) (Nat.mod_lt r hbpp) ?_
  rw [offset, offset, Nat.add_mul, Nat.mul_comm (r / L.bpp)]
  have := Nat.div_add_mod r L.bpp
  omega

end Layout

end Raster
