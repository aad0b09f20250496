import GeekToyOS.Arch.I386Bitmap

/-!
# The window of `arch_kmap` on i386

Memory beyond the direct map is mapped into 65536 pages from `KMAPPING_BASE` on, of which a bitmap says
which ones are taken. `arch_kmap` takes the first free pages that are as many as the size fills, whatever
the offset of the start in its page is. Near the end of the map it looks at the pages there are, and where
no page is free it goes on with the page `-1`, so that it never panics. `arch_kunmap` is told an address and
frees the page of this address.

## Main definitions

* `I386.archKmap`, `I386.archKunmap` — the code, function by function
* `I386.Fits` — the pages from a free one on look free

## Main results

* `I386.kmapLoop_spec` — the loop of `arch_kmap` comes to its end at the first place that looks free
* `I386.archKmap_cases`, `I386.archKunmap_cases` — what the calls do to the bitmap
-/

namespace GeekToyOS.I386

/-- `KERN_BASE`. -/
def kernBase : ℕ := 0xC0000000

/-- `KMAPPING_BASE`. -/
def kmappingBase : ℕ := 0xE8000000

/-- `KMAPPING_LIMIT`. -/
def kmappingLimit : ℕ := 0xF8000000

/-- `PHY_ACCESS_LIMIT`. -/
def phyAccessLimit : ℕ := kmappingBase - kernBase

/-- `HIGH_MEM_BITMAP_SIZE`. -/
def highMemBitmapSize : ℕ := 65536

/-- `kaddr`. -/
def kaddr (addr : ℕ) : ℕ := wadd addr kernBase

/-- `div_round_up`. -/
def divRoundUp (x d : ℕ) : ℕ := wsub (wadd x d) 1 / d

/-- An `int` as a `size_t`. -/
def toSize (z : ℤ) : ℕ := (z % 2 ^ 32).toNat

/-- The bitmap `high_kmap`, and the tables. -/
structure Kmaps (π : Type*) where
  highKmap : Bitmap
  mem : Paging π

/-- How a call of `arch_kmap` ends. -/
inductive KmapEnd (π : Type*)
  | panic
  /-- `return;` without a value -/
  | unspecified (k : Kmaps π)
  | address (va : ℕ) (k : Kmaps π)

variable {π : Type*} (P : TablePages π)

/-! ### The code -/

/-- `high_kmap` after the last lines of `arch_map_kernel_page`, on pages that hold `bytes`. -/
def initHighKmap (bytes : ℕ → BitVec 8) : Bitmap :=
  bitmapSet ⟨bytes, highMemBitmapSize⟩ 0 0 highMemBitmapSize

/-- The loop of `arch_kmap`: `l` where it breaks, and nothing where `r` gets behind the map. Without fuel
it has not come to its end. -/
def kmapLoop (map : Bitmap) (bit : ℕ) : ℕ → ℤ → Option (Option ℤ)
  | 0, _ => none
  | fuel + 1, r =>
    if r < highMemBitmapSize then
      let l := bitmapFind map 0 (toSize r) highMemBitmapSize
      let r := bitmapFind map 1 (toSize l) bit
      if r = -1 then some (some l) else kmapLoop map bit fuel r
    else some none

/-- What `arch_kmap` chooses as `va`, 0 for `NULL`. -/
def kmapVa (phy sz : ℕ) (k : Kmaps π) : Option (ℕ × Kmaps π) :=
  if phy < phyAccessLimit then some (kaddr phy, k)
  else
    let bit := divRoundUp sz pgSize
    (kmapLoop k.highKmap bit highMemBitmapSize 0).map fun found =>
      match found with
      | some l => (wadd kmappingBase (toSize (l <<< pgShift)),
          { k with highKmap := bitmapSet k.highKmap 1 (toSize l) bit })
      | none => (0, k)

/-- `arch_kmap` once `va` is chosen. -/
def kmapAt (phy sz off va : ℕ) (k : Kmaps π) : Option (KmapEnd π) :=
  if va = 0 then some .panic
  else if checkPgtable P k.mem va ≠ phy then
    (archMapRegion P none va phy (wadd sz off) pteW k.mem).map fun mem =>
      .address (wadd va off) { k with mem := mem }
  else some (.address (wadd va off) k)

/-- `arch_kmap`. -/
def archKmap (phy sz : ℕ) (k : Kmaps π) : Option (KmapEnd π) :=
  let off := pgoff phy
  let phy := ptaddr phy
  if phy ≥ kmappingLimit then some (.unspecified k)
  else (kmapVa phy sz k).bind fun (va, k) => kmapAt P phy sz off va k

/-- `arch_kunmap`; it ends with nothing if there is no table for the address. -/
def archKunmap (va : ℕ) (k : Kmaps π) : Option (Kmaps π) :=
  if va < kmappingBase then some k
  else
    let highKmap := bitmapSet k.highKmap 0 (wsub va kmappingBase / pgSize) 1
    (pgdirWalk P va (some 0) 0 k.mem k.mem.kernelPgd).bind fun w =>
      w.pte.map fun pte => ⟨highKmap, w.mem.set pte.1 pte.2 0⟩

/-! ### The bitmap -/

variable {map : Bitmap} {bit len l r i phy sz va : ℕ} {value : ℤ}

theorem toSize_of_lt (h : r < 2 ^ 32) : toSize (r : ℤ) = r := by
  rw [toSize]
  omega

theorem toSize_minusOne : toSize (-1) = 2 ^ 32 - 1 := rfl

section Bits

variable (hsize : map.size = highMemBitmapSize)

include hsize

/-- Setting a range of the map sets its bits, as far as the map goes, and no other bit. -/
theorem bitmapSet_range (hl : l ≤ 2 ^ 17) (hlen : len ≤ 2 ^ 20) (value : ℤ) (i : ℕ) :
    (bitmapSet map value l len).bit i =
      if l ≤ i ∧ i < min highMemBitmapSize (l + len) then decide (value ≠ 0) else map.bit i := by
  have hadd : wadd l len = GeekToyOS.wadd l len := by
    rw [wadd, GeekToyOS.wadd]
    omega
  have hadd' : GeekToyOS.wadd l len = l + len := wadd_of_lt (by omega)
  rw [highMemBitmapSize] at hsize ⊢
  rw [bitmapSet_eq (by omega) rfl (by rw [hadd]), GeekToyOS.bitmapSet_bit (by omega) (by omega), hadd',
    hsize]
  exact if_congr (by omega) rfl rfl

/-- Searching the map finds the first bit of the range that has the value, or `-1` if none of them has it.
-/
theorem bitmapFind_range (hl : l ≤ 2 ^ 17) (hlen : len ≤ 2 ^ 20) (value : ℤ) :
    (bitmapFind map value l len = -1 ∧
      ∀ i, l ≤ i → i < min highMemBitmapSize (l + len) → map.bit i ≠ decide (value ≠ 0)) ∨
    ∃ p : ℕ, bitmapFind map value l len = p ∧ l ≤ p ∧ p < min highMemBitmapSize (l + len) ∧
      map.bit p = decide (value ≠ 0) ∧ ∀ i, l ≤ i → i < p → map.bit i ≠ decide (value ≠ 0) := by
  have hadd : wadd l len = GeekToyOS.wadd l len := by
    rw [wadd, GeekToyOS.wadd]
    omega
  rw [highMemBitmapSize] at hsize ⊢
  rw [bitmapFind_eq (by omega) rfl (by rw [hadd])]
  rcases @GeekToyOS.bitmapFind_window map l len (by omega) (by omega) value
    with ⟨hfind, hnone⟩ | ⟨p, hfind, ⟨hlo, hhi, hbit⟩, hleast⟩
  · refine Or.inl ⟨hfind, fun i hi hi' hb => ?_⟩
    exact Set.eq_empty_iff_forall_notMem.mp hnone i ⟨hi, hsize ▸ hi', hb⟩
  · refine Or.inr ⟨p, hfind, hlo, hsize ▸ hhi, hbit, fun i hi hip hb => ?_⟩
    exact absurd (hleast ⟨hi, lt_trans hip hhi, hb⟩) (by omega)

omit hsize in
/-- At boot no page of the window is taken, whatever the memory of the bitmap held before. -/
theorem initHighKmap_bit (bytes : ℕ → BitVec 8) (hi : i < highMemBitmapSize) :
    (initHighKmap bytes).bit i = false := by
  rw [initHighKmap, bitmapSet_range rfl (by decide) (by decide), if_pos (by omega)]
  rfl

/-- The calls with the start `-1`: there is no such bit. -/
theorem written_minusOne (len i : ℕ) : ¬ map.Written (2 ^ 64 - 1) len i := by
  rw [Bitmap.Written, hsize, highMemBitmapSize, GeekToyOS.wadd]
  split <;> omega

theorem bitmapSet_minusOne (hlen : len ≤ 2 ^ 20) (value : ℤ) (i : ℕ) :
    (bitmapSet map value (2 ^ 32 - 1) len).bit i = map.bit i := by
  have hend : min map.size (wadd (2 ^ 32 - 1) len) = min map.size (GeekToyOS.wadd (2 ^ 64 - 1) len) := by
    rw [hsize, highMemBitmapSize, wadd, GeekToyOS.wadd]
    omega
  have hnot := written_minusOne hsize len i
  rw [highMemBitmapSize] at hsize
  rw [bitmapSet_eq (by omega) (by omega) hend, bitmapSet_bit_written (by omega), if_neg hnot]

theorem bitmapFind_minusOne (hlen : len ≤ 2 ^ 20) (value : ℤ) :
    bitmapFind map value (2 ^ 32 - 1) len = -1 := by
  have hend : min map.size (wadd (2 ^ 32 - 1) len) = min map.size (GeekToyOS.wadd (2 ^ 64 - 1) len) := by
    rw [hsize, highMemBitmapSize, wadd, GeekToyOS.wadd]
    omega
  have hnot := written_minusOne hsize len
  rw [highMemBitmapSize] at hsize
  rw [bitmapFind_eq (by omega) (by omega) hend]
  rcases @GeekToyOS.bitmapFind_written map value (2 ^ 64 - 1) len (by omega) with ⟨hfind, -⟩ | ⟨p, -, hw, -⟩
  · exact hfind
  · exact absurd hw (hnot p)

/-! ### The loop -/

/-- The page `l` is free, and so are the `len` pages from there on as far as the map goes. -/
structure Fits (map : Bitmap) (len l : ℕ) : Prop where
  lt : l < highMemBitmapSize
  start : map.bit l = false
  free : ∀ i, l ≤ i → i < min highMemBitmapSize (l + len) → map.bit i = false

/-- **The loop comes to its end** at the first place that looks free; if there is none, with `-1`. -/
theorem kmapLoop_spec (hbit : bit ≤ 2 ^ 20) : ∀ fuel r : ℕ, r < highMemBitmapSize →
    highMemBitmapSize ≤ r + fuel → (∀ l < r, ¬ Fits map bit l) →
    (kmapLoop map bit fuel r = some (some (-1)) ∧ ∀ l, ¬ Fits map bit l) ∨
      ∃ l : ℕ, kmapLoop map bit fuel r = some (some (l : ℤ)) ∧ IsLeast {l | Fits map bit l} l := by
  intro fuel
  induction fuel with
  | zero =>
    intro r hr hfuel
    omega
  | succ fuel ih =>
    intro r hr hfuel hbefore
    have hr17 : r ≤ 2 ^ 17 := by
      rw [highMemBitmapSize] at hr
      omega
    rw [kmapLoop, if_pos (by exact_mod_cast hr), toSize_of_lt (by omega)]
    dsimp only
    rcases bitmapFind_range hsize hr17 (show highMemBitmapSize ≤ 2 ^ 20 by decide) 0
      with ⟨hl, hnone⟩ | ⟨l, hl, hrl, hlt, hlbit, hfirst⟩
    · -- no page is free from `r` on
      rw [hl, toSize_minusOne, bitmapFind_minusOne hsize hbit, if_pos rfl]
      refine Or.inl ⟨rfl, fun l hfit => ?_⟩
      rcases Nat.lt_or_ge l r with hlr | hlr
      · exact hbefore l hlr hfit
      · have hlt := hfit.lt
        exact hnone l hlr (by omega) hfit.start
    · have hlt' : l < highMemBitmapSize := lt_of_lt_of_le hlt (Nat.min_le_left _ _)
      have hl17 : l ≤ 2 ^ 17 := by
        rw [highMemBitmapSize] at hlt'
        omega
      -- what lies before `l` does not fit
      have hbefore' : ∀ l' < l, ¬ Fits map bit l' := fun l' hl' hfit => by
        rcases Nat.lt_or_ge l' r with hlr | hlr
        · exact hbefore l' hlr hfit
        · exact hfirst l' hlr hl' hfit.start
      rw [hl, toSize_of_lt (by omega)]
      rcases bitmapFind_range hsize hl17 hbit 1 with ⟨hu, hfree⟩ | ⟨u, hu, hlu, huend, hubit, -⟩
      · rw [hu, if_pos rfl]
        refine Or.inr ⟨l, rfl, ⟨hlt', hlbit, fun i hi hi' => ?_⟩, fun l' hfit => ?_⟩
        · exact Bool.eq_false_of_not_eq_true (hfree i hi hi')
        · by_contra hl'
          exact hbefore' l' (Nat.lt_of_not_le hl') hfit
      · have hne : l ≠ u := by
          rintro rfl
          rw [hlbit] at hubit
          exact absurd hubit (by decide)
        rw [hu, if_neg (by omega)]
        refine ih u (by omega) (by omega) fun l' hl' hfit => ?_
        rcases Nat.lt_or_ge l' l with hll | hll
        · exact hbefore' l' hll hfit
        · -- the taken page `u` is in the way
          have hin := hfit.free u (by omega) (by omega)
          rw [hubit] at hin
          exact absurd hin (by decide)

end Bits

/-! ### The calls -/

/-- A range of addresses beyond the direct map, for `arch_kmap`. -/
structure HighRange where
  phy : ℕ
  sz : ℕ
  high : phyAccessLimit ≤ phy
  low : phy < kmappingLimit
  pos : 0 < sz
  lt : sz < 2 ^ 32

/-- How many pages hold a byte of `[phy, phy + sz)`. -/
def HighRange.pages (r : HighRange) : ℕ := (r.phy + r.sz - 1) / 4096 - r.phy / 4096 + 1

/-- How many pages `arch_kmap` takes, where there are as many. -/
def HighRange.bits (r : HighRange) : ℕ := divRoundUp r.sz pgSize

/-- The number of the page at `KMAPPING_BASE`. -/
def windowPage : ℕ := kmappingBase / 4096

theorem HighRange.bits_le (r : HighRange) : r.bits ≤ 2 ^ 20 := by
  rw [bits, divRoundUp, wsub, pgSize]
  omega

/-- What is taken is what the size fills; the offset in the first page is not looked at. -/
theorem HighRange.bits_le_pages (r : HighRange) : r.bits ≤ r.pages := by
  have hpos := r.pos
  have hlt := r.lt
  rw [bits, divRoundUp, wsub, wadd, pgSize, pages]
  omega

@[simp]
theorem bitmapSet_size : (bitmapSet map value r len).size = map.size := by
  rw [bitmapSet]
  dsimp only
  split_ifs <;> rfl

variable {P} {k k' : Kmaps π} {e : KmapEnd π}

/-- What comes after the choice leaves the bitmap alone. -/
theorem kmapAt_cases {off : ℕ} (hne : va ≠ 0) (hlt : va + off < 2 ^ 32)
    (h : kmapAt P phy sz off va k = some e) :
    ∃ k', e = .address (va + off) k' ∧ k'.highKmap = k.highKmap := by
  rw [kmapAt, if_neg hne, wadd, Nat.mod_eq_of_lt hlt] at h
  split at h
  · obtain ⟨mem, -, rfl⟩ := Option.map_eq_some_iff.mp h
    exact ⟨_, rfl, rfl⟩
  · obtain rfl := Option.some.inj h
    exact ⟨_, rfl, rfl⟩

/-- The choice of addresses for memory beyond the direct map: the page below the window if nothing fits into
it, else the first place that fits, which is marked. -/
theorem kmapVa_cases (hsize : k.highKmap.size = highMemBitmapSize) (hphy : phyAccessLimit ≤ phy)
    (hbit : divRoundUp sz pgSize ≤ 2 ^ 20) :
    (∀ l, ¬ Fits k.highKmap (divRoundUp sz pgSize) l) ∧ kmapVa phy sz k =
        some (kmappingBase - 4096,
          { k with highKmap := bitmapSet k.highKmap 1 (2 ^ 32 - 1) (divRoundUp sz pgSize) }) ∨
      ∃ l, IsLeast {l | Fits k.highKmap (divRoundUp sz pgSize) l} l ∧ kmapVa phy sz k =
        some (kmappingBase + l * 4096,
          { k with highKmap := bitmapSet k.highKmap 1 l (divRoundUp sz pgSize) }) := by
  rw [kmapVa, if_neg (Nat.not_lt.mpr hphy)]
  dsimp only
  rcases kmapLoop_spec hsize hbit highMemBitmapSize 0 (by decide) (by omega)
    (fun l hl => absurd hl (Nat.not_lt_zero l)) with ⟨hloop, hnone⟩ | ⟨l, hloop, hleast⟩
  · rw [Nat.cast_zero] at hloop
    rw [hloop]
    exact Or.inl ⟨hnone, rfl⟩
  · have hl : l < highMemBitmapSize := hleast.1.lt
    rw [highMemBitmapSize] at hl
    have hva : wadd kmappingBase (toSize ((l : ℤ) <<< pgShift)) = kmappingBase + l * 4096 := by
      rw [Int.shiftLeft_eq, pgShift, toSize, wadd, kmappingBase]
      omega
    rw [Nat.cast_zero] at hloop
    rw [hloop, Option.map_some]
    refine Or.inr ⟨l, hleast, ?_⟩
    dsimp only
    rw [hva, toSize_of_lt (by omega)]

/-- **What `arch_kmap` takes**, and where; it does not panic. -/
theorem archKmap_cases (hsize : k.highKmap.size = highMemBitmapSize) (r : HighRange)
    (h : archKmap P r.phy r.sz k = some e) :
    ∃ va k', e = .address va k' ∧ k'.highKmap.size = highMemBitmapSize ∧
      ((∀ l, ¬ Fits k.highKmap r.bits l) ∧ va / 4096 + 1 = windowPage ∧
          (∀ i, k'.highKmap.bit i = k.highKmap.bit i) ∨
        ∃ l, IsLeast {l | Fits k.highKmap r.bits l} l ∧ va / 4096 = windowPage + l ∧
          ∀ i, k'.highKmap.bit i =
            if l ≤ i ∧ i < min highMemBitmapSize (l + r.bits) then true else k.highKmap.bit i) := by
  have hhigh := r.high
  have hlow := r.low
  have hoff : pgoff r.phy < 4096 := lt_of_le_of_lt Nat.and_le_right (by decide)
  have hpage : phyAccessLimit ≤ ptaddr r.phy ∧ ptaddr r.phy < kmappingLimit := by
    rw [phyAccessLimit, kmappingBase, kernBase] at hhigh
    rw [kmappingLimit] at hlow
    rw [ptaddr_eq, phyAccessLimit, kmappingBase, kernBase, kmappingLimit]
    omega
  rw [archKmap, if_neg (Nat.not_le.mpr hpage.2)] at h
  rcases kmapVa_cases hsize hpage.1 r.bits_le with ⟨hnone, hva⟩ | ⟨l, hleast, hva⟩
  · rw [hva, Option.bind_some] at h
    obtain ⟨k', rfl, hk'⟩ := kmapAt_cases (by decide) (by rw [kmappingBase]; omega) h
    refine ⟨_, k', rfl, ?_, Or.inl ⟨hnone, ?_, fun i => ?_⟩⟩
    · rw [hk', bitmapSet_size, hsize]
    · rw [windowPage, kmappingBase]
      omega
    · rw [hk']
      exact bitmapSet_minusOne hsize r.bits_le 1 i
  · have hl : l < highMemBitmapSize := hleast.1.lt
    rw [highMemBitmapSize] at hl
    rw [hva, Option.bind_some] at h
    obtain ⟨k', rfl, hk'⟩ := kmapAt_cases (by rw [kmappingBase]; omega) (by rw [kmappingBase]; omega) h
    refine ⟨_, k', rfl, ?_, Or.inr ⟨l, hleast, ?_, fun i => ?_⟩⟩
    · rw [hk', bitmapSet_size, hsize]
    · rw [windowPage, kmappingBase]
      omega
    · rw [hk']
      exact bitmapSet_range hsize (by omega) r.bits_le 1 i

/-- **What `arch_kunmap` frees**: the page of its address. -/
theorem archKunmap_cases (hsize : k.highKmap.size = highMemBitmapSize) (hva : va < 2 ^ 32)
    (h : archKunmap P va k = some k') : k'.highKmap.size = highMemBitmapSize ∧
      ∀ i < highMemBitmapSize, k'.highKmap.bit i =
        if windowPage + i = va / 4096 then false else k.highKmap.bit i := by
  rw [archKunmap] at h
  split at h
  · rename_i hlt
    obtain rfl := Option.some.inj h
    refine ⟨hsize, fun i _ => (if_neg ?_).symm⟩
    rw [kmappingBase] at hlt
    rw [windowPage, kmappingBase]
    omega
  · rename_i hge
    rw [kmappingBase, Nat.not_lt] at hge
    obtain ⟨w, -, h⟩ := Option.bind_eq_some_iff.mp h
    obtain ⟨pte, -, rfl⟩ := Option.map_eq_some_iff.mp h
    refine ⟨bitmapSet_size.trans hsize, fun i hi => ?_⟩
    have hbase : windowPage = 0xE8000 := by decide
    have hstart : wsub va kmappingBase / pgSize = va / 4096 - windowPage := by
      rw [wsub, pgSize, hbase, kmappingBase]
      omega
    change (bitmapSet k.highKmap 0 (wsub va kmappingBase / pgSize) 1).bit i = _
    rw [hstart, bitmapSet_range hsize (by omega) (by norm_num), hbase]
    exact if_congr (by omega) rfl rfl

end GeekToyOS.I386
