import GeekToyOS.Kernel.MemoryRuns

/-!
# The page map at boot

`mem_map_init` of `src/kernel/mm/memory.c`: the size of memory is the largest end of an available entry of
the multiboot memory map, the page map starts out all used, and each available entry frees its pages.

Base and length of an entry are rounded down separately. For an entry that does not start on a page,
that frees the page it starts in the middle of; and it misses the last page if the two remainders add
up to a page. What `RoundsWell` asks for is that neither of it shows, because another entry has the
bytes before the base, or frees the page that was missed.

## Main definitions

* `memMapInit` — `mem_map_init` on the entries of a memory map
* `MapCorrect` — a page is available only if it is memory and not reserved, and always if it lies in one
  entry
* `RoundsWell` — rounding down does not show

## Main results

* `bit_memMapInit` — the map, as a set of pages
* `mapCorrect_iff` — the map is correct exactly when `RoundsWell`
-/

namespace GeekToyOS

/-- `MULTIBOOT_MEMORY_AVAILABLE`. -/
def multibootMemoryAvailable : ℕ := 1

/-- `multiboot_memory_map_t`. -/
structure MmapEntry where
  addr : ℕ
  len : ℕ
  type : ℕ
deriving DecidableEq, Repr

/-- The entry is usable memory. -/
def MmapEntry.Available (e : MmapEntry) : Prop := e.type = multibootMemoryAvailable

instance (e : MmapEntry) : Decidable e.Available := inferInstanceAs (Decidable (_ = _))

/-- The body of the first loop of `mem_map_init`. -/
def limitStep (limit : ℕ) (e : MmapEntry) : ℕ :=
  if e.Available then max limit (wadd e.addr e.len) else limit

/-- The first loop of `mem_map_init`. -/
def phyAddrEnd (entries : List MmapEntry) : ℕ := entries.foldl limitStep 0

/-- `phy_addr_limit`. -/
def phyAddrLimit (entries : List MmapEntry) : ℕ := align (phyAddrEnd entries) pgSize

/-- What is left of an entry above `reserved_end`: base and length. -/
def clip (reservedEnd : ℕ) (e : MmapEntry) : ℕ × ℕ :=
  if e.addr < reservedEnd then (reservedEnd, wsub (wadd e.addr e.len) reservedEnd) else (e.addr, e.len)

/-- The body of the second loop of `mem_map_init`. -/
def memMapStep (reservedEnd : ℕ) (m : Bitmap) (e : MmapEntry) : Bitmap :=
  if e.Available then
    if wadd e.addr e.len ≤ reservedEnd then m
    else
      let (base, len) := clip reservedEnd e
      bitmapSet m memPageAvail (base >>> pgShift) (len / pgSize)
  else m

/-- `mem_map_init`. `storage` is what the memory of the page map holds before. -/
def memMapInit (s : Memory) (storage : ℕ → BitVec 8) (entries : List MmapEntry) : Memory :=
  let s := reservedMemAllocatorInit s
  let pfnMax := divRoundUp (phyAddrLimit entries) pgSize
  let (_, s) := reservedMemAlloc s (divRoundUp pfnMax 8)
  let m := bitmapSet ⟨storage, pfnMax⟩ memPageUsed 0 pfnMax
  { s with pfnMax := pfnMax, memMap := entries.foldl (memMapStep s.reservedEnd) m }

/-! ### What the map should say -/

/-- The bytes of an entry. -/
def MmapEntry.bytes (e : MmapEntry) : Set ℕ := Set.Ico e.addr (e.addr + e.len)

/-- The bytes of usable memory. -/
def availBytes (entries : List MmapEntry) : Set ℕ := {x | ∃ e ∈ entries, e.Available ∧ x ∈ e.bytes}

/-- The bytes of a page. -/
def pageBytes (p : ℕ) : Set ℕ := Set.Ico (4096 * p) (4096 * p + 4096)

/-- **The map is sound and complete.** -/
structure MapCorrect (entries : List MmapEntry) (s : Memory) : Prop where
  /-- An available page is usable memory that is not reserved. -/
  sound : ∀ p < s.pfnMax, s.memMap.bit p = false →
    pageBytes p ⊆ availBytes entries ∧ s.reservedEnd ≤ 4096 * p
  /-- A page inside one entry that is not reserved is available. -/
  complete : ∀ p, ∀ e ∈ entries, e.Available → pageBytes p ⊆ e.bytes → s.reservedEnd ≤ 4096 * p →
    p < s.pfnMax ∧ s.memMap.bit p = false

/-- The entry is usable and reaches beyond the reserved memory. -/
def MmapEntry.Counts (reservedEnd : ℕ) (e : MmapEntry) : Prop :=
  e.Available ∧ reservedEnd < e.addr + e.len

/-- The pages that an entry frees. -/
def MmapEntry.Frees (reservedEnd : ℕ) (e : MmapEntry) (p : ℕ) : Prop :=
  e.Counts reservedEnd ∧ (clip reservedEnd e).1 / 4096 ≤ p ∧
    p < (clip reservedEnd e).1 / 4096 + (clip reservedEnd e).2 / 4096

/-- Rounding an entry down does not show: if it frees a page, then the bytes between its first page and
its base are usable as well, and if it misses its last page, another entry frees that. -/
def MmapEntry.RoundsWell (entries : List MmapEntry) (reservedEnd : ℕ) (e : MmapEntry) : Prop :=
  let base := (clip reservedEnd e).1
  let len := (clip reservedEnd e).2
  4096 ≤ len →
    Set.Ico (base / 4096 * 4096) base ⊆ availBytes entries ∧
    (4096 ≤ base % 4096 + len % 4096 → ∃ e' ∈ entries, e'.Frees reservedEnd (base / 4096 + len / 4096))

/-- **Rounding does not show.** Where memory ends within the last page below `2 ^ 64`, its end is rounded
up to zero, and there must be no page to be found. -/
def RoundsWell (entries : List MmapEntry) (reservedEnd : ℕ) : Prop :=
  if phyAddrEnd entries ≤ 2 ^ 64 - 4096 then
    ∀ e ∈ entries, e.Counts reservedEnd → e.RoundsWell entries reservedEnd
  else ∀ p, ∀ e ∈ entries, e.Available → pageBytes p ⊆ e.bytes → ¬ reservedEnd ≤ 4096 * p

/-- No entry runs over the end of the address space. -/
def NoOverflow (entries : List MmapEntry) : Prop := ∀ e ∈ entries, e.addr + e.len < 2 ^ 64

section Boot

variable {entries : List MmapEntry} {e : MmapEntry} {m : Bitmap} {R p : ℕ}

theorem foldl_limitStep (hno : NoOverflow entries) (limit : ℕ) :
    limit ≤ entries.foldl limitStep limit ∧
      (limit < 2 ^ 64 → entries.foldl limitStep limit < 2 ^ 64) ∧
      ∀ e ∈ entries, e.Available → e.addr + e.len ≤ entries.foldl limitStep limit := by
  induction entries generalizing limit with
  | nil => exact ⟨le_rfl, id, fun _ he => absurd he List.not_mem_nil⟩
  | cons e entries ih =>
    have he := hno e List.mem_cons_self
    have hstep : limit ≤ limitStep limit e ∧ (limit < 2 ^ 64 → limitStep limit e < 2 ^ 64) ∧
        (e.Available → e.addr + e.len ≤ limitStep limit e) := by
      rw [limitStep, wadd_of_lt he]
      split_ifs with hav
      · exact ⟨le_max_left _ _, fun hlt => max_lt hlt he, fun _ => le_max_right _ _⟩
      · exact ⟨le_rfl, id, fun h => absurd h hav⟩
    obtain ⟨hle, hlt, hall⟩ := ih (fun e' he' => hno e' (List.mem_cons_of_mem _ he')) (limitStep limit e)
    rw [List.foldl_cons]
    refine ⟨hstep.1.trans hle, fun h => hlt (hstep.2.1 h), fun e' he' hav => ?_⟩
    rcases List.mem_cons.mp he' with rfl | he'
    · exact (hstep.2.2 hav).trans hle
    · exact hall e' he' hav

theorem phyAddrEnd_lt (hno : NoOverflow entries) : phyAddrEnd entries < 2 ^ 64 :=
  (foldl_limitStep hno 0).2.1 (Nat.two_pow_pos 64)

theorem le_phyAddrEnd (hno : NoOverflow entries) (he : e ∈ entries) (hav : e.Available) :
    e.addr + e.len ≤ phyAddrEnd entries := (foldl_limitStep hno 0).2.2 e he hav

theorem align_pgSize_mod (x : ℕ) : align x pgSize % 4096 = 0 := by
  have hx : wadd x (sizeMask pgSize) < 2 ^ 64 := Nat.mod_lt _ (Nat.two_pow_pos 64)
  have hal : align x pgSize = wadd x (sizeMask pgSize) / 4096 * 4096 := alignDown_pgSize hx
  omega

/-- `pfn_max` is the end of memory in pages, rounded up, unless rounding wraps around. -/
theorem pfnMax_eq (hno : NoOverflow entries) : divRoundUp (phyAddrLimit entries) pgSize
    = if phyAddrEnd entries ≤ 2 ^ 64 - 4096 then (phyAddrEnd entries + 4095) / 4096 else 0 := by
  have hlt := phyAddrEnd_lt hno
  have hx : wadd (phyAddrEnd entries) (sizeMask pgSize) < 2 ^ 64 := Nat.mod_lt _ (Nat.two_pow_pos 64)
  have hal : phyAddrLimit entries = wadd (phyAddrEnd entries) (sizeMask pgSize) / 4096 * 4096 :=
    alignDown_pgSize hx
  rw [hal, divRoundUp, sizeMask, pgSize]
  simp only [wadd, wsub]
  split <;> omega

/-- What is left of an entry that counts begins behind what is occupied, and ends where the entry does. -/
theorem MmapEntry.Counts.clip (hno : NoOverflow entries) (he : e ∈ entries) (hc : e.Counts R) :
    R ≤ (clip R e).1 ∧ e.addr ≤ (GeekToyOS.clip R e).1 ∧ (GeekToyOS.clip R e).1 ≤ max R e.addr ∧
      (GeekToyOS.clip R e).1 + (GeekToyOS.clip R e).2 = e.addr + e.len := by
  have hlt := hno e he
  have hR := hc.2
  rw [GeekToyOS.clip, wadd_of_lt hlt]
  split
  · rw [wsub_of_le (Nat.le_of_lt hR) hlt]
    omega
  · dsimp only
    omega

/-- One entry frees its pages in the map, and changes no other bit. -/
theorem memMapStep_bit (hno : NoOverflow entries) (he : e ∈ entries) (hsize : m.size ≤ 2 ^ 52)
    (hp : p < m.size) : (memMapStep R m e).bit p = false ↔ m.bit p = false ∨ e.Frees R p := by
  have hlt := hno e he
  rw [memMapStep, wadd_of_lt hlt]
  by_cases hc : e.Counts R
  · have hR := hc.2
    obtain ⟨-, -, -, hsum⟩ := hc.clip hno he
    rw [if_pos hc.1, if_neg (by omega)]
    dsimp only
    rw [bitmapSet_bit_written (by omega), Nat.shiftRight_eq_div_pow, pgShift, pgSize,
      show (2 : ℕ) ^ 12 = 4096 by norm_num]
    have hw : m.Written ((clip R e).1 / 4096) ((clip R e).2 / 4096) p ↔ e.Frees R p := by
      rw [Bitmap.Written, MmapEntry.Frees, wadd_of_lt (by omega), if_pos (by omega), and_iff_right hc]
      omega
    by_cases hf : e.Frees R p
    · rw [if_pos (hw.mpr hf)]
      exact iff_of_true (by decide) (Or.inr hf)
    · rw [if_neg fun h => hf (hw.mp h)]
      exact ⟨Or.inl, fun h => h.resolve_right hf⟩
  · have hsame : (if e.Available then if e.addr + e.len ≤ R then m
        else bitmapSet m memPageAvail ((clip R e).1 >>> pgShift) ((clip R e).2 / pgSize) else m) = m := by
      split_ifs with hav hR
      · rfl
      · exact absurd ⟨hav, Nat.lt_of_not_le hR⟩ hc
      · rfl
    refine (iff_of_eq (congrArg (fun m : Bitmap => m.bit p = false) hsame)).trans ?_
    exact ⟨Or.inl, fun h => h.resolve_right fun hf => hc hf.1⟩

theorem memMapStep_size : (memMapStep R m e).size = m.size := by
  rw [memMapStep]
  split_ifs
  · rfl
  · exact bitmapSet_size
  · rfl

theorem foldl_memMapStep_size : (entries.foldl (memMapStep R) m).size = m.size := by
  induction entries generalizing m with
  | nil => rfl
  | cons e entries ih =>
    rw [List.foldl_cons, ih]
    exact memMapStep_size

/-- The second loop of `mem_map_init` frees the pages of all entries, and no others. -/
theorem foldl_memMapStep (hno : NoOverflow entries) (hsize : m.size ≤ 2 ^ 52) (hp : p < m.size) :
    (entries.foldl (memMapStep R) m).bit p = false ↔
      m.bit p = false ∨ ∃ e ∈ entries, e.Frees R p := by
  induction entries generalizing m with
  | nil => simp
  | cons e entries ih =>
    have hno' : NoOverflow entries := fun e' he' => hno e' (List.mem_cons_of_mem _ he')
    have hstep := @memMapStep_bit (e :: entries) e m R p hno List.mem_cons_self hsize hp
    have hsame : (memMapStep R m e).size = m.size := memMapStep_size
    rw [List.foldl_cons, ih hno' (hsame ▸ hsize) (hsame ▸ hp), hstep]
    simp only [List.mem_cons, exists_eq_or_imp, or_assoc]

variable (s : Memory) (storage : ℕ → BitVec 8)

/-- **The map, as a set of pages**: those are available that some entry frees. -/
theorem bit_memMapInit (hno : NoOverflow entries) (hp : p < (memMapInit s storage entries).pfnMax) :
    (memMapInit s storage entries).memMap.bit p = false ↔
      ∃ e ∈ entries, e.Frees (memMapInit s storage entries).reservedEnd p := by
  have hmax : divRoundUp (phyAddrLimit entries) pgSize ≤ 2 ^ 52 := by
    have hlt := phyAddrEnd_lt hno
    rw [pfnMax_eq hno]
    split <;> omega
  have hp' : p < divRoundUp (phyAddrLimit entries) pgSize := hp
  set m : Bitmap := bitmapSet ⟨storage, divRoundUp (phyAddrLimit entries) pgSize⟩ memPageUsed 0
    (divRoundUp (phyAddrLimit entries) pgSize) with hm
  have hsize : m.size = divRoundUp (phyAddrLimit entries) pgSize := bitmapSet_size
  -- to begin with, every page is used
  have hused : m.bit p ≠ false := by
    rw [hm, bitmapSet_bit_written (show _ + 7 < _ by dsimp only; omega), if_pos]
    · decide
    · rw [Bitmap.Written, wadd_of_lt (by omega), if_pos (by dsimp only; omega)]
      dsimp only
      omega
  have hfold := @foldl_memMapStep entries m (memMapInit s storage entries).reservedEnd p hno
    (hsize ▸ hmax) (hsize ▸ hp')
  rw [or_iff_right hused] at hfold
  exact hfold

theorem reservedEnd_memMapInit : (memMapInit s storage entries).reservedEnd % 4096 = 0 :=
  align_pgSize_mod _

theorem pageBytes_subset {e : MmapEntry} (h : pageBytes p ⊆ e.bytes) :
    e.addr ≤ 4096 * p ∧ 4096 * p + 4096 ≤ e.addr + e.len := by
  have hfirst : 4096 * p ∈ e.bytes := h ⟨le_rfl, by omega⟩
  have hlast : 4096 * p + 4095 ∈ e.bytes := h ⟨by omega, by omega⟩
  exact ⟨hfirst.1, hlast.2⟩

/-- Nothing is left in its place: an entry frees a whole page that it has above the reserved memory, but
perhaps the last. -/
theorem MmapEntry.Counts.frees_or_last (hno : NoOverflow entries) (he : e ∈ entries)
    (hc : e.Counts R) (hsub : pageBytes p ⊆ e.bytes) (hR : R ≤ 4096 * p) :
    e.Frees R p ∨ 4096 ≤ (GeekToyOS.clip R e).2 ∧
      4096 ≤ (GeekToyOS.clip R e).1 % 4096 + (GeekToyOS.clip R e).2 % 4096 ∧
      p = (GeekToyOS.clip R e).1 / 4096 + (GeekToyOS.clip R e).2 / 4096 := by
  obtain ⟨h1, h2⟩ := pageBytes_subset hsub
  obtain ⟨-, -, hmax, hsum⟩ := hc.clip hno he
  rw [MmapEntry.Frees, and_iff_right hc]
  omega

/-- **The map is correct exactly when rounding does not show.** -/
theorem mapCorrect_iff (hno : NoOverflow entries) :
    MapCorrect entries (memMapInit s storage entries) ↔
      RoundsWell entries (memMapInit s storage entries).reservedEnd := by
  have hbit := fun p => @bit_memMapInit entries p s storage hno
  have hmod := @reservedEnd_memMapInit entries s storage
  have hmax : (memMapInit s storage entries).pfnMax = _ := pfnMax_eq hno
  generalize memMapInit s storage entries = s' at *
  rw [RoundsWell]
  split_ifs at hmax ⊢ with hwrap
  · constructor
    · intro hmap e he hc hlen
      obtain ⟨hRb, hab, -, hsum⟩ := hc.clip hno he
      have hend := le_phyAddrEnd hno he hc.1
      generalize hb : (clip s'.reservedEnd e).1 = b at *
      generalize hl : (clip s'.reservedEnd e).2 = l at *
      refine ⟨fun x hx => ?_, fun hrem => ?_⟩
      · -- the first page that the entry frees
        have hfirst : s'.memMap.bit (b / 4096) = false :=
          (hbit _ (by omega)).mpr ⟨e, he, hc, by rw [hb], by rw [hb, hl]; omega⟩
        exact (hmap.sound _ (by omega) hfirst).1 ⟨by have := hx.1; omega, by have := hx.2; omega⟩
      · -- the page that it misses
        have hsub : pageBytes (b / 4096 + l / 4096) ⊆ e.bytes := fun x hx =>
          ⟨by have := hx.1; omega, by have := hx.2; omega⟩
        obtain ⟨hlt, hfree⟩ := hmap.complete _ e he hc.1 hsub (by omega)
        exact (hbit _ hlt).mp hfree
    · intro hall
      refine ⟨fun p hp hfree => ?_, fun p e he hav hsub hR => ?_⟩
      · obtain ⟨e, he, hc, hle, hlt⟩ := (hbit p hp).mp hfree
        obtain ⟨hRb, hab, -, hsum⟩ := hc.clip hno he
        have hround := hall e he hc (by omega)
        refine ⟨fun x hx => ?_, by omega⟩
        obtain ⟨hx1, hx2⟩ := hx
        by_cases hxb : x < (clip s'.reservedEnd e).1
        · exact hround.1 ⟨by omega, hxb⟩
        · exact ⟨e, he, hc.1, by omega, by omega⟩
      · obtain ⟨h1, h2⟩ := pageBytes_subset hsub
        have hend := le_phyAddrEnd hno he hav
        have hc : e.Counts s'.reservedEnd := ⟨hav, by omega⟩
        have hp : p < s'.pfnMax := by omega
        refine ⟨hp, (hbit p hp).mpr ?_⟩
        rcases hc.frees_or_last hno he hsub hR with hf | ⟨hlen, hrem, rfl⟩
        · exact ⟨e, he, hf⟩
        · exact (hall e he hc hlen).2 hrem
  · constructor
    · intro hmap p e he hav hsub hR
      have := (hmap.complete p e he hav hsub hR).1
      omega
    · intro hall
      exact ⟨fun p hp => absurd hp (by omega),
        fun p e he hav hsub hR => absurd hR (hall p e he hav hsub)⟩

end Boot

/-! ### Page-aligned maps -/

/-- Usable memory starts and ends on pages. -/
def PageAligned (entries : List MmapEntry) : Prop :=
  ∀ e ∈ entries, e.Available → e.addr % 4096 = 0 ∧ e.len % 4096 = 0

theorem phyAddrEnd_mod {entries : List MmapEntry} (hno : NoOverflow entries)
    (hal : PageAligned entries) : phyAddrEnd entries % 4096 = 0 := by
  have hfold : ∀ limit, limit % 4096 = 0 → entries.foldl limitStep limit % 4096 = 0 := by
    induction entries with
    | nil => exact fun _ h => h
    | cons e entries ih =>
      intro limit hlimit
      refine ih (fun e' he' => hno e' (List.mem_cons_of_mem _ he'))
        (fun e' he' => hal e' (List.mem_cons_of_mem _ he')) _ ?_
      rw [limitStep, wadd_of_lt (hno e List.mem_cons_self)]
      split_ifs with hav
      · have := hal e List.mem_cons_self hav
        omega
      · exact hlimit
  exact hfold 0 rfl

/-- Rounding does not show where there is nothing to round. -/
theorem roundsWell_of_pageAligned {entries : List MmapEntry} {R : ℕ} (hno : NoOverflow entries)
    (hal : PageAligned entries) (hR : R % 4096 = 0) : RoundsWell entries R := by
  have hend := phyAddrEnd_lt hno
  have hmod := phyAddrEnd_mod hno hal
  rw [RoundsWell, if_pos (by omega)]
  intro e he hc hlen
  obtain ⟨hRb, hab, hmax, hsum⟩ := hc.clip hno he
  have := hal e he hc.1
  refine ⟨fun x hx => ?_, fun hrem => ?_⟩
  · obtain ⟨hx1, hx2⟩ := hx
    omega
  · omega

/-! ### Two maps -/

/-- Memory before `mem_map_init`. -/
def beforeBoot (kernEnd mbootInfoEnd : ℕ) : Memory where
  buddy := zeroMemory
  memMap := ⟨fun _ => 0, 0⟩
  pfnMax := 0
  reservedEnd := 0
  kernEnd := kernEnd
  mbootInfoEnd := mbootInfoEnd
  reservedMemReady := false
  buddyMemReady := false
  mmReady := false

/-- Three megabytes. -/
def threeMegabytes : List MmapEntry := [⟨0, 0x300000, 1⟩]

theorem noOverflow_threeMegabytes : NoOverflow threeMegabytes := by
  intro e he
  rw [List.mem_singleton.mp he]
  decide

theorem pageAligned_threeMegabytes : PageAligned threeMegabytes := by
  intro e he _
  rw [List.mem_singleton.mp he]
  decide

theorem mapCorrect_iff_threeMegabytes : MapCorrect threeMegabytes
    (memMapInit (beforeBoot 0x200000 0x1000) (fun _ => 0) threeMegabytes) :=
  (mapCorrect_iff _ _ noOverflow_threeMegabytes).mpr
    (roundsWell_of_pageAligned noOverflow_threeMegabytes pageAligned_threeMegabytes
      (reservedEnd_memMapInit _ _))

/-- Two more pages that start a hundred bytes into one: the page before them is freed as well. -/
theorem not_mapCorrect_unaligned : NoOverflow [⟨0, 0x300000, 1⟩, ⟨0x400064, 0x2000, 1⟩] ∧
    ¬ MapCorrect [⟨0, 0x300000, 1⟩, ⟨0x400064, 0x2000, 1⟩]
      (memMapInit (beforeBoot 0x200000 0x1000) (fun _ => 0)
        [⟨0, 0x300000, 1⟩, ⟨0x400064, 0x2000, 1⟩]) := by
  refine ⟨by unfold NoOverflow; decide, fun hmap => ?_⟩
  have hfree : 0x400 < (memMapInit (beforeBoot 0x200000 0x1000) (fun _ => 0)
      [⟨0, 0x300000, 1⟩, ⟨0x400064, 0x2000, 1⟩]).pfnMax ∧
      (memMapInit (beforeBoot 0x200000 0x1000) (fun _ => 0)
        [⟨0, 0x300000, 1⟩, ⟨0x400064, 0x2000, 1⟩]).memMap.bit 0x400 = false := by
    decide +kernel
  obtain ⟨e, he, -, hx⟩ := (hmap.sound 0x400 hfree.1 hfree.2).1 ⟨le_rfl, by omega⟩
  have hall : ∀ e ∈ ([⟨0, 0x300000, 1⟩, ⟨0x400064, 0x2000, 1⟩] : List MmapEntry),
      ¬ (e.addr ≤ 4096 * 0x400 ∧ 4096 * 0x400 < e.addr + e.len) := by decide
  exact hall e he hx

end GeekToyOS
