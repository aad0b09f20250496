import GeekToyOS.Kernel.BootMap

/-!
# Allocating before the buddy system is up

`mem_map_init` takes the storage of the page map from `reserved_mem_alloc`, right behind the kernel and the
multiboot info, and looks at no memory map when it does. From then on `block_page_alloc` searches the
page map for a run of available pages. The search for the first used page of a run stops at the end of the
map, so the last run passes for one of any length; and `bitmap_find` returns an `int`.

## Main definitions

* `EarlyStep` — one call of `mm_phy_page_alloc`
* `EarlySafe` — what was handed out is usable, apart from kernel and multiboot info, and from each other
* `ServedInMap` — the search does not run into the end of the map, nor into pages past `2 ^ 31`

## Main results

* `blockLoop_cases` — the search finds available pages of the map, or says that it does not
* `early_safe` — allocations are safe throughout a run whose requests are `ServedInMap`, if the storage of
  the page map is usable memory
-/

namespace GeekToyOS

/-- The bytes of a range given by start and length. -/
def byteRange (r : ℕ × ℕ) : Set ℕ := Set.Ico r.1 (r.1 + r.2)

/-- Memory at boot, and the byte ranges handed out, latest first. -/
structure EarlyRun where
  mm : Memory
  given : List (ℕ × ℕ)

/-- One call of `mm_phy_page_alloc(n)`. -/
inductive EarlyStep : EarlyRun → ℕ → EarlyRun → Prop
  | served {st : EarlyRun} {n addr : ℕ} {mm : Memory} (hcall : mmPhyPageAlloc st.mm n = some (addr, mm))
      (haddr : addr ≠ allocFailed) : EarlyStep st n ⟨mm, (addr, 4096 * n) :: st.given⟩
  | failed {st : EarlyRun} {n : ℕ} {mm : Memory}
      (hcall : mmPhyPageAlloc st.mm n = some (allocFailed, mm)) : EarlyStep st n ⟨mm, st.given⟩

/-- The range that `mem_map_init` takes for the page map. -/
def mapStorage (s : Memory) (entries : List MmapEntry) : ℕ × ℕ :=
  ((reservedMemAllocatorInit s).reservedEnd, divRoundUp (divRoundUp (phyAddrLimit entries) pgSize) 8)

/-- After `mem_map_init`, in `mem_init`. -/
def earlyStart (s : Memory) (storage : ℕ → BitVec 8) (entries : List MmapEntry) : EarlyRun :=
  ⟨{ memMapInit s storage entries with mmReady := true }, [mapStorage s entries]⟩

/-- **Ranges handed out are usable memory, apart from the occupied ranges and from each other.** -/
structure EarlySafe (entries : List MmapEntry) (occupied : List (ℕ × ℕ)) (st : EarlyRun) : Prop where
  usable : ∀ r ∈ st.given, byteRange r ⊆ availBytes entries
  apart : ∀ r ∈ st.given, ∀ o ∈ occupied, Disjoint (byteRange r) (byteRange o)
  exclusive : st.given.Pairwise fun r r' => Disjoint (byteRange r) (byteRange r')

/-- The map has `n` available pages in a row, the first of them below `2 ^ 31`. -/
def HasRun (s : Memory) (n : ℕ) : Prop :=
  ∃ a < 2 ^ 31, a + n ≤ s.pfnMax ∧ ∀ j, a ≤ j → j < a + n → s.memMap.bit j = false

/-- No run of the map reaches its end, or page `2 ^ 31`, or is at a place from which `n` pages wrap
around. -/
def NoRunCutOff (s : Memory) (n : ℕ) : Prop :=
  (∀ p < s.pfnMax, s.memMap.bit p = false → p < 2 ^ 31 ∧ p + n < 2 ^ 64) ∧
    (s.pfnMax = 0 ∨ s.memMap.bit (s.pfnMax - 1) = true)

/-- **A request for `n` pages is not served with a run that the end of the map cuts off.** -/
def ServedInMap (st : EarlyRun) (n : ℕ) : Prop := HasRun st.mm n ∨ NoRunCutOff st.mm n

section Search

variable {s : Memory} {n : ℕ}

/-- A search that succeeds. -/
def Served (s : Memory) (n v : ℕ) : Prop :=
  v = pfnNotfound ∨ v + n ≤ s.pfnMax ∧ ∀ j, v ≤ j → j < v + n → s.memMap.bit j = false

theorem toInt_ne_neg_one {u : ℕ} (hu : u ≤ 2 ^ 31) : toInt u ≠ -1 := by
  intro h
  have hmod : toInt u % (2 ^ 32 : ℕ) = (u : ℤ) % (2 ^ 32 : ℕ) := Int.bmod_emod
  rw [h] at hmod
  norm_num at hmod
  omega

/-- The search stops at a run that is long enough, and nowhere before. -/
theorem blockLoop_of_hasRun (hsize : s.memMap.size = s.pfnMax) (hmax : s.pfnMax ≤ 2 ^ 52) {a : ℕ}
    (hn : 0 < n) (ha : a < 2 ^ 31) (hend : a + n ≤ s.pfnMax)
    (hrun : ∀ j, a ≤ j → j < a + n → s.memMap.bit j = false) :
    ∀ (m r : ℕ), r ≤ a → Served s n (blockLoop s n m r) := by
  intro m
  induction m with
  | zero => exact fun _ _ => Or.inl rfl
  | succ m ih =>
    intro r hr
    rw [blockLoop, toSize_of_lt (by omega), if_pos (by omega)]
    have hbit : s.memMap.bit a = false := hrun a le_rfl (by omega)
    rcases bitmapFind_avail hsize hmax (r := r) (by omega) with ⟨-, hnone⟩ | ⟨l, hl, hrl, -, -, hleast⟩
    · exact absurd hbit (hnone a hr (by omega))
    have hla : l ≤ a := by
      by_contra hlt
      exact hleast a hr (by omega) hbit
    rw [hl, toInt_of_lt (by omega)]
    dsimp only
    rw [toSize_of_lt (by omega)]
    rcases bitmapFind_used hsize hmax (l := l) (n := n) (by omega) (by omega) with
      ⟨hnone, hall⟩ | ⟨u, hu, hlu, hum, hubit, -⟩
    · rw [hnone, if_pos rfl]
      exact Or.inr ⟨by omega, fun j hj hj' => hall j hj (by omega)⟩
    · -- a used page cannot lie in the run
      have hua : u < a := by
        by_contra hge
        have := hrun u (by omega) (by omega)
        rw [hubit] at this
        exact absurd this (by decide)
      rw [hu, toInt_of_lt (by omega), if_neg (by omega)]
      exact ih u (by omega)

/-- Where the last run does not reach the end of the map, no run passes for a longer one. -/
theorem blockLoop_of_noRunCutOff (hsize : s.memMap.size = s.pfnMax) (hmax : s.pfnMax ≤ 2 ^ 52)
    (hcut : NoRunCutOff s n) : ∀ (m : ℕ) (r : ℤ), Served s n (blockLoop s n m r) := by
  intro m
  induction m with
  | zero => exact fun _ => Or.inl rfl
  | succ m ih =>
    intro r
    rw [blockLoop]
    by_cases hr : toSize r < s.pfnMax
    · rw [if_pos hr]
      dsimp only
      rcases bitmapFind_avail hsize hmax hr with ⟨hnone, -⟩ | ⟨l, hl, -, hlm, hbit, -⟩
      · rw [hnone]
        split
        · exact Or.inl rfl
        · exact ih _
      obtain ⟨hl31, hwrap⟩ := hcut.1 l hlm hbit
      rw [hl, toInt_of_lt hl31, toSize_of_lt (show l < 2 ^ 64 by omega)]
      rcases bitmapFind_used hsize hmax hlm hwrap with ⟨hnone, hall⟩ | ⟨u, hu, -, hum, -, hall⟩
      · rw [hnone, if_pos rfl]
        refine Or.inr ?_
        have hfits : l + n ≤ s.pfnMax := by
          by_contra hlt
          rcases hcut.2 with h0 | hlast
          · omega
          · have := hall (s.pfnMax - 1) (by omega) (by omega)
            rw [hlast] at this
            exact absurd this (by decide)
        exact ⟨hfits, fun j hj hj' => hall j hj (by omega)⟩
      · -- the run ends no later than page `2 ^ 31`
        have hu31 : u ≤ 2 ^ 31 := by
          by_contra hlt
          have := hcut.1 (2 ^ 31) (by omega) (hall (2 ^ 31) (by omega) (by omega))
          omega
        rw [hu, if_neg (toInt_ne_neg_one hu31)]
        exact ih _
    · rw [if_neg hr]
      exact Or.inl rfl

/-- **The search finds available pages of the map, or says that it does not.** -/
theorem blockPageAlloc_served {st : EarlyRun} (hsize : st.mm.memMap.size = st.mm.pfnMax)
    (hmax : st.mm.pfnMax ≤ 2 ^ 52) (hn : 0 < n) (hok : ServedInMap st n) :
    Served st.mm n (blockPageAlloc st.mm n) := by
  rcases hok with ⟨a, ha, hend, hrun⟩ | hcut
  · exact blockLoop_of_hasRun hsize hmax hn ha hend hrun _ 0 (Nat.zero_le a)
  · exact blockLoop_of_noRunCutOff hsize hmax hcut _ 0

end Search

/-! ### Safety -/

/-- The kernel image and the multiboot info, as byte ranges. -/
def occupied (s : Memory) (kernStart mbootInfoStart : ℕ) : List (ℕ × ℕ) :=
  [(kernStart, s.kernEnd - kernStart), (mbootInfoStart, s.mbootInfoEnd - mbootInfoStart)]

/-- **What the boot loader leaves**: a page-aligned memory map, with the kernel image and the multiboot
info in usable memory, and no allocator set up. -/
structure Booted (s : Memory) (entries : List MmapEntry) (kernStart mbootInfoStart : ℕ) : Prop where
  no_overflow : NoOverflow entries
  aligned : PageAligned entries
  kern_lt : kernStart < s.kernEnd
  mboot_lt : mbootInfoStart < s.mbootInfoEnd
  occupied_avail : ∀ o ∈ occupied s kernStart mbootInfoStart, byteRange o ⊆ availBytes entries
  not_reserved_ready : s.reservedMemReady = false
  not_buddy_ready : s.buddyMemReady = false

/-- The invariant of early allocation; nothing below `lo` is ever handed out. -/
structure EarlyInv (entries : List MmapEntry) (lo : ℕ) (st : EarlyRun) : Prop where
  mm_ready : st.mm.mmReady = true
  not_buddy_ready : st.mm.buddyMemReady = false
  size_eq : st.mm.memMap.size = st.mm.pfnMax
  pfn_max_le : st.mm.pfnMax ≤ 2 ^ 52
  /-- Available pages are usable memory. -/
  avail : ∀ p < st.mm.pfnMax, st.mm.memMap.bit p = false →
    pageBytes p ⊆ availBytes entries ∧ lo ≤ 4096 * p
  usable : ∀ r ∈ st.given, byteRange r ⊆ availBytes entries
  above : ∀ r ∈ st.given, ∀ x ∈ byteRange r, lo ≤ x
  /-- They have not been handed out. -/
  fresh : ∀ p < st.mm.pfnMax, st.mm.memMap.bit p = false →
    ∀ r ∈ st.given, Disjoint (pageBytes p) (byteRange r)
  exclusive : st.given.Pairwise fun r r' => Disjoint (byteRange r) (byteRange r')

section Safety

variable {s : Memory} {entries : List MmapEntry} {kernStart mbootInfoStart lo n : ℕ}
  {st st' : EarlyRun} {storage : ℕ → BitVec 8}

theorem lt_end_of_mem_availBytes (hno : NoOverflow entries) {x : ℕ} (hx : x ∈ availBytes entries) :
    x < phyAddrEnd entries := by
  obtain ⟨e, he, hav, hmem⟩ := hx
  exact lt_of_lt_of_le hmem.2 (le_phyAddrEnd hno he hav)

/-- A range that is usable to its last byte ends where memory does or before. -/
theorem byteRange_end_le (hno : NoOverflow entries) {r : ℕ × ℕ} (hpos : 0 < r.2)
    (hr : byteRange r ⊆ availBytes entries) : r.1 + r.2 ≤ phyAddrEnd entries := by
  have hlast : r.1 + r.2 - 1 ∈ byteRange r := ⟨by omega, by omega⟩
  have := lt_end_of_mem_availBytes hno (hr hlast)
  omega

theorem le_align {x : ℕ} (hx : x + 4095 < 2 ^ 64) : x ≤ align x pgSize ∧ align x pgSize < x + 4096 := by
  have hal := @align_two_pow x 12 (by decide) (by norm_num; omega)
  norm_num at hal
  rw [show pgSize = 4096 from rfl, hal]
  omega

namespace Booted

/-- Kernel and multiboot info lie below what `reserved_mem_alloc` hands out. -/
theorem occupied_le (hb : Booted s entries kernStart mbootInfoStart) :
    (∀ o ∈ occupied s kernStart mbootInfoStart, o.1 + o.2 ≤ (mapStorage s entries).1) ∧
      (mapStorage s entries).1 ≤ phyAddrEnd entries := by
  have hkern := byteRange_end_le hb.no_overflow (r := (kernStart, s.kernEnd - kernStart))
    (Nat.sub_pos_of_lt hb.kern_lt) (hb.occupied_avail _ List.mem_cons_self)
  have hmboot := byteRange_end_le hb.no_overflow (r := (mbootInfoStart, s.mbootInfoEnd - mbootInfoStart))
    (Nat.sub_pos_of_lt hb.mboot_lt) (hb.occupied_avail _ (List.mem_cons_of_mem _ List.mem_cons_self))
  have hlt := phyAddrEnd_lt hb.no_overflow
  have hmod := phyAddrEnd_mod hb.no_overflow hb.aligned
  have hkl := hb.kern_lt
  have hml := hb.mboot_lt
  dsimp only at hkern hmboot
  have hstart : (mapStorage s entries).1
      = align (if s.mbootInfoEnd > s.kernEnd then s.mbootInfoEnd else s.kernEnd) pgSize := by
    rw [mapStorage, reservedMemAllocatorInit, if_neg (by rw [hb.not_reserved_ready]; decide)]
  have hmax : (if s.mbootInfoEnd > s.kernEnd then s.mbootInfoEnd else s.kernEnd)
      = max s.mbootInfoEnd s.kernEnd := by
    split <;> omega
  rw [hstart, hmax]
  obtain ⟨hle, hlt'⟩ := @le_align (max s.mbootInfoEnd s.kernEnd) (by omega)
  have halmod := align_pgSize_mod (max s.mbootInfoEnd s.kernEnd)
  refine ⟨fun o ho => ?_, by omega⟩
  simp only [occupied, List.mem_cons, List.not_mem_nil, or_false] at ho
  rcases ho with rfl | rfl <;> dsimp only <;> omega

/-- **The invariant holds to begin with**, if the storage of the page map is usable. -/
theorem earlyInv (hb : Booted s entries kernStart mbootInfoStart)
    (hstorage : byteRange (mapStorage s entries) ⊆ availBytes entries) :
    EarlyInv entries (mapStorage s entries).1 (earlyStart s storage entries) := by
  have hlt := phyAddrEnd_lt hb.no_overflow
  have hmod := phyAddrEnd_mod hb.no_overflow hb.aligned
  obtain ⟨-, hle⟩ := hb.occupied_le
  -- `reserved_end` ends up behind the storage
  have hend : (mapStorage s entries).1 + (mapStorage s entries).2 ≤ phyAddrEnd entries := by
    rcases Nat.eq_zero_or_pos (mapStorage s entries).2 with h0 | hpos
    · omega
    · exact byteRange_end_le hb.no_overflow hpos hstorage
  have hR : (memMapInit s storage entries).reservedEnd
      = align (wadd (mapStorage s entries).1 (mapStorage s entries).2) pgSize := rfl
  have hbehind : (mapStorage s entries).1 + (mapStorage s entries).2
      ≤ (memMapInit s storage entries).reservedEnd := by
    rw [hR, wadd_of_lt (by omega)]
    exact (le_align (by omega)).1
  have hmap : MapCorrect entries (memMapInit s storage entries) :=
    (mapCorrect_iff s storage hb.no_overflow).mpr
      (roundsWell_of_pageAligned hb.no_overflow hb.aligned (reservedEnd_memMapInit s storage))
  have hmax : (memMapInit s storage entries).pfnMax ≤ 2 ^ 52 := by
    rw [show (memMapInit s storage entries).pfnMax = _ from pfnMax_eq hb.no_overflow]
    split <;> omega
  have hready : (memMapInit s storage entries).buddyMemReady = s.buddyMemReady := by
    show (reservedMemAllocatorInit s).buddyMemReady = _
    rw [reservedMemAllocatorInit]
    split <;> rfl
  have hsize : (memMapInit s storage entries).memMap.size = (memMapInit s storage entries).pfnMax := by
    show (entries.foldl (memMapStep _) _).size = _
    rw [foldl_memMapStep_size, bitmapSet_size]
    rfl
  refine ⟨rfl, hready.trans hb.not_buddy_ready, hsize, hmax, fun p hp hfree => ?_, fun r hr => ?_,
    fun r hr x hx => ?_, fun p hp hfree r hr => ?_, List.pairwise_singleton _ _⟩
  · obtain ⟨hsub, hRp⟩ := hmap.sound p hp hfree
    exact ⟨hsub, by omega⟩
  · rw [List.mem_singleton.mp hr]
    exact hstorage
  · rw [List.mem_singleton.mp hr] at hx
    exact hx.1
  · obtain ⟨-, hRp⟩ := hmap.sound p hp hfree
    rw [List.mem_singleton.mp hr]
    refine Set.disjoint_left.mpr fun x hx hx' => ?_
    have := hx.1
    have := hx'.2
    omega

end Booted

namespace EarlyInv

/-- What a call does: it returns the place that `block_page_alloc` finds, and marks the pages from there on
used. -/
theorem alloc_eq (hI : EarlyInv entries lo st) (n : ℕ) : mmPhyPageAlloc st.mm n
    = some (wshl (blockPageAlloc st.mm n) pgShift,
        { st.mm with memMap := bitmapSet st.mm.memMap memPageUsed (blockPageAlloc st.mm n) n }) := by
  rw [mmPhyPageAlloc, if_neg (not_not.mpr hI.mm_ready)]
  dsimp only
  rw [if_neg (by rw [hI.not_buddy_ready]; decide)]
  rfl

/-- Marking pages used makes none available: a page that is still available was so before, and is not among
them. -/
theorem bit_of_used (hI : EarlyInv entries lo st) {v p : ℕ}
    (h : (bitmapSet st.mm.memMap memPageUsed v n).bit p = false) :
    st.mm.memMap.bit p = false ∧ ¬ st.mm.memMap.Written v n p := by
  have hmax := hI.pfn_max_le
  have hsize := hI.size_eq
  rw [bitmapSet_bit_written (by omega)] at h
  split at h
  · exact absurd h (by decide)
  · rename_i hw
    exact ⟨h, hw⟩

/-- Marking pages used, as a failed call does, keeps the invariant. -/
theorem mark (hI : EarlyInv entries lo st) (v n : ℕ) :
    EarlyInv entries lo
      ⟨{ st.mm with memMap := bitmapSet st.mm.memMap memPageUsed v n }, st.given⟩ where
  mm_ready := hI.mm_ready
  not_buddy_ready := hI.not_buddy_ready
  size_eq := bitmapSet_size.trans hI.size_eq
  pfn_max_le := hI.pfn_max_le
  avail := fun p hp hfree => hI.avail p hp (hI.bit_of_used hfree).1
  usable := hI.usable
  above := hI.above
  fresh := fun p hp hfree => hI.fresh p hp (hI.bit_of_used hfree).1
  exclusive := hI.exclusive

/-- A range that nobody has is added to those handed out. -/
theorem give (hI : EarlyInv entries lo st) {r : ℕ × ℕ} (husable : byteRange r ⊆ availBytes entries)
    (habove : ∀ x ∈ byteRange r, lo ≤ x)
    (hfresh : ∀ p < st.mm.pfnMax, st.mm.memMap.bit p = false → Disjoint (pageBytes p) (byteRange r))
    (hapart : ∀ r' ∈ st.given, Disjoint (byteRange r) (byteRange r')) :
    EarlyInv entries lo ⟨st.mm, r :: st.given⟩ where
  mm_ready := hI.mm_ready
  not_buddy_ready := hI.not_buddy_ready
  size_eq := hI.size_eq
  pfn_max_le := hI.pfn_max_le
  avail := hI.avail
  usable := List.forall_mem_cons.mpr ⟨husable, hI.usable⟩
  above := List.forall_mem_cons.mpr ⟨habove, hI.above⟩
  fresh := fun p hp hfree => List.forall_mem_cons.mpr ⟨hfresh p hp hfree, hI.fresh p hp hfree⟩
  exclusive := List.pairwise_cons.mpr ⟨hapart, hI.exclusive⟩

/-- **One call keeps the invariant**, if it is served inside the map. -/
theorem step (hI : EarlyInv entries lo st) (hok : ServedInMap st n) (hstep : EarlyStep st n st') :
    EarlyInv entries lo st' := by
  have hmax := hI.pfn_max_le
  have hsize := hI.size_eq
  cases hstep with
  | failed hcall =>
    rw [hI.alloc_eq, Option.some.injEq, Prod.mk.injEq] at hcall
    rw [← hcall.2]
    exact hI.mark _ n
  | @served addr mm hcall haddr =>
    rw [hI.alloc_eq, Option.some.injEq, Prod.mk.injEq] at hcall
    obtain ⟨rfl, rfl⟩ := hcall
    generalize hv : blockPageAlloc st.mm n = v at *
    have hmark := hI.mark v n
    rcases Nat.eq_zero_or_pos n with rfl | hn
    · -- no page at all
      have hnil : ∀ a, byteRange (a, 4096 * 0) = ∅ := fun a => Set.Ico_self a
      refine hmark.give ?_ ?_ ?_ ?_ <;> rw [hnil]
      · exact Set.empty_subset _
      · exact fun x hx => absurd hx (Set.notMem_empty x)
      · exact fun p _ _ => Set.disjoint_empty _
      · exact fun r' _ => Set.empty_disjoint _
    obtain ⟨hfits, hrun⟩ : v + n ≤ st.mm.pfnMax ∧ ∀ j, v ≤ j → j < v + n →
        st.mm.memMap.bit j = false := by
      have hserved := blockPageAlloc_served hsize hmax hn hok
      rw [hv] at hserved
      exact hserved.resolve_left fun he => haddr (by rw [he]; rfl)
    have haddr' : wshl v pgShift = 4096 * v := by
      rw [wshl_eq, pgShift]
      omega
    rw [haddr']
    -- a byte of the range lies in one of its pages
    have hpage : ∀ x ∈ byteRange (4096 * v, 4096 * n), x ∈ pageBytes (x / 4096) ∧
        x / 4096 < st.mm.pfnMax ∧ st.mm.memMap.bit (x / 4096) = false := by
      rintro x ⟨hx1, hx2⟩
      dsimp only at hx1 hx2
      exact ⟨⟨by omega, by omega⟩, by omega, hrun _ (by omega) (by omega)⟩
    refine hmark.give (fun x hx => ?_) (fun x hx => ?_) (fun p hp hfree => ?_) fun r' hr' => ?_
    · obtain ⟨hxp, hlt, hbit⟩ := hpage x hx
      exact (hI.avail _ hlt hbit).1 hxp
    · obtain ⟨hxp, hlt, hbit⟩ := hpage x hx
      exact (hI.avail _ hlt hbit).2.trans hxp.1
    · -- its pages are marked used
      have hnot := (hI.bit_of_used hfree).2
      rw [Bitmap.Written, hsize, wadd_of_lt (by omega), if_pos (by omega)] at hnot
      refine Set.disjoint_left.mpr fun x hx hx' => ?_
      have := hx.1
      have := hx.2
      obtain ⟨hx1, hx2⟩ := hx'
      dsimp only at hx1 hx2 hp
      omega
    · refine Set.disjoint_left.mpr fun x hx hx' => ?_
      obtain ⟨hxp, hlt, hbit⟩ := hpage x hx
      exact Set.disjoint_left.mp (hI.fresh _ hlt hbit r' hr') hxp hx'

/-- Nothing that was handed out meets what lies below the pages that the map began with. -/
theorem earlySafe (hI : EarlyInv entries lo st) {ranges : List (ℕ × ℕ)}
    (hle : ∀ o ∈ ranges, o.1 + o.2 ≤ lo) : EarlySafe entries ranges st where
  usable := hI.usable
  apart := fun r hr o ho => Set.disjoint_left.mpr fun x hx hx' => by
    have := hI.above r hr x hx
    have := hle o ho
    have := hx'.2
    omega
  exclusive := hI.exclusive

end EarlyInv

/-- **Early allocations are safe throughout a run whose requests are all `ServedInMap`**, if the storage of
the page map is usable memory. -/
theorem early_safe {l : List (ℕ × EarlyRun)} (hb : Booted s entries kernStart mbootInfoStart)
    (hstorage : byteRange (mapStorage s entries) ⊆ availBytes entries)
    (hrun : Trace.Run EarlyStep (earlyStart s storage entries) l)
    (hok : Trace.StepsOk ServedInMap (earlyStart s storage entries) l) :
    ∀ t ∈ Trace.states (earlyStart s storage entries) l,
      EarlySafe entries (occupied s kernStart mbootInfoStart) t := by
  intro t ht
  have hI : EarlyInv entries (mapStorage s entries).1 t :=
    Trace.invariant (I := EarlyInv entries (mapStorage s entries).1)
      (fun hI hok hstep => hI.step hok hstep) hrun (hb.earlyInv hstorage) hok t ht
  exact hI.earlySafe hb.occupied_le.1

end Safety

/-! ### Three megabytes -/

/-- The kernel occupies the second of three megabytes. -/
theorem booted_threeMegabytes : Booted (beforeBoot 0x200000 0x1000) threeMegabytes 0x100000 0x800 where
  no_overflow := noOverflow_threeMegabytes
  aligned := pageAligned_threeMegabytes
  kern_lt := by decide
  mboot_lt := by decide
  occupied_avail := by
    have hle : ∀ o ∈ occupied (beforeBoot 0x200000 0x1000) 0x100000 0x800, o.1 + o.2 ≤ 0x300000 := by
      decide
    intro o ho x hx
    exact ⟨_, List.mem_singleton_self _, rfl, Nat.zero_le x, lt_of_lt_of_le hx.2 (hle o ho)⟩
  not_reserved_ready := rfl
  not_buddy_ready := rfl

theorem mapStorage_threeMegabytes :
    mapStorage (beforeBoot 0x200000 0x1000) threeMegabytes = (0x200000, 0x60) := by
  decide +kernel

/-- Behind what is occupied 255 pages are left, and a request for 256 is still served. -/
theorem threeMegabytes_alloc (n : ℕ) (hn : n = 1 ∨ n = 256) :
    ∃ mm, mmPhyPageAlloc
      (earlyStart (beforeBoot 0x200000 0x1000) (fun _ => 0) threeMegabytes).mm n
        = some (0x201000, mm) := by
  have hrun : (mmPhyPageAlloc (earlyStart (beforeBoot 0x200000 0x1000) (fun _ => 0)
      threeMegabytes).mm n).map Prod.fst = some 0x201000 := by
    rcases hn with rfl | rfl <;> decide +kernel
  obtain ⟨⟨addr, mm⟩, hcall, he⟩ := Option.map_eq_some_iff.mp hrun
  exact ⟨mm, by rw [hcall]; exact congrArg (fun a => some (a, mm)) he⟩

/-- One page is allocated behind what is occupied. -/
theorem early_safe_threeMegabytes : ∃ t : EarlyRun, t.given = [(0x201000, 4096), (0x200000, 0x60)] ∧
    EarlySafe threeMegabytes (occupied (beforeBoot 0x200000 0x1000) 0x100000 0x800) t := by
  obtain ⟨mm, hcall⟩ := threeMegabytes_alloc 1 (Or.inl rfl)
  have hstorage : byteRange (mapStorage (beforeBoot 0x200000 0x1000) threeMegabytes)
      ⊆ availBytes threeMegabytes := by
    rw [mapStorage_threeMegabytes]
    exact fun x hx => ⟨_, List.mem_singleton_self _, rfl, Nat.zero_le x, hx.2.trans (by decide)⟩
  have hserved : ServedInMap
      (earlyStart (beforeBoot 0x200000 0x1000) (fun _ => 0) threeMegabytes) 1 := by
    have hbit : 0x300 ≤ (earlyStart (beforeBoot 0x200000 0x1000) (fun _ => 0) threeMegabytes).mm.pfnMax ∧
        (earlyStart (beforeBoot 0x200000 0x1000) (fun _ => 0) threeMegabytes).mm.memMap.bit 0x201
          = false := by
      decide +kernel
    refine Or.inl ⟨0x201, by norm_num, by omega, fun j hj hj' => ?_⟩
    obtain rfl : j = 0x201 := by omega
    exact hbit.2
  have hsafe := early_safe booted_threeMegabytes hstorage
    (.cons (.served hcall (by decide)) (.nil _)) ⟨hserved, trivial⟩ _
    (List.mem_cons_of_mem _ List.mem_cons_self)
  refine ⟨_, ?_, hsafe⟩
  rw [show (4096 : ℕ) = 4096 * 1 from rfl, ← mapStorage_threeMegabytes]
  rfl

/-- 256 pages are allocated of the 255 at the end of the map. -/
theorem not_earlySafe_threeMegabytes :
    Booted (beforeBoot 0x200000 0x1000) threeMegabytes 0x100000 0x800 ∧
    ∃ t, EarlyStep (earlyStart (beforeBoot 0x200000 0x1000) (fun _ => 0) threeMegabytes) 256 t ∧
      ¬ EarlySafe threeMegabytes (occupied (beforeBoot 0x200000 0x1000) 0x100000 0x800) t := by
  obtain ⟨mm, hcall⟩ := threeMegabytes_alloc 256 (Or.inr rfl)
  refine ⟨booted_threeMegabytes, _, .served hcall (by decide), fun hsafe => ?_⟩
  have hsub := hsafe.usable (0x201000, 4096 * 256) List.mem_cons_self
  have hend := byteRange_end_le noOverflow_threeMegabytes (by decide) hsub
  exact absurd hend (by decide)

end GeekToyOS
