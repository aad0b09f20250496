import GeekToyOS.Kernel.PageSource
import GeekToyOS.Lib.Bitmap

/-!
# Physical memory

`src/kernel/mm/memory.c`: the page map, the allocators that run before the buddy system does, and
`mm_phy_page_alloc` and `mm_phy_page_free`, which keep the page map and the buddy system side by side.

`ssize_t` values are integers; passed on as `size_t` they are reduced modulo `2 ^ 64`. Messages have
no effect, but the warning of `mm_phy_page_free` is part of its result.
-/

namespace GeekToyOS

/-- `MEM_PAGE_AVAIL`. -/
def memPageAvail : ℤ := 0

/-- `MEM_PAGE_USED`. -/
def memPageUsed : ℤ := 1

/-- `sizeof(struct page)`. -/
def sizeofPage : ℕ := 32

/-- The globals of `memory.c`; `buddy` holds `mem_zone` and `mem_pages`. -/
structure Memory where
  buddy : Buddy
  memMap : Bitmap
  pfnMax : ℕ
  reservedEnd : ℕ
  /-- `kern_end` -/
  kernEnd : ℕ
  /-- `paddr(mboot_info_end)` -/
  mbootInfoEnd : ℕ
  reservedMemReady : Bool
  buddyMemReady : Bool
  mmReady : Bool

/-- An `ssize_t` where a `size_t` is expected. -/
def toSize (z : ℤ) : ℕ := (z % 2 ^ 64).toNat

/-- `reserved_mem_allocator_init`. -/
def reservedMemAllocatorInit (s : Memory) : Memory :=
  if s.reservedMemReady then s
  else
    let reservedEnd := if s.mbootInfoEnd > s.kernEnd then s.mbootInfoEnd else s.kernEnd
    { s with reservedEnd := align reservedEnd pgSize, reservedMemReady := true }

/-- `reserved_mem_alloc`. -/
def reservedMemAlloc (s : Memory) (size : ℕ) : ℕ × Memory :=
  (s.reservedEnd, { s with reservedEnd := align (wadd s.reservedEnd size) pgSize })

/-- The loop of `block_page_alloc`. Every round that goes on moves `r` past an available page, so
`pfn_max` rounds are enough. -/
def blockLoop (s : Memory) (nrPages : ℕ) : ℕ → ℤ → ℕ
  | 0, _ => pfnNotfound
  | n + 1, r =>
    if toSize r < s.pfnMax then
      let l := bitmapFind s.memMap memPageAvail (toSize r) s.pfnMax
      let r := bitmapFind s.memMap memPageUsed (toSize l) nrPages
      if r = -1 then toSize l else blockLoop s nrPages n r
    else pfnNotfound

/-- `block_page_alloc`. -/
def blockPageAlloc (s : Memory) (nrPages : ℕ) : ℕ := blockLoop s nrPages (s.pfnMax + 1) 0

/-- `mm_phy_page_alloc`. -/
def mmPhyPageAlloc (s : Memory) (nrPages : ℕ) : Option (ℕ × Memory) :=
  if ¬ s.mmReady then
    let s := if ¬ s.reservedMemReady then reservedMemAllocatorInit s else s
    some (reservedMemAlloc s (wmul nrPages pgSize))
  else
    let allocated :=
      if s.buddyMemReady then
        (buddyPageAlloc s.buddy nrPages).map fun (pfn, buddy) => (pfn, { s with buddy := buddy })
      else some (blockPageAlloc s nrPages, s)
    allocated.map fun (pfn, s) =>
      (wshl pfn pgShift, { s with memMap := bitmapSet s.memMap memPageUsed pfn nrPages })

/-- What `mm_phy_page_alloc` returns when there is nothing to allocate. -/
def allocFailed : ℕ := wshl pfnNotfound pgShift

/-- `mm_phy_page_free`, with the page number of its double-free warning. -/
def mmPhyPageFree (s : Memory) (addr nrPages : ℕ) : Memory × Option ℤ :=
  let pfnStart := addr >>> pgShift
  let check := bitmapFind s.memMap memPageAvail pfnStart nrPages
  let warned := if check ≠ -1 then some check else none
  let s := { s with memMap := bitmapSet s.memMap memPageAvail pfnStart nrPages }
  (if s.buddyMemReady then { s with buddy := buddyPageFree s.buddy pfnStart nrPages } else s, warned)

/-- The loop of `buddy_init`: hand every run of available pages to the buddy system. -/
def buddyInitLoop : ℕ → Memory → ℤ → Memory
  | 0, s, _ => s
  | n + 1, s, r =>
    if toSize r < s.pfnMax then
      let l := bitmapFind s.memMap memPageAvail (toSize r) s.pfnMax
      let r := bitmapFind s.memMap memPageUsed (toSize l) s.pfnMax
      let r := if r = -1 then (s.pfnMax : ℤ) else r
      buddyInitLoop n { s with buddy := buddyPageFree s.buddy (toSize l) (toSize (r - l)) } r
    else s

/-- `buddy_init`. The page structs are put into memory that is not cleared; `pages` is what it
holds. -/
def buddyInit (s : Memory) (pages : ℕ → Page) : Option Memory :=
  (mmPhyPageAlloc s (divRoundUp (wmul s.pfnMax sizeofPage) pgSize)).map fun (_, s) =>
    let s := { s with buddy := buddyInitZone { s.buddy with memPages := pages } 0 s.pfnMax }
    buddyInitLoop s.pfnMax s 0

/-- `pmm_init`. -/
def pmmInit (s : Memory) (pages : ℕ → Page) : Option Memory :=
  (buddyInit s pages).map fun s => { s with buddyMemReady := true }

end GeekToyOS
