import GeekToyOS.Kernel.SlabRuns

/-!
# `kmalloc`

`kmalloc` and `kfree` of `src/kernel/mm/slab.c`. Sizes up to 2048 are served from one of eleven caches,
larger ones from the page allocator; the union in the page struct remembers which cache, or how many
pages. The struct of `mm_slab_cache` is static, and its address is a parameter.

`error` logs and returns, so what follows a failed check happens all the same.

## Main results

* `kmallocSizeIndex_spec` — the cache of a size has objects that large
-/

namespace GeekToyOS

variable {π : Type*}

/-- `NR_KMALLOC_CACHE`. -/
def nrKmallocCache : ℕ := 11

/-- `MAX_KMALLOC_CACHE_SIZE`. -/
def maxKmallocCacheSize : ℕ := 2048

/-- `kmalloc_infos`. -/
def kmallocInfos : List (String × ℕ) :=
  [("kmalloc-8", 8), ("kmalloc-16", 16), ("kmalloc-32", 32), ("kmalloc-64", 64), ("kmalloc-96", 96),
    ("kmalloc-128", 128), ("kmalloc-192", 192), ("kmalloc-256", 256), ("kmalloc-512", 512),
    ("kmalloc-1k", 1024), ("kmalloc-2k", 2048)]

/-- `kmalloc_infos[i]`. -/
def kmallocInfo (i : ℕ) : String × ℕ := kmallocInfos.getD i ("", 0)

/-- `kmem_cache_create`. -/
def kmemCacheCreate (P : PageOps π) (h : Heap π) (slabCache : ℕ) (name : List Char) (size : ℕ) :
    Option (ℕ × Heap π) := do
  let (cachep, h) ← kmemCacheAlloc P h slabCache
  if cachep = 0 then none
  else some (cachep, kmemInitCache h cachep name size wordSize)

/-- The search of `kmalloc_size_index`, once the size is rounded up and reduced by one. -/
def kmallocSizeSearch (size : ℕ) : ℕ :=
  let fls := 1
  let (fls, size) := if size &&& 0xFF00 ≠ 0 then (fls + 8, size >>> 8) else (fls, size)
  let (fls, size) := if size &&& 0xF0 ≠ 0 then (fls + 4, size >>> 4) else (fls, size)
  let (fls, size) := if size &&& 0xC ≠ 0 then (fls + 2, size >>> 2) else (fls, size)
  let last2bit := size
  let fls := if size &&& 0x2 ≠ 0 then fls + 1 else fls
  let index := fls - 3
  let index := if (fls = 6 ∨ fls = 7) ∧ last2bit &&& 1 ≠ 0 then index + 1 else index
  if fls = 7 then index + 1 else if fls > 7 then index + 2 else index

/-- `kmalloc_size_index`. -/
def kmallocSizeIndex (size : ℕ) : ℕ := kmallocSizeSearch (wsub (align size wordSize) 1)

/-- `align(size, PGSIZE) >> PGSHIFT`. -/
def kmallocPages (size : ℕ) : ℕ := align size pgSize >>> pgShift

/-- `kmalloc`; address zero is `NULL`. -/
def kmalloc (P : PageOps π) (h : Heap π) (size : ℕ) : Option (ℕ × Heap π) :=
  if size = 0 then some (0, h)
  else if size > maxKmallocCacheSize then
    let numPage := kmallocPages size
    (P.alloc h.pages numPage).map fun (phy, pages) =>
      let page := phy >>> pgShift
      (kaddr phy, { h with pages := P.setPage pages page { P.page pages page with u := numPage } })
  else
    let cachep := h.kmallocCaches (kmallocSizeIndex size)
    kmemCacheAlloc P h cachep

/-- `kfree`. -/
def kfree (P : PageOps π) (h : Heap π) (obj : ℕ) : Option (Heap π) :=
  let pfn := paddr obj >>> pgShift
  let page := P.page h.pages pfn
  if page.flag &&& pageFlagSlab ≠ 0 then kmemCacheFree h page.u obj
  else some { h with pages := P.free h.pages (paddr obj) page.u }

/-- The body of the loop of `kmem_init`. -/
def kmemInitStep (P : PageOps π) (slabCache : ℕ) (h : Heap π) (i : ℕ) : Option (Heap π) :=
  (kmemCacheCreate P h slabCache (kmallocInfo i).1.toList (kmallocInfo i).2).map fun (cachep, h) =>
    { h with kmallocCaches := Function.update h.kmallocCaches i cachep }

/-- `kmem_init`. -/
def kmemInit (P : PageOps π) (h : Heap π) (slabCache : ℕ) : Option (Heap π) :=
  (List.range nrKmallocCache).foldlM (kmemInitStep P slabCache)
    (kmemInitCache h slabCache "kmem_cache".toList sizeofKmemCache wordSize)

/-- Only the size rounded up to words matters for the class. -/
theorem kmallocSizeIndex_congr {size size' : ℕ} (h : align size wordSize = align size' wordSize) :
    kmallocSizeIndex size = kmallocSizeIndex size' := by
  rw [kmallocSizeIndex, kmallocSizeIndex, h]

/-- **The cache of a size exists and has objects that large.** -/
theorem kmallocSizeIndex_spec {size : ℕ} (h : 0 < size) (h' : size ≤ maxKmallocCacheSize) :
    kmallocSizeIndex size < nrKmallocCache ∧ size ≤ (kmallocInfo (kmallocSizeIndex size)).2 := by
  have hall : ∀ m < 256, kmallocSizeIndex ((m + 1) * 2 ^ 3) < nrKmallocCache ∧
      (m + 1) * 2 ^ 3 ≤ (kmallocInfo (kmallocSizeIndex ((m + 1) * 2 ^ 3))).2 := by decide +kernel
  rw [maxKmallocCacheSize] at h'
  have hround : kmallocSizeIndex size = kmallocSizeIndex (((size - 1) / 8 + 1) * 2 ^ 3) := by
    refine kmallocSizeIndex_congr ?_
    rw [show wordSize = 2 ^ 3 from rfl, align_two_pow (by decide) (by omega),
      align_two_pow (by decide) (by omega)]
    omega
  obtain ⟨hlt, hle⟩ := hall ((size - 1) / 8) (by omega)
  rw [hround]
  exact ⟨hlt, by omega⟩

theorem kmallocInfo_size {i : ℕ} (h : i < nrKmallocCache) :
    1 ≤ (kmallocInfo i).2 ∧ (kmallocInfo i).2 ≤ pgSize - sizeofSlab := by
  revert i
  decide

/-- The number of pages; rounding up may wrap around. -/
theorem kmallocPages_eq (size : ℕ) : kmallocPages size = (size + 4095) % 2 ^ 64 / 4096 := by
  have hlt : wadd size (sizeMask pgSize) < 2 ^ 64 := Nat.mod_lt _ (Nat.two_pow_pos 64)
  have hal : align size pgSize = wadd size (sizeMask pgSize) / 4096 * 4096 := alignDown_pgSize hlt
  rw [kmallocPages, hal, pgShift, Nat.shiftRight_eq_div_pow]
  exact Nat.mul_div_cancel _ (by norm_num)

/-- A large request fits the pages it asks for, unless rounding up wraps around to none at all. -/
theorem le_kmallocPages {size : ℕ} (h : size < 2 ^ 64) (h0 : kmallocPages size ≠ 0) :
    size ≤ kmallocPages size * 4096 := by
  have hpages := kmallocPages_eq size
  omega

end GeekToyOS
