import GeekToyOS.Kernel.Kmalloc

/-!
# Which cache serves a size

The caches of `kmalloc` hold objects of 8, 16, 32, 64, 96, 128, 192, 256, 512, 1024 and 2048 bytes.
`kmalloc_size_index` looks for the highest bit of a size and is to make room for the two classes that are
no powers of two; it finds the smallest class that is large enough, except for 49 to 192 bytes, which are
all served from a class one or two above. The class of 128 bytes is never used.

## Main definitions

* `KmallocSource` — a cache of `kmalloc`, or a number of pages
* `kmallocSource` — what a request asks for
* `KmallocTight` — the smallest class, or the least number of pages; and no less than a smaller request

## Main results

* `kmalloc_eq_serve` — `kmalloc` takes what it asks for, and nothing else
* `kmallocTight_iff` — which requests are served tightly
-/

namespace GeekToyOS

/-- Where memory comes from: one of the caches of `kmalloc`, or the page allocator. -/
inductive KmallocSource
  | cache (i : ℕ)
  | pages (n : ℕ)
deriving DecidableEq, Repr

namespace KmallocSource

/-- The bytes that are asked for. -/
def bytes : KmallocSource → ℕ
  | cache i => (kmallocInfo i).2
  | pages n => n * pgSize

@[simp] theorem bytes_cache (i : ℕ) : (cache i).bytes = (kmallocInfo i).2 := rfl

@[simp] theorem bytes_pages (n : ℕ) : (pages n).bytes = n * pgSize := rfl

/-- An object of the cache, or so many pages, with their number in the struct of the first one. -/
def serve {π : Type*} (P : PageOps π) (h : Heap π) : KmallocSource → Option (ℕ × Heap π)
  | cache i => kmemCacheAlloc P h (h.kmallocCaches i)
  | pages n =>
    (P.alloc h.pages n).map fun (phy, p) =>
      let page := phy >>> pgShift
      (kaddr phy, { h with pages := P.setPage p page { P.page p page with u := n } })

end KmallocSource

/-- What `kmalloc` asks for. -/
def kmallocSource (size : ℕ) : KmallocSource :=
  if size > maxKmallocCacheSize then .pages (kmallocPages size) else .cache (kmallocSizeIndex size)

/-- **A request is served from the smallest class that is large enough, or from the least number of
pages**, with at least as many bytes as it asks for and as any smaller request gets. -/
structure KmallocTight (size : ℕ) : Prop where
  cache : size ≤ maxKmallocCacheSize → ∃ i < nrKmallocCache, kmallocSource size = .cache i ∧
    IsLeast {s | size ≤ s ∧ ∃ i < nrKmallocCache, (kmallocInfo i).2 = s} (kmallocInfo i).2
  pages : maxKmallocCacheSize < size → ∃ n, kmallocSource size = .pages n ∧ IsLeast {n | size ≤ n * pgSize} n
  le_bytes : size ≤ (kmallocSource size).bytes
  mono : ∀ s, 1 ≤ s → s ≤ size → (kmallocSource s).bytes ≤ (kmallocSource size).bytes

/-- **`kmalloc` takes what it asks for** from where it asks, and does nothing else. -/
theorem kmalloc_eq_serve {π : Type*} (P : PageOps π) (h : Heap π) {size : ℕ} (h0 : 0 < size) :
    kmalloc P h size = (kmallocSource size).serve P h := by
  rw [kmalloc, kmallocSource, if_neg (Nat.ne_of_gt h0)]
  split
  case isTrue => rw [KmallocSource.serve]
  case isFalse => rw [KmallocSource.serve]

theorem kmallocSizeIndex_round {size : ℕ} (h : 0 < size) (h' : size ≤ maxKmallocCacheSize) :
    kmallocSizeIndex size = kmallocSizeIndex (((size - 1) / 8 + 1) * 2 ^ 3) := by
  rw [maxKmallocCacheSize] at h'
  refine kmallocSizeIndex_congr ?_
  rw [show wordSize = 2 ^ 3 from rfl, align_two_pow (by decide) (by omega),
    align_two_pow (by decide) (by omega)]
  omega

theorem kmallocInfo_mod : ∀ i < nrKmallocCache, (kmallocInfo i).2 % 8 = 0 := by decide

/-- **The class found is the smallest one that is large enough**, but for 49 to 192 bytes. -/
theorem kmallocSizeIndex_least_iff {size : ℕ} (h : 0 < size) (h' : size ≤ maxKmallocCacheSize) :
    (∀ i < nrKmallocCache, size ≤ (kmallocInfo i).2 →
      (kmallocInfo (kmallocSizeIndex size)).2 ≤ (kmallocInfo i).2) ↔ size ≤ 48 ∨ 192 < size := by
  have hall : ∀ m < 256, (∀ i < nrKmallocCache, (m + 1) * 2 ^ 3 ≤ (kmallocInfo i).2 →
      (kmallocInfo (kmallocSizeIndex ((m + 1) * 2 ^ 3))).2 ≤ (kmallocInfo i).2) ↔ m < 6 ∨ 24 ≤ m := by
    decide +kernel
  rw [maxKmallocCacheSize] at h'
  rw [kmallocSizeIndex_round h h', show size ≤ 48 ∨ 192 < size ↔ (size - 1) / 8 < 6 ∨ 24 ≤ (size - 1) / 8
    by omega, ← hall _ (by omega)]
  -- the classes are multiples of 8
  refine forall₂_congr fun i hi => imp_congr_left ?_
  have := kmallocInfo_mod i hi
  omega

/-- A larger request gets no smaller class, as far as there are classes. -/
theorem kmallocInfo_mono {size s : ℕ} (h : 0 < s) (hle : s ≤ size) (h' : size ≤ maxKmallocCacheSize) :
    (kmallocInfo (kmallocSizeIndex s)).2 ≤ (kmallocInfo (kmallocSizeIndex size)).2 := by
  have hstep : ∀ m < 255, (kmallocInfo (kmallocSizeIndex ((m + 1) * 2 ^ 3))).2 ≤
      (kmallocInfo (kmallocSizeIndex ((m + 1 + 1) * 2 ^ 3))).2 := by decide +kernel
  have hmono : ∀ n k, k + n < 256 → (kmallocInfo (kmallocSizeIndex ((k + 1) * 2 ^ 3))).2 ≤
      (kmallocInfo (kmallocSizeIndex ((k + n + 1) * 2 ^ 3))).2 := by
    intro n
    induction n with
    | zero => exact fun _ _ => le_rfl
    | succ n ih => exact fun k hk => (ih k (by omega)).trans (hstep (k + n) (by omega))
  rw [kmallocSizeIndex_round h (hle.trans h'), kmallocSizeIndex_round (h.trans_le hle) h']
  rw [maxKmallocCacheSize] at h'
  have := hmono ((size - 1) / 8 - (s - 1) / 8) ((s - 1) / 8) (by omega)
  rwa [Nat.add_sub_cancel' (Nat.div_le_div_right (by omega))] at this

theorem kmallocSource_small {size : ℕ} (h : size ≤ maxKmallocCacheSize) :
    kmallocSource size = .cache (kmallocSizeIndex size) := if_neg (Nat.not_lt.mpr h)

theorem kmallocSource_large {size : ℕ} (h : maxKmallocCacheSize < size) (hlt : size + 4095 < 2 ^ 64) :
    kmallocSource size = .pages ((size + 4095) / 4096) := by
  rw [kmallocSource, if_pos h, kmallocPages_eq, Nat.mod_eq_of_lt hlt]

theorem kmallocSource_bytes_small {size : ℕ} (h : size ≤ maxKmallocCacheSize) :
    (kmallocSource size).bytes = (kmallocInfo (kmallocSizeIndex size)).2 := by
  rw [kmallocSource_small h, KmallocSource.bytes_cache]

theorem kmallocSource_bytes_large {size : ℕ} (h : maxKmallocCacheSize < size) (hlt : size + 4095 < 2 ^ 64) :
    (kmallocSource size).bytes = (size + 4095) / 4096 * 4096 := by
  rw [kmallocSource_large h hlt, KmallocSource.bytes_pages, pgSize]

/-- A larger request gets no fewer bytes, be it from a cache or from the page allocator. -/
theorem kmallocSource_mono {size s : ℕ} (h : 0 < s) (hle : s ≤ size) (hlt : size + 4095 < 2 ^ 64) :
    (kmallocSource s).bytes ≤ (kmallocSource size).bytes := by
  rcases Nat.lt_or_ge maxKmallocCacheSize size with hbig | hsmall
  · rw [kmallocSource_bytes_large hbig hlt]
    rcases Nat.lt_or_ge maxKmallocCacheSize s with hs | hs
    · rw [kmallocSource_bytes_large hs (by omega)]
      omega
    · have hclass : (kmallocInfo (kmallocSizeIndex s)).2 ≤ 2048 := by
        have : ∀ i < nrKmallocCache, (kmallocInfo i).2 ≤ 2048 := by decide
        exact this _ (kmallocSizeIndex_spec h hs).1
      rw [kmallocSource_bytes_small hs]
      rw [maxKmallocCacheSize] at hbig
      omega
  · rw [kmallocSource_bytes_small hsmall, kmallocSource_bytes_small (hle.trans hsmall)]
    exact kmallocInfo_mono h hle hsmall

theorem kmallocTight_iff_range {size : ℕ} (h : 0 < size) (hlt : size < 2 ^ 64) :
    KmallocTight size ↔ (size ≤ 48 ∨ 192 < size) ∧ size + 4095 < 2 ^ 64 := by
  constructor
  · intro ht
    rcases Nat.lt_or_ge maxKmallocCacheSize size with hbig | hsmall
    · have hbytes := ht.le_bytes
      rw [kmallocSource, if_pos hbig, KmallocSource.bytes_pages, kmallocPages_eq, pgSize] at hbytes
      rw [maxKmallocCacheSize] at hbig
      omega
    · obtain ⟨i, -, hi, hleast⟩ := ht.cache hsmall
      obtain rfl := KmallocSource.cache.inj ((kmallocSource_small hsmall).symm.trans hi)
      refine ⟨(kmallocSizeIndex_least_iff h hsmall).mp fun i hi hle => ?_, ?_⟩
      · exact hleast.2 ⟨hle, i, hi, rfl⟩
      · rw [maxKmallocCacheSize] at hsmall
        omega
  · rintro ⟨hrange, hfit⟩
    refine ⟨fun hsmall => ?_, fun hbig => ?_, ?_, fun s hs hle => kmallocSource_mono hs hle hfit⟩
    · obtain ⟨hindex, hle⟩ := kmallocSizeIndex_spec h hsmall
      refine ⟨_, hindex, kmallocSource_small hsmall, ⟨hle, _, hindex, rfl⟩, ?_⟩
      rintro s ⟨hs, i, hi, rfl⟩
      exact (kmallocSizeIndex_least_iff h hsmall).mpr hrange i hi hs
    · refine ⟨_, kmallocSource_large hbig hfit, ?_, fun n hn => ?_⟩
      · rw [Set.mem_ofPred_eq, pgSize]
        omega
      · rw [Set.mem_ofPred_eq, pgSize] at hn
        omega
    · rcases Nat.lt_or_ge maxKmallocCacheSize size with hbig | hsmall
      · rw [kmallocSource_bytes_large hbig hfit]
        omega
      · rw [kmallocSource_bytes_small hsmall]
        exact (kmallocSizeIndex_spec h hsmall).2

/-- **Which requests `kmalloc` serves tightly**, from the cache or the page allocator that it asks. -/
theorem kmallocTight_iff {size : ℕ} (h : 0 < size) (hlt : size < 2 ^ 64) :
    (∀ {π : Type*} (P : PageOps π) (heap : Heap π), kmalloc P heap size = (kmallocSource size).serve P heap) ∧
      (KmallocTight size ↔ (size ≤ 48 ∨ 192 < size) ∧ size + 4095 < 2 ^ 64) :=
  ⟨fun P heap => kmalloc_eq_serve P heap h, kmallocTight_iff_range h hlt⟩

/-- Forty bytes are served from the class of 64. -/
theorem kmallocTight_iff_forty :
    kmalloc bumpPages emptyHeap 40 = kmemCacheAlloc bumpPages emptyHeap (emptyHeap.kmallocCaches 3) ∧
      KmallocTight 40 := by
  obtain ⟨hserve, hiff⟩ := @kmallocTight_iff 40 (by norm_num) (by norm_num)
  have hsource : kmallocSource 40 = .cache 3 := by decide +kernel
  refine ⟨?_, hiff.mpr (by norm_num)⟩
  exact (hserve bumpPages emptyHeap).trans (congrArg (·.serve bumpPages emptyHeap) hsource)

/-- A request for 100 bytes gets 192, although there is a class of 128. -/
theorem not_kmallocTight_hundred : ¬ ∀ size, 0 < size → size < 2 ^ 64 → KmallocTight size := by
  intro hall
  obtain ⟨i, -, hi, hleast⟩ := (hall 100 (by norm_num) (by norm_num)).cache (by decide)
  have hsource : kmallocSource 100 = .cache 6 := by decide +kernel
  obtain rfl := KmallocSource.cache.inj (hsource.symm.trans hi)
  exact absurd (hleast.2 ⟨(by norm_num : 100 ≤ 128), 5, by decide, rfl⟩) (by decide)

end GeekToyOS
