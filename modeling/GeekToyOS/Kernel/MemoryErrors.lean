import GeekToyOS.Kernel.Kmalloc
import GeekToyOS.Kernel.MemoryRuns

/-!
# Calls that fail

What the allocators do when there is no memory, and when a call does not pass its own checks.

The error value of the buddy allocator is `PFN_NOTFOUND`. `mm_phy_page_alloc` logs it, marks the pages it
stands for as used, and shifts it; what comes out is `allocFailed`, a large address, and nobody
downstream compares with that. So no allocation reports a failure, whatever the state.

The checks only log as well. A rejected call is carried out like any other, and leaves things as they
are only if there was nothing to do: `NothingToDo` says when.

## Main definitions

* `memoryPages` — the page allocator of `memory.c`, as the heap sees it
* `OomPropagates` — a call that gets no page reports it and changes nothing
* `Rejected` — a call does not pass its checks
* `LeavesIntact` — a call changes neither the page map nor anything of the buddy system

## Main results

* `not_oomPropagates` — no call reports that there is no memory
* `rejected_leavesIntact_iff` — a rejected call leaves things intact iff there was nothing to do
-/

namespace GeekToyOS

/-- The page allocator of `memory.c`. -/
def memoryPages : PageOps Memory where
  alloc := mmPhyPageAlloc
  free := fun s addr nrPages => (mmPhyPageFree s addr nrPages).1
  page := fun s pfn => s.buddy.memPages (pfnToPage s.buddy.zone pfn)
  setPage := fun s pfn page => { s with buddy := s.buddy.setPage (pfnToPage s.buddy.zone pfn) page }

/-- A heap in which only the page allocator was set up. -/
def pagesOnly (s : Memory) : Heap Memory where
  pages := s
  slabs := fun _ => ⟨0, 0, 0, 0⟩
  caches := fun _ => ⟨[], 0, 0, 0, 0, 0⟩
  nodes := ⟨fun _ => ⟨.null, .null⟩⟩
  word := fun _ => 0
  kmallocCaches := fun _ => 0

/-! ### No memory -/

/-- A call that may ask for pages. -/
inductive OomCall
  /-- `mm_phy_page_alloc(n)` -/
  | alloc (n : ℕ)
  /-- `mm_phy_page_zalloc(n)` -/
  | zalloc (n : ℕ)
  /-- `kmem_cache_alloc(cachep)` -/
  | kmemCacheAlloc (cachep : ℕ)
  /-- `kmalloc(size)` -/
  | kmalloc (size : ℕ)
deriving DecidableEq, Repr

/-- `kmem_cache_alloc` has to ask for a page: the lock is free, and no slab has a free slot. -/
def NeedsPage (h : Heap Memory) (cachep : ℕ) : Prop :=
  (h.caches cachep).lock = 0 ∧ listEmpty h.nodes (.cache cachep .slabsPartial) ∧
    listEmpty h.nodes (.cache cachep .slabsFree)

namespace OomCall

/-- The call asks the buddy allocator for `n` pages. -/
def Asks (h : Heap Memory) : OomCall → ℕ → Prop
  | .alloc m, n | .zalloc m, n => n = m
  | .kmemCacheAlloc cachep, n => n = 1 ∧ NeedsPage h cachep
  | .kmalloc size, n =>
    (size > maxKmallocCacheSize ∧ n = kmallocPages size) ∨
      (0 < size ∧ size ≤ maxKmallocCacheSize ∧ n = 1 ∧
        NeedsPage h (h.kmallocCaches (kmallocSizeIndex size)))

/-- The call. -/
def run (h : Heap Memory) : OomCall → Option (ℕ × Heap Memory)
  | .alloc n => (mmPhyPageAlloc h.pages n).map fun r => (r.1, { h with pages := r.2 })
  | .zalloc n => mmPhyPageZalloc memoryPages h n
  | .kmemCacheAlloc cachep => GeekToyOS.kmemCacheAlloc memoryPages h cachep
  | .kmalloc size => GeekToyOS.kmalloc memoryPages h size

end OomCall

/-- **The call reports that there is no memory, and changes nothing.** -/
def OomPropagates (h : Heap Memory) (c : OomCall) : Prop := c.run h = some (0, h)

section NoMemory

variable {h h' : Heap Memory} {s s' : Memory} {c : OomCall} {n cachep : ℕ}

/-- What the failure of `buddy_page_alloc` becomes. -/
theorem mmPhyPageAlloc_eq_of_notfound {buddy : Buddy} (hmm : s.mmReady = true)
    (hready : s.buddyMemReady = true) (hfail : buddyPageAlloc s.buddy n = some (pfnNotfound, buddy)) :
    ∃ s', mmPhyPageAlloc s n = some (allocFailed, s') := by
  rw [mmPhyPageAlloc, if_neg (not_not.mpr hmm)]
  dsimp only
  rw [if_pos hready, hfail]
  exact ⟨_, rfl⟩

theorem allocFailed_ne_zero : allocFailed ≠ 0 := by decide

theorem kaddr_allocFailed_ne_zero : kaddr allocFailed ≠ 0 := by decide

/-- Taking an object from a slab never yields `NULL`: the code looks for no end of the freelist. -/
theorem takeObject_ne_null {slab : ℕ} : takeObject h cachep slab ≠ some (0, h') := by
  intro he
  rw [takeObject] at he
  dsimp only at he
  split_ifs at he with h0 h1
  · exact h0 (Prod.mk.inj (Option.some.inj he)).1
  · exact h0 (Prod.mk.inj (Option.some.inj he)).1

theorem kmemCacheAlloc_ne_null (hneeds : NeedsPage h cachep)
    (halloc : mmPhyPageAlloc h.pages 1 = some (allocFailed, s')) :
    kmemCacheAlloc memoryPages h cachep ≠ some (0, h') := by
  obtain ⟨hlock, hpartial, hfree⟩ := hneeds
  intro he
  -- the lock is taken, and `cache_grow` is called
  obtain ⟨h₁, hacq, he⟩ := Option.bind_eq_some_iff.mp he
  rw [Heap.acquire, if_neg (not_not.mpr hlock)] at hacq
  have hnodes : h₁.nodes = h.nodes := by rw [← Option.some.inj hacq]; rfl
  have hpages : h₁.pages = h.pages := by rw [← Option.some.inj hacq]; rfl
  obtain ⟨⟨slab, h₂⟩, hpick, he⟩ := Option.bind_eq_some_iff.mp he
  rw [pickSlab, hnodes, if_neg (not_not.mpr hpartial), if_neg (not_not.mpr hfree)] at hpick
  obtain ⟨⟨slab', h₃⟩, hgrow, hpick⟩ := Option.map_eq_some_iff.mp hpick
  rw [cacheGrow, mmPhyPageZalloc] at hgrow
  obtain ⟨r, hr, hgrow⟩ := Option.map_eq_some_iff.mp hgrow
  obtain ⟨⟨phy, pages⟩, hphy, rfl⟩ := Option.map_eq_some_iff.mp hr
  rw [hpages] at hphy
  obtain ⟨rfl, rfl⟩ := Prod.mk.inj (Option.some.inj (halloc.symm.trans hphy))
  rw [if_neg allocFailed_ne_zero] at hgrow
  obtain ⟨rfl, rfl⟩ := Prod.mk.inj hgrow
  -- which takes the error for a page
  dsimp only at hpick
  rw [if_neg kaddr_allocFailed_ne_zero] at hpick
  obtain ⟨rfl, rfl⟩ := Prod.mk.inj hpick
  dsimp only at he
  rw [if_neg kaddr_allocFailed_ne_zero] at he
  obtain ⟨⟨obj, h₄⟩, htake, he⟩ := Option.bind_eq_some_iff.mp he
  obtain ⟨rfl, -⟩ := Prod.mk.inj (Option.some.inj he)
  exact takeObject_ne_null htake

/-- **No call reports that there is no memory**: where the page allocator has none to give, every call that
asks it for pages returns something other than `NULL`, or nothing at all. -/
theorem OomCall.run_ne_null {buddy : Buddy} (hmm : h.pages.mmReady = true)
    (hready : h.pages.buddyMemReady = true) (hasks : c.Asks h n)
    (hfail : buddyPageAlloc h.pages.buddy n = some (pfnNotfound, buddy)) : c.run h ≠ some (0, h') := by
  obtain ⟨s', halloc⟩ := mmPhyPageAlloc_eq_of_notfound hmm hready hfail
  cases c with
  | alloc m =>
    obtain rfl : n = m := hasks
    rw [run, halloc]
    exact fun he => allocFailed_ne_zero (Prod.mk.inj (Option.some.inj he)).1
  | zalloc m =>
    obtain rfl : n = m := hasks
    rw [run, mmPhyPageZalloc, show memoryPages.alloc h.pages n = _ from halloc]
    exact fun he => allocFailed_ne_zero (Prod.mk.inj (Option.some.inj he)).1
  | kmemCacheAlloc cachep =>
    obtain ⟨rfl, hneeds⟩ := hasks
    exact kmemCacheAlloc_ne_null hneeds halloc
  | kmalloc size =>
    rcases hasks with ⟨hlarge, rfl⟩ | ⟨hpos, hsmall, rfl, hneeds⟩
    · rw [run, GeekToyOS.kmalloc, if_neg (by omega), if_pos hlarge]
      dsimp only
      rw [show memoryPages.alloc h.pages (kmallocPages size) = _ from halloc]
      exact fun he => kaddr_allocFailed_ne_zero (Prod.mk.inj (Option.some.inj he)).1
    · rw [run, GeekToyOS.kmalloc, if_neg (by omega), if_neg (by omega)]
      exact kmemCacheAlloc_ne_null hneeds halloc

/-- **No call that gets no page from the buddy allocator reports it.** -/
theorem not_oomPropagates {buddy : Buddy} (hmm : h.pages.mmReady = true)
    (hready : h.pages.buddyMemReady = true) (hasks : c.Asks h n)
    (hfail : buddyPageAlloc h.pages.buddy n = some (pfnNotfound, buddy)) : ¬ OomPropagates h c :=
  OomCall.run_ne_null hmm hready hasks hfail

end NoMemory

/-- The four pages after every page that `buddy_init` freed was allocated. -/
def fourPagesTaken : Option Memory := do
  let s ← pmmInit (fourPageMemory 0) fun _ => .zero
  let (_, s) ← mmPhyPageAlloc s 1
  let (_, s) ← mmPhyPageAlloc s 1
  let (_, s) ← mmPhyPageAlloc s 1
  some s

theorem fourPagesTaken_alloc : ∃ s s' buddy, fourPagesTaken = some s ∧ s.mmReady = true ∧
    s.buddyMemReady = true ∧ buddyPageAlloc s.buddy 1 = some (pfnNotfound, buddy) ∧
    mmPhyPageAlloc s 1 = some (0xFFFFFFFFFFFFF000, s') := by
  have hrun : (fourPagesTaken.bind fun s => (buddyPageAlloc s.buddy 1).bind fun b =>
      (mmPhyPageAlloc s 1).map fun r => (s.mmReady, s.buddyMemReady, b.1, r.1))
        = some (true, true, pfnNotfound, 0xFFFFFFFFFFFFF000) := by
    decide +kernel
  obtain ⟨s, hs, hrest⟩ := Option.bind_eq_some_iff.mp hrun
  obtain ⟨⟨pfn, buddy⟩, hb, hrest⟩ := Option.bind_eq_some_iff.mp hrest
  obtain ⟨⟨addr, s'⟩, halloc, he⟩ := Option.map_eq_some_iff.mp hrest
  simp only [Prod.mk.injEq] at he
  obtain ⟨hmm, hready, rfl, rfl⟩ := he
  exact ⟨s, s', buddy, hs, hmm, hready, hb, halloc⟩

theorem not_oomPropagates_fourPagesTaken : ∃ s, fourPagesTaken = some s ∧
    ¬ OomPropagates (pagesOnly s) (.zalloc 1) := by
  obtain ⟨s, s', buddy, hs, hmm, hready, hfail, -⟩ := fourPagesTaken_alloc
  have hasks : (OomCall.zalloc 1).Asks (pagesOnly s) 1 := rfl
  exact ⟨s, hs, not_oomPropagates hmm hready hasks hfail⟩

/-- The fourth request for a page is answered with an address. -/
theorem alloc_fourPagesTaken : ∃ s buddy, fourPagesTaken = some s ∧
    buddyPageAlloc s.buddy 1 = some (pfnNotfound, buddy) ∧
    ¬ OomPropagates (pagesOnly s) (.alloc 1) := by
  obtain ⟨s, s', buddy, hs, -, -, hfail, halloc⟩ := fourPagesTaken_alloc
  refine ⟨s, buddy, hs, hfail, fun hoom => ?_⟩
  rw [OomPropagates, OomCall.run, show (pagesOnly s).pages = s from rfl, halloc] at hoom
  exact absurd (Prod.mk.inj (Option.some.inj hoom)).1 (Nat.succ_ne_zero _)

/-! ### Rejected calls -/

/-- A call that checks its arguments. -/
inductive CheckedCall
  /-- `mm_phy_page_free(addr, n)` -/
  | physFree (addr n : ℕ)
  /-- `buddy_page_free(&mem_zone, pfn, n)` -/
  | buddyFree (pfn n : ℕ)
  /-- `buddy_page_alloc(&mem_zone, n)` -/
  | buddyAlloc (n : ℕ)
  /-- `kfree(obj)` -/
  | kfree (obj : ℕ)
deriving DecidableEq, Repr

/-- The page struct that `kfree(obj)` looks at. -/
def kfreePage (s : Memory) (obj : ℕ) : Page := memoryPages.page s (paddr obj >>> pgShift)

/-- **The call does not pass its checks**: the address is not page-aligned, or a page is available
already; the range is not inside the zone; the count is not a power of two; the object is not in a slab
and not page-aligned. -/
def Rejected (s : Memory) : CheckedCall → Prop
  | .physFree addr n => addr % pgSize ≠ 0 ∨
      ∃ p, addr >>> pgShift ≤ p ∧ p < addr >>> pgShift + n ∧ p < s.memMap.size ∧ s.memMap.bit p = false
  | .buddyFree pfn n =>
    pfn < s.buddy.zone.pfnBase ∨ s.buddy.zone.pfnBase + s.buddy.zone.nrPages < pfn + n
  | .buddyAlloc n => ¬ ∃ k, n = 2 ^ k
  | .kfree obj => ¬ (kfreePage s obj).IsSlab ∧ obj % pgSize ≠ 0

/-- The call. -/
def CheckedCall.run (h : Heap Memory) : CheckedCall → Option (Heap Memory)
  | .physFree addr n => some { h with pages := (mmPhyPageFree h.pages addr n).1 }
  | .buddyFree pfn n =>
    some { h with pages := { h.pages with buddy := buddyPageFree h.pages.buddy pfn n } }
  | .buddyAlloc n => (buddyPageAlloc h.pages.buddy n).map fun r =>
      { h with pages := { h.pages with buddy := r.2 } }
  | .kfree obj => GeekToyOS.kfree memoryPages h obj

/-- **The call changes neither the page map nor page structs, the zone or free lists.** -/
def LeavesIntact (h : Heap Memory) (c : CheckedCall) : Prop :=
  ∃ h', c.run h = some h' ∧ (∀ p, h'.pages.memMap.bit p = h.pages.memMap.bit p) ∧
    h'.pages.buddy = h.pages.buddy

/-- Freeing the range changes nothing: it is empty, or the buddy system is not there yet and every page
that the page map has of it is available. -/
def FreesNothing (s : Memory) (pfn n : ℕ) : Prop :=
  if s.buddyMemReady then n = 0 else ∀ p, s.memMap.Written pfn n p → s.memMap.bit p = false

/-- When a call that was rejected has nothing to do. -/
def NothingToDo (s : Memory) : CheckedCall → Prop
  | .physFree addr n => FreesNothing s (addr >>> pgShift) n
  | .buddyFree _ n => n = 0
  | .buddyAlloc _ => ∀ k < maxOrder, s.buddy.zone.count k = 0
  | .kfree obj => FreesNothing s (paddr obj >>> pgShift) (kfreePage s obj).u

/-- The fields that matter hold values of their types; a page map has at most `2 ^ 52` bits. -/
structure Memory.Typed (s : Memory) : Prop where
  size_le : s.memMap.size ≤ 2 ^ 52
  nrFreePages_lt : s.buddy.zone.nrFreePages < 2 ^ 64
  u_lt : ∀ i, (s.buddy.memPages i).u < 2 ^ 64

/-- So do the arguments of the call. -/
def CheckedCall.Typed : CheckedCall → Prop
  | .physFree addr n => addr < 2 ^ 64 ∧ n < 2 ^ 64
  | .buddyFree pfn n => pfn < 2 ^ 64 ∧ n < 2 ^ 64
  | .buddyAlloc n => n < 2 ^ 64
  | .kfree obj => obj < 2 ^ 64

section Rejected

variable {h : Heap Memory} {s : Memory} {b b' : Buddy} {c : CheckedCall} {pfn n : ℕ}

/-! #### Freeing -/

theorem buddyPageFree_eq_self_iff (hlt : b.zone.nrFreePages < 2 ^ 64) (hn : n < 2 ^ 64) :
    buddyPageFree b pfn n = b ↔ n = 0 := by
  constructor
  · intro he
    have hcount := buddyPageFree_nrFreePages b pfn n
    rw [he, wadd] at hcount
    omega
  · rintro rfl
    show b.setNrFreePages (wadd b.zone.nrFreePages 0) = b
    rw [wadd_of_lt (by omega)]
    rfl

theorem freesNothing_iff (hs : s.Typed) {addr : ℕ} (hpfn : addr >>> pgShift < 2 ^ 64)
    (hn : n < 2 ^ 64) :
    ((∀ p, (mmPhyPageFree s addr n).1.memMap.bit p = s.memMap.bit p) ∧
      (mmPhyPageFree s addr n).1.buddy = s.buddy) ↔ FreesNothing s (addr >>> pgShift) n := by
  have hsize := hs.size_le
  have hbit : ∀ p, (mmPhyPageFree s addr n).1.memMap.bit p
      = if s.memMap.Written (addr >>> pgShift) n p then false else s.memMap.bit p := by
    intro p
    rw [← show decide (memPageAvail ≠ 0) = false by decide, ← bitmapSet_bit_written (by omega),
      mmPhyPageFree]
    split <;> rfl
  rw [FreesNothing]
  split
  · rename_i hready
    have hbuddy : (mmPhyPageFree s addr n).1.buddy = buddyPageFree s.buddy (addr >>> pgShift) n := by
      rw [mmPhyPageFree]
      dsimp only
      rw [if_pos hready]
    rw [hbuddy, buddyPageFree_eq_self_iff hs.nrFreePages_lt hn]
    refine ⟨And.right, ?_⟩
    rintro rfl
    refine ⟨fun p => ?_, rfl⟩
    -- an empty range
    rw [hbit, if_neg]
    rw [Bitmap.Written, wadd_of_lt (by omega), Nat.add_zero, if_pos le_rfl]
    omega
  · rename_i hready
    have hbuddy : (mmPhyPageFree s addr n).1.buddy = s.buddy := by
      rw [mmPhyPageFree]
      dsimp only
      rw [if_neg hready]
    constructor
    · rintro ⟨hall, -⟩ p hp
      rw [← hall p, hbit, if_pos hp]
    · refine fun hall => ⟨fun p => ?_, hbuddy⟩
      rw [hbit]
      split
      · rename_i hp
        exact (hall p hp).symm
      · rfl

/-! #### Allocating -/

/-- Splitting a block leaves the count of its own order alone. -/
theorem expandLoop_count (page target : ℕ) : ∀ (o : ℕ) (b : Buddy) (offset : ℕ) {k : ℕ}, o ≤ k →
    (expandLoop page target b o offset).zone.count k = b.zone.count k := by
  intro o
  induction o with
  | zero => exact fun _ _ _ _ => rfl
  | succ o ih =>
    intro b offset k hk
    rw [expandLoop]
    split
    · dsimp only
      rw [ih _ _ (by omega)]
      exact Function.update_of_ne (by omega) _ _
    · rfl

theorem allocSearch_eq_self_iff (n : ℕ) : ∀ (m k : ℕ),
    ((∃ r, allocSearch b n 0 m k = some r ∧ r.2 = b) ↔ ∀ j, k ≤ j → j < k + m → b.zone.count j = 0) := by
  intro m
  induction m with
  | zero => exact fun k => iff_of_true ⟨_, rfl, rfl⟩ fun j hj hj' => by omega
  | succ m ih =>
    intro k
    rw [allocSearch]
    by_cases h0 : b.zone.count k = 0
    · rw [if_pos h0, ih]
      refine forall_congr' fun j => ⟨fun hall hj hj' => ?_, fun hall hj hj' => hall (by omega) (by omega)⟩
      rcases Nat.eq_or_lt_of_le hj with rfl | hj
      · exact h0
      · exact hall hj (by omega)
    · rw [if_neg h0]
      refine iff_of_false ?_ fun hall => h0 (hall k le_rfl (by omega))
      rintro ⟨r, hr, hsame⟩
      split at hr
      · exact (Option.some_ne_none _ hr.symm).elim
      · rename_i page _
        obtain rfl := Option.some.inj hr
        -- the block that was found is off its list, and its order has lost one
        have hcount := congrArg (fun b : Buddy => b.zone.count k) hsame
        have hdel : (delPageFromFreeList b page k).zone.count k = wsub (b.zone.count k) 1 :=
          Function.update_self _ _ _
        have hlost : b.zone.count k = wsub (b.zone.count k) 1 := by
          rw [← hdel]
          refine hcount.symm.trans ?_
          show (if k ≠ 0 then expandBuddy (delPageFromFreeList b page k) page k 0
            else delPageFromFreeList b page k).zone.count k = _
          split
          · exact expandLoop_count _ _ _ _ _ le_rfl
          · rfl
        rw [wsub] at hlost
        omega

/-! #### All of them -/

/-- **A call leaves things intact iff there is nothing to do**, rejected or not. -/
theorem leavesIntact_iff (hs : h.pages.Typed) (hc : c.Typed)
    (hkfree : ∀ obj, c = .kfree obj → ¬ (kfreePage h.pages obj).IsSlab) :
    LeavesIntact h c ↔ NothingToDo h.pages c := by
  cases c with
  | physFree addr n =>
    have hpfn : addr >>> pgShift < 2 ^ 64 := (Nat.shiftRight_le _ _).trans_lt hc.1
    rw [NothingToDo, ← freesNothing_iff hs hpfn hc.2]
    constructor
    · rintro ⟨h', he, hsame⟩
      obtain rfl := Option.some.inj he
      exact hsame
    · exact fun hsame => ⟨_, rfl, hsame⟩
  | buddyFree pfn n =>
    rw [NothingToDo, ← @buddyPageFree_eq_self_iff _ pfn _ hs.nrFreePages_lt hc.2]
    constructor
    · rintro ⟨h', he, -, hsame⟩
      obtain rfl := Option.some.inj he
      exact hsame
    · exact fun hsame => ⟨_, rfl, fun _ => rfl, hsame⟩
  | buddyAlloc n =>
    have hsearch := @allocSearch_eq_self_iff h.pages.buddy n maxOrder 0
    have hcount : NothingToDo h.pages (.buddyAlloc n) ↔
        ∀ j, 0 ≤ j → j < 0 + maxOrder → h.pages.buddy.zone.count j = 0 := by
      rw [Nat.zero_add]
      exact ⟨fun hall j _ hj => hall j hj, fun hall j hj => hall j (Nat.zero_le j) hj⟩
    rw [hcount, ← hsearch, LeavesIntact, CheckedCall.run, buddyPageAlloc, orderLoop_eq, Nat.sub_zero]
    constructor
    · rintro ⟨h', he, -, hsame⟩
      obtain ⟨r, hr, rfl⟩ := Option.map_eq_some_iff.mp he
      exact ⟨r, hr, hsame⟩
    · rintro ⟨r, hr, hsame⟩
      exact ⟨_, Option.map_eq_some_iff.mpr ⟨r, hr, rfl⟩, fun _ => rfl, hsame⟩
  | kfree obj =>
    have hpfn : paddr obj >>> pgShift < 2 ^ 64 :=
      (Nat.shiftRight_le _ _).trans_lt (Nat.mod_lt _ (Nat.two_pow_pos 64))
    have hrun : (CheckedCall.kfree obj).run h
        = some { h with pages := (mmPhyPageFree h.pages (paddr obj) (kfreePage h.pages obj).u).1 } :=
      if_neg (hkfree obj rfl)
    have hu : (kfreePage h.pages obj).u < 2 ^ 64 := hs.u_lt _
    rw [NothingToDo, ← freesNothing_iff hs hpfn hu, LeavesIntact, hrun]
    constructor
    · rintro ⟨h', he, hsame⟩
      obtain rfl := Option.some.inj he
      exact hsame
    · exact fun hsame => ⟨_, rfl, hsame⟩

/-- **A rejected call leaves things intact iff there was nothing to do.** -/
theorem rejected_leavesIntact_iff (hs : h.pages.Typed) (hc : c.Typed) (hrej : Rejected h.pages c) :
    LeavesIntact h c ↔ NothingToDo h.pages c := by
  refine leavesIntact_iff hs hc fun obj he => ?_
  subst he
  exact hrej.1

/-- Before the buddy system is there, freeing an available page changes nothing, at an address that is
not page-aligned either. -/
theorem rejected_leavesIntact_iff_fourPageMemory :
    Rejected (fourPageMemory 0) (.physFree 1 1) ∧
      LeavesIntact (pagesOnly (fourPageMemory 0)) (.physFree 1 1) := by
  have htyped : (pagesOnly (fourPageMemory 0)).pages.Typed :=
    ⟨by decide, by decide, fun _ => Nat.two_pow_pos 64⟩
  have hargs : (CheckedCall.physFree 1 1).Typed := ⟨by norm_num, by norm_num⟩
  have hrej : Rejected (fourPageMemory 0) (.physFree 1 1) := Or.inl (by decide)
  refine ⟨hrej, (rejected_leavesIntact_iff htyped hargs hrej).mpr ?_⟩
  show ∀ p, _ → (0 : BitVec 8).getLsbD (p % 8) = false
  exact fun p _ => BitVec.getLsbD_zero

/-- After `buddy_init`, a page that is free can be freed once more. -/
theorem not_leavesIntact_fourPageMemory : ∃ s, pmmInit (fourPageMemory 0) (fun _ => .zero) = some s ∧
    Rejected s (.physFree 4096 1) ∧ ¬ LeavesIntact (pagesOnly s) (.physFree 4096 1) := by
  have hrun : (pmmInit (fourPageMemory 0) fun _ => .zero).map (fun s => (s.memMap.size,
      s.memMap.bit 1, s.buddy.zone.nrFreePages, (mmPhyPageFree s 4096 1).1.buddy.zone.nrFreePages))
        = some (4, false, 3, 4) := by
    decide +kernel
  obtain ⟨s, hs, he⟩ := Option.map_eq_some_iff.mp hrun
  simp only [Prod.mk.injEq] at he
  obtain ⟨hsize, hbit, hbefore, hafter⟩ := he
  refine ⟨s, hs, Or.inr ⟨1, by decide, by decide, by rw [hsize]; decide, hbit⟩, ?_⟩
  rintro ⟨h', hcall, -, hsame⟩
  obtain rfl := Option.some.inj hcall
  rw [show (mmPhyPageFree s 4096 1).1.buddy = s.buddy from hsame, hbefore] at hafter
  exact absurd hafter (by decide)

end Rejected

end GeekToyOS
