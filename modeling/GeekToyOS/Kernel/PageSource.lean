import GeekToyOS.Kernel.BuddyLists

/-!
# Where the heap gets its pages

The slab allocator and `kmalloc` use the page allocator through four operations: getting pages, giving
them back, and reading and writing page structs. They are parameters here, and `PageLaws` says what
the heap may rely on: a request for a power of two of pages is served, if at all, with pages that
nobody holds; page structs of pages that somebody holds are left alone; and no page is marked as a
slab page behind the heap's back.

Of a request for any other number of pages nothing is said.

## Main definitions

* `PageOps π` — the operations, on states of type `π`
* `PageLaws P managed granted` — what they do
-/

namespace GeekToyOS

/-- `PGSIZE`. -/
def pgSize : ℕ := 4096

/-- `PGSHIFT`. -/
def pgShift : ℕ := 12

/-- `KERN_BASE`. -/
def kernBase : ℕ := 0xFFFF800000000000

/-- `kaddr`. -/
def kaddr (phy : ℕ) : ℕ := wadd phy kernBase

/-- `paddr`. -/
def paddr (addr : ℕ) : ℕ := wsub addr kernBase

/-- What the heap calls. `alloc` is `none` when the request is not served. `mem_zone` starts at page
zero, so `pfn_to_page` yields page struct `pfn`. -/
structure PageOps (π : Type*) where
  /-- `mm_phy_page_alloc` -/
  alloc : π → ℕ → Option (ℕ × π)
  /-- `mm_phy_page_free` -/
  free : π → ℕ → ℕ → π
  /-- a page struct -/
  page : π → ℕ → Page
  /-- an assignment to a page struct -/
  setPage : π → ℕ → Page → π

/-- The page carries `PAGE_FLAG_SLAB`. -/
def Page.IsSlab (p : Page) : Prop := p.flag &&& pageFlagSlab ≠ 0

instance (p : Page) : Decidable p.IsSlab := inferInstanceAs (Decidable (_ ≠ _))

/-- The page allocator may use a page struct, but marks no page as a slab page and leaves the union
alone. -/
structure Page.Keeps (p p' : Page) : Prop where
  isSlab : p'.IsSlab → p.IsSlab
  u_eq : p'.u = p.u

variable {π : Type*}

/-- The page allocator left the page structs alone, as far as the heap can tell: those of the ranges
in `kept` altogether. -/
structure PagesKept (P : PageOps π) (kept : Set (ℕ × ℕ)) (s s' : π) : Prop where
  same : ∀ r ∈ kept, ∀ i ∈ rangePages r, P.page s' i = P.page s i
  keeps : ∀ i, (P.page s i).Keeps (P.page s' i)

/-- **What the heap relies on.** `managed` are the pages that the allocator gives out, all of them in
the direct map; `granted` are the ranges it gave out and did not get back. -/
structure PageLaws (P : PageOps π) (managed : Set ℕ) (granted : π → Set (ℕ × ℕ)) : Prop where
  managed_lt : ∀ p ∈ managed, p < 2 ^ 35
  /-- Served requests for a power of two are served with fresh pages. -/
  alloc : ∀ {s n k addr s'}, n = 2 ^ k → k < maxOrder → P.alloc s n = some (addr, s') →
    ∃ pfn, addr = pfn * 4096 ∧ rangePages (pfn, n) ⊆ managed ∧
      (∀ r ∈ granted s, Disjoint (rangePages (pfn, n)) (rangePages r)) ∧
      granted s' = insert (pfn, n) (granted s) ∧ PagesKept P (granted s) s s'
  /-- Giving a range back. -/
  free : ∀ {s pfn n}, (pfn, n) ∈ granted s →
    granted (P.free s (pfn * 4096) n) = granted s \ {(pfn, n)} ∧
      PagesKept P (granted s \ {(pfn, n)}) s (P.free s (pfn * 4096) n)
  /-- The heap may write the page structs of granted pages. -/
  setPage : ∀ {s i p}, (∃ r ∈ granted s, i ∈ rangePages r) →
    granted (P.setPage s i p) = granted s ∧
      ∀ j, P.page (P.setPage s i p) j = if j = i then p else P.page s j

/-! ### Addresses in the direct map -/

theorem kaddr_eq {pfn : ℕ} (h : pfn < 2 ^ 35) : kaddr (pfn * 4096) = kernBase + pfn * 4096 := by
  rw [kaddr, kernBase, wadd]
  omega

theorem paddr_eq {x : ℕ} (hx : kernBase ≤ x) (hx' : x < 2 ^ 64) : paddr x = x - kernBase :=
  wsub_of_le hx hx'

theorem alignDown_pgSize {x : ℕ} (hx : x < 2 ^ 64) : alignDown x pgSize = x / 4096 * 4096 := by
  have := alignDown_two_pow (x := x) (k := 12) (by decide) hx
  simpa [pgSize] using this

end GeekToyOS
