import GeekToyOS.Lib.Const
import GeekToyOS.Lib.List

/-!
# The buddy allocator

`include/kernel/mm.h` and `src/kernel/mm/buddy.c`, function by function.

Page structs live in one array, `mem_pages`; a pointer to a page struct is its index there. The list
nodes inside the page structs and inside the zone's free areas form one heap of nodes, so that
`list_add_last` and `list_remove` are the pointer writes of `list.h` and nothing more.

`error` logs and returns, so a failed check changes nothing that follows; it leaves no trace in the
definitions below. Taking `list_front` of an empty list yields `NULL`, and an allocation that goes on
to dereference it has no outcome here: `buddyPageAlloc` is then `none`.
-/

namespace GeekToyOS

/-- `MAX_ORDER`. -/
def maxOrder : ℕ := 11

/-- `PAGE_FLAG_BUDDY`. -/
def pageFlagBuddy : BitVec 32 := 1

/-- `PAGE_FLAG_SLAB`. -/
def pageFlagSlab : BitVec 32 := 2

/-- `PFN_NOTFOUND`, that is `(size_t)-1`. -/
def pfnNotfound : ℕ := 2 ^ 64 - 1

/-- `struct page` without its list node. The union `u` is one word: `slab_cache` or `nr_pages`. -/
structure Page where
  flag : BitVec 32
  order : ℕ
  u : ℕ
deriving DecidableEq, Repr

/-- A page struct whose memory is zero. -/
def Page.zero : Page := ⟨0, 0, 0⟩

/-- A pointer to a list node of the buddy system: the node inside page struct `i`, or the head
`free_area[order].free_pages`. -/
inductive BuddyNode
  | null
  | page (i : ℕ)
  | freeArea (order : ℕ)
deriving DecidableEq, Repr

/-- `struct zone`; `mem_map` is an index into `mem_pages`, and the list heads of `free_area` live in
the heap of nodes. -/
structure Zone where
  memMap : ℕ
  pfnBase : ℕ
  nrPages : ℕ
  nrFreePages : ℕ
  /-- `free_area[order].count` -/
  count : ℕ → ℕ

/-- The memory that `buddy.c` works on. -/
structure Buddy where
  zone : Zone
  memPages : ℕ → Page
  nodes : ListHeap BuddyNode

/-- `pfn_to_page`. -/
def pfnToPage (zone : Zone) (pfn : ℕ) : ℕ := wadd zone.memMap (wsub pfn zone.pfnBase)

/-- `page_to_pfn`. -/
def pageToPfn (zone : Zone) (page : ℕ) : ℕ := wadd zone.pfnBase (wsub page zone.memMap)

/-- `free_area[order].count = c`. -/
def Buddy.setCount (s : Buddy) (order c : ℕ) : Buddy :=
  { s with zone := { s.zone with count := Function.update s.zone.count order c } }

/-- `nr_free_pages = n`. -/
def Buddy.setNrFreePages (s : Buddy) (n : ℕ) : Buddy :=
  { s with zone := { s.zone with nrFreePages := n } }

/-- Overwrite page struct `i`. -/
def Buddy.setPage (s : Buddy) (i : ℕ) (page : Page) : Buddy :=
  { s with memPages := Function.update s.memPages i page }

/-- `buddy_init_zone`. -/
def buddyInitZone (s : Buddy) (pfnStart nrPages : ℕ) : Buddy :=
  (List.range maxOrder).foldl
    (fun s order =>
      let s := s.setCount order 0
      { s with nodes := listInit s.nodes (.freeArea order) })
    { s with zone := ⟨pfnStart, pfnStart, nrPages, 0, s.zone.count⟩ }

/-- `__find_buddy_pfn`. -/
def _findBuddyPfn (pfn order : ℕ) : ℕ := pfn ^^^ (1 <<< order)

/-- `page_is_buddy`. -/
def pageIsBuddy (page : Page) (order : ℕ) : Bool :=
  page.flag &&& pageFlagBuddy ≠ 0 ∧ page.order = order

/-- `del_page_from_free_list`. The flag word is masked with `PAGE_FLAG_BUDDY`, as in the source. -/
def delPageFromFreeList (s : Buddy) (page order : ℕ) : Buddy :=
  let s := { s with nodes := listRemove s.nodes (.page page) }
  let s := s.setCount order (wsub (s.zone.count order) 1)
  s.setPage page { s.memPages page with flag := (s.memPages page).flag &&& pageFlagBuddy }

/-- `add_page_to_free_list`. -/
def addPageToFreeList (s : Buddy) (page order : ℕ) : Buddy :=
  let s := { s with nodes := listInit s.nodes (.page page) }
  let s := { s with nodes := listAddLast s.nodes (.page page) (.freeArea order) }
  s.setCount order (wadd (s.zone.count order) 1)

/-- `set_buddy_order`. -/
def setBuddyOrder (s : Buddy) (page order : ℕ) : Buddy :=
  s.setPage page
    { s.memPages page with order := order, flag := (s.memPages page).flag ||| pageFlagBuddy }

/-- The loop of `expand_buddy`. -/
def expandLoop (page targetOrder : ℕ) : Buddy → ℕ → ℕ → Buddy
  | s, 0, _ => s
  | s, originOrder + 1, pfnOffset =>
    if targetOrder < originOrder + 1 then
      let pfnOffset := pfnOffset >>> 1
      let s := addPageToFreeList s (wadd page pfnOffset) originOrder
      let s := setBuddyOrder s (wadd page pfnOffset) originOrder
      expandLoop page targetOrder s originOrder pfnOffset
    else s

/-- `expand_buddy`. -/
def expandBuddy (s : Buddy) (page originOrder targetOrder : ℕ) : Buddy :=
  expandLoop page targetOrder s originOrder (1 <<< originOrder)

/-- The loop that computes the order of a request, `for (sz = nr_pages; sz&1 == 0; sz >>= 1)`. In C
`==` binds tighter than `&`, so its condition is `sz & (1 == 0)`. The first argument bounds the number
of rounds by the width of `sz`. -/
def orderLoop : ℕ → ℕ → ℕ → ℕ
  | 0, _, order => order
  | n + 1, sz, order =>
    if sz &&& (if 1 = 0 then 1 else 0) ≠ 0 then orderLoop n (sz >>> 1) (order + 1) else order

/-- `list_front` of a list of pages; a front node that is not a page's is no page at all. -/
def listFrontPage (h : ListHeap BuddyNode) (head : BuddyNode) : Option ℕ :=
  if listEmpty h head then none
  else match (h head).next with
    | .page i => some i
    | _ => none

/-- The search of `buddy_page_alloc` through the orders. The first argument is the number of orders
left to look at. -/
def allocSearch (s : Buddy) (nrPages order : ℕ) : ℕ → ℕ → Option (ℕ × Buddy)
  | 0, _ => some (pfnNotfound, s)
  | n + 1, searchOrder =>
    if s.zone.count searchOrder = 0 then allocSearch s nrPages order n (searchOrder + 1)
    else match listFrontPage s.nodes (.freeArea searchOrder) with
      | none => none
      | some page =>
        let s := delPageFromFreeList s page searchOrder
        let s := if searchOrder ≠ order then expandBuddy s page searchOrder order else s
        let s := s.setNrFreePages (wsub s.zone.nrFreePages nrPages)
        some (pageToPfn s.zone page, s)

/-- `buddy_page_alloc`. -/
def buddyPageAlloc (s : Buddy) (nrPages : ℕ) : Option (ℕ × Buddy) :=
  let order := orderLoop 64 nrPages 0
  allocSearch s nrPages order (maxOrder - order) order

/-- The merging loop of `__buddy_page_free`. The first argument is the number of orders left below
`max_order`. -/
def mergeLoop : ℕ → Buddy → ℕ → ℕ → Buddy × ℕ × ℕ
  | 0, s, pfn, order => (s, pfn, order)
  | n + 1, s, pfn, order =>
    let buddyPfn := _findBuddyPfn pfn order
    let buddy := pfnToPage s.zone buddyPfn
    if pageIsBuddy (s.memPages buddy) order then
      mergeLoop n (delPageFromFreeList s buddy order) (buddyPfn &&& pfn) (order + 1)
    else (s, pfn, order)

/-- `__buddy_page_free`. -/
def _buddyPageFree (s : Buddy) (pfn order : ℕ) : Buddy :=
  let (s, pfn, order) := mergeLoop (maxOrder - 1 - order) s pfn order
  let page := pfnToPage s.zone pfn
  let s := setBuddyOrder s page order
  addPageToFreeList s page order

/-- The order `buddy_page_free` picks for the next block of a range: the largest one that the head is
aligned to and the range has room for. -/
def freeOrder (pfn nrPages : ℕ) : Option ℕ :=
  (List.range maxOrder).reverse.find? fun order => pfn % (1 <<< order) = 0 ∧ 1 <<< order ≤ nrPages

/-- The loop of `buddy_page_free`. Each round frees at least one page, so `nr_pages` rounds are
enough. -/
def freeLoop : ℕ → Buddy → ℕ → ℕ → Buddy
  | 0, s, _, _ => s
  | n + 1, s, pfn, nrPages =>
    if nrPages = 0 then s
    else match freeOrder pfn nrPages with
      | none => freeLoop n s pfn nrPages
      | some order =>
        freeLoop n (_buddyPageFree s pfn order) (wadd pfn (1 <<< order))
          (wsub nrPages (1 <<< order))

/-- `buddy_page_free`. -/
def buddyPageFree (s : Buddy) (pfn nrPages : ℕ) : Buddy :=
  freeLoop nrPages (s.setNrFreePages (wadd s.zone.nrFreePages nrPages)) pfn nrPages

end GeekToyOS
