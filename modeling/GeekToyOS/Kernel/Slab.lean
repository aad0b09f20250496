import GeekToyOS.Kernel.PageSource

/-!
# The slab allocator

`struct slab` and `struct kmem_cache` of `include/kernel/mm.h`, and the caches of
`src/kernel/mm/slab.c`.

Memory is split by what it holds: slab headers, cache structs, list nodes, and the words that free
objects hold their links in. Addresses are kernel addresses throughout, and clearing a page clears
whatever lies in it. That objects never overlap headers or each other is proved, not assumed:
the slots of a slab are computed as in the source (`IsSlot` and what follows it in `SlabInvariant`).

`acquire` spins as long as the lock is taken, so taking a taken lock has no outcome; neither has a
dereference of `NULL`. Both are `none`, and so is a request that the page allocator does not serve.
-/

namespace GeekToyOS

/-- `SLAB_MIN_SIZE`. -/
def slabMinSize : ℕ := 8

/-- `SLAB_MAX_OBJS_PER_PAGE`. -/
def slabMaxObjsPerPage : ℕ := 512

/-- `SLAB_CACHE_MAX_NAME`. -/
def slabCacheMaxName : ℕ := 32

/-- `sizeof(struct slab)`. -/
def sizeofSlab : ℕ := 48

/-- `sizeof(struct kmem_cache)`. -/
def sizeofKmemCache : ℕ := 120

/-- A `u32`. -/
def w32 (n : ℕ) : ℕ := n % 2 ^ 32

/-- `struct slab` without its list node. -/
structure Slab where
  freelist : ℕ
  inuse : ℕ
  free : ℕ
  page : ℕ
deriving DecidableEq, Repr

/-- Taking an object: `slab->freelist = next; slab->inuse++; slab->free--;` -/
def Slab.take (s : Slab) (next : ℕ) : Slab :=
  { s with freelist := next, inuse := w32 (s.inuse + 1), free := w32 (s.free + 2 ^ 32 - 1) }

/-- Giving an object back: `slab->freelist = obj; slab->inuse--; slab->free++;` -/
def Slab.give (s : Slab) (obj : ℕ) : Slab :=
  { s with freelist := obj, inuse := w32 (s.inuse + 2 ^ 32 - 1), free := w32 (s.free + 1) }

@[simp] theorem Slab.take_freelist (s : Slab) (next : ℕ) : (s.take next).freelist = next := rfl

@[simp] theorem Slab.give_freelist (s : Slab) (obj : ℕ) : (s.give obj).freelist = obj := rfl

@[simp] theorem Slab.take_inuse (s : Slab) (next : ℕ) : (s.take next).inuse = w32 (s.inuse + 1) := rfl

@[simp] theorem Slab.take_free (s : Slab) (next : ℕ) : (s.take next).free = w32 (s.free + 2 ^ 32 - 1) := rfl

@[simp] theorem Slab.give_inuse (s : Slab) (obj : ℕ) : (s.give obj).inuse = w32 (s.inuse + 2 ^ 32 - 1) := rfl

@[simp] theorem Slab.give_free (s : Slab) (obj : ℕ) : (s.give obj).free = w32 (s.free + 1) := rfl

/-- The three lists of a cache. -/
inductive SlabList
  | slabsFull
  | slabsPartial
  | slabsFree
deriving DecidableEq, Repr

/-- A pointer to a list node: the node at the head of a slab, or a list head in a cache. -/
inductive SlabNode
  | null
  | slab (a : ℕ)
  | cache (c : ℕ) (l : SlabList)
deriving DecidableEq, Repr

/-- `struct kmem_cache` without its lists and statistics. -/
structure KmemCache where
  name : List Char
  objSize : ℕ
  size : ℕ
  align : ℕ
  objsPerPage : ℕ
  lock : ℕ
deriving DecidableEq, Repr

/-- The memory of the heap. -/
structure Heap (π : Type*) where
  pages : π
  /-- slab headers, by address -/
  slabs : ℕ → Slab
  /-- cache structs, by address -/
  caches : ℕ → KmemCache
  nodes : ListHeap SlabNode
  /-- words of memory -/
  word : ℕ → ℕ
  /-- `mm_kmalloc_caches` -/
  kmallocCaches : ℕ → ℕ

variable {π : Type*}

/-- The address at which a node's memory starts. -/
def SlabNode.addr : SlabNode → ℕ
  | .null => 0
  | .slab a => a
  | .cache c _ => c

namespace Heap

/-- Overwrite a slab header. -/
def setSlab (h : Heap π) (a : ℕ) (s : Slab) : Heap π :=
  { h with slabs := Function.update h.slabs a s }

/-- Overwrite a cache struct. -/
def setCache (h : Heap π) (c : ℕ) (k : KmemCache) : Heap π :=
  { h with caches := Function.update h.caches c k }

/-- Overwrite a page struct. -/
def setPage (h : Heap π) (P : PageOps π) (i : ℕ) (page : Page) : Heap π :=
  { h with pages := P.setPage h.pages i page }

/-- Store a word. -/
def setWord (h : Heap π) (a v : ℕ) : Heap π := { h with word := Function.update h.word a v }

@[simp] theorem setSlab_slabs_self (h : Heap π) (a : ℕ) (s : Slab) : (h.setSlab a s).slabs a = s := by
  simp [setSlab]

theorem setSlab_slabs_of_ne (h : Heap π) {a b : ℕ} (s : Slab) (hb : b ≠ a) :
    (h.setSlab a s).slabs b = h.slabs b := by
  simp [setSlab, hb]

@[simp] theorem setSlab_word (h : Heap π) (a : ℕ) (s : Slab) : (h.setSlab a s).word = h.word := rfl

@[simp] theorem setSlab_caches (h : Heap π) (a : ℕ) (s : Slab) :
    (h.setSlab a s).caches = h.caches := rfl

@[simp] theorem setPage_slabs (h : Heap π) (P : PageOps π) (i : ℕ) (page : Page) :
    (h.setPage P i page).slabs = h.slabs := rfl

@[simp] theorem setPage_caches (h : Heap π) (P : PageOps π) (i : ℕ) (page : Page) :
    (h.setPage P i page).caches = h.caches := rfl

@[simp] theorem setWord_word (h : Heap π) (a v : ℕ) :
    (h.setWord a v).word = Function.update h.word a v := rfl

@[simp] theorem setWord_slabs (h : Heap π) (a v : ℕ) : (h.setWord a v).slabs = h.slabs := rfl

/-- `memset(a, 0, n)`. -/
def clear (h : Heap π) (a n : ℕ) : Heap π :=
  { h with
    slabs := fun x => if a ≤ x ∧ x < a + n then ⟨0, 0, 0, 0⟩ else h.slabs x
    caches := fun x => if a ≤ x ∧ x < a + n then ⟨[], 0, 0, 0, 0, 0⟩ else h.caches x
    nodes := ⟨fun m => if a ≤ m.addr ∧ m.addr < a + n then ⟨.null, .null⟩ else h.nodes m⟩
    word := fun x => if a ≤ x ∧ x < a + n then 0 else h.word x }

/-- `list_move(&slab->list, &cachep->l)`. -/
def moveSlab (h : Heap π) (a c : ℕ) (l : SlabList) : Heap π :=
  { h with nodes := listMove h.nodes (.slab a) (.cache c l) }

/-- `acquire(&cachep->lock)`. -/
def acquire (h : Heap π) (c : ℕ) : Option (Heap π) :=
  if (h.caches c).lock ≠ 0 then none else some (h.setCache c { h.caches c with lock := 1 })

/-- `release(&cachep->lock)`. -/
def release (h : Heap π) (c : ℕ) : Heap π := h.setCache c { h.caches c with lock := 0 }

end Heap

/-- `kmem_init_cache`. -/
def kmemInitCache (h : Heap π) (cachep : ℕ) (name : List Char) (size alignSize : ℕ) : Heap π :=
  let alignSize := if alignSize < slabMinSize then slabMinSize else alignSize
  let size := align size alignSize
  let objsPerPage := (pgSize - sizeofSlab) / size
  let objsPerPage := min objsPerPage slabMaxObjsPerPage
  let h := h.setCache cachep
    { h.caches cachep with
      name := name.take (slabCacheMaxName - 1), objSize := w32 size, size := w32 size,
      align := w32 alignSize, objsPerPage := w32 objsPerPage }
  let h := { h with nodes := listInit h.nodes (.cache cachep .slabsFull) }
  let h := { h with nodes := listInit h.nodes (.cache cachep .slabsPartial) }
  { h with nodes := listInit h.nodes (.cache cachep .slabsFree) }

/-- `mm_phy_page_zalloc`. -/
def mmPhyPageZalloc (P : PageOps π) (h : Heap π) (nrPages : ℕ) : Option (ℕ × Heap π) :=
  (P.alloc h.pages nrPages).map fun (phy, pages) =>
    (phy, { h with pages := pages }.clear (kaddr phy) (wmul nrPages pgSize))

/-- The body of the loop of `cache_grow`, on memory, `obj` and `freelist`: cut the next object off the
end of the page and chain it. -/
def growStep (size : ℕ) (s : Heap π × ℕ × ℕ) : Heap π × ℕ × ℕ :=
  let obj := wsub s.2.1 size
  (s.1.setWord obj s.2.2, obj, obj)

/-- The rest of `cache_grow`, once there is a page: its page struct, its header and its objects. -/
def initSlab (P : PageOps π) (h : Heap π) (cachep phy : ℕ) : Heap π :=
  let page := phy >>> pgShift
  let old := P.page h.pages page
  let h := h.setPage P page { old with flag := old.flag ||| pageFlagSlab, u := cachep }
  let slab := kaddr phy
  let objs := (h.caches cachep).objsPerPage
  let h := h.setSlab slab { h.slabs slab with page := page, inuse := 0, free := objs }
  let r := (growStep (h.caches cachep).size)^[objs] (h, wadd slab pgSize, 0)
  r.1.setSlab slab { r.1.slabs slab with freelist := r.2.2 }

/-- `cache_grow`; slab address zero is `NULL`. -/
def cacheGrow (P : PageOps π) (h : Heap π) (cachep : ℕ) : Option (ℕ × Heap π) :=
  (mmPhyPageZalloc P h 1).map fun r =>
    if r.1 = 0 then (0, r.2) else (kaddr r.1, initSlab P r.2 cachep r.1)

/-- `list_front` of a list of slabs; `NULL` when it is empty. -/
def listFrontSlab (nodes : ListHeap SlabNode) (head : SlabNode) : Option ℕ :=
  if listEmpty nodes head then none
  else match (nodes head).next with
    | .slab a => some a
    | _ => none

/-- The choice that `kmem_cache_alloc` makes: a slab from `slabs_partial`, else one from `slabs_free`,
else a new one. -/
def pickSlab (P : PageOps π) (h : Heap π) (cachep : ℕ) : Option (ℕ × Heap π) :=
  if ¬ listEmpty h.nodes (.cache cachep .slabsPartial) then
    (listFrontSlab h.nodes (.cache cachep .slabsPartial)).map fun slab => (slab, h)
  else if ¬ listEmpty h.nodes (.cache cachep .slabsFree) then
    (listFrontSlab h.nodes (.cache cachep .slabsFree)).map fun slab =>
      (slab, h.moveSlab slab cachep .slabsPartial)
  else
    (cacheGrow P h cachep).map fun (slab, h) =>
      if slab = 0 then (0, h)
      else
        (slab, { h with nodes := listAddFirst h.nodes (.slab slab) (.cache cachep .slabsPartial) })

/-- The rest of `kmem_cache_alloc`: take the first object of the slab. -/
def takeObject (h : Heap π) (cachep slab : ℕ) : Option (ℕ × Heap π) :=
  let obj := (h.slabs slab).freelist
  if obj = 0 then none
  else
    let h := h.setSlab slab ((h.slabs slab).take (h.word obj))
    some (obj, if (h.slabs slab).free = 0 then h.moveSlab slab cachep .slabsFull else h)

/-- `kmem_cache_alloc`. -/
def kmemCacheAlloc (P : PageOps π) (h : Heap π) (cachep : ℕ) : Option (ℕ × Heap π) := do
  let h ← h.acquire cachep
  let (slab, h) ← pickSlab P h cachep
  if slab = 0 then some (0, h.release cachep)
  else
    let (obj, h) ← takeObject h cachep slab
    some (obj, h.release cachep)

/-- `kmem_cache_free`. -/
def kmemCacheFree (h : Heap π) (cachep obj : ℕ) : Option (Heap π) := do
  let h ← h.acquire cachep
  let slab := alignDown obj pgSize
  let h := h.setWord obj (h.slabs slab).freelist
  let h := h.setSlab slab ((h.slabs slab).give obj)
  let h := if (h.slabs slab).inuse = 0 then h.moveSlab slab cachep .slabsFree else h
  some (h.release cachep)

end GeekToyOS
