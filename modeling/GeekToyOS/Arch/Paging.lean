import GeekToyOS.Data.Radix
import GeekToyOS.Kernel.PageSource

/-!
# Page tables on x86_64

`src/arch/x86_64/mm.c`, with `acpi_remap` of `drivers/acpi.c` and `arch_smp_init` of `smp.c`, and the
page walk of the processor.

A table is found by the physical address of its page; the code reaches it through the direct map. Table
pages come from `mm_phy_page_zalloc` and go back to `mm_phy_page_free`; a call that needs a page and
gets none is `none` here.

## Main definitions

* `pgdirWalk`, `mapRegion`, `archMapRegion` — the code, function by function
* `archKmap`, `acpiRemap`, `archSmpInit` — and what uses them
* `hwWalk`, `translate` — what the processor makes of the tables
-/

namespace GeekToyOS

/-! ### The macros of `paging.h` -/

/-- `~a` on 64 bits. -/
def wnot (a : ℕ) : ℕ := 2 ^ 64 - 1 - a

/-- `PTE_P`. -/
def pteP : ℕ := 0x001

/-- `PTE_W`. -/
def pteW : ℕ := 0x002

/-- `PTE_PS`. -/
def ptePS : ℕ := 0x080

/-- `PTE_G`. -/
def pteG : ℕ := 0x100

/-- `PG_ATTR_MASK`. -/
def pgAttrMask : ℕ := 0xFFF

/-- `PG_CLEAR`. -/
def pgClear : ℕ := 0x1000

/-- `PG_ALLOC`. -/
def pgAlloc : ℕ := 4

/-- `PG_2M`. -/
def pg2M : ℕ := 1

/-- `PG_1G`. -/
def pg1G : ℕ := 2

/-- `PTXSHIFT`. -/
def ptxShift : ℕ := 12

/-- `PDXSHIFT`. -/
def pdxShift : ℕ := 21

/-- `PUXSHIFT`. -/
def puxShift : ℕ := 30

/-- `PGXSHIFT`. -/
def pgxShift : ℕ := 39

/-- `NPDENTRIES`, and `NPTENTRIES`. -/
def npdEntries : ℕ := 512

/-- `PTSIZE`. -/
def ptSize : ℕ := pgSize * npdEntries

/-- `PGOFF`. -/
def pgoff (la : ℕ) : ℕ := la &&& 0xFFF

/-- `PTADDR`. -/
def ptaddr (pde : ℕ) : ℕ := pde &&& wnot 0xFFF

/-- `DEFINE_PD_INDEXER`. -/
def pdIndexer (shift la : ℕ) : Fin 512 :=
  ⟨(la >>> shift) &&& 0x1FF, lt_of_le_of_lt Nat.and_le_right (by decide)⟩

/-- `PGX`. -/
def pgx (la : ℕ) : Fin 512 := pdIndexer pgxShift la

/-- `PUX`. -/
def pux (la : ℕ) : Fin 512 := pdIndexer puxShift la

/-- `PDX`. -/
def pdx (la : ℕ) : Fin 512 := pdIndexer pdxShift la

/-- `PTX`. -/
def ptx (la : ℕ) : Fin 512 := pdIndexer ptxShift la

/-- The entry has `PTE_P`. -/
def Present (e : ℕ) : Prop := e &&& pteP ≠ 0

/-- The entry has `PTE_PS`. -/
def Large (e : ℕ) : Prop := e &&& ptePS ≠ 0

instance (e : ℕ) : Decidable (Present e) := inferInstanceAs (Decidable (_ ≠ _))

instance (e : ℕ) : Decidable (Large e) := inferInstanceAs (Decidable (_ ≠ _))

/-! ### The state -/

/-- Where table pages come from, on states of type `π`. `zalloc` is `none` when there is no page. -/
structure TablePages (π : Type*) where
  /-- `mm_phy_page_zalloc(1)`, but for the zeroing -/
  zalloc : π → Option (ℕ × π)
  /-- `mm_phy_page_free(.., 1)` -/
  free : π → ℕ → π

/-- Tables in memory. -/
structure Paging (π : Type*) where
  /-- the entries of the table in the page at a physical address -/
  entry : ℕ → Fin 512 → ℕ
  /-- `kernel_pgd`, as a physical address -/
  kernelPgd : ℕ
  pages : π

variable {π : Type*} (P : TablePages π)

namespace Paging

/-- An assignment to an entry. -/
def set (m : Paging π) (t : ℕ) (i : Fin 512) (e : ℕ) : Paging π :=
  { m with entry := Radix.setEntry m.entry t i e }

/-- `mm_phy_page_zalloc(1)`. -/
def zalloc (m : Paging π) : Option (ℕ × Paging π) :=
  (P.zalloc m.pages).map fun r =>
    (r.1, { m with entry := Function.update m.entry r.1 fun _ => 0, pages := r.2 })

/-- `mm_phy_page_free(addr, 1)`. -/
def free (m : Paging π) (addr : ℕ) : Paging π := { m with pages := P.free m.pages addr }

end Paging

/-! ### `pgdir_walk` -/

/-- The entries that `expand_page` puts in place of `pde`. -/
def expandRow (pde tableLevel : ℕ) (i : Fin 512) : ℕ :=
  wadd (ptaddr pde) (wmul (if tableLevel ≠ 0 then ptSize else pgSize) i) |||
    ((if tableLevel ≠ 0 then ptePS else 0) ||| pgoff (pgoff pde &&& wnot ptePS))

/-- `expand_page`; `pde` is entry `i` of the table `t`. -/
def expandPage (m : Paging π) (t : ℕ) (i : Fin 512) (tableLevel : ℕ) : Option (Paging π) :=
  (m.zalloc P).map fun r =>
    let m' := r.2.set t i (r.1 ||| (pteW ||| pteP))
    { m' with entry := Function.update m'.entry r.1 (expandRow (m.entry t i) tableLevel) }

/-- What `pgdir_walk` returns, what it leaves in `*paddr`, and the tables. -/
structure Walk (π : Type*) where
  pte : Option (ℕ × Fin 512)
  paddr : Option ℕ
  mem : Paging π

/-- `*pte = value`. -/
def Walk.assign (value : ℕ) (w : Walk π) : Option (Paging π) :=
  w.pte.map fun pte => w.mem.set pte.1 pte.2 value

/-- What `pgdir_walk` stores into `*paddr`, if `paddr` is not `NULL`. -/
def storePaddr (paddr : Option ℕ) (shift e vaddr : ℕ) : Option ℕ :=
  paddr.map fun _ => (e &&& wnot (bitMask shift)) ||| (vaddr &&& bitMask shift)

section Walk

variable (vaddr : ℕ) (paddr : Option ℕ) (flag : ℕ)

/-- `pgdir_walk` at the page table. -/
def walkPt (m : Paging π) (t : ℕ) : Option (Walk π) :=
  some ⟨some (t, ptx vaddr), storePaddr paddr ptxShift (m.entry t (ptx vaddr)) vaddr, m⟩

/-- `pgdir_walk` at a directory whose entries map pages of `1 << shift` bytes; `large` is the flag that
asks for such a page, `tableLevel` the argument of `expand_page`, and `next` the rest of the walk. -/
def walkDir (shift large tableLevel : ℕ) (next : Paging π → ℕ → Option (Walk π)) (m : Paging π)
    (t : ℕ) : Option (Walk π) :=
  let i := pdIndexer shift vaddr
  if ¬ Present (m.entry t i) then
    if flag &&& pgAlloc = 0 then some ⟨none, paddr, m⟩
    else if flag &&& large ≠ 0 then some ⟨some (t, i), paddr, m⟩
    else (m.zalloc P).bind fun r =>
      let m' := r.2.set t i (r.1 ||| (pteP ||| pteW))
      next m' (ptaddr (m'.entry t i))
  else if Large (m.entry t i) then
    if flag &&& pgAlloc = 0 then
      some ⟨some (t, i), storePaddr paddr shift (m.entry t i) vaddr, m⟩
    else (expandPage P m t i tableLevel).bind fun m' => next m' (ptaddr (m'.entry t i))
  else if flag &&& large ≠ 0 ∧ flag &&& pgAlloc ≠ 0 then
    some ⟨some (t, i), paddr, m.free P (ptaddr (m.entry t i))⟩
  else next m (ptaddr (m.entry t i))

/-- `pgdir_walk` from the page directory. -/
def walkPd : Paging π → ℕ → Option (Walk π) :=
  walkDir P vaddr paddr flag pdxShift pg2M 0 (walkPt vaddr paddr)

/-- `pgdir_walk` from the page-upper directory. -/
def walkPud : Paging π → ℕ → Option (Walk π) :=
  walkDir P vaddr paddr flag puxShift pg1G 1 (walkPd P vaddr paddr flag)

/-- `pgdir_walk`. -/
def pgdirWalk (m : Paging π) (pgdir : ℕ) : Option (Walk π) :=
  if ¬ Present (m.entry pgdir (pgx vaddr)) then
    if flag &&& pgAlloc = 0 then some ⟨none, paddr, m⟩
    else (m.zalloc P).bind fun r =>
      let m' := r.2.set pgdir (pgx vaddr) (r.1 ||| (pteP ||| pteW))
      walkPud P vaddr paddr flag m' (ptaddr (m'.entry pgdir (pgx vaddr)))
  else walkPud P vaddr paddr flag m (ptaddr (m.entry pgdir (pgx vaddr)))

end Walk

/-- `check_pgtable`. -/
def checkPgtable (m : Paging π) (vaddr : ℕ) : ℕ :=
  ((pgdirWalk P vaddr (some 0) 0 m m.kernelPgd).bind Walk.paddr).getD 0

/-! ### `arch_map_region` -/

/-- One turn of the loop of `__map_region`: the walk, and the assignment to `*pte`. -/
def mapPage (pgdir tableLevel vaddr value : ℕ) (m : Paging π) : Option (Paging π) :=
  (pgdirWalk P vaddr none (pgAlloc ||| tableLevel) m pgdir).bind (Walk.assign value)

/-- `pg_size` in `__map_region`. -/
def levelSize (tableLevel : ℕ) : ℕ :=
  if tableLevel = 1 then ptSize else if tableLevel = 2 then ptSize * npdEntries else pgSize

/-- What `__map_region` assigns to `*pte`. -/
def leafValue (paddr attr tableLevel : ℕ) : ℕ :=
  paddr ||| attr ||| (if tableLevel ≠ 0 then ptePS else 0)

/-- The loop of `__map_region`. -/
def mapLoop (pgdir attr tableLevel vaddrEnd : ℕ) : ℕ → ℕ → ℕ → Paging π → Option (Paging π)
  | 0, _, _, m => some m
  | fuel + 1, addr, paddr, m =>
    if addr < vaddrEnd then
      (mapPage P pgdir tableLevel addr (leafValue paddr attr tableLevel) m).bind
        (mapLoop pgdir attr tableLevel vaddrEnd fuel (wadd addr (levelSize tableLevel))
          (wadd paddr (levelSize tableLevel)))
    else some m

/-- `__map_region`. The loop turns less than `vaddr_end` times. -/
def mapRegion (pgdir vaddr paddr size attr tableLevel : ℕ) (m : Paging π) : Option (Paging π) :=
  if size = 0 then some m
  else
    let vaddrEnd := align (wadd vaddr size) (levelSize tableLevel)
    let start := alignDown vaddr (levelSize tableLevel)
    mapLoop P pgdir attr tableLevel vaddrEnd vaddrEnd start (wsub paddr (wsub vaddr start)) m

/-- The attributes that `arch_map_region` passes on. -/
def regionPerm (permFlag : ℕ) : ℕ :=
  if permFlag &&& wnot pgAttrMask &&& pgClear = 0 then permFlag &&& pgAttrMask ||| pteP
  else permFlag &&& pgAttrMask

/-- `arch_map_region`; `page1GB` is `check_cpu_feature(FEAT_X86_Page1GB)`, and `pgdir` is `none` for
`NULL`. -/
def archMapRegion (page1GB : Bool) (pgdir : Option ℕ) (vaddr paddr size permFlag : ℕ)
    (m : Paging π) : Option (Paging π) :=
  let pgd := pgdir.getD m.kernelPgd
  let delta := wsub vaddr paddr
  let vaS1 := align vaddr ptSize
  let vaE1 := alignDown (wadd vaddr size) ptSize
  let vaS2 := align vaddr (ptSize * npdEntries)
  let vaE2 := alignDown (wadd vaddr size) (ptSize * npdEntries)
  let vaEnd := align (wadd vaddr size) pgSize
  let va := alignDown vaddr pgSize
  -- the chunk `[start, stop)`, at one level
  let chunk := fun start stop =>
    mapRegion P pgd start (wsub start delta) (wsub stop start) (regionPerm permFlag)
  if vaS1 < vaE1 then
    (chunk va vaS1 0 m).bind fun m =>
    (if vaS2 < vaE2 ∧ page1GB then
      (chunk vaS1 vaS2 1 m).bind fun m => (chunk vaS2 vaE2 2 m).bind (chunk vaE2 vaE1 1)
    else chunk vaS1 vaE1 1 m).bind (chunk vaE1 vaEnd 0)
  else chunk va vaEnd 0 m

/-- `PHY_BOOT_BASE`. -/
def phyBootBase : ℕ := 0x40000000

/-- `arch_map_kernel_page`. -/
def archMapKernelPage (page1GB : Bool) (maxPhyAddr : ℕ) (m : Paging π) : Option (Paging π) :=
  if maxPhyAddr ≤ phyBootBase then some m
  else archMapRegion P page1GB none (kaddr phyBootBase) phyBootBase (wsub maxPhyAddr phyBootBase)
    (pteW ||| pteG) m

/-- `arch_kmap`: the address it returns, and the tables. -/
def archKmap (page1GB : Bool) (phy sz : ℕ) (m : Paging π) : Option (ℕ × Paging π) :=
  let va := kaddr (ptaddr phy)
  (if checkPgtable P m va ≠ ptaddr phy then
    archMapRegion P page1GB none va (ptaddr phy) sz (pteW ||| pteG) m
  else some m).map fun m' => (wadd va (pgoff phy), m')

/-- `arch_clear_low_page`. -/
def archClearLowPage (m : Paging π) : Paging π := m.set m.kernelPgd 0 0

/-- `sizeof(struct acpi_header)`. -/
def acpiHeaderSize : ℕ := 36

/-- `acpi_remap`; `length` is what it reads from `header->length`. -/
def acpiRemap (page1GB : Bool) (phy length : ℕ) (m : Paging π) : Option (ℕ × Paging π) :=
  (archKmap P page1GB phy acpiHeaderSize m).bind fun r => archKmap P page1GB phy length r.2

/-- `MP_BASE`. -/
def mpBase : ℕ := 0x8000

/-- `arch_smp_init`; `mpSize` is `mp_end - mp_start`, and `boot` what starting the other processors
does to the page allocator. -/
def archSmpInit (page1GB : Bool) (mpSize : ℕ) (boot : π → π) (m : Paging π) :
    Option (Paging π) :=
  (archMapRegion P page1GB none mpBase mpBase mpSize pteW m).bind fun m =>
    (archMapRegion P page1GB none mpBase 0 mpSize pgClear { m with pages := boot m.pages }).map
      archClearLowPage

/-! ### The processor -/

/-- The page that an entry refers to: bits 12 to 51. -/
def hwTable (e : ℕ) : ℕ := e % 2 ^ 52 / 4096 * 4096

/-- The bits that an entry of a table of level `k` leaves to the address. -/
def levelShift (k : ℕ) : ℕ := 12 + 9 * k

/-- The walk of the processor from the table `t` of level `k`: the level and the entry it ends at, or
`none` for a page fault. Tables of level 0 to 3 are page tables, directories, upper directories and the
top level, where `PTE_PS` is reserved. -/
def hwWalk (entry : ℕ → Fin 512 → ℕ) : ℕ → ℕ → ℕ → Option (ℕ × ℕ)
  | 0, t, va =>
    let e := entry t (pdIndexer (levelShift 0) va)
    if Present e then some (0, e) else none
  | k + 1, t, va =>
    let e := entry t (pdIndexer (levelShift (k + 1)) va)
    if ¬ Present e then none
    else if Large e then if k + 1 = 3 then none else some (k + 1, e)
    else hwWalk entry k (hwTable e) va

/-- What an address is mapped to. -/
structure Translation where
  phys : ℕ
  /-- the attribute bits but `PTE_PS` -/
  attr : ℕ
  /-- bits 52 to 63 of the entry -/
  high : ℕ
deriving DecidableEq, Repr

/-- The physical address that a leaf `e` of level `k` gives `va`. -/
def hwPhys (k e va : ℕ) : ℕ :=
  e % 2 ^ 52 / 2 ^ levelShift k * 2 ^ levelShift k + va % 2 ^ levelShift k

/-- The translation by a leaf. -/
def leafTranslation (va : ℕ) (x : ℕ × ℕ) : Translation where
  phys := hwPhys x.1 x.2 va
  attr := x.2 &&& (0xFFF - ptePS)
  high := x.2 % 2 ^ 64 / 2 ^ 52

/-- Bits 47 to 63 of the address are equal. -/
def Canonical (va : ℕ) : Prop := va < 2 ^ 47 ∨ 2 ^ 64 - 2 ^ 47 ≤ va ∧ va < 2 ^ 64

instance (va : ℕ) : Decidable (Canonical va) := inferInstanceAs (Decidable (_ ∨ _))

/-- The translation of an address; other addresses than the canonical ones have none. -/
def translate (m : Paging π) (pgd va : ℕ) : Option Translation :=
  if Canonical va then (hwWalk m.entry 3 pgd va).map (leafTranslation va) else none

end GeekToyOS
