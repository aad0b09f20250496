import GeekToyOS.Data.Radix
import GeekToyOS.Kernel.PageSource

/-!
# Page tables on i386

`src/arch/i386/mm.c` but for the window of `arch_kmap`, and the page walk of the processor. Words have 32
bits here, and a page directory refers to page tables of 1024 entries each.

A table is found by the physical address of its page. Table pages come from `mm_phy_page_alloc`, which
leaves in a page what it finds there; a call that needs a page and gets none is `none` here.

## Main definitions

* `I386.pgdirWalk`, `I386.archMapRegion` — the code, function by function
* `I386.translate` — what the processor makes of the tables
* `I386.TableLaws` — pages that are handed out are in nobody's use
* `I386.PageMapped` — what becomes of the entry of every address when one page is mapped

## Main results

* `I386.mapPage_mapped` — one turn of the loop of `arch_map_region`
-/

namespace GeekToyOS.I386

/-! ### Words, and the macros of `paging.h` -/

/-- `a + b` on 32 bits. -/
def wadd (a b : ℕ) : ℕ := (a + b) % 2 ^ 32

/-- `a - b` on 32 bits. -/
def wsub (a b : ℕ) : ℕ := (a + 2 ^ 32 - b) % 2 ^ 32

/-- `~a` on 32 bits. -/
def wnot (a : ℕ) : ℕ := 2 ^ 32 - 1 - a

/-- `align`. -/
def align (x a : ℕ) : ℕ := wadd x (sizeMask a) &&& wnot (sizeMask a)

/-- `align_down`. -/
def alignDown (x a : ℕ) : ℕ := x &&& wnot (sizeMask a)

/-- `PTE_P`. -/
def pteP : ℕ := 0x001

/-- `PTE_W`. -/
def pteW : ℕ := 0x002

/-- `PG_ALLOC`. -/
def pgAlloc : ℕ := 1

/-- `PTXSHIFT`. -/
def ptxShift : ℕ := 12

/-- `PDXSHIFT`. -/
def pdxShift : ℕ := 22

/-- `PDX`. -/
def pdx (la : ℕ) : Fin 1024 :=
  ⟨(la >>> pdxShift) &&& 0x3FF, lt_of_le_of_lt Nat.and_le_right (by decide)⟩

/-- `PTX`. -/
def ptx (la : ℕ) : Fin 1024 :=
  ⟨(la >>> ptxShift) &&& 0x3FF, lt_of_le_of_lt Nat.and_le_right (by decide)⟩

/-- `PGOFF`. -/
def pgoff (la : ℕ) : ℕ := la &&& 0xFFF

/-- `PTADDR`. -/
def ptaddr (pde : ℕ) : ℕ := pde &&& wnot 0xFFF

/-- The entry has `PTE_P`. -/
def Present (e : ℕ) : Prop := e &&& pteP ≠ 0

instance (e : ℕ) : Decidable (Present e) := inferInstanceAs (Decidable (_ ≠ _))

/-! ### The state -/

/-- Where table pages come from, on states of type `π`: `mm_phy_page_alloc(1)`, which is `none` when there
is no page. -/
structure TablePages (π : Type*) where
  alloc : π → Option (ℕ × π)

/-- Tables in memory. -/
structure Paging (π : Type*) where
  /-- the words of the page at a physical address -/
  entry : ℕ → Fin 1024 → ℕ
  /-- `kernel_pgd`, as a physical address -/
  kernelPgd : ℕ
  pages : π

variable {π : Type*} (P : TablePages π)

/-- An assignment to an entry. -/
def Paging.set (m : Paging π) (t : ℕ) (i : Fin 1024) (e : ℕ) : Paging π :=
  { m with entry := Radix.setEntry m.entry t i e }

/-! ### The code -/

/-- What `pgdir_walk` returns, what it leaves in `*paddr`, and the tables. -/
structure Walk (π : Type*) where
  pte : Option (ℕ × Fin 1024)
  paddr : Option ℕ
  mem : Paging π

/-- `pgdir_walk` where the directory refers to a table. -/
def walkTable (vaddr : ℕ) (paddr : Option ℕ) (pgdir : ℕ) (m : Paging π) : Walk π :=
  let pde := ptaddr (m.entry pgdir (pdx vaddr))
  ⟨some (pde, ptx vaddr), paddr.map fun _ =>
    (m.entry pde (ptx vaddr) &&& wnot (bitMask ptxShift)) ||| (vaddr &&& bitMask ptxShift), m⟩

/-- `pgdir_walk`. -/
def pgdirWalk (vaddr : ℕ) (paddr : Option ℕ) (flag : ℕ) (m : Paging π) (pgdir : ℕ) :
    Option (Walk π) :=
  if ¬ Present (m.entry pgdir (pdx vaddr)) then
    if flag &&& pgAlloc = 0 then some ⟨none, paddr, m⟩
    else (P.alloc m.pages).map fun r =>
      let m' : Paging π := { m with pages := r.2 }
      walkTable vaddr paddr pgdir (m'.set pgdir (pdx vaddr) (r.1 ||| (pteP ||| pteW)))
  else some (walkTable vaddr paddr pgdir m)

/-- `check_pgtable`. -/
def checkPgtable (m : Paging π) (vaddr : ℕ) : ℕ :=
  ((pgdirWalk P vaddr (some 0) 0 m m.kernelPgd).bind Walk.paddr).getD 0

/-- One turn of the loop of `arch_map_region`: the walk, and the assignment to `*pte`. -/
def mapPage (pgdir vaddr value : ℕ) (m : Paging π) : Option (Paging π) :=
  (pgdirWalk P vaddr none pgAlloc m pgdir).bind fun w =>
    w.pte.map fun pte => w.mem.set pte.1 pte.2 value

/-- The loop of `arch_map_region`. -/
def mapLoop (pgdir perm vaddrEnd : ℕ) : ℕ → ℕ → ℕ → Paging π → Option (Paging π)
  | 0, _, _, m => some m
  | fuel + 1, addr, paddr, m =>
    if addr < vaddrEnd then
      (mapPage P pgdir addr (paddr ||| pteP ||| perm) m).bind
        (mapLoop pgdir perm vaddrEnd fuel (wadd addr pgSize) (wadd paddr pgSize))
    else some m

/-- `arch_map_region`; `pgdir` is `none` for `NULL`. -/
def archMapRegion (pgdir : Option ℕ) (vaddr paddr size perm : ℕ) (m : Paging π) :
    Option (Paging π) :=
  let vaddrEnd := align (wadd vaddr size) pgSize
  let start := alignDown vaddr pgSize
  mapLoop P (pgdir.getD m.kernelPgd) perm vaddrEnd vaddrEnd start (wsub paddr (wsub vaddr start)) m

/-! ### The processor -/

/-- Where the processor finds the address `va`, or `none` for a page fault. -/
def translate (m : Paging π) (pgdir va : ℕ) : Option ℕ :=
  let pde := m.entry pgdir (pdx va)
  let pte := m.entry (ptaddr pde) (ptx va)
  if Present pde ∧ Present pte then some (ptaddr pte + va % 4096) else none

/-! ### Masks as arithmetic -/

theorem ptaddr_eq (e : ℕ) : ptaddr e = e % 2 ^ 32 / 4096 * 4096 :=
  Bits.and_highMask_mod (w := 32) (k := 12) (by norm_num) e

theorem alignDown_eq (x : ℕ) : alignDown x pgSize = x % 2 ^ 32 / 4096 * 4096 := ptaddr_eq x

theorem align_eq (x : ℕ) : align x pgSize = (x + 4095) % 2 ^ 32 / 4096 * 4096 := by
  have h := alignDown_eq (wadd x (sizeMask pgSize))
  rw [alignDown] at h
  rw [align, h, wadd, Nat.mod_mod]
  rfl

theorem pdx_val (a : ℕ) : (pdx a : ℕ) = a / 2 ^ 22 % 1024 := by
  rw [pdx, ← Nat.shiftRight_eq_div_pow]
  exact Nat.and_two_pow_sub_one_eq_mod _ 10

theorem ptx_val (a : ℕ) : (ptx a : ℕ) = a / 2 ^ 12 % 1024 := by
  rw [ptx, ← Nat.shiftRight_eq_div_pow]
  exact Nat.and_two_pow_sub_one_eq_mod _ 10

theorem pdx_eq_iff {a b : ℕ} (ha : a < 2 ^ 32) (hb : b < 2 ^ 32) :
    pdx a = pdx b ↔ a / 2 ^ 22 = b / 2 ^ 22 := by
  rw [Fin.ext_iff, pdx_val, pdx_val]
  omega

/-- An address selects its page by the two indexes. -/
theorem page_eq_iff {a b : ℕ} (ha : a < 2 ^ 32) (hb : b < 2 ^ 32) :
    pdx a = pdx b ∧ ptx a = ptx b ↔ a / 4096 = b / 4096 := by
  rw [Fin.ext_iff, Fin.ext_iff, pdx_val, pdx_val, ptx_val, ptx_val]
  omega

theorem present_iff {e : ℕ} : Present e ↔ e % 2 = 1 := by
  rw [Present, pteP, Nat.and_one_is_mod]
  omega

theorem present_or_pteP (pa perm : ℕ) : Present (pa ||| pteP ||| perm) := by
  rw [present_iff, Nat.mod_two_eq_one_iff_testBit_zero, Nat.testBit_or, Nat.testBit_or,
    show pteP.testBit 0 = true by decide, Bool.or_true, Bool.true_or]

section Link

variable {p : ℕ} (hdvd : 4096 ∣ p)

include hdvd

theorem link_eq : p ||| (pteP ||| pteW) = p + 3 :=
  Bits.or_eq_add_of_low (k := 12) hdvd (by decide)

theorem present_link : Present (p ||| (pteP ||| pteW)) := by
  rw [present_iff, link_eq hdvd]
  omega

theorem ptaddr_link (hlt : p < 2 ^ 32) : ptaddr (p ||| (pteP ||| pteW)) = p := by
  rw [link_eq hdvd, ptaddr_eq]
  omega

end Link

/-! ### Directories and tables as a tree -/

/-- An entry of a directory refers to a table if it is present, and one of a table to none. -/
def pageShape : Radix.Shape ℕ (Fin 1024) ℕ ℕ where
  child k e := if k = 1 ∧ Present e then some (ptaddr e) else none
  idx k a := if k = 0 then ptx a else pdx a
  slots _ := Set.univ

/-- The pages of `held s` are in use, and a page that is handed out was not. -/
structure TableLaws (P : TablePages π) (held : π → Set ℕ) : Prop where
  held_page : ∀ {s p}, p ∈ held s → 4096 ∣ p ∧ p < 2 ^ 32
  alloc : ∀ {s p s'}, P.alloc s = some (p, s') → p ∉ held s ∧ held s' = insert p (held s)

/-- The tables with the pages in use. -/
def Paging.store (held : π → Set ℕ) (m : Paging π) : Radix.Store ℕ (Fin 1024) ℕ :=
  ⟨m.entry, held m.pages⟩

/-- The entry at which the walk for an address ends. -/
def pageEntry (m : Paging π) (pgdir va : ℕ) : ℕ := (pageShape.find m.entry 1 pgdir va).2

variable {held : π → Set ℕ} {m m' : Paging π} {pgd va v a : ℕ}

theorem within_all (k a : ℕ) : pageShape.Within k a := fun _ _ => Set.mem_univ _

theorem child_zero (e : ℕ) : pageShape.child 0 e = none := by
  have h : ¬ ((0 : ℕ) = 1 ∧ Present e) := fun h => absurd h.1 (by decide)
  change (if (0 : ℕ) = 1 ∧ Present e then some (ptaddr e) else none) = none
  exact if_neg h

theorem child_present {e : ℕ} (h : Present e) : pageShape.child 1 e = some (ptaddr e) :=
  if_pos ⟨rfl, h⟩

theorem child_absent {e : ℕ} (h : ¬ Present e) : pageShape.child 1 e = none := if_neg fun h' => h h'.2

theorem pageEntry_of_present (h : Present (m.entry pgd (pdx va))) :
    pageEntry m pgd va = m.entry (ptaddr (m.entry pgd (pdx va))) (ptx va) :=
  congrArg Prod.snd (Radix.Shape.find_of_child (child_present h))

theorem pageEntry_of_absent (h : ¬ Present (m.entry pgd (pdx va))) :
    pageEntry m pgd va = m.entry pgd (pdx va) :=
  congrArg Prod.snd (Radix.Shape.find_of_none (child_absent h))

/-- **The processor ends at the same entry** as the code: it translates an address by the entry that
`pageEntry` names, if that is present. -/
theorem translate_eq (m : Paging π) (pgd va : ℕ) : translate m pgd va =
    if Present (pageEntry m pgd va) then some (ptaddr (pageEntry m pgd va) + va % 4096) else none := by
  rw [translate]
  by_cases h : Present (m.entry pgd (pdx va))
  · rw [pageEntry_of_present h]
    simp only [h, true_and]
  · rw [pageEntry_of_absent h, if_neg fun h' => h h'.1, if_neg h]

/-! ### One page -/

/-- The entry `v` was written for the address `va`. A table that was missing is a page `p` now, with what
was in it before. -/
structure PageMapped (P : TablePages π) (held : π → Set ℕ) (va v : ℕ) (m m' : Paging π) (pgd : ℕ) :
    Prop where
  owns : pageShape.Owns (m'.store held) 1 pgd
  kernelPgd : m'.kernelPgd = m.kernelPgd
  /-- What is free afterwards was not touched. -/
  free : ∀ p ∉ held m'.pages, m'.entry p = m.entry p
  /-- Other entries of the directory stay. -/
  dir : ∀ i ≠ pdx va, m'.entry pgd i = m.entry pgd i
  present : Present (m'.entry pgd (pdx va))
  hit : ∀ a, pdx a = pdx va → ptx a = ptx va → pageEntry m' pgd a = v
  miss : ∀ a, pdx a ≠ pdx va → pageEntry m' pgd a = pageEntry m pgd a
  old_table : Present (m.entry pgd (pdx va)) → m'.pages = m.pages ∧
    ∀ a, pdx a = pdx va → ptx a ≠ ptx va → pageEntry m' pgd a = pageEntry m pgd a
  new_table : ¬ Present (m.entry pgd (pdx va)) → ∃ p, P.alloc m.pages = some (p, m'.pages) ∧
    ∀ a, pdx a = pdx va → ptx a ≠ ptx va → pageEntry m' pgd a = m.entry p (ptx a)

variable {P}

section Step

variable {t : ℕ} (ho : pageShape.Owns (m.store held) 1 pgd)
  (hc : pageShape.child 1 (m.entry pgd (pdx va)) = some t)

include ho hc

theorem set_edit : pageShape.Edit (m.store held) ((m.set t (ptx va) v).store held) 0 t ∅ := by
  have hot : pageShape.Owns (m.store held) 0 t := ho.child (Set.mem_univ _) hc
  have h := Radix.Shape.Edit.of_write (i := ptx va) hot (Set.mem_univ _) (child_zero v)
    (Set.empty_subset _)
  simp only [Set.sdiff_empty] at h
  exact h

theorem set_owns : pageShape.Owns ((m.set t (ptx va) v).store held) 1 pgd :=
  (Radix.Shape.Edit.of_descend ho (Set.mem_univ _) hc (set_edit ho hc)).owns

theorem set_dir : (m.set t (ptx va) v).entry pgd = m.entry pgd :=
  Radix.Shape.Edit.root_eq ho (Set.mem_univ _) hc (set_edit (v := v) ho hc)

/-- **An entry of a table is written**, and no other address notices. -/
theorem pageEntry_set (a : ℕ) : pageEntry (m.set t (ptx va) v) pgd a =
    if pdx a = pdx va ∧ ptx a = ptx va then v else pageEntry m pgd a := by
  have hedit := set_edit (v := v) ho hc
  by_cases ha : pdx a = pdx va
  · have hfind : pageShape.find (m.set t (ptx va) v).entry 1 pgd a =
        pageShape.find (m.set t (ptx va) v).entry 0 t a :=
      Radix.Shape.find_of_descend_eq ho (Set.mem_univ _) hc hedit ha
    have hfind₀ : pageShape.find m.entry 1 pgd a = pageShape.find m.entry 0 t a :=
      Radix.Shape.find_of_child (show pageShape.child 1 (m.entry pgd (pdx a)) = some t by rw [ha, hc])
    have hot : pageShape.Owns (m.store held) 0 t := ho.child (Set.mem_univ _) hc
    rw [pageEntry, pageEntry, hfind, hfind₀]
    by_cases hta : ptx a = ptx va
    · rw [if_pos ⟨ha, hta⟩]
      exact congrArg Prod.snd (Radix.Shape.find_of_write_eq (child_zero v) hta)
    · rw [if_neg fun h => hta h.2]
      exact congrArg Prod.snd (Radix.Shape.find_of_write_ne hot (within_all 0 a) hta)
  · rw [if_neg fun h => ha h.1]
    exact congrArg Prod.snd
      (Radix.Shape.find_of_descend_ne ho (Set.mem_univ _) hc hedit (within_all 1 a) ha)

end Step

section Link

variable {p : ℕ} (hP : TableLaws P held) (ho : pageShape.Owns (m.store held) 1 pgd)
  (habsent : ¬ Present (m.entry pgd (pdx va))) {pages' : π} (halloc : P.alloc m.pages = some (p, pages'))

/-- The tables after a page was linked into the directory, with whatever is in it. -/
def linkTable (m : Paging π) (pgd va p : ℕ) (pages' : π) : Paging π :=
  Paging.set { m with pages := pages' } pgd (pdx va) (p ||| (pteP ||| pteW))

include hP halloc in
theorem alloc_page : 4096 ∣ p ∧ p < 2 ^ 32 := by
  obtain ⟨-, hheld⟩ := hP.alloc halloc
  exact hP.held_page (hheld ▸ Set.mem_insert p (held m.pages))

include hP halloc in
theorem child_link : pageShape.child 1 (p ||| (pteP ||| pteW)) = some p := by
  obtain ⟨hdvd, hlt⟩ := alloc_page hP halloc
  rw [child_present (present_link hdvd), ptaddr_link hdvd hlt]

variable (pgd va) in
include hP halloc in
theorem linkTable_dir : Present ((linkTable m pgd va p pages').entry pgd (pdx va)) ∧
    pageShape.child 1 ((linkTable m pgd va p pages').entry pgd (pdx va)) = some p := by
  have hself : (linkTable m pgd va p pages').entry pgd (pdx va) = p ||| (pteP ||| pteW) :=
    Radix.setEntry_self _ _ _ _
  rw [hself]
  exact ⟨present_link (alloc_page hP halloc).1, child_link hP halloc⟩

include hP ho habsent halloc

theorem link_edit : pageShape.Edit (m.store held) ((linkTable m pgd va p pages').store held) 1 pgd ∅ := by
  obtain ⟨hfresh, hheld⟩ := hP.alloc halloc
  have h : pageShape.Edit (m.store held)
      ⟨Radix.setEntry (Function.update (m.store held).mem p (m.entry p)) pgd (pdx va)
        (p ||| (pteP ||| pteW)), insert p (m.store held).held⟩ 1 pgd ∅ :=
    Radix.Shape.Edit.of_link ho (Set.mem_univ _) (child_absent habsent) hfresh (child_link hP halloc)
      fun _ => child_zero _
  have hmem : Function.update (m.store held).mem p (m.entry p) = m.entry := Function.update_eq_self p _
  rw [hmem, show (m.store held).held = held m.pages from rfl, ← hheld] at h
  exact h

variable (va) in
omit habsent in
/-- **A table is linked**: the addresses of its directory entry find what the page held before. -/
theorem pageEntry_link (a : ℕ) : pageEntry (linkTable m pgd va p pages') pgd a =
    if pdx a = pdx va then m.entry p (ptx a) else pageEntry m pgd a := by
  obtain ⟨hfresh, -⟩ := hP.alloc halloc
  have hmem : Function.update (m.store held).mem p (m.entry p) = m.entry := Function.update_eq_self p _
  by_cases ha : pdx a = pdx va
  · have hfind : pageShape.find (Radix.setEntry (Function.update (m.store held).mem p (m.entry p)) pgd
        (pdx va) (p ||| (pteP ||| pteW))) 1 pgd a = (0, m.entry p (ptx a)) :=
      Radix.Shape.find_of_link_eq ho hfresh (child_link hP halloc) (fun _ => child_zero _) ha
    rw [hmem] at hfind
    rw [if_pos ha]
    exact congrArg Prod.snd hfind
  · have hfind : pageShape.find (Radix.setEntry (Function.update (m.store held).mem p (m.entry p)) pgd
        (pdx va) (p ||| (pteP ||| pteW))) 1 pgd a = pageShape.find m.entry 1 pgd a :=
      Radix.Shape.find_of_link_ne ho hfresh (within_all 1 a) ha
    rw [hmem] at hfind
    rw [if_neg ha]
    exact congrArg Prod.snd hfind

end Link

theorem mapPage_isSome (hpages : ∀ s, (P.alloc s).isSome) (pgd va v : ℕ) (m : Paging π) :
    (mapPage P pgd va v m).isSome := by
  obtain ⟨r, hr⟩ := Option.isSome_iff_exists.mp (hpages m.pages)
  rw [mapPage, pgdirWalk]
  by_cases hp : Present (m.entry pgd (pdx va))
  · rw [if_neg (not_not.mpr hp)]
    rfl
  · rw [if_pos hp, if_neg (by decide), hr]
    rfl

/-- If there is a table for the address already, the walk ends at its entry, and mapping the page writes
that entry. -/
theorem PageMapped.of_table (ho : pageShape.Owns (m.store held) 1 pgd)
    (hp : Present (m.entry pgd (pdx va))) :
    PageMapped P held va v m (m.set (ptaddr (m.entry pgd (pdx va))) (ptx va) v) pgd := by
  have hc := child_present hp
  have hentry := pageEntry_set (v := v) ho hc
  have hdir := set_dir (v := v) ho hc
  have ht : ptaddr (m.entry pgd (pdx va)) ∈ held m.pages := (ho.child (Set.mem_univ _) hc).mem_held
  exact {
    owns := set_owns ho hc
    kernelPgd := rfl
    free := fun p hpfree => Radix.setEntry_of_ne fun hpt => hpfree (hpt ▸ ht)
    dir := fun i _ => congrFun hdir i
    present := (congrFun hdir (pdx va)).symm ▸ hp
    hit := fun a hd ht => (hentry a).trans (if_pos ⟨hd, ht⟩)
    miss := fun a hd => (hentry a).trans (if_neg fun h => hd h.1)
    old_table := fun _ => ⟨rfl, fun a _ ht => (hentry a).trans (if_neg fun h => ht h.2)⟩
    new_table := fun habs => absurd hp habs }

/-- A page is linked as the table, and its entry is written. -/
theorem PageMapped.of_link {p : ℕ} {pages' : π} (hP : TableLaws P held)
    (ho : pageShape.Owns (m.store held) 1 pgd) (hp : ¬ Present (m.entry pgd (pdx va)))
    (halloc : P.alloc m.pages = some (p, pages')) :
    PageMapped P held va v m ((linkTable m pgd va p pages').set p (ptx va) v) pgd := by
  obtain ⟨-, hheld⟩ := hP.alloc halloc
  have hedit := link_edit hP ho hp halloc
  obtain ⟨hpres, hc⟩ := linkTable_dir pgd va hP halloc
  have hlink := pageEntry_link va hP ho halloc
  have hentry := pageEntry_set (v := v) hedit.owns hc
  have hdir := set_dir (v := v) hedit.owns hc
  exact {
    owns := set_owns hedit.owns hc
    kernelPgd := rfl
    free := fun q hq => by
      have hq' : q ∉ insert p (held m.pages) := hheld ▸ hq
      have hqp : q ≠ p := fun h => hq' (h ▸ Set.mem_insert q _)
      have hqpgd : q ≠ pgd := fun h => hq' (Set.mem_insert_of_mem p (h ▸ ho.mem_held))
      exact (Radix.setEntry_of_ne hqp).trans (Radix.setEntry_of_ne hqpgd)
    dir := fun i hi => (congrFun hdir i).trans (Radix.setEntry_of_slot_ne hi)
    present := (congrFun hdir (pdx va)).symm ▸ hpres
    hit := fun a hd ht => (hentry a).trans (if_pos ⟨hd, ht⟩)
    miss := fun a hd => by rw [hentry a, if_neg fun h => hd h.1, hlink a, if_neg hd]
    old_table := fun hp' => absurd hp' hp
    new_table := fun _ => ⟨p, halloc, fun a hd ht => by
      rw [hentry a, if_neg fun h => ht h.2, hlink a, if_pos hd]⟩ }

/-- **One turn of the loop of `arch_map_region`** maps its page, with a new table if there is none. -/
theorem mapPage_mapped (hP : TableLaws P held) (ho : pageShape.Owns (m.store held) 1 pgd)
    (h : mapPage P pgd va v m = some m') : PageMapped P held va v m m' pgd := by
  rw [mapPage, pgdirWalk] at h
  by_cases hp : Present (m.entry pgd (pdx va))
  · rw [if_neg (not_not.mpr hp)] at h
    obtain rfl := Option.some.inj h
    exact .of_table ho hp
  · rw [if_pos hp, if_neg (by decide), Option.bind_map] at h
    obtain ⟨⟨p, pages'⟩, halloc, h⟩ := Option.bind_eq_some_iff.mp h
    obtain ⟨hpres, hc⟩ := linkTable_dir pgd va hP halloc
    have hpt : ptaddr ((linkTable m pgd va p pages').entry pgd (pdx va)) = p :=
      Option.some.inj ((child_present hpres).symm.trans hc)
    have heq : (linkTable m pgd va p pages').set
        (ptaddr ((linkTable m pgd va p pages').entry pgd (pdx va))) (ptx va) v = m' := Option.some.inj h
    rw [hpt] at heq
    subst heq
    exact .of_link hP ho hp halloc

end GeekToyOS.I386
