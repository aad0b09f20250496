import GeekToyOS.Kernel.KmallocInvariant

/-!
# Runs of `kmalloc` and `kfree`

After `kmem_init`, a sequence of `kmalloc` and `kfree`; between calls the memory that was returned may
be written to. Beside the memory, a run keeps for every live block what `kmalloc` took for it.

Requests for more than 2048 bytes ask the page allocator for as many pages as they fill, and that is
not always a number it serves: of a request for three pages nothing is known. Where all requests ask
for a power of two, blocks are exclusive and `kfree` gives back what was taken.

## Main definitions

* `KmallocStep` — one call
* `HeapExclusive` — the property of a state
* `AsksPowerOfTwo` — the call asks for a number of pages that the page allocator serves

## Main results

* `heap_exclusive` — blocks are exclusive throughout every run whose calls are all `AsksPowerOfTwo`
-/

namespace GeekToyOS

open Chain

variable {π : Type*} {P : PageOps π} {managed : Set ℕ} {granted : π → Set (ℕ × ℕ)}
  {slabCache n : ℕ} {h h' : Heap π} {c a o : ℕ} {S : ℕ → SlabList → List ℕ} {F : ℕ → ℕ → List ℕ}

/-- What a request was served with: an object of a cache, or pages. -/
inductive Took
  | slot (c : ℕ)
  | pages (pfn n : ℕ)
deriving DecidableEq, Repr

/-- A live block. -/
structure Block where
  ptr : ℕ
  size : ℕ
  took : Took
deriving DecidableEq, Repr

/-- What `kmalloc` takes for a request. -/
def kmallocTook (h : Heap π) (size ptr : ℕ) : Took :=
  if size > maxKmallocCacheSize then .pages (paddr ptr >>> pgShift) (kmallocPages size)
  else .slot (h.kmallocCaches (kmallocSizeIndex size))

/-- Giving back what was taken: one object to its cache, or the pages. -/
def giveBack (P : PageOps π) (h : Heap π) (b : Block) : Option (Heap π) :=
  match b.took with
  | .slot c => kmemCacheFree h c b.ptr
  | .pages pfn n => some { h with pages := P.free h.pages (pfn * 4096) n }

/-- The memory and the live blocks. -/
structure KmallocRun (π : Type*) where
  heap : Heap π
  live : List Block

/-- The calls. -/
inductive KmallocOp
  | kmalloc (size : ℕ)
  | kfree (ptr : ℕ)
  | store (x v : ℕ)

/-- One call. A `store` writes a word into a live block. -/
inductive KmallocStep (P : PageOps π) : KmallocRun π → KmallocOp → KmallocRun π → Prop
  | kmalloc {st : KmallocRun π} {size ptr : ℕ} {h : Heap π} (hsize : 1 ≤ size) (hlt : size < 2 ^ 64)
      (hcall : kmalloc P st.heap size = some (ptr, h)) :
      KmallocStep P st (.kmalloc size)
        ⟨h, if ptr = 0 then st.live else ⟨ptr, size, kmallocTook st.heap size ptr⟩ :: st.live⟩
  | kfree {st : KmallocRun π} {b : Block} {h : Heap π} (hb : b ∈ st.live)
      (hcall : kfree P st.heap b.ptr = some h) :
      KmallocStep P st (.kfree b.ptr) ⟨h, st.live.erase b⟩
  | store {st : KmallocRun π} {b : Block} {x v : ℕ} (hb : b ∈ st.live) (hx : b.ptr ≤ x)
      (hx' : x < b.ptr + b.size) :
      KmallocStep P st (.store x v) ⟨st.heap.setWord x v, st.live⟩

/-- Blocks do not overlap. -/
def Block.Apart (b b' : Block) : Prop := b.ptr + b.size ≤ b'.ptr ∨ b'.ptr + b'.size ≤ b.ptr

/-- **The heap is exclusive**: live blocks overlap neither each other nor a slab header, and freeing a
block gives back what was taken for it. -/
structure HeapExclusive (P : PageOps π) (st : KmallocRun π) : Prop where
  apart : st.live.Pairwise Block.Apart
  headers : ∀ b ∈ st.live, ∀ c a, IsSlabOf P st.heap c a →
    b.ptr + b.size ≤ a ∨ a + sizeofSlab ≤ b.ptr
  returns : ∀ b ∈ st.live, kfree P st.heap b.ptr = giveBack P st.heap b

/-- The call is no request for a number of pages other than a power of two up to
`2 ^ (MAX_ORDER - 1)`. -/
def AsksPowerOfTwo (_ : KmallocRun π) : KmallocOp → Prop
  | .kmalloc size => size > maxKmallocCacheSize → ∃ k < maxOrder, kmallocPages size = 2 ^ k
  | _ => True

/-! ### Live blocks -/

/-- What is true of a live block. -/
def Block.Ok (P : PageOps π) (granted : π → Set (ℕ × ℕ)) (n : ℕ) (h : Heap π)
    (S : ℕ → SlabList → List ℕ) (F : ℕ → ℕ → List ℕ) (b : Block) : Prop :=
  match b.took with
  | .slot c => (∃ i < n, c = h.kmallocCaches i) ∧ b.size ≤ (h.caches c).objSize ∧
      LiveSlot (h.caches c) (S c) (F c) b.ptr
  | .pages pfn m => b.ptr = slabAt pfn ∧ pfn < 2 ^ 35 ∧ 0 < m ∧ b.size ≤ m * 4096 ∧
      (pfn, m) ∈ granted h.pages ∧ (∀ i ∈ rangePages (pfn, m), ¬ (P.page h.pages i).IsSlab) ∧
      (P.page h.pages pfn).u = m

theorem paddr_slabAt {pfn : ℕ} (h : pfn < 2 ^ 35) : paddr (slabAt pfn) = pfn * 4096 := by
  have hdef : slabAt pfn = kernBase + pfn * 4096 := rfl
  rw [paddr_eq (by omega) (by rw [hdef, kernBase]; omega), hdef, Nat.add_sub_cancel_left]

theorem shiftRight_pgShift (pfn : ℕ) : (pfn * 4096) >>> pgShift = pfn := by
  rw [pgShift, Nat.shiftRight_eq_div_pow]
  omega

theorem mem_rangePages_self {pfn m : ℕ} (hm : 0 < m) : pfn ∈ rangePages (pfn, m) := by
  simp only [rangePages, Set.mem_Ico]
  omega

/-- A range without slab pages is apart from a slab. -/
theorem apart_of_not_isSlab {p pfn m : ℕ} {s : π}
    (hnot : ∀ i ∈ rangePages (pfn, m), ¬ (P.page s i).IsSlab) (hp : (P.page s p).IsSlab) :
    slabAt p + 4096 ≤ slabAt pfn ∨ slabAt pfn + m * 4096 ≤ slabAt p := by
  have hout : p ∉ rangePages (pfn, m) := fun hm => hnot p hm hp
  rw [rangePages, Set.mem_Ico] at hout
  rw [slabAt, slabAt]
  dsimp only at hout
  omega

namespace Block.Ok

variable {b b' : Block}

/-- A block overlaps the header of no slab. -/
theorem header (hH : HeapInv P managed granted slabCache n h S F)
    (hb : b.Ok P granted n h S F) (ha : IsSlabOf P h c a) :
    b.ptr + b.size ≤ a ∨ a + sizeofSlab ≤ b.ptr := by
  obtain ⟨p, -, rfl, hs, -⟩ := ha
  rw [Block.Ok] at hb
  split at hb
  · rename_i c' _
    obtain ⟨hc', hsize, l, a, ha, hslot, -⟩ := hb
    have hI := hH.cache c' (Or.inr hc')
    obtain ⟨q, -, rfl, -⟩ := hI.slot_page ha hslot
    obtain ⟨h1, h2⟩ := hslot.bounds hI.shape
    rw [hI.shape.obj_size] at hsize
    rw [slabAt, sizeofSlab] at *
    omega
  · obtain ⟨hptr, -, -, hsize, -, hnot, -⟩ := hb
    have := apart_of_not_isSlab hnot hs
    rw [sizeofSlab]
    omega

/-- A block overlaps no free object of any cache. -/
theorem free (hH : HeapInv P managed granted slabCache n h S F)
    (hb : b.Ok P granted n h S F) (hc : InFamily slabCache n h c) {l : SlabList}
    (ha : a ∈ S c l) (ho : o ∈ F c a) : b.ptr + b.size ≤ o ∨ o + (h.caches c).size ≤ b.ptr := by
  have hI := hH.cache c hc
  have hslot := (hI.slab_ok l a ha).slots o ho
  rw [Block.Ok] at hb
  split at hb
  · rename_i c' _
    obtain ⟨hc', hsize, l', a', ha', hslot', hnot⟩ := hb
    have hI' := hH.cache c' (Or.inr hc')
    have hne : o ≠ b.ptr := by
      rintro rfl
      obtain rfl := hI.slab_eq hI' ha ha' hslot hslot'
      obtain rfl := hI.cache_eq hI' ha ha'
      exact hnot ho
    have hapart := hI.apart hI' ha ha' hslot hslot' hne
    rw [hI'.shape.obj_size] at hsize
    omega
  · obtain ⟨hptr, -, -, hsize, -, hnot, -⟩ := hb
    obtain ⟨p, -, rfl, -, hs, -⟩ := (hI.slab_ok l a ha).page
    obtain ⟨h1, h2⟩ := hslot.bounds hI.shape
    have := apart_of_not_isSlab hnot hs
    rw [sizeofSlab] at h1
    omega

/-- **Blocks do not overlap**, be they objects or pages. -/
theorem apart (hH : HeapInv P managed granted slabCache n h S F)
    (hb : b.Ok P granted n h S F) (hb' : b'.Ok P granted n h S F)
    (hne : b.ptr ≠ b'.ptr) : b.Apart b' := by
  rw [Block.Ok] at hb hb'
  rw [Block.Apart]
  split at hb
  · rename_i c _
    obtain ⟨hc, hsize, l, a, ha, hslot, -⟩ := hb
    have hI := hH.cache c (Or.inr hc)
    rw [hI.shape.obj_size] at hsize
    split at hb'
    · rename_i c' _
      obtain ⟨hc', hsize', l', a', ha', hslot', -⟩ := hb'
      have hI' := hH.cache c' (Or.inr hc')
      have hapart := hI.apart hI' ha ha' hslot hslot' hne
      rw [hI'.shape.obj_size] at hsize'
      omega
    · obtain ⟨hptr', -, -, hsize', -, hnot, -⟩ := hb'
      obtain ⟨p, -, rfl, -, hs, -⟩ := (hI.slab_ok l a ha).page
      obtain ⟨h1, h2⟩ := hslot.bounds hI.shape
      have := apart_of_not_isSlab hnot hs
      omega
  · rename_i pfn m _
    obtain ⟨hptr, -, hm, hsize, hgr, hnot, -⟩ := hb
    split at hb'
    · rename_i c' _
      obtain ⟨hc', hsize', l', a', ha', hslot', -⟩ := hb'
      have hI' := hH.cache c' (Or.inr hc')
      rw [hI'.shape.obj_size] at hsize'
      obtain ⟨p, -, rfl, -, hs, -⟩ := (hI'.slab_ok l' a' ha').page
      obtain ⟨h1, h2⟩ := hslot'.bounds hI'.shape
      have := apart_of_not_isSlab hnot hs
      omega
    · rename_i pfn' m' _
      obtain ⟨hptr', -, hm', hsize', hgr', -⟩ := hb'
      have hpfn : (pfn, m) ≠ (pfn', m') := by
        rintro he
        rw [(Prod.mk.inj he).1] at hptr
        exact hne (hptr.trans hptr'.symm)
      have hdis := Set.disjoint_left.mp (hH.disjoint hgr hgr' hpfn)
      have h1 := @hdis pfn'
      have h2 := @hdis pfn
      simp only [rangePages, Set.mem_Ico] at h1 h2
      rw [hptr, hptr', slabAt, slabAt]
      omega

/-- A block that starts where another does was served in the same way. -/
theorem took_eq (hH : HeapInv P managed granted slabCache n h S F) (hb : b.Ok P granted n h S F)
    (hb' : b'.Ok P granted n h S F) (heq : b.ptr = b'.ptr) : b.took = b'.took := by
  rw [Block.Ok] at hb hb'
  -- a slot lies behind a header, so it is not the start of a page
  have hslot : ∀ {c}, InFamily slabCache n h c → ∀ {x pfn}, LiveSlot (h.caches c) (S c) (F c) x →
      x ≠ slabAt pfn := by
    rintro c hc x pfn ⟨l, a, ha, hslot, -⟩ rfl
    obtain ⟨p, -, rfl, -⟩ := (hH.cache c hc).slot_page ha hslot
    have hbounds := hslot.bounds (hH.cache c hc).shape
    have := (hH.cache c hc).shape.size_ge
    rw [slabAt, slabAt, sizeofSlab] at hbounds
    omega
  split at hb
  · rename_i c htook
    obtain ⟨hc, -, hlive⟩ := hb
    split at hb'
    · rename_i c' htook'
      obtain ⟨hc', -, l', a', ha', hslot', -⟩ := hb'
      obtain ⟨l, a, ha, hslot, -⟩ := hlive
      have hI := hH.cache c (Or.inr hc)
      have hI' := hH.cache c' (Or.inr hc')
      obtain rfl := hI.slab_eq hI' ha ha' hslot (heq ▸ hslot')
      rw [htook, htook', hI.cache_eq hI' ha ha']
    · exact absurd (heq.trans hb'.1) (hslot (Or.inr hc) hlive)
  · rename_i pfn m htook
    obtain ⟨hptr, -, hm, -, hgr, -⟩ := hb
    split at hb'
    · exact absurd (heq.symm.trans hptr) (hslot (Or.inr hb'.1) hb'.2.2)
    · rename_i pfn' m' htook'
      obtain ⟨hptr', -, hm', -, hgr', -⟩ := hb'
      obtain rfl : pfn = pfn' := slabAt_inj (hptr.symm.trans (heq.trans hptr'))
      have hsame : (pfn, m) = (pfn, m') := by
        by_contra hne
        exact Set.disjoint_left.mp (hH.disjoint hgr hgr' hne) (mem_rangePages_self hm)
          (mem_rangePages_self hm')
      rw [htook, htook', (Prod.mk.inj hsame).2]

/-- **`kfree` gives back what was taken**: it tells objects from pages, finds the cache, and knows the
number of pages. -/
theorem returns (hH : HeapInv P managed granted slabCache n h S F) (hb : b.Ok P granted n h S F) :
    kfree P h b.ptr = giveBack P h b := by
  have hpage : ∀ {pfn x}, pfn < 2 ^ 35 → slabAt pfn ≤ x → x < slabAt pfn + 4096 →
      paddr x >>> pgShift = pfn := by
    intro pfn x hlt h1 h2
    rw [slabAt, kernBase] at h1 h2
    rw [paddr_eq (by rw [kernBase]; omega) (by omega), pgShift, kernBase, Nat.shiftRight_eq_div_pow]
    omega
  rw [Block.Ok] at hb
  rw [giveBack, kfree]
  split at hb
  · rename_i c htook
    obtain ⟨hc, -, l, a, ha, hslot, -⟩ := hb
    have hI := hH.cache c (Or.inr hc)
    obtain ⟨q, -, rfl, h1, h2⟩ := hI.slot_page ha hslot
    obtain ⟨p, hlt, heq, -, hs, hu⟩ := (hI.slab_ok l _ ha).page
    obtain rfl := slabAt_inj heq
    rw [Page.IsSlab] at hs
    simp only [hpage hlt h1 h2]
    rw [if_pos hs, hu]
  · rename_i pfn m htook
    obtain ⟨hptr, hlt, hm, -, -, hnot, hu⟩ := hb
    have hin : ¬ (P.page h.pages pfn).IsSlab := hnot pfn (mem_rangePages_self hm)
    rw [Page.IsSlab] at hin
    rw [hptr]
    simp only [hpage hlt le_rfl (Nat.lt_add_of_pos_right (by norm_num))]
    rw [if_neg hin, hu, paddr_slabAt hlt]

/-- A call to a cache leaves a block alone, if it leaves it in use. -/
theorem of_effects {S' : ℕ → SlabList → List ℕ} {F' : ℕ → ℕ → List ℕ}
    (hH : HeapInv P managed granted slabCache n h S F) (hb : b.Ok P granted n h S F)
    (heff : Effects P managed granted h h' c) (hS : ∀ c', c' ≠ c → S' c' = S c' ∧ F' c' = F c')
    (hlive : b.took = .slot c → LiveSlot (h.caches c) (S c) (F c) b.ptr →
      LiveSlot (h.caches c) (S' c) (F' c) b.ptr) : b.Ok P granted n h' S' F' := by
  rw [Block.Ok] at hb ⊢
  split at hb
  · rename_i c' htook
    obtain ⟨hc', hsize, hl⟩ := hb
    rw [heff.kmallocCaches]
    by_cases hcc : c' = c
    · subst hcc
      rw [heff.own.2.1, LiveSlot.congr heff.own]
      exact ⟨hc', hsize, hlive htook hl⟩
    · rw [(heff.others hcc (hH.cache c' (Or.inr hc'))).2, (hS c' hcc).1, (hS c' hcc).2]
      exact ⟨hc', hsize, hl⟩
  · obtain ⟨hptr, hlt, hm, hsize, hgr, hnot, hu⟩ := hb
    obtain ⟨hgr', hpages⟩ := heff.stay _ hgr
    refine ⟨hptr, hlt, hm, hsize, hgr', fun i hi => ?_, ?_⟩
    · rw [hpages i hi]
      exact hnot i hi
    · rw [hpages _ (mem_rangePages_self hm)]
      exact hu

/-- Dealings with the page allocator leave a block alone, if they leave its pages alone. -/
theorem of_pages {s : π} (hb : b.Ok P granted n h S F)
    (hkeep : ∀ pfn m, b.took = .pages pfn m → (pfn, m) ∈ granted h.pages → (pfn, m) ∈ granted s ∧
      ∀ i ∈ rangePages (pfn, m), P.page s i = P.page h.pages i) :
    b.Ok P granted n { h with pages := s } S F := by
  rw [Block.Ok] at hb ⊢
  split at hb
  · exact hb
  · rename_i pfn m htook
    obtain ⟨hptr, hlt, hm, hsize, hgr, hnot, hu⟩ := hb
    obtain ⟨hgr', hpages⟩ := hkeep pfn m htook hgr
    refine ⟨hptr, hlt, hm, hsize, hgr', fun i hi => ?_, ?_⟩
    · show ¬ (P.page s i).IsSlab
      rw [hpages i hi]
      exact hnot i hi
    · show (P.page s pfn).u = m
      rw [hpages _ (mem_rangePages_self hm)]
      exact hu

end Block.Ok

/-! ### The calls -/

/-- **A large request** for a power of two of pages. -/
theorem kmalloc_large (hlaw : PageLaws P managed granted)
    (hH : HeapInv P managed granted slabCache n h S F) {size ptr : ℕ} (hlt : size < 2 ^ 64)
    (hsize : size > maxKmallocCacheSize) (hpow : ∃ k < maxOrder, kmallocPages size = 2 ^ k)
    (hcall : kmalloc P h size = some (ptr, h')) :
    ptr ≠ 0 ∧ HeapInv P managed granted slabCache n h' S F ∧
      (⟨ptr, size, kmallocTook h size ptr⟩ : Block).Ok P granted n h' S F ∧
      ∀ b : Block, b.Ok P granted n h S F →
        b.Ok P granted n h' S F ∧ b.took ≠ kmallocTook h size ptr := by
  obtain ⟨k, hk, hm⟩ := hpow
  set m := kmallocPages size with hmdef
  have hm0 : 0 < m := hm ▸ Nat.two_pow_pos k
  have hfit : size ≤ m * 4096 := le_kmallocPages hlt (by omega)
  rw [kmalloc, if_neg (by rw [maxKmallocCacheSize] at hsize; omega), if_pos hsize] at hcall
  obtain ⟨⟨phy, s₁⟩, halloc, he⟩ := Option.map_eq_some_iff.mp hcall
  obtain ⟨pfn, rfl, hin, hfresh, hgr₁, hkept⟩ := hlaw.alloc hm hk halloc
  have hpfn := hlaw.managed_lt pfn (hin (mem_rangePages_self hm0))
  have hgranted : (pfn, m) ∈ granted s₁ := hgr₁ ▸ Set.mem_insert _ _
  simp only [shiftRight_pgShift, kaddr_eq_slabAt hpfn] at he
  obtain ⟨rfl, rfl⟩ := Prod.mk.inj he
  obtain ⟨hgr₂, hpage⟩ := hlaw.setPage (s := s₁) (i := pfn) (p := { P.page s₁ pfn with u := m })
    ⟨_, hgranted, mem_rangePages_self hm0⟩
  set s₂ := P.setPage s₁ pfn { P.page s₁ pfn with u := m }
  -- pages keep their flags, and those that were granted keep their structs
  have hflag : ∀ i, (P.page s₂ i).IsSlab → (P.page h.pages i).IsSlab := by
    intro i hs
    rw [hpage] at hs
    refine (hkept.keeps i).isSlab ?_
    by_cases hip : i = pfn
    · subst hip
      rwa [if_pos rfl] at hs
    · rwa [if_neg hip] at hs
  have hsame : ∀ r ∈ granted h.pages, ∀ i ∈ rangePages r, P.page s₂ i = P.page h.pages i := by
    intro r hr i hi
    have hip : i ≠ pfn := by
      rintro rfl
      exact Set.disjoint_left.mp (hfresh r hr) (mem_rangePages_self hm0) hi
    rw [hpage, if_neg hip]
    exact hkept.same r hr i hi
  have hmem : ∀ r ∈ granted h.pages, r ∈ granted s₂ := fun r hr => by
    rw [hgr₂, hgr₁]
    exact Set.mem_insert_of_mem _ hr
  have htook : kmallocTook h size (slabAt pfn) = .pages pfn m := by
    rw [kmallocTook, if_pos hsize, paddr_slabAt hpfn, shiftRight_pgShift]
  refine ⟨slabAt_ne_zero pfn, hH.pages hlaw (fun p hs hg => ⟨hmem _ hg,
    hsame _ hg p (mem_rangePages_one p)⟩) hflag ?_, ?_, fun b hb => ⟨hb.of_pages fun q j _ hg =>
      ⟨hmem _ hg, hsame _ hg⟩, ?_⟩⟩
  · rw [hgr₂, hgr₁]
    exact hH.disjoint.insert fun r hr _ => hfresh r hr
  · rw [htook]
    refine ⟨rfl, hpfn, hm0, hfit, hgr₂.symm ▸ hgranted, fun i hi hs =>
      hH.not_isSlab hlaw hfresh hi (hflag i hs), ?_⟩
    show (P.page s₂ pfn).u = m
    rw [hpage, if_pos rfl]
  · rw [htook]
    intro hbt
    rw [Block.Ok, hbt] at hb
    exact Set.disjoint_left.mp (hfresh _ hb.2.2.2.2.1) (mem_rangePages_self hm0)
      (mem_rangePages_self hm0)

/-- **A small request** is served with an object of a cache that is large enough, and all other blocks stay.
-/
theorem kmalloc_small (hlaw : PageLaws P managed granted)
    (hH : HeapInv P managed granted slabCache nrKmallocCache h S F) {size ptr : ℕ} (hpos : 1 ≤ size)
    (hsize : ¬ size > maxKmallocCacheSize) (hcall : kmalloc P h size = some (ptr, h')) :
    ∃ S' F', HeapInv P managed granted slabCache nrKmallocCache h' S' F' ∧
      (ptr ≠ 0 → (⟨ptr, size, kmallocTook h size ptr⟩ : Block).Ok P granted nrKmallocCache h' S' F') ∧
      ∀ b : Block, b.Ok P granted nrKmallocCache h S F → b.Ok P granted nrKmallocCache h' S' F' ∧
        (ptr ≠ 0 → b.ptr = ptr → b.took ≠ kmallocTook h size ptr) := by
  obtain ⟨hidx, hfit⟩ := kmallocSizeIndex_spec hpos (not_lt.mp hsize)
  rw [kmalloc, if_neg (by omega), if_neg hsize] at hcall
  have hc : InFamily slabCache nrKmallocCache h (h.kmallocCaches (kmallocSizeIndex size)) :=
    Or.inr ⟨_, hidx, rfl⟩
  obtain ⟨heff, S', F', hH', hother, hfresh, hlive⟩ := hH.alloc hlaw hc hcall
  have htook : kmallocTook h size ptr = .slot (h.kmallocCaches (kmallocSizeIndex size)) := by
    rw [kmallocTook, if_neg hsize]
  rw [htook]
  refine ⟨S', F', hH', fun h0 => ⟨?_, ?_, ?_⟩, fun b hb => ⟨hb.of_effects hH heff hother
    fun _ hl => (hlive _).mpr (Or.inr hl), ?_⟩⟩
  · rw [heff.kmallocCaches]
    exact ⟨_, hidx, rfl⟩
  · rw [heff.own.2.1]
    exact hfit.trans (hH.sizes _ hidx)
  · rw [LiveSlot.congr heff.own]
    exact (hlive ptr).mpr (Or.inl ⟨rfl, h0⟩)
  · rintro h0 rfl hbt
    rw [Block.Ok, hbt] at hb
    exact hfresh h0 hb.2.2

/-- **`kfree`** of a block keeps the invariant of the heap, and all other blocks. -/
theorem giveBack_cases (hlaw : PageLaws P managed granted)
    (hH : HeapInv P managed granted slabCache n h S F) {b : Block} (hb : b.Ok P granted n h S F)
    (hcall : giveBack P h b = some h') :
    ∃ S' F', HeapInv P managed granted slabCache n h' S' F' ∧
      ∀ b' : Block, b'.Ok P granted n h S F → b'.ptr ≠ b.ptr → b'.Ok P granted n h' S' F' := by
  have hb₀ := hb
  rw [Block.Ok] at hb
  rw [giveBack] at hcall
  split at hb
  · rename_i c htook
    rw [htook] at hcall
    obtain ⟨⟨i, hi, rfl⟩, -, hlive⟩ := hb
    have hc : InFamily slabCache n h (h.kmallocCaches i) := Or.inr ⟨i, hi, rfl⟩
    obtain ⟨heff, S₁, F₁, hI, hU, hl, -⟩ :=
      kmemCacheFree_cases (hH.cache _ hc) (hH.usable _ hc) hlive hcall
    refine ⟨_, _, hH.slab hc heff hI hU fun he => absurd he (hH.struct_ne hi), fun b' hb' hne =>
      hb'.of_effects hH heff (fun c' hcc => ⟨Function.update_of_ne hcc _ _,
        Function.update_of_ne hcc _ _⟩) fun _ hl' => ?_⟩
    rw [Function.update_self, Function.update_self]
    exact (hl _).mpr ⟨hne, hl'⟩
  · rename_i pfn m htook
    rw [htook] at hcall
    obtain ⟨hptr, hpfn, hm, -, hgr, hnot, -⟩ := hb
    obtain ⟨hgr', hkept⟩ := hlaw.free hgr
    rw [← Option.some.inj hcall]
    have hmem : ∀ r ∈ granted h.pages, r ≠ (pfn, m) →
        r ∈ granted (P.free h.pages (pfn * 4096) m) ∧
          ∀ i ∈ rangePages r, P.page (P.free h.pages (pfn * 4096) m) i = P.page h.pages i :=
      fun r hr hne => ⟨hgr' ▸ ⟨hr, hne⟩, hkept.same r ⟨hr, hne⟩⟩
    refine ⟨S, F, hH.pages hlaw (fun p hs hg => ?_) (fun p hs => (hkept.keeps p).isSlab hs) ?_,
      fun b' hb' hne => hb'.of_pages fun q j hq hg => hmem _ hg ?_⟩
    · obtain ⟨h1, h2⟩ := hmem _ hg (by
        rintro he
        obtain ⟨rfl, rfl⟩ := Prod.mk.inj he
        exact hnot p (mem_rangePages_self hm) hs)
      exact ⟨h1, h2 p (mem_rangePages_one p)⟩
    · rw [hgr']
      exact hH.disjoint.subset Set.sdiff_subset
    · rintro he
      obtain ⟨rfl, rfl⟩ := Prod.mk.inj he
      rw [Block.Ok, hq] at hb'
      exact hne (hb'.1.trans hptr.symm)

/-! ### Runs -/

/-- **The invariant of a run.** -/
structure KmallocInv (P : PageOps π) (managed : Set ℕ) (granted : π → Set (ℕ × ℕ)) (slabCache : ℕ)
    (st : KmallocRun π) (S : ℕ → SlabList → List ℕ) (F : ℕ → ℕ → List ℕ) : Prop where
  heap : HeapInv P managed granted slabCache nrKmallocCache st.heap S F
  ok : ∀ b ∈ st.live, b.Ok P granted nrKmallocCache st.heap S F
  nodup : (st.live.map Block.ptr).Nodup

namespace KmallocInv

variable {st st' : KmallocRun π} {op : KmallocOp}

/-- One more block, apart from the others, keeps the invariant of a run. -/
theorem cons {b : Block} {S' : ℕ → SlabList → List ℕ} {F' : ℕ → ℕ → List ℕ}
    (hK : KmallocInv P managed granted slabCache st S F)
    (hH : HeapInv P managed granted slabCache nrKmallocCache h' S' F')
    (hb : b.Ok P granted nrKmallocCache h' S' F')
    (hold : ∀ b' ∈ st.live, b'.Ok P granted nrKmallocCache h' S' F' ∧
      (b'.ptr = b.ptr → b'.took ≠ b.took)) :
    KmallocInv P managed granted slabCache ⟨h', b :: st.live⟩ S' F' := by
  refine ⟨hH, List.forall_mem_cons.mpr ⟨hb, fun b' hb' => (hold b' hb').1⟩, ?_⟩
  refine List.nodup_cons.mpr ⟨fun hm => ?_, hK.nodup⟩
  obtain ⟨b', hb', heq⟩ := List.mem_map.mp hm
  exact (hold b' hb').2 heq ((hold b' hb').1.took_eq hH hb heq)

/-- **Every call keeps the invariant**, if it asks the page allocator for a power of two. -/
theorem step (hlaw : PageLaws P managed granted)
    (hK : ∃ S F, KmallocInv P managed granted slabCache st S F) (hok : AsksPowerOfTwo st op)
    (hstep : KmallocStep P st op st') : ∃ S F, KmallocInv P managed granted slabCache st' S F := by
  obtain ⟨S, F, hK⟩ := hK
  cases hstep with
  | @kmalloc size ptr h hsize hlt hcall =>
    by_cases hlarge : size > maxKmallocCacheSize
    · obtain ⟨h0, hH, hb, hold⟩ := kmalloc_large hlaw hK.heap hlt hlarge (hok hlarge) hcall
      rw [if_neg h0]
      exact ⟨S, F, hK.cons hH hb fun b' hb' =>
        ⟨(hold b' (hK.ok b' hb')).1, fun _ => (hold b' (hK.ok b' hb')).2⟩⟩
    · obtain ⟨S', F', hH, hb, hold⟩ := kmalloc_small hlaw hK.heap hsize hlarge hcall
      by_cases h0 : ptr = 0
      · rw [if_pos h0]
        exact ⟨S', F', hH, fun b' hb' => (hold b' (hK.ok b' hb')).1, hK.nodup⟩
      · rw [if_neg h0]
        exact ⟨S', F', hK.cons hH (hb h0) fun b' hb' =>
          ⟨(hold b' (hK.ok b' hb')).1, (hold b' (hK.ok b' hb')).2 h0⟩⟩
  | @kfree b h hb hcall =>
    rw [(hK.ok b hb).returns hK.heap] at hcall
    obtain ⟨S', F', hH, hold⟩ := giveBack_cases hlaw hK.heap (hK.ok b hb) hcall
    have hlive : st.live.Nodup := List.Nodup.of_map _ hK.nodup
    refine ⟨S', F', hH, fun b' hb' => ?_, hK.nodup.sublist (List.erase_sublist.map _)⟩
    obtain ⟨hne, hmem⟩ := hlive.mem_erase_iff.mp hb'
    exact hold b' (hK.ok b' hmem) fun heq => hne (List.inj_on_of_nodup_map hK.nodup hmem hb heq)
  | @store b x v hb hx hx' =>
    refine ⟨S, F, hK.heap.setWord v fun c hc l a ha ho => ?_, hK.ok, hK.nodup⟩
    have := (hK.ok b hb).free hK.heap hc ha ho
    have := (hK.heap.cache c hc).shape.size_ge
    omega

theorem heapExclusive (hK : KmallocInv P managed granted slabCache st S F) : HeapExclusive P st where
  apart := (List.pairwise_map.mp hK.nodup).imp_of_mem fun ha hb hne =>
    (hK.ok _ ha).apart hK.heap (hK.ok _ hb) hne
  headers := fun b hb _ _ ha => (hK.ok b hb).header hK.heap ha
  returns := fun b hb => (hK.ok b hb).returns hK.heap

end KmallocInv

/-- Two requests after `kmem_init`, both of them served, make a run. -/
theorem two_requests {size size' ptr ptr' : ℕ} (hsize : 1 ≤ size) (hsize' : 1 ≤ size')
    (hlt : size < 2 ^ 64) (hlt' : size' < 2 ^ 64) (h0 : ptr ≠ 0) (h0' : ptr' ≠ 0)
    (heval : ((kmemInit bumpPages emptyHeap 64).bind fun h => (kmalloc bumpPages h size).bind fun r =>
      (kmalloc bumpPages r.2 size').map fun r' => (r.1, r'.1)) = some (ptr, ptr')) :
    ∃ h h₁ h₂ took took', kmemInit bumpPages emptyHeap 64 = some h ∧
      Trace.Run (KmallocStep bumpPages) ⟨h, []⟩
        [(.kmalloc size, ⟨h₁, [⟨ptr, size, took⟩]⟩),
          (.kmalloc size', ⟨h₂, [⟨ptr', size', took'⟩, ⟨ptr, size, took⟩]⟩)] := by
  obtain ⟨h, hinit, heval⟩ := Option.bind_eq_some_iff.mp heval
  obtain ⟨⟨p, h₁⟩, hcall, heval⟩ := Option.bind_eq_some_iff.mp heval
  obtain ⟨⟨p', h₂⟩, hcall', heval⟩ := Option.map_eq_some_iff.mp heval
  obtain ⟨rfl, rfl⟩ := Prod.mk.inj heval
  have hstep : KmallocStep bumpPages ⟨h, []⟩ (.kmalloc size) _ := .kmalloc hsize hlt hcall
  rw [if_neg h0] at hstep
  have hstep' : KmallocStep bumpPages ⟨h₁, [⟨p, size, kmallocTook h size p⟩]⟩ (.kmalloc size') _ :=
    .kmalloc hsize' hlt' hcall'
  rw [if_neg h0'] at hstep'
  exact ⟨h, h₁, h₂, _, _, hinit, .cons hstep (.cons hstep' (.nil _))⟩

theorem heapStart_emptyHeap : HeapStart bumpPages bumpManaged bumpGranted 64 emptyHeap where
  static := by
    rintro pfn - ⟨hle, -⟩
    rw [slabAt, kernBase] at hle
    omega
  none := fun pfn hslab => newCache_emptyHeap.none (slabAt 0) (by
    refine absurd (show (0 : BitVec 32) &&& pageFlagSlab = 0 by decide) hslab)
  disjoint := by
    rintro r hr
    exact absurd hr List.not_mem_nil

/-- **Blocks are exclusive throughout every run that asks for powers of two of pages only.** -/
theorem heap_exclusive {l : List (KmallocOp × KmallocRun π)} (hlaw : PageLaws P managed granted)
    (hstart : HeapStart P managed granted slabCache h) (hinit : kmemInit P h slabCache = some h')
    (hrun : Trace.Run (KmallocStep P) ⟨h', []⟩ l) (hok : Trace.StepsOk AsksPowerOfTwo ⟨h', []⟩ l) :
    ∀ t ∈ Trace.states ⟨h', []⟩ l, HeapExclusive P t := by
  intro t ht
  obtain ⟨S, F, hH⟩ := kmemInit_inv hlaw hstart hinit
  obtain ⟨S', F', hK⟩ : ∃ S F, KmallocInv P managed granted slabCache t S F :=
    Trace.invariant (I := fun u => ∃ S F, KmallocInv P managed granted slabCache u S F)
      (KmallocInv.step hlaw) hrun
      ⟨S, F, hH, fun _ hb => absurd hb List.not_mem_nil, List.nodup_nil⟩ hok t ht
  exact hK.heapExclusive

/-- A small block and a page are taken. -/
theorem heap_exclusive_two_requests : ∃ h l, kmemInit bumpPages emptyHeap 64 = some h ∧
    l.map Prod.fst = [.kmalloc 100, .kmalloc 4096] ∧
    l.map (·.2.live.map Block.ptr) =
      [[18446603336222249024], [18446603336222253056, 18446603336222249024]] ∧
    Trace.Run (KmallocStep bumpPages) ⟨h, []⟩ l ∧
    ∀ t ∈ Trace.states ⟨h, []⟩ l, HeapExclusive bumpPages t := by
  obtain ⟨h, h₁, h₂, took, took', hinit, hrun⟩ := @two_requests 100 4096 18446603336222249024
    18446603336222253056 (by decide) (by decide) (by decide) (by decide) (by decide) (by decide)
    (by decide +kernel)
  refine ⟨h, _, hinit, rfl, rfl, hrun, heap_exclusive bumpPages_laws heapStart_emptyHeap hinit hrun
    ⟨fun hbig => ?_, fun _ => ⟨0, by decide, by decide⟩, trivial⟩⟩
  rw [maxKmallocCacheSize] at hbig
  omega

/-- A block of three pages, of which the page allocator grants one, and then a page: they overlap. -/
theorem not_heapExclusive_two_requests : PageLaws bumpPages bumpManaged bumpGranted ∧
    HeapStart bumpPages bumpManaged bumpGranted 64 emptyHeap ∧
    ∃ h l t, kmemInit bumpPages emptyHeap 64 = some h ∧
      Trace.Run (KmallocStep bumpPages) ⟨h, []⟩ l ∧ t ∈ Trace.states ⟨h, []⟩ l ∧
      ¬ HeapExclusive bumpPages t := by
  obtain ⟨h, h₁, h₂, took, took', hinit, hrun⟩ := @two_requests 12288 4096 18446603336222248960
    18446603336222253056 (by decide) (by decide) (by decide) (by decide) (by decide) (by decide)
    (by decide +kernel)
  refine ⟨bumpPages_laws, heapStart_emptyHeap, h, _, _, hinit, hrun,
    List.mem_cons_of_mem _ (List.mem_cons_of_mem _ List.mem_cons_self), fun hex => ?_⟩
  have hapart := List.rel_of_pairwise_cons hex.apart List.mem_cons_self
  rw [Block.Apart] at hapart
  dsimp only at hapart
  omega

end GeekToyOS
