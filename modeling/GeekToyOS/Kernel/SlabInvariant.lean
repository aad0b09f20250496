import GeekToyOS.Data.Chain
import GeekToyOS.Kernel.Slab

/-!
# What the slab allocator keeps true

The state of a cache is told by two families of sequences: `S l` are the slabs on list `l`, and `F a`
are the free objects of slab `a` in the order of its freelist. `CacheInv` says that the pointers, the
links, the counters and the page structs all tell the same story. What the lists mean, that is which
slabs stand on which list, is a separate matter: `Usable` is as much of it as allocating needs.

Slabs of different caches cannot be confused, since a page struct has one `slab_cache`.

## Main definitions

* `IsSlot k a o` — `o` is the address of an object of the slab at `a`
* `CacheInv P managed granted h c S F` — the invariant of cache `c`
* `Usable S F` — slabs on `slabs_partial` and `slabs_free` have free objects

## Main results

* `IsSlot.bounds`, `IsSlot.apart` — objects lie behind the header and inside the page, and do not
  overlap
* `CacheInv.frame` — a cache notices nothing of what happens elsewhere
* `CacheInv.move`, `CacheInv.take`, `CacheInv.give`, `CacheInv.grow` — the steps
-/

namespace GeekToyOS

open Chain

/-! ### Objects in a page -/

/-- `o` is the address of an object of the slab at `a`: objects are cut from the end of the page. -/
def IsSlot (k : KmemCache) (a o : ℕ) : Prop :=
  ∃ i < k.objsPerPage, o + (i + 1) * k.size = a + 4096

/-- The numbers in a cache struct fit a page. -/
structure Shape (k : KmemCache) : Prop where
  obj_size : k.objSize = k.size
  size_ge : 8 ≤ k.size
  objs_pos : 0 < k.objsPerPage
  fits : k.objsPerPage * k.size + sizeofSlab ≤ 4096

namespace Shape

variable {k : KmemCache}

theorem size_le (h : Shape k) : k.size + sizeofSlab ≤ 4096 := by
  have := Nat.le_mul_of_pos_left k.size h.objs_pos
  have := h.fits
  omega

theorem objs_lt (h : Shape k) : k.objsPerPage < 2 ^ 32 := by
  have := Nat.le_mul_of_pos_right k.objsPerPage (show 0 < k.size by have := h.size_ge; omega)
  have := h.fits
  omega

end Shape

namespace IsSlot

variable {k : KmemCache} {a b o o' : ℕ}

/-- **An object lies behind the header and inside the page.** -/
theorem bounds (hk : Shape k) (h : IsSlot k a o) : a + sizeofSlab ≤ o ∧ o + k.size ≤ a + 4096 := by
  obtain ⟨i, hi, ho⟩ := h
  have hle : (i + 1) * k.size ≤ k.objsPerPage * k.size := Nat.mul_le_mul_right _ hi
  have hfits := hk.fits
  rw [Nat.add_mul, Nat.one_mul] at ho hle
  omega

/-- **Objects of one slab do not overlap**, as they are a multiple of the size apart. -/
theorem apart (h : IsSlot k a o) (h' : IsSlot k a o') (hne : o ≠ o') :
    o + k.size ≤ o' ∨ o' + k.size ≤ o := by
  obtain ⟨i, -, ho⟩ := h
  obtain ⟨j, -, ho'⟩ := h'
  rcases Nat.lt_trichotomy i j with hij | rfl | hij
  · have hle : (i + 1 + 1) * k.size ≤ (j + 1) * k.size := Nat.mul_le_mul_right _ (by omega)
    rw [Nat.add_mul (i + 1), Nat.one_mul] at hle
    omega
  · omega
  · have hle : (j + 1 + 1) * k.size ≤ (i + 1) * k.size := Nat.mul_le_mul_right _ (by omega)
    rw [Nat.add_mul (j + 1), Nat.one_mul] at hle
    omega

theorem pos (hk : Shape k) (h : IsSlot k a o) : o ≠ 0 := by
  have hb := (h.bounds hk).1
  rw [sizeofSlab] at hb
  omega

/-- Different objects, no more of them than the slab has. -/
theorem length_le {l : List ℕ} (hl : l.Nodup) (h : ∀ o ∈ l, IsSlot k a o) :
    l.length ≤ k.objsPerPage := by
  have hsub : l.toFinset ⊆ (Finset.range k.objsPerPage).image
      fun i => a + 4096 - (i + 1) * k.size := by
    intro o ho
    obtain ⟨i, hi, hio⟩ := h o (List.mem_toFinset.mp ho)
    exact Finset.mem_image.mpr ⟨i, Finset.mem_range.mpr hi, by omega⟩
  have hcard := (Finset.card_le_card hsub).trans Finset.card_image_le
  rwa [List.toFinset_card_of_nodup hl, Finset.card_range] at hcard

/-- As many different objects as the slab has are all of them. -/
theorem mem_of_length {l : List ℕ} (hl : l.Nodup) (h : ∀ o ∈ l, IsSlot k a o)
    (hlen : l.length = k.objsPerPage) (ho : IsSlot k a o) : o ∈ l := by
  by_contra hnot
  have hle := length_le (List.nodup_cons.mpr ⟨hnot, hl⟩) (List.forall_mem_cons.mpr ⟨ho, h⟩)
  rw [List.length_cons] at hle
  omega

end IsSlot

/-! ### Slabs -/

/-- The slab in page `pfn`. -/
def slabAt (pfn : ℕ) : ℕ := kernBase + pfn * 4096

theorem kaddr_eq_slabAt {pfn : ℕ} (h : pfn < 2 ^ 35) : kaddr (pfn * 4096) = slabAt pfn := kaddr_eq h

theorem slabAt_inj {p q : ℕ} (h : slabAt p = slabAt q) : p = q := by
  rw [slabAt, slabAt] at h
  omega

theorem slabAt_ne_zero (pfn : ℕ) : slabAt pfn ≠ 0 := by
  rw [slabAt, kernBase]
  omega

/-- An address lies in one page only. -/
theorem eq_of_mem_page {p q x : ℕ} (hp : slabAt p ≤ x ∧ x < slabAt p + 4096)
    (hq : slabAt q ≤ x ∧ x < slabAt q + 4096) : p = q := by
  rw [slabAt] at hp hq
  omega

/-- `align_down` to a page finds the slab from any address in its page. -/
theorem alignDown_page {pfn x : ℕ} (hpfn : pfn < 2 ^ 35) (hx : slabAt pfn ≤ x)
    (hx' : x < slabAt pfn + 4096) : alignDown x pgSize = slabAt pfn := by
  rw [slabAt, kernBase] at *
  rw [alignDown_pgSize (by omega)]
  omega

variable {π : Type*}

/-- The page struct of the slab at `a` names cache `c`. -/
def IsSlabOf (P : PageOps π) (h : Heap π) (c a : ℕ) : Prop :=
  ∃ pfn < 2 ^ 35, a = slabAt pfn ∧ (P.page h.pages pfn).IsSlab ∧ (P.page h.pages pfn).u = c

/-- A slab belongs to one cache, the one that its page struct names. -/
theorem IsSlabOf.unique {P : PageOps π} {h : Heap π} {c c' a : ℕ} (hs : IsSlabOf P h c a)
    (hs' : IsSlabOf P h c' a) : c = c' := by
  obtain ⟨p, -, rfl, -, hu⟩ := hs
  obtain ⟨q, -, heq, -, hu'⟩ := hs'
  rw [← hu, ← hu', slabAt_inj heq]

/-- What is true of one slab. -/
structure SlabOk (P : PageOps π) (granted : π → Set (ℕ × ℕ)) (h : Heap π) (c a : ℕ)
    (fs : List ℕ) : Prop where
  page : ∃ pfn < 2 ^ 35, a = slabAt pfn ∧ (pfn, 1) ∈ granted h.pages ∧
    (P.page h.pages pfn).IsSlab ∧ (P.page h.pages pfn).u = c
  links : Links h.word 0 (h.slabs a).freelist fs
  nodup : fs.Nodup
  slots : ∀ o ∈ fs, IsSlot (h.caches c) a o
  free_eq : (h.slabs a).free = fs.length
  inuse_eq : (h.slabs a).inuse + fs.length = (h.caches c).objsPerPage

theorem SlabOk.isSlabOf {P : PageOps π} {granted : π → Set (ℕ × ℕ)} {h : Heap π} {c a : ℕ}
    {fs : List ℕ} (hok : SlabOk P granted h c a fs) : IsSlabOf P h c a := by
  obtain ⟨pfn, hlt, heq, -, hslab, hu⟩ := hok.page
  exact ⟨pfn, hlt, heq, hslab, hu⟩

/-- A slab notices writes to its header, its free objects, its page struct and the sizes of its cache
only. -/
theorem SlabOk.frame {P : PageOps π} {granted : π → Set (ℕ × ℕ)} {h h' : Heap π} {c a : ℕ}
    {fs : List ℕ} (hok : SlabOk P granted h c a fs)
    (hcache : (h'.caches c).size = (h.caches c).size ∧
      (h'.caches c).objsPerPage = (h.caches c).objsPerPage)
    (hslab : h'.slabs a = h.slabs a) (hword : ∀ o ∈ fs, h'.word o = h.word o)
    (hpage : ∀ pfn, (pfn, 1) ∈ granted h.pages →
      (P.page h.pages pfn).IsSlab ∧ (P.page h.pages pfn).u = c →
      (pfn, 1) ∈ granted h'.pages ∧ P.page h'.pages pfn = P.page h.pages pfn) :
    SlabOk P granted h' c a fs := by
  obtain ⟨hsize, hobjs⟩ := hcache
  obtain ⟨pfn, hlt, heq, hgr, hflag, hu⟩ := hok.page
  obtain ⟨hgr', hpg⟩ := hpage pfn hgr ⟨hflag, hu⟩
  refine ⟨⟨pfn, hlt, heq, hgr', hpg ▸ hflag, hpg ▸ hu⟩, ?_, hok.nodup, fun o ho => ?_, ?_, ?_⟩
  · rw [hslab]
    exact hok.links.frame hword
  · rw [IsSlot, hsize, hobjs]
    exact hok.slots o ho
  · rw [hslab]
    exact hok.free_eq
  · rw [hslab, hobjs]
    exact hok.inuse_eq

/-- The list head of cache `c`. -/
def slabHead (c : ℕ) (l : SlabList) : SlabNode := .cache c l

/-- The nodes on a list. -/
def slabNodes (S : SlabList → List ℕ) (l : SlabList) : List SlabNode := (S l).map .slab

theorem slab_injective : Function.Injective SlabNode.slab := fun _ _ h => SlabNode.slab.inj h

theorem slab_mem_iff {S : SlabList → List ℕ} {c a : ℕ} {l : SlabList} :
    SlabNode.slab a ∈ slabHead c l :: slabNodes S l ↔ a ∈ S l := by
  simp [slabHead, slabNodes]

theorem cache_mem_iff {S : SlabList → List ℕ} {c c' : ℕ} {l l' : SlabList} :
    SlabNode.cache c' l' ∈ slabHead c l :: slabNodes S l ↔ c' = c ∧ l' = l := by
  simp [slabHead, slabNodes]

/-- **The invariant of a cache.** -/
structure CacheInv (P : PageOps π) (managed : Set ℕ) (granted : π → Set (ℕ × ℕ)) (h : Heap π) (c : ℕ)
    (S : SlabList → List ℕ) (F : ℕ → List ℕ) : Prop where
  shape : Shape (h.caches c)
  rings : Rings h.nodes (slabHead c) (slabNodes S)
  slab_ok : ∀ l, ∀ a ∈ S l, SlabOk P granted h c a (F a)
  /-- Every slab of the cache is on a list. -/
  all : ∀ a, IsSlabOf P h c a → ∃ l, a ∈ S l
  /-- The cache struct is in nobody else's memory. -/
  home : ∀ pfn ∈ managed, slabAt pfn ≤ c → c < slabAt pfn + 4096 →
    ∃ r ∈ granted h.pages, pfn ∈ rangePages r

/-- Slabs that allocations are served from have free objects. -/
def Usable (S : SlabList → List ℕ) (F : ℕ → List ℕ) : Prop :=
  ∀ l, l ≠ .slabsFull → ∀ a ∈ S l, F a ≠ []

namespace CacheInv

variable {P : PageOps π} {managed : Set ℕ} {granted : π → Set (ℕ × ℕ)} {h h' : Heap π} {c c' : ℕ}
  {S S' : SlabList → List ℕ} {F F' : ℕ → List ℕ} {a b o : ℕ} {l l' : SlabList}

theorem isSlabOf (hI : CacheInv P managed granted h c S F) (ha : a ∈ S l) : IsSlabOf P h c a :=
  (hI.slab_ok l a ha).isSlabOf

/-- A slab is on one of the three lists only. -/
theorem list_eq (hI : CacheInv P managed granted h c S F) (ha : a ∈ S l) (ha' : a ∈ S l') : l = l' :=
  hI.rings.eq_of_mem (List.mem_map_of_mem ha) (List.mem_map_of_mem ha')

theorem nodup (hI : CacheInv P managed granted h c S F) (l : SlabList) : (S l).Nodup :=
  List.Nodup.of_map _ (List.nodup_cons.mp (hI.rings.ring l).nodup).2

theorem cache_eq (hI : CacheInv P managed granted h c S F) (hI' : CacheInv P managed granted h c' S' F')
    (ha : a ∈ S l) (ha' : a ∈ S' l') : c = c' := (hI.isSlabOf ha).unique (hI'.isSlabOf ha')

/-- **Other memory does not matter**: the invariant of a cache holds as long as its struct, its slabs and
their objects are as they were. -/
theorem frame (hI : CacheInv P managed granted h c S F)
    (hcache : (h'.caches c).size = (h.caches c).size ∧ (h'.caches c).objSize = (h.caches c).objSize ∧
      (h'.caches c).objsPerPage = (h.caches c).objsPerPage)
    (hnodes : ∀ l, ∀ m ∈ slabHead c l :: slabNodes S l, h'.nodes m = h.nodes m)
    (hslab : ∀ l, ∀ a ∈ S l, h'.slabs a = h.slabs a ∧ ∀ o ∈ F a, h'.word o = h.word o)
    (hpage : ∀ pfn, (pfn, 1) ∈ granted h.pages →
      (P.page h.pages pfn).IsSlab ∧ (P.page h.pages pfn).u = c →
      (pfn, 1) ∈ granted h'.pages ∧ P.page h'.pages pfn = P.page h.pages pfn)
    (hall : ∀ a, IsSlabOf P h' c a → IsSlabOf P h c a)
    (hhome : ∀ pfn ∈ managed, slabAt pfn ≤ c → c < slabAt pfn + 4096 →
      (∃ r ∈ granted h.pages, pfn ∈ rangePages r) → ∃ r ∈ granted h'.pages, pfn ∈ rangePages r) :
    CacheInv P managed granted h' c S F := by
  obtain ⟨hsize, hobj, hobjs⟩ := hcache
  refine ⟨?_, hI.rings.frame hnodes, fun l a ha => ?_, fun a ha => hI.all a (hall a ha),
    fun pfn hpfn h1 h2 => hhome pfn hpfn h1 h2 (hI.home pfn hpfn h1 h2)⟩
  · have hs := hI.shape
    exact ⟨by rw [hobj, hsize, hs.obj_size], hsize ▸ hs.size_ge, hobjs ▸ hs.objs_pos,
      by rw [hsize, hobjs]; exact hs.fits⟩
  · exact (hI.slab_ok l a ha).frame ⟨hsize, hobjs⟩ (hslab l a ha).1 (hslab l a ha).2 hpage

/-- Taking or releasing the lock of a cache, this or another one, keeps the invariant. -/
theorem setLock (hI : CacheInv P managed granted h c S F) (c' v : ℕ) :
    CacheInv P managed granted (h.setCache c' { h.caches c' with lock := v }) c S F := by
  refine hI.frame ?_ (fun _ _ _ => rfl) (fun _ _ _ => ⟨rfl, fun _ _ => rfl⟩)
    (fun _ hgr _ => ⟨hgr, rfl⟩) (fun _ ha => ha) (fun _ _ _ _ hr => hr)
  by_cases hc : c = c'
  · subst hc
    simp [Heap.setCache]
  · simp [Heap.setCache, hc]

/-- A cache has nothing to do with `mm_kmalloc_caches`. -/
theorem setKmallocCaches (hI : CacheInv P managed granted h c S F) (f : ℕ → ℕ) :
    CacheInv P managed granted { h with kmallocCaches := f } c S F :=
  hI.frame ⟨rfl, rfl, rfl⟩ (fun _ _ _ => rfl) (fun _ _ _ => ⟨rfl, fun _ _ => rfl⟩)
    (fun _ hgr _ => ⟨hgr, rfl⟩) (fun _ ha => ha) (fun _ _ _ _ hr => hr)

/-! ### Moving a slab -/

/-- The lists after moving slab `a` to the front of list `l'`. -/
def moved (S : SlabList → List ℕ) (l : SlabList) (a : ℕ) (l' : SlabList) : SlabList → List ℕ :=
  let S := Function.update S l ((S l).erase a)
  Function.update S l' (a :: S l')

theorem mem_moved (hI : CacheInv P managed granted h c S F) (ha : a ∈ S l) {j : SlabList} :
    b ∈ moved S l a l' j ↔ (b = a ∧ j = l') ∨ (b ≠ a ∧ b ∈ S j) := by
  have herase : ∀ {j}, b ∈ Function.update S l ((S l).erase a) j ↔ b ≠ a ∧ b ∈ S j := by
    intro j
    by_cases hj : j = l
    · subst hj
      rw [Function.update_self, (hI.nodup j).mem_erase_iff]
    · rw [Function.update_of_ne hj]
      refine ⟨fun hb => ⟨?_, hb⟩, And.right⟩
      rintro rfl
      exact hj (hI.list_eq hb ha)
  rw [moved]
  by_cases hj : j = l'
  · subst hj
    rw [Function.update_self, List.mem_cons, herase]
    tauto
  · rw [Function.update_of_ne hj, herase]
    tauto

theorem slabNodes_moved (S : SlabList → List ℕ) (l : SlabList) (a : ℕ) (l' : SlabList) :
    slabNodes (moved S l a l') = Function.update (Function.update (slabNodes S) l
      ((slabNodes S l).erase (.slab a))) l'
        (.slab a :: Function.update (slabNodes S) l ((slabNodes S l).erase (.slab a)) l') := by
  have herase : slabNodes (Function.update S l ((S l).erase a))
      = Function.update (slabNodes S) l ((slabNodes S l).erase (.slab a)) := by
    funext j
    by_cases hj : j = l
    · subst hj
      rw [Function.update_self, slabNodes, Function.update_self, slabNodes,
        List.map_erase slab_injective]
    · rw [Function.update_of_ne hj, slabNodes, Function.update_of_ne hj, slabNodes]
  rw [← herase]
  funext j
  by_cases hj : j = l'
  · subst hj
    rw [Function.update_self, slabNodes, moved, Function.update_self, List.map_cons, slabNodes]
  · rw [Function.update_of_ne hj, slabNodes, moved, Function.update_of_ne hj, slabNodes]

/-- **`list_move` of a slab** keeps the invariant, with the slab at the front of the other list. -/
theorem move (hI : CacheInv P managed granted h c S F) (ha : a ∈ S l) (l' : SlabList) :
    CacheInv P managed granted (h.moveSlab a c l') c (moved S l a l') F := by
  have hmem : SlabNode.slab a ∈ slabNodes S l := List.mem_map_of_mem ha
  have hok : ∀ {j b}, b ∈ S j → SlabOk P granted (h.moveSlab a c l') c b (F b) := fun hb =>
    (hI.slab_ok _ _ hb).frame ⟨rfl, rfl⟩ rfl (fun _ _ => rfl) fun _ hgr _ => ⟨hgr, rfl⟩
  refine ⟨hI.shape, ?_, fun j b hb => ?_, fun b hb => ?_, hI.home⟩
  · rw [slabNodes_moved]
    exact hI.rings.move hmem l'
  · rcases (hI.mem_moved ha).mp hb with ⟨rfl, -⟩ | ⟨-, hb⟩
    · exact hok ha
    · exact hok hb
  · obtain ⟨j, hj⟩ := hI.all b hb
    by_cases hba : b = a
    · exact ⟨l', (hI.mem_moved ha).mpr (Or.inl ⟨hba, rfl⟩)⟩
    · exact ⟨j, (hI.mem_moved ha).mpr (Or.inr ⟨hba, hj⟩)⟩

/-! ### Taking an object and giving it back -/

/-- The addresses of a slab's objects lie in its page. -/
theorem slot_page (hI : CacheInv P managed granted h c S F) (ha : a ∈ S l)
    (ho : IsSlot (h.caches c) a o) : ∃ pfn < 2 ^ 35, a = slabAt pfn ∧ a ≤ o ∧ o < a + 4096 := by
  obtain ⟨pfn, hlt, heq, -⟩ := (hI.slab_ok l a ha).page
  obtain ⟨h1, h2⟩ := ho.bounds hI.shape
  have := hI.shape.size_ge
  exact ⟨pfn, hlt, heq, by omega, by omega⟩

/-- An address is an object of one slab, whatever the caches. -/
theorem slab_eq (hI : CacheInv P managed granted h c S F) (hI' : CacheInv P managed granted h c' S' F')
    (ha : a ∈ S l) (hb : b ∈ S' l') (ho : IsSlot (h.caches c) a o) (ho' : IsSlot (h.caches c') b o) :
    a = b := by
  obtain ⟨p, -, rfl, h1, h2⟩ := hI.slot_page ha ho
  obtain ⟨q, -, rfl, h3, h4⟩ := hI'.slot_page hb ho'
  rw [eq_of_mem_page ⟨h1, h2⟩ ⟨h3, h4⟩]

/-- **Objects do not overlap**, whatever their slabs and caches. -/
theorem apart {o' : ℕ} (hI : CacheInv P managed granted h c S F)
    (hI' : CacheInv P managed granted h c' S' F') (ha : a ∈ S l) (hb : b ∈ S' l')
    (ho : IsSlot (h.caches c) a o) (ho' : IsSlot (h.caches c') b o') (hne : o ≠ o') :
    o + (h.caches c).size ≤ o' ∨ o' + (h.caches c').size ≤ o := by
  by_cases hab : a = b
  · subst hab
    obtain rfl := hI.cache_eq hI' ha hb
    exact ho.apart ho' hne
  · obtain ⟨p, -, rfl, -⟩ := hI.slot_page ha ho
    obtain ⟨q, -, rfl, -⟩ := hI'.slot_page hb ho'
    have hpq : p ≠ q := fun he => hab (he ▸ rfl)
    have hp := ho.bounds hI.shape
    have hq := ho'.bounds hI'.shape
    rw [slabAt, sizeofSlab] at hp hq
    omega

/-- **Taking the first free object of a slab** keeps the invariant, with one object less on the freelist. -/
theorem take (hI : CacheInv P managed granted h c S F) (ha : a ∈ S l) {rest : List ℕ}
    (hF : F a = o :: rest) :
    CacheInv P managed granted (h.setSlab a ((h.slabs a).take (h.word o))) c S
      (Function.update F a rest) := by
  have hok := hI.slab_ok l a ha
  rw [hF] at hok
  have hobjs := hI.shape.objs_lt
  have hfree := hok.free_eq
  have hinuse := hok.inuse_eq
  rw [List.length_cons] at hfree hinuse
  refine ⟨hI.shape, hI.rings, fun j b hb => ?_, hI.all, hI.home⟩
  by_cases hba : b = a
  · subst hba
    rw [Function.update_self]
    refine ⟨hok.page, ?_, (List.nodup_cons.mp hok.nodup).2,
      fun x hx => hok.slots x (List.mem_cons_of_mem o hx), ?_, ?_⟩
    · rw [Heap.setSlab_slabs_self, Slab.take_freelist, Heap.setSlab_word]
      exact hok.links.pop
    · rw [Heap.setSlab_slabs_self, Slab.take_free, w32]
      omega
    · rw [Heap.setSlab_slabs_self, Slab.take_inuse, w32]
      show _ = (h.caches c).objsPerPage
      omega
  · rw [Function.update_of_ne hba]
    exact (hI.slab_ok j b hb).frame ⟨rfl, rfl⟩ (Heap.setSlab_slabs_of_ne h _ hba) (fun _ _ => rfl)
      fun _ hgr _ => ⟨hgr, rfl⟩

/-- **Giving an object back to its slab** keeps the invariant, with the object at the front of the freelist.
-/
theorem give (hI : CacheInv P managed granted h c S F) (ha : a ∈ S l)
    (ho : IsSlot (h.caches c) a o) (hnot : o ∉ F a) :
    CacheInv P managed granted
      ((h.setWord o (h.slabs a).freelist).setSlab a ((h.slabs a).give o)) c S
      (Function.update F a (o :: F a)) := by
  have hok := hI.slab_ok l a ha
  have hobjs := hI.shape.objs_lt
  have hfree := hok.free_eq
  have hinuse := hok.inuse_eq
  have hnodup : (o :: F a).Nodup := List.nodup_cons.mpr ⟨hnot, hok.nodup⟩
  have hslots : ∀ x ∈ o :: F a, IsSlot (h.caches c) a x :=
    List.forall_mem_cons.mpr ⟨ho, hok.slots⟩
  have hlen := IsSlot.length_le hnodup hslots
  rw [List.length_cons] at hlen
  refine ⟨hI.shape, hI.rings, fun j b hb => ?_, hI.all, hI.home⟩
  by_cases hba : b = a
  · subst hba
    rw [Function.update_self]
    refine ⟨hok.page, ?_, hnodup, hslots, ?_, ?_⟩
    · rw [Heap.setSlab_slabs_self, Slab.give_freelist, Heap.setSlab_word, Heap.setWord_word]
      exact hok.links.push (ho.pos hI.shape) hnot
    · rw [Heap.setSlab_slabs_self, Slab.give_free, w32, List.length_cons]
      omega
    · rw [Heap.setSlab_slabs_self, Slab.give_inuse, w32, List.length_cons]
      show _ = (h.caches c).objsPerPage
      omega
  · rw [Function.update_of_ne hba]
    refine (hI.slab_ok j b hb).frame ⟨rfl, rfl⟩ (Heap.setSlab_slabs_of_ne _ _ hba) (fun x hx => ?_)
      fun _ hgr _ => ⟨hgr, rfl⟩
    refine Function.update_of_ne (fun he => hba ?_) _ _
    exact hI.slab_eq hI hb ha (he ▸ (hI.slab_ok j b hb).slots x hx) ho

/-- Other caches do not notice what happens to a slab of this one. -/
theorem others (hI : CacheInv P managed granted h c S F) (hne : c' ≠ c) (ha : a ∈ S l)
    (hI' : CacheInv P managed granted h c' S' F') (hpages : h'.pages = h.pages)
    (hcaches : h'.caches = h.caches)
    (hnodes : ∀ m, (∀ j, m ∉ slabHead c j :: slabNodes S j) → h'.nodes m = h.nodes m)
    (hslabs : ∀ b, b ≠ a → h'.slabs b = h.slabs b)
    (hword : ∀ x, ¬ IsSlot (h.caches c) a x → h'.word x = h.word x) :
    CacheInv P managed granted h' c' S' F' := by
  refine hI'.frame ?_ (fun j m hm => hnodes m fun i hm' => ?_) (fun j b hb => ⟨hslabs b ?_, ?_⟩)
    (fun pfn hgr _ => ?_) (fun b hb => ?_) (fun pfn hpfn h1 h2 hr => ?_)
  · rw [hcaches]
    exact ⟨rfl, rfl, rfl⟩
  · rcases List.mem_cons.mp hm with rfl | hm
    · exact hne (cache_mem_iff.mp hm').1
    · obtain ⟨b, hb, rfl⟩ := List.mem_map.mp hm
      exact hne (hI'.cache_eq hI hb (slab_mem_iff.mp hm'))
  · rintro rfl
    exact hne (hI'.cache_eq hI hb ha)
  · intro x hx
    refine hword x fun hslot => hne ?_
    obtain rfl := hI'.slab_eq hI hb ha ((hI'.slab_ok j b hb).slots x hx) hslot
    exact hI'.cache_eq hI hb ha
  · rw [hpages]
    exact ⟨hgr, rfl⟩
  · rw [IsSlabOf, hpages] at hb
    exact hb
  · rw [hpages]
    exact hr

end CacheInv

/-! ### A new slab -/

section Grow

variable {P : PageOps π} {managed : Set ℕ} {granted : π → Set (ℕ × ℕ)} {h h' : Heap π} {c c' a : ℕ}
  {S : SlabList → List ℕ} {F : ℕ → List ℕ} {pfn : ℕ}

/-- The address lies in page `pfn`. -/
def InPage (pfn x : ℕ) : Prop := slabAt pfn ≤ x ∧ x < slabAt pfn + 4096

/-- The loop of `cache_grow` chains the objects that it cuts off below `top`. The first object may end
where the address space does. -/
theorem growStep_spec {size : ℕ} (hsize : 0 < size) : ∀ (n : ℕ) {h : Heap π} {top obj p : ℕ}
    {fs : List ℕ}, obj = top % 2 ^ 64 → top ≤ 2 ^ 64 → n * size < top → (∀ x ∈ fs, top ≤ x) →
    fs.Nodup → Links h.word 0 p fs →
    ∃ w obj' p' fs', (growStep size)^[n] (h, obj, p) = ({ h with word := w }, obj', p') ∧
      Links w 0 p' fs' ∧ fs'.Nodup ∧ fs'.length = fs.length + n ∧
      (∀ x ∈ fs', x ∈ fs ∨ ∃ i < n, x + (i + 1) * size = top) ∧
      ∀ x, x < top - n * size ∨ top ≤ x → w x = h.word x := by
  intro n
  induction n with
  | zero =>
    intro h top obj p fs _ _ _ _ hnodup hlinks
    exact ⟨h.word, obj, p, fs, rfl, hlinks, hnodup, rfl, fun x hx => Or.inl hx, fun _ _ => rfl⟩
  | succ n ih =>
    intro h top obj p fs hobj htop hn hge hnodup hlinks
    rw [Nat.add_mul, Nat.one_mul] at hn
    have hnext : wsub obj size = top - size := by
      rw [hobj, wsub]
      omega
    have hstep : growStep size (h, obj, p) = (h.setWord (top - size) p, top - size, top - size) := by
      rw [growStep]
      simp only [hnext]
    have hnot : top - size ∉ fs := fun hm => by
      have := hge _ hm
      omega
    have hpush := hlinks.push (show top - size ≠ 0 by omega) hnot
    obtain ⟨w, obj', p', fs', hloop, hlinks', hnodup', hlen, hmem, hframe⟩ := @ih
      (h.setWord (top - size) p) (top - size) (top - size) (top - size) ((top - size) :: fs)
      (Nat.mod_eq_of_lt (by omega)).symm (by omega) (by omega)
      (by
        rintro x (_ | ⟨_, hx⟩)
        · exact le_rfl
        · have := hge x hx
          omega)
      (List.nodup_cons.mpr ⟨hnot, hnodup⟩) hpush
    refine ⟨w, obj', p', fs', ?_, hlinks', hnodup', by rw [hlen, List.length_cons]; omega,
      fun x hx => ?_, fun x hx => ?_⟩
    · rw [Function.iterate_succ_apply, hstep, hloop]
      rfl
    · rcases hmem x hx with hx | ⟨i, hi, hxi⟩
      · rcases List.mem_cons.mp hx with rfl | hx
        · exact Or.inr ⟨0, Nat.succ_pos n, by omega⟩
        · exact Or.inl hx
      · refine Or.inr ⟨i + 1, by omega, ?_⟩
        rw [Nat.add_mul (i + 1), Nat.one_mul]
        omega
    · rw [Nat.add_mul, Nat.one_mul] at hx
      rw [hframe x (by omega), Heap.setWord_word, Function.update_of_ne (by omega)]

/-- Nothing outside page `pfn` changed. -/
structure SameOutside (h h' : Heap π) (pfn : ℕ) : Prop where
  slabs : ∀ x, ¬ InPage pfn x → h'.slabs x = h.slabs x
  caches : ∀ x, ¬ InPage pfn x → h'.caches x = h.caches x
  nodes : ∀ m : SlabNode, ¬ InPage pfn m.addr → h'.nodes m = h.nodes m
  word : ∀ x, ¬ InPage pfn x → h'.word x = h.word x
  kmallocCaches : h'.kmallocCaches = h.kmallocCaches

theorem sameOutside_clear (h : Heap π) (pages : π) (pfn : ℕ) :
    SameOutside h ({ h with pages := pages }.clear (slabAt pfn) 4096) pfn where
  slabs := fun _ hx => if_neg hx
  caches := fun _ hx => if_neg hx
  nodes := fun _ hx => if_neg hx
  word := fun _ hx => if_neg hx
  kmallocCaches := rfl

/-- The page is the allocator's to give. -/
def Fresh (managed : Set ℕ) (granted : π → Set (ℕ × ℕ)) (s : π) (pfn : ℕ) : Prop :=
  pfn ∈ managed ∧ ∀ r ∈ granted s, pfn ∉ rangePages r

/-- Ranges that were granted still are, and their page structs are as they were. -/
def PagesStay (P : PageOps π) (granted : π → Set (ℕ × ℕ)) (s s' : π) : Prop :=
  ∀ r ∈ granted s, r ∈ granted s' ∧ ∀ i ∈ rangePages r, P.page s' i = P.page s i

theorem mem_rangePages_one (pfn : ℕ) : pfn ∈ rangePages (pfn, 1) := by
  rw [rangePages_one]
  rfl

/-- The struct of a cache is in no page that the allocator may still give. -/
theorem CacheInv.not_inPage (hI : CacheInv P managed granted h c S F)
    (hfresh : Fresh managed granted h.pages pfn) : ¬ InPage pfn c := by
  rintro ⟨h1, h2⟩
  obtain ⟨r, hr, hm⟩ := hI.home pfn hfresh.1 h1 h2
  exact hfresh.2 r hr hm

/-- Nor is any address of its slabs. -/
theorem CacheInv.not_inPage_slab (hI : CacheInv P managed granted h c S F)
    (hfresh : Fresh managed granted h.pages pfn) {l : SlabList} (ha : a ∈ S l) {x : ℕ} (hx : a ≤ x)
    (hx' : x < a + 4096) : ¬ InPage pfn x := by
  obtain ⟨p, -, rfl, hgr, -⟩ := (hI.slab_ok l a ha).page
  intro hin
  obtain rfl := eq_of_mem_page ⟨hx, hx'⟩ hin
  exact hfresh.2 _ hgr (mem_rangePages_one p)

/-- A page that the allocator may still give is not a slab yet. -/
theorem CacheInv.not_mem (hI : CacheInv P managed granted h c S F)
    (hfresh : Fresh managed granted h.pages pfn) (l : SlabList) : slabAt pfn ∉ S l := fun hl =>
  hI.not_inPage_slab hfresh hl le_rfl (Nat.lt_add_of_pos_right (by norm_num))
    ⟨le_rfl, Nat.lt_add_of_pos_right (by norm_num)⟩

/-- The nodes of a cache's lists are in no fresh page. -/
theorem CacheInv.not_inPage_node (hI : CacheInv P managed granted h c S F)
    (hfresh : Fresh managed granted h.pages pfn) {l : SlabList} {m : SlabNode}
    (hm : m ∈ slabHead c l :: slabNodes S l) : ¬ InPage pfn m.addr := by
  rcases List.mem_cons.mp hm with rfl | hm
  · exact hI.not_inPage hfresh
  · obtain ⟨b, hb, rfl⟩ := List.mem_map.mp hm
    exact hI.not_inPage_slab hfresh hb le_rfl (Nat.lt_add_of_pos_right (by norm_num))

theorem CacheInv.slab_frame (hI : CacheInv P managed granted h c S F)
    (hfresh : Fresh managed granted h.pages pfn) (hout : SameOutside h h' pfn)
    (hstay : PagesStay P granted h.pages h'.pages) {l : SlabList} (ha : a ∈ S l) :
    SlabOk P granted h' c a (F a) := by
  have hcache := hout.caches c (hI.not_inPage hfresh)
  refine (hI.slab_ok l a ha).frame (by rw [hcache]; exact ⟨rfl, rfl⟩)
    (hout.slabs a (hI.not_inPage_slab hfresh ha le_rfl (Nat.lt_add_of_pos_right (by norm_num))))
    (fun o ho => hout.word o ?_) fun p hgr _ => ?_
  · obtain ⟨_, -, -, h1, h2⟩ := hI.slot_page ha ((hI.slab_ok l a ha).slots o ho)
    exact hI.not_inPage_slab hfresh ha h1 h2
  · exact ⟨(hstay _ hgr).1, (hstay _ hgr).2 p (mem_rangePages_one p)⟩

/-- **A cache does not notice what happens in a fresh page.** -/
theorem CacheInv.frame_page (hI : CacheInv P managed granted h c S F)
    (hfresh : Fresh managed granted h.pages pfn) (hout : SameOutside h h' pfn)
    (hstay : PagesStay P granted h.pages h'.pages)
    (hall : ∀ a, IsSlabOf P h' c a → IsSlabOf P h c a) :
    CacheInv P managed granted h' c S F := by
  have hcache := hout.caches c (hI.not_inPage hfresh)
  refine ⟨hcache ▸ hI.shape,
    hI.rings.frame fun l m hm => hout.nodes m (hI.not_inPage_node hfresh hm),
    fun l a ha => hI.slab_frame hfresh hout hstay ha, fun a ha => hI.all a (hall a ha), ?_⟩
  intro p hp h1 h2
  obtain ⟨r, hr, hm⟩ := hI.home p hp h1 h2
  exact ⟨r, (hstay r hr).1, hm⟩

end Grow

end GeekToyOS
