import GeekToyOS.Kernel.SlabInvariant

/-!
# What the slab allocator's calls do

One theorem for each call. Each says what becomes of the cache the call is about, in terms of the
sequences `S` and `F`, and that other caches notice nothing.

## Main results

* `cacheGrow_cases` — `cache_grow`
* `kmemCacheAlloc_cases` — `kmem_cache_alloc`
* `kmemCacheFree_cases` — `kmem_cache_free`
-/

namespace GeekToyOS

open Chain

variable {π : Type*} {P : PageOps π} {managed : Set ℕ} {granted : π → Set (ℕ × ℕ)}
  {h h' : Heap π} {c c' a o : ℕ} {S S' : SlabList → List ℕ} {F F' : ℕ → List ℕ}

/-! ### Growing -/

theorem isSlab_or (p : Page) (u : ℕ) :
    ({ p with flag := p.flag ||| pageFlagSlab, u := u } : Page).IsSlab := by
  intro hzero
  have hbit := congrArg (fun v : BitVec 32 => v.getLsbD 1) hzero
  simp [pageFlagSlab] at hbit

/-- What `mm_phy_page_zalloc` does for the heap: the page was not handed out before, and nothing else of the
heap changes. -/
theorem mmPhyPageZalloc_cases (hlaw : PageLaws P managed granted) {phy : ℕ}
    (hz : mmPhyPageZalloc P h 1 = some (phy, h')) :
    ∃ pfn < 2 ^ 35, phy = pfn * 4096 ∧ Fresh managed granted h.pages pfn ∧
      granted h'.pages = insert (pfn, 1) (granted h.pages) ∧
      PagesKept P (granted h.pages) h.pages h'.pages ∧
      h' = { h with pages := h'.pages }.clear (slabAt pfn) 4096 := by
  obtain ⟨⟨phy', pages⟩, halloc, he⟩ := Option.map_eq_some_iff.mp hz
  obtain ⟨rfl, rfl⟩ := Prod.mk.inj he
  obtain ⟨pfn, rfl, hin, hfresh, hgr, hkept⟩ := hlaw.alloc (k := 0) rfl (by decide) halloc
  have hmem := mem_rangePages_one pfn
  have hlt := hlaw.managed_lt pfn (hin hmem)
  refine ⟨pfn, hlt, rfl, ⟨hin hmem, fun r hr => Set.disjoint_left.mp (hfresh r hr) hmem⟩, hgr, hkept,
    ?_⟩
  show Heap.clear _ (kaddr (pfn * 4096)) (wmul 1 pgSize) = Heap.clear _ (slabAt pfn) 4096
  rw [kaddr_eq_slabAt hlt]
  rfl

/-- What `cache_grow` leaves beside the new slab. -/
structure GrownPage (P : PageOps π) (managed : Set ℕ) (granted : π → Set (ℕ × ℕ)) (h h' : Heap π)
    (pfn : ℕ) : Prop where
  fresh : Fresh managed granted h.pages pfn
  outside : SameOutside h h' pfn
  stay : PagesStay P granted h.pages h'.pages
  granted_eq : granted h'.pages = insert (pfn, 1) (granted h.pages)
  keeps : ∀ i, i ≠ pfn → (P.page h.pages i).Keeps (P.page h'.pages i)

/-- The new slab is the only one that was none before. -/
theorem GrownPage.isSlabOf {pfn : ℕ} (hg : GrownPage P managed granted h h' pfn)
    (hb : IsSlabOf P h' c a) : IsSlabOf P h c a ∨ a = slabAt pfn := by
  obtain ⟨p, hp, rfl, hs, hu⟩ := hb
  by_cases hpe : p = pfn
  · exact Or.inr (hpe ▸ rfl)
  · exact Or.inl ⟨p, hp, rfl, (hg.keeps p hpe).isSlab hs, (hg.keeps p hpe).u_eq.symm.trans hu⟩

/-- What the rest of `cache_grow` does with the page: it is a slab of the cache, all of its objects are on
the freelist, and nothing outside of the page changes but the lists of the cache. -/
theorem initSlab_cases (hlaw : PageLaws P managed granted) (hshape : Shape (h.caches c)) {pfn : ℕ}
    (hlt : pfn < 2 ^ 35) (hgr : (pfn, 1) ∈ granted h.pages) :
    SameOutside h (initSlab P h c (pfn * 4096)) pfn ∧
      granted (initSlab P h c (pfn * 4096)).pages = granted h.pages ∧
      (∀ i, i ≠ pfn → P.page (initSlab P h c (pfn * 4096)).pages i = P.page h.pages i) ∧
      (initSlab P h c (pfn * 4096)).caches = h.caches ∧
      ∃ fs, fs.length = (h.caches c).objsPerPage ∧
        SlabOk P granted (initSlab P h c (pfn * 4096)) c (slabAt pfn) fs := by
  have hpage : (pfn * 4096) >>> pgShift = pfn := by
    rw [pgShift, Nat.shiftRight_eq_div_pow]
    omega
  obtain ⟨hgr', hpages⟩ := hlaw.setPage (s := h.pages) (i := pfn)
    (p := { P.page h.pages pfn with flag := (P.page h.pages pfn).flag ||| pageFlagSlab, u := c })
    ⟨_, hgr, mem_rangePages_one pfn⟩
  have hpos : 0 < (h.caches c).size := by
    have := hshape.size_ge
    omega
  have hfits := hshape.fits
  rw [sizeofSlab] at hfits
  set h₂ := (h.setPage P pfn
    { P.page h.pages pfn with flag := (P.page h.pages pfn).flag ||| pageFlagSlab, u := c }).setSlab
      (slabAt pfn)
      { h.slabs (slabAt pfn) with page := pfn, inuse := 0, free := (h.caches c).objsPerPage } with hh₂
  obtain ⟨w, obj, p, fs, hloop, hlinks, hnodup, hlen, hmem, hframe⟩ :=
    @growStep_spec π _ hpos (h.caches c).objsPerPage h₂ (slabAt pfn + 4096) (wadd (slabAt pfn) pgSize)
      0 [] rfl (by rw [slabAt, kernBase]; omega) (by omega)
      (fun _ hx => absurd hx List.not_mem_nil) List.nodup_nil links_nil
  have hinit : initSlab P h c (pfn * 4096) = { h₂ with word := w }.setSlab (slabAt pfn)
      { h₂.slabs (slabAt pfn) with freelist := p } := by
    simp only [initSlab, hpage, kaddr_eq_slabAt hlt, Heap.setPage_slabs, Heap.setPage_caches,
      Heap.setSlab_caches]
    rw [← hh₂, hloop]
  have hself : h₂.slabs (slabAt pfn)
      = { h.slabs (slabAt pfn) with page := pfn, inuse := 0, free := (h.caches c).objsPerPage } := by
    rw [hh₂, Heap.setSlab_slabs_self]
  rw [hself] at hinit
  rw [List.length_nil, Nat.zero_add] at hlen
  have hslot : ∀ x ∈ fs, IsSlot (h.caches c) (slabAt pfn) x := fun x hx =>
    (hmem x hx).resolve_left List.not_mem_nil
  rw [hinit]
  refine ⟨⟨fun x hx => ?_, fun _ _ => rfl, fun _ _ => rfl, fun x hx => ?_, rfl⟩, hgr',
    fun i hi => ?_, rfl, fs, hlen, ⟨⟨pfn, hlt, rfl, ?_, ?_, ?_⟩, ?_, hnodup, hslot, ?_, ?_⟩⟩
  · have hne : x ≠ slabAt pfn := by
      rintro rfl
      exact hx ⟨le_rfl, Nat.lt_add_of_pos_right (by norm_num)⟩
    rw [Heap.setSlab_slabs_of_ne _ _ hne]
    exact Heap.setSlab_slabs_of_ne _ _ hne
  · refine hframe x ?_
    have := hshape.objs_pos
    rw [InPage] at hx
    omega
  · exact (hpages i).trans (if_neg hi)
  · exact hgr'.symm ▸ hgr
  · exact (hpages pfn).trans (if_pos rfl) ▸ isSlab_or _ c
  · exact congrArg Page.u ((hpages pfn).trans (if_pos rfl))
  · rw [Heap.setSlab_slabs_self]
    exact hlinks
  · rw [Heap.setSlab_slabs_self]
    exact hlen.symm
  · rw [Heap.setSlab_slabs_self, hlen]
    exact Nat.zero_add _

/-- **`cache_grow`** clears a fresh page and makes it a slab with all its objects free; it gives up if
the page is the one at physical address zero. -/
theorem cacheGrow_cases (hlaw : PageLaws P managed granted)
    (hI : CacheInv P managed granted h c S F) (hgrow : cacheGrow P h c = some (a, h')) :
    ∃ pfn < 2 ^ 35, GrownPage P managed granted h h' pfn ∧
      ((a = 0 ∧ (P.page h.pages pfn).Keeps (P.page h'.pages pfn)) ∨
        (a = slabAt pfn ∧ ∃ fs, fs.length = (h.caches c).objsPerPage ∧
          SlabOk P granted h' c a fs)) := by
  obtain ⟨⟨phy, h₁⟩, hz, he⟩ := Option.map_eq_some_iff.mp hgrow
  obtain ⟨pfn, hlt, rfl, hfresh, hgr, hkept, hh₁⟩ := mmPhyPageZalloc_cases hlaw hz
  have hout : SameOutside h h₁ pfn := hh₁ ▸ sameOutside_clear h h₁.pages pfn
  have hcache : h₁.caches c = h.caches c := hout.caches c (hI.not_inPage hfresh)
  refine ⟨pfn, hlt, ?_⟩
  dsimp only at he
  by_cases h0 : pfn * 4096 = 0
  · rw [if_pos h0, Prod.mk.injEq] at he
    obtain ⟨rfl, rfl⟩ := he
    refine ⟨⟨hfresh, hout, fun r hr => ⟨?_, hkept.same r hr⟩, hgr, fun i _ => hkept.keeps i⟩,
      Or.inl ⟨rfl, hkept.keeps pfn⟩⟩
    rw [hgr]
    exact Set.mem_insert_of_mem _ hr
  · rw [if_neg h0, kaddr_eq_slabAt hlt, Prod.mk.injEq] at he
    obtain ⟨rfl, rfl⟩ := he
    obtain ⟨hout₂, hgr₂, hpages₂, -, hslab⟩ := initSlab_cases (c := c) hlaw (hcache ▸ hI.shape) hlt
      (hgr ▸ Set.mem_insert _ _)
    rw [hcache] at hslab
    refine ⟨⟨hfresh, ⟨fun x hx => ?_, fun x hx => ?_, fun m hm => ?_, fun x hx => ?_, ?_⟩,
      fun r hr => ⟨?_, fun i hi => ?_⟩, hgr₂.trans hgr, fun i hi => ?_⟩, Or.inr ⟨rfl, hslab⟩⟩
    · exact (hout₂.slabs x hx).trans (hout.slabs x hx)
    · exact (hout₂.caches x hx).trans (hout.caches x hx)
    · exact (hout₂.nodes m hm).trans (hout.nodes m hm)
    · exact (hout₂.word x hx).trans (hout.word x hx)
    · exact hout₂.kmallocCaches.trans hout.kmallocCaches
    · rw [hgr₂, hgr]
      exact Set.mem_insert_of_mem _ hr
    · have hne : i ≠ pfn := fun he => hfresh.2 r hr (he ▸ hi)
      exact (hpages₂ i hne).trans (hkept.same r hr i hi)
    · rw [hpages₂ i hi]
      exact hkept.keeps i

/-! ### What a call to one cache does to the rest -/

/-- The numbers of a cache struct stay. -/
def SameShape (k k' : KmemCache) : Prop :=
  k'.size = k.size ∧ k'.objSize = k.objSize ∧ k'.objsPerPage = k.objsPerPage

/-- Effects on what does not belong to cache `c`. -/
structure Effects (P : PageOps π) (managed : Set ℕ) (granted : π → Set (ℕ × ℕ)) (h h' : Heap π)
    (c : ℕ) : Prop where
  own : SameShape (h.caches c) (h'.caches c)
  others : ∀ {c' S F}, c' ≠ c → CacheInv P managed granted h c' S F →
    CacheInv P managed granted h' c' S F ∧ h'.caches c' = h.caches c'
  stay : PagesStay P granted h.pages h'.pages
  /-- Pages become slab pages of `c` only. -/
  slabs : ∀ i, (P.page h'.pages i).IsSlab →
    ((P.page h.pages i).IsSlab ∧ (P.page h'.pages i).u = (P.page h.pages i).u) ∨
      ((P.page h'.pages i).u = c ∧ i ∈ managed)
  apart : (granted h.pages).PairwiseDisjoint rangePages →
    (granted h'.pages).PairwiseDisjoint rangePages
  kmallocCaches : h'.kmallocCaches = h.kmallocCaches

namespace Effects

theorem trans {h'' : Heap π} (e : Effects P managed granted h h' c)
    (e' : Effects P managed granted h' h'' c) : Effects P managed granted h h'' c where
  own := ⟨e'.own.1.trans e.own.1, e'.own.2.1.trans e.own.2.1, e'.own.2.2.trans e.own.2.2⟩
  others := fun hne hI =>
    ⟨(e'.others hne (e.others hne hI).1).1,
      (e'.others hne (e.others hne hI).1).2.trans (e.others hne hI).2⟩
  stay := fun r hr => ⟨(e'.stay r (e.stay r hr).1).1, fun i hi =>
    ((e'.stay r (e.stay r hr).1).2 i hi).trans ((e.stay r hr).2 i hi)⟩
  slabs := fun i hi => by
    rcases e'.slabs i hi with ⟨hs, hu⟩ | hnew
    · rcases e.slabs i hs with ⟨hs, hu'⟩ | ⟨hc, hlt⟩
      · exact Or.inl ⟨hs, hu.trans hu'⟩
      · exact Or.inr ⟨hu.trans hc, hlt⟩
    · exact Or.inr hnew
  apart := fun hd => e'.apart (e.apart hd)
  kmallocCaches := e'.kmallocCaches.trans e.kmallocCaches

/-- A call that leaves the pages alone affects nothing else if it keeps the other caches. -/
theorem of_pages_eq (hpages : h'.pages = h.pages) (hk : h'.kmallocCaches = h.kmallocCaches)
    (hown : SameShape (h.caches c) (h'.caches c))
    (hothers : ∀ {c' S F}, c' ≠ c → CacheInv P managed granted h c' S F →
      CacheInv P managed granted h' c' S F ∧ h'.caches c' = h.caches c') :
    Effects P managed granted h h' c where
  own := hown
  others := hothers
  stay := fun r hr => by
    rw [hpages]
    exact ⟨hr, fun _ _ => rfl⟩
  slabs := fun i hi => by
    rw [hpages] at hi ⊢
    exact Or.inl ⟨hi, rfl⟩
  apart := fun hd => by rwa [hpages]
  kmallocCaches := hk

theorem setLock (h : Heap π) (c v : ℕ) :
    Effects P managed granted h (h.setCache c { h.caches c with lock := v }) c := by
  refine of_pages_eq rfl rfl ?_ fun hne hI => ⟨hI.setLock c v, ?_⟩
  · rw [SameShape, Heap.setCache]
    simp
  · rw [Heap.setCache]
    exact Function.update_of_ne hne _ _

theorem move (hI : CacheInv P managed granted h c S F) {l : SlabList} (ha : a ∈ S l) (l' : SlabList) :
    Effects P managed granted h (h.moveSlab a c l') c := by
  refine of_pages_eq rfl rfl ⟨rfl, rfl, rfl⟩ fun hne hI' => ⟨?_, rfl⟩
  exact hI.others hne ha hI' rfl rfl
    (fun m hm => hI.rings.move_frame (List.mem_map_of_mem ha) l' hm) (fun _ _ => rfl) fun _ _ => rfl

theorem setSlab (hI : CacheInv P managed granted h c S F) {l : SlabList} (ha : a ∈ S l) (s : Slab) :
    Effects P managed granted h (h.setSlab a s) c := by
  refine of_pages_eq rfl rfl ⟨rfl, rfl, rfl⟩ fun hne hI' => ⟨?_, rfl⟩
  exact hI.others hne ha hI' rfl rfl (fun _ _ => rfl) (fun b hb => Heap.setSlab_slabs_of_ne h s hb)
    fun _ _ => rfl

theorem setWord (hI : CacheInv P managed granted h c S F) {l : SlabList} (ha : a ∈ S l)
    (ho : IsSlot (h.caches c) a o) (v : ℕ) : Effects P managed granted h (h.setWord o v) c := by
  refine of_pages_eq rfl rfl ⟨rfl, rfl, rfl⟩ fun hne hI' => ⟨?_, rfl⟩
  refine hI.others hne ha hI' rfl rfl (fun _ _ => rfl) (fun _ _ => rfl) fun x hx => ?_
  refine Function.update_of_ne ?_ _ _
  rintro rfl
  exact hx ho

/-- Growing a cache leaves the other caches alone. -/
theorem grow (hI : CacheInv P managed granted h c S F) {pfn : ℕ}
    (hg : GrownPage P managed granted h h' pfn)
    (hpfn : (P.page h'.pages pfn).IsSlab → (P.page h'.pages pfn).u = c ∨
      (P.page h.pages pfn).Keeps (P.page h'.pages pfn)) :
    Effects P managed granted h h' c := by
  have hcache := hg.outside.caches c (hI.not_inPage hg.fresh)
  have hslabs : ∀ i, (P.page h'.pages i).IsSlab →
      ((P.page h.pages i).IsSlab ∧ (P.page h'.pages i).u = (P.page h.pages i).u) ∨
        ((P.page h'.pages i).u = c ∧ i ∈ managed) := by
    intro i hi
    by_cases he : i = pfn
    · subst he
      rcases hpfn hi with hu | hk
      · exact Or.inr ⟨hu, hg.fresh.1⟩
      · exact Or.inl ⟨hk.isSlab hi, hk.u_eq⟩
    · exact Or.inl ⟨(hg.keeps i he).isSlab hi, (hg.keeps i he).u_eq⟩
  refine ⟨by rw [hcache]; exact ⟨rfl, rfl, rfl⟩, fun hne hI' => ⟨?_, ?_⟩, hg.stay, hslabs,
    fun hd => ?_, hg.outside.kmallocCaches⟩
  · refine hI'.frame_page hg.fresh hg.outside hg.stay ?_
    rintro b ⟨p, hp, rfl, hs, hu⟩
    rcases hslabs p hs with ⟨hs', hu'⟩ | ⟨hc, -⟩
    · exact ⟨p, hp, rfl, hs', hu'.symm.trans hu⟩
    · exact absurd (hu.symm.trans hc) hne
  · exact hg.outside.caches _ (hI'.not_inPage hg.fresh)
  · rw [hg.granted_eq]
    refine hd.insert fun r hr _ => ?_
    rw [rangePages_one]
    exact Set.disjoint_singleton_left.mpr (hg.fresh.2 r hr)

/-- A new slab goes to the front of `slabs_partial`; nobody else's list notices. -/
theorem addFirst (hr : Rings h.nodes (slabHead c) (slabNodes S))
    (hS : ∀ l, ∀ b ∈ S l, IsSlabOf P h c b) (ha : IsSlabOf P h c a) :
    Effects P managed granted h
      { h with nodes := listAddFirst h.nodes (.slab a) (.cache c .slabsPartial) } c := by
  refine of_pages_eq rfl rfl ⟨rfl, rfl, rfl⟩ fun hne hI' => ⟨?_, rfl⟩
  refine hI'.frame ⟨rfl, rfl, rfl⟩ (fun l m hm => ?_) (fun _ _ _ => ⟨rfl, fun _ _ => rfl⟩)
    (fun _ hgr _ => ⟨hgr, rfl⟩) (fun _ hb => hb) (fun _ _ _ _ hr => hr)
  have hown : ∀ b, IsSlabOf P h c b → m ≠ .slab b := by
    rintro b hb rfl
    exact hne ((hI'.isSlabOf (slab_mem_iff.mp hm)).unique hb)
  refine hr.addFirst_frame .slabsPartial (fun j hj => ?_) (hown a ha)
  rcases List.mem_cons.mp hj with rfl | hj
  · exact hne (cache_mem_iff.mp hm).1.symm
  · obtain ⟨b, hb, rfl⟩ := List.mem_map.mp hj
    exact hown b (hS j b hb) rfl

end Effects

/-! ### Picking a slab -/

/-- The objects that are in use: those of the slabs of the cache that are not on a freelist. -/
def LiveSlot (k : KmemCache) (S : SlabList → List ℕ) (F : ℕ → List ℕ) (o : ℕ) : Prop :=
  ∃ l, ∃ a ∈ S l, IsSlot k a o ∧ o ∉ F a

/-- A slab with `k` of `n` objects free belongs on list `l`. -/
def Fits (n : ℕ) : SlabList → ℕ → Prop
  | .slabsFull, k => k = 0
  | .slabsPartial, k => 0 < k ∧ k < n
  | .slabsFree, k => k = n

/-- Slabs other than those in `but` are on the list they belong on. -/
def SortedBut (but : Set ℕ) (n : ℕ) (S : SlabList → List ℕ) (F : ℕ → List ℕ) : Prop :=
  ∀ l, ∀ a ∈ S l, a ∉ but → Fits n l (F a).length

theorem IsSlot.congr {k k' : KmemCache} (hk : SameShape k k') : IsSlot k' a o ↔ IsSlot k a o := by
  rw [IsSlot, IsSlot, hk.1, hk.2.2]

theorem LiveSlot.congr {k k' : KmemCache} (hk : SameShape k k') :
    LiveSlot k' S F o ↔ LiveSlot k S F o := by
  simp only [LiveSlot, IsSlot.congr hk]

/-- The lists with a new slab on `slabs_partial`. -/
def grown (S : SlabList → List ℕ) (a : ℕ) : SlabList → List ℕ :=
  Function.update S .slabsPartial (a :: S .slabsPartial)

theorem mem_grown {l : SlabList} {b : ℕ} :
    b ∈ grown S a l ↔ (b = a ∧ l = .slabsPartial) ∨ b ∈ S l := by
  by_cases hl : l = .slabsPartial
  · subst hl
    simp [grown]
  · simp [grown, hl]

theorem slabNodes_grown (S : SlabList → List ℕ) (a : ℕ) : slabNodes (grown S a)
    = Function.update (slabNodes S) .slabsPartial (.slab a :: slabNodes S .slabsPartial) := by
  funext l
  by_cases hl : l = .slabsPartial
  · subst hl
    simp [slabNodes, grown]
  · simp [slabNodes, grown, hl]

section Grown

variable {pfn : ℕ} {fs : List ℕ}

/-- **`cache_grow` and the insertion after it**: the cache has one more slab. -/
theorem CacheInv.grow (hI : CacheInv P managed granted h c S F)
    (hg : GrownPage P managed granted h h' pfn) (hok : SlabOk P granted h' c (slabAt pfn) fs) :
    CacheInv P managed granted
      { h' with nodes := listAddFirst h'.nodes (.slab (slabAt pfn)) (.cache c .slabsPartial) } c
      (grown S (slabAt pfn)) (Function.update F (slabAt pfn) fs) := by
  have hrings : Rings h'.nodes (slabHead c) (slabNodes S) :=
    hI.rings.frame fun l m hm => hg.outside.nodes m (hI.not_inPage_node hg.fresh hm)
  refine ⟨?_, ?_, fun l b hb => ?_, fun b hb => ?_, fun p hp h1 h2 => ?_⟩
  · show Shape (h'.caches c)
    rw [hg.outside.caches c (hI.not_inPage hg.fresh)]
    exact hI.shape
  · rw [slabNodes_grown]
    exact hrings.addFirst .slabsPartial fun l hl => hI.not_mem hg.fresh l (slab_mem_iff.mp hl)
  · rcases mem_grown.mp hb with ⟨rfl, -⟩ | hb
    · rw [Function.update_self]
      exact hok.frame ⟨rfl, rfl⟩ rfl (fun _ _ => rfl) fun _ hgr _ => ⟨hgr, rfl⟩
    · rw [Function.update_of_ne fun he : b = slabAt pfn => hI.not_mem hg.fresh l (he ▸ hb)]
      exact (hI.slab_frame hg.fresh hg.outside hg.stay hb).frame ⟨rfl, rfl⟩ rfl (fun _ _ => rfl)
        fun _ hgr _ => ⟨hgr, rfl⟩
  · rcases hg.isSlabOf hb with hb | rfl
    · obtain ⟨l, hl⟩ := hI.all b hb
      exact ⟨l, mem_grown.mpr (Or.inr hl)⟩
    · exact ⟨.slabsPartial, mem_grown.mpr (Or.inl ⟨rfl, rfl⟩)⟩
  · obtain ⟨r, hr, hm⟩ := hI.home p hp h1 h2
    exact ⟨r, (hg.stay r hr).1, hm⟩

/-- ... and the rest of the system notices nothing. -/
theorem Effects.growAddFirst (hI : CacheInv P managed granted h c S F)
    (hg : GrownPage P managed granted h h' pfn) (hok : SlabOk P granted h' c (slabAt pfn) fs) :
    Effects P managed granted h
      { h' with nodes := listAddFirst h'.nodes (.slab (slabAt pfn)) (.cache c .slabsPartial) } c := by
  have hslab := hok.isSlabOf
  refine (Effects.grow hI hg fun _ => Or.inl ?_).trans (Effects.addFirst
    (hI.rings.frame fun l m hm => hg.outside.nodes m (hI.not_inPage_node hg.fresh hm))
    (fun l b hb => (hI.slab_frame hg.fresh hg.outside hg.stay hb).isSlabOf) hslab)
  obtain ⟨p, -, heq, -, hu⟩ := hslab
  rwa [slabAt_inj heq]

/-- All objects of a new slab are free, so that none is added to those in use. -/
theorem LiveSlot.grown (hnew : ∀ l, a ∉ S l) {k : KmemCache}
    (hall : ∀ x, IsSlot k a x → x ∈ fs) :
    LiveSlot k (grown S a) (Function.update F a fs) o ↔ LiveSlot k S F o := by
  constructor
  · rintro ⟨l, b, hb, hslot, hnot⟩
    rcases mem_grown.mp hb with ⟨rfl, -⟩ | hb
    · rw [Function.update_self] at hnot
      exact absurd (hall o hslot) hnot
    · rw [Function.update_of_ne fun he : b = a => hnew l (he ▸ hb)] at hnot
      exact ⟨l, b, hb, hslot, hnot⟩
  · rintro ⟨l, b, hb, hslot, hnot⟩
    refine ⟨l, b, mem_grown.mpr (Or.inr hb), hslot, ?_⟩
    rwa [Function.update_of_ne fun he : b = a => hnew l (he ▸ hb)]

theorem Usable.grown (hU : Usable S F) (hfs : fs ≠ []) :
    Usable (grown S a) (Function.update F a fs) := by
  intro l hl b hb
  by_cases hba : b = a
  · rw [hba, Function.update_self]
    exact hfs
  · rw [Function.update_of_ne hba]
    exact hU l hl b ((mem_grown.mp hb).resolve_left fun he => hba he.1)

theorem SortedBut.grown {n : ℕ} (hS : SortedBut ∅ n S F) :
    SortedBut {a} n (grown S a) (Function.update F a fs) := by
  intro l b hb hba
  rw [Function.update_of_ne hba]
  exact hS l b ((mem_grown.mp hb).resolve_left fun he => hba he.1) (Set.notMem_empty b)

end Grown

theorem LiveSlot.moved (hI : CacheInv P managed granted h c S F) {l : SlabList} (ha : a ∈ S l)
    (l' : SlabList) {k : KmemCache} :
    LiveSlot k (CacheInv.moved S l a l') F o ↔ LiveSlot k S F o := by
  constructor
  · rintro ⟨j, b, hb, hslot⟩
    rcases (hI.mem_moved ha).mp hb with ⟨rfl, -⟩ | ⟨-, hb⟩
    · exact ⟨l, b, ha, hslot⟩
    · exact ⟨j, b, hb, hslot⟩
  · rintro ⟨j, b, hb, hslot⟩
    by_cases hba : b = a
    · exact ⟨l', b, (hI.mem_moved ha).mpr (Or.inl ⟨hba, rfl⟩), hslot⟩
    · exact ⟨j, b, (hI.mem_moved ha).mpr (Or.inr ⟨hba, hb⟩), hslot⟩

theorem Usable.moved (hU : Usable S F) (hI : CacheInv P managed granted h c S F) {l l' : SlabList}
    (ha : a ∈ S l) (hF : l' ≠ .slabsFull → F a ≠ []) : Usable (CacheInv.moved S l a l') F := by
  intro j hj b hb
  rcases (hI.mem_moved ha).mp hb with ⟨rfl, rfl⟩ | ⟨-, hb⟩
  · exact hF hj
  · exact hU j hj b hb

theorem SortedBut.moved {n : ℕ} (hS : SortedBut {a} n S F) (hI : CacheInv P managed granted h c S F)
    {l : SlabList} (ha : a ∈ S l) {l' : SlabList} (hF : Fits n l' (F a).length) :
    SortedBut ∅ n (CacheInv.moved S l a l') F := by
  intro j b hb _
  rcases (hI.mem_moved ha).mp hb with ⟨rfl, rfl⟩ | ⟨hba, hb⟩
  · exact hF
  · exact hS j b hb hba

/-- **The choice of a slab.** The cache is as before, except that the chosen slab, if there is one, is
on `slabs_partial` and has free objects. -/
theorem pickSlab_cases (hlaw : PageLaws P managed granted)
    (hI : CacheInv P managed granted h c S F) (hU : Usable S F)
    (hpick : pickSlab P h c = some (a, h')) :
    Effects P managed granted h h' c ∧
      ((a = 0 ∧ CacheInv P managed granted h' c S F) ∨
        ∃ S' F', a ∈ S' .slabsPartial ∧ CacheInv P managed granted h' c S' F' ∧ Usable S' F' ∧
          (∀ x, LiveSlot (h.caches c) S' F' x ↔ LiveSlot (h.caches c) S F x) ∧
          (SortedBut ∅ (h.caches c).objsPerPage S F →
            SortedBut {a} (h.caches c).objsPerPage S' F')) := by
  have hempty : ∀ l, listEmpty h.nodes (.cache c l) = true ↔ S l = [] := fun l =>
    (hI.rings.listEmpty_iff l).trans List.map_eq_nil_iff
  have hfront : ∀ {l}, ¬ listEmpty h.nodes (.cache c l) = true →
      ∃ b ∈ S l, listFrontSlab h.nodes (.cache c l) = some b := by
    intro l hne
    obtain ⟨b, bs, hl⟩ := List.exists_cons_of_ne_nil fun he => hne ((hempty l).mpr he)
    have hnext : (h.nodes (.cache c l)).next = .slab b :=
      hI.rings.next_head (i := l) (show slabNodes S l = .slab b :: bs.map .slab by
        rw [slabNodes, hl]; rfl)
    refine ⟨b, hl ▸ List.mem_cons_self, ?_⟩
    rw [listFrontSlab, if_neg hne, hnext]
  rw [pickSlab] at hpick
  by_cases hpart : listEmpty h.nodes (.cache c .slabsPartial) = true
  · rw [if_neg (not_not_intro hpart)] at hpick
    by_cases hfree : listEmpty h.nodes (.cache c .slabsFree) = true
    · -- a new slab
      rw [if_neg (not_not_intro hfree)] at hpick
      obtain ⟨⟨a', h₁⟩, hgrow, he⟩ := Option.map_eq_some_iff.mp hpick
      obtain ⟨pfn, -, hg, hcase⟩ := cacheGrow_cases hlaw hI hgrow
      rcases hcase with ⟨rfl, hkeeps⟩ | ⟨rfl, fs, hlen, hok⟩
      · obtain ⟨rfl, rfl⟩ := Prod.mk.inj he
        have heff : Effects P managed granted h h₁ c :=
          Effects.grow hI hg fun _ => Or.inr hkeeps
        refine ⟨heff, Or.inl ⟨rfl, hI.frame_page hg.fresh hg.outside hg.stay ?_⟩⟩
        rintro b hb
        rcases hg.isSlabOf hb with hb' | rfl
        · exact hb'
        · obtain ⟨p, hp, heq, hs, hu⟩ := hb
          obtain rfl := slabAt_inj heq
          exact ⟨_, hp, rfl, hkeeps.isSlab hs, hkeeps.u_eq.symm.trans hu⟩
      · simp only [slabAt_ne_zero, if_false] at he
        obtain ⟨rfl, rfl⟩ := Prod.mk.inj he
        have hobjs := hI.shape.objs_pos
        refine ⟨Effects.growAddFirst hI hg hok, Or.inr ⟨_, _,
          mem_grown.mpr (Or.inl ⟨rfl, rfl⟩), hI.grow hg hok, hU.grown ?_,
          fun x => LiveSlot.grown (hI.not_mem hg.fresh) fun y hy => ?_, SortedBut.grown⟩⟩
        · rintro rfl
          rw [List.length_nil] at hlen
          omega
        · have hcache := hg.outside.caches c (hI.not_inPage hg.fresh)
          exact IsSlot.mem_of_length hok.nodup (fun z hz => hcache ▸ hok.slots z hz) hlen hy
    · -- the first slab of `slabs_free`
      rw [if_pos hfree] at hpick
      obtain ⟨b, hb, hfr⟩ := hfront hfree
      rw [hfr] at hpick
      obtain ⟨rfl, rfl⟩ := Prod.mk.inj (Option.some.inj hpick)
      refine ⟨Effects.move hI hb _, Or.inr ⟨_, F, ?_, hI.move hb _,
        hU.moved hI hb fun _ => hU _ (by decide) _ hb, fun x => LiveSlot.moved hI hb _, ?_⟩⟩
      · exact (hI.mem_moved hb).mpr (Or.inl ⟨rfl, rfl⟩)
      · intro hS j d hd hne
        rcases (hI.mem_moved hb).mp hd with ⟨rfl, -⟩ | ⟨-, hd⟩
        · exact absurd rfl hne
        · exact hS j d hd (Set.notMem_empty d)
  · -- the first slab of `slabs_partial`
    rw [if_pos hpart] at hpick
    obtain ⟨b, hb, hfr⟩ := hfront hpart
    rw [hfr] at hpick
    obtain ⟨rfl, rfl⟩ := Prod.mk.inj (Option.some.inj hpick)
    refine ⟨Effects.of_pages_eq rfl rfl ⟨rfl, rfl, rfl⟩ fun _ hI' => ⟨hI', rfl⟩,
      Or.inr ⟨S, F, hb, hI, hU, fun x => Iff.rfl, fun hS l d hd _ => hS l d hd (Set.notMem_empty d)⟩⟩

/-! ### Allocating and freeing -/

/-- An object of a slab that is not on the freelist is in use. -/
theorem LiveSlot.iff_of_mem (hI : CacheInv P managed granted h c S F) {l : SlabList} (ha : a ∈ S l)
    (ho : IsSlot (h.caches c) a o) : LiveSlot (h.caches c) S F o ↔ o ∉ F a := by
  constructor
  · rintro ⟨j, b, hb, hslot, hnot⟩
    rwa [hI.slab_eq hI ha hb ho hslot]
  · exact fun hnot => ⟨l, a, ha, ho, hnot⟩

/-- What is in use after the free objects of one slab changed: its own objects ... -/
theorem LiveSlot.update_iff (hI : CacheInv P managed granted h c S F) {l : SlabList} (ha : a ∈ S l)
    {fs : List ℕ} (ho : IsSlot (h.caches c) a o) :
    LiveSlot (h.caches c) S (Function.update F a fs) o ↔ o ∉ fs := by
  constructor
  · rintro ⟨j, b, hb, hslot, hnot⟩
    rwa [← hI.slab_eq hI ha hb ho hslot, Function.update_self] at hnot
  · intro hnot
    refine ⟨l, a, ha, ho, ?_⟩
    rwa [Function.update_self]

/-- A change of the freelist of one slab matters for none of the objects of other slabs. -/
theorem LiveSlot.update_of_not {k : KmemCache} {fs : List ℕ} (ho : ¬ IsSlot k a o) :
    LiveSlot k S (Function.update F a fs) o ↔ LiveSlot k S F o := by
  refine exists_congr fun j => exists_congr fun b => and_congr_right fun _ =>
    and_congr_right fun hslot => ?_
  rw [Function.update_of_ne]
  rintro rfl
  exact ho hslot

/-- **Taking the first object** of a slab on `slabs_partial`. There is one, and it was not in use. -/
theorem takeObject_cases (hI : CacheInv P managed granted h c S F) (hU : Usable S F)
    (ha : a ∈ S .slabsPartial) : ∃ o h', takeObject h c a = some (o, h') ∧ o ≠ 0 ∧
      Effects P managed granted h h' c ∧ ¬ LiveSlot (h.caches c) S F o ∧
      ∃ S' F', CacheInv P managed granted h' c S' F' ∧ Usable S' F' ∧
        (∀ x, LiveSlot (h.caches c) S' F' x ↔ x = o ∨ LiveSlot (h.caches c) S F x) ∧
        (SortedBut {a} (h.caches c).objsPerPage S F →
          SortedBut ∅ (h.caches c).objsPerPage S' F') := by
  have hok := hI.slab_ok _ a ha
  obtain ⟨o, rest, hF⟩ := List.exists_cons_of_ne_nil (hU _ (by decide) a ha)
  have hmem : o ∈ F a := hF ▸ List.mem_cons_self
  have hlinks := hok.links
  rw [hF] at hlinks
  have hhead : (h.slabs a).freelist = o := hlinks.eq_head
  have hslot : IsSlot (h.caches c) a o := hok.slots o hmem
  have hnotLive : ¬ LiveSlot (h.caches c) S F o := fun hl => (LiveSlot.iff_of_mem hI ha hslot).mp hl hmem
  have hnotRest : o ∉ rest := (List.nodup_cons.mp (hF ▸ hok.nodup)).1
  set h₁ := h.setSlab a ((h.slabs a).take (h.word o)) with hh₁
  have hI₁ : CacheInv P managed granted h₁ c S (Function.update F a rest) := hI.take ha hF
  have heff₁ : Effects P managed granted h h₁ c := Effects.setSlab hI ha _
  have hfree : (h₁.slabs a).free = rest.length := by
    have := (hI₁.slab_ok _ a ha).free_eq
    rwa [Function.update_self] at this
  have hlive : ∀ x, LiveSlot (h.caches c) S (Function.update F a rest) x ↔
      x = o ∨ LiveSlot (h.caches c) S F x := by
    intro x
    by_cases hx : IsSlot (h.caches c) a x
    · rw [LiveSlot.update_iff hI ha hx, LiveSlot.iff_of_mem hI ha hx, hF, List.mem_cons, not_or]
      by_cases hxo : x = o
      · simp [hxo, hnotRest]
      · simp [hxo]
    · rw [LiveSlot.update_of_not hx]
      refine ⟨Or.inr, fun hor => hor.resolve_left ?_⟩
      rintro rfl
      exact hx hslot
  have htake : takeObject h c a
      = some (o, if (h₁.slabs a).free = 0 then h₁.moveSlab a c .slabsFull else h₁) := by
    rw [takeObject, hhead, if_neg hlinks.head_ne]
  by_cases h0 : rest = []
  · rw [if_pos (by rw [hfree, h0]; rfl)] at htake
    refine ⟨o, _, htake, hlinks.head_ne, heff₁.trans (Effects.move hI₁ ha _), hnotLive, _, _,
      hI₁.move ha .slabsFull, ?_, fun x => (LiveSlot.moved hI₁ ha _).trans (hlive x), fun hS => ?_⟩
    · intro j hj b hb
      rcases (hI₁.mem_moved ha).mp hb with ⟨-, rfl⟩ | ⟨hba, hb⟩
      · exact absurd rfl hj
      · rw [Function.update_of_ne hba]
        exact hU j hj b hb
    · intro j b hb hnot
      rcases (hI₁.mem_moved ha).mp hb with ⟨rfl, rfl⟩ | ⟨hba, hb⟩
      · rw [Function.update_self, h0]
        rfl
      · rw [Function.update_of_ne hba]
        exact hS j b hb hba
  · rw [if_neg (by rw [hfree]; exact fun he => h0 (List.length_eq_zero_iff.mp he))] at htake
    refine ⟨o, _, htake, hlinks.head_ne, heff₁, hnotLive, _, _, hI₁, ?_, hlive, fun hS => ?_⟩
    · intro j hj b hb
      by_cases hba : b = a
      · rw [hba, Function.update_self]
        exact h0
      · rw [Function.update_of_ne hba]
        exact hU j hj b hb
    · intro j b hb hnot
      by_cases hba : b = a
      · subst hba
        rw [Function.update_self, hI.list_eq hb ha]
        have hle := IsSlot.length_le hok.nodup hok.slots
        rw [hF, List.length_cons] at hle
        exact ⟨List.length_pos_iff.mpr h0, hle⟩
      · rw [Function.update_of_ne hba]
        exact hS j b hb hba

theorem acquire_eq (hacq : h.acquire c = some h') :
    h' = h.setCache c { h.caches c with lock := 1 } := by
  rw [Heap.acquire] at hacq
  split at hacq
  · exact absurd hacq (by simp)
  · exact (Option.some.inj hacq).symm

/-- **`kmem_cache_alloc`** either returns `NULL`, or an object that was not in use and is from now on.
Slabs are sorted into their lists if they were. -/
theorem kmemCacheAlloc_cases (hlaw : PageLaws P managed granted)
    (hI : CacheInv P managed granted h c S F) (hU : Usable S F)
    (hcall : kmemCacheAlloc P h c = some (o, h')) :
    Effects P managed granted h h' c ∧
      ((o = 0 ∧ CacheInv P managed granted h' c S F) ∨
        o ≠ 0 ∧ ¬ LiveSlot (h.caches c) S F o ∧
        ∃ S' F', CacheInv P managed granted h' c S' F' ∧ Usable S' F' ∧
          (∀ x, LiveSlot (h.caches c) S' F' x ↔ x = o ∨ LiveSlot (h.caches c) S F x) ∧
          (SortedBut ∅ (h.caches c).objsPerPage S F →
            SortedBut ∅ (h.caches c).objsPerPage S' F')) := by
  obtain ⟨h₁, hacq, hcall⟩ := Option.bind_eq_some_iff.mp hcall
  obtain ⟨⟨a, h₂⟩, hpick, hret⟩ := Option.bind_eq_some_iff.mp hcall
  obtain rfl := acquire_eq hacq
  have heff₁ : Effects P managed granted h _ c := Effects.setLock h c 1
  obtain ⟨heff₂, hcase⟩ := pickSlab_cases hlaw (hI.setLock c 1) hU hpick
  have heff := heff₁.trans heff₂
  rcases hcase with ⟨rfl, hI₂⟩ | ⟨S₂, F₂, ha, hI₂, hU₂, hlive₂, hsort₂⟩
  · obtain ⟨rfl, rfl⟩ := Prod.mk.inj (Option.some.inj hret)
    exact ⟨heff.trans (Effects.setLock h₂ c 0), Or.inl ⟨rfl, hI₂.setLock c 0⟩⟩
  · have ha0 : a ≠ 0 := by
      obtain ⟨pfn, -, rfl, -⟩ := hI₂.isSlabOf ha
      exact slabAt_ne_zero pfn
    dsimp only at hret
    rw [if_neg ha0] at hret
    obtain ⟨o', h₃, htake, ho0, heff₃, hnot, S₃, F₃, hI₃, hU₃, hlive₃, hsort₃⟩ :=
      takeObject_cases hI₂ hU₂ ha
    rw [htake] at hret
    obtain ⟨rfl, rfl⟩ := Prod.mk.inj (Option.some.inj hret)
    have hlive : ∀ x, LiveSlot (h.caches c) S₂ F₂ x ↔ LiveSlot (h.caches c) S F x := fun x => by
      rw [← LiveSlot.congr heff₁.own, hlive₂, LiveSlot.congr heff₁.own]
    rw [heff₁.own.2.2] at hsort₂
    rw [heff.own.2.2] at hsort₃
    refine ⟨(heff.trans heff₃).trans (Effects.setLock h₃ c 0), Or.inr ⟨ho0, ?_, S₃, F₃,
      hI₃.setLock c 0, hU₃, fun x => ?_, fun hs => hsort₃ (hsort₂ hs)⟩⟩
    · rwa [LiveSlot.congr heff.own, hlive] at hnot
    · rw [← LiveSlot.congr heff.own, hlive₃, LiveSlot.congr heff.own, hlive]

/-- What `kmem_cache_free` does under the lock: the object is free, and the slab may have moved to
`slabs_free`. -/
theorem giveObject_cases (hI : CacheInv P managed granted h c S F) (hU : Usable S F) {l : SlabList}
    (ha : a ∈ S l) (ho : IsSlot (h.caches c) a o) (hnot : o ∉ F a) {h₁ : Heap π}
    (hh₁ : h₁ = (h.setWord o (h.slabs a).freelist).setSlab a ((h.slabs a).give o))
    (hh' : h' = if (h₁.slabs a).inuse = 0 then h₁.moveSlab a c .slabsFree else h₁) :
    Effects P managed granted h h' c ∧ ∃ S' F', CacheInv P managed granted h' c S' F' ∧
      Usable S' F' ∧ (∀ x, LiveSlot (h.caches c) S' F' x ↔ x ≠ o ∧ LiveSlot (h.caches c) S F x) ∧
      (SortedBut ∅ (h.caches c).objsPerPage S F →
        ((h.slabs a).free = 0 → (h.slabs a).inuse = 1) →
          SortedBut ∅ (h.caches c).objsPerPage S' F') ∧
      ((h.slabs a).inuse ≠ 1 → S' = S ∧ F' = Function.update F a (o :: F a)) := by
  have hok := hI.slab_ok l a ha
  have hI₁ : CacheInv P managed granted h₁ c S (Function.update F a (o :: F a)) :=
    hh₁ ▸ hI.give ha ho hnot
  have heff₁ : Effects P managed granted h h₁ c := by
    have hI₀ : CacheInv P managed granted (h.setWord o (h.slabs a).freelist) c S F := by
      refine hI.frame ⟨rfl, rfl, rfl⟩ (fun _ _ _ => rfl) (fun j b hb => ⟨rfl, fun x hx => ?_⟩)
        (fun _ hgr _ => ⟨hgr, rfl⟩) (fun _ hb => hb) (fun _ _ _ _ hr => hr)
      refine Function.update_of_ne ?_ _ _
      rintro rfl
      have hx' := (hI.slab_ok j b hb).slots x hx
      exact hnot (hI.slab_eq hI hb ha hx' ho ▸ hx)
    rw [hh₁]
    exact (Effects.setWord hI ha ho _).trans (Effects.setSlab hI₀ ha _)
  have hinuse : (h₁.slabs a).inuse + ((F a).length + 1) = (h.caches c).objsPerPage := by
    have := (hI₁.slab_ok l a ha).inuse_eq
    rwa [Function.update_self, List.length_cons, heff₁.own.2.2] at this
  have hU₁ : Usable S (Function.update F a (o :: F a)) := by
    intro j hj b hb
    by_cases hba : b = a
    · rw [hba, Function.update_self]
      exact List.cons_ne_nil o (F a)
    · rw [Function.update_of_ne hba]
      exact hU j hj b hb
  have hlive : ∀ x, LiveSlot (h.caches c) S (Function.update F a (o :: F a)) x ↔
      x ≠ o ∧ LiveSlot (h.caches c) S F x := by
    intro x
    by_cases hx : IsSlot (h.caches c) a x
    · rw [LiveSlot.update_iff hI ha hx, LiveSlot.iff_of_mem hI ha hx, List.mem_cons, not_or]
    · rw [LiveSlot.update_of_not hx]
      refine ⟨fun hl => ⟨?_, hl⟩, And.right⟩
      rintro rfl
      exact hx ho
  have hsort : SortedBut ∅ (h.caches c).objsPerPage S F →
      SortedBut {a} (h.caches c).objsPerPage S (Function.update F a (o :: F a)) := by
    intro hS j b hb hba
    rw [Function.update_of_ne hba]
    exact hS j b hb (Set.notMem_empty b)
  by_cases h0 : (h₁.slabs a).inuse = 0
  · rw [if_pos h0] at hh'
    subst hh'
    refine ⟨heff₁.trans (Effects.move hI₁ ha _), _, _, hI₁.move ha .slabsFree, hU₁.moved hI₁ ha ?_,
      fun x => (LiveSlot.moved hI₁ ha _).trans (hlive x), fun hS _ => (hsort hS).moved hI₁ ha ?_,
      fun hne => ?_⟩
    · intro _
      rw [Function.update_self]
      exact List.cons_ne_nil o (F a)
    · rw [Function.update_self, List.length_cons]
      show _ = _
      omega
    · have := hok.inuse_eq
      omega
  · rw [if_neg h0] at hh'
    subst hh'
    refine ⟨heff₁, _, _, hI₁, hU₁, hlive, fun hS hcond => ?_, fun _ => ⟨rfl, rfl⟩⟩
    intro j b hb hbut
    by_cases hba : b = a
    · subst hba
      obtain rfl := hI.list_eq hb ha
      rw [Function.update_self, List.length_cons]
      have hfits := hS j b hb hbut
      have hfree := hok.free_eq
      have hinuse' := hok.inuse_eq
      cases j with
      | slabsFull =>
        have hnil : (F b).length = 0 := hfits
        have := hcond (hfree.trans hnil)
        omega
      | slabsPartial => exact ⟨Nat.succ_pos _, by omega⟩
      | slabsFree => exact absurd (IsSlot.mem_of_length hok.nodup hok.slots hfits ho) hnot
    · exact hsort hS j b hb hba

/-- **`kmem_cache_free`** of an object in use ends its use. If slabs were sorted into their lists, they
still are unless the slab of the object was full and is not free now. -/
theorem kmemCacheFree_cases (hI : CacheInv P managed granted h c S F) (hU : Usable S F)
    (ho : LiveSlot (h.caches c) S F o) (hcall : kmemCacheFree h c o = some h') :
    Effects P managed granted h h' c ∧ ∃ S' F', CacheInv P managed granted h' c S' F' ∧
      Usable S' F' ∧ (∀ x, LiveSlot (h.caches c) S' F' x ↔ x ≠ o ∧ LiveSlot (h.caches c) S F x) ∧
      (SortedBut ∅ (h.caches c).objsPerPage S F →
        ((h.slabs (alignDown o pgSize)).free = 0 → (h.slabs (alignDown o pgSize)).inuse = 1) →
          SortedBut ∅ (h.caches c).objsPerPage S' F') ∧
      ((h.slabs (alignDown o pgSize)).inuse ≠ 1 → S' = S ∧
        F' = Function.update F (alignDown o pgSize) (o :: F (alignDown o pgSize))) := by
  obtain ⟨h₁, hacq, hret⟩ := Option.bind_eq_some_iff.mp hcall
  obtain rfl := acquire_eq hacq
  have heff₁ : Effects P managed granted h _ c := Effects.setLock h c 1
  obtain ⟨l, a, ha, hslot, hnot⟩ := ho
  obtain ⟨pfn, hlt, rfl, h1, h2⟩ := hI.slot_page ha hslot
  have hdown : alignDown o pgSize = slabAt pfn := alignDown_page hlt h1 h2
  rw [hdown]
  simp only [hdown] at hret
  obtain ⟨heff₂, S', F', hI', hU', hlive, hsort, hkeep⟩ := giveObject_cases (hI.setLock c 1) hU ha
    ((IsSlot.congr heff₁.own).mpr hslot) hnot rfl rfl
  rw [← Option.some.inj hret]
  refine ⟨(heff₁.trans heff₂).trans (Effects.setLock _ c 0), S', F', hI'.setLock c 0, hU',
    fun x => ?_, ?_, hkeep⟩
  · rw [← LiveSlot.congr heff₁.own, hlive, LiveSlot.congr heff₁.own]
  · rw [heff₁.own.2.2] at hsort
    exact hsort

end GeekToyOS
