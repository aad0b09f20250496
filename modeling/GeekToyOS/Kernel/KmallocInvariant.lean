import GeekToyOS.Kernel.Kmalloc

/-!
# What `kmalloc` keeps true

The caches that `kmem_init` sets up, taken together: each of them is sound, their structs are objects
of `mm_slab_cache`, and every slab page of the system belongs to one of them.

## Main definitions

* `HeapInv P managed granted slabCache n h S F` — the invariant with `n` caches set up

## Main results

* `HeapInv.slab`, `HeapInv.pages` — it survives calls to one cache, and dealings with the page
  allocator
* `kmemInit_inv` — `kmem_init` establishes it
-/

namespace GeekToyOS

open Chain

variable {π : Type*} {P : PageOps π} {managed : Set ℕ} {granted : π → Set (ℕ × ℕ)}
  {slabCache n : ℕ} {h h' : Heap π} {c a o : ℕ} {S : ℕ → SlabList → List ℕ} {F : ℕ → ℕ → List ℕ}

/-- `mm_slab_cache` and the first `n` caches of `kmalloc`. -/
def InFamily (slabCache n : ℕ) (h : Heap π) (c : ℕ) : Prop :=
  c = slabCache ∨ ∃ i < n, c = h.kmallocCaches i

/-- **The invariant of the heap.** -/
structure HeapInv (P : PageOps π) (managed : Set ℕ) (granted : π → Set (ℕ × ℕ)) (slabCache n : ℕ)
    (h : Heap π) (S : ℕ → SlabList → List ℕ) (F : ℕ → ℕ → List ℕ) : Prop where
  cache : ∀ c, InFamily slabCache n h c → CacheInv P managed granted h c (S c) (F c)
  usable : ∀ c, InFamily slabCache n h c → Usable (S c) (F c)
  /-- `mm_slab_cache` is not in memory that is given out. -/
  static : ∀ pfn ∈ managed, ¬ InPage pfn slabCache
  /-- The other structs are objects of `mm_slab_cache`. -/
  structs : ∀ i < n, LiveSlot (h.caches slabCache) (S slabCache) (F slabCache) (h.kmallocCaches i)
  sizes : ∀ i < n, (kmallocInfo i).2 ≤ (h.caches (h.kmallocCaches i)).objSize
  /-- Every slab page belongs to one of the caches. -/
  known : ∀ pfn, (P.page h.pages pfn).IsSlab →
    pfn ∈ managed ∧ InFamily slabCache n h (P.page h.pages pfn).u
  disjoint : (granted h.pages).PairwiseDisjoint rangePages

namespace HeapInv

/-- A slab page is a slab on a list of its cache, and granted. -/
theorem slab_page (hlaw : PageLaws P managed granted) (hH : HeapInv P managed granted slabCache n h S F)
    {pfn : ℕ} (hp : (P.page h.pages pfn).IsSlab) :
    (pfn, 1) ∈ granted h.pages ∧ InFamily slabCache n h (P.page h.pages pfn).u ∧
      ∃ l, slabAt pfn ∈ S (P.page h.pages pfn).u l := by
  obtain ⟨hm, hc⟩ := hH.known pfn hp
  obtain ⟨l, hl⟩ := (hH.cache _ hc).all (slabAt pfn) ⟨pfn, hlaw.managed_lt pfn hm, rfl, hp, rfl⟩
  obtain ⟨q, -, heq, hgr, -⟩ := ((hH.cache _ hc).slab_ok l _ hl).page
  obtain rfl := slabAt_inj heq
  exact ⟨hgr, hc, l, hl⟩

/-- The pages of a range that is granted to nobody are no slab pages. -/
theorem not_isSlab (hlaw : PageLaws P managed granted)
    (hH : HeapInv P managed granted slabCache n h S F) {r : ℕ × ℕ}
    (hfresh : ∀ q ∈ granted h.pages, Disjoint (rangePages r) (rangePages q)) {pfn : ℕ}
    (hp : pfn ∈ rangePages r) : ¬ (P.page h.pages pfn).IsSlab := fun hs =>
  Set.disjoint_left.mp (hfresh _ (hH.slab_page hlaw hs).1) hp (mem_rangePages_one pfn)

/-- A cache struct lies in a slab page of `mm_slab_cache`, unless it is `mm_slab_cache` itself. -/
theorem struct_page (hH : HeapInv P managed granted slabCache n h S F) {i : ℕ} (hi : i < n) :
    ∃ pfn, (pfn, 1) ∈ granted h.pages ∧ (P.page h.pages pfn).IsSlab ∧
      InPage pfn (h.kmallocCaches i) := by
  obtain ⟨l, a, ha, hslot, -⟩ := hH.structs i hi
  have hI := hH.cache slabCache (Or.inl rfl)
  obtain ⟨q, -, rfl, h1, h2⟩ := hI.slot_page ha hslot
  obtain ⟨p, -, heq, hgr, hs, -⟩ := (hI.slab_ok l _ ha).page
  obtain rfl := slabAt_inj heq
  exact ⟨_, hgr, hs, h1, h2⟩

/-- `mm_slab_cache` serves the structs of the others only. -/
theorem struct_ne (hH : HeapInv P managed granted slabCache n h S F) {i : ℕ} (hi : i < n) :
    h.kmallocCaches i ≠ slabCache := by
  obtain ⟨pfn, -, hs, hin⟩ := hH.struct_page hi
  intro he
  exact hH.static pfn (hH.known pfn hs).1 (he ▸ hin)

/-- Writing to memory that holds no free object keeps the invariant: the links are in free objects. -/
theorem setWord (hH : HeapInv P managed granted slabCache n h S F) {x : ℕ} (v : ℕ)
    (hx : ∀ c, InFamily slabCache n h c → ∀ l, ∀ a ∈ S c l, x ∉ F c a) :
    HeapInv P managed granted slabCache n (h.setWord x v) S F := by
  refine ⟨fun c hc => (hH.cache c hc).frame ⟨rfl, rfl, rfl⟩ (fun _ _ _ => rfl)
    (fun l a ha => ⟨rfl, fun o ho => Function.update_of_ne ?_ _ _⟩) (fun _ hgr _ => ⟨hgr, rfl⟩)
    (fun _ hb => hb) (fun _ _ _ _ hr => hr), hH.usable, hH.static, hH.structs, hH.sizes, hH.known,
    hH.disjoint⟩
  rintro rfl
  exact hx c hc l a ha ho

/-- **A call to one cache** that keeps its invariant keeps that of the whole heap. -/
theorem slab (hH : HeapInv P managed granted slabCache n h S F) (hc : InFamily slabCache n h c)
    (heff : Effects P managed granted h h' c) {S' : SlabList → List ℕ} {F' : ℕ → List ℕ}
    (hI : CacheInv P managed granted h' c S' F') (hU : Usable S' F')
    (hlive : c = slabCache → ∀ x, LiveSlot (h.caches c) (S c) (F c) x →
      LiveSlot (h.caches c) S' F' x) :
    HeapInv P managed granted slabCache n h' (Function.update S c S') (Function.update F c F') := by
  have hfam : ∀ c', InFamily slabCache n h' c' ↔ InFamily slabCache n h c' := fun c' => by
    rw [InFamily, InFamily, heff.kmallocCaches]
  have hother : ∀ c', InFamily slabCache n h c' → c' ≠ c →
      CacheInv P managed granted h' c' (S c') (F c') ∧ h'.caches c' = h.caches c' :=
    fun c' hc' hne => heff.others hne (hH.cache c' hc')
  refine ⟨fun c' hc' => ?_, fun c' hc' => ?_, hH.static, fun i hi => ?_, fun i hi => ?_,
    fun pfn hp => ?_, heff.apart hH.disjoint⟩
  · by_cases hcc : c' = c
    · subst hcc
      rwa [Function.update_self, Function.update_self]
    · rw [Function.update_of_ne hcc, Function.update_of_ne hcc]
      exact (hother c' ((hfam c').mp hc') hcc).1
  · by_cases hcc : c' = c
    · subst hcc
      rwa [Function.update_self, Function.update_self]
    · rw [Function.update_of_ne hcc, Function.update_of_ne hcc]
      exact hH.usable c' ((hfam c').mp hc')
  · rw [heff.kmallocCaches]
    by_cases hcc : slabCache = c
    · subst hcc
      rw [Function.update_self, Function.update_self, LiveSlot.congr heff.own]
      exact hlive rfl _ (hH.structs i hi)
    · rw [Function.update_of_ne hcc, Function.update_of_ne hcc, (hother _ (Or.inl rfl) hcc).2]
      exact hH.structs i hi
  · rw [heff.kmallocCaches]
    by_cases hcc : h.kmallocCaches i = c
    · rw [hcc, heff.own.2.1, ← hcc]
      exact hH.sizes i hi
    · rw [(hother _ (Or.inr ⟨i, hi, rfl⟩) hcc).2]
      exact hH.sizes i hi
  · rw [hfam]
    rcases heff.slabs pfn hp with ⟨hs, hu⟩ | ⟨hu, hm⟩
    · rw [hu]
      exact hH.known pfn hs
    · rw [hu]
      exact ⟨hm, hc⟩

/-- **Dealings with the page allocator** that leave slab pages alone. -/
theorem pages (hlaw : PageLaws P managed granted) (hH : HeapInv P managed granted slabCache n h S F)
    {s : π}
    (hkeep : ∀ pfn, (P.page h.pages pfn).IsSlab → (pfn, 1) ∈ granted h.pages →
      (pfn, 1) ∈ granted s ∧ P.page s pfn = P.page h.pages pfn)
    (hnew : ∀ pfn, (P.page s pfn).IsSlab → (P.page h.pages pfn).IsSlab)
    (hdisj : (granted s).PairwiseDisjoint rangePages) :
    HeapInv P managed granted slabCache n { h with pages := s } S F := by
  have hsame : ∀ pfn, (P.page s pfn).IsSlab → P.page s pfn = P.page h.pages pfn := fun pfn hp =>
    (hkeep pfn (hnew pfn hp) (hH.slab_page hlaw (hnew pfn hp)).1).2
  refine ⟨fun c hc => ?_, hH.usable, hH.static, hH.structs, hH.sizes, fun pfn hp => ?_, hdisj⟩
  · refine (hH.cache c hc).frame ⟨rfl, rfl, rfl⟩ (fun _ _ _ => rfl) (fun _ _ _ => ⟨rfl, fun _ _ => rfl⟩)
      (fun pfn hgr hs => hkeep pfn hs.1 hgr) ?_ (fun pfn hpfn h1 h2 _ => ?_)
    · rintro a ⟨pfn, hlt, rfl, hs, hu⟩
      exact ⟨pfn, hlt, rfl, hnew pfn hs, hsame pfn hs ▸ hu⟩
    · rcases hc with rfl | ⟨i, hi, rfl⟩
      · exact absurd ⟨h1, h2⟩ (hH.static pfn hpfn)
      · obtain ⟨p, hgr, hs, hin⟩ := hH.struct_page hi
        obtain rfl := eq_of_mem_page ⟨h1, h2⟩ hin
        exact ⟨_, (hkeep _ hs hgr).1, mem_rangePages_one pfn⟩
  · have hp' : (P.page s pfn).IsSlab := hp
    show pfn ∈ managed ∧ InFamily slabCache n h (P.page s pfn).u
    rw [hsame pfn hp']
    exact hH.known pfn (hnew pfn hp')

end HeapInv

/-! ### `kmem_init` -/

/-- Memory before `kmem_init`: `mm_slab_cache` is static, and no page struct is marked. -/
structure HeapStart (P : PageOps π) (managed : Set ℕ) (granted : π → Set (ℕ × ℕ)) (slabCache : ℕ)
    (h : Heap π) : Prop where
  static : ∀ pfn ∈ managed, ¬ InPage pfn slabCache
  none : ∀ pfn, ¬ (P.page h.pages pfn).IsSlab
  disjoint : (granted h.pages).PairwiseDisjoint rangePages

/-- `kmem_init_cache` touches neither the other caches nor the nodes outside of its own. -/
theorem kmemInitCache_frame (h : Heap π) (c : ℕ) (name : List Char) (size alignSize : ℕ) :
    (∀ c', c' ≠ c → (kmemInitCache h c name size alignSize).caches c' = h.caches c') ∧
      ∀ m : SlabNode, (∀ l, m ≠ .cache c l) →
        (kmemInitCache h c name size alignSize).nodes m = h.nodes m := by
  refine ⟨fun c' hc' => ?_, fun m hm => ?_⟩
  · simp only [kmemInitCache, Heap.setCache, Function.update_of_ne hc']
  · simp only [kmemInitCache]
    rw [listInit_of_ne _ (hm _), listInit_of_ne _ (hm _), listInit_of_ne _ (hm _)]
    rfl

theorem HeapInv.start (hstart : HeapStart P managed granted slabCache h) :
    HeapInv P managed granted slabCache 0
      (kmemInitCache h slabCache "kmem_cache".toList sizeofKmemCache wordSize) (fun _ _ => [])
      fun _ _ => [] where
  cache := by
    rintro c (rfl | ⟨i, hi, -⟩)
    · refine kmemInitCache_inv ⟨?_, fun pfn hp h1 h2 => ?_⟩ _ (by decide) (by decide) le_rfl
      · rintro a ⟨pfn, -, -, hs, -⟩
        exact hstart.none pfn hs
      · exact absurd ⟨h1, h2⟩ (hstart.static pfn hp)
    · exact absurd hi (Nat.not_lt_zero i)
  usable := fun _ _ _ _ _ ha => absurd ha List.not_mem_nil
  static := hstart.static
  structs := fun i hi => absurd hi (Nat.not_lt_zero i)
  sizes := fun i hi => absurd hi (Nat.not_lt_zero i)
  known := fun pfn hp => absurd hp (hstart.none pfn)
  disjoint := hstart.disjoint

/-- **Allocating from one of the caches** keeps the invariant of the heap, and takes an object of that
cache. -/
theorem HeapInv.alloc (hlaw : PageLaws P managed granted)
    (hH : HeapInv P managed granted slabCache n h S F) (hc : InFamily slabCache n h c)
    (hcall : kmemCacheAlloc P h c = some (o, h')) :
    Effects P managed granted h h' c ∧ ∃ S' F', HeapInv P managed granted slabCache n h' S' F' ∧
      (∀ c', c' ≠ c → S' c' = S c' ∧ F' c' = F c') ∧
      (o ≠ 0 → ¬ LiveSlot (h.caches c) (S c) (F c) o) ∧
      ∀ x, LiveSlot (h.caches c) (S' c) (F' c) x ↔
        (x = o ∧ o ≠ 0) ∨ LiveSlot (h.caches c) (S c) (F c) x := by
  obtain ⟨heff, ⟨rfl, hI⟩ | ⟨h0, hfresh, S₁, F₁, hI, hU, hlive, -⟩⟩ :=
    kmemCacheAlloc_cases hlaw (hH.cache c hc) (hH.usable c hc) hcall
  · have hH' := hH.slab hc heff hI (hH.usable c hc) fun _ _ hx => hx
    rw [Function.update_eq_self, Function.update_eq_self] at hH'
    exact ⟨heff, S, F, hH', fun _ _ => ⟨rfl, rfl⟩, fun h0 => absurd rfl h0, fun x => by simp⟩
  · refine ⟨heff, _, _, hH.slab hc heff hI hU fun _ x hx => (hlive x).mpr (Or.inr hx),
      fun c' hne => ⟨Function.update_of_ne hne _ _, Function.update_of_ne hne _ _⟩, fun _ => hfresh,
      fun x => ?_⟩
    rw [Function.update_self, Function.update_self, hlive]
    simp [h0]

/-- **One more cache**, in an object of `mm_slab_cache`. -/
theorem HeapInv.addCache (hH : HeapInv P managed granted slabCache n h S F) (hn : n < nrKmallocCache)
    (ho : LiveSlot (h.caches slabCache) (S slabCache) (F slabCache) o)
    (hne : ∀ i < n, h.kmallocCaches i ≠ o)
    (hh' : h' = kmemInitCache h o (kmallocInfo n).1.toList (kmallocInfo n).2 wordSize) :
    HeapInv P managed granted slabCache (n + 1)
      { h' with kmallocCaches := Function.update h.kmallocCaches n o }
      (Function.update S o fun _ => []) (Function.update F o fun _ => []) := by
  obtain ⟨l, a, ha, hslot, -⟩ := id ho
  have hI := hH.cache slabCache (Or.inl rfl)
  obtain ⟨q, -, rfl, h1, h2⟩ := hI.slot_page ha hslot
  obtain ⟨p, -, heq, hgr, hs, -⟩ := (hI.slab_ok l _ ha).page
  obtain rfl := slabAt_inj heq
  have hstatic : slabCache ≠ o := by
    rintro rfl
    exact hH.static _ (hH.known _ hs).1 ⟨h1, h2⟩
  have hnot : ¬ InFamily slabCache n h o := by
    rintro (he | ⟨i, hi, he⟩)
    · exact hstatic he.symm
    · exact hne i hi he.symm
  obtain ⟨hsize, hsize'⟩ := kmallocInfo_size hn
  have hpages : h'.pages = h.pages := hh' ▸ rfl
  have hslabs : h'.slabs = h.slabs := hh' ▸ rfl
  have hword : h'.word = h.word := hh' ▸ rfl
  obtain ⟨hcaches, hnodes⟩ :=
    hh' ▸ kmemInitCache_frame h o (kmallocInfo n).1.toList (kmallocInfo n).2 wordSize
  have hobj : (kmallocInfo n).2 ≤ (h'.caches o).objSize :=
    hh' ▸ (kmemInitCache_shape h o (kmallocInfo n).1.toList hsize hsize' (le_refl wordSize)).2
  have hnew : CacheInv P managed granted h' o (fun _ => []) fun _ => [] := by
    rw [hh']
    refine kmemInitCache_inv ⟨?_, fun pfn _ h3 h4 => ?_⟩ _ hsize hsize' le_rfl
    · rintro b ⟨pfn, -, -, hslab, hu⟩
      exact hnot (hu ▸ (hH.known pfn hslab).2)
    · obtain rfl := eq_of_mem_page ⟨h1, h2⟩ ⟨h3, h4⟩
      exact ⟨_, hgr, mem_rangePages_one _⟩
  have hold : ∀ c, InFamily slabCache n h c → CacheInv P managed granted h' c (S c) (F c) := by
    intro c hc
    have hco : c ≠ o := fun he => hnot (he ▸ hc)
    refine (hH.cache c hc).frame (by rw [hcaches c hco]; exact ⟨rfl, rfl, rfl⟩)
      (fun j m hm => hnodes m ?_) (fun _ _ _ => ?_) (fun _ hgr _ => ?_) (fun b hb => ?_)
      fun _ _ _ _ hr => ?_
    · rintro i rfl
      exact hco (cache_mem_iff.mp hm).1.symm
    · rw [hslabs, hword]
      exact ⟨rfl, fun _ _ => rfl⟩
    · rw [hpages]
      exact ⟨hgr, rfl⟩
    · rwa [IsSlabOf, hpages] at hb
    · rwa [hpages]
  have hkc : ∀ i < n, Function.update h.kmallocCaches n o i = h.kmallocCaches i := fun i hi =>
    Function.update_of_ne hi.ne _ _
  have hfam : ∀ c, InFamily slabCache (n + 1)
      { h' with kmallocCaches := Function.update h.kmallocCaches n o } c ↔
      InFamily slabCache n h c ∨ c = o := by
    intro c
    constructor
    · rintro (he | ⟨i, hi, he⟩)
      · exact Or.inl (Or.inl he)
      · by_cases hin : i = n
        · subst hin
          exact Or.inr (he.trans (Function.update_self _ _ _))
        · exact Or.inl (Or.inr ⟨i, by omega, he.trans (hkc i (by omega))⟩)
    · rintro ((he | ⟨i, hi, he⟩) | rfl)
      · exact Or.inl he
      · exact Or.inr ⟨i, by omega, he.trans (hkc i hi).symm⟩
      · refine Or.inr ⟨n, Nat.lt_succ_self n, ?_⟩
        show c = Function.update h.kmallocCaches n c n
        rw [Function.update_self]
  have hmem : ∀ c, InFamily slabCache n h c → c ≠ o := fun c hc he => hnot (he ▸ hc)
  refine ⟨fun c hc => ?_, fun c hc => ?_, hH.static, fun i hi => ?_, fun i hi => ?_,
    fun pfn hp => ?_, hpages ▸ hH.disjoint⟩
  · rcases (hfam c).mp hc with hc | rfl
    · rw [Function.update_of_ne (hmem c hc), Function.update_of_ne (hmem c hc)]
      exact (hold c hc).setKmallocCaches _
    · rw [Function.update_self, Function.update_self]
      exact hnew.setKmallocCaches _
  · rcases (hfam c).mp hc with hc | rfl
    · rw [Function.update_of_ne (hmem c hc), Function.update_of_ne (hmem c hc)]
      exact hH.usable c hc
    · rw [Function.update_self, Function.update_self]
      exact fun _ _ _ hb => absurd hb List.not_mem_nil
  · rw [Function.update_of_ne hstatic, Function.update_of_ne hstatic]
    show LiveSlot (h'.caches slabCache) _ _ (Function.update h.kmallocCaches n o i)
    rw [hcaches _ hstatic]
    by_cases hin : i = n
    · subst hin
      rwa [Function.update_self]
    · rw [hkc i (by omega)]
      exact hH.structs i (by omega)
  · show (kmallocInfo i).2 ≤ (h'.caches (Function.update h.kmallocCaches n o i)).objSize
    by_cases hin : i = n
    · subst hin
      rwa [Function.update_self]
    · rw [hkc i (by omega), hcaches _ (hne i (by omega))]
      exact hH.sizes i (by omega)
  · rw [hfam]
    dsimp only at hp ⊢
    rw [hpages] at hp ⊢
    exact ⟨(hH.known pfn hp).1, Or.inl (hH.known pfn hp).2⟩

theorem HeapInv.kmemInitStep (hlaw : PageLaws P managed granted)
    (hH : HeapInv P managed granted slabCache n h S F) (hn : n < nrKmallocCache)
    (hcall : kmemInitStep P slabCache h n = some h') :
    ∃ S' F', HeapInv P managed granted slabCache (n + 1) h' S' F' := by
  obtain ⟨⟨cachep, h₂⟩, hcreate, rfl⟩ := Option.map_eq_some_iff.mp hcall
  obtain ⟨⟨o, h₁⟩, halloc, hret⟩ := Option.bind_eq_some_iff.mp hcreate
  dsimp only at hret
  split at hret
  · exact absurd hret (by simp)
  · rename_i h0
    obtain ⟨rfl, rfl⟩ := Prod.mk.inj (Option.some.inj hret)
    obtain ⟨heff, S₁, F₁, hH₁, -, hfresh, hlive⟩ := hH.alloc hlaw (Or.inl rfl) halloc
    refine ⟨_, _, hH₁.addCache hn ?_ (fun i hi he => hfresh h0 ?_) rfl⟩
    · rw [LiveSlot.congr heff.own]
      exact (hlive o).mpr (Or.inl ⟨rfl, h0⟩)
    · rw [← he, heff.kmallocCaches]
      exact hH.structs i hi

/-- **`kmem_init` sets up the heap**, if it gets the memory it asks for. -/
theorem kmemInit_inv (hlaw : PageLaws P managed granted)
    (hstart : HeapStart P managed granted slabCache h) (hcall : kmemInit P h slabCache = some h') :
    ∃ S F, HeapInv P managed granted slabCache nrKmallocCache h' S F := by
  have key : ∀ n, n ≤ nrKmallocCache → ∀ {h'}, (List.range n).foldlM (GeekToyOS.kmemInitStep P slabCache)
      (kmemInitCache h slabCache "kmem_cache".toList sizeofKmemCache wordSize) = some h' →
      ∃ S F, HeapInv P managed granted slabCache n h' S F := by
    intro n
    induction n with
    | zero =>
      intro _ h' hf
      obtain rfl := Option.some.inj hf
      exact ⟨_, _, .start hstart⟩
    | succ n ih =>
      intro hn h' hf
      rw [List.range_succ, List.foldlM_append] at hf
      obtain ⟨h₁, hf₁, hf₂⟩ := Option.bind_eq_some_iff.mp hf
      obtain ⟨S, F, hH⟩ := ih (by omega) hf₁
      refine hH.kmemInitStep hlaw hn ?_
      obtain ⟨h₂, hstep, hret⟩ := Option.bind_eq_some_iff.mp hf₂
      rw [hstep]
      exact hret
  exact key nrKmallocCache le_rfl hcall

end GeekToyOS
