import GeekToyOS.Data.Trace
import GeekToyOS.Kernel.BumpPages
import GeekToyOS.Kernel.SlabSteps

/-!
# Runs of a cache

A cache is set up by `kmem_init_cache` and then serves a sequence of `kmem_cache_alloc` and
`kmem_cache_free`. Between calls the objects in use may be written to. Beside the memory, a run keeps
the objects that were returned and not yet given back.

Objects are exclusive in every run. The lists are not what they are meant to be: `kmem_cache_free`
looks at `inuse` only, so a slab that was full stays on `slabs_full` when one of several objects is
given back, and is not found by the next allocation.

## Main definitions

* `SlabStep` — one call
* `SlotsExclusive`, `Classified` — the two properties of a state
* `NotFull` — the call does not free an object of a full slab, unless it is the only one

## Main results

* `slots_exclusive` — objects are exclusive throughout every run
* `classified_iff` — lists are right throughout a run iff every call of it is `NotFull`
-/

namespace GeekToyOS

open Chain

variable {π : Type*} {P : PageOps π} {managed : Set ℕ} {granted : π → Set (ℕ × ℕ)} {h h' : Heap π}
  {c a o : ℕ} {S : SlabList → List ℕ} {F : ℕ → List ℕ}

/-! ### Setting up a cache -/

/-- The cache has no slabs yet, and the memory of its struct belongs to whoever sets it up. -/
structure NewCache (P : PageOps π) (managed : Set ℕ) (granted : π → Set (ℕ × ℕ)) (h : Heap π)
    (c : ℕ) : Prop where
  none : ∀ a, ¬ IsSlabOf P h c a
  home : ∀ pfn ∈ managed, slabAt pfn ≤ c → c < slabAt pfn + 4096 →
    ∃ r ∈ granted h.pages, pfn ∈ rangePages r

/-- The numbers that `kmem_init_cache` puts down, when it is called as it is everywhere. -/
theorem kmemInitCache_shape (h : Heap π) (c : ℕ) (name : List Char) {size alignSize : ℕ}
    (hsize : 1 ≤ size) (hsize' : size ≤ pgSize - sizeofSlab) (halign : alignSize ≤ wordSize) :
    Shape ((kmemInitCache h c name size alignSize).caches c) ∧
      size ≤ ((kmemInitCache h c name size alignSize).caches c).objSize := by
  have hmax : (if alignSize < slabMinSize then slabMinSize else alignSize) = 2 ^ 3 := by
    rw [wordSize] at halign
    rw [slabMinSize]
    split <;> omega
  rw [pgSize, sizeofSlab] at hsize'
  have halign' : align size (2 ^ 3) = (size + 7) / 8 * 8 := align_two_pow (by omega) (by omega)
  have hcache : (kmemInitCache h c name size alignSize).caches c
      = { h.caches c with
          name := name.take (slabCacheMaxName - 1), objSize := w32 ((size + 7) / 8 * 8),
          size := w32 ((size + 7) / 8 * 8), align := w32 (2 ^ 3),
          objsPerPage := w32 (min (4048 / ((size + 7) / 8 * 8)) 512) } := by
    simp only [kmemInitCache, hmax, halign', Heap.setCache, Function.update_self]
    rfl
  set n := (size + 7) / 8 * 8 with hn
  have hn8 : 8 ≤ n := by omega
  have hn4048 : n ≤ 4048 := by omega
  have hw : w32 n = n := Nat.mod_eq_of_lt (by omega)
  have hdiv : 0 < 4048 / n := Nat.div_pos hn4048 (by omega)
  have hobjs : w32 (min (4048 / n) 512) = min (4048 / n) 512 := Nat.mod_eq_of_lt (by omega)
  have hmul : min (4048 / n) 512 * n ≤ 4048 :=
    (Nat.mul_le_mul_right n (min_le_left _ _)).trans (Nat.div_mul_le_self 4048 n)
  rw [hcache, hw, hobjs]
  refine ⟨⟨rfl, hn8, ?_, ?_⟩, ?_⟩
  · show 0 < min (4048 / n) 512
    omega
  · show min (4048 / n) 512 * n + sizeofSlab ≤ 4096
    rw [sizeofSlab]
    omega
  · show size ≤ n
    omega

/-- **A new cache is sound and empty**: after `kmem_init_cache` the invariant holds with no slabs. -/
theorem kmemInitCache_inv (hnew : NewCache P managed granted h c) (name : List Char)
    {size alignSize : ℕ} (hsize : 1 ≤ size) (hsize' : size ≤ pgSize - sizeofSlab)
    (halign : alignSize ≤ wordSize) :
    CacheInv P managed granted (kmemInitCache h c name size alignSize) c (fun _ => [])
      fun _ => [] := by
  have hself : ∀ l, (kmemInitCache h c name size alignSize).nodes (.cache c l)
      = ⟨.cache c l, .cache c l⟩ := by
    intro l
    cases l <;> simp only [kmemInitCache] <;>
      simp only [ne_eq, SlabNode.cache.injEq, reduceCtorEq, and_false, not_false_eq_true,
        listInit_of_ne, listInit_self]
  refine ⟨(kmemInitCache_shape h c name hsize hsize' halign).1, ⟨fun l => ?_, fun i j hij => ?_⟩,
    fun _ _ ha => absurd ha List.not_mem_nil, fun a ha => absurd ha (hnew.none a), hnew.home⟩
  · exact isRing_nil_of_self (hself l)
  · have hne : slabHead c i ≠ slabHead c j := fun he => hij (SlabNode.cache.inj he).2
    simpa [slabNodes] using hne.symm

/-! ### Runs -/

/-- The memory and the objects that were returned and not yet given back. -/
structure SlabRun (π : Type*) where
  heap : Heap π
  live : List ℕ

/-- The calls. -/
inductive SlabOp
  | alloc
  | free (obj : ℕ)
  | store (obj x v : ℕ)

/-- One call. A `store` writes a word into an object in use. -/
inductive SlabStep (P : PageOps π) (c : ℕ) : SlabRun π → SlabOp → SlabRun π → Prop
  | alloc {st : SlabRun π} {obj : ℕ} {h : Heap π}
      (hcall : kmemCacheAlloc P st.heap c = some (obj, h)) :
      SlabStep P c st .alloc ⟨h, if obj = 0 then st.live else obj :: st.live⟩
  | free {st : SlabRun π} {obj : ℕ} {h : Heap π} (hobj : obj ∈ st.live)
      (hcall : kmemCacheFree st.heap c obj = some h) :
      SlabStep P c st (.free obj) ⟨h, st.live.erase obj⟩
  | store {st : SlabRun π} {obj x v : ℕ} (hobj : obj ∈ st.live) (hx : obj ≤ x)
      (hx' : x < obj + (st.heap.caches c).objSize) :
      SlabStep P c st (.store obj x v) ⟨st.heap.setWord x v, st.live⟩

/-- The start of a run. -/
def slabStart (h : Heap π) (c : ℕ) (name : List Char) (size alignSize : ℕ) : SlabRun π :=
  ⟨kmemInitCache h c name size alignSize, []⟩

/-- **Objects are exclusive**: the counters and the freelist of each slab tell the same story, no
object is both free and in use, objects in use do not overlap each other or a header, and the slab
that the next allocation picks has an object to give. -/
structure SlotsExclusive (P : PageOps π) (c : ℕ) (st : SlabRun π) : Prop where
  counted : ∀ a, IsSlabOf P st.heap c a →
    (st.heap.slabs a).inuse + (st.heap.slabs a).free = (st.heap.caches c).objsPerPage
  chained : ∀ a, IsSlabOf P st.heap c a → ∃ fs, Links st.heap.word 0 (st.heap.slabs a).freelist fs ∧
    fs.Nodup ∧ fs.length = (st.heap.slabs a).free ∧
    ∀ o ∈ fs, IsSlot (st.heap.caches c) a o ∧ o ∉ st.live
  live_nodup : st.live.Nodup
  live_slot : ∀ o ∈ st.live, ∃ a, IsSlabOf P st.heap c a ∧ IsSlot (st.heap.caches c) a o ∧
    a + sizeofSlab ≤ o ∧ o + (st.heap.caches c).objSize ≤ a + pgSize
  live_apart : ∀ o ∈ st.live, ∀ o' ∈ st.live, o ≠ o' →
    o + (st.heap.caches c).objSize ≤ o' ∨ o' + (st.heap.caches c).objSize ≤ o
  served : ∀ {h a h'}, st.heap.acquire c = some h → pickSlab P h c = some (a, h') → a ≠ 0 →
    (h'.slabs a).freelist ≠ 0

/-- The list that starts at head `l` of the cache reaches the slab. -/
def OnList (h : Heap π) (c : ℕ) (l : SlabList) (a : ℕ) : Prop :=
  ∃ n, (fun m => (h.nodes m).next)^[n] (.cache c l) = .slab a

/-- **Slabs are on the lists they belong on**, and when `kmem_cache_alloc` would get a new page, no
slab has a free object. -/
structure Classified (P : PageOps π) (c : ℕ) (st : SlabRun π) : Prop where
  full : ∀ a, IsSlabOf P st.heap c a →
    (OnList st.heap c .slabsFull a ↔ (st.heap.slabs a).free = 0)
  part : ∀ a, IsSlabOf P st.heap c a → (OnList st.heap c .slabsPartial a ↔
    0 < (st.heap.slabs a).free ∧ 0 < (st.heap.slabs a).inuse)
  free : ∀ a, IsSlabOf P st.heap c a →
    (OnList st.heap c .slabsFree a ↔ (st.heap.slabs a).inuse = 0)
  grows : listEmpty st.heap.nodes (.cache c .slabsPartial) = true →
    listEmpty st.heap.nodes (.cache c .slabsFree) = true →
    ∀ a, IsSlabOf P st.heap c a → (st.heap.slabs a).free = 0

/-- The call does not free an object of a full slab, unless it is the only one. -/
def NotFull (st : SlabRun π) : SlabOp → Prop
  | .free obj => (st.heap.slabs (alignDown obj pgSize)).free = 0 →
      (st.heap.slabs (alignDown obj pgSize)).inuse = 1
  | _ => True

/-- **The invariant of a run.** -/
structure CacheRun (P : PageOps π) (managed : Set ℕ) (granted : π → Set (ℕ × ℕ)) (c : ℕ)
    (st : SlabRun π) (S : SlabList → List ℕ) (F : ℕ → List ℕ) : Prop where
  inv : CacheInv P managed granted st.heap c S F
  usable : Usable S F
  nodup : st.live.Nodup
  live_iff : ∀ x, x ∈ st.live ↔ LiveSlot (st.heap.caches c) S F x

namespace CacheRun

variable {st st' : SlabRun π} {op : SlabOp}

theorem start (hnew : NewCache P managed granted h c) (name : List Char) {size alignSize : ℕ}
    (hsize : 1 ≤ size) (hsize' : size ≤ pgSize - sizeofSlab) (halign : alignSize ≤ wordSize) :
    CacheRun P managed granted c (slabStart h c name size alignSize) (fun _ => []) fun _ => [] where
  inv := kmemInitCache_inv hnew name hsize hsize' halign
  usable := fun _ _ _ ha => absurd ha List.not_mem_nil
  nodup := List.nodup_nil
  live_iff := fun _ => iff_of_false List.not_mem_nil fun ⟨_, _, ha, _⟩ => absurd ha List.not_mem_nil

/-- **Every call keeps the invariant**, and a call that is `NotFull` keeps the lists sorted. -/
theorem step (hlaw : PageLaws P managed granted) (hR : CacheRun P managed granted c st S F)
    (hstep : SlabStep P c st op st') : ∃ S' F', CacheRun P managed granted c st' S' F' ∧
      (NotFull st op → SortedBut ∅ (st.heap.caches c).objsPerPage S F →
        SortedBut ∅ (st'.heap.caches c).objsPerPage S' F') := by
  cases hstep with
  | @alloc obj h hcall =>
    obtain ⟨heff, hcase⟩ := kmemCacheAlloc_cases hlaw hR.inv hR.usable hcall
    have hobjs := heff.own.2.2
    rcases hcase with ⟨rfl, hI⟩ | ⟨h0, hnot, S', F', hI, hU, hlive, hsort⟩
    · refine ⟨S, F, ⟨hI, hR.usable, ?_, fun x => ?_⟩, fun _ hS => ?_⟩
      · rw [if_pos rfl]
        exact hR.nodup
      · rw [if_pos rfl, LiveSlot.congr heff.own]
        exact hR.live_iff x
      · rw [hobjs]
        exact hS
    · refine ⟨S', F', ⟨hI, hU, ?_, fun x => ?_⟩, fun _ hS => ?_⟩
      · rw [if_neg h0]
        exact List.nodup_cons.mpr ⟨fun hm => hnot ((hR.live_iff obj).mp hm), hR.nodup⟩
      · rw [if_neg h0, LiveSlot.congr heff.own, hlive, List.mem_cons, hR.live_iff]
      · rw [hobjs]
        exact hsort hS
  | @free obj h hobj hcall =>
    obtain ⟨heff, S', F', hI, hU, hlive, hsort, -⟩ :=
      kmemCacheFree_cases hR.inv hR.usable ((hR.live_iff obj).mp hobj) hcall
    refine ⟨S', F', ⟨hI, hU, hR.nodup.erase obj, fun x => ?_⟩, fun hok hS => ?_⟩
    · rw [LiveSlot.congr heff.own, hlive, hR.nodup.mem_erase_iff, hR.live_iff]
    · rw [heff.own.2.2]
      exact hsort hS hok
  | @store obj x v hobj hx hx' =>
    obtain ⟨l, a, ha, hslot, hnot⟩ := (hR.live_iff obj).mp hobj
    refine ⟨S, F, ⟨?_, hR.usable, hR.nodup, hR.live_iff⟩, fun _ hS => hS⟩
    refine hR.inv.frame ⟨rfl, rfl, rfl⟩ (fun _ _ _ => rfl) (fun j b hb => ⟨rfl, fun y hy => ?_⟩)
      (fun _ hgr _ => ⟨hgr, rfl⟩) (fun _ hb => hb) (fun _ _ _ _ hr => hr)
    -- a free object does not start inside one in use
    refine Function.update_of_ne ?_ _ _
    rintro rfl
    have hne : obj ≠ y := by
      rintro rfl
      have hmem := (hR.inv.slab_ok j b hb).slots obj hy
      exact hnot (hR.inv.slab_eq hR.inv ha hb hslot hmem ▸ hy)
    have hapart := hR.inv.apart hR.inv ha hb hslot ((hR.inv.slab_ok j b hb).slots y hy) hne
    have hobj := hR.inv.shape.obj_size
    have hsize := hR.inv.shape.size_ge
    omega

theorem onList_iff (hI : CacheInv P managed granted h c S F) {l : SlabList} :
    OnList h c l a ↔ a ∈ S l :=
  ((hI.rings.ring l).mem_iff.symm).trans slab_mem_iff

theorem slotsExclusive (hlaw : PageLaws P managed granted) (hR : CacheRun P managed granted c st S F) :
    SlotsExclusive P c st := by
  have hobj := hR.inv.shape.obj_size
  refine ⟨fun a ha => ?_, fun a ha => ?_, hR.nodup, fun o ho => ?_, fun o ho o' ho' hne => ?_, ?_⟩
  · obtain ⟨l, hl⟩ := hR.inv.all a ha
    have hok := hR.inv.slab_ok l a hl
    rw [hok.free_eq, hok.inuse_eq]
  · obtain ⟨l, hl⟩ := hR.inv.all a ha
    have hok := hR.inv.slab_ok l a hl
    refine ⟨F a, hok.links, hok.nodup, hok.free_eq.symm, fun o ho => ⟨hok.slots o ho, fun hlive => ?_⟩⟩
    exact (LiveSlot.iff_of_mem hR.inv hl (hok.slots o ho)).mp ((hR.live_iff o).mp hlive) ho
  · obtain ⟨l, a, ha, hslot, -⟩ := (hR.live_iff o).mp ho
    have hb := hslot.bounds hR.inv.shape
    rw [← hobj] at hb
    exact ⟨a, hR.inv.isSlabOf ha, hslot, hb.1, hb.2⟩
  · obtain ⟨l, a, ha, hslot, -⟩ := (hR.live_iff o).mp ho
    obtain ⟨l', b, hb, hslot', -⟩ := (hR.live_iff o').mp ho'
    rw [hobj]
    exact hR.inv.apart hR.inv ha hb hslot hslot' hne
  · intro h a h' hacq hpick h0
    obtain rfl := acquire_eq hacq
    obtain ⟨-, ⟨hz, -⟩ | ⟨S', F', ha, hI, hU, -⟩⟩ :=
      pickSlab_cases hlaw (hR.inv.setLock c 1) hR.usable hpick
    · exact absurd hz h0
    · exact fun hnil => hU _ (by decide) a ha ((hI.slab_ok _ a ha).links.eq_null_iff.mp hnil)

theorem classified (hR : CacheRun P managed granted c st S F)
    (hS : SortedBut ∅ (st.heap.caches c).objsPerPage S F) : Classified P c st := by
  have hpos := hR.inv.shape.objs_pos
  -- where a slab is decides its counters, and the other way round
  have key : ∀ a, IsSlabOf P st.heap c a → ∃ l, (∀ j, OnList st.heap c j a ↔ j = l) ∧
      Fits (st.heap.caches c).objsPerPage l (st.heap.slabs a).free ∧
      (st.heap.slabs a).inuse + (st.heap.slabs a).free = (st.heap.caches c).objsPerPage := by
    intro a ha
    obtain ⟨l, hl⟩ := hR.inv.all a ha
    have hok := hR.inv.slab_ok l a hl
    refine ⟨l, fun j => (onList_iff hR.inv).trans ⟨fun hj => hR.inv.list_eq hj hl, fun hj => hj ▸ hl⟩,
      ?_, ?_⟩
    · rw [hok.free_eq]
      exact hS l a hl (Set.notMem_empty a)
    · rw [hok.free_eq]
      exact hok.inuse_eq
  refine ⟨fun a ha => ?_, fun a ha => ?_, fun a ha => ?_, fun hpart hfree a ha => ?_⟩
  · obtain ⟨l, hon, hfits, hsum⟩ := key a ha
    rw [hon]
    cases l <;> simp only [Fits] at hfits <;> simp only [reduceCtorEq, true_iff, false_iff] <;> omega
  · obtain ⟨l, hon, hfits, hsum⟩ := key a ha
    rw [hon]
    cases l <;> simp only [Fits] at hfits <;> simp only [reduceCtorEq, true_iff, false_iff] <;> omega
  · obtain ⟨l, hon, hfits, hsum⟩ := key a ha
    rw [hon]
    cases l <;> simp only [Fits] at hfits <;> simp only [reduceCtorEq, true_iff, false_iff] <;> omega
  · obtain ⟨l, hl⟩ := hR.inv.all a ha
    have hempty : ∀ j, listEmpty st.heap.nodes (.cache c j) = true → j ≠ l := by
      rintro j hj rfl
      have hnil := (hR.inv.rings.listEmpty_iff j).mp hj
      rw [List.map_eq_nil_iff.mp hnil] at hl
      exact absurd hl List.not_mem_nil
    have hfits := hS l a hl (Set.notMem_empty a)
    cases l with
    | slabsFull => exact (hR.inv.slab_ok _ a hl).free_eq.trans hfits
    | slabsPartial => exact absurd rfl (hempty _ hpart)
    | slabsFree => exact absurd rfl (hempty _ hfree)

/-- A slab that was full and is not any more is left on `slabs_full`. -/
theorem not_classified (hR : CacheRun P managed granted c st S F)
    (hS : SortedBut ∅ (st.heap.caches c).objsPerPage S F) (hbad : ¬ NotFull st op)
    (hstep : SlabStep P c st op st') : ¬ Classified P c st' := by
  cases hstep with
  | alloc => exact absurd trivial hbad
  | store => exact absurd trivial hbad
  | @free obj h hobj hcall =>
    rw [NotFull, Classical.not_imp] at hbad
    obtain ⟨hfree, hinuse⟩ := hbad
    have hlive := (hR.live_iff obj).mp hobj
    obtain ⟨heff, S', F', hI, -, -, -, hkeep⟩ := kmemCacheFree_cases hR.inv hR.usable hlive hcall
    obtain ⟨rfl, rfl⟩ := hkeep hinuse
    obtain ⟨l, a, ha, hslot, hnot⟩ := hlive
    obtain ⟨pfn, hlt, rfl, h1, h2⟩ := hR.inv.slot_page ha hslot
    rw [alignDown_page hlt h1 h2] at hfree hinuse hI
    have hok := hR.inv.slab_ok l _ ha
    have hfits := hS l _ ha (Set.notMem_empty _)
    rw [← hok.free_eq, hfree] at hfits
    have hpos := hR.inv.shape.objs_pos
    have hl : l = .slabsFull := by
      cases l <;> simp only [Fits] at hfits <;> first | rfl | omega
    subst hl
    intro hcl
    have hnone := (hcl.full _ (hI.isSlabOf ha)).mp ((onList_iff hI).mpr ha)
    rw [(hI.slab_ok _ _ ha).free_eq, Function.update_self, List.length_cons] at hnone
    omega

/-- Calls that are `NotFull` keep the invariant with the lists sorted. -/
theorem step_sorted (hlaw : PageLaws P managed granted)
    (hR : ∃ S F, CacheRun P managed granted c st S F ∧
      SortedBut ∅ (st.heap.caches c).objsPerPage S F)
    (hok : NotFull st op) (hstep : SlabStep P c st op st') :
    ∃ S F, CacheRun P managed granted c st' S F ∧
      SortedBut ∅ (st'.heap.caches c).objsPerPage S F := by
  obtain ⟨S, F, hR, hS⟩ := hR
  obtain ⟨S', F', hR', hsort⟩ := hR.step hlaw hstep
  exact ⟨S', F', hR', hsort hok hS⟩

end CacheRun

/-! ### Two objects a slab -/

/-- Memory in which nothing was ever written. -/
def emptyHeap : Heap BumpPages where
  pages := .empty
  slabs := fun _ => ⟨0, 0, 0, 0⟩
  caches := fun _ => ⟨[], 0, 0, 0, 0, 0⟩
  nodes := ⟨fun _ => ⟨.null, .null⟩⟩
  word := fun _ => 0
  kmallocCaches := fun _ => 0

theorem newCache_emptyHeap : NewCache bumpPages bumpManaged bumpGranted emptyHeap 64 where
  none := by
    rintro a ⟨pfn, -, -, hslab, -⟩
    refine hslab ?_
    show (0 : BitVec 32) &&& pageFlagSlab = 0
    decide
  home := by
    intro pfn _ hle
    rw [slabAt, kernBase] at hle
    omega

/-- A cache of objects that fit a slab twice. -/
def twoSlots : SlabRun BumpPages := slabStart emptyHeap 64 ['t', 'w', 'o'] 2024 wordSize

/-- The objects of its first slab. -/
def slotOne : ℕ := kernBase + 0x100030

def slotTwo : ℕ := kernBase + 0x100818

/-- Two allocations fill a slab; then one of the objects is freed. -/
theorem twoSlots_run : ∃ h₁ h₂ h₃,
    SlabStep bumpPages 64 twoSlots .alloc ⟨h₁, [slotOne]⟩ ∧
    SlabStep bumpPages 64 ⟨h₁, [slotOne]⟩ .alloc ⟨h₂, [slotTwo, slotOne]⟩ ∧
    SlabStep bumpPages 64 ⟨h₂, [slotTwo, slotOne]⟩ (.free slotOne) ⟨h₃, [slotTwo]⟩ ∧
    ¬ NotFull ⟨h₂, [slotTwo, slotOne]⟩ (.free slotOne) := by
  have heval : ((kmemCacheAlloc bumpPages twoSlots.heap 64).bind fun r =>
      (kmemCacheAlloc bumpPages r.2 64).bind fun r' => (kmemCacheFree r'.2 64 r.1).map fun _ =>
        (r.1, r'.1, (r'.2.slabs (alignDown r.1 pgSize)).free,
          (r'.2.slabs (alignDown r.1 pgSize)).inuse))
      = some (slotOne, slotTwo, 0, 2) := by decide +kernel
  obtain ⟨⟨o, h₁⟩, hcall₁, heval⟩ := Option.bind_eq_some_iff.mp heval
  obtain ⟨⟨o', h₂⟩, hcall₂, heval⟩ := Option.bind_eq_some_iff.mp heval
  obtain ⟨h₃, hcall₃, heval⟩ := Option.map_eq_some_iff.mp heval
  simp only [Prod.mk.injEq] at heval hcall₂ hcall₃
  obtain ⟨rfl, rfl, hfree, hinuse⟩ := heval
  have hstep₁ : SlabStep bumpPages 64 twoSlots .alloc _ := .alloc hcall₁
  have hstep₂ : SlabStep bumpPages 64 ⟨h₁, [slotOne]⟩ .alloc _ := .alloc hcall₂
  have hstep₃ : SlabStep bumpPages 64 ⟨h₂, [slotTwo, slotOne]⟩ (.free slotOne) _ := .free (by simp) hcall₃
  rw [if_neg (by decide)] at hstep₁ hstep₂
  exact ⟨h₁, h₂, h₃, hstep₁, hstep₂, hstep₃, fun hnot =>
    absurd ((hnot hfree).symm.trans hinuse) (by decide)⟩

section Runs

variable {name : List Char} {size alignSize : ℕ} {l : List (SlabOp × SlabRun π)}

/-- **Objects are exclusive throughout every run.** -/
theorem slots_exclusive (hlaw : PageLaws P managed granted) (hnew : NewCache P managed granted h c)
    (hsize : 1 ≤ size) (hsize' : size ≤ pgSize - sizeofSlab) (halign : alignSize ≤ wordSize)
    (hrun : Trace.Run (SlabStep P c) (slabStart h c name size alignSize) l) :
    ∀ t ∈ Trace.states (slabStart h c name size alignSize) l, SlotsExclusive P c t := by
  intro t ht
  obtain ⟨S, F, hR⟩ := Trace.always (I := fun st => ∃ S F, CacheRun P managed granted c st S F)
    (fun ⟨_, _, hR⟩ hstep => by
      obtain ⟨S', F', hR', -⟩ := hR.step hlaw hstep
      exact ⟨S', F', hR'⟩)
    hrun ⟨_, _, .start hnew name hsize hsize' halign⟩ t ht
  exact hR.slotsExclusive hlaw

/-- Two objects are taken from a slab, and the first one is given back. -/
theorem slots_exclusive_twoSlots : ∃ l, l.map Prod.fst = [.alloc, .alloc, .free slotOne] ∧
    l.map (·.2.live) = [[slotOne], [slotTwo, slotOne], [slotTwo]] ∧
    Trace.Run (SlabStep bumpPages 64) twoSlots l ∧
    ∀ t ∈ Trace.states twoSlots l, SlotsExclusive bumpPages 64 t := by
  obtain ⟨h₁, h₂, h₃, hstep₁, hstep₂, hstep₃, -⟩ := twoSlots_run
  have hrun := Trace.Run.cons hstep₁ (.cons hstep₂ (.cons hstep₃ (.nil _)))
  exact ⟨_, rfl, rfl, hrun, slots_exclusive bumpPages_laws newCache_emptyHeap (by decide) (by decide)
    (by decide) hrun⟩

/-- **The lists are right throughout a run iff every call of it is `NotFull`.** -/
theorem classified_iff (hlaw : PageLaws P managed granted) (hnew : NewCache P managed granted h c)
    (hsize : 1 ≤ size) (hsize' : size ≤ pgSize - sizeofSlab) (halign : alignSize ≤ wordSize)
    (hrun : Trace.Run (SlabStep P c) (slabStart h c name size alignSize) l) :
    (∀ t ∈ Trace.states (slabStart h c name size alignSize) l, Classified P c t) ↔
      Trace.StepsOk NotFull (slabStart h c name size alignSize) l := by
  exact Trace.invariant_iff (CacheRun.step_sorted hlaw) (fun ⟨_, _, hR, hS⟩ => hR.classified hS)
    (fun ⟨_, _, hR, hS⟩ hbad hstep => hR.not_classified hS hbad hstep) hrun
    ⟨_, _, .start hnew name hsize hsize' halign, fun _ _ ha => absurd ha List.not_mem_nil⟩

/-- Two objects are taken, which fills the slab, and none is given back. -/
theorem classified_iff_twoSlots : ∃ l, l.map Prod.fst = [.alloc, .alloc] ∧
    l.map (·.2.live) = [[slotOne], [slotTwo, slotOne]] ∧
    Trace.Run (SlabStep bumpPages 64) twoSlots l ∧
    ∀ t ∈ Trace.states twoSlots l, Classified bumpPages 64 t := by
  obtain ⟨h₁, h₂, h₃, hstep₁, hstep₂, -⟩ := twoSlots_run
  have hrun := Trace.Run.cons hstep₁ (.cons hstep₂ (.nil _))
  exact ⟨_, rfl, rfl, hrun, (classified_iff bumpPages_laws newCache_emptyHeap (by decide) (by decide)
    (by decide) hrun).mpr ⟨trivial, trivial, trivial⟩⟩

/-- Giving one of the two objects back does not: the slab stays on `slabs_full`. -/
theorem not_classified_twoSlots : PageLaws bumpPages bumpManaged bumpGranted ∧
    NewCache bumpPages bumpManaged bumpGranted emptyHeap 64 ∧
    ∃ l t, Trace.Run (SlabStep bumpPages 64) twoSlots l ∧ t ∈ Trace.states twoSlots l ∧
      ¬ Classified bumpPages 64 t := by
  obtain ⟨h₁, h₂, h₃, hstep₁, hstep₂, hstep₃, hbad⟩ := twoSlots_run
  have hrun := Trace.Run.cons hstep₁ (.cons hstep₂ (.cons hstep₃ (.nil _)))
  refine ⟨bumpPages_laws, newCache_emptyHeap, _, ⟨h₃, [slotTwo]⟩, hrun, by
    simp [Trace.states], ?_⟩
  have hstart : ∃ S F, CacheRun bumpPages bumpManaged bumpGranted 64 twoSlots S F ∧
      SortedBut ∅ (twoSlots.heap.caches 64).objsPerPage S F :=
    ⟨_, _, .start newCache_emptyHeap _ (by decide) (by decide) (by decide),
      fun _ _ ha => absurd ha List.not_mem_nil⟩
  have hone := CacheRun.step_sorted bumpPages_laws hstart (show NotFull twoSlots .alloc from trivial) hstep₁
  obtain ⟨S, F, hR, hS⟩ := CacheRun.step_sorted bumpPages_laws hone
    (show NotFull ⟨h₁, [slotOne]⟩ .alloc from trivial) hstep₂
  exact hR.not_classified hS hbad hstep₃

end Runs

end GeekToyOS
