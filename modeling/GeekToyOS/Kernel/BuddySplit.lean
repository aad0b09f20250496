import GeekToyOS.Kernel.BuddySafety

/-!
# What one allocation returns

A single call of `buddy_page_alloc` in any zone that is in order: aligned disjoint blocks, each flagged
with the order of its list, and counters that count. Nothing is assumed of the other page structs, so
buddies may lie beside each other unmerged and pages that are handed out may carry any flag.

Since the order of a request is always computed as zero (`orderLoop_eq`), the call takes the front block
of the first list that is not empty and halves it down to one page. `allocatesRange_iff` says when that
is what a request for `2 ^ k` pages should get.

## Main definitions

* `ZoneOk s L` — the zone is in order
* `AllocatesRange s k` — a request for `2 ^ k` pages is served as it should be

## Main results

* `ZoneOk.del`, `ZoneOk.put`, `expandLoop_zoneOk` — the steps of an allocation
* `ZoneOk.alloc_cases` — what an allocation does to the set of free blocks
* `allocatesRange_iff` — requests for one page are served as they should be, others only by refusal
-/

namespace GeekToyOS

open Dyadic

/-- **A zone in order**, with lists `L`. -/
structure ZoneOk (s : Buddy) (L : ℕ → List ℕ) : Prop extends Ringed s L where
  /-- The free blocks are aligned and disjoint. -/
  blocks : Apart (blocksOf L)
  /-- The counters are the lengths of the lists. -/
  counts : ∀ k < maxOrder, s.zone.count k = (L k).length
  /-- The zone's page numbers are `size_t`s other than `PFN_NOTFOUND`. -/
  fits : s.zone.pfnBase + s.zone.nrPages < 2 ^ 64
  /-- Free pages belong to the zone. -/
  free_in : cover (blocksOf L) ⊆ s.zone.pages

theorem Sound.toZoneOk {s : Buddy} {L : ℕ → List ℕ} {out : Set ℕ} (h : Sound s L out) :
    ZoneOk s L :=
  ⟨h.toListed.toRinged, h.packing.toApart, h.counts, h.fits, h.free_in⟩

namespace ZoneOk

variable {s : Buddy} {L : ℕ → List ℕ} {k p : ℕ}

theorem lt_of_mem_pages (h : ZoneOk s L) {x : ℕ} (hx : x ∈ s.zone.pages) : x + 1 < 2 ^ 64 := by
  have := h.fits
  have := hx.2
  omega

theorem mem_cover (hk : k < maxOrder) (hp : p ∈ L k) : block k p ⊆ cover (blocksOf L) :=
  block_subset_cover (b := (k, p)) ⟨hk, hp⟩

theorem length_le (h : ZoneOk s L) (hk : k < maxOrder) : (L k).length ≤ s.zone.nrPages :=
  Sound.length_le_of_nodup (h.nodup hk) fun p hp => h.free_in (mem_cover hk hp (head_mem_block k p))

/-- **Taking a block off its list** leaves the zone in order. -/
theorem del (h : ZoneOk s L) (hk : k < maxOrder) (hp : p ∈ L k) :
    ZoneOk (delPageFromFreeList s p k) (Function.update L k ((L k).erase p)) := by
  have hblocks := h.blocksOf_erase (p := p) hk
  refine ⟨h.toRinged.del hk hp, ?_, fun j hj => ?_, h.fits, ?_⟩
  · rw [hblocks]
    exact h.blocks.erase _
  · rw [del_count]
    by_cases hjk : j = k
    · subst hjk
      have hpos : 0 < (L j).length := List.length_pos_of_mem hp
      have hlen := h.length_le hj
      have hfits := h.fits
      rw [Function.update_self, Function.update_self, List.length_erase_of_mem hp, h.counts j hj,
        wsub_of_le hpos (by omega)]
    · rw [Function.update_of_ne hjk, Function.update_of_ne hjk, h.counts j hj]
  · rw [hblocks, h.blocks.cover_erase ⟨hk, hp⟩]
    exact Set.sdiff_subset.trans h.free_in

/-- **Putting a block on a list** leaves the zone in order, if none of its pages is free already. -/
theorem put (h : ZoneOk s L) (hk : k < maxOrder) (hp : 2 ^ k ∣ p) (hzone : block k p ⊆ s.zone.pages)
    (hfree : Disjoint (block k p) (cover (blocksOf L))) :
    ZoneOk (putPage s p k) (Function.update L k (L k ++ [p])) := by
  have hnot : ∀ j < maxOrder, p ∉ L j := fun j hj hm =>
    Set.disjoint_left.mp hfree (head_mem_block k p) (mem_cover hj hm (head_mem_block j p))
  have hlt : p < 2 ^ 64 := Nat.lt_of_succ_lt (h.lt_of_mem_pages (hzone (head_mem_block k p)))
  have hring := h.toRinged.put hk hlt hnot
  have hblocks := blocksOf_put (L := L) (p := p) hk
  have hin : cover (blocksOf (Function.update L k (L k ++ [p]))) ⊆ s.zone.pages := by
    rw [hblocks, cover_insert]
    exact Set.union_subset h.free_in hzone
  refine ⟨hring, ?_, fun j hj => ?_, h.fits, hin⟩
  · rw [hblocks]
    exact h.blocks.insert hp hfree
  · rw [put_count]
    by_cases hjk : j = k
    · subst hjk
      have hlen : (L j ++ [p]).length ≤ s.zone.nrPages := by
        refine Sound.length_le_of_nodup ?_ fun q hq => hin ⟨(j, q), ⟨hj, ?_⟩, head_mem_block j q⟩
        · simpa using hring.nodup hj
        · rwa [Function.update_self]
      have hfits := h.fits
      rw [List.length_append, List.length_singleton] at hlen
      rw [Function.update_self, Function.update_self, List.length_append, h.counts j hj,
        wadd_of_lt (by omega)]
      rfl
    · rw [Function.update_of_ne hjk, Function.update_of_ne hjk, h.counts j hj]

theorem setNrFreePages (h : ZoneOk s L) (n : ℕ) : ZoneOk (s.setNrFreePages n) L :=
  ⟨⟨h.base, h.base_lt, h.rings, h.page_lt, h.tagged⟩, h.blocks, h.counts, h.fits, h.free_in⟩

end ZoneOk

/-- **Halving a block** puts its upper halves on the lists. -/
theorem expandLoop_zoneOk (target : ℕ) {page : ℕ} : ∀ (o : ℕ) {s : Buddy} {L : ℕ → List ℕ},
    o < maxOrder → target ≤ o → 2 ^ o ∣ page → ZoneOk s L → block o page ⊆ s.zone.pages →
    Disjoint (block o page) (cover (blocksOf L)) →
    ∃ L', ZoneOk (expandLoop page target s o (2 ^ o)) L' ∧
      blocksOf L' = blocksOf L ∪ halves target o page ∧
      ∀ x ∉ block o page, (expandLoop page target s o (2 ^ o)).memPages x = s.memPages x := by
  intro o
  induction o with
  | zero =>
    intro s L _ ht _ h _ _
    obtain rfl : target = 0 := Nat.le_zero.mp ht
    exact ⟨L, by simpa [expandLoop] using h, by rw [halves_self, Set.union_empty], fun _ _ => rfl⟩
  | succ o ih =>
    intro s L ho ht hal h hzone hfree
    by_cases hlt : target < o + 1
    · have hal' : 2 ^ o ∣ page := dvd_trans (pow_dvd_pow 2 (Nat.le_succ o)) hal
      have hlower : block o page ⊆ block (o + 1) page :=
        block_subset_of_mem (Nat.le_succ o) hal' hal (head_mem_block _ _) (head_mem_block _ _)
      have hupper : block o (page + 2 ^ o) ⊆ block (o + 1) page := by
        intro x hx
        rw [mem_block] at hx ⊢
        omega
      have hhalves : Disjoint (block o page) (block o (page + 2 ^ o)) :=
        Set.disjoint_left.mpr fun x hx hx' => by
          have := hx.2
          have := hx'.1
          omega
      have hput := h.put (by omega) (Nat.dvd_add hal' dvd_rfl) (hupper.trans hzone)
        (hfree.mono_left hupper)
      have hpage : page + 2 ^ o < 2 ^ 64 :=
        Nat.lt_of_succ_lt (h.lt_of_mem_pages (hzone (hupper (head_mem_block o _))))
      have hstep : expandLoop page target s (o + 1) (2 ^ (o + 1))
          = expandLoop page target (putPage s (page + 2 ^ o) o) o (2 ^ o) := by
        rw [expandLoop, if_pos hlt]
        simp only [Nat.shiftRight_one]
        rw [pow_succ, Nat.mul_div_cancel _ (by norm_num), wadd_of_lt hpage, setBuddyOrder_add]
      obtain ⟨L', hL', hblocks, hpages⟩ := ih (by omega) (by omega) hal' hput (hlower.trans hzone) (by
        rw [blocksOf_put (by omega), cover_insert, Set.disjoint_union_right]
        exact ⟨hfree.mono_left hlower, hhalves⟩)
      refine ⟨L', hstep ▸ hL', ?_, fun x hx => ?_⟩
      · rw [hblocks, blocksOf_put (by omega), halves_succ (Nat.le_of_lt_succ hlt), Set.insert_union,
          Set.union_insert]
      · rw [hstep, hpages x fun hm => hx (hlower hm), put_memPages_of_ne]
        rintro rfl
        exact hx (hupper (head_mem_block o _))
    · obtain rfl : target = o + 1 := by omega
      have hstep : expandLoop page (o + 1) s (o + 1) (2 ^ (o + 1)) = s := by
        rw [expandLoop, if_neg hlt]
      rw [hstep]
      exact ⟨L, h, by rw [halves_self, Set.union_empty], fun _ _ => rfl⟩

variable {s : Buddy} {L : ℕ → List ℕ}

/-- **What an allocation does to the free blocks.** It finds every list empty, or it takes the front
block of the first list that is not, whatever the size asked for, and halves it down to a page. -/
theorem ZoneOk.alloc_cases (h : ZoneOk s L) (n : ℕ) :
    (buddyPageAlloc s n = some (pfnNotfound, s) ∧ ∀ k < maxOrder, L k = []) ∨
    ∃ j p rest s' L', j < maxOrder ∧ L j = p :: rest ∧ (∀ i < j, L i = []) ∧
      buddyPageAlloc s n = some (p, s') ∧ ZoneOk s' L' ∧
      blocksOf L' = blocksOf L \ {(j, p)} ∪ halves 0 j p ∧
      ∀ x ∉ block j p, s'.memPages x = s.memPages x := by
  have halloc : buddyPageAlloc s n = allocSearch s n 0 maxOrder 0 := by
    simp only [buddyPageAlloc, orderLoop_eq, Nat.sub_zero]
  rw [halloc]
  rcases allocSearch_cases h.toRinged h.counts n 0 maxOrder 0 rfl with ⟨hres, hnil⟩ | hfound
  · exact Or.inl ⟨hres, fun k hk => hnil k (Nat.zero_le k) hk⟩
  · obtain ⟨j, p, rest, -, hj, hL, hnil, hres⟩ := hfound
    have hmem : p ∈ L j := by
      rw [hL]
      exact List.mem_cons_self
    have hblock : (j, p) ∈ blocksOf L := ⟨hj, hmem⟩
    have hzone : block j p ⊆ s.zone.pages := (block_subset_cover hblock).trans h.free_in
    have hpfn : p < 2 ^ 64 := Nat.lt_of_succ_lt (h.lt_of_mem_pages (hzone (head_mem_block j p)))
    obtain ⟨L', hL', hblocks, hpages⟩ := expandLoop_zoneOk 0 j hj (Nat.zero_le j) (h.blocks.aligned _ hblock)
      (h.del hj hmem) hzone (by
        rw [h.blocksOf_erase hj, h.blocks.cover_erase hblock]
        exact Set.disjoint_sdiff_right)
    have hexp : (if j ≠ 0 then expandBuddy (delPageFromFreeList s p j) p j 0
        else delPageFromFreeList s p j) = expandLoop p 0 (delPageFromFreeList s p j) j (2 ^ j) := by
      cases j with
      | zero => rfl
      | succ j => rw [if_pos (Nat.succ_ne_zero j), expandBuddy, Nat.one_shiftLeft]
    set t := expandLoop p 0 (delPageFromFreeList s p j) j (2 ^ j) with ht
    have hL₁ := hL'.setNrFreePages (wsub t.zone.nrFreePages n)
    refine Or.inr ⟨j, p, rest, _, L', hj, hL, fun i hi => hnil i (Nat.zero_le i) hi, ?_, hL₁, ?_,
      fun x hx => (hpages x hx).trans ?_⟩
    · rw [hres]
      simp only [hexp]
      rw [pageToPfn_eq hL₁.base hL₁.base_lt hpfn]
    · rw [hblocks, h.blocksOf_erase hj]
    · have hne : x ≠ p := fun he => hx (he ▸ head_mem_block j p)
      simp [delPageFromFreeList, Buddy.setPage, Buddy.setCount, hne]

/-! ### What a request should get -/

/-- A block of order `k` at `pfn` was cut out of the free block of order `j` at `q`. -/
structure CutFrom (s s' : Buddy) (k pfn j q : ℕ) : Prop where
  aligned : 2 ^ k ∣ pfn
  was_free : block k pfn ⊆ cover (freeBlocks s)
  loses : cover (freeBlocks s') = cover (freeBlocks s) \ block k pfn
  source : (j, q) ∈ freeBlocks s
  order_ge : k ≤ j
  smallest : ∀ i, k ≤ i → i < j → ∀ p, ¬ onFreeList s i p
  inside : block k pfn ⊆ block j q
  /-- The rest of the block is on the lists, as one block of each order from `k` up to `j - 1`. -/
  rest : ∃ rest, freeBlocks s' = freeBlocks s \ {(j, q)} ∪ rest ∧
    cover rest = block j q \ block k pfn ∧ (∀ b ∈ rest, k ≤ b.1 ∧ b.1 < j) ∧
    ∀ i, k ≤ i → i < j → ∃! p, (i, p) ∈ rest

/-- **A request for `2 ^ k` pages is served as it should be**: refused, with nothing changed, if no
block of order `k` or more is free, and cut out of a smallest such block otherwise. -/
def AllocatesRange (s : Buddy) (k : ℕ) : Prop :=
  ((∀ j, k ≤ j → j < maxOrder → ∀ p, ¬ onFreeList s j p) ∧
    buddyPageAlloc s (2 ^ k) = some (pfnNotfound, s)) ∨
  ((¬ ∀ j, k ≤ j → j < maxOrder → ∀ p, ¬ onFreeList s j p) ∧
    ∃ pfn s' j q, buddyPageAlloc s (2 ^ k) = some (pfn, s') ∧ pfn ≠ pfnNotfound ∧
      CutFrom s s' k pfn j q)

namespace ZoneOk

theorem empty_iff (h : ZoneOk s L) :
    (∀ j < maxOrder, ∀ p, ¬ onFreeList s j p) ↔ ∀ j < maxOrder, L j = [] := by
  refine forall₂_congr fun j hj => ?_
  simp only [h.onFreeList_iff hj, List.eq_nil_iff_forall_not_mem]

/-- A request that finds nothing at all is refused. -/
theorem allocatesRange_of_empty (h : ZoneOk s L) (hempty : ∀ j < maxOrder, ∀ p, ¬ onFreeList s j p)
    (k : ℕ) : AllocatesRange s k := by
  refine Or.inl ⟨fun j _ hj => hempty j hj, ?_⟩
  rcases h.alloc_cases (2 ^ k) with ⟨hres, -⟩ | ⟨j, p, rest, s', L', hj, hL, -⟩
  · exact hres
  · rw [h.empty_iff.mp hempty j hj] at hL
    exact absurd hL.symm (List.cons_ne_nil _ _)

/-- A request for one page gets the first page of the front block of the first list that is not
empty. -/
theorem allocatesRange_zero (h : ZoneOk s L) : AllocatesRange s 0 := by
  by_cases hempty : ∀ j < maxOrder, ∀ p, ¬ onFreeList s j p
  · exact h.allocatesRange_of_empty hempty 0
  · rcases h.alloc_cases (2 ^ 0) with ⟨-, hnil⟩ | ⟨j, p, rest, s', L', hj, hL, hsmall, hres, h', hblocks, -⟩
    · exact absurd (h.empty_iff.mpr hnil) hempty
    · have hmem : (j, p) ∈ blocksOf L := ⟨hj, by simp [hL]⟩
      have hsub : block 0 p ⊆ block j p := by
        rw [block_zero]
        exact Set.singleton_subset_iff.mpr (head_mem_block j p)
      have hcov := cover_halves (Nat.zero_le j) p
      have hpage := h.free_in (block_subset_cover hmem (head_mem_block j p))
      refine Or.inr ⟨fun hnone => hempty fun i hi => hnone i (Nat.zero_le i) hi, p, s', j, p, hres, ?_,
        ⟨one_dvd p, ?_, ?_, ?_, Nat.zero_le j, fun i _ hi q hq => ?_, hsub, halves 0 j p, ?_, hcov,
          fun b hb => ⟨hb.1, hb.2.1⟩, fun i hi hij => ⟨p + 2 ^ i, ⟨hi, hij, rfl⟩, fun q hq => hq.2.2⟩⟩⟩
      · have := h.lt_of_mem_pages hpage
        rw [pfnNotfound]
        omega
      · rw [h.freeBlocks_eq]
        exact hsub.trans (block_subset_cover hmem)
      · rw [h'.freeBlocks_eq, h.freeBlocks_eq, hblocks, cover_union, h.blocks.cover_erase hmem, hcov]
        ext x
        have hin : x ∈ block j p → x ∈ cover (blocksOf L) := fun hx => block_subset_cover hmem hx
        have hin' : x ∈ block 0 p → x ∈ block j p := fun hx => hsub hx
        simp only [Set.mem_union, Set.mem_sdiff]
        tauto
      · rw [h.freeBlocks_eq]
        exact hmem
      · rw [h.onFreeList_iff (by omega), hsmall i hi] at hq
        exact absurd hq List.not_mem_nil
      · rw [h'.freeBlocks_eq, h.freeBlocks_eq, hblocks]

/-- A request for several pages is granted one page, if there is one. -/
theorem not_allocatesRange (h : ZoneOk s L) {k : ℕ} (hk : k ≠ 0)
    (hne : ¬ ∀ j < maxOrder, ∀ p, ¬ onFreeList s j p) : ¬ AllocatesRange s k := by
  rcases h.alloc_cases (2 ^ k) with ⟨-, hnil⟩ | ⟨j, p, rest, s', L', hj, hL, -, hres, h', hblocks, -⟩
  · exact absurd (h.empty_iff.mpr hnil) hne
  · have hmem : (j, p) ∈ blocksOf L := ⟨hj, by simp [hL]⟩
    have hpage := h.free_in (block_subset_cover hmem (head_mem_block j p))
    rintro (⟨-, hnone⟩ | ⟨-, pfn, t, i, q, hsome, -, hcut⟩)
    · rw [hres, Option.some.injEq, Prod.mk.injEq] at hnone
      have := h.lt_of_mem_pages hpage
      have := hnone.1
      rw [pfnNotfound] at this
      omega
    · rw [hres, Option.some.injEq, Prod.mk.injEq] at hsome
      obtain ⟨rfl, rfl⟩ := hsome
      -- the page after the one that was taken is free still
      have hone : 1 < 2 ^ k := Nat.one_lt_two_pow hk
      have hnext : p + 1 ∈ block k p := mem_block.mpr ⟨Nat.le_succ p, by omega⟩
      have hfree : p + 1 ∈ cover (blocksOf L) := by
        rw [← h.freeBlocks_eq]
        exact hcut.was_free hnext
      have hkept : p + 1 ∈ cover (freeBlocks s') := by
        rw [h'.freeBlocks_eq, hblocks, cover_union, h.blocks.cover_erase hmem,
          cover_halves (Nat.zero_le j), block_zero]
        by_cases hin : p + 1 ∈ block j p
        · exact Or.inr ⟨hin, by simp⟩
        · exact Or.inl ⟨hfree, hin⟩
      rw [hcut.loses] at hkept
      exact hkept.2 hnext

end ZoneOk

/-- **A request for `2 ^ k` pages is served as it should be iff it is for one page, or no page at all
is free.** -/
theorem allocatesRange_iff (h : ZoneOk s L) (k : ℕ) :
    AllocatesRange s k ↔ k = 0 ∨ ∀ j < maxOrder, ∀ p, ¬ onFreeList s j p := by
  constructor
  · intro hserved
    by_contra hor
    rw [not_or] at hor
    exact h.not_allocatesRange hor.1 hor.2 hserved
  · rintro (rfl | hempty)
    · exact h.allocatesRange_zero
    · exact h.allocatesRange_of_empty hempty k

theorem allocatesRange_iff_fourPages : AllocatesRange fourPages.mm 0 := by
  obtain ⟨L, hI⟩ := PageRun.of_populated populated_fourPages
  exact (allocatesRange_iff hI.sound.toZoneOk 0).mpr (Or.inl rfl)

/-- A request for two of four free pages is granted one. -/
theorem not_allocatesRange_fourPages :
    ∃ L, ZoneOk fourPages.mm L ∧ ¬ AllocatesRange fourPages.mm 1 := by
  obtain ⟨L, hI⟩ := PageRun.of_populated populated_fourPages
  have hfree : onFreeList fourPages.mm 2 0 := ⟨1, by decide⟩
  exact ⟨L, hI.sound.toZoneOk, hI.sound.toZoneOk.not_allocatesRange one_ne_zero fun hnone =>
    hnone 2 (by decide) 0 hfree⟩

end GeekToyOS
