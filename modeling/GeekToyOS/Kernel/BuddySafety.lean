import GeekToyOS.Kernel.BuddyRuns

/-!
# Which runs of the buddy allocator are safe

Three properties one wants of every state of a run, and for each of them the runs that have it. Each
proof has the same two halves: a call that meets neither defect keeps the invariant `PageRun`, and a
call that meets one spoils the property in the very next state.

## Main definitions

* `Exclusive` — live ranges are disjoint from each other and from the free blocks
* `Accounted` — the counters count
* `Truthful` — flags tell which pages are free

## Main results

* `exclusive_iff`, `accounted_iff` — both hold throughout a run iff every call of it is `ServesPages`
* `truthful_iff` — flags tell the truth throughout a run iff no allocation of it succeeds
-/

namespace GeekToyOS

open Dyadic

variable {handed : Set ℕ} {st st' : BuddyRun} {L : ℕ → List ℕ} {op : BuddyOp}

/-- Live ranges are pairwise disjoint, consist of pages that were handed in, and meet no free block. -/
structure Exclusive (handed : Set ℕ) (st : BuddyRun) : Prop where
  pairwise : st.live.Pairwise fun a b => Disjoint (rangePages a) (rangePages b)
  handed_in : ∀ r ∈ st.live, rangePages r ⊆ handed
  not_free : ∀ r ∈ st.live, ∀ b ∈ freeBlocks st.mm, Disjoint (rangePages r) (block b.1 b.2)

/-- Each counter is the length of its list, and `nr_free_pages` adds up: it is what the lists hold, and
what was handed in less what is live. -/
structure Accounted (handed : Set ℕ) (st : BuddyRun) : Prop where
  counts : ∀ k < maxOrder, ∃ l, IsRing st.mm.nodes (.freeArea k) l ∧ st.mm.zone.count k = l.length
  nr_free_pages : st.mm.zone.nrFreePages
    = ∑ k ∈ Finset.range maxOrder, st.mm.zone.count k * 2 ^ k
  balance : st.mm.zone.nrFreePages + (st.live.map Prod.snd).sum = handed.ncard

/-- No live page looks like a buddy, every block on a list does, and whatever a free of a block that is
not free would merge is really free. -/
structure Truthful (st : BuddyRun) : Prop where
  live : ∀ x ∈ livePages st.live, ∀ j,
    pageIsBuddy (st.mm.memPages (pfnToPage st.mm.zone x)) j = false
  listed : ∀ b ∈ freeBlocks st.mm, 2 ^ b.1 ∣ b.2 ∧
    pageIsBuddy (st.mm.memPages (pfnToPage st.mm.zone b.2)) b.1 = true
  merges : ∀ pfn k, k < maxOrder → 2 ^ k ∣ pfn → block k pfn ⊆ st.mm.zone.pages →
    (∀ b ∈ freeBlocks st.mm, Disjoint (block k pfn) (block b.1 b.2)) →
    ∀ j, k ≤ j → j < maxOrder - 1 → mergeReaches st.mm pfn k j →
      onFreeList st.mm j (mergePartner st.mm pfn j)

/-! ### The invariant implies the properties -/

namespace PageRun

theorem exclusive (h : PageRun handed st L) : Exclusive handed st := by
  refine ⟨h.nodup.imp_of_mem ?_, fun r hr x hx => ?_, fun r hr b hb => ?_⟩
  · rintro ⟨p, n⟩ ⟨q, m⟩ ha hb hne
    obtain rfl : n = 1 := h.single _ ha
    obtain rfl : m = 1 := h.single _ hb
    rw [rangePages_one, rangePages_one, Set.disjoint_singleton]
    rintro rfl
    exact hne rfl
  · rw [← h.handed_eq]
    exact Or.inr ⟨r, hr, hx⟩
  · rw [h.sound.freeBlocks_eq] at hb
    have hsub : rangePages r ⊆ livePages st.live := fun x hx => ⟨r, hr, hx⟩
    exact h.sound.apart.mono hsub (block_subset_cover hb)

/-- The number of live pages is the sum of the live sizes. -/
theorem ncard_livePages (h : PageRun handed st L) :
    (livePages st.live).ncard = (st.live.map Prod.snd).sum := by
  have hsum : (st.live.map Prod.snd).sum = st.live.length := by
    rw [List.map_congr_left h.single, List.map_const', List.sum_replicate_nat, Nat.mul_one]
  have hinj : ∀ a ∈ st.live, ∀ b ∈ st.live, a.1 = b.1 → a = b := fun a ha b hb he =>
    Prod.ext he ((h.single a ha).trans (h.single b hb).symm)
  have hset : livePages st.live = ((st.live.map Prod.fst).toFinset : Set ℕ) := by
    ext x
    rw [h.mem_live, Finset.mem_coe, List.mem_toFinset, List.mem_map]
    constructor
    · exact fun hx => ⟨_, hx, rfl⟩
    · rintro ⟨⟨p, n⟩, hr, rfl⟩
      obtain rfl : n = 1 := h.single _ hr
      exact hr
  rw [hsum, hset, Set.ncard_coe_finset, List.toFinset_card_of_nodup
    (h.nodup.map_on hinj), List.length_map]

theorem sum_count (h : PageRun handed st L) :
    ∑ k ∈ Finset.range maxOrder, st.mm.zone.count k * 2 ^ k = (cover (blocksOf L)).ncard := by
  rw [← h.sound.sum_length]
  exact Finset.sum_congr rfl fun k hk => by rw [h.sound.counts k (Finset.mem_range.mp hk)]

theorem accounted (h : PageRun handed st L) : Accounted handed st := by
  refine ⟨fun k hk => ⟨_, h.sound.rings.ring ⟨k, hk⟩, ?_⟩, h.counted.trans h.sum_count.symm, ?_⟩
  · rw [areaNodes, List.length_map, h.sound.counts k hk]
  · have hfin : (livePages st.live).Finite := st.mm.zone.finite_pages.subset h.sound.out_in
    rw [← h.handed_eq, Set.ncard_union_eq h.sound.apart.symm h.sound.finite_cover hfin,
      h.ncard_livePages, h.counted]

/-- While nothing is live, a flag is proof of being free. -/
theorem truthful (h : PageRun handed st L) (hlive : st.live = []) : Truthful st := by
  have hnone : livePages st.live = ∅ := by rw [hlive, livePages_nil]
  have hs := h.sound
  rw [hnone] at hs
  refine ⟨fun x hx => ?_, fun b hb => ?_, fun pfn k hk hp hzone hfree j hj hj10 hreach => ?_⟩
  · rw [hnone] at hx
    exact hx.elim
  · rw [hs.freeBlocks_eq] at hb
    refine ⟨hs.packing.aligned b hb, ?_⟩
    rw [hs.toListed.pfnToPage (hs.page_lt b.1 hb.1 b.2 hb.2)]
    exact hs.tagged b.1 hb.1 b.2 hb.2
  · have hlt : pfn < 2 ^ 64 := hs.lt_of_mem_pages (hzone (head_mem_block k pfn))
    have hnot : pfn ∉ cover (blocksOf L) := by
      rintro ⟨b, hb, hx⟩
      rw [← hs.freeBlocks_eq] at hb
      exact Set.disjoint_left.mp (hfree b hb) (head_mem_block k pfn) hx
    have hhit := hreach j hj le_rfl
    rw [hs.toListed.onFreeList_iff (by omega)]
    rw [hs.toListed.mergePartner_eq hlt (by simp only [maxOrder] at hj10; omega)] at hhit ⊢
    exact hs.mem_of_isBuddy (aligned_head j pfn) (mem_block_head j pfn) hnot hhit
      (Set.notMem_empty _)

/-! ### A call outside the condition spoils them at once -/

/-- A call that is not `ServesPages` either grants one page for several, or merges a live page. -/
theorem bad_step (h : PageRun handed st L) (hbad : ¬ ServesPages st op) (hstep : BuddyStep st op st') :
    (∃ n p L', 1 < n ∧ n ≤ 1024 ∧ st'.live = (p, n) :: st.live ∧ p ∈ cover (blocksOf L) ∧
      Sound st'.mm L' (livePages st.live ∪ {p}) ∧
      cover (blocksOf L') = cover (blocksOf L) \ {p} ∧
      st'.mm.zone.nrFreePages = wsub (cover (blocksOf L)).ncard n) ∨
    ∃ p j, j < maxOrder - 1 ∧ (p, 1) ∈ st.live ∧ mergeReaches st.mm p 0 j ∧
      mergePartner st.mm p j ∈ livePages st.live ∧
      st' = ⟨buddyPageFree st.mm p 1, st.live.erase (p, 1)⟩ := by
  cases hstep with
  | @alloc n k pfn mm hn hk halloc hpfn =>
    rcases h.alloc_cases n with ⟨hnone, -⟩ | ⟨p, s', L', hsome, -, hp, hs', hcov, hnf, -⟩
    · rw [hnone, Option.some.injEq, Prod.mk.injEq] at halloc
      exact absurd halloc.1.symm hpfn
    · rw [hsome, Option.some.injEq, Prod.mk.injEq] at halloc
      obtain ⟨rfl, rfl⟩ := halloc
      have hne : n ≠ 1 := fun he => hbad (Or.inl he)
      have hpos : 0 < n := hn ▸ Nat.two_pow_pos k
      have hle : n ≤ 2 ^ 10 := by
        rw [hn]
        exact Nat.pow_le_pow_right (by norm_num) (by simp only [maxOrder] at hk; omega)
      exact Or.inl ⟨n, p, L', by omega, hle, rfl, hp, hs', hcov, hnf⟩
  | @allocNone n k mm hn hk halloc =>
    rcases h.alloc_cases n with ⟨-, hnil⟩ | ⟨p, s', L', hsome, hne, -⟩
    · exact absurd (Or.inr (h.empty_iff.mpr hnil)) hbad
    · rw [hsome, Option.some.injEq, Prod.mk.injEq] at halloc
      exact absurd halloc.1 hne
  | @free pfn n hlive =>
    obtain rfl : n = 1 := h.single _ hlive
    simp only [ServesPages, not_forall, not_not] at hbad
    obtain ⟨j, hj, hreach, hmem⟩ := hbad
    exact Or.inr ⟨pfn, j, hj, hlive, hreach, hmem, rfl⟩

/-- What freeing the live page `p` starts from: lists in order, and `p` on none of them. -/
theorem before_free (h : PageRun handed st L) {p : ℕ} (hp : (p, 1) ∈ st.live) :
    Listed (st.mm.setNrFreePages (wadd st.mm.zone.nrFreePages 1)) L ∧ p < 2 ^ 64 ∧
      ∀ j < maxOrder, p ∉ L j := by
  have hmem := h.mem_live.mpr hp
  exact ⟨(h.sound.setNrFreePages _).toListed, h.sound.lt_of_mem_pages (h.sound.out_in hmem),
    fun j hj hm => Set.disjoint_left.mp h.sound.apart hmem (Sound.head_mem_cover hj hm)⟩

theorem not_exclusive (h : PageRun handed st L) (hbad : ¬ ServesPages st op)
    (hstep : BuddyStep st op st') : ¬ Exclusive handed st' := by
  intro hex
  rcases h.bad_step hbad hstep with
    ⟨n, p, L', hn, -, hlive, -, hs', hcov, -⟩ | ⟨p, j, hj, hp, hreach, hmem, rfl⟩
  · -- the second page of the range was handed in, so it is free or live, and still is
    have hsecond : p + 1 ∈ rangePages (p, n) := ⟨Nat.le_succ p, by dsimp only; omega⟩
    have hr : (p, n) ∈ st'.live := hlive ▸ List.mem_cons_self
    have hin := hex.handed_in _ hr hsecond
    rw [← h.handed_eq] at hin
    rcases hin with hfree | ⟨q, hq, hx⟩
    · have hfree' : p + 1 ∈ cover (blocksOf L') := by
        rw [hcov]
        exact ⟨hfree, by simp⟩
      obtain ⟨b, hb, hx⟩ := hfree'
      rw [← hs'.freeBlocks_eq] at hb
      exact Set.disjoint_left.mp (hex.not_free _ hr b hb) hsecond hx
    · have hpair := hex.pairwise
      rw [hlive] at hpair
      exact Set.disjoint_left.mp ((List.pairwise_cons.mp hpair).1 q hq) hsecond hx
  · -- the page merged was live, still is, and now lies in a free block
    obtain ⟨hlisted, hlt, hnot⟩ := h.before_free hp
    obtain ⟨L', hL', hcov⟩ := buddyPageFree_block_listed (k := 0) hlisted (by decide) hlt (one_dvd p)
      hnot
    obtain ⟨b, hb, hx⟩ := hcov j (Nat.zero_le j) hj hreach
    rw [← buddyPageFree_one] at hL'
    rw [← hL'.freeBlocks_eq] at hb
    have hne : mergePartner st.mm p j ≠ p := by
      rw [h.sound.toListed.mergePartner_eq hlt (by simp only [maxOrder] at hj; omega)]
      intro he
      refine Set.disjoint_left.mp (disjoint_buddy (aligned_head j p)) (mem_block_head j p) ?_
      rw [he]
      exact head_mem_block j p
    have hstill : mergePartner st.mm p j ∈ livePages (st.live.erase (p, 1)) := by
      rw [h.livePages_erase]
      exact ⟨hmem, hne⟩
    obtain ⟨r, hr, hxr⟩ := hstill
    exact Set.disjoint_left.mp (hex.not_free r hr b hb) hxr hx

theorem not_accounted (h : PageRun handed st L) (hbad : ¬ ServesPages st op)
    (hstep : BuddyStep st op st') : ¬ Accounted handed st' := by
  intro hacc
  rcases h.bad_step hbad hstep with
    ⟨n, p, L', hn, hn', -, hp, hs', hcov, hnf⟩ | ⟨p, j, hj, hp, hreach, hmem, rfl⟩
  · -- the lists lost one page, `nr_free_pages` lost `n`
    have hsum : st'.mm.zone.nrFreePages = (cover (blocksOf L')).ncard := by
      rw [hacc.nr_free_pages, ← hs'.sum_length]
      exact Finset.sum_congr rfl fun k hk => by rw [hs'.counts k (Finset.mem_range.mp hk)]
    have hpos : 0 < (cover (blocksOf L)).ncard :=
      (Set.ncard_pos h.sound.finite_cover).mpr ⟨p, hp⟩
    have hlt := h.sound.ncard_cover_lt
    rw [hnf, hcov, Set.ncard_sdiff_singleton_of_mem hp, wsub] at hsum
    omega
  · obtain ⟨hlisted, hlt, hnot⟩ := h.before_free hp
    obtain ⟨L', hL', -⟩ := buddyPageFree_block_listed (k := 0) hlisted (by decide) hlt (one_dvd p) hnot
    have hlen : ∀ i < maxOrder, (L i).length < 2 ^ 64 := fun i hi => by
      have := h.sound.length_le hi
      have := h.sound.fits
      omega
    have hpart : mergePartner st.mm p j ∉ L j := fun hm =>
      Set.disjoint_left.mp h.sound.apart hmem (Sound.head_mem_cover (by omega) hm)
    obtain ⟨i, hi, hne⟩ := buddyPageFree_block_miscount hlisted (by decide) h.sound.counts hlen hlt
      (one_dvd p) hnot (Nat.zero_le j) hj hreach hpart hL'
    obtain ⟨l, hl, hcount⟩ := hacc.counts i hi
    rw [← buddyPageFree_one] at hne hL'
    rw [← (hL'.rings.ring ⟨i, hi⟩).unique hl, areaNodes, List.length_map] at hcount
    exact hne hcount

/-- A page that was just handed out still looks like a free block. -/
theorem not_truthful (h : PageRun handed st L) {n : ℕ}
    (hbad : ¬ ∀ k < maxOrder, ∀ p, ¬ onFreeList st.mm k p) (hstep : BuddyStep st (.alloc n) st') :
    ¬ Truthful st' := by
  intro htr
  cases hstep with
  | @alloc _ k pfn mm hn hk halloc hpfn =>
    rcases h.alloc_cases n with ⟨hnone, -⟩ | ⟨p, s', L', hsome, -, hp, hs', -, -, hflag⟩
    · rw [hnone, Option.some.injEq, Prod.mk.injEq] at halloc
      exact absurd halloc.1.symm hpfn
    · rw [hsome, Option.some.injEq, Prod.mk.injEq] at halloc
      obtain ⟨rfl, rfl⟩ := halloc
      have hmem : p ∈ livePages ((p, n) :: st.live) := by
        rw [livePages_cons]
        refine Or.inl ⟨le_rfl, ?_⟩
        have := Nat.two_pow_pos k
        dsimp only
        omega
      have hlt : p < 2 ^ 64 := h.sound.lt_of_mem_pages (h.sound.free_in hp)
      have hno := htr.live p hmem (s'.memPages p).order
      rw [hs'.toListed.pfnToPage hlt, hflag.isBuddy] at hno
      exact Bool.noConfusion hno
  | @allocNone _ k mm hn hk halloc =>
    rcases h.alloc_cases n with ⟨-, hnil⟩ | ⟨p, s', L', hsome, hne, -⟩
    · exact absurd (h.empty_iff.mpr hnil) hbad
    · rw [hsome, Option.some.injEq, Prod.mk.injEq] at halloc
      exact absurd halloc.1 hne

end PageRun

/-- A served request for several pages is not `ServesPages`. -/
theorem PageRun.not_servesPages (h : PageRun handed st L) {n p : ℕ} {mm : Buddy} (hn : n ≠ 1)
    (halloc : buddyPageAlloc st.mm n = some (p, mm)) (hp : p ≠ pfnNotfound) :
    ¬ ServesPages st (.alloc n) := by
  rintro (hone | hempty)
  · exact hn hone
  · rcases h.alloc_cases n with ⟨hnone, -⟩ | ⟨q, s', L', -, -, hq, -⟩
    · rw [hnone, Option.some.injEq, Prod.mk.injEq] at halloc
      exact hp halloc.1.symm
    · rw [cover_eq_empty_of (h.empty_iff.mp hempty)] at hq
      exact hq.elim

/-! ### Four pages -/

/-- Memory in which nothing was ever written. -/
def zeroMemory : Buddy :=
  { zone := ⟨0, 0, 0, 0, fun _ => 0⟩, memPages := fun _ => .zero,
    nodes := ⟨fun _ => ⟨.null, .null⟩⟩ }

/-- A zone of four pages, all free. -/
def fourPages : BuddyRun := buddyStart zeroMemory 0 4 [(0, 4)]

theorem populated_fourPages : Populated zeroMemory 0 4 [(0, 4)] where
  clean := fun _ => not_flagged_zero
  fits := by decide
  in_zone := by
    intro r hr
    rw [List.mem_singleton.mp hr]
    exact subset_rfl
  disjoint := List.pairwise_singleton _ _

/-- The first allocation from `fourPages` returns page 0, for one page and for two. -/
theorem fourPages_alloc {k : ℕ} (hk : k < 2) :
    ∃ mm, buddyPageAlloc fourPages.mm (2 ^ k) = some (0, mm) ∧
      BuddyStep fourPages (.alloc (2 ^ k)) ⟨mm, [(0, 2 ^ k)]⟩ := by
  have hfirst : (buddyPageAlloc fourPages.mm (2 ^ k)).map Prod.fst = some 0 := by
    revert k
    decide
  obtain ⟨⟨p, mm⟩, halloc, rfl⟩ := Option.map_eq_some_iff.mp hfirst
  exact ⟨mm, halloc, .alloc rfl (by simp only [maxOrder]; omega) halloc (by decide)⟩

/-! ### Runs -/

section Runs

variable {mem : Buddy} {pfnStart nrPages : ℕ} {ranges : List (ℕ × ℕ)} {l : List (BuddyOp × BuddyRun)}

/-- **Live ranges are exclusive throughout a run iff every call of it meets neither defect.** -/
theorem exclusive_iff (h : Populated mem pfnStart nrPages ranges)
    (hrun : Trace.Run BuddyStep (buddyStart mem pfnStart nrPages ranges) l) :
    (∀ t ∈ Trace.states (buddyStart mem pfnStart nrPages ranges) l, Exclusive (livePages ranges) t) ↔
      Trace.StepsOk ServesPages (buddyStart mem pfnStart nrPages ranges) l :=
  Trace.invariant_iff (I := fun st => ∃ L, PageRun (livePages ranges) st L)
    (fun ⟨_, hI⟩ hok hstep => hI.step hok hstep) (fun ⟨_, hI⟩ => hI.exclusive)
    (fun ⟨_, hI⟩ hbad hstep => hI.not_exclusive hbad hstep) hrun (PageRun.of_populated h)

/-- Allocating one page of four keeps live ranges exclusive. -/
theorem exclusive_iff_fourPages :
    ∃ mm, Trace.Run BuddyStep fourPages [(.alloc 1, ⟨mm, [(0, 1)]⟩)] ∧
      ∀ t ∈ Trace.states fourPages [(BuddyOp.alloc 1, ⟨mm, [(0, 1)]⟩)],
        Exclusive (livePages [(0, 4)]) t := by
  obtain ⟨mm, -, hstep⟩ := fourPages_alloc (k := 0) (by norm_num)
  have hrun := Trace.Run.cons hstep (.nil _)
  exact ⟨mm, hrun, (exclusive_iff populated_fourPages hrun).mpr ⟨Or.inl rfl, trivial⟩⟩

/-- Allocating two pages of four does not: page 1 is granted, and stays free. -/
theorem not_exclusive_fourPages : Populated zeroMemory 0 4 [(0, 4)] ∧
    ∃ mm, Trace.Run BuddyStep fourPages [(.alloc 2, ⟨mm, [(0, 2)]⟩)] ∧
      ¬ Exclusive (livePages [(0, 4)]) ⟨mm, [(0, 2)]⟩ := by
  obtain ⟨mm, halloc, hstep⟩ := fourPages_alloc (k := 1) (by norm_num)
  obtain ⟨L, hI⟩ := PageRun.of_populated populated_fourPages
  have hbad := hI.not_servesPages (by norm_num) halloc (by decide)
  exact ⟨populated_fourPages, mm, .cons hstep (.nil _), hI.not_exclusive hbad hstep⟩

/-- **The counters count throughout a run iff every call of it meets neither defect.** -/
theorem accounted_iff (h : Populated mem pfnStart nrPages ranges)
    (hrun : Trace.Run BuddyStep (buddyStart mem pfnStart nrPages ranges) l) :
    (∀ t ∈ Trace.states (buddyStart mem pfnStart nrPages ranges) l, Accounted (livePages ranges) t) ↔
      Trace.StepsOk ServesPages (buddyStart mem pfnStart nrPages ranges) l :=
  Trace.invariant_iff (I := fun st => ∃ L, PageRun (livePages ranges) st L)
    (fun ⟨_, hI⟩ hok hstep => hI.step hok hstep) (fun ⟨_, hI⟩ => hI.accounted)
    (fun ⟨_, hI⟩ hbad hstep => hI.not_accounted hbad hstep) hrun (PageRun.of_populated h)

/-- Allocating one page of four keeps the counters right. -/
theorem accounted_iff_fourPages :
    ∃ mm, Trace.Run BuddyStep fourPages [(.alloc 1, ⟨mm, [(0, 1)]⟩)] ∧
      ∀ t ∈ Trace.states fourPages [(BuddyOp.alloc 1, ⟨mm, [(0, 1)]⟩)],
        Accounted (livePages [(0, 4)]) t := by
  obtain ⟨mm, -, hstep⟩ := fourPages_alloc (k := 0) (by norm_num)
  have hrun := Trace.Run.cons hstep (.nil _)
  exact ⟨mm, hrun, (accounted_iff populated_fourPages hrun).mpr ⟨Or.inl rfl, trivial⟩⟩

/-- Allocating two pages of four leaves three on the lists and two in `nr_free_pages`. -/
theorem not_accounted_fourPages : Populated zeroMemory 0 4 [(0, 4)] ∧
    ∃ mm, Trace.Run BuddyStep fourPages [(.alloc 2, ⟨mm, [(0, 2)]⟩)] ∧
      ¬ Accounted (livePages [(0, 4)]) ⟨mm, [(0, 2)]⟩ := by
  obtain ⟨mm, halloc, hstep⟩ := fourPages_alloc (k := 1) (by norm_num)
  obtain ⟨L, hI⟩ := PageRun.of_populated populated_fourPages
  have hbad := hI.not_servesPages (by norm_num) halloc (by decide)
  exact ⟨populated_fourPages, mm, .cons hstep (.nil _), hI.not_accounted hbad hstep⟩

/-- The call is no allocation that would be served. -/
def ServesNothing (st : BuddyRun) : BuddyOp → Prop
  | .alloc _ => ∀ k < maxOrder, ∀ p, ¬ onFreeList st.mm k p
  | .free _ _ => True

/-- **Flags tell the truth throughout a run iff no allocation of it is served.** -/
theorem truthful_iff (h : Populated mem pfnStart nrPages ranges)
    (hrun : Trace.Run BuddyStep (buddyStart mem pfnStart nrPages ranges) l) :
    (∀ t ∈ Trace.states (buddyStart mem pfnStart nrPages ranges) l, Truthful t) ↔
      Trace.StepsOk ServesNothing (buddyStart mem pfnStart nrPages ranges) l := by
  refine Trace.invariant_iff (I := fun st => st.live = [] ∧ ∃ L, PageRun (livePages ranges) st L)
    ?_ (fun ⟨hlive, _, hI⟩ => hI.truthful hlive) ?_ hrun ⟨rfl, PageRun.of_populated h⟩
  · rintro st op st' ⟨hlive, L, hI⟩ hok hstep
    have hserves : ServesPages st op := by
      cases op with
      | alloc n => exact Or.inr hok
      | free pfn n =>
        intro j _ _ hm
        rw [hlive, livePages_nil] at hm
        exact hm.elim
    refine ⟨?_, hI.step hserves hstep⟩
    cases hstep with
    | @alloc n k pfn mm hn hk halloc hpfn =>
      rcases hI.alloc_cases n with ⟨hnone, -⟩ | ⟨p, s', L', -, -, hp, -⟩
      · rw [hnone, Option.some.injEq, Prod.mk.injEq] at halloc
        exact absurd halloc.1.symm hpfn
      · rw [PageRun.cover_eq_empty_of (hI.empty_iff.mp hok)] at hp
        exact hp.elim
    | allocNone => exact hlive
    | free hmem =>
      rw [hlive] at hmem
      exact absurd hmem List.not_mem_nil
  · rintro st op st' ⟨hlive, L, hI⟩ hbad hstep
    cases op with
    | alloc n => exact hI.not_truthful hbad hstep
    | free pfn n => exact absurd trivial hbad

/-- A zone of four pages, none of them handed in. -/
def noPages : BuddyRun := buddyStart zeroMemory 0 4 []

theorem populated_noPages : Populated zeroMemory 0 4 [] where
  clean := fun _ => not_flagged_zero
  fits := by decide
  in_zone := fun _ hr => absurd hr List.not_mem_nil
  disjoint := .nil

/-- An allocation that finds nothing leaves the flags truthful. -/
theorem truthful_iff_noPages : Trace.Run BuddyStep noPages [(.alloc 1, noPages)] ∧
    ∀ t ∈ Trace.states noPages [(BuddyOp.alloc 1, noPages)], Truthful t := by
  obtain ⟨L, hI⟩ := PageRun.of_populated populated_noPages
  rcases hI.alloc_cases 1 with ⟨hnone, hnil⟩ | ⟨p, s', L', -, -, hp, -⟩
  · have hrun : Trace.Run BuddyStep noPages [(.alloc 1, noPages)] :=
      .cons (.allocNone (k := 0) rfl (by decide) hnone) (.nil _)
    exact ⟨hrun, (truthful_iff populated_noPages hrun).mpr ⟨hI.empty_iff.mpr hnil, trivial⟩⟩
  · have hin : p ∈ livePages [] := hI.handed_eq ▸ Or.inl hp
    rw [livePages_nil] at hin
    exact hin.elim

/-- After the first allocation from a zone of four free pages, page 0 is live and still looks free. -/
theorem not_truthful_fourPages : Populated zeroMemory 0 4 [(0, 4)] ∧
    ∃ mm, Trace.Run BuddyStep fourPages [(.alloc 1, ⟨mm, [(0, 1)]⟩)] ∧
      ¬ Truthful ⟨mm, [(0, 1)]⟩ := by
  obtain ⟨mm, halloc, hstep⟩ := fourPages_alloc (k := 0) (by norm_num)
  obtain ⟨L, hI⟩ := PageRun.of_populated populated_fourPages
  refine ⟨populated_fourPages, mm, .cons hstep (.nil _), hI.not_truthful (fun hempty => ?_) hstep⟩
  rcases hI.alloc_cases 1 with ⟨hnone, -⟩ | ⟨q, s', L', -, -, hq, -⟩
  · rw [show fourPages = buddyStart zeroMemory 0 4 [(0, 4)] from rfl, pow_zero, hnone] at halloc
    simp [pfnNotfound] at halloc
  · rw [PageRun.cover_eq_empty_of (hI.empty_iff.mp hempty)] at hq
    exact hq.elim

end Runs

end GeekToyOS
