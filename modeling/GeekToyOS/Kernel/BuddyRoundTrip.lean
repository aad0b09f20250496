import GeekToyOS.Kernel.BuddyCanonical
import GeekToyOS.Kernel.BuddySplit

/-!
# Allocating and freeing at once

An allocation followed at once by the free of what it returned should leave the free structure as it
was. Two things decide whether it does. The counters, weighted with the block sizes, lose one page with
every allocation and gain as many pages as are freed (`weight`), so the pair can only balance for
requests of one page. And the halves that the allocation split off merge again, up to the block that was
split; there the merge has to stop, which it does unless the buddy of that block carries a flag from an
earlier life.

## Main definitions

* `Restored s t` — `t` has the free blocks, counters and `nr_free_pages` of `s`
* `KeepsLists` — the call leaves the lists in order: it is an allocation, or the free of one page that
  meets no page in somebody's hands where `page_is_buddy` says yes
* `SplitsClean s` — the buddy of the block that an allocation would split does not look like a buddy

## Main results

* `weight_buddyPageFree` — freeing adds the size of the range to the weighted counters, in any state
* `Sound.restored_of_clean`, `Sound.clean_of_restored` — the pair of calls in a state in order
* `alloc_free_restores_iff` — in every state reached by calls that keep the lists, the pair restores the
  free structure iff the request is for one page and the split is clean
-/

namespace GeekToyOS

open Dyadic

/-- The free structure of `t` is that of `s`. -/
structure Restored (s t : Buddy) : Prop where
  blocks : freeBlocks t = freeBlocks s
  counts : ∀ k < maxOrder, t.zone.count k = s.zone.count k
  nr_free_pages : t.zone.nrFreePages = s.zone.nrFreePages

/-! ### The weighted counters -/

/-- The counters weighted with the block sizes, on `size_t`. -/
def weight (s : Buddy) : ZMod (2 ^ 64) :=
  ∑ k ∈ Finset.range maxOrder, (s.zone.count k : ZMod (2 ^ 64)) * 2 ^ k

theorem cast_wadd (a b : ℕ) : ((wadd a b : ℕ) : ZMod (2 ^ 64)) = a + b := by
  rw [wadd, ZMod.natCast_mod, Nat.cast_add]

theorem cast_wsub {a b : ℕ} (hb : b ≤ 2 ^ 64) : ((wsub a b : ℕ) : ZMod (2 ^ 64)) = a - b := by
  rw [wsub, ZMod.natCast_mod, Nat.add_sub_assoc hb, Nat.cast_add, Nat.cast_sub hb, ZMod.natCast_self]
  ring

/-- Writing one counter changes the weight by the difference, times the size of its blocks. -/
theorem weight_update {s t : Buddy} {k c : ℕ} (hk : k < maxOrder)
    (h : t.zone.count = Function.update s.zone.count k c) :
    weight t = weight s + ((c : ZMod (2 ^ 64)) - s.zone.count k) * 2 ^ k := by
  have hmem : k ∈ Finset.range maxOrder := Finset.mem_range.mpr hk
  rw [weight, weight, ← Finset.add_sum_erase _ _ hmem, ← Finset.add_sum_erase _ _ hmem, h,
    Function.update_self]
  have hrest : ∑ i ∈ (Finset.range maxOrder).erase k,
      (Function.update s.zone.count k c i : ZMod (2 ^ 64)) * 2 ^ i =
      ∑ i ∈ (Finset.range maxOrder).erase k, (s.zone.count i : ZMod (2 ^ 64)) * 2 ^ i :=
    Finset.sum_congr rfl fun i hi => by rw [Function.update_of_ne (Finset.ne_of_mem_erase hi)]
  rw [hrest]
  ring

theorem weight_del (s : Buddy) (p : ℕ) {k : ℕ} (hk : k < maxOrder) :
    weight (delPageFromFreeList s p k) = weight s - 2 ^ k := by
  rw [weight_update hk (del_count s p k), cast_wsub (by norm_num), Nat.cast_one]
  ring

theorem weight_put (s : Buddy) (p : ℕ) {k : ℕ} (hk : k < maxOrder) :
    weight (putPage s p k) = weight s + 2 ^ k := by
  rw [weight_update hk (put_count s p k), cast_wadd, Nat.cast_one]
  ring

theorem weight_mergeLoop : ∀ (n : ℕ) (s : Buddy) (p k : ℕ), n + k = maxOrder - 1 →
    (mergeLoop n s p k).2.2 < maxOrder ∧
      weight (mergeLoop n s p k).1 + 2 ^ (mergeLoop n s p k).2.2 = weight s + 2 ^ k := by
  intro n
  induction n with
  | zero =>
    intro s p k hk
    refine ⟨?_, rfl⟩
    simp only [mergeLoop, maxOrder] at hk ⊢
    omega
  | succ n ih =>
    intro s p k hk
    have hkmax : k < maxOrder := by omega
    rw [mergeLoop]
    split
    · obtain ⟨hlt, hweight⟩ := ih _ _ (k + 1) (by omega)
      refine ⟨hlt, hweight.trans ?_⟩
      rw [weight_del s _ hkmax, pow_succ (2 : ZMod (2 ^ 64)) k]
      ring
    · exact ⟨hkmax, rfl⟩

theorem weight_buddyPageFree_block (s : Buddy) (p : ℕ) {k : ℕ} (hk : k < maxOrder) :
    weight (_buddyPageFree s p k) = weight s + 2 ^ k := by
  obtain ⟨hlt, hweight⟩ := weight_mergeLoop (maxOrder - 1 - k) s p k (by omega)
  rw [← hweight]
  exact weight_put _ _ hlt

theorem weight_freeLoop : ∀ (n : ℕ) (s : Buddy) (pfn nrPages : ℕ), nrPages ≤ n → nrPages < 2 ^ 64 →
    weight (freeLoop n s pfn nrPages) = weight s + nrPages := by
  intro n
  induction n with
  | zero =>
    intro s pfn nrPages hn _
    obtain rfl : nrPages = 0 := Nat.le_zero.mp hn
    simp [freeLoop]
  | succ n ih =>
    intro s pfn nrPages hn hlt
    by_cases h0 : nrPages = 0
    · subst h0
      simp [freeLoop]
    · obtain ⟨o, ho, hfind, -, hle⟩ := freeOrder_spec pfn (Nat.pos_of_ne_zero h0)
      have hpos := Nat.two_pow_pos o
      rw [freeLoop, if_neg h0, hfind]
      simp only [Nat.one_shiftLeft]
      rw [wsub_of_le hle hlt, ih _ _ _ (by omega) (by omega), weight_buddyPageFree_block _ _ ho,
        Nat.cast_sub hle, Nat.cast_pow, Nat.cast_ofNat]
      ring

/-- **Freeing adds the size of the range to the weighted counters**, in any state. -/
theorem weight_buddyPageFree (s : Buddy) (pfn : ℕ) {nrPages : ℕ} (hlt : nrPages < 2 ^ 64) :
    weight (buddyPageFree s pfn nrPages) = weight s + nrPages :=
  weight_freeLoop nrPages _ pfn nrPages le_rfl hlt

/-- The weighted counters of a state in order count its free pages. -/
theorem Sound.weight_eq {s : Buddy} {L : ℕ → List ℕ} {out : Set ℕ} (h : Sound s L out) :
    weight s = (cover (blocksOf L)).ncard := by
  rw [← h.sum_length, weight, Nat.cast_sum]
  refine Finset.sum_congr rfl fun k hk => ?_
  rw [h.counts k (Finset.mem_range.mp hk), Nat.cast_mul, Nat.cast_pow, Nat.cast_ofNat]

theorem Restored.weight_eq {s t : Buddy} (h : Restored s t) : weight t = weight s :=
  Finset.sum_congr rfl fun k hk => by rw [h.counts k (Finset.mem_range.mp hk)]

/-! ### One pair of calls -/

/-- The block that an allocation would split has a buddy that does not look like one. -/
def SplitsClean (s : Buddy) : Prop :=
  ∀ j < maxOrder - 1, ∀ p, listFrontPage s.nodes (.freeArea j) = some p →
    (∀ i < j, ∀ q, ¬ onFreeList s i q) → pageIsBuddy (s.memPages (mergePartner s p j)) j = false

variable {s s' : Buddy} {L : ℕ → List ℕ} {out : Set ℕ} {j p n : ℕ}

/-- States with the same free blocks have lists of the same lengths. -/
theorem Listed.length_eq {t : Buddy} {L' : ℕ → List ℕ} {k : ℕ} (h : Listed s L) (h' : Listed t L')
    (hk : k < maxOrder) (hblocks : freeBlocks t = freeBlocks s) : (L' k).length = (L k).length := by
  refine ((List.perm_ext_iff_of_nodup (h'.nodup hk) (h.nodup hk)).mpr fun q => ?_).length_eq
  rw [h.freeBlocks_eq, h'.freeBlocks_eq] at hblocks
  have := Set.ext_iff.mp hblocks (k, q)
  simpa [blocksOf, hk] using this

/-- The state between the two calls: a block was halved down to the page that was returned. -/
structure Split (s : Buddy) (L : ℕ → List ℕ) (out : Set ℕ) (j p n : ℕ) (s' : Buddy)
    (L' : ℕ → List ℕ) : Prop where
  order_lt : j < maxOrder
  mem : p ∈ L j
  front : listFrontPage s.nodes (.freeArea j) = some p
  below : ∀ i < j, L i = []
  sound : Sound s' L' (out ∪ {p})
  blocks : blocksOf L' = blocksOf L \ {(j, p)} ∪ halves 0 j p
  cover_eq : cover (blocksOf L') = cover (blocksOf L) \ {p}
  nr_free_pages : s'.zone.nrFreePages = wsub s.zone.nrFreePages n
  frame : ∀ x ∉ block j p, s'.memPages x = s.memPages x

theorem Sound.split (h : Sound s L out) (halloc : buddyPageAlloc s n = some (p, s'))
    (hp : p ≠ pfnNotfound) : ∃ j L', Split s L out j p n s' L' := by
  rcases h.toZoneOk.alloc_cases n with ⟨hnone, -⟩ | hsome
  · rw [hnone, Option.some.injEq, Prod.mk.injEq] at halloc
    exact absurd halloc.1.symm hp
  obtain ⟨j, q, rest, t, L₁, hj, hL, hsmall, hres, h₁, hblocks, hframe⟩ := hsome
  rw [hres, Option.some.injEq, Prod.mk.injEq] at halloc
  obtain ⟨rfl, rfl⟩ := halloc
  rcases buddyPageAlloc_cases h n with ⟨hnone, -⟩ | ⟨q', t', L', hres', -, hs, hcov, hscal, -⟩
  · rw [hnone, Option.some.injEq, Prod.mk.injEq] at hres
    exact absurd hres.1.symm hp
  rw [hres', Option.some.injEq, Prod.mk.injEq] at hres
  obtain ⟨rfl, rfl⟩ := hres
  simp only [Zone.scalars, Prod.mk.injEq] at hscal
  refine ⟨j, L', hj, by simp [hL], h.toListed.toRinged.listFrontPage_eq hj hL, hsmall, hs, ?_, hcov,
    hscal.2.2.2, hframe⟩
  rw [← hs.freeBlocks_eq, h₁.freeBlocks_eq, hblocks]

namespace Split

variable {L' : ℕ → List ℕ}

theorem mem_blocks (hS : Split s L out j p n s' L') : (j, p) ∈ blocksOf L := ⟨hS.order_lt, hS.mem⟩

theorem lt (hS : Split s L out j p n s' L') : p < 2 ^ 64 :=
  hS.sound.lt_of_mem_pages (hS.sound.out_in (Or.inr rfl))

/-- Below the order that was split, the page merges with the upper halves. -/
theorem partner_below (hS : Split s L out j p n s' L') (hal : 2 ^ j ∣ p) {i : ℕ} (hi : i < j) :
    mergePartner s' p i = p + 2 ^ i ∧ p + 2 ^ i ∈ L' i := by
  have hj := hS.order_lt
  have hal' : 2 ^ (i + 1) ∣ p := dvd_trans (pow_dvd_pow 2 hi) hal
  have hali : 2 ^ i ∣ p := dvd_trans (pow_dvd_pow 2 (Nat.le_succ i)) hal'
  have hupper : p / 2 ^ i % 2 = 0 := by
    obtain ⟨c, rfl⟩ := hal'
    rw [pow_succ, Nat.mul_assoc, Nat.mul_div_cancel_left _ (Nat.two_pow_pos i)]
    exact Nat.mul_mod_right 2 c
  have hmem : (i, p + 2 ^ i) ∈ blocksOf L' := by
    rw [hS.blocks]
    exact Or.inr ⟨Nat.zero_le i, hi, rfl⟩
  refine ⟨?_, hmem.2⟩
  rw [hS.sound.toListed.mergePartner_eq hS.lt (by simp only [maxOrder] at hj; omega),
    head_of_aligned hali, (buddy_parent_of_lower hali hupper).1]

/-- At that order, it meets the buddy of the block that was split, which the first call left alone. -/
theorem partner_at (hS : Split s L out j p n s' L') (h : Sound s L out) :
    mergePartner s' p j = buddy j p ∧ mergePartner s p j = buddy j p ∧
      s'.memPages (buddy j p) = s.memPages (buddy j p) := by
  have hj := hS.order_lt
  have hal := h.packing.aligned _ hS.mem_blocks
  have hj64 : j < 64 := by
    simp only [maxOrder] at hj
    omega
  refine ⟨?_, ?_, hS.frame _ fun hm => ?_⟩
  · rw [hS.sound.toListed.mergePartner_eq hS.lt hj64, head_of_aligned hal]
  · rw [h.toListed.mergePartner_eq hS.lt hj64, head_of_aligned hal]
  · exact Set.disjoint_left.mp (disjoint_buddy hal) hm (head_mem_block j _)

/-- With a clean buddy the merge meets nothing that is in somebody's hands. -/
theorem merge_clean (hS : Split s L out j p n s' L') (h : Sound s L out) (hclean : SplitsClean s)
    {i : ℕ} (hi : i < maxOrder - 1) (hreach : mergeReaches s' p 0 i) : mergePartner s' p i ∉ out := by
  have hal := h.packing.aligned _ hS.mem_blocks
  rcases Nat.lt_or_ge i j with hlt | hge
  · obtain ⟨hpart, hmem⟩ := hS.partner_below hal hlt
    rw [hpart]
    exact fun hout => Set.disjoint_left.mp hS.sound.apart (Or.inl hout)
      (Sound.head_mem_cover (by omega) hmem)
  · obtain ⟨hpart', hpart, hsame⟩ := hS.partner_at h
    have hstop := hclean j (by omega) p hS.front fun q hq x hx => by
      rw [h.toListed.onFreeList_iff (by omega), hS.below q hq] at hx
      exact List.not_mem_nil hx
    have hhit := hreach j (Nat.zero_le j) hge
    rw [hpart', hsame, ← hpart, hstop] at hhit
    exact absurd hhit (by decide)

/-- With a buddy that looks like one, the merge reaches it, and it is not on the list. -/
theorem merge_stale (hS : Split s L out j p n s' L') (h : Sound s L out) (hj : j < maxOrder - 1)
    (hbuddy : pageIsBuddy (s.memPages (buddy j p)) j = true) :
    mergeReaches s' p 0 j ∧ mergePartner s' p j ∉ L' j := by
  have hal := h.packing.aligned _ hS.mem_blocks
  obtain ⟨hpart', -, hsame⟩ := hS.partner_at h
  refine ⟨fun i _ hi => ?_, fun hm => ?_⟩
  · rcases Nat.lt_or_eq_of_le hi with hlt | rfl
    · obtain ⟨hpart, hmem⟩ := hS.partner_below hal hlt
      rw [hpart]
      exact hS.sound.tagged i (by omega) _ hmem
    · rw [hpart', hsame]
      exact hbuddy
  · have hm' : (j, buddy j p) ∈ blocksOf L' := ⟨hS.order_lt, hpart' ▸ hm⟩
    rw [hS.blocks] at hm'
    rcases hm' with hm' | hm'
    · exact h.packing.unmerged _ hS.mem_blocks hj hm'.1
    · exact absurd hm'.2.1 (lt_irrefl j)

end Split

/-- Two states with the same free pages, in order, have the same free blocks and counters. -/
theorem Sound.free_structure_unique {t : Buddy} {L' : ℕ → List ℕ} {out' : Set ℕ} (h : Sound s L out)
    (h' : Sound t L' out') (hcov : cover (blocksOf L') = cover (blocksOf L)) :
    freeBlocks t = freeBlocks s ∧ ∀ k < maxOrder, t.zone.count k = s.zone.count k := by
  have hblocks : freeBlocks t = freeBlocks s := by
    rw [h.canonical.eq_maximal, h'.canonical.eq_maximal, hcov]
  refine ⟨hblocks, fun k hk => ?_⟩
  rw [h.counts k hk, h'.counts k hk, h.toListed.length_eq h'.toListed hk hblocks]

/-- **One page allocated and freed at once**, with a clean buddy. -/
theorem Sound.restored_of_clean (h : Sound s L out) (hnf : s.zone.nrFreePages < 2 ^ 64)
    (halloc : buddyPageAlloc s 1 = some (p, s')) (hp : p ≠ pfnNotfound) (hclean : SplitsClean s) :
    Restored s (buddyPageFree s' p 1) := by
  obtain ⟨j, L', hS⟩ := h.split halloc hp
  have hone : block 0 p = {p} := block_zero p
  have hfree : p ∈ cover (blocksOf L) := block_subset_cover hS.mem_blocks (head_mem_block j p)
  have hout : Disjoint out (block 0 p) := by
    rw [hone, Set.disjoint_singleton_right]
    exact fun hm => Set.disjoint_left.mp h.apart hm hfree
  have hs' := hS.sound.setNrFreePages (wadd s'.zone.nrFreePages 1)
  rw [← hone] at hs'
  obtain ⟨L₁, h₁, hcov, -⟩ := buddyPageFree_block_sound (k := 0) (by decide) hs' hout (one_dvd p)
    fun i _ hi hreach => hS.merge_clean h hclean hi hreach
  rw [← buddyPageFree_one] at h₁
  have hback : cover (blocksOf L₁) = cover (blocksOf L) := by
    rw [hcov, hS.cover_eq, hone, Set.sdiff_union_of_subset (Set.singleton_subset_iff.mpr hfree)]
  obtain ⟨hblocks, hcounts⟩ := h.free_structure_unique h₁ hback
  refine ⟨hblocks, hcounts, ?_⟩
  rw [buddyPageFree_nrFreePages, hS.nr_free_pages, wadd, wsub]
  omega

/-- If the pair restores the free structure, the request was for one page, and its buddy was clean. -/
theorem Sound.clean_of_restored (h : Sound s L out) (hn : n < 2 ^ 64)
    (halloc : buddyPageAlloc s n = some (p, s')) (hp : p ≠ pfnNotfound)
    (hback : Restored s (buddyPageFree s' p n)) : n = 1 ∧ SplitsClean s := by
  obtain ⟨j, L', hS⟩ := h.split halloc hp
  have hfree : p ∈ cover (blocksOf L) := block_subset_cover hS.mem_blocks (head_mem_block j p)
  have hn1 : n = 1 := by
    have hpos : 0 < (cover (blocksOf L)).ncard := (Set.ncard_pos h.finite_cover).mpr ⟨p, hfree⟩
    have hweight : ((cover (blocksOf L)).ncard - 1 : ZMod (2 ^ 64)) + n = (cover (blocksOf L)).ncard := by
      have hback' := hback.weight_eq
      rwa [weight_buddyPageFree s' p hn, hS.sound.weight_eq, h.weight_eq, hS.cover_eq,
        Set.ncard_sdiff_singleton_of_mem hfree, Nat.cast_sub hpos, Nat.cast_one] at hback'
    have hcast : (n : ZMod (2 ^ 64)) = (1 : ℕ) := by
      rw [Nat.cast_one]
      linear_combination hweight
    have hmod := (ZMod.natCast_eq_natCast_iff' n 1 (2 ^ 64)).mp hcast
    rwa [Nat.mod_eq_of_lt hn, Nat.mod_eq_of_lt (by norm_num)] at hmod
  subst hn1
  refine ⟨rfl, fun i hi q hq hbelow => ?_⟩
  -- the block an allocation would split is the one that was split
  obtain ⟨rest, hL⟩ := h.toListed.toRinged.exists_cons_of_listFrontPage (by omega) hq
  obtain rfl : i = j := by
    rcases lt_trichotomy i j with hlt | heq | hgt
    · rw [hS.below i hlt] at hL
      exact absurd hL.symm (List.cons_ne_nil _ _)
    · exact heq
    · refine absurd ?_ (hbelow j hgt p)
      rw [h.toListed.onFreeList_iff hS.order_lt]
      exact hS.mem
  obtain rfl : p = q := Option.some.inj (hS.front.symm.trans hq)
  rw [Bool.eq_false_iff]
  intro hbuddy
  rw [(hS.partner_at h).2.1] at hbuddy
  obtain ⟨hreach, hbad⟩ := hS.merge_stale h hi hbuddy
  have hs' := hS.sound.setNrFreePages (wadd s'.zone.nrFreePages 1)
  have hnot : ∀ k < maxOrder, p ∉ L' k := fun k hk hm =>
    Set.disjoint_left.mp hS.sound.apart (Or.inr rfl) (Sound.head_mem_cover hk hm)
  have hlen : ∀ k < maxOrder, (L' k).length < 2 ^ 64 := fun k hk => by
    have := hS.sound.length_le hk
    have := hS.sound.fits
    omega
  obtain ⟨L₁, hL₁, -⟩ := buddyPageFree_block_listed (k := 0) hs'.toListed (by decide) hS.lt (one_dvd p) hnot
  obtain ⟨k, hk, hne⟩ := buddyPageFree_block_miscount hs'.toListed (by decide) hs'.counts hlen hS.lt
    (one_dvd p) hnot (Nat.zero_le i) hi hreach hbad hL₁
  rw [← buddyPageFree_one] at hne hL₁
  exact hne ((hback.counts k hk).trans ((h.counts k hk).trans
    (h.toListed.length_eq hL₁ hk hback.blocks).symm))

/-! ### Runs -/

/-- The first pages of a list of ranges. -/
def firstPages (l : List (ℕ × ℕ)) : Set ℕ := {x | ∃ r ∈ l, r.1 = x}

@[simp] theorem firstPages_nil : firstPages [] = ∅ := by
  ext x
  simp [firstPages]

theorem firstPages_cons (r : ℕ × ℕ) (l : List (ℕ × ℕ)) :
    firstPages (r :: l) = firstPages l ∪ {r.1} := by
  ext x
  simp [firstPages, eq_comm]

/-- **The call leaves the lists in order.** An allocation does, for it takes the first page of what it
returns and no other. A free does if it gives back that page alone and meets no page in somebody's hands
where `page_is_buddy` says yes. -/
def KeepsLists (st : BuddyRun) : BuddyOp → Prop
  | .alloc _ => True
  | .free pfn n => n = 1 ∧ ∀ i < maxOrder - 1, mergeReaches st.mm pfn 0 i →
      mergePartner st.mm pfn i ∉ firstPages st.live

/-- The invariant of runs whose calls keep the lists. -/
structure ListRun (st : BuddyRun) (L : ℕ → List ℕ) : Prop where
  sound : Sound st.mm L (firstPages st.live)
  nodup : (st.live.map Prod.fst).Nodup
  nr_free_pages_lt : st.mm.zone.nrFreePages < 2 ^ 64

namespace ListRun

variable {st st' : BuddyRun} {op : BuddyOp}

theorem of_populated {mem : Buddy} {pfnStart nrPages : ℕ} {ranges : List (ℕ × ℕ)}
    (h : Populated mem pfnStart nrPages ranges) :
    ∃ L, ListRun (buddyStart mem pfnStart nrPages ranges) L := by
  obtain ⟨L, hI⟩ := PageRun.of_populated h
  refine ⟨L, ?_, List.nodup_nil, ?_⟩
  · have hs := hI.sound
    rwa [show (buddyStart mem pfnStart nrPages ranges).live = [] from rfl, livePages_nil,
      ← firstPages_nil] at hs
  · rw [hI.counted]
    exact hI.sound.ncard_cover_lt

theorem firstPages_erase {l : List (ℕ × ℕ)} {r : ℕ × ℕ} (hnd : (l.map Prod.fst).Nodup) (hr : r ∈ l) :
    firstPages (l.erase r) = firstPages l \ {r.1} ∧ ((l.erase r).map Prod.fst).Nodup := by
  have hl : l.Nodup := List.Nodup.of_map _ hnd
  refine ⟨?_, hnd.sublist (List.erase_sublist.map _)⟩
  ext x
  constructor
  · rintro ⟨q, hq, rfl⟩
    have hq' := hl.mem_erase_iff.mp hq
    exact ⟨⟨q, hq'.2, rfl⟩, fun he => hq'.1 (List.inj_on_of_nodup_map hnd hq'.2 hr he)⟩
  · rintro ⟨⟨q, hq, rfl⟩, hne⟩
    exact ⟨q, hl.mem_erase_iff.mpr ⟨fun he => hne (by rw [he]; rfl), hq⟩, rfl⟩

/-- **One call keeps the invariant**, if it keeps the lists. -/
theorem step (h : ListRun st L) (hok : KeepsLists st op) (hstep : BuddyStep st op st') :
    ∃ L', ListRun st' L' := by
  cases hstep with
  | @alloc n k pfn mm hn hk halloc hpfn =>
    obtain ⟨j, L', hS⟩ := h.sound.split halloc hpfn
    have hnew : pfn ∉ firstPages st.live := fun hm => Set.disjoint_left.mp h.sound.apart hm
      (block_subset_cover hS.mem_blocks (head_mem_block j pfn))
    refine ⟨L', ?_, ?_, ?_⟩
    · rw [firstPages_cons]
      exact hS.sound
    · exact List.nodup_cons.mpr ⟨fun hm => hnew (List.mem_map.mp hm), h.nodup⟩
    · rw [hS.nr_free_pages]
      exact Nat.mod_lt _ (by norm_num)
  | @allocNone n k mm hn hk halloc =>
    rcases buddyPageAlloc_cases h.sound n with ⟨hnone, -⟩ | ⟨p, s', L', hsome, hp, -⟩
    · rw [hnone, Option.some.injEq, Prod.mk.injEq] at halloc
      obtain ⟨-, rfl⟩ := halloc
      exact ⟨L, h.sound, h.nodup, h.nr_free_pages_lt⟩
    · rw [hsome, Option.some.injEq, Prod.mk.injEq] at halloc
      have hlt := h.sound.toZoneOk.lt_of_mem_pages (h.sound.free_in hp)
      have := halloc.1
      rw [pfnNotfound] at this
      omega
  | @free pfn n hlive =>
    obtain ⟨rfl, hmeets⟩ := hok
    obtain ⟨herase, hnd⟩ := firstPages_erase h.nodup hlive
    have hmem : pfn ∈ firstPages st.live := ⟨_, hlive, rfl⟩
    have hone : block 0 pfn = {pfn} := block_zero pfn
    have hs := h.sound.setNrFreePages (wadd st.mm.zone.nrFreePages 1)
    rw [show firstPages st.live = firstPages (st.live.erase (pfn, 1)) ∪ block 0 pfn by
      rw [herase, hone, Set.sdiff_union_of_subset (Set.singleton_subset_iff.mpr hmem)]] at hs
    obtain ⟨L', hL', -, hscal⟩ := buddyPageFree_block_sound (k := 0) (by decide) hs
      (by rw [herase, hone]; exact Set.disjoint_sdiff_left) (one_dvd pfn)
      (fun i _ hi hreach hm => hmeets i hi hreach (by
        rw [herase] at hm
        exact hm.1))
    refine ⟨L', ?_, hnd, ?_⟩
    · rw [buddyPageFree_one]
      exact hL'
    · rw [buddyPageFree_nrFreePages]
      exact Nat.mod_lt _ (by norm_num)

end ListRun

/-- **Allocating and freeing at once restores the free structure** in a state reached by calls that keep
the lists **iff the request is for one page and the block it splits has a clean buddy.** -/
theorem alloc_free_restores_iff {mem : Buddy} {pfnStart nrPages : ℕ} {ranges : List (ℕ × ℕ)}
    {l : List (BuddyOp × BuddyRun)} (h : Populated mem pfnStart nrPages ranges)
    (hrun : Trace.Run BuddyStep (buddyStart mem pfnStart nrPages ranges) l)
    (hok : Trace.StepsOk KeepsLists (buddyStart mem pfnStart nrPages ranges) l) {st : BuddyRun}
    (hst : st ∈ Trace.states (buddyStart mem pfnStart nrPages ranges) l) {k pfn : ℕ} {mm : Buddy}
    (hk : k < maxOrder) (halloc : buddyPageAlloc st.mm (2 ^ k) = some (pfn, mm))
    (hpfn : pfn ≠ pfnNotfound) :
    Restored st.mm (buddyPageFree mm pfn (2 ^ k)) ↔ k = 0 ∧ SplitsClean st.mm := by
  obtain ⟨L, hI⟩ := Trace.invariant (I := fun st => ∃ L, ListRun st L)
    (fun hI hok hstep => hI.elim fun _ hI => hI.step hok hstep) hrun (ListRun.of_populated h) hok st hst
  constructor
  · intro hback
    have hlt : 2 ^ k < 2 ^ 64 := Nat.pow_lt_pow_right (by norm_num) (hk.trans (by decide))
    obtain ⟨hone, hclean⟩ := hI.sound.clean_of_restored hlt halloc hpfn hback
    exact ⟨Nat.pow_eq_one.mp hone |>.resolve_left (by norm_num), hclean⟩
  · rintro ⟨rfl, hclean⟩
    exact hI.sound.restored_of_clean hI.nr_free_pages_lt halloc hpfn hclean

/-- One page of four, allocated and freed at once. -/
theorem alloc_free_restores_iff_fourPages : ∃ mm, buddyPageAlloc fourPages.mm 1 = some (0, mm) ∧
    Restored fourPages.mm (buddyPageFree mm 0 1) := by
  obtain ⟨mm, halloc, -⟩ := fourPages_alloc (k := 0) (by norm_num)
  have hclean : ∀ j < maxOrder - 1, (listFrontPage fourPages.mm.nodes (.freeArea j)).all fun p =>
      !pageIsBuddy (fourPages.mm.memPages (mergePartner fourPages.mm p j)) j := by
    decide
  refine ⟨mm, halloc, (alloc_free_restores_iff populated_fourPages (.nil _) trivial
    (Trace.self_mem_states _ _) (by decide) halloc (by decide)).mpr ⟨rfl, fun j hj p hp _ => ?_⟩⟩
  have := hclean j hj
  rwa [show listFrontPage fourPages.mm.nodes (.freeArea j) = some p from hp, Option.all_some,
    Bool.not_eq_true'] at this

/-- Two pages of four, allocated and freed at once: page 1 was never taken and is freed again. -/
theorem not_alloc_free_restores_fourPages : Populated zeroMemory 0 4 [(0, 4)] ∧
    ∃ mm, buddyPageAlloc fourPages.mm 2 = some (0, mm) ∧
      ¬ Restored fourPages.mm (buddyPageFree mm 0 2) := by
  obtain ⟨mm, halloc, -⟩ := fourPages_alloc (k := 1) (by norm_num)
  obtain ⟨L, hI⟩ := ListRun.of_populated populated_fourPages
  refine ⟨populated_fourPages, mm, halloc, fun hback => ?_⟩
  have := (hI.sound.clean_of_restored (by norm_num) halloc (by decide) hback).1
  omega

end GeekToyOS
