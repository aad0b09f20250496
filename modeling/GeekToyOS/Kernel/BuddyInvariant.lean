import GeekToyOS.Kernel.BuddyLists

/-!
# What the buddy allocator keeps true

Over the concrete state stands a packing of dyadic blocks: the free blocks. Splitting, merging and
freeing are moves on packings, and `Sound` says that the lists, the flags and the counters of a state
describe such a packing, given the set `out` of pages that are in somebody's hands.

Merging consults nothing but the flag and the order of one page struct. `mergeLoop_sound` therefore
carries a hypothesis: no page in `out` answers `page_is_buddy` where the loop looks. Nothing in
`del_page_from_free_list` makes that true, and the run theorems have to say when it is.

## Main definitions

* `Sound s L out` — the invariant
* `mergeReaches s pfn order` — the merge of the page `pfn` gets to look at order `order` and finds a
  flagged buddy there

## Main results

* `Sound.del`, `Sound.put` — taking a block off a list and putting one on
* `mergeLoop_sound`, `buddyPageFree_block_sound` — freeing a block
* `expandLoop_sound`, `buddyPageAlloc_cases` — splitting and allocating
* `Sound.sum_length` — the counters count pages
-/

namespace GeekToyOS

open Dyadic

/-- The pages of a zone. -/
def Zone.pages (z : Zone) : Set ℕ := Set.Ico z.pfnBase (z.pfnBase + z.nrPages)

/-- **The invariant.** `L` are the lists, `out` the pages in somebody's hands. -/
structure Sound (s : Buddy) (L : ℕ → List ℕ) (out : Set ℕ) : Prop extends Listed s L where
  /-- The free blocks are disjoint, aligned, and no two of them could merge. -/
  packing : Packing (maxOrder - 1) (blocksOf L)
  /-- The counters are the lengths of the lists. -/
  counts : ∀ k < maxOrder, s.zone.count k = (L k).length
  /-- The zone's page numbers are `size_t`s other than `PFN_NOTFOUND`. -/
  fits : s.zone.pfnBase + s.zone.nrPages < 2 ^ 64
  /-- Free pages belong to the zone. -/
  free_in : cover (blocksOf L) ⊆ s.zone.pages
  /-- So do pages in somebody's hands. -/
  out_in : out ⊆ s.zone.pages
  /-- No page is both free and in somebody's hands. -/
  apart : Disjoint out (cover (blocksOf L))
  /-- Only such pages were ever flagged. -/
  clean : ∀ x, (s.memPages x).Flagged → x ∈ cover (blocksOf L) ∨ x ∈ out

namespace Sound

variable {s : Buddy} {L : ℕ → List ℕ} {out : Set ℕ} {k p : ℕ}

theorem lt_of_mem_pages (h : Sound s L out) {x : ℕ} (hx : x ∈ s.zone.pages) : x < 2 ^ 64 := by
  have := h.fits
  have := hx.2
  omega

/-- Pages may pass into somebody's hands as long as they are not free. -/
theorem extend (h : Sound s L out) {X : Set ℕ} (hX : X ⊆ s.zone.pages)
    (hd : Disjoint X (cover (blocksOf L))) : Sound s L (out ∪ X) :=
  { h with
    out_in := Set.union_subset h.out_in hX
    apart := Set.disjoint_union_left.mpr ⟨h.apart, hd⟩
    clean := fun x hx => (h.clean x hx).imp_right Or.inl }

theorem head_mem_cover (hk : k < maxOrder) (hp : p ∈ L k) : p ∈ cover (blocksOf L) :=
  ⟨(k, p), ⟨hk, hp⟩, head_mem_block k p⟩

/-- A list of different pages of the zone is no longer than the zone. -/
theorem length_le_of_nodup {z : Zone} {l : List ℕ} (hnd : l.Nodup) (hl : ∀ p ∈ l, p ∈ z.pages) :
    l.length ≤ z.nrPages := by
  have hsub : l.toFinset ⊆ Finset.Ico z.pfnBase (z.pfnBase + z.nrPages) := fun p hp =>
    Finset.mem_Ico.mpr (hl p (List.mem_toFinset.mp hp))
  have hcard := Finset.card_le_card hsub
  rwa [List.toFinset_card_of_nodup hnd, Nat.card_Ico, Nat.add_sub_cancel_left] at hcard

theorem length_le (h : Sound s L out) (hk : k < maxOrder) : (L k).length ≤ s.zone.nrPages :=
  length_le_of_nodup (h.nodup hk) fun _ hp => h.free_in (head_mem_cover hk hp)

/-- **Taking a block off its list.** Its pages pass into the caller's hands. -/
theorem del (h : Sound s L out) (hk : k < maxOrder) (hp : p ∈ L k) :
    Sound (delPageFromFreeList s p k) (Function.update L k ((L k).erase p)) (out ∪ block k p) := by
  have hmem : (k, p) ∈ blocksOf L := ⟨hk, hp⟩
  have hblocks := h.blocksOf_erase (p := p) hk
  have hcover := h.packing.cover_erase hmem
  have hblock : block k p ⊆ s.zone.pages := (block_subset_cover hmem).trans h.free_in
  have hlen := h.length_le hk
  have hpos : 0 < (L k).length := List.length_pos_of_mem hp
  have hfits := h.fits
  refine ⟨h.toListed.del hk hp, ?_, ?_, h.fits, ?_, ?_, ?_, ?_⟩
  · rw [hblocks]
    exact h.packing.erase _
  · intro j hj
    rw [del_count]
    by_cases hjk : j = k
    · subst hjk
      rw [Function.update_self, Function.update_self, List.length_erase_of_mem hp, h.counts j hj,
        wsub_of_le hpos (by omega)]
    · rw [Function.update_of_ne hjk, Function.update_of_ne hjk, h.counts j hj]
  · rw [hblocks, hcover]
    exact Set.sdiff_subset.trans h.free_in
  · exact Set.union_subset h.out_in hblock
  · rw [hblocks, hcover, Set.disjoint_union_left]
    exact ⟨h.apart.mono_right Set.sdiff_subset, Set.disjoint_sdiff_right⟩
  · intro x hx
    rw [hblocks, hcover]
    rcases h.clean x ((del_flagged s p k x).mp hx) with hfree | hout
    · by_cases hxb : x ∈ block k p
      · exact Or.inr (Or.inr hxb)
      · exact Or.inl ⟨hfree, hxb⟩
    · exact Or.inr (Or.inl hout)

/-- **Putting a block on a list**, of pages that are out: they are out no more. -/
theorem put (h : Sound s L out) (hk : k < maxOrder) (hp : 2 ^ k ∣ p) (hsub : block k p ⊆ out)
    (hbuddy : k < maxOrder - 1 → buddy k p ∉ L k) :
    Sound (putPage s p k) (Function.update L k (L k ++ [p])) (out \ block k p) := by
  have hdisj : Disjoint (block k p) (cover (blocksOf L)) := h.apart.mono_left hsub
  have hnot : ∀ j < maxOrder, p ∉ L j := fun j hj hm =>
    Set.disjoint_left.mp hdisj (head_mem_block k p) (head_mem_cover hj hm)
  have hlt : p < 2 ^ 64 := h.lt_of_mem_pages (h.out_in (hsub (head_mem_block k p)))
  have hblocks := blocksOf_put (L := L) (p := p) hk
  have hlisted := h.toListed.put hk hlt hnot
  have hpack : Packing (maxOrder - 1) (insert (k, p) (blocksOf L)) :=
    h.packing.insert (by simp only [maxOrder] at hk ⊢; omega) hp hdisj
      fun hlt hm => hbuddy hlt hm.2
  have hcover := cover_insert (k, p) (blocksOf L)
  have hfree : cover (insert (k, p) (blocksOf L)) ⊆ s.zone.pages := by
    rw [hcover]
    exact Set.union_subset h.free_in (hsub.trans h.out_in)
  refine ⟨hlisted, ?_, ?_, h.fits, ?_, ?_, ?_, ?_⟩
  · rwa [hblocks]
  · intro j hj
    rw [put_count]
    by_cases hjk : j = k
    · subst hjk
      have hlen : (L j ++ [p]).length ≤ s.zone.nrPages := by
        refine length_le_of_nodup ?_ fun q hq => ?_
        · simpa using hlisted.nodup hj
        · rcases List.mem_append.mp hq with hq | hq
          · exact h.free_in (head_mem_cover hj hq)
          · rw [List.mem_singleton.mp hq]
            exact h.out_in (hsub (head_mem_block j p))
      have hfits := h.fits
      rw [List.length_append, List.length_singleton] at hlen
      rw [Function.update_self, Function.update_self, List.length_append, h.counts j hj,
        wadd_of_lt (by omega)]
      rfl
    · rw [Function.update_of_ne hjk, Function.update_of_ne hjk, h.counts j hj]
  · rwa [hblocks]
  · exact Set.sdiff_subset.trans h.out_in
  · rw [hblocks, hcover, Set.disjoint_union_right]
    exact ⟨h.apart.mono_left Set.sdiff_subset, Set.disjoint_sdiff_left⟩
  · intro x hx
    rw [hblocks, hcover]
    by_cases hxp : x = p
    · rw [hxp]
      exact Or.inl (Or.inr (head_mem_block k p))
    · rw [put_memPages_of_ne _ _ _ _ hxp] at hx
      rcases h.clean x hx with hfree | hout
      · exact Or.inl (Or.inl hfree)
      · by_cases hxb : x ∈ block k p
        · exact Or.inl (Or.inr hxb)
        · exact Or.inr ⟨hout, hxb⟩

end Sound

/-! ### What freeing leaves alone -/

theorem mergeLoop_scalars (m : ℕ) : ∀ (b : Buddy) (pfn order : ℕ),
    (mergeLoop m b pfn order).1.zone.scalars = b.zone.scalars := by
  induction m with
  | zero => exact fun _ _ _ => rfl
  | succ m ih =>
    intro b pfn order
    rw [mergeLoop]
    split
    · rw [ih, del_scalars]
    · rfl

theorem freeLoop_scalars (m : ℕ) : ∀ (b : Buddy) (pfn n : ℕ),
    (freeLoop m b pfn n).zone.scalars = b.zone.scalars := by
  induction m with
  | zero => exact fun _ _ _ => rfl
  | succ m ih =>
    intro b pfn n
    rw [freeLoop]
    split
    · rfl
    · split
      · exact ih b pfn n
      · rw [ih]
        exact mergeLoop_scalars _ b pfn _

/-- The count of free pages grows by the size of the range, checks or not. -/
theorem buddyPageFree_nrFreePages (b : Buddy) (pfn n : ℕ) :
    (buddyPageFree b pfn n).zone.nrFreePages = wadd b.zone.nrFreePages n :=
  congrArg (fun z : ℕ × ℕ × ℕ × ℕ => z.2.2.2) (freeLoop_scalars n _ pfn n)

/-! ### Merging -/

/-- The page struct that merging the page `pfn` looks at in order `order`: the buddy of the block of
that order around it. -/
def mergePartner (s : Buddy) (pfn order : ℕ) : ℕ :=
  pfnToPage s.zone (_findBuddyPfn (alignDown pfn (bitSize order)) order)

/-- Starting from order `start`, merging the page `pfn` finds a flagged buddy of the right order in
every order up to `order`. -/
def mergeReaches (s : Buddy) (pfn start order : ℕ) : Prop :=
  ∀ i, start ≤ i → i ≤ order → pageIsBuddy (s.memPages (mergePartner s pfn i)) i = true

theorem Listed.mergePartner_eq {s : Buddy} {L : ℕ → List ℕ} (h : Listed s L) {pfn i : ℕ}
    (hp : pfn < 2 ^ 64) (hi : i < 64) : mergePartner s pfn i = buddy i (head i pfn) := by
  have hhead : head i pfn < 2 ^ 64 := lt_of_le_of_lt (head_le i pfn) hp
  rw [mergePartner, bitSize_eq, alignDown_two_pow (Nat.le_of_lt hi) hp, findBuddyPfn_eq]
  exact h.pfnToPage (buddy_lt hi hhead)

/-- What a merge of the block of order `k` at `p` leaves: a larger block in hand, of order `k'` at
`p'`, and fewer blocks on the lists. -/
structure Merged (s : Buddy) (L : ℕ → List ℕ) (live : Set ℕ) (k p : ℕ) (s' : Buddy)
    (L' : ℕ → List ℕ) (k' p' : ℕ) : Prop where
  sound : Sound s' L' (live ∪ block k' p')
  apart : Disjoint live (block k' p')
  aligned : 2 ^ k' ∣ p'
  order_le : k' ≤ maxOrder - 1
  grows : block k p ⊆ block k' p'
  cover_eq : cover (blocksOf L') ∪ block k' p' = cover (blocksOf L) ∪ block k p
  /-- The loop stopped for a reason. -/
  unmerged : k' < maxOrder - 1 → buddy k' p' ∉ L' k'
  scalars : s'.zone.scalars = s.zone.scalars

variable {live : Set ℕ}

/-- **A flagged buddy that nobody holds is a free block.** This is all that `page_is_buddy` can tell,
and it takes the hypothesis that the page is not in somebody's hands. -/
theorem Sound.mem_of_isBuddy {s : Buddy} {L : ℕ → List ℕ} {out : Set ℕ} {k p x : ℕ}
    (h : Sound s L out) (hp : 2 ^ k ∣ p) (hx : x ∈ block k p) (hfree : x ∉ cover (blocksOf L))
    (hbuddy : pageIsBuddy (s.memPages (buddy k p)) k = true) (hout : buddy k p ∉ out) :
    buddy k p ∈ L k := by
  have hcov : buddy k p ∈ cover (blocksOf L) :=
    (h.clean _ (pageIsBuddy_iff.mp hbuddy).1).resolve_right hout
  obtain ⟨j, -, hj, hmem⟩ := h.packing.exists_member_at hp hx hfree hcov
  obtain rfl : j = k := h.toListed.order_eq hj hmem hbuddy
  exact hmem

theorem mergeLoop_sound : ∀ (n : ℕ) {s : Buddy} {L : ℕ → List ℕ} {k p : ℕ},
    n + k = maxOrder - 1 → Sound s L (live ∪ block k p) → Disjoint live (block k p) → 2 ^ k ∣ p →
    (∀ j, k ≤ j → j < maxOrder - 1 → mergeReaches s p k j → mergePartner s p j ∉ live) →
    ∃ L', Merged s L live k p (mergeLoop n s p k).1 L' (mergeLoop n s p k).2.2
      (mergeLoop n s p k).2.1 := by
  intro n
  induction n with
  | zero =>
    intro s L k p hk h hlive hp _
    refine ⟨L, h, hlive, hp, by simp only [mergeLoop]; omega, subset_rfl, rfl, fun hlt => ?_, rfl⟩
    simp only [mergeLoop] at hlt
    omega
  | succ n ih =>
    intro s L k p hk h hlive hp hcond
    have hk10 : k < maxOrder - 1 := by omega
    have hk64 : k < 64 := by simp only [maxOrder] at hk10; omega
    have hkmax : k < maxOrder := by omega
    have hlt : p < 2 ^ 64 := h.lt_of_mem_pages (h.out_in (Or.inr (head_mem_block k p)))
    have hpart : mergePartner s p k = buddy k p := by
      rw [h.toListed.mergePartner_eq hlt hk64, head_of_aligned hp]
    have hpage : pfnToPage s.zone (_findBuddyPfn p k) = buddy k p := by
      rw [findBuddyPfn_eq, h.toListed.pfnToPage (buddy_lt hk64 hlt)]
    by_cases hhit : pageIsBuddy (s.memPages (buddy k p)) k = true
    · -- the buddy is free: take it off its list and go on with the parent
      have hmem : buddy k p ∈ L k := by
        have hp' : p ∈ block k p := head_mem_block k p
        have hpc : p ∉ cover (blocksOf L) := Set.disjoint_left.mp h.apart (Or.inr hp')
        have hbb : buddy k p ∉ block k p := fun hm =>
          Set.disjoint_left.mp (disjoint_buddy hp) hm (head_mem_block k _)
        refine h.mem_of_isBuddy hp hp' hpc hhit fun hm => ?_
        revert hm
        rw [Set.mem_union, or_iff_left hbb, ← hpart]
        refine hcond k le_rfl hk10 fun i hi hi' => ?_
        obtain rfl : i = k := le_antisymm hi' hi
        rw [hpart]
        exact hhit
      have hout : live ∪ block k p ∪ block k (buddy k p)
          = live ∪ block (k + 1) (parent k p) := by
        rw [Set.union_assoc, ← block_parent hp]
      have hdel := h.del hkmax hmem
      rw [hout] at hdel
      have hlive' : Disjoint live (block (k + 1) (parent k p)) := by
        rw [block_parent hp, Set.disjoint_union_right]
        exact ⟨hlive, (h.apart.mono_left Set.subset_union_left).mono_right
          (block_subset_cover (b := (k, buddy k p)) (show (k, buddy k p) ∈ blocksOf L from ⟨hkmax, hmem⟩))⟩
      have hloop : mergeLoop (n + 1) s p k
          = mergeLoop n (delPageFromFreeList s (buddy k p) k) (parent k p) (k + 1) := by
        rw [mergeLoop]
        simp only [hpage, hhit, if_true]
        rw [findBuddyPfn_eq, buddy_and hp]
      rw [hloop]
      have hpar : parent k p < 2 ^ 64 := lt_of_le_of_lt (parent_le k p) hlt
      obtain ⟨L', hm⟩ := ih (by omega) hdel hlive' (aligned_parent k p) (by
        intro j hj hj10 hreach
        have hj64 : j < 64 := by simp only [maxOrder] at hj10; omega
        have hsame : ∀ i, k + 1 ≤ i → i < 64 →
            mergePartner (delPageFromFreeList s (buddy k p) k) (parent k p) i
              = mergePartner s p i := by
          intro i hi hi64
          rw [hdel.toListed.mergePartner_eq hpar hi64, h.toListed.mergePartner_eq hlt hi64, parent,
            head_head hi]
        rw [hsame j hj hj64]
        refine hcond j (by omega) hj10 fun i hi hi' => ?_
        rcases Nat.eq_or_lt_of_le hi with rfl | hlt'
        · rw [hpart]
          exact hhit
        · have := hreach i hlt' hi'
          rwa [hsame i hlt' (by omega), del_pageIsBuddy] at this)
      refine ⟨L', hm.sound, hm.apart, hm.aligned, hm.order_le,
        (block_subset_parent hp).trans hm.grows, ?_, hm.unmerged, hm.scalars⟩
      have hblocks := h.toListed.blocksOf_erase (p := buddy k p) hkmax
      have hbmem : (k, buddy k p) ∈ blocksOf L := ⟨hkmax, hmem⟩
      rw [hm.cover_eq, hblocks, h.packing.cover_erase hbmem, block_parent hp, Set.union_comm (block k p),
        ← Set.union_assoc, Set.sdiff_union_of_subset (block_subset_cover hbmem)]
    · have hloop : mergeLoop (n + 1) s p k = (s, p, k) := by
        rw [mergeLoop]
        simp only [hpage, hhit, Bool.false_eq_true, if_false]
      rw [hloop]
      refine ⟨L, h, hlive, hp, Nat.le_of_lt hk10, subset_rfl, rfl, fun _ hm => hhit ?_, rfl⟩
      exact h.tagged k hkmax _ hm

/-- **Freeing a block** that somebody holds keeps the lists sound, if it is not merged with pages in use. -/
theorem buddyPageFree_block_sound {s : Buddy} {L : ℕ → List ℕ} {k p : ℕ} (hk : k < maxOrder)
    (h : Sound s L (live ∪ block k p)) (hlive : Disjoint live (block k p)) (hp : 2 ^ k ∣ p)
    (hcond : ∀ j, k ≤ j → j < maxOrder - 1 → mergeReaches s p k j → mergePartner s p j ∉ live) :
    ∃ L', Sound (_buddyPageFree s p k) L' live ∧
      cover (blocksOf L') = cover (blocksOf L) ∪ block k p ∧
      (_buddyPageFree s p k).zone.scalars = s.zone.scalars := by
  obtain ⟨L', hm⟩ := mergeLoop_sound (maxOrder - 1 - k) (by omega) h hlive hp hcond
  set r := mergeLoop (maxOrder - 1 - k) s p k with hr
  have hkr : r.2.2 < maxOrder := by
    have := hm.order_le
    omega
  have hlt : r.2.1 < 2 ^ 64 :=
    hm.sound.lt_of_mem_pages (hm.sound.out_in (Or.inr (head_mem_block _ _)))
  have hfree : _buddyPageFree s p k = putPage r.1 r.2.1 r.2.2 := by
    rw [_buddyPageFree, ← hr]
    simp only [hm.sound.toListed.pfnToPage hlt]
    rfl
  have hput := hm.sound.put hkr hm.aligned Set.subset_union_right hm.unmerged
  rw [Set.union_sdiff_right, hm.apart.sdiff_eq_left] at hput
  refine ⟨_, hfree ▸ hput, ?_, ?_⟩
  · rw [blocksOf_put hkr, cover_insert, hm.cover_eq]
  · rw [hfree, put_scalars, hm.scalars]

/-! ### Freeing a range -/

theorem freeOrder_spec (pfn : ℕ) {nrPages : ℕ} (hn : 0 < nrPages) :
    ∃ o < maxOrder, freeOrder pfn nrPages = some o ∧ 2 ^ o ∣ pfn ∧ 2 ^ o ≤ nrPages := by
  have hsome : (freeOrder pfn nrPages).isSome := by
    rw [freeOrder, List.find?_isSome]
    exact ⟨0, by simp [maxOrder], by simpa [Nat.mod_one] using Nat.succ_le_of_lt hn⟩
  obtain ⟨o, ho⟩ := Option.isSome_iff_exists.mp hsome
  have hmem : o ∈ (List.range maxOrder).reverse := List.mem_of_find?_eq_some ho
  have hspec := List.find?_some ho
  simp only [Nat.one_shiftLeft, decide_eq_true_eq] at hspec
  exact ⟨o, by simpa using hmem, ho, Nat.dvd_of_mod_eq_zero hspec.1, hspec.2⟩

/-- `buddy_page_free` picks the largest block that is aligned and that the range has room for. -/
theorem freeOrder_greedy {q n : ℕ} (hn : 0 < n) :
    ∃ o, freeOrder q n = some o ∧ o < maxOrder ∧ 2 ^ o ∣ q ∧ 2 ^ o ≤ n ∧
      ∀ j < maxOrder, o < j → 2 ^ j ∣ q → n < 2 ^ j := by
  obtain ⟨o, ho, hfind, hal, hle⟩ := freeOrder_spec q hn
  refine ⟨o, hfind, ho, hal, hle, fun j hj hoj hdvd => ?_⟩
  rw [freeOrder, List.find?_eq_some_iff_append] at hfind
  obtain ⟨-, before, after, hsplit, hnone⟩ := hfind
  have hsorted : ((List.range maxOrder).reverse).Pairwise (· > ·) := by decide
  rw [hsplit, List.pairwise_append] at hsorted
  -- larger orders come first
  have hmem : j ∈ before := by
    have hj' : j ∈ before ++ o :: after := by
      rw [← hsplit, List.mem_reverse, List.mem_range]
      exact hj
    rcases List.mem_append.mp hj' with hb | ha
    · exact hb
    · rcases List.mem_cons.mp ha with rfl | ha
      · omega
      · have := (List.pairwise_cons.mp hsorted.2.1).1 j ha
        omega
  have := hnone j hmem
  simp only [Nat.one_shiftLeft, Bool.not_eq_true', decide_eq_false_iff_not, not_and, not_le] at this
  exact this (Nat.mod_eq_zero_of_dvd hdvd)

/-- Nothing but the accounting reads `nr_free_pages`. -/
theorem Sound.setNrFreePages {s : Buddy} {L : ℕ → List ℕ} {out : Set ℕ} (h : Sound s L out) (n : ℕ) :
    Sound (s.setNrFreePages n) L out :=
  ⟨⟨h.base, h.base_lt, h.rings, h.page_lt, h.tagged, h.selfLinked⟩, h.packing, h.counts, h.fits,
    h.free_in, h.out_in, h.apart, h.clean⟩

/-- Freeing pages that nobody holds, block by block: every buddy found flagged is free. -/
theorem freeLoop_sound : ∀ (n : ℕ) {s : Buddy} {L : ℕ → List ℕ} {pfn nrPages : ℕ}, nrPages ≤ n →
    Sound s L ∅ → Set.Ico pfn (pfn + nrPages) ⊆ s.zone.pages →
    Disjoint (Set.Ico pfn (pfn + nrPages)) (cover (blocksOf L)) →
    ∃ L', Sound (freeLoop n s pfn nrPages) L' ∅ ∧
      cover (blocksOf L') = cover (blocksOf L) ∪ Set.Ico pfn (pfn + nrPages) ∧
      (freeLoop n s pfn nrPages).zone.scalars = s.zone.scalars := by
  intro n
  induction n with
  | zero =>
    intro s L pfn nrPages hn h _ _
    obtain rfl : nrPages = 0 := Nat.le_zero.mp hn
    exact ⟨L, h, by simp, rfl⟩
  | succ n ih =>
    intro s L pfn nrPages hn h hzone hdisj
    by_cases h0 : nrPages = 0
    · subst h0
      exact ⟨L, by simpa [freeLoop] using h, by simp, by simp [freeLoop]⟩
    · obtain ⟨o, ho, hfind, hal, hle⟩ := freeOrder_spec pfn (Nat.pos_of_ne_zero h0)
      have hsplit : Set.Ico pfn (pfn + nrPages)
          = block o pfn ∪ Set.Ico (pfn + 2 ^ o) (pfn + 2 ^ o + (nrPages - 2 ^ o)) := by
        rw [show pfn + 2 ^ o + (nrPages - 2 ^ o) = pfn + nrPages by omega]
        exact (Set.Ico_union_Ico_eq_Ico (by omega) (by omega)).symm
      rw [hsplit, Set.union_subset_iff] at hzone
      rw [hsplit, Set.disjoint_union_left] at hdisj
      have hpos : 0 < 2 ^ o := Nat.two_pow_pos o
      have hlast : pfn + 2 ^ o ≤ s.zone.pfnBase + s.zone.nrPages := by
        have : pfn + 2 ^ o - 1 ∈ s.zone.pages := hzone.1 ⟨by omega, by omega⟩
        have := this.2
        omega
      have hfits := h.fits
      have hnr : nrPages < 2 ^ 64 := by
        by_contra hge
        have : pfn + nrPages - 1 ∈ s.zone.pages := by
          by_cases heq : nrPages = 2 ^ o
          · exact hzone.1 ⟨by omega, by omega⟩
          · exact hzone.2 ⟨by omega, by omega⟩
        have := this.2
        omega
      have hext := h.extend hzone.1 hdisj.1
      obtain ⟨L₁, h₁, hc₁, hs₁⟩ := buddyPageFree_block_sound ho hext (Set.empty_disjoint _) hal
        (fun _ _ _ _ hm => hm)
      have hstep : freeLoop (n + 1) s pfn nrPages
          = freeLoop n (_buddyPageFree s pfn o) (pfn + 2 ^ o) (nrPages - 2 ^ o) := by
        rw [freeLoop, if_neg h0, hfind]
        simp only [Nat.one_shiftLeft]
        rw [wadd_of_lt (by omega), wsub_of_le hle hnr]
      have hpages : (_buddyPageFree s pfn o).zone.pages = s.zone.pages := by
        simp only [Zone.scalars, Prod.mk.injEq] at hs₁
        rw [Zone.pages, Zone.pages, hs₁.2.1, hs₁.2.2.1]
      have hrest : Disjoint (block o pfn)
          (Set.Ico (pfn + 2 ^ o) (pfn + 2 ^ o + (nrPages - 2 ^ o))) :=
        Set.disjoint_left.mpr fun x hx hx' => by
          have := hx.2
          have := hx'.1
          omega
      obtain ⟨L₂, h₂, hc₂, hs₂⟩ := ih (by omega) h₁ (hpages ▸ hzone.2) (by
        rw [hc₁, Set.disjoint_union_right]
        exact ⟨hdisj.2, hrest.symm⟩)
      rw [hstep]
      exact ⟨L₂, h₂, by rw [hc₂, hc₁, hsplit, Set.union_assoc], hs₂.trans hs₁⟩

/-- **Freeing a range that nobody holds** keeps the lists sound, and adds the range to what they cover. -/
theorem buddyPageFree_sound {s : Buddy} {L : ℕ → List ℕ} {pfn nrPages : ℕ} (h : Sound s L ∅)
    (hzone : Set.Ico pfn (pfn + nrPages) ⊆ s.zone.pages)
    (hdisj : Disjoint (Set.Ico pfn (pfn + nrPages)) (cover (blocksOf L))) :
    ∃ L', Sound (buddyPageFree s pfn nrPages) L' ∅ ∧
      cover (blocksOf L') = cover (blocksOf L) ∪ Set.Ico pfn (pfn + nrPages) ∧
      (buddyPageFree s pfn nrPages).zone.scalars
        = (s.zone.memMap, s.zone.pfnBase, s.zone.nrPages, wadd s.zone.nrFreePages nrPages) :=
  freeLoop_sound nrPages le_rfl (h.setNrFreePages _) hzone hdisj

/-- Freeing a range of one page frees one block of order 0. -/
theorem buddyPageFree_one (s : Buddy) (pfn : ℕ) :
    buddyPageFree s pfn 1 = _buddyPageFree (s.setNrFreePages (wadd s.zone.nrFreePages 1)) pfn 0 := by
  obtain ⟨o, -, hfind, -, hle⟩ := freeOrder_spec pfn Nat.one_pos
  obtain rfl : o = 0 := by
    by_contra hne
    have := Nat.one_lt_two_pow hne
    omega
  simp [buddyPageFree, freeLoop, hfind]

/-! ### Splitting and allocating -/

/-- **The request's order is always zero**: `sz&1 == 0` parses as `sz & (1 == 0)`, so the loop that
should count the trailing zeros of the request never runs. -/
theorem orderLoop_eq (n sz order : ℕ) : orderLoop n sz order = order := by
  cases n with
  | zero => rfl
  | succ n => simp [orderLoop]

theorem expandLoop_sound (target : ℕ) {page : ℕ} : ∀ (o : ℕ) {s : Buddy} {L : ℕ → List ℕ} {out : Set ℕ},
    o < maxOrder → target ≤ o → 2 ^ o ∣ page → Sound s L out → block o page ⊆ out →
    ∃ L', Sound (expandLoop page target s o (2 ^ o)) L' (out \ (block o page \ block target page)) ∧
      cover (blocksOf L') = cover (blocksOf L) ∪ (block o page \ block target page) ∧
      (expandLoop page target s o (2 ^ o)).zone.scalars = s.zone.scalars ∧
      (expandLoop page target s o (2 ^ o)).memPages page = s.memPages page := by
  intro o
  induction o with
  | zero =>
    intro s L out _ ht _ h _
    obtain rfl : target = 0 := Nat.le_zero.mp ht
    exact ⟨L, by simpa [expandLoop] using h, by simp, rfl, rfl⟩
  | succ o ih =>
    intro s L out ho ht hal h hsub
    by_cases hlt : target < o + 1
    · have hal' : 2 ^ o ∣ page := dvd_trans (pow_dvd_pow 2 (Nat.le_succ o)) hal
      have hupper : page / 2 ^ o % 2 = 0 := by
        obtain ⟨c, rfl⟩ := hal
        rw [pow_succ, Nat.mul_assoc, Nat.mul_div_cancel_left _ (Nat.two_pow_pos o)]
        exact Nat.mul_mod_right 2 c
      obtain ⟨hbuddy, hpar⟩ := buddy_parent_of_lower hal' hupper
      have hhalves := block_parent hal'
      rw [hpar, hbuddy] at hhalves
      have hbuddy' : buddy o (page + 2 ^ o) = page := by rw [← hbuddy, buddy_buddy]
      have hap := hbuddy ▸ disjoint_buddy hal'
      have hq : block o (page + 2 ^ o) ⊆ out := fun x hx => hsub (hhalves ▸ Or.inr hx)
      have hnot : page ∉ L o := fun hm => Set.disjoint_left.mp h.apart
        (hsub (head_mem_block _ _)) (Sound.head_mem_cover (by omega) hm)
      have hput := h.put (by omega) (hbuddy ▸ aligned_buddy hal') hq (fun _ => hbuddy'.symm ▸ hnot)
      have hltq : page + 2 ^ o < 2 ^ 64 := h.lt_of_mem_pages (h.out_in (hq (head_mem_block _ _)))
      have hstep : expandLoop page target s (o + 1) (2 ^ (o + 1))
          = expandLoop page target (putPage s (page + 2 ^ o) o) o (2 ^ o) := by
        rw [expandLoop, if_pos hlt]
        simp only [Nat.shiftRight_one]
        rw [pow_succ, Nat.mul_div_cancel _ (by norm_num), wadd_of_lt hltq, setBuddyOrder_add]
      obtain ⟨L', hL', hc', hs', hm'⟩ := ih (by omega) (by omega) hal' hput (fun x hx =>
        ⟨hsub (hhalves ▸ Or.inl hx), Set.disjoint_left.mp hap hx⟩)
      have htarget : block target page ⊆ block o page :=
        block_subset_of_mem (by omega) (dvd_trans (pow_dvd_pow 2 (by omega)) hal') hal'
          (head_mem_block _ _) (head_mem_block _ _)
      have hrest : block (o + 1) page \ block target page
          = block o (page + 2 ^ o) ∪ block o page \ block target page := by
        rw [hhalves, Set.union_comm, Set.union_sdiff_distrib,
          (hap.symm.mono_right htarget).sdiff_eq_left]
      refine ⟨L', ?_, ?_, ?_, ?_⟩
      · rw [hstep, hrest, ← Set.sdiff_sdiff]
        exact hL'
      · rw [hc', blocksOf_put (by omega), cover_insert, hrest, Set.union_assoc]
      · rw [hstep, hs', put_scalars]
      · have hne : page ≠ page + 2 ^ o := by
          have := Nat.two_pow_pos o
          omega
        rw [hstep, hm', put_memPages_of_ne _ _ _ _ hne]
    · obtain rfl : target = o + 1 := by omega
      have hstep : expandLoop page (o + 1) s (o + 1) (2 ^ (o + 1)) = s := by
        rw [expandLoop, if_neg hlt]
      rw [hstep]
      exact ⟨L, by simpa using h, by simp, rfl, rfl⟩

/-- What the search of `buddy_page_alloc` finds: nothing, or the front block of the first list that is
not empty, which it takes off and splits. -/
theorem allocSearch_cases {s : Buddy} {L : ℕ → List ℕ} (h : Ringed s L)
    (hcounts : ∀ k < maxOrder, s.zone.count k = (L k).length) (nrPages order : ℕ) :
    ∀ n k, n + k = maxOrder →
    (allocSearch s nrPages order n k = some (pfnNotfound, s) ∧
      ∀ j, k ≤ j → j < maxOrder → L j = []) ∨
    ∃ j p rest, k ≤ j ∧ j < maxOrder ∧ L j = p :: rest ∧ (∀ i, k ≤ i → i < j → L i = []) ∧
      allocSearch s nrPages order n k =
        let t := delPageFromFreeList s p j
        let t := if j ≠ order then expandBuddy t p j order else t
        let t := t.setNrFreePages (wsub t.zone.nrFreePages nrPages)
        some (pageToPfn t.zone p, t) := by
  intro n
  induction n with
  | zero =>
    intro k hk
    exact Or.inl ⟨rfl, fun j hj hlt => by omega⟩
  | succ n ih =>
    intro k hk
    have hkmax : k < maxOrder := by omega
    have hcount := hcounts k hkmax
    cases hL : L k with
    | nil =>
      rw [hL, List.length_nil] at hcount
      have hskip : allocSearch s nrPages order (n + 1) k = allocSearch s nrPages order n (k + 1) := by
        rw [allocSearch, if_pos hcount]
      rw [hskip]
      refine (ih (k + 1) (by omega)).imp ?_ ?_
      · rintro ⟨hres, hnil⟩
        refine ⟨hres, fun j hj hlt => ?_⟩
        rcases Nat.eq_or_lt_of_le hj with rfl | hj
        · exact hL
        · exact hnil j hj hlt
      · rintro ⟨j, p, rest, hj, hlt, hLj, hnil, hres⟩
        refine ⟨j, p, rest, by omega, hlt, hLj, fun i hi hij => ?_, hres⟩
        rcases Nat.eq_or_lt_of_le hi with rfl | hi
        · exact hL
        · exact hnil i hi hij
    | cons p rest =>
      refine Or.inr ⟨k, p, rest, le_rfl, hkmax, hL, fun i hi hik => by omega, ?_⟩
      have hne : s.zone.count k ≠ 0 := by
        rw [hcount, hL]
        simp
      rw [allocSearch, if_neg hne, h.listFrontPage_eq hkmax hL]

/-- **Allocating.** Whatever the size asked for, a successful allocation takes one page. -/
theorem buddyPageAlloc_cases {s : Buddy} {L : ℕ → List ℕ} {out : Set ℕ} (h : Sound s L out)
    (nrPages : ℕ) :
    (buddyPageAlloc s nrPages = some (pfnNotfound, s) ∧ ∀ k < maxOrder, L k = []) ∨
    ∃ p s' L', buddyPageAlloc s nrPages = some (p, s') ∧ p ∈ cover (blocksOf L) ∧
      Sound s' L' (out ∪ {p}) ∧ cover (blocksOf L') = cover (blocksOf L) \ {p} ∧
      s'.zone.scalars = (s.zone.memMap, s.zone.pfnBase, s.zone.nrPages,
        wsub s.zone.nrFreePages nrPages) ∧
      (s'.memPages p).Flagged := by
  have halloc : buddyPageAlloc s nrPages = allocSearch s nrPages 0 maxOrder 0 := by
    simp only [buddyPageAlloc, orderLoop_eq, Nat.sub_zero]
  rw [halloc]
  rcases allocSearch_cases h.toListed.toRinged h.counts nrPages 0 maxOrder 0 rfl with
    ⟨hres, hnil⟩ | hfound
  · exact Or.inl ⟨hres, fun k hk => hnil k (Nat.zero_le k) hk⟩
  · obtain ⟨k, p, rest, -, hk, hL, -, hres⟩ := hfound
    have hmem : p ∈ L k := by rw [hL]; exact List.mem_cons_self
    have hdel := h.del hk hmem
    have hblock : (k, p) ∈ blocksOf L := ⟨hk, hmem⟩
    have hal : 2 ^ k ∣ p := h.packing.aligned _ hblock
    have hin : p ∈ s.zone.pages := h.free_in (Sound.head_mem_cover hk hmem)
    have hpfn : p < 2 ^ 64 := h.lt_of_mem_pages hin
    obtain ⟨L', hL', hc', hs', hm'⟩ := expandLoop_sound 0 k hk (Nat.zero_le k) hal hdel
      Set.subset_union_right
    have hexp : (if k ≠ 0 then expandBuddy (delPageFromFreeList s p k) p k 0
        else delPageFromFreeList s p k)
        = expandLoop p 0 (delPageFromFreeList s p k) k (2 ^ k) := by
      cases k with
      | zero => rfl
      | succ k => rw [if_pos (Nat.succ_ne_zero k), expandBuddy, Nat.one_shiftLeft]
    set t := expandLoop p 0 (delPageFromFreeList s p k) k (2 ^ k) with ht
    have hscal : t.zone.scalars = s.zone.scalars := hs'.trans (del_scalars s p k)
    simp only [Zone.scalars, Prod.mk.injEq] at hscal
    obtain ⟨hmm, hpb, hnp, hnf⟩ := hscal
    have hone : block 0 p = {p} := block_zero p
    have hsub : {p} ⊆ block k p := Set.singleton_subset_iff.mpr (head_mem_block k p)
    refine Or.inr ⟨p, t.setNrFreePages (wsub t.zone.nrFreePages nrPages), L', ?_,
      Sound.head_mem_cover hk hmem, ?_, ?_, ?_, ?_⟩
    · rw [hres]
      simp only [hexp]
      rw [(hL'.setNrFreePages (wsub t.zone.nrFreePages nrPages)).toListed.pageToPfn hpfn]
    · have hout : (out ∪ block k p) \ (block k p \ block 0 p) = out ∪ {p} := by
        rw [hone, Set.union_sdiff_distrib, Set.sdiff_sdiff_right_self, Set.inter_eq_right.mpr hsub,
          ((h.apart.mono_right (block_subset_cover hblock)).mono_right
            Set.sdiff_subset).sdiff_eq_left]
      rw [← hout]
      exact hL'.setNrFreePages _
    · rw [hc', h.toListed.blocksOf_erase hk, h.packing.cover_erase hblock, hone]
      ext x
      simp only [Set.mem_union, Set.mem_sdiff, Set.mem_singleton_iff]
      constructor
      · rintro (⟨hx, hxb⟩ | ⟨hxb, hxp⟩)
        · exact ⟨hx, fun he => hxb (he ▸ head_mem_block k p)⟩
        · exact ⟨block_subset_cover hblock hxb, hxp⟩
      · rintro ⟨hx, hxp⟩
        by_cases hxb : x ∈ block k p
        · exact Or.inr ⟨hxb, hxp⟩
        · exact Or.inl ⟨hx, hxb⟩
    · simp only [Zone.scalars, Buddy.setNrFreePages, hmm, hpb, hnp, hnf]
    · have hflag : (s.memPages p).Flagged := (pageIsBuddy_iff.mp (h.tagged k hk p hmem)).1
      have := (del_flagged s p k p).mpr hflag
      rw [← hm'] at this
      exact this

/-! ### Counting pages -/

theorem Zone.finite_pages (z : Zone) : z.pages.Finite := Set.finite_Ico _ _

/-- **The counters count pages**: weighted with the block sizes they add up to the free pages. -/
theorem Sound.sum_length {s : Buddy} {L : ℕ → List ℕ} {out : Set ℕ} (h : Sound s L out) :
    ∑ k ∈ Finset.range maxOrder, (L k).length * 2 ^ k = (cover (blocksOf L)).ncard := by
  classical
  let I : Finset (Σ _ : ℕ, ℕ) := (Finset.range maxOrder).sigma fun k => (L k).toFinset
  have hI : ∀ b ∈ I, (b.1, b.2) ∈ blocksOf L := fun b hb => by
    obtain ⟨h1, h2⟩ := Finset.mem_sigma.mp hb
    exact ⟨Finset.mem_range.mp h1, List.mem_toFinset.mp h2⟩
  have hcover : cover (blocksOf L)
      = ((I.biUnion fun b => Finset.Ico b.2 (b.2 + 2 ^ b.1) : Finset ℕ) : Set ℕ) := by
    ext x
    rw [Finset.mem_coe, Finset.mem_biUnion]
    constructor
    · rintro ⟨⟨k, p⟩, ⟨hk, hp⟩, hx⟩
      exact ⟨⟨k, p⟩, Finset.mem_sigma.mpr ⟨Finset.mem_range.mpr hk, List.mem_toFinset.mpr hp⟩,
        Finset.mem_Ico.mpr hx⟩
    · rintro ⟨b, hb, hx⟩
      exact ⟨(b.1, b.2), hI b hb, Finset.mem_Ico.mp hx⟩
  have hdisj : (I : Set (Σ _ : ℕ, ℕ)).PairwiseDisjoint
      fun b => Finset.Ico b.2 (b.2 + 2 ^ b.1) := by
    intro b hb c hc hne
    refine Finset.disjoint_left.mpr fun x hxb hxc => hne ?_
    have := h.packing.apart _ (hI b hb) _ (hI c hc) x (Finset.mem_Ico.mp hxb) (Finset.mem_Ico.mp hxc)
    obtain ⟨h1, h2⟩ := Prod.ext_iff.mp this
    exact Sigma.ext h1 (heq_of_eq h2)
  rw [hcover, Set.ncard_coe_finset, Finset.card_biUnion hdisj, Finset.sum_sigma]
  refine Finset.sum_congr rfl fun k hk => ?_
  simp only [Nat.card_Ico, Nat.add_sub_cancel_left]
  rw [Finset.sum_const, List.toFinset_card_of_nodup (h.nodup (Finset.mem_range.mp hk)),
    Nat.nsmul_eq_mul]

theorem Sound.finite_cover {s : Buddy} {L : ℕ → List ℕ} {out : Set ℕ} (h : Sound s L out) :
    (cover (blocksOf L)).Finite := s.zone.finite_pages.subset h.free_in

theorem Sound.ncard_cover_lt {s : Buddy} {L : ℕ → List ℕ} {out : Set ℕ} (h : Sound s L out) :
    (cover (blocksOf L)).ncard < 2 ^ 64 := by
  have hle := Set.ncard_le_ncard h.free_in s.zone.finite_pages
  have hpages : s.zone.pages.ncard = s.zone.nrPages := by
    rw [Zone.pages, ← Finset.coe_Ico, Set.ncard_coe_finset, Nat.card_Ico, Nat.add_sub_cancel_left]
  have := h.fits
  omega

/-- The lists of a state are determined by it: a ring has one sequence of nodes. -/
theorem Listed.unique {s : Buddy} {L L' : ℕ → List ℕ} (h : Listed s L) {k : ℕ} (hk : k < maxOrder)
    (hr : IsRing s.nodes (.freeArea k) ((L' k).map .page)) : L' k = L k :=
  List.map_injective_iff.mpr page_injective (hr.unique (h.rings.ring ⟨k, hk⟩))

end GeekToyOS
