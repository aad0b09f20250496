import GeekToyOS.Kernel.MemoryRuns

/-!
# Handing memory over to the buddy system

The loop of `buddy_init` searches the page map for the next available page, for the next used page
after it, and frees the range in between. Ranges are maximal, and `buddy_page_free` cuts them from the left
into blocks as large as possible; so the blocks are those of the canonical decomposition, and no block
ever has a free buddy to merge with (`NotInside.mem_maximal`).

All the same, `__buddy_page_free` looks at the buddy's page struct, in memory that nobody cleared.
`Harmless` says that it finds no flag of that order there, in the places where it looks at what
the loop has not written itself.

The loop is also wrong where the last page is used: the search for the next available page fails, and
`-1` is taken for the start of a range that has all pages in it. And `bitmap_find` returns an `int`.

## Main definitions

* `HandedOff s` — the loop ends, the free lists hold the available pages, and the count is right
* `Harmless A pages` — what the page structs may hold before
* `ReachesEnd s` — the map ends in an available page, and has no used page from `2 ^ 31 - 1` on

## Main results

* `handedOff_of_reachesEnd`, `not_handedOff` — when the memory is handed over, and when not
-/

namespace GeekToyOS

open Dyadic

/-- **Memory is handed over**: the loop ends, and then the free lists hold exactly the available pages, and
`nr_free_pages` is their number. -/
def HandedOff (s : Memory) : Prop :=
  ∃ s', (∀ n, s.pfnMax ≤ n → buddyInitLoop n s 0 = s') ∧
    (∀ p, BuddyFree s'.buddy p ↔ p ∈ availBelow s.memMap s.pfnMax) ∧
    s'.buddy.zone.nrFreePages = (availBelow s.memMap s.pfnMax).ncard

/-- Before the loop: a zone of all pages, over page structs that hold `pages`. -/
structure ZoneReady (s : Memory) (pages : ℕ → Page) : Prop where
  zone : ∃ mem : Buddy, mem.memPages = pages ∧ s.buddy = buddyInitZone mem 0 s.pfnMax
  size_eq : s.memMap.size = s.pfnMax
  pos : 1 ≤ s.pfnMax
  pfn_max_le : s.pfnMax ≤ 2 ^ 52

/-- No block that is freed meets a page struct that reads like a free buddy: not at a page that is not
available, and not ahead, where nothing was freed yet. -/
def Harmless (A : Set ℕ) (pages : ℕ → Page) : Prop :=
  ∀ k < maxOrder - 1, ∀ p, (k, p) ∈ maximal (maxOrder - 1) A → (buddy k p ∉ A ∨ p < buddy k p) →
    pageIsBuddy (pages (buddy k p)) k = false

/-- The last page is available, and so are all pages that `bitmap_find` cannot tell the number of. -/
def ReachesEnd (s : Memory) : Prop :=
  ∀ p, min s.pfnMax (2 ^ 31) - 1 ≤ p → p < s.pfnMax → s.memMap.bit p = false

/-! ### One block -/

/-- The free lists hold the pages of `A` below `q`, and no other page struct was written. -/
structure FreedBelow (A : Set ℕ) (pages : ℕ → Page) (q : ℕ) (s : Buddy) (L : ℕ → List ℕ) : Prop
    extends Ringed s L where
  cover_eq : cover (blocksOf L) = A ∩ Set.Iio q
  aligned : ∀ k < maxOrder, ∀ p ∈ L k, 2 ^ k ∣ p
  untouched : ∀ x, (∀ k < maxOrder, x ∉ L k) → s.memPages x = pages x

section Blocks

variable {A : Set ℕ} {pages : ℕ → Page} {s : Buddy} {L : ℕ → List ℕ} {k q e : ℕ}

namespace FreedBelow

theorem head_mem (h : FreedBelow A pages q s L) (hk : k < maxOrder) {p : ℕ} (hp : p ∈ L k) :
    block k p ⊆ A ∩ Set.Iio q := by
  rw [← h.cover_eq]
  exact block_subset_cover (show (k, p) ∈ blocksOf L from ⟨hk, hp⟩)

/-- **A block of the canonical decomposition finds no buddy.** -/
theorem not_isBuddy (h : FreedBelow A pages q s L) (hharm : Harmless A pages)
    (hmax : (k, q) ∈ maximal (maxOrder - 1) A) (hk : k < maxOrder - 1) :
    pageIsBuddy (s.memPages (buddy k q)) k = false := by
  obtain ⟨-, hal, hsub, hgrow⟩ := hmax
  dsimp only at hal hsub hgrow
  have hgrow' : ¬ block k (buddy k q) ⊆ A := fun hb => hgrow hk (by
    rw [block_parent hal]
    exact Set.union_subset hsub hb)
  by_cases hlist : ∃ j < maxOrder, buddy k q ∈ L j
  · -- it is on a list of another order
    obtain ⟨j, hj, hmem⟩ := hlist
    by_contra hbuddy
    rw [Bool.not_eq_false] at hbuddy
    obtain rfl : j = k := h.order_eq hj hmem hbuddy
    exact hgrow' ((h.head_mem hj hmem).trans Set.inter_subset_left)
  · have hnot : ∀ j < maxOrder, buddy k q ∉ L j := fun j hj hm => hlist ⟨j, hj, hm⟩
    rw [h.untouched _ hnot]
    refine hharm k hk q ⟨by dsimp only; omega, hal, hsub, hgrow⟩ ?_
    by_contra hcon
    rw [not_or, not_not, not_lt] at hcon
    have hlt : buddy k q < q := lt_of_le_of_ne hcon.2 (buddy_ne hal)
    -- a free block around it would hold `q` as well
    obtain ⟨⟨j, y⟩, ⟨hj, hy⟩, hmem⟩ := h.cover_eq ▸ (show buddy k q ∈ A ∩ Set.Iio q from ⟨hcon.1, hlt⟩)
    dsimp only at hj hy hmem
    have hyal := h.aligned j hj y hy
    rcases Nat.lt_or_ge k j with hkj | hjk
    · have hpar : block (k + 1) (parent k q) ⊆ block j y := by
        refine block_subset_of_mem hkj (aligned_parent k q) hyal ?_ hmem
        rw [block_parent hal]
        exact Or.inr (head_mem_block k _)
      have hq := hpar (block_subset_parent hal (head_mem_block k q))
      exact lt_irrefl q (h.head_mem hj hy hq).2
    · rw [head_eq_of_aligned_mem hjk hyal (aligned_buddy hal) hmem] at hy
      exact hnot j hj hy

/-- **Freeing a block of the canonical decomposition.** -/
theorem free_block (h : FreedBelow A pages q s L) (hharm : Harmless A pages)
    (hmax : (k, q) ∈ maximal (maxOrder - 1) A) (hq : q < 2 ^ 64) :
    FreedBelow A pages (q + 2 ^ k) (_buddyPageFree s q k) (Function.update L k (L k ++ [q])) := by
  have hk : k < maxOrder := by
    have : k ≤ maxOrder - 1 := hmax.1
    simp only [maxOrder] at this ⊢
    omega
  have hsub : block k q ⊆ A := hmax.2.2.1
  have hnot : ∀ j < maxOrder, q ∉ L j := fun j hj hm =>
    lt_irrefl q (h.head_mem hj hm (head_mem_block j q)).2
  -- the merge loop stops at once
  have hloop : mergeLoop (maxOrder - 1 - k) s q k = (s, q, k) := by
    rcases Nat.eq_zero_or_pos (maxOrder - 1 - k) with h0 | hpos
    · rw [h0]
      rfl
    · obtain ⟨n, hn⟩ := Nat.exists_eq_succ_of_ne_zero (Nat.ne_of_gt hpos)
      have hlt : k < maxOrder - 1 := by omega
      have hk64 : k < 64 := by simp only [maxOrder] at hk; omega
      rw [hn, mergeLoop, findBuddyPfn_eq, h.pfnToPage (buddy_lt hk64 hq), h.not_isBuddy hharm hmax hlt]
      rfl
  have hfree : _buddyPageFree s q k = putPage s q k := by
    rw [_buddyPageFree, hloop]
    simp only [h.pfnToPage hq]
    rfl
  have hput := h.toRinged.put hk hq hnot
  rw [hfree]
  refine ⟨hput, ?_, fun j hj p hp => ?_, fun x hx => ?_⟩
  · rw [blocksOf_put hk, cover_insert, h.cover_eq]
    ext x
    simp only [Set.mem_union, Set.mem_inter_iff, Set.mem_Iio, mem_block]
    constructor
    · rintro (⟨hx, hlt⟩ | ⟨hle, hlt⟩)
      · exact ⟨hx, hlt.trans_le (Nat.le_add_right _ _)⟩
      · exact ⟨hsub ⟨hle, hlt⟩, hlt⟩
    · rintro ⟨hx, hlt⟩
      by_cases hxq : x < q
      · exact Or.inl ⟨hx, hxq⟩
      · exact Or.inr ⟨Nat.le_of_not_lt hxq, hlt⟩
  · rcases mem_put_iff.mp hp with hp | ⟨rfl, rfl⟩
    · exact h.aligned j hj p hp
    · exact hmax.2.1
  · have hxq : x ≠ q := fun he => hx k hk (mem_put_iff.mpr (Or.inr ⟨rfl, he⟩))
    rw [put_memPages_of_ne _ _ _ _ hxq]
    exact h.untouched x fun j hj hm => hx j hj (mem_put_iff.mpr (Or.inl hm))

end FreedBelow

/-! ### A range -/

/-- **Freeing a range that ends where `A` does**, from a place that no block of `A` reaches over. -/
theorem freeLoop_freedBelow (hharm : Harmless A pages) (he : e ∉ A) (he64 : e < 2 ^ 64) :
    ∀ (n : ℕ) {q : ℕ} {s : Buddy} {L : ℕ → List ℕ}, q ≤ e → e - q ≤ n → Set.Ico q e ⊆ A →
      NotInside (maxOrder - 1) A q → FreedBelow A pages q s L →
      ∃ L', FreedBelow A pages e (freeLoop n s q (e - q)) L' := by
  intro n
  induction n with
  | zero =>
    intro q s L hqe hn _ _ h
    obtain rfl : q = e := by omega
    exact ⟨L, h⟩
  | succ n ih =>
    intro q s L hqe hn hsub hin h
    rw [freeLoop]
    by_cases h0 : e - q = 0
    · rw [if_pos h0]
      obtain rfl : q = e := by omega
      exact ⟨L, h⟩
    · obtain ⟨o, hfind, ho, hal, hle, hlargest⟩ := @freeOrder_greedy q (e - q) (Nat.pos_of_ne_zero h0)
      have hpos := Nat.two_pow_pos o
      rw [if_neg h0, hfind]
      dsimp only
      rw [Nat.one_shiftLeft, wadd_of_lt (by omega), wsub_of_le hle (by omega), Nat.sub_sub]
      have hblock : block o q ⊆ A := fun x hx => hsub ⟨hx.1, by have := hx.2; omega⟩
      have hgreedy : Greedy (maxOrder - 1) A o q := by
        refine ⟨by omega, hal, hblock, fun j hj hoj hdvd hjsub => ?_⟩
        have := hlargest j (by simp only [maxOrder] at hj ⊢; omega) hoj hdvd
        exact he (hjsub ⟨hqe, by omega⟩)
      have hfreed := h.free_block hharm (hin.mem_maximal hgreedy) (by omega)
      exact ih (by omega) (by omega) (fun x hx => hsub ⟨by have := hx.1; omega, hx.2⟩)
        (hin.next hgreedy) hfreed

end Blocks

/-! ### The loop -/

/-- The available pages below `r`. -/
abbrev availUpTo (s : Memory) (r : ℕ) : Set ℕ := availBelow s.memMap s.pfnMax ∩ Set.Iio r

section Loop

variable {s : Memory} {pages : ℕ → Page} {b : Buddy} {L : ℕ → List ℕ} {r l e : ℕ}

theorem finite_availUpTo (s : Memory) (r : ℕ) : (availUpTo s r).Finite :=
  (Set.finite_Iio r).inter_of_right _

theorem ncard_availUpTo_le (s : Memory) (r : ℕ) : (availUpTo s r).ncard ≤ r := by
  refine (Set.ncard_le_ncard Set.inter_subset_right (Set.finite_Iio r)).trans ?_
  rw [← Finset.coe_Iio, Set.ncard_coe_finset, Nat.card_Iio]

/-- Where no page is available nothing is added to what is available so far. -/
theorem availUpTo_gap (hrl : r ≤ l) (hgap : ∀ j, r ≤ j → j < l → s.memMap.bit j ≠ false) :
    availUpTo s l = availUpTo s r := by
  ext x
  simp only [availUpTo, availBelow, Set.mem_inter_iff, Set.mem_ofPred_eq, Set.mem_Iio]
  refine and_congr_right fun hx => ⟨fun hxl => ?_, fun hxr => lt_of_lt_of_le hxr hrl⟩
  by_contra hxr
  exact hgap x (Nat.le_of_not_lt hxr) hxl hx.2

/-- A run of available pages adds its length to the number of those so far. -/
theorem ncard_availUpTo_run (hle : l ≤ e) (hem : e ≤ s.pfnMax)
    (hrun : ∀ j, l ≤ j → j < e → s.memMap.bit j = false) :
    (availUpTo s e).ncard = (availUpTo s l).ncard + (e - l) := by
  have hunion : availUpTo s e = availUpTo s l ∪ Set.Ico l e := by
    ext x
    simp only [availUpTo, availBelow, Set.mem_union, Set.mem_inter_iff, Set.mem_ofPred_eq, Set.mem_Iio,
      Set.mem_Ico]
    constructor
    · rintro ⟨hx, hxe⟩
      by_cases hxl : x < l
      · exact Or.inl ⟨hx, hxl⟩
      · exact Or.inr ⟨by omega, hxe⟩
    · rintro (⟨hx, hxl⟩ | ⟨hxl, hxe⟩)
      · exact ⟨hx, by omega⟩
      · exact ⟨⟨by omega, hrun x hxl hxe⟩, hxe⟩
  have hdisj : Disjoint (availUpTo s l) (Set.Ico l e) :=
    Set.disjoint_left.mpr fun x hx hx' => absurd hx.2 (Nat.not_lt.mpr hx'.1)
  rw [hunion, Set.ncard_union_eq hdisj (finite_availUpTo s l) (Set.finite_Ico l e), ← Finset.coe_Ico,
    Set.ncard_coe_finset, Nat.card_Ico]

/-- The end of a run that starts at `l`: the next used page, or the end of the map. -/
theorem run_end (hsize : s.memMap.size = s.pfnMax) (hmax : s.pfnMax ≤ 2 ^ 52) (hl : l < s.pfnMax)
    (hbit : s.memMap.bit l = false)
    (hused : ∀ u < s.pfnMax, l ≤ u → s.memMap.bit u = true → u < 2 ^ 31) :
    ∃ e : ℕ, (if bitmapFind s.memMap memPageUsed l s.pfnMax = -1 then (s.pfnMax : ℤ)
        else bitmapFind s.memMap memPageUsed l s.pfnMax) = e ∧ l < e ∧ e ≤ s.pfnMax ∧
      (∀ j, l ≤ j → j < e → s.memMap.bit j = false) ∧ (e = s.pfnMax ∨ s.memMap.bit e = true) := by
  rcases bitmapFind_used hsize hmax hl (n := s.pfnMax) (by omega) with
    ⟨hnone, hall⟩ | ⟨u, hu, hlu, hum, hubit, hall⟩
  · exact ⟨s.pfnMax, by rw [hnone, if_pos rfl], hl, le_rfl, fun j hj hj' => hall j hj (by omega),
      Or.inl rfl⟩
  · have hne : l ≠ u := by
      rintro rfl
      rw [hbit] at hubit
      exact absurd hubit (by decide)
    have hu31 := hused u (by omega) hlu hubit
    rw [hu, toInt_of_lt hu31]
    exact ⟨u, by rw [if_neg (by omega)], by omega, by omega, hall, Or.inr hubit⟩

/-- One round of the loop, when both searches go well. -/
theorem buddyInitLoop_round (hmax : s.pfnMax ≤ 2 ^ 52) (hr : r < s.pfnMax)
    (hl : bitmapFind s.memMap memPageAvail r s.pfnMax = l) (hle : l ≤ e) (hem : e ≤ s.pfnMax)
    (he : (if bitmapFind s.memMap memPageUsed l s.pfnMax = -1 then (s.pfnMax : ℤ)
        else bitmapFind s.memMap memPageUsed l s.pfnMax) = e) (n : ℕ) :
    buddyInitLoop (n + 1) { s with buddy := b } r
      = buddyInitLoop n { s with buddy := buddyPageFree b l (e - l) } e := by
  have hlen : toSize ((e : ℤ) - l) = e - l := by
    rw [← Nat.cast_sub hle, toSize_of_lt (by omega)]
  rw [buddyInitLoop, toSize_of_lt (by omega), if_pos hr]
  dsimp only
  rw [hl, toSize_of_lt (show l < 2 ^ 64 by omega), he, hlen]

/-- At the end of the map the loop of `buddy_init` is over, whatever its fuel. -/
theorem buddyInitLoop_end (hmax : s.pfnMax ≤ 2 ^ 52) (n : ℕ) :
    buddyInitLoop n { s with buddy := b } s.pfnMax = { s with buddy := b } := by
  cases n with
  | zero => rfl
  | succ n => rw [buddyInitLoop, toSize_of_lt (by omega), if_neg (lt_irrefl _)]

/-- **The loop frees the available pages**, from any place it can come to. -/
theorem buddyInitLoop_freedBelow (hsize : s.memMap.size = s.pfnMax) (hmax : s.pfnMax ≤ 2 ^ 52)
    (hend : ReachesEnd s) (hharm : Harmless (availBelow s.memMap s.pfnMax) pages) :
    ∀ (d : ℕ) {r : ℕ} {b : Buddy} {L : ℕ → List ℕ}, s.pfnMax ≤ r + d → r ≤ s.pfnMax →
      (r = 0 ∨ r = s.pfnMax ∨ s.memMap.bit r = true) →
      FreedBelow (availBelow s.memMap s.pfnMax) pages r b L →
      b.zone.nrFreePages = (availUpTo s r).ncard →
      ∃ b' L', (∀ n, s.pfnMax ≤ r + n → buddyInitLoop n { s with buddy := b } r = { s with buddy := b' }) ∧
        FreedBelow (availBelow s.memMap s.pfnMax) pages s.pfnMax b' L' ∧
        b'.zone.nrFreePages = (availUpTo s s.pfnMax).ncard := by
  intro d
  induction d with
  | zero =>
    intro r b L hd hr _ h hc
    obtain rfl : r = s.pfnMax := by omega
    exact ⟨b, L, fun n _ => buddyInitLoop_end hmax n, h, hc⟩
  | succ d ih =>
    intro r b L hd hr hplace h hc
    rcases Nat.eq_or_lt_of_le hr with rfl | hlt
    · exact ⟨b, L, fun n _ => buddyInitLoop_end hmax n, h, hc⟩
    have hused : ∀ u < s.pfnMax, s.memMap.bit u = true → u + 1 < min s.pfnMax (2 ^ 31) := by
      intro u hu hbit
      by_contra hge
      rw [hend u (by omega) hu] at hbit
      exact absurd hbit (by decide)
    -- there is an available page ahead, and its number is an `int`
    obtain ⟨p, hrp, hp31, hpm, hpbit⟩ : ∃ p, r ≤ p ∧ p < 2 ^ 31 ∧ p < s.pfnMax ∧
        s.memMap.bit p = false := by
      refine ⟨min s.pfnMax (2 ^ 31) - 1, ?_, by omega, by omega, hend _ le_rfl (by omega)⟩
      rcases hplace with rfl | rfl | hbit
      · omega
      · omega
      · have := hused r hlt hbit
        omega
    rcases bitmapFind_avail hsize hmax hlt with ⟨-, hnone⟩ | ⟨l, hl, hrl, hlm, hlbit, hgap⟩
    · exact absurd hpbit (hnone p hrp hpm)
    have hlp : l ≤ p := by
      by_contra hlt
      exact hgap p hrp (by omega) hpbit
    rw [toInt_of_lt (by omega)] at hl
    obtain ⟨e, he, hle, hem, hrun, hstop⟩ := run_end hsize hmax hlm hlbit
      fun u hu _ hbit => by have := hused u hu hbit; omega
    -- up to the run nothing changes
    have hskip : FreedBelow (availBelow s.memMap s.pfnMax) pages l b L :=
      { h with cover_eq := h.cover_eq.trans (availUpTo_gap hrl hgap).symm }
    have hstart : l = 0 ∨ l - 1 ∉ availBelow s.memMap s.pfnMax := by
      rcases Nat.eq_or_lt_of_le hrl with rfl | hrl'
      · rcases hplace with h0 | h0 | hbit
        · exact Or.inl h0
        · omega
        · rw [hlbit] at hbit
          exact absurd hbit (by decide)
      · exact Or.inr fun hm => hgap (l - 1) (by omega) (by omega) hm.2
    have hnot : e ∉ availBelow s.memMap s.pfnMax := by
      rintro ⟨hem', hbit⟩
      rcases hstop with rfl | hused'
      · exact lt_irrefl _ hem'
      · rw [hbit] at hused'
        exact absurd hused' (by decide)
    have hset : FreedBelow (availBelow s.memMap s.pfnMax) pages l
        (b.setNrFreePages (wadd b.zone.nrFreePages (e - l))) L :=
      ⟨⟨hskip.base, hskip.base_lt, hskip.rings, hskip.page_lt, hskip.tagged⟩, hskip.cover_eq,
        hskip.aligned, hskip.untouched⟩
    obtain ⟨L₁, h₁⟩ := freeLoop_freedBelow hharm hnot (by omega) (e - l) (by omega) le_rfl
      (fun x hx => ⟨lt_of_lt_of_le hx.2 hem, hrun x hx.1 hx.2⟩) (notInside_of_gap hstart) hset
    have hc₁ : (buddyPageFree b l (e - l)).zone.nrFreePages = (availUpTo s e).ncard := by
      have hcard := ncard_availUpTo_run (Nat.le_of_lt hle) hem hrun
      have hbound := ncard_availUpTo_le s e
      rw [buddyPageFree_nrFreePages, hc, ← availUpTo_gap hrl hgap, wadd_of_lt (by omega), hcard]
    obtain ⟨b', L', hloop, h', hc'⟩ := ih (r := e) (by omega) hem (Or.inr hstop) h₁ hc₁
    refine ⟨b', L', fun n hn => ?_, h', hc'⟩
    obtain ⟨m, rfl⟩ : ∃ m, n = m + 1 := ⟨n - 1, by omega⟩
    rw [buddyInitLoop_round hmax hlt hl (Nat.le_of_lt hle) hem he]
    exact hloop m (by omega)

/-- **Where the map ends well and the page structs are harmless, memory is handed over.** -/
theorem handedOff_of_reachesEnd (hready : ZoneReady s pages) (hend : ReachesEnd s)
    (hharm : Harmless (availBelow s.memMap s.pfnMax) pages) : HandedOff s := by
  obtain ⟨mem, hmem, hbuddy⟩ := hready.zone
  obtain ⟨hring, hpages, hscal⟩ := buddyInitZone_ringed mem s.pfnMax (Nat.two_pow_pos 64)
  simp only [Zone.scalars, Prod.mk.injEq] at hscal
  have hnil : availUpTo s 0 = ∅ := by
    rw [availUpTo, Set.Iio_zero_eq_empty, Set.inter_empty]
  have hfreed : FreedBelow (availBelow s.memMap s.pfnMax) pages 0 s.buddy (fun _ => []) := by
    rw [hbuddy]
    refine ⟨hring, ?_, fun _ _ _ hp => absurd hp List.not_mem_nil, fun x _ => by rw [hpages, hmem]⟩
    have hempty : blocksOf (fun _ => []) = ∅ := by
      ext b
      simp [blocksOf]
    rw [hempty, cover_empty]
    exact hnil.symm
  have hcount : s.buddy.zone.nrFreePages = (availUpTo s 0).ncard := by
    rw [hnil, Set.ncard_empty, hbuddy, hscal.2.2.2]
  obtain ⟨b', L', hloop, h', hc'⟩ := buddyInitLoop_freedBelow hready.size_eq hready.pfn_max_le hend hharm
    s.pfnMax (r := 0) (by omega) (Nat.zero_le _) (Or.inl rfl) hfreed hcount
  have hall : availUpTo s s.pfnMax = availBelow s.memMap s.pfnMax :=
    Set.inter_eq_left.mpr fun x hx => hx.1
  refine ⟨{ s with buddy := b' }, fun n hn => hloop n (by omega), fun p => ?_, by rw [← hall]; exact hc'⟩
  have hblocks : freeBlocks b' = blocksOf L' := h'.freeBlocks_eq
  rw [BuddyFree, hblocks, ← hall, availUpTo, ← h'.cover_eq]
  rfl

/-- The search for a used page from `-1` on finds nothing. -/
theorem bitmapFind_used_minus_one (hsize : s.memMap.size = s.pfnMax) (hmax : s.pfnMax ≤ 2 ^ 52)
    (hpos : 1 ≤ s.pfnMax) : bitmapFind s.memMap memPageUsed (toSize (-1)) s.pfnMax = -1 := by
  have hstart : toSize (-1) = 2 ^ 64 - 1 := rfl
  have hend : wadd (2 ^ 64 - 1) s.pfnMax = s.pfnMax - 1 := by
    rw [wadd]
    omega
  rw [hstart]
  have hwrap := @bitmapFind_wrapped s.memMap memPageUsed (2 ^ 64 - 1) s.pfnMax (by omega)
    (by rw [hend]; omega)
  rw [hend, hsize] at hwrap
  rcases hwrap with ⟨h, -⟩ | ⟨p, -, hp, hp', -⟩
  · exact h
  · omega

/-- **Where the last page is used, all pages are counted once more.** -/
theorem buddyInitLoop_overcount (hsize : s.memMap.size = s.pfnMax) (hmax : s.pfnMax ≤ 2 ^ 31)
    (hlast : s.memMap.bit (s.pfnMax - 1) = true) :
    ∀ (d : ℕ) {r : ℕ} {b : Buddy}, s.pfnMax ≤ r + d → r < s.pfnMax →
      b.zone.nrFreePages = (availUpTo s r).ncard →
      (buddyInitLoop d { s with buddy := b } r).buddy.zone.nrFreePages
        = (availUpTo s s.pfnMax).ncard + (s.pfnMax + 1) := by
  have hmax' : s.pfnMax ≤ 2 ^ 52 := by omega
  intro d
  induction d with
  | zero =>
    intro r b hd hr _
    omega
  | succ d ih =>
    intro r b hd hr hc
    rcases bitmapFind_avail hsize hmax' hr with ⟨hnone, hgap⟩ | ⟨l, hl, hrl, hlm, hlbit, hgap⟩
    · -- the search for an available page fails
      have hround : buddyInitLoop (d + 1) { s with buddy := b } r
          = buddyInitLoop d { s with buddy := buddyPageFree b (toSize (-1)) (s.pfnMax + 1) } s.pfnMax := by
        have hlen : toSize ((s.pfnMax : ℤ) - -1) = s.pfnMax + 1 := by
          rw [toSize]
          omega
        rw [buddyInitLoop, toSize_of_lt (by omega), if_pos hr]
        dsimp only
        rw [hnone, bitmapFind_used_minus_one hsize hmax' (by omega), if_pos rfl, hlen]
      have hbound := ncard_availUpTo_le s r
      rw [hround, buddyInitLoop_end hmax', availUpTo_gap (Nat.le_of_lt hr) hgap]
      show (buddyPageFree b _ _).zone.nrFreePages = _
      rw [buddyPageFree_nrFreePages, hc, wadd_of_lt (by omega)]
    · rw [toInt_of_lt (by omega)] at hl
      obtain ⟨e, he, hle, hem, hrun, hstop⟩ := run_end hsize hmax' hlm hlbit fun u hu _ _ => by omega
      -- the run ends at a used page, and another round follows
      have hlt : e < s.pfnMax := by
        rcases Nat.eq_or_lt_of_le hem with rfl | hlt
        · rw [hrun (s.pfnMax - 1) (by omega) (by omega)] at hlast
          exact absurd hlast (by decide)
        · exact hlt
      rw [buddyInitLoop_round hmax' hr hl (Nat.le_of_lt hle) hem he]
      refine ih (by omega) hlt ?_
      have hcard := ncard_availUpTo_run (Nat.le_of_lt hle) hem hrun
      have hbound := ncard_availUpTo_le s e
      rw [buddyPageFree_nrFreePages, hc, ← availUpTo_gap hrl hgap, wadd_of_lt (by omega), hcard]

/-- **Where the last page is used, memory is not handed over.** -/
theorem not_handedOff (hready : ZoneReady s pages) (hmax : s.pfnMax ≤ 2 ^ 31)
    (hlast : s.memMap.bit (s.pfnMax - 1) = true) : ¬ HandedOff s := by
  obtain ⟨mem, -, hbuddy⟩ := hready.zone
  obtain ⟨-, -, hscal⟩ := buddyInitZone_ringed mem s.pfnMax (Nat.two_pow_pos 64)
  simp only [Zone.scalars, Prod.mk.injEq] at hscal
  have hcount : s.buddy.zone.nrFreePages = (availUpTo s 0).ncard := by
    rw [availUpTo, Set.Iio_zero_eq_empty, Set.inter_empty, Set.ncard_empty, hbuddy, hscal.2.2.2]
  have hover := buddyInitLoop_overcount hready.size_eq hmax hlast s.pfnMax (r := 0) (by omega)
    hready.pos hcount
  have hall : availUpTo s s.pfnMax = availBelow s.memMap s.pfnMax :=
    Set.inter_eq_left.mpr fun x hx => hx.1
  rintro ⟨s', hloop, -, hc⟩
  rw [← hloop s.pfnMax le_rfl, ← hall] at hc
  have := hover.symm.trans hc
  omega

/-- **When memory is handed over.** The map has to end well and the page structs have to be harmless; and
up to `2 ^ 31` pages, the map has to end well in any case. -/
theorem handedOff_cases (hready : ZoneReady s pages) :
    (ReachesEnd s → Harmless (availBelow s.memMap s.pfnMax) pages → HandedOff s) ∧
      (s.pfnMax ≤ 2 ^ 31 → HandedOff s → ReachesEnd s) := by
  refine ⟨handedOff_of_reachesEnd hready, fun hmax hoff p hp hlt => ?_⟩
  have hpos := hready.pos
  obtain rfl : p = s.pfnMax - 1 := by omega
  by_contra hbit
  exact not_handedOff hready hmax (Bool.not_eq_false _ ▸ hbit) hoff

end Loop

/-- Four pages before the loop of `buddy_init`; the page structs are zero. -/
def fourPageZone (map : BitVec 8) : Memory :=
  { fourPageMemory map with buddy := buddyInitZone zeroMemory 0 4 }

theorem zoneReady_fourPageZone (map : BitVec 8) : ZoneReady (fourPageZone map) fun _ => .zero where
  zone := ⟨zeroMemory, rfl, rfl⟩
  size_eq := rfl
  pos := by show 1 ≤ 4; decide
  pfn_max_le := by show 4 ≤ 2 ^ 52; decide

/-- Four pages, of which page 0 is used, are handed off. -/
theorem handedOff_cases_fourPageZone : HandedOff (fourPageZone 1) := by
  refine (handedOff_cases (zoneReady_fourPageZone 1)).1 (fun p hp hlt => ?_) fun _ _ _ _ _ => ?_
  · obtain rfl : p = 3 := by
      have hp : min 4 (2 ^ 31) - 1 ≤ p := hp
      have hlt : p < 4 := hlt
      omega
    decide
  · show pageIsBuddy .zero _ = false
    simp [pageIsBuddy, Page.zero]

/-- Four pages, of which page 3 is used, are not. -/
theorem not_handedOff_fourPageZone :
    ZoneReady (fourPageZone 8) (fun _ => .zero) ∧ ¬ HandedOff (fourPageZone 8) :=
  ⟨zoneReady_fourPageZone 8, not_handedOff (zoneReady_fourPageZone 8) (by show 4 ≤ 2 ^ 31; decide)
    (by decide)⟩

end GeekToyOS
