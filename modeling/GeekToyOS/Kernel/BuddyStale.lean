import GeekToyOS.Kernel.BuddyInvariant

/-!
# What a stale flag does

`del_page_from_free_list` masks the flag word with `PAGE_FLAG_BUDDY` instead of its complement, so a
page keeps its flag and its order when it is handed out. If the buddy of such a page is freed later,
`page_is_buddy` says yes to a page that is on no list.

This file follows that merge to its end. The lists themselves survive, since removing a self-linked
page is a no-op; but the counter of the order in question drops below the length of its list, and the
block that ends up free contains the page that somebody holds.

## Main results

* `buddyPageFree_block_listed` — the freed block covers every page the merge looked at
* `buddyPageFree_block_miscount` — some counter is off
-/

namespace GeekToyOS

open Dyadic

variable {s : Buddy} {L : ℕ → List ℕ} {k p : ℕ}

/-- Removing a flagged page of order `k`, wherever it is. -/
theorem Listed.del_any (h : Listed s L) (hk : k < maxOrder)
    (hp : pageIsBuddy (s.memPages p) k = true) :
    ∃ L', Listed (delPageFromFreeList s p k) L' ∧ (∀ j < maxOrder, p ∉ L' j) ∧
      (∀ j, ∀ q ∈ L' j, q ∈ L j) ∧ ∀ j, j ≠ k → L' j = L j := by
  by_cases hmem : p ∈ L k
  · refine ⟨_, h.del hk hmem, fun j hj hm => ?_, fun j q hq => ((h.mem_erase_iff hk).mp hq).1,
      fun j hj => Function.update_of_ne hj _ _⟩
    obtain ⟨hm, hne⟩ := (h.mem_erase_iff hk).mp hm
    exact hne ⟨h.order_eq hj hm hp, rfl⟩
  · have hnot : ∀ j < maxOrder, p ∉ L j := fun j hj hm => hmem (h.order_eq hj hm hp ▸ hm)
    exact ⟨L, h.del_absent (pageIsBuddy_iff.mp hp).1 hnot, hnot, fun _ _ hq => hq, fun _ _ => rfl⟩

/-- The state a merge leaves, right or wrong: the head in hand is on no list, and orders below the
start are as they were. -/
structure Grown (s : Buddy) (L : ℕ → List ℕ) (k p : ℕ) (s' : Buddy) (L' : ℕ → List ℕ)
    (k' p' : ℕ) : Prop where
  listed : Listed s' L'
  order_ge : k ≤ k'
  order_le : k' ≤ maxOrder - 1
  head_eq : p' = head k' p
  absent : ∀ j < maxOrder, p' ∉ L' j
  below : ∀ i < k, L' i = L i ∧ s'.zone.count i = s.zone.count i
  reached : ∀ j, k ≤ j → j < maxOrder - 1 → mergeReaches s p k j → j < k'

/-- One round of the merging loop that finds a flagged buddy. -/
theorem mergeLoop_hit (h : Listed s L) (hk : k < maxOrder - 1) (hlt : p < 2 ^ 64) (hp : 2 ^ k ∣ p)
    (hhit : pageIsBuddy (s.memPages (buddy k p)) k = true) (n : ℕ) :
    mergeLoop (n + 1) s p k
      = mergeLoop n (delPageFromFreeList s (buddy k p) k) (parent k p) (k + 1) := by
  have hk64 : k < 64 := by simp only [maxOrder] at hk; omega
  have hpage : pfnToPage s.zone (_findBuddyPfn p k) = buddy k p := by
    rw [findBuddyPfn_eq, h.pfnToPage (buddy_lt hk64 hlt)]
  rw [mergeLoop]
  simp only [hpage, hhit, if_true]
  rw [findBuddyPfn_eq, buddy_and hp]

/-- The order `i` looked at after one round is the order `i` looked at before it. -/
theorem Listed.mergePartner_del {L₁ : ℕ → List ℕ} {b : ℕ} (h : Listed s L)
    (h₁ : Listed (delPageFromFreeList s b k) L₁) (hlt : p < 2 ^ 64) {i : ℕ} (hi : k + 1 ≤ i)
    (hi64 : i < 64) :
    mergePartner (delPageFromFreeList s b k) (parent k p) i = mergePartner s p i := by
  rw [h₁.mergePartner_eq (lt_of_le_of_lt (parent_le k p) hlt) hi64, h.mergePartner_eq hlt hi64, parent,
    head_head hi]

theorem mergeReaches_del {L₁ : ℕ → List ℕ} {b j : ℕ} (h : Listed s L)
    (h₁ : Listed (delPageFromFreeList s b k) L₁) (hlt : p < 2 ^ 64) (hj : j < 64)
    (hreach : mergeReaches s p k j) :
    mergeReaches (delPageFromFreeList s b k) (parent k p) (k + 1) j := by
  intro i hi hi'
  rw [h.mergePartner_del h₁ hlt hi (by omega), del_pageIsBuddy]
  exact hreach i (by omega) hi'

theorem mergeLoop_grown : ∀ (n : ℕ) {s : Buddy} {L : ℕ → List ℕ} {k p : ℕ}, n + k = maxOrder - 1 →
    Listed s L → p < 2 ^ 64 → 2 ^ k ∣ p → (∀ j < maxOrder, p ∉ L j) →
    ∃ L', Grown s L k p (mergeLoop n s p k).1 L' (mergeLoop n s p k).2.2
      (mergeLoop n s p k).2.1 := by
  intro n
  induction n with
  | zero =>
    intro s L k p hk h hlt hp hnot
    refine ⟨L, h, le_rfl, by simp only [mergeLoop]; omega, (head_of_aligned hp).symm, hnot,
      fun i _ => ⟨rfl, rfl⟩, fun j hj hj10 _ => ?_⟩
    simp only [mergeLoop]
    omega
  | succ n ih =>
    intro s L k p hk h hlt hp hnot
    have hk10 : k < maxOrder - 1 := by omega
    have hk64 : k < 64 := by simp only [maxOrder] at hk10; omega
    have hpart : mergePartner s p k = buddy k p := by
      rw [h.mergePartner_eq hlt hk64, head_of_aligned hp]
    by_cases hhit : pageIsBuddy (s.memPages (buddy k p)) k = true
    · obtain ⟨L₁, h₁, hbnot, hsub, hother⟩ := h.del_any (by omega) hhit
      have hpar : parent k p = p ∨ parent k p = buddy k p := by
        rcases lower_or_upper k p with hl | hu
        · exact Or.inl (buddy_parent_of_lower hp hl).2
        · exact Or.inr (buddy_parent_of_upper hp hu).2
      have hparnot : ∀ j < maxOrder, parent k p ∉ L₁ j := by
        intro j hj hm
        rcases hpar with he | he
        · exact hnot j hj (hsub j _ (he ▸ hm))
        · exact hbnot j hj (he ▸ hm)
      obtain ⟨L', hg⟩ := ih (by omega) h₁ (lt_of_le_of_lt (parent_le k p) hlt) (aligned_parent k p)
        hparnot
      rw [mergeLoop_hit h hk10 hlt hp hhit]
      refine ⟨L', hg.listed, by have := hg.order_ge; omega, hg.order_le, ?_, hg.absent,
        fun i hi => ⟨?_, ?_⟩, fun j hj hj10 hreach => ?_⟩
      · rw [hg.head_eq]
        exact head_head hg.order_ge p
      · rw [(hg.below i (by omega)).1, hother i (by omega)]
      · rw [(hg.below i (by omega)).2, del_count, Function.update_of_ne (by omega)]
      · rcases Nat.eq_or_lt_of_le hj with rfl | hj'
        · have := hg.order_ge
          omega
        · exact hg.reached j hj' hj10
            (mergeReaches_del h h₁ hlt (by simp only [maxOrder] at hj10; omega) hreach)
    · have hpage : pfnToPage s.zone (_findBuddyPfn p k) = buddy k p := by
        rw [findBuddyPfn_eq, h.pfnToPage (buddy_lt hk64 hlt)]
      have hloop : mergeLoop (n + 1) s p k = (s, p, k) := by
        rw [mergeLoop]
        simp only [hpage, hhit, Bool.false_eq_true, if_false]
      rw [hloop]
      refine ⟨L, h, le_rfl, Nat.le_of_lt hk10, (head_of_aligned hp).symm, hnot,
        fun i _ => ⟨rfl, rfl⟩, fun j hj _ hreach => absurd ?_ hhit⟩
      rw [← hpart]
      exact hreach k le_rfl hj

/-- A page that is on no list, but is merged as if it were, leaves a counter off. -/
theorem mergeLoop_miscount : ∀ (n : ℕ) {s : Buddy} {L : ℕ → List ℕ} {k p : ℕ},
    n + k = maxOrder - 1 → Listed s L → (∀ i < maxOrder, s.zone.count i = (L i).length) →
    (∀ i < maxOrder, (L i).length < 2 ^ 64) → p < 2 ^ 64 → 2 ^ k ∣ p → (∀ j < maxOrder, p ∉ L j) →
    ∀ j, k ≤ j → j < maxOrder - 1 → mergeReaches s p k j → mergePartner s p j ∉ L j →
    ∀ L', Listed (mergeLoop n s p k).1 L' →
    ∃ i < (mergeLoop n s p k).2.2, (mergeLoop n s p k).1.zone.count i ≠ (L' i).length := by
  intro n
  induction n with
  | zero =>
    intro s L k p hk _ _ _ _ _ _ j hj hj10
    omega
  | succ n ih =>
    intro s L k p hk h hcount hlen hlt hp hnot j hj hj10 hreach hbad L' hL'
    have hk10 : k < maxOrder - 1 := by omega
    have hkmax : k < maxOrder := by omega
    have hk64 : k < 64 := by simp only [maxOrder] at hk10; omega
    have hpart : mergePartner s p k = buddy k p := by
      rw [h.mergePartner_eq hlt hk64, head_of_aligned hp]
    have hhit : pageIsBuddy (s.memPages (buddy k p)) k = true := hpart ▸ hreach k le_rfl hj
    rw [mergeLoop_hit h hk10 hlt hp hhit] at hL' ⊢
    have hparlt : parent k p < 2 ^ 64 := lt_of_le_of_lt (parent_le k p) hlt
    have hparnot : ∀ {L₁ : ℕ → List ℕ}, (∀ i < maxOrder, buddy k p ∉ L₁ i) →
        (∀ i, ∀ q ∈ L₁ i, q ∈ L i) → ∀ i < maxOrder, parent k p ∉ L₁ i := by
      intro L₁ hb hsub i hi hm
      rcases lower_or_upper k p with hl | hu
      · exact hnot i hi (hsub i _ ((buddy_parent_of_lower hp hl).2 ▸ hm))
      · exact hb i hi ((buddy_parent_of_upper hp hu).2 ▸ hm)
    by_cases hmem : buddy k p ∈ L k
    · -- this round is genuine, so the culprit is further up
      have h₁ := h.del hkmax hmem
      have hjk : k ≠ j := by
        rintro rfl
        exact hbad (hpart ▸ hmem)
      have hbnot : ∀ i < maxOrder, buddy k p ∉ Function.update L k ((L k).erase (buddy k p)) i :=
        fun i hi hm => by
          obtain ⟨hm, hne⟩ := (h.mem_erase_iff hkmax).mp hm
          exact hne ⟨h.order_eq hi hm hhit, rfl⟩
      refine ih (by omega) h₁ (fun i hi => ?_) (fun i hi => ?_) hparlt (aligned_parent k p)
        (hparnot hbnot fun i q hq => ((h.mem_erase_iff hkmax).mp hq).1) j (by omega) hj10
        (mergeReaches_del h h₁ hlt (by simp only [maxOrder] at hj10; omega) hreach) ?_ L' hL'
      · rw [del_count]
        by_cases hik : i = k
        · subst hik
          have hpos := List.length_pos_of_mem hmem
          rw [Function.update_self, Function.update_self, List.length_erase_of_mem hmem,
            hcount i hi, wsub_of_le hpos (hlen i hi)]
        · rw [Function.update_of_ne hik, Function.update_of_ne hik, hcount i hi]
      · by_cases hik : i = k
        · subst hik
          rw [Function.update_self]
          exact lt_of_le_of_lt List.length_erase_le (hlen i hi)
        · rw [Function.update_of_ne hik]
          exact hlen i hi
      · rw [h.mergePartner_del h₁ hlt (by omega) (by simp only [maxOrder] at hj10; omega),
          Function.update_of_ne (Ne.symm hjk)]
        exact hbad
    · -- the counter of this order drops, its list does not, and later rounds do not look back
      have hbnot : ∀ i < maxOrder, buddy k p ∉ L i := fun i hi hm =>
        hmem (h.order_eq hi hm hhit ▸ hm)
      have h₁ := h.del_absent (k := k) (pageIsBuddy_iff.mp hhit).1 hbnot
      obtain ⟨L₂, hg⟩ := mergeLoop_grown n (by omega) h₁ hparlt (aligned_parent k p)
        (hparnot hbnot fun _ _ hq => hq)
      have hge := hg.order_ge
      refine ⟨k, by omega, ?_⟩
      have hLk : L' k = L k := by
        rw [← (hg.below k (by omega)).1]
        exact hg.listed.unique hkmax (hL'.rings.ring ⟨k, hkmax⟩)
      rw [(hg.below k (by omega)).2, del_count, Function.update_self, hcount k hkmax, hLk, wsub]
      have := hlen k hkmax
      omega

/-- **The freed block covers every page the merge looked at**, free or not. -/
theorem buddyPageFree_block_listed (h : Listed s L) (hk : k < maxOrder) (hlt : p < 2 ^ 64)
    (hp : 2 ^ k ∣ p) (hnot : ∀ j < maxOrder, p ∉ L j) :
    ∃ L', Listed (_buddyPageFree s p k) L' ∧
      ∀ j, k ≤ j → j < maxOrder - 1 → mergeReaches s p k j →
        ∃ b ∈ blocksOf L', mergePartner s p j ∈ block b.1 b.2 := by
  obtain ⟨L', hg⟩ := mergeLoop_grown (maxOrder - 1 - k) (by omega) h hlt hp hnot
  set r := mergeLoop (maxOrder - 1 - k) s p k with hr
  have hkr : r.2.2 < maxOrder := by
    have := hg.order_le
    omega
  have hrlt : r.2.1 < 2 ^ 64 := by
    rw [hg.head_eq]
    exact lt_of_le_of_lt (head_le _ p) hlt
  have hfree : _buddyPageFree s p k = putPage r.1 r.2.1 r.2.2 := by
    rw [_buddyPageFree, ← hr]
    simp only [hg.listed.pfnToPage hrlt]
    rfl
  rw [hfree]
  refine ⟨_, hg.listed.put hkr hrlt hg.absent, fun j hj hj10 hreach => ⟨(r.2.2, r.2.1), ?_, ?_⟩⟩
  · rw [blocksOf_put hkr]
    exact Or.inl rfl
  · have hjr := hg.reached j hj hj10 hreach
    rw [h.mergePartner_eq hlt (by simp only [maxOrder] at hj10; omega), hg.head_eq]
    -- the partner lies in the parent, which lies in every larger block around `p`
    have hpar : block (j + 1) (head (j + 1) p) ⊆ block r.2.2 (head r.2.2 p) :=
      block_subset_of_mem hjr (aligned_head _ p) (aligned_head _ p) (mem_block_head _ p)
        (mem_block_head _ p)
    refine hpar ?_
    rw [← head_head (Nat.le_succ j) p, ← parent, block_parent (aligned_head j p)]
    exact Or.inr (head_mem_block _ _)

/-- **Merging a page that is on no list leaves a counter off.** -/
theorem buddyPageFree_block_miscount (h : Listed s L) (hk : k < maxOrder)
    (hcount : ∀ i < maxOrder, s.zone.count i = (L i).length)
    (hlen : ∀ i < maxOrder, (L i).length < 2 ^ 64) (hlt : p < 2 ^ 64) (hp : 2 ^ k ∣ p)
    (hnot : ∀ j < maxOrder, p ∉ L j) {j : ℕ} (hj : k ≤ j) (hj10 : j < maxOrder - 1)
    (hreach : mergeReaches s p k j) (hbad : mergePartner s p j ∉ L j) {L' : ℕ → List ℕ}
    (hL' : Listed (_buddyPageFree s p k) L') :
    ∃ i < maxOrder, (_buddyPageFree s p k).zone.count i ≠ (L' i).length := by
  obtain ⟨L₁, hg⟩ := mergeLoop_grown (maxOrder - 1 - k) (by omega) h hlt hp hnot
  obtain ⟨i, hi, hne⟩ := mergeLoop_miscount (maxOrder - 1 - k) (by omega) h hcount hlen hlt hp hnot j
    hj hj10 hreach hbad L₁ hg.listed
  set r := mergeLoop (maxOrder - 1 - k) s p k with hr
  have hkr : r.2.2 < maxOrder := by
    have := hg.order_le
    omega
  have hrlt : r.2.1 < 2 ^ 64 := by
    rw [hg.head_eq]
    exact lt_of_le_of_lt (head_le _ p) hlt
  have hfree : _buddyPageFree s p k = putPage r.1 r.2.1 r.2.2 := by
    rw [_buddyPageFree, ← hr]
    simp only [hg.listed.pfnToPage hrlt]
    rfl
  rw [hfree] at hL' ⊢
  have himax : i < maxOrder := by omega
  have hput := hg.listed.put hkr hrlt hg.absent
  refine ⟨i, himax, ?_⟩
  rw [put_count, Function.update_of_ne (by omega), hput.unique himax (hL'.rings.ring ⟨i, himax⟩),
    Function.update_of_ne (by omega)]
  exact hne

end GeekToyOS
