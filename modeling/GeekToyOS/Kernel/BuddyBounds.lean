import GeekToyOS.Kernel.BuddySafety

/-!
# Which page structs a free touches

`__buddy_page_free` finds the buddy of a block by flipping a bit of its page number and looks at the page
struct of that number, without asking whether the zone has one. This file records which page structs one
call of `buddy_page_free` reads or writes, and when all of them belong to the zone.

The merge of a page never leaves the block of the largest order around it. So nothing goes wrong in a zone
that is made up of such blocks. In any other zone, freeing the whole zone looks at the page struct just
before its start or just behind its end, whatever its state.

## Main definitions

* `mergeTouched`, `freeTouched`, `buddyPageFreeTouched` — the page structs that are read or written
* `FreesInZone s pfn n` — all of them belong to the zone
* `BuddiesInZone zone p` — the blocks that a free of `p` may merge up to have their buddies in the zone

## Main results

* `buddyPageFree_memPages` — a call changes no other page struct
* `freesInZone_of_buddies` — a call stays inside any zone if its pages are `BuddiesInZone`
* `freesInZone_iff` — every free of pages of the zone stays inside it iff the zone starts and ends at
  multiples of the largest block size
-/

namespace GeekToyOS

open Dyadic

/-- The index of a page in `zone->mem_map`. -/
def memMapIndex (zone : Zone) (pfn : ℕ) : ℕ := wsub pfn zone.pfnBase

/-- The page structs that the merging loop of `__buddy_page_free` looks at, and the one where it ends, by
their index in `mem_map`. -/
def mergeTouched : ℕ → Buddy → ℕ → ℕ → List ℕ
  | 0, s, pfn, _ => [memMapIndex s.zone pfn]
  | n + 1, s, pfn, order =>
    let buddyPfn := _findBuddyPfn pfn order
    let buddy := pfnToPage s.zone buddyPfn
    memMapIndex s.zone buddyPfn ::
      if pageIsBuddy (s.memPages buddy) order then
        mergeTouched n (delPageFromFreeList s buddy order) (buddyPfn &&& pfn) (order + 1)
      else [memMapIndex s.zone pfn]

/-- The page structs that the loop of `buddy_page_free` reads or writes. -/
def freeTouched : ℕ → Buddy → ℕ → ℕ → List ℕ
  | 0, _, _, _ => []
  | n + 1, s, pfn, nrPages =>
    if nrPages = 0 then []
    else match freeOrder pfn nrPages with
      | none => freeTouched n s pfn nrPages
      | some order =>
        mergeTouched (maxOrder - 1 - order) s pfn order ++
          freeTouched n (_buddyPageFree s pfn order) (wadd pfn (1 <<< order))
            (wsub nrPages (1 <<< order))

/-- The page structs that `buddy_page_free` reads or writes. -/
def buddyPageFreeTouched (s : Buddy) (pfn nrPages : ℕ) : List ℕ :=
  freeTouched nrPages (s.setNrFreePages (wadd s.zone.nrFreePages nrPages)) pfn nrPages

/-- **The call stays inside the zone.** -/
def FreesInZone (s : Buddy) (pfn nrPages : ℕ) : Prop :=
  ∀ i ∈ buddyPageFreeTouched s pfn nrPages, i < s.zone.nrPages

variable {s : Buddy} {pfn nrPages : ℕ}

/-! ### Nothing else is written -/

theorem memMap_of_scalars {s t : Buddy} (h : t.zone.scalars = s.zone.scalars) :
    t.zone.memMap = s.zone.memMap ∧ t.zone.pfnBase = s.zone.pfnBase := by
  simp only [Zone.scalars, Prod.mk.injEq] at h
  exact ⟨h.1, h.2.1⟩

theorem mergeLoop_touched : ∀ (n : ℕ) (s : Buddy) (pfn order x : ℕ),
    (∀ i ∈ mergeTouched n s pfn order, x ≠ wadd s.zone.memMap i) →
    (mergeLoop n s pfn order).1.memPages x = s.memPages x ∧
      x ≠ pfnToPage s.zone (mergeLoop n s pfn order).2.1 := by
  intro n
  induction n with
  | zero => exact fun s pfn order x hx => ⟨rfl, hx _ (List.mem_singleton_self _)⟩
  | succ n ih =>
    intro s pfn order x hx
    by_cases hhit : pageIsBuddy (s.memPages (pfnToPage s.zone (_findBuddyPfn pfn order))) order = true
    · simp only [mergeTouched, hhit, if_true, List.forall_mem_cons] at hx
      obtain ⟨hmem, hpage⟩ := ih _ _ _ x hx.2
      have hne : x ≠ pfnToPage s.zone (_findBuddyPfn pfn order) := hx.1
      simp only [mergeLoop, hhit, if_true]
      refine ⟨hmem.trans ?_, hpage⟩
      simp [delPageFromFreeList, Buddy.setPage, Buddy.setCount, hne]
    · simp only [mergeTouched, hhit, if_false, Bool.false_eq_true, List.forall_mem_cons] at hx
      simp only [mergeLoop, hhit, if_false, Bool.false_eq_true]
      exact ⟨trivial, hx.2.1⟩

theorem buddyPageFree_block_scalars (s : Buddy) (pfn order : ℕ) :
    (_buddyPageFree s pfn order).zone.scalars = s.zone.scalars := mergeLoop_scalars _ s pfn order

theorem freeLoop_touched : ∀ (n : ℕ) (s : Buddy) (pfn nrPages x : ℕ),
    (∀ i ∈ freeTouched n s pfn nrPages, x ≠ wadd s.zone.memMap i) →
    (freeLoop n s pfn nrPages).memPages x = s.memPages x := by
  intro n
  induction n with
  | zero => exact fun _ _ _ _ _ => rfl
  | succ n ih =>
    intro s pfn nrPages x hx
    rw [freeTouched] at hx
    rw [freeLoop]
    by_cases h0 : nrPages = 0
    · rw [if_pos h0]
    · rw [if_neg h0] at hx ⊢
      obtain ⟨o, -, hfind, -⟩ := freeOrder_spec pfn (Nat.pos_of_ne_zero h0)
      rw [hfind] at hx ⊢
      dsimp only at hx ⊢
      obtain ⟨hmem, hpage⟩ := mergeLoop_touched _ s pfn o x fun i hi => hx i (List.mem_append_left _ hi)
      have hscal := buddyPageFree_block_scalars s pfn o
      have hblock : (_buddyPageFree s pfn o).memPages x = s.memPages x := by
        obtain ⟨hmm, hbase⟩ := memMap_of_scalars (mergeLoop_scalars (maxOrder - 1 - o) s pfn o)
        have hpage' : x ≠ pfnToPage (mergeLoop (maxOrder - 1 - o) s pfn o).1.zone
            (mergeLoop (maxOrder - 1 - o) s pfn o).2.1 := by
          rw [pfnToPage, hmm, hbase]
          exact hpage
        exact (put_memPages_of_ne _ _ _ _ hpage').trans hmem
      rw [ih _ _ _ x fun i hi => ?_, hblock]
      rw [(memMap_of_scalars hscal).1]
      exact hx i (List.mem_append_right _ hi)

/-- **A free changes no page struct but those recorded.** -/
theorem buddyPageFree_memPages (s : Buddy) (pfn nrPages x : ℕ)
    (hx : ∀ i ∈ buddyPageFreeTouched s pfn nrPages, x ≠ wadd s.zone.memMap i) :
    (buddyPageFree s pfn nrPages).memPages x = s.memPages x :=
  freeLoop_touched nrPages _ pfn nrPages x hx

/-! ### Zones made up of largest blocks -/

/-- Merging does not leave the largest block around a page. -/
theorem findBuddyPfn_div {pfn order : ℕ} (ho : order < maxOrder - 1) :
    _findBuddyPfn pfn order / 2 ^ 10 = pfn / 2 ^ 10 := by
  have hlt : 2 ^ order < 2 ^ 10 := Nat.pow_lt_pow_right (by norm_num) ho
  rw [_findBuddyPfn, Nat.one_shiftLeft, Nat.xor_div_two_pow, Nat.div_eq_of_lt hlt, Nat.xor_zero]

theorem mergeTouched_div : ∀ (n : ℕ) (s : Buddy) (pfn order : ℕ), n + order = maxOrder - 1 →
    ∀ i ∈ mergeTouched n s pfn order, ∃ x, x / 2 ^ 10 = pfn / 2 ^ 10 ∧ i = memMapIndex s.zone x := by
  intro n
  induction n with
  | zero =>
    intro s pfn order _ i hi
    exact ⟨pfn, rfl, List.mem_singleton.mp hi⟩
  | succ n ih =>
    intro s pfn order ho i hi
    have hbuddy : _findBuddyPfn pfn order / 2 ^ 10 = pfn / 2 ^ 10 := findBuddyPfn_div (by omega)
    rw [mergeTouched] at hi
    rcases List.mem_cons.mp hi with rfl | hi
    · exact ⟨_, hbuddy, rfl⟩
    · split at hi
      · obtain ⟨x, hx, rfl⟩ := ih _ _ _ (by omega) i hi
        refine ⟨x, ?_, rfl⟩
        rw [hx, Nat.and_div_two_pow, hbuddy, Nat.and_self]
      · exact ⟨pfn, rfl, List.mem_singleton.mp hi⟩

/-- What holds of every block that is freed holds of the whole range. -/
theorem freeTouched_forall {I : Buddy → Prop} {good : ℕ → Prop} (lo hi : ℕ) (hfits : hi < 2 ^ 64)
    (hblock : ∀ s q o, I s → o < maxOrder → 2 ^ o ∣ q → lo ≤ q → q + 2 ^ o ≤ hi →
      (∀ i ∈ mergeTouched (maxOrder - 1 - o) s q o, good i) ∧ I (_buddyPageFree s q o)) :
    ∀ (n : ℕ) (s : Buddy) (pfn nrPages : ℕ), I s → lo ≤ pfn → pfn + nrPages ≤ hi →
      ∀ i ∈ freeTouched n s pfn nrPages, good i := by
  intro n
  induction n with
  | zero => exact fun _ _ _ _ _ _ i hi => absurd hi List.not_mem_nil
  | succ n ih =>
    intro s pfn nrPages hI hge hle i hi
    rw [freeTouched] at hi
    by_cases h0 : nrPages = 0
    · rw [if_pos h0] at hi
      exact absurd hi List.not_mem_nil
    · rw [if_neg h0] at hi
      obtain ⟨o, ho, hfind, hal, hsize⟩ := freeOrder_spec pfn (Nat.pos_of_ne_zero h0)
      obtain ⟨hmerge, hI'⟩ := hblock s pfn o hI ho hal hge (by omega)
      rw [hfind] at hi
      rcases List.mem_append.mp hi with hi | hi
      · exact hmerge i hi
      · rw [Nat.one_shiftLeft, wadd_of_lt (by omega), wsub_of_le hsize (by omega)] at hi
        exact ih _ _ _ hI' (by omega) (by omega) i hi

theorem freeTouched_lt (hbase : 2 ^ 10 ∣ s.zone.pfnBase) (hnr : 2 ^ 10 ∣ s.zone.nrPages)
    (hfits : s.zone.pfnBase + s.zone.nrPages < 2 ^ 64) (hge : s.zone.pfnBase ≤ pfn)
    (hle : pfn + nrPages ≤ s.zone.pfnBase + s.zone.nrPages) :
    ∀ i ∈ freeTouched nrPages s pfn nrPages, i < s.zone.nrPages := by
  refine freeTouched_forall (I := fun t => t.zone.scalars = s.zone.scalars) _ _ hfits
    (fun t q o hI ho _ hlo hhi => ⟨fun i hi => ?_, (buddyPageFree_block_scalars t q o).trans hI⟩)
    nrPages s pfn nrPages rfl hge hle
  obtain ⟨x, hx, rfl⟩ := mergeTouched_div _ t q o (by omega) i hi
  obtain ⟨b, hb⟩ := hbase
  obtain ⟨c, hc⟩ := hnr
  have hpos := Nat.two_pow_pos o
  rw [memMapIndex, (memMap_of_scalars hI).2, wsub_of_le (by omega) (by omega)]
  omega

/-! ### Calls on other zones

A call stays inside any zone as long as no block that it may merge up to has its buddy outside. What the flags
of the zone say counts here: the pages of a block that was taken out keep them, but they do not name blocks
beyond the zone.
-/

/-- The block of order `k` at `p` lies in the zone. -/
def Zone.HasBlock (zone : Zone) (k p : ℕ) : Prop :=
  zone.pfnBase ≤ p ∧ p + 2 ^ k ≤ zone.pfnBase + zone.nrPages

/-- The page structs of the zone are at their page numbers, and those that are flagged are flagged as blocks
of the zone. -/
structure FlagsInZone (s : Buddy) : Prop where
  base : s.zone.memMap = s.zone.pfnBase
  fits : s.zone.pfnBase + s.zone.nrPages < 2 ^ 64
  inside : ∀ p k, s.zone.HasBlock 0 p → pageIsBuddy (s.memPages p) k = true → s.zone.HasBlock k p

/-- Every block around `p` that lies in the zone and may be merged has a buddy that begins in the zone. -/
def BuddiesInZone (zone : Zone) (p : ℕ) : Prop :=
  ∀ k < maxOrder - 1, zone.HasBlock k (head k p) → zone.HasBlock 0 (buddy k (head k p))

instance (zone : Zone) (k p : ℕ) : Decidable (zone.HasBlock k p) := inferInstanceAs (Decidable (_ ∧ _))

instance (zone : Zone) (p : ℕ) : Decidable (BuddiesInZone zone p) :=
  inferInstanceAs (Decidable (∀ k < maxOrder - 1, _))

section Buddies

variable {t : Buddy} {p q k : ℕ}

/-- If a block and its buddy lie in the zone, so does their parent. -/
theorem Zone.HasBlock.parent {zone : Zone} (hq : 2 ^ k ∣ q) (h : zone.HasBlock k q)
    (hb : zone.HasBlock k (buddy k q)) : zone.HasBlock (k + 1) (Dyadic.parent k q) := by
  obtain ⟨hlo, hhi⟩ := h
  obtain ⟨hblo, hbhi⟩ := hb
  rcases lower_or_upper k q with hl | hu
  · obtain ⟨hbuddy, hparent⟩ := buddy_parent_of_lower hq hl
    rw [hparent]
    refine ⟨hlo, ?_⟩
    rw [pow_succ]
    omega
  · obtain ⟨hbuddy, hparent⟩ := buddy_parent_of_upper hq hu
    rw [hparent]
    refine ⟨hblo, ?_⟩
    rw [pow_succ]
    omega

theorem FlagsInZone.pfnToPage (h : FlagsInZone s) (hp : s.zone.HasBlock 0 p) :
    GeekToyOS.pfnToPage s.zone p = p := by
  have hfits := h.fits
  have hhi : p + 1 ≤ s.zone.pfnBase + s.zone.nrPages := hp.2
  exact pfnToPage_eq h.base (by omega) (by omega)

theorem FlagsInZone.memMapIndex_lt (h : FlagsInZone s) (hp : s.zone.HasBlock 0 p) :
    memMapIndex s.zone p < s.zone.nrPages := by
  have hfits := h.fits
  obtain ⟨hlo, hhi⟩ := hp
  rw [pow_zero] at hhi
  rw [memMapIndex, wsub_of_le hlo (by omega)]
  omega

theorem Zone.HasBlock.head {zone : Zone} (h : zone.HasBlock k q) : zone.HasBlock 0 q := by
  have hpos := Nat.two_pow_pos k
  obtain ⟨hlo, hhi⟩ := h
  refine ⟨hlo, ?_⟩
  rw [pow_zero]
  omega

/-- Taking a block from its list changes the flag of no page, not even of its own. -/
theorem FlagsInZone.del (h : FlagsInZone s) (page order : ℕ) :
    FlagsInZone (delPageFromFreeList s page order) where
  base := h.base
  fits := h.fits
  inside p k hp hflag := h.inside p k hp ((del_pageIsBuddy s page order p k).symm.trans hflag)

/-- Putting a block of the zone on its list flags its head as a block of the zone. -/
theorem FlagsInZone.put (h : FlagsInZone s) (hq : s.zone.HasBlock k q) :
    FlagsInZone (putPage s q k) where
  base := h.base
  fits := h.fits
  inside p j hp hflag := by
    by_cases hpq : p = q
    · subst hpq
      obtain rfl : k = j := (put_order_self s p k).symm.trans (pageIsBuddy_iff.mp hflag).2
      exact hq
    · rw [put_memPages_of_ne s q k p hpq] at hflag
      exact h.inside p j hp hflag

/-- **The merging loop stays in the zone**, and ends with a block of the zone. -/
theorem mergeLoop_inZone : ∀ (n : ℕ) (s : Buddy) (order : ℕ), n + order = maxOrder - 1 →
    FlagsInZone s → s.zone.HasBlock order (head order p) → BuddiesInZone s.zone p →
    (∀ i ∈ mergeTouched n s (head order p) order, i < s.zone.nrPages) ∧
      FlagsInZone (mergeLoop n s (head order p) order).1 ∧
      (mergeLoop n s (head order p) order).1.zone.HasBlock (mergeLoop n s (head order p) order).2.2
        (mergeLoop n s (head order p) order).2.1 := by
  intro n
  induction n with
  | zero =>
    intro s order _ h hblock _
    refine ⟨fun i hi => ?_, h, hblock⟩
    rw [List.mem_singleton.mp hi]
    exact h.memMapIndex_lt hblock.head
  | succ n ih =>
    intro s order ho h hblock hbuddies
    have hal := aligned_head order p
    have hbuddy : s.zone.HasBlock 0 (buddy order (head order p)) := hbuddies order (by omega) hblock
    have hparent : buddy order (head order p) &&& head order p = head (order + 1) p := by
      rw [buddy_and hal, Dyadic.parent, head_head (Nat.le_succ order)]
    rw [mergeTouched, mergeLoop, findBuddyPfn_eq, h.pfnToPage hbuddy]
    split
    case isTrue hhit =>
      have hnext := hblock.parent hal (h.inside _ _ hbuddy hhit)
      rw [Dyadic.parent, head_head (Nat.le_succ order)] at hnext
      rw [hparent]
      obtain ⟨hlt, hflags, hend⟩ := ih (delPageFromFreeList s (buddy order (head order p)) order) _
        (by omega) (h.del _ _) hnext hbuddies
      refine ⟨fun i hi => ?_, hflags, hend⟩
      rcases List.mem_cons.mp hi with rfl | hi
      · exact h.memMapIndex_lt hbuddy
      · exact hlt i hi
    case isFalse =>
      refine ⟨fun i hi => ?_, h, hblock⟩
      rcases List.mem_cons.mp hi with rfl | hi
      · exact h.memMapIndex_lt hbuddy
      · rw [List.mem_singleton.mp hi]
        exact h.memMapIndex_lt hblock.head

/-- Freeing one block of the range stays in the zone, and the flags still name blocks of the zone. -/
theorem FlagsInZone.free_block {order : ℕ} (h : FlagsInZone s) (ho : order < maxOrder)
    (hp : 2 ^ order ∣ p) (hblock : s.zone.HasBlock order p) (hbuddies : BuddiesInZone s.zone p) :
    (∀ i ∈ mergeTouched (maxOrder - 1 - order) s p order, i < s.zone.nrPages) ∧
      FlagsInZone (_buddyPageFree s p order) := by
  have hmerge := mergeLoop_inZone (p := p) (maxOrder - 1 - order) s order (by omega) h
  rw [head_of_aligned hp] at hmerge
  obtain ⟨hlt, hflags, hend⟩ := hmerge hblock hbuddies
  refine ⟨hlt, ?_⟩
  have hput := hflags.put hend
  rwa [← hflags.pfnToPage hend.head] at hput

/-- **A free stays inside the zone**, in any zone, if the blocks around its pages have their buddies there. -/
theorem freesInZone_of_buddies (h : FlagsInZone s) (hge : s.zone.pfnBase ≤ pfn)
    (hle : pfn + nrPages ≤ s.zone.pfnBase + s.zone.nrPages)
    (hbuddies : ∀ p < pfn + nrPages, pfn ≤ p → BuddiesInZone s.zone p) : FreesInZone s pfn nrPages := by
  have hfits := h.fits
  refine freeTouched_forall (I := fun t => FlagsInZone t ∧ t.zone.pfnBase = s.zone.pfnBase ∧
    t.zone.nrPages = s.zone.nrPages) pfn (pfn + nrPages) (by omega) ?_ nrPages _ pfn nrPages
    ⟨⟨h.base, h.fits, h.inside⟩, rfl, rfl⟩ le_rfl le_rfl
  rintro t q o ⟨ht, hbase, hnr⟩ ho hal hlo hhi
  have hpos := Nat.two_pow_pos o
  have hblock : t.zone.HasBlock o q := by
    rw [Zone.HasBlock, hbase, hnr]
    omega
  have hq : BuddiesInZone t.zone q := by
    have hq := hbuddies q (by omega) hlo
    simp only [BuddiesInZone, Zone.HasBlock, hbase, hnr] at hq ⊢
    exact hq
  have hscal := buddyPageFree_block_scalars t q o
  simp only [Zone.scalars, Prod.mk.injEq] at hscal
  obtain ⟨hlt, hflags⟩ := ht.free_block ho hal hblock hq
  exact ⟨hnr ▸ hlt, hflags, hscal.2.1.trans hbase, hscal.2.2.1.trans hnr⟩

theorem flagsInZone_buddyInitZone {pfnStart : ℕ} (hfits : pfnStart + nrPages < 2 ^ 64) :
    FlagsInZone (buddyInitZone zeroMemory pfnStart nrPages) where
  base := rfl
  fits := hfits
  inside _ _ _ hflag := absurd (pageIsBuddy_iff.mp hflag).1 not_flagged_zero

/-- In a zone of three pages the first two can be freed, together or the second one alone. -/
example : FreesInZone (buddyInitZone zeroMemory 0 3) 0 2 ∧ FreesInZone (buddyInitZone zeroMemory 0 3) 1 1 :=
  ⟨freesInZone_of_buddies (flagsInZone_buddyInitZone (by norm_num)) (by decide) (by decide) (by decide),
    freesInZone_of_buddies (flagsInZone_buddyInitZone (by norm_num)) (by decide) (by decide) (by decide)⟩

end Buddies

/-! ### Other zones -/

/-- The first page struct that merging a block of less than the largest order touches. -/
theorem mem_mergeTouched {order : ℕ} (ho : order < maxOrder - 1) (s : Buddy) (pfn : ℕ) :
    memMapIndex s.zone (buddy order pfn) ∈ mergeTouched (maxOrder - 1 - order) s pfn order := by
  obtain ⟨n, hn⟩ : ∃ n, maxOrder - 1 - order = n + 1 := ⟨maxOrder - 1 - order - 1, by omega⟩
  rw [hn, mergeTouched, findBuddyPfn_eq]
  exact List.mem_cons_self

/-- One round of the loop touches what merging its block touches, and the rest is touched by the next
rounds. -/
theorem mem_freeTouched_succ {n o : ℕ} (h0 : nrPages ≠ 0) (hfind : freeOrder pfn nrPages = some o)
    (hle : 2 ^ o ≤ nrPages) (hlt : pfn + nrPages < 2 ^ 64) {i : ℕ} :
    i ∈ freeTouched (n + 1) s pfn nrPages ↔ i ∈ mergeTouched (maxOrder - 1 - o) s pfn o ∨
      i ∈ freeTouched n (_buddyPageFree s pfn o) (pfn + 2 ^ o) (nrPages - 2 ^ o) := by
  rw [freeTouched, if_neg h0, hfind]
  simp only [Nat.one_shiftLeft]
  rw [wadd_of_lt (by omega), wsub_of_le hle (by omega), List.mem_append]

/-- **A range shorter than the alignment of its head** is cut into smaller and smaller blocks, and the
buddy of the last one lies just behind the range. -/
theorem end_touched_of_short : ∀ (n : ℕ) {s : Buddy} {m pfn nrPages : ℕ}, nrPages ≤ n → 0 < nrPages →
    nrPages < 2 ^ m → m < maxOrder → 2 ^ m ∣ pfn → pfn + nrPages < 2 ^ 64 →
    memMapIndex s.zone (pfn + nrPages) ∈ freeTouched n s pfn nrPages := by
  intro n
  induction n with
  | zero =>
    intro s m pfn nrPages hn hpos
    omega
  | succ n ih =>
    intro s m pfn nrPages hn hpos hm hmax hal hlt
    obtain ⟨o, hfind, ho, halo, hle, hlargest⟩ := freeOrder_greedy (q := pfn) hpos
    have hom : o < m := by
      by_contra hge
      have : 2 ^ m ≤ 2 ^ o := Nat.pow_le_pow_right (by norm_num) (by omega)
      omega
    have hal' : 2 ^ (o + 1) ∣ pfn := dvd_trans (pow_dvd_pow 2 hom) hal
    have hshort : nrPages < 2 ^ (o + 1) := hlargest (o + 1) (by omega) (Nat.lt_succ_self o) hal'
    rw [mem_freeTouched_succ (by omega) hfind hle hlt]
    rcases Nat.eq_or_lt_of_le hle with heq | hmore
    · have hlower : pfn / 2 ^ o % 2 = 0 := by
        obtain ⟨c, rfl⟩ := hal'
        rw [pow_succ, Nat.mul_assoc, Nat.mul_div_cancel_left _ (Nat.two_pow_pos o)]
        exact Nat.mul_mod_right 2 c
      have hbuddy := (buddy_parent_of_lower halo hlower).1
      rw [← heq, ← hbuddy]
      exact Or.inl (mem_mergeTouched (by omega) s pfn)
    · have hscal := buddyPageFree_block_scalars s pfn o
      have hpow := Nat.two_pow_pos o
      have hsmall : nrPages - 2 ^ o < 2 ^ o := by
        rw [pow_succ] at hshort
        omega
      have hrest := @ih (_buddyPageFree s pfn o) o (pfn + 2 ^ o) (nrPages - 2 ^ o) (by omega)
        (by omega) hsmall ho (Nat.dvd_add halo dvd_rfl) (by omega)
      rw [show pfn + 2 ^ o + (nrPages - 2 ^ o) = pfn + nrPages by omega, memMapIndex,
        (memMap_of_scalars hscal).2] at hrest
      exact Or.inr hrest

/-- A range that starts at a largest block and is no multiple of its size is cut into largest blocks and
then as above. -/
theorem end_touched_of_aligned : ∀ (n : ℕ) {s : Buddy} {pfn nrPages : ℕ}, nrPages ≤ n →
    ¬ 2 ^ 10 ∣ nrPages → 2 ^ 10 ∣ pfn → pfn + nrPages < 2 ^ 64 →
    memMapIndex s.zone (pfn + nrPages) ∈ freeTouched n s pfn nrPages := by
  intro n
  induction n with
  | zero =>
    intro s pfn nrPages hn hodd
    obtain rfl : nrPages = 0 := Nat.le_zero.mp hn
    exact absurd (dvd_zero _) hodd
  | succ n ih =>
    intro s pfn nrPages hn hodd hal hlt
    have hpos : 0 < nrPages := Nat.pos_of_ne_zero fun h0 => hodd (h0 ▸ dvd_zero _)
    by_cases hshort : nrPages < 2 ^ 10
    · exact end_touched_of_short (n + 1) hn hpos hshort (by decide) hal hlt
    · obtain ⟨o, hfind, ho, halo, hle, hlargest⟩ := freeOrder_greedy (q := pfn) hpos
      obtain rfl : o = 10 := by
        by_contra hne
        have hlt10 : o < 10 := by
          simp only [maxOrder] at ho
          omega
        exact hshort (hlargest 10 (by decide) hlt10 hal)
      have hscal := buddyPageFree_block_scalars s pfn 10
      have hrest := @ih (_buddyPageFree s pfn 10) (pfn + 2 ^ 10) (nrPages - 2 ^ 10) (by omega)
        (fun hd => hodd ?_) (Nat.dvd_add hal dvd_rfl) (by omega)
      · rw [mem_freeTouched_succ (by omega) hfind hle hlt]
        rw [show pfn + 2 ^ 10 + (nrPages - 2 ^ 10) = pfn + nrPages by omega, memMapIndex,
          (memMap_of_scalars hscal).2] at hrest
        exact Or.inr hrest
      · have := Nat.dvd_add hd (dvd_refl (2 ^ 10))
        rwa [Nat.sub_add_cancel hle] at this

/-- A range that starts inside a largest block: the buddy of its first block lies before the range, or
the range is short. -/
theorem start_touched {n : ℕ} (hn : nrPages ≤ n) (hpos : 0 < nrPages) (hodd : ¬ 2 ^ 10 ∣ pfn)
    (hlt : pfn + nrPages < 2 ^ 64) :
    memMapIndex s.zone (pfn + nrPages) ∈ freeTouched n s pfn nrPages ∨
      ∃ q < pfn, memMapIndex s.zone q ∈ freeTouched n s pfn nrPages := by
  obtain ⟨n, rfl⟩ : ∃ n', n = n' + 1 := ⟨n - 1, by omega⟩
  obtain ⟨o, hfind, ho, halo, hle, hlargest⟩ := freeOrder_greedy (q := pfn) hpos
  have ho10 : o < maxOrder - 1 := by
    by_contra hge
    obtain rfl : o = 10 := by
      simp only [maxOrder] at ho hge
      omega
    exact hodd halo
  rcases lower_or_upper o pfn with hl | hu
  · refine Or.inl (end_touched_of_short (n + 1) (m := o + 1) hn hpos ?_ (by omega) ?_ hlt)
    · exact hlargest (o + 1) (by omega) (Nat.lt_succ_self o) ((buddy_parent_of_lower halo hl).2 ▸
        aligned_parent o pfn)
    · exact (buddy_parent_of_lower halo hl).2 ▸ aligned_parent o pfn
  · have hbuddy := (buddy_parent_of_upper halo hu).1
    have := Nat.two_pow_pos o
    refine Or.inr ⟨buddy o pfn, by omega, ?_⟩
    rw [mem_freeTouched_succ (by omega) hfind hle hlt]
    exact Or.inl (mem_mergeTouched ho10 s pfn)

/-- Freeing the whole of an irregular zone leaves it. -/
theorem not_freesInZone (hpos : 0 < s.zone.nrPages) (hfits : s.zone.pfnBase + s.zone.nrPages < 2 ^ 64)
    (hodd : ¬ (2 ^ 10 ∣ s.zone.pfnBase ∧ 2 ^ 10 ∣ s.zone.nrPages)) :
    ¬ FreesInZone s s.zone.pfnBase s.zone.nrPages := by
  intro hall
  have hbehind : ¬ memMapIndex s.zone (s.zone.pfnBase + s.zone.nrPages) < s.zone.nrPages := by
    rw [memMapIndex, wsub_of_le (by omega) (by omega)]
    omega
  have hbefore : ∀ q < s.zone.pfnBase, ¬ memMapIndex s.zone q < s.zone.nrPages := by
    intro q hq
    rw [memMapIndex, wsub]
    omega
  by_cases hbase : 2 ^ 10 ∣ s.zone.pfnBase
  · exact hbehind (hall _ (end_touched_of_aligned _ le_rfl (fun hd => hodd ⟨hbase, hd⟩) hbase hfits))
  · rcases start_touched (s := s.setNrFreePages (wadd s.zone.nrFreePages s.zone.nrPages)) le_rfl hpos
      hbase hfits with hend | ⟨q, hq, hmem⟩
    · exact hbehind (hall _ hend)
    · exact hbefore q hq (hall _ hmem)

/-- **Every free of pages of the zone stays inside the zone iff the zone starts and ends at multiples of
the largest block size**, whatever the state of the zone. -/
theorem freesInZone_iff (hpos : 1 ≤ s.zone.nrPages)
    (hfits : s.zone.pfnBase + s.zone.nrPages < 2 ^ 64) :
    (∀ pfn nrPages, s.zone.pfnBase ≤ pfn → pfn + nrPages ≤ s.zone.pfnBase + s.zone.nrPages →
      FreesInZone s pfn nrPages) ↔ 2 ^ 10 ∣ s.zone.pfnBase ∧ 2 ^ 10 ∣ s.zone.nrPages := by
  constructor
  · intro hall
    by_contra hodd
    exact not_freesInZone hpos hfits hodd (hall _ _ le_rfl le_rfl)
  · rintro ⟨hbase, hnr⟩ pfn nrPages hge hle i hi
    exact freeTouched_lt (s := s.setNrFreePages (wadd s.zone.nrFreePages nrPages)) hbase hnr hfits hge hle
      i hi

/-- Freeing five pages in a zone that is one largest block. -/
theorem freesInZone_iff_regular : FreesInZone (buddyInitZone zeroMemory 0 1024) 3 5 :=
  (freesInZone_iff (s := buddyInitZone zeroMemory 0 1024) (by decide) (by decide)).mpr
    ⟨by decide, by decide⟩ 3 5 (by decide) (by decide)

/-- Freeing the three pages of a zone looks at a fourth. -/
theorem not_freesInZone_threePages : ¬ FreesInZone (buddyInitZone zeroMemory 0 3) 0 3 :=
  not_freesInZone (s := buddyInitZone zeroMemory 0 3) (by decide) (by decide) (by decide)

end GeekToyOS
