import GeekToyOS.Data.Trace
import GeekToyOS.Kernel.BuddyStale

/-!
# Runs of the buddy allocator

A zone is set up by `buddy_init_zone`, populated by `buddy_page_free`, and then serves a sequence of
allocations and frees. Beside the memory, a run keeps the ranges that were returned and not yet given
back.

Each of the three theorems below says exactly which runs have the property one wants of an allocator.
Two defects decide it. The order of a request is always computed as zero (`orderLoop_eq`), so a request
for more than one page is granted pages it does not own; and a page keeps its buddy flag when it is
handed out, so freeing its buddy may swallow it (`BuddyStale`).

## Main definitions

* `BuddyStep` — one call
* `Exclusive`, `Accounted`, `Truthful` — the three properties of a state
* `ServesPages` — the call meets neither defect

## Main results

* `exclusive_iff`, `accounted_iff` — both hold throughout a run iff every call of it is `ServesPages`
* `truthful_iff` — flags tell the truth throughout a run iff no allocation of it succeeds
-/

namespace GeekToyOS

open Dyadic

/-! ### Setting up a zone -/

theorem foldl_listInit_node (m : BuddyNode) : ∀ (l : List ℕ) (s : Buddy),
    (l.foldl (fun s order =>
      let s := s.setCount order 0
      { s with nodes := listInit s.nodes (.freeArea order) }) s).nodes m
      = if ∃ k ∈ l, m = .freeArea k then ⟨m, m⟩ else s.nodes m := by
  intro l
  induction l with
  | nil => intro s; simp
  | cons a l ih =>
    intro s
    rw [List.foldl_cons, ih]
    by_cases hl : ∃ k ∈ l, m = .freeArea k
    · obtain ⟨k, hk, rfl⟩ := hl
      rw [if_pos ⟨k, hk, rfl⟩, if_pos ⟨k, List.mem_cons_of_mem _ hk, rfl⟩]
    · rw [if_neg hl]
      by_cases hm : m = .freeArea a
      · rw [if_pos ⟨a, List.mem_cons_self, hm⟩, hm]
        exact listInit_self _ _
      · rw [if_neg, listInit_of_ne _ hm]
        · rfl
        · rintro ⟨k, hk, rfl⟩
          rcases List.mem_cons.mp hk with rfl | hk
          · exact hm rfl
          · exact hl ⟨k, hk, rfl⟩

theorem foldl_listInit_count (k : ℕ) : ∀ (l : List ℕ) (s : Buddy),
    (l.foldl (fun s order =>
      let s := s.setCount order 0
      { s with nodes := listInit s.nodes (.freeArea order) }) s).zone.count k
      = if k ∈ l then 0 else s.zone.count k := by
  intro l
  induction l with
  | nil => intro s; simp
  | cons a l ih =>
    intro s
    rw [List.foldl_cons, ih]
    by_cases hl : k ∈ l
    · rw [if_pos hl, if_pos (List.mem_cons_of_mem _ hl)]
    · rw [if_neg hl]
      by_cases hk : k = a
      · subst hk
        simp [Buddy.setCount]
      · simp [Buddy.setCount, hk, hl]

theorem foldl_listInit_rest : ∀ (l : List ℕ) (s : Buddy),
    (l.foldl (fun s order =>
      let s := s.setCount order 0
      { s with nodes := listInit s.nodes (.freeArea order) }) s).memPages = s.memPages ∧
    (l.foldl (fun s order =>
      let s := s.setCount order 0
      { s with nodes := listInit s.nodes (.freeArea order) }) s).zone.scalars = s.zone.scalars := by
  intro l
  induction l with
  | nil => exact fun s => ⟨rfl, rfl⟩
  | cons a l ih => exact fun s => ih _

/-- A fresh zone has empty lists, whatever the memory held before. -/
theorem buddyInitZone_ringed (mem : Buddy) {pfnStart : ℕ} (nrPages : ℕ) (hstart : pfnStart < 2 ^ 64) :
    Ringed (buddyInitZone mem pfnStart nrPages) (fun _ => []) ∧
      (buddyInitZone mem pfnStart nrPages).memPages = mem.memPages ∧
      (buddyInitZone mem pfnStart nrPages).zone.scalars = (pfnStart, pfnStart, nrPages, 0) := by
  obtain ⟨hpages, hscal⟩ := foldl_listInit_rest (List.range maxOrder)
    { mem with zone := ⟨pfnStart, pfnStart, nrPages, 0, mem.zone.count⟩ }
  have hscal' : (buddyInitZone mem pfnStart nrPages).zone.scalars = (pfnStart, pfnStart, nrPages, 0) :=
    hscal
  refine ⟨⟨?_, ?_, ⟨fun k => ?_, fun i j hij => ?_⟩, ?_, ?_⟩, hpages, hscal'⟩
  · simp only [Zone.scalars, Prod.mk.injEq] at hscal'
    rw [hscal'.1, hscal'.2.1]
  · simp only [Zone.scalars, Prod.mk.injEq] at hscal'
    omega
  · refine isRing_nil_of_self ?_
    rw [buddyInitZone, foldl_listInit_node, if_pos ⟨k, List.mem_range.mpr k.isLt, rfl⟩]
  · have hne : areaHead i ≠ areaHead j := fun he => hij (Fin.ext (BuddyNode.freeArea.inj he))
    simpa [areaNodes] using hne.symm
  · exact fun _ _ _ hm => absurd hm List.not_mem_nil
  · exact fun _ _ _ hm => absurd hm List.not_mem_nil

/-- **A fresh zone is sound and empty**, whatever the memory held before, as long as no page struct is
flagged. -/
theorem buddyInitZone_sound {mem : Buddy} {pfnStart nrPages : ℕ}
    (hclean : ∀ x, ¬ (mem.memPages x).Flagged) (hfits : pfnStart + nrPages < 2 ^ 64) :
    Sound (buddyInitZone mem pfnStart nrPages) (fun _ => []) ∅ ∧
      (buddyInitZone mem pfnStart nrPages).zone.scalars = (pfnStart, pfnStart, nrPages, 0) := by
  obtain ⟨hring, hpages, hscal⟩ := buddyInitZone_ringed mem nrPages (show pfnStart < 2 ^ 64 by omega)
  have hnone : ∀ x, ¬ ((buddyInitZone mem pfnStart nrPages).memPages x).Flagged := by
    rw [hpages]
    exact hclean
  have hempty : blocksOf (fun _ => []) = ∅ := by
    ext b
    simp [blocksOf]
  refine ⟨⟨⟨hring.base, hring.base_lt, hring.rings, hring.page_lt, hring.tagged, ?_⟩, ?_, ?_, ?_, ?_, ?_,
    ?_, ?_⟩, hscal⟩
  · exact fun x hx => absurd hx (hnone x)
  · rw [hempty]
    exact packing_empty _
  · intro k hk
    rw [buddyInitZone, foldl_listInit_count, if_pos (List.mem_range.mpr hk)]
    rfl
  · simp only [Zone.scalars, Prod.mk.injEq] at hscal
    omega
  · rw [hempty, cover_empty]
    exact Set.empty_subset _
  · exact Set.empty_subset _
  · exact Set.empty_disjoint _
  · exact fun x hx => absurd hx (hnone x)

/-- The pages of a list of ranges. -/
def livePages (l : List (ℕ × ℕ)) : Set ℕ := {x | ∃ r ∈ l, x ∈ rangePages r}

@[simp] theorem livePages_nil : livePages [] = ∅ := by
  ext x
  simp [livePages]

@[simp] theorem livePages_cons (r : ℕ × ℕ) (l : List (ℕ × ℕ)) :
    livePages (r :: l) = rangePages r ∪ livePages l := by
  ext x
  simp [livePages]

/-- Passing ranges to `buddy_page_free` one by one. -/
def populate (s : Buddy) (ranges : List (ℕ × ℕ)) : Buddy :=
  ranges.foldl (fun s r => buddyPageFree s r.1 r.2) s

/-- `nr_free_pages` is the number of free pages. -/
def Counted (s : Buddy) (L : ℕ → List ℕ) : Prop :=
  s.zone.nrFreePages = (cover (blocksOf L)).ncard

theorem populate_sound : ∀ (ranges : List (ℕ × ℕ)) {s : Buddy} {L : ℕ → List ℕ}, Sound s L ∅ →
    Counted s L → (∀ r ∈ ranges, rangePages r ⊆ s.zone.pages) →
    ranges.Pairwise (fun a b => Disjoint (rangePages a) (rangePages b)) →
    (∀ r ∈ ranges, Disjoint (rangePages r) (cover (blocksOf L))) →
    ∃ L', Sound (populate s ranges) L' ∅ ∧ Counted (populate s ranges) L' ∧
      cover (blocksOf L') = cover (blocksOf L) ∪ livePages ranges := by
  intro ranges
  induction ranges with
  | nil => exact fun {s L} h hc _ _ _ => ⟨L, h, hc, by simp⟩
  | cons r ranges ih =>
    intro s L h hc hzone hpair hdisj
    obtain ⟨hr, hpair⟩ := List.pairwise_cons.mp hpair
    obtain ⟨L₁, h₁, hcov, hscal⟩ := buddyPageFree_sound h (hzone r List.mem_cons_self)
      (hdisj r List.mem_cons_self)
    simp only [Zone.scalars, Prod.mk.injEq] at hscal
    obtain ⟨-, hbase, hnr, hnf⟩ := hscal
    have hpages : (buddyPageFree s r.1 r.2).zone.pages = s.zone.pages := by
      rw [Zone.pages, Zone.pages, hbase, hnr]
    have hcov' : cover (blocksOf L₁) = cover (blocksOf L) ∪ rangePages r := hcov
    have hc₁ : Counted (buddyPageFree s r.1 r.2) L₁ := by
      have hcard : (cover (blocksOf L₁)).ncard = (cover (blocksOf L)).ncard + r.2 := by
        rw [hcov', Set.ncard_union_eq (hdisj r List.mem_cons_self).symm h.finite_cover
          (Set.finite_Ico _ _), rangePages, ← Finset.coe_Ico, Set.ncard_coe_finset, Nat.card_Ico,
          Nat.add_sub_cancel_left]
      have hlt := h₁.ncard_cover_lt
      rw [Counted, hnf, hc, wadd_of_lt (by omega), hcard]
    obtain ⟨L', h', hc', hcov₂⟩ := ih h₁ hc₁
      (fun q hq => hpages ▸ hzone q (List.mem_cons_of_mem _ hq)) hpair (fun q hq => by
        rw [hcov', Set.disjoint_union_right]
        exact ⟨hdisj q (List.mem_cons_of_mem _ hq), (hr q hq).symm⟩)
    exact ⟨L', h', hc', by rw [hcov₂, hcov', livePages_cons, Set.union_assoc]⟩

/-! ### Calls -/

/-- A call to the allocator. -/
inductive BuddyOp
  | alloc (nrPages : ℕ)
  | free (pfn nrPages : ℕ)
deriving DecidableEq, Repr

/-- The memory, and the ranges returned and not yet given back. -/
structure BuddyRun where
  mm : Buddy
  live : List (ℕ × ℕ)

/-- One call: an allocation of `2 ^ k` pages, or the release of a live range. -/
inductive BuddyStep : BuddyRun → BuddyOp → BuddyRun → Prop
  | alloc {st : BuddyRun} {n k pfn : ℕ} {mm : Buddy} (hn : n = 2 ^ k) (hk : k < maxOrder)
      (halloc : buddyPageAlloc st.mm n = some (pfn, mm)) (hpfn : pfn ≠ pfnNotfound) :
      BuddyStep st (.alloc n) ⟨mm, (pfn, n) :: st.live⟩
  | allocNone {st : BuddyRun} {n k : ℕ} {mm : Buddy} (hn : n = 2 ^ k) (hk : k < maxOrder)
      (halloc : buddyPageAlloc st.mm n = some (pfnNotfound, mm)) :
      BuddyStep st (.alloc n) ⟨mm, st.live⟩
  | free {st : BuddyRun} {pfn n : ℕ} (hlive : (pfn, n) ∈ st.live) :
      BuddyStep st (.free pfn n) ⟨buddyPageFree st.mm pfn n, st.live.erase (pfn, n)⟩

/-- The state in which a run starts. -/
def buddyStart (mem : Buddy) (pfnStart nrPages : ℕ) (ranges : List (ℕ × ℕ)) : BuddyRun :=
  ⟨populate (buddyInitZone mem pfnStart nrPages) ranges, []⟩

/-- What a run starts from: page structs that are not flagged, and disjoint ranges of a zone whose page
numbers are `size_t`s. -/
structure Populated (mem : Buddy) (pfnStart nrPages : ℕ) (ranges : List (ℕ × ℕ)) : Prop where
  clean : ∀ x, ¬ (mem.memPages x).Flagged
  fits : pfnStart + nrPages < 2 ^ 64
  in_zone : ∀ r ∈ ranges, rangePages r ⊆ Set.Ico pfnStart (pfnStart + nrPages)
  disjoint : ranges.Pairwise fun a b => Disjoint (rangePages a) (rangePages b)

/-- **The call meets neither defect.** An allocation asks for one page, or finds every list empty. A
free meets no live page where `page_is_buddy` says yes. -/
def ServesPages (st : BuddyRun) : BuddyOp → Prop
  | .alloc n => n = 1 ∨ ∀ k < maxOrder, ∀ p, ¬ onFreeList st.mm k p
  | .free pfn _ => ∀ j < maxOrder - 1, mergeReaches st.mm pfn 0 j →
      mergePartner st.mm pfn j ∉ livePages st.live

/-- The invariant of runs whose calls are `ServesPages`. -/
structure PageRun (handed : Set ℕ) (st : BuddyRun) (L : ℕ → List ℕ) : Prop where
  sound : Sound st.mm L (livePages st.live)
  counted : Counted st.mm L
  single : ∀ r ∈ st.live, r.2 = 1
  nodup : st.live.Nodup
  handed_eq : cover (blocksOf L) ∪ livePages st.live = handed

namespace PageRun

variable {handed : Set ℕ} {st : BuddyRun} {L : ℕ → List ℕ}

theorem of_populated {mem : Buddy} {pfnStart nrPages : ℕ} {ranges : List (ℕ × ℕ)}
    (h : Populated mem pfnStart nrPages ranges) :
    ∃ L, PageRun (livePages ranges) (buddyStart mem pfnStart nrPages ranges) L := by
  obtain ⟨h₀, hscal⟩ := buddyInitZone_sound h.clean h.fits
  simp only [Zone.scalars, Prod.mk.injEq] at hscal
  have hempty : cover (blocksOf (fun _ => [])) = ∅ := by
    ext x
    simp [blocksOf, cover]
  have hc₀ : Counted (buddyInitZone mem pfnStart nrPages) (fun _ => []) := by
    rw [Counted, hempty, Set.ncard_empty, hscal.2.2.2]
  obtain ⟨L, hL, hc, hcov⟩ := populate_sound ranges h₀ hc₀
    (fun r hr => by
      rw [Zone.pages, hscal.2.1, hscal.2.2.1]
      exact h.in_zone r hr)
    h.disjoint (fun r _ => by rw [hempty]; exact Set.disjoint_empty _)
  refine ⟨L, ⟨?_, hc, fun r hr => absurd hr List.not_mem_nil, List.nodup_nil, ?_⟩⟩
  · simpa [buddyStart] using hL
  · simpa [buddyStart, hempty] using hcov

/-- In such a run every live range is one page, so a page is live iff its own range is. -/
theorem mem_live (h : PageRun handed st L) {x : ℕ} : x ∈ livePages st.live ↔ (x, 1) ∈ st.live := by
  constructor
  · rintro ⟨⟨p, n⟩, hr, hx⟩
    obtain rfl : n = 1 := h.single _ hr
    rw [rangePages_one] at hx
    rwa [Set.mem_singleton_iff.mp hx]
  · exact fun hx => ⟨_, hx, by rw [rangePages_one]; rfl⟩

theorem livePages_erase (h : PageRun handed st L) {p : ℕ} :
    livePages (st.live.erase (p, 1)) = livePages st.live \ {p} := by
  ext x
  constructor
  · rintro ⟨r, hr, hx⟩
    have hmem := List.mem_of_mem_erase hr
    refine ⟨⟨r, hmem, hx⟩, fun he => ?_⟩
    obtain ⟨q, n⟩ := r
    obtain rfl : n = 1 := h.single _ hmem
    rw [rangePages_one, Set.mem_singleton_iff] at hx
    rw [Set.mem_singleton_iff] at he
    rw [← hx, he] at hr
    exact h.nodup.not_mem_erase hr
  · rintro ⟨hx, hne⟩
    have hmem := h.mem_live.mp hx
    refine ⟨(x, 1), ?_, by rw [rangePages_one]; rfl⟩
    rw [h.nodup.mem_erase_iff]
    exact ⟨fun he => hne (Prod.ext_iff.mp he).1, hmem⟩

/-- **What one allocation does**: nothing, with every list empty, or one free page changes hands. -/
theorem alloc_cases (h : PageRun handed st L) (n : ℕ) :
    (buddyPageAlloc st.mm n = some (pfnNotfound, st.mm) ∧ ∀ k < maxOrder, L k = []) ∨
    ∃ p s' L', buddyPageAlloc st.mm n = some (p, s') ∧ p ≠ pfnNotfound ∧ p ∈ cover (blocksOf L) ∧
      Sound s' L' (livePages st.live ∪ {p}) ∧ cover (blocksOf L') = cover (blocksOf L) \ {p} ∧
      s'.zone.nrFreePages = wsub (cover (blocksOf L)).ncard n ∧ (s'.memPages p).Flagged := by
  rcases buddyPageAlloc_cases h.sound n with hnone | hsome
  · exact Or.inl hnone
  · obtain ⟨p, s', L', halloc, hp, hs', hcov, hscal, hflag⟩ := hsome
    simp only [Zone.scalars, Prod.mk.injEq] at hscal
    have hlt : p + 1 < 2 ^ 64 := by
      have := h.sound.free_in hp
      have := this.2
      have := h.sound.fits
      omega
    refine Or.inr ⟨p, s', L', halloc, ?_, hp, hs', hcov, ?_, hflag⟩
    · rw [pfnNotfound]
      omega
    · rw [hscal.2.2.2, h.counted]

theorem empty_iff (h : PageRun handed st L) :
    (∀ k < maxOrder, ∀ p, ¬ onFreeList st.mm k p) ↔ ∀ k < maxOrder, L k = [] := by
  refine forall₂_congr fun k hk => ?_
  simp only [h.sound.toListed.onFreeList_iff hk, List.eq_nil_iff_forall_not_mem]

/-- The lists of the allocator are empty iff nothing is free. -/
theorem cover_eq_empty_of (hnil : ∀ k < maxOrder, L k = []) : cover (blocksOf L) = ∅ := by
  ext x
  refine ⟨?_, fun hx => hx.elim⟩
  rintro ⟨b, ⟨hb, hm⟩, -⟩
  rw [hnil b.1 hb] at hm
  exact absurd hm List.not_mem_nil

/-- **One call keeps the invariant**, if it serves pages. -/
theorem step (h : PageRun handed st L) {op : BuddyOp} {st' : BuddyRun} (hok : ServesPages st op)
    (hstep : BuddyStep st op st') : ∃ L', PageRun handed st' L' := by
  cases hstep with
  | @alloc n k pfn mm hn hk halloc hpfn =>
    rcases h.alloc_cases n with ⟨hnone, -⟩ | ⟨p, s', L', hsome, -, hp, hs', hcov, hnf, -⟩
    · rw [hnone, Option.some.injEq, Prod.mk.injEq] at halloc
      exact absurd halloc.1.symm hpfn
    · rw [hsome, Option.some.injEq, Prod.mk.injEq] at halloc
      obtain ⟨rfl, rfl⟩ := halloc
      have hn1 : n = 1 := by
        rcases hok with hn1 | hempty
        · exact hn1
        · rw [cover_eq_empty_of (h.empty_iff.mp hempty)] at hp
          exact hp.elim
      subst hn1
      have hpl : p ∉ livePages st.live := fun hm => Set.disjoint_left.mp h.sound.apart hm hp
      have hlive : livePages ((p, 1) :: st.live) = livePages st.live ∪ {p} := by
        rw [livePages_cons, rangePages_one, Set.union_comm]
      refine ⟨L', ?_, ?_, ?_, ?_, ?_⟩
      · rw [hlive]
        exact hs'
      · have hpos : 0 < (cover (blocksOf L)).ncard :=
          (Set.ncard_pos h.sound.finite_cover).mpr ⟨p, hp⟩
        rw [Counted, hnf, hcov, Set.ncard_sdiff_singleton_of_mem hp,
          wsub_of_le hpos h.sound.ncard_cover_lt]
      · rintro r (_ | ⟨_, hr⟩)
        · rfl
        · exact h.single r hr
      · exact List.nodup_cons.mpr ⟨fun hm => hpl (h.mem_live.mpr hm), h.nodup⟩
      · rw [hlive, hcov, ← h.handed_eq, Set.union_comm (livePages st.live), ← Set.union_assoc,
          Set.sdiff_union_of_subset (Set.singleton_subset_iff.mpr hp)]
  | @allocNone n k mm hn hk halloc =>
    rcases h.alloc_cases n with ⟨hnone, -⟩ | ⟨p, s', L', hsome, hne, -⟩
    · rw [hnone, Option.some.injEq, Prod.mk.injEq] at halloc
      obtain ⟨-, rfl⟩ := halloc
      exact ⟨L, h.sound, h.counted, h.single, h.nodup, h.handed_eq⟩
    · rw [hsome, Option.some.injEq, Prod.mk.injEq] at halloc
      exact absurd halloc.1 hne
  | @free pfn n hlive =>
    obtain rfl : n = 1 := h.single _ hlive
    have hmem : pfn ∈ livePages st.live := h.mem_live.mpr hlive
    have herase := h.livePages_erase (p := pfn)
    have hone : block 0 pfn = {pfn} := block_zero pfn
    have hsplit : livePages st.live = livePages (st.live.erase (pfn, 1)) ∪ block 0 pfn := by
      rw [herase, hone, Set.sdiff_union_of_subset (Set.singleton_subset_iff.mpr hmem)]
    have hs := h.sound
    rw [hsplit] at hs
    have hs₁ := hs.setNrFreePages (wadd st.mm.zone.nrFreePages 1)
    obtain ⟨L', hL', hcov, hscal⟩ := buddyPageFree_block_sound (k := 0) (by decide) hs₁
      (by rw [herase, hone]; exact Set.disjoint_sdiff_left) (one_dvd pfn)
      (fun j _ hj hreach hm => hok j hj hreach (by
        rw [herase] at hm
        exact hm.1))
    simp only [Zone.scalars, Prod.mk.injEq] at hscal
    have hfree : Disjoint {pfn} (cover (blocksOf L)) :=
      Set.disjoint_singleton_left.mpr fun hc => Set.disjoint_left.mp h.sound.apart hmem hc
    have hcard : (cover (blocksOf L')).ncard = (cover (blocksOf L)).ncard + 1 := by
      rw [hcov, hone, Set.union_singleton, Set.ncard_insert_of_notMem
        (Set.disjoint_singleton_left.mp hfree) h.sound.finite_cover]
    have hlt := hL'.ncard_cover_lt
    refine ⟨L', ?_, ?_, fun r hr => h.single r (List.mem_of_mem_erase hr), h.nodup.erase _, ?_⟩
    · rw [buddyPageFree_one]
      exact hL'
    · have hnf : (buddyPageFree st.mm pfn 1).zone.nrFreePages = wadd st.mm.zone.nrFreePages 1 := by
        rw [buddyPageFree_one]
        exact hscal.2.2.2
      rw [Counted, hnf, h.counted, wadd_of_lt (by omega), hcard]
    · rw [hcov, hone, herase, ← h.handed_eq, Set.union_assoc, Set.union_sdiff_self,
        Set.union_eq_self_of_subset_left (Set.singleton_subset_iff.mpr hmem)]

end PageRun

end GeekToyOS
