import GeekToyOS.Kernel.BuddySafety
import GeekToyOS.Kernel.Memory

/-!
# The page map and the buddy system

`mm_phy_page_alloc` and `mm_phy_page_free` record in the page map what the buddy system does. A run of
the two is a run of the buddy allocator (`PhysStep.buddyStep`), so the invariant of such runs carries
over, and it says what is free: the pages that were handed in, less the live ones. The page map is
updated to the same set.

## Main definitions

* `PhysStep` — one call to `mm_phy_page_alloc` or `mm_phy_page_free`
* `Agree` — the page map and the free lists tell the same
* `CanInit` — what `buddy_init` needs

## Main results

* `buddyInitLoop_sound` — `buddy_init` frees exactly the available pages
* `agree_of_servesPages` — the two agree throughout a run whose calls are `ServesPages`
-/

namespace GeekToyOS

open Dyadic

/-! ### Numbers -/

theorem toSize_of_lt {n : ℕ} (h : n < 2 ^ 64) : toSize n = n := by
  rw [toSize]
  omega

theorem wshl_pgShift_shiftRight {pfn : ℕ} (h : pfn < 2 ^ 52) : wshl pfn pgShift >>> pgShift = pfn := by
  rw [wshl_eq, Nat.shiftRight_eq_div_pow, pgShift]
  omega

/-! ### The page map over a range -/

section Map

variable {m : Bitmap} {start len : ℕ}

/-- A range that lies inside the map is clipped by neither of the two comparisons. -/
theorem range_inside (hsize : m.size ≤ 2 ^ 31) (h : start + len ≤ m.size) :
    min m.size start = start ∧ min m.size (wadd start len) = start + len := by
  rw [wadd_of_lt (by omega)]
  omega

/-- A range that ends where the map does, or later, is clipped at the end of the map. -/
theorem range_to_end (hstart : start ≤ m.size) (hlen : m.size ≤ len) (hlen' : len ≤ 2 ^ 31) :
    min m.size start = start ∧ min m.size (wadd start len) = m.size := by
  rw [wadd_of_lt (by omega)]
  omega

/-- Setting a range that lies inside the map sets its bits, and no others. -/
theorem bitmapSet_bit_inside (hsize : m.size ≤ 2 ^ 31) (h : start + len ≤ m.size) (value : ℤ) (j : ℕ) :
    (bitmapSet m value start len).bit j
      = if start ≤ j ∧ j < start + len then decide (value ≠ 0) else m.bit j := by
  obtain ⟨h1, h2⟩ := range_inside hsize h
  rw [bitmapSet_bit (by omega) (by omega), h1, h2]

/-- A search of a map of at most `2 ^ 31` bits either finds no bit of the range, and returns -1, or it finds
one of them; the place fits an `int`. -/
theorem bitmapFind_cases (hsize : m.size ≤ 2 ^ 31) {s e : ℕ} (hs : min m.size start = s)
    (he : min m.size (wadd start len) = e) (hse : s ≤ e) (value : ℤ) :
    (bitmapFind m value start len = -1 ∧ ∀ j, s ≤ j → j < e → m.bit j ≠ decide (value ≠ 0)) ∨
    ∃ p : ℕ, bitmapFind m value start len = p ∧ s ≤ p ∧ p < e ∧ m.bit p = decide (value ≠ 0) ∧
      ∀ j, s ≤ j → j < p → m.bit j ≠ decide (value ≠ 0) := by
  have hle : e ≤ m.size := he ▸ Nat.min_le_left _ _
  have hspec := @bitmapFind_spec m value start len (by omega) (by omega)
  rw [hs, he] at hspec
  rcases hspec with hnone | ⟨p, hp, hsp, hpe, hbit, hleast⟩
  · exact Or.inl hnone
  · exact Or.inr ⟨p, by rw [hp, toInt_of_lt (by omega)], hsp, hpe, hbit, hleast⟩

end Map

section Memory

variable {s : Memory} {n : ℕ}

/-- The search for the first page from `r` on that is available, for a map of any size. -/
theorem bitmapFind_avail (hsize : s.memMap.size = s.pfnMax) (hmax : s.pfnMax ≤ 2 ^ 52) {r : ℕ}
    (hr : r < s.pfnMax) :
    (bitmapFind s.memMap memPageAvail r s.pfnMax = -1 ∧
      ∀ j, r ≤ j → j < s.pfnMax → s.memMap.bit j ≠ false) ∨
    ∃ p, bitmapFind s.memMap memPageAvail r s.pfnMax = toInt p ∧ r ≤ p ∧ p < s.pfnMax ∧
      s.memMap.bit p = false ∧ ∀ j, r ≤ j → j < p → s.memMap.bit j ≠ false := by
  have hend : wadd r s.pfnMax = r + s.pfnMax := wadd_of_lt (by omega)
  have hspec := @bitmapFind_spec s.memMap memPageAvail r s.pfnMax (by omega) (by omega)
  rwa [hsize, hend, Nat.min_eq_right (Nat.le_of_lt hr), Nat.min_eq_left (by omega),
    show decide (memPageAvail ≠ 0) = false by decide] at hspec

/-- The first used page among `n` from `l` on, as far as the map goes. -/
theorem bitmapFind_used (hsize : s.memMap.size = s.pfnMax) (hmax : s.pfnMax ≤ 2 ^ 52) {l : ℕ}
    (hl : l < s.pfnMax) (hn : l + n < 2 ^ 64) :
    (bitmapFind s.memMap memPageUsed l n = -1 ∧
      ∀ j, l ≤ j → j < min s.pfnMax (l + n) → s.memMap.bit j = false) ∨
    ∃ u, bitmapFind s.memMap memPageUsed l n = toInt u ∧ l ≤ u ∧ u < min s.pfnMax (l + n) ∧
      s.memMap.bit u = true ∧ ∀ j, l ≤ j → j < u → s.memMap.bit j = false := by
  have hspec := @bitmapFind_spec s.memMap memPageUsed l n (by omega) (by rw [wadd_of_lt hn]; omega)
  rw [hsize, wadd_of_lt hn, Nat.min_eq_right (Nat.le_of_lt hl)] at hspec
  simpa [memPageUsed] using hspec

end Memory

/-! ### `buddy_init` -/

/-- The pages below `n` that the map marks available. -/
def availBelow (m : Bitmap) (n : ℕ) : Set ℕ := {p | p < n ∧ m.bit p = false}

theorem buddyInitLoop_sound : ∀ (n : ℕ) {s : Memory} {L : ℕ → List ℕ} {r : ℕ}, s.pfnMax ≤ r + n →
    r ≤ s.pfnMax → s.memMap.size = s.pfnMax → s.pfnMax ≤ 2 ^ 31 →
    s.memMap.bit (s.pfnMax - 1) = false → s.buddy.zone.pages = Set.Ico 0 s.pfnMax →
    Sound s.buddy L ∅ → Counted s.buddy L → cover (blocksOf L) = availBelow s.memMap r →
    ∃ buddy L', buddyInitLoop n s r = { s with buddy := buddy } ∧ Sound buddy L' ∅ ∧
      Counted buddy L' ∧ cover (blocksOf L') = availBelow s.memMap s.pfnMax := by
  intro n
  induction n with
  | zero =>
    intro s L r hn hr _ _ _ _ h hc hcov
    obtain rfl : r = s.pfnMax := by omega
    exact ⟨s.buddy, L, rfl, h, hc, hcov⟩
  | succ n ih =>
    intro s L r hn hr hsize hmax hlast hpages h hc hcov
    rw [buddyInitLoop, toSize_of_lt (by omega)]
    by_cases hlt : r < s.pfnMax
    · rw [if_pos hlt]
      have hsize' : s.memMap.size ≤ 2 ^ 31 := by omega
      -- the last page is available, so the first search succeeds
      obtain ⟨hs, he⟩ := @range_to_end s.memMap r s.pfnMax (by omega) (by omega) hmax
      rcases bitmapFind_cases hsize' hs he (by omega) memPageAvail with
        ⟨-, hnone⟩ | ⟨l, hl, hrl, hlm, hlbit, hlleast⟩
      · exact absurd hlast (hnone _ (by omega) (by omega))
      -- the run it heads ends at the next used page or at the end of the map
      obtain ⟨e, hend, hle, hem, hrun⟩ : ∃ e : ℕ,
          (if bitmapFind s.memMap memPageUsed l s.pfnMax = -1 then (s.pfnMax : ℤ)
            else bitmapFind s.memMap memPageUsed l s.pfnMax) = e ∧ l < e ∧ e ≤ s.pfnMax ∧
          ∀ j, l ≤ j → j < e → s.memMap.bit j = false := by
        obtain ⟨hs, he⟩ := @range_to_end s.memMap l s.pfnMax (by omega) (by omega) hmax
        rcases bitmapFind_cases hsize' hs he (by omega) memPageUsed with
          ⟨hnone, hall⟩ | ⟨u, hu, hlu, hum, hubit, huleast⟩
        · refine ⟨s.pfnMax, by rw [hnone, if_pos rfl], by omega, le_rfl, fun j hj hj' => ?_⟩
          simpa [memPageUsed] using hall j hj (by omega)
        · have hne : l ≠ u := by
            rintro rfl
            rw [hlbit] at hubit
            exact absurd hubit (by decide)
          refine ⟨u, ?_, by omega, by omega, fun j hj hj' => ?_⟩
          · rw [hu, if_neg (by omega)]
          · simpa [memPageUsed] using huleast j hj hj'
      have hlen : toSize ((e : ℤ) - l) = e - l := by
        rw [← Nat.cast_sub (by omega), toSize_of_lt (by omega)]
      simp only [hl, toSize_of_lt (show l < 2 ^ 64 by omega), hend, hlen]
      have hrange : Set.Ico l (l + (e - l)) = Set.Ico l e := by rw [Nat.add_sub_cancel' (by omega)]
      have hin : rangePages (l, e - l) ⊆ s.buddy.zone.pages := by
        rw [rangePages, hrange, hpages]
        exact Set.Ico_subset_Ico (Nat.zero_le l) hem
      have hdisj : Disjoint (rangePages (l, e - l)) (cover (blocksOf L)) := by
        rw [rangePages, hrange, hcov]
        exact Set.disjoint_left.mpr fun x hx hx' => by
          have := hx.1
          have := hx'.1
          omega
      obtain ⟨L₁, h₁, hc₁, hcov₁⟩ := populate_sound [(l, e - l)] h hc (by simpa using hin)
        (List.pairwise_singleton _ _) (by simpa using hdisj)
      have hnew : cover (blocksOf L₁) = availBelow s.memMap e := by
        rw [hcov₁, hcov]
        ext x
        simp only [livePages_cons, livePages_nil, Set.union_empty, rangePages, hrange, availBelow,
          Set.mem_union, Set.mem_ofPred_eq, Set.mem_Ico]
        constructor
        · rintro (⟨hx, hbit⟩ | ⟨hx, hx'⟩)
          · exact ⟨by omega, hbit⟩
          · exact ⟨hx', hrun x hx hx'⟩
        · rintro ⟨hx, hbit⟩
          by_cases hxr : x < r
          · exact Or.inl ⟨hxr, hbit⟩
          · refine Or.inr ⟨?_, hx⟩
            by_contra hxl
            exact hlleast x (by omega) (by omega) hbit
      have hpages₁ : (buddyPageFree s.buddy l (e - l)).zone.pages = Set.Ico 0 s.pfnMax := by
        obtain ⟨_, -, -, hscal⟩ := buddyPageFree_sound h hin hdisj
        simp only [Zone.scalars, Prod.mk.injEq] at hscal
        rw [← hpages, Zone.pages, Zone.pages, hscal.2.1, hscal.2.2.1]
      exact ih (s := { s with buddy := buddyPageFree s.buddy l (e - l) }) (by dsimp only; omega) hem hsize
        hmax hlast hpages₁ h₁ hc₁ hnew
    · rw [if_neg hlt]
      obtain rfl : r = s.pfnMax := by omega
      exact ⟨s.buddy, L, rfl, h, hc, hcov⟩

/-! ### Runs -/

/-- Memory after `buddy_init`, and the ranges of pages allocated and not yet given back. -/
structure PhysRun where
  mm : Memory
  live : List (ℕ × ℕ)

/-- The part of the state that the buddy allocator works on. -/
def PhysRun.buddyRun (st : PhysRun) : BuddyRun := ⟨st.mm.buddy, st.live⟩

/-- One call: a successful `mm_phy_page_alloc` of `2 ^ k` pages, or an `mm_phy_page_free` of a live
range. -/
inductive PhysStep : PhysRun → BuddyOp → PhysRun → Prop
  | alloc {st : PhysRun} {n k addr : ℕ} {mm : Memory} (hn : n = 2 ^ k) (hk : k < maxOrder)
      (halloc : mmPhyPageAlloc st.mm n = some (addr, mm)) (haddr : addr ≠ allocFailed) :
      PhysStep st (.alloc n) ⟨mm, (addr >>> pgShift, n) :: st.live⟩
  | free {st : PhysRun} {pfn n : ℕ} (hlive : (pfn, n) ∈ st.live) :
      PhysStep st (.free pfn n)
        ⟨(mmPhyPageFree st.mm (wshl pfn pgShift) n).1, st.live.erase (pfn, n)⟩

/-- `ServesPages` for a call to the page allocator. -/
def PhysServes (st : PhysRun) (op : BuddyOp) : Prop := ServesPages st.buddyRun op

/-- The page is in a block of a free list. -/
def BuddyFree (s : Buddy) (p : ℕ) : Prop := ∃ b ∈ freeBlocks s, p ∈ block b.1 b.2

/-- **The page map and the free lists tell the same**: a page is marked available iff it is in a free
block, and freeing a range is reported as a double free iff a page of it is free. -/
structure Agree (st : PhysRun) : Prop where
  bits : ∀ p < st.mm.pfnMax, st.mm.memMap.bit p = decide (memPageAvail ≠ 0) ↔ BuddyFree st.mm.buddy p
  check : ∀ pfn n, pfn + n ≤ st.mm.pfnMax →
    ((mmPhyPageFree st.mm (wshl pfn pgShift) n).2.isSome ↔
      ∃ p, pfn ≤ p ∧ p < pfn + n ∧ BuddyFree st.mm.buddy p)

/-- The invariant of runs. -/
structure PhysInv (handed : Set ℕ) (st : PhysRun) (L : ℕ → List ℕ) : Prop where
  run : PageRun handed st.buddyRun L
  mm_ready : st.mm.mmReady = true
  buddy_ready : st.mm.buddyMemReady = true
  size_eq : st.mm.memMap.size = st.mm.pfnMax
  pfn_max_le : st.mm.pfnMax ≤ 2 ^ 31
  handed_lt : ∀ p ∈ handed, p < st.mm.pfnMax
  bits : ∀ p < st.mm.pfnMax, st.mm.memMap.bit p = false ↔ p ∈ cover (blocksOf L)

/-- What is free is what was handed in and is not live. -/
theorem PageRun.mem_cover_iff {handed : Set ℕ} {st : BuddyRun} {L : ℕ → List ℕ}
    (h : PageRun handed st L) {x : ℕ} :
    x ∈ cover (blocksOf L) ↔ x ∈ handed ∧ x ∉ livePages st.live := by
  rw [← h.handed_eq]
  constructor
  · exact fun hx => ⟨Or.inl hx, fun hl => Set.disjoint_left.mp h.sound.apart hl hx⟩
  · rintro ⟨hx | hx, hnot⟩
    · exact hx
    · exact absurd hx hnot

/-- Memory after `pfn` was allocated. -/
def Memory.granted (s : Memory) (buddy : Buddy) (pfn nrPages : ℕ) : Memory :=
  { s with buddy := buddy, memMap := bitmapSet s.memMap memPageUsed pfn nrPages }

/-- Memory after the range was given back. -/
def Memory.released (s : Memory) (pfn nrPages : ℕ) : Memory :=
  { s with buddy := buddyPageFree s.buddy pfn nrPages,
           memMap := bitmapSet s.memMap memPageAvail pfn nrPages }

theorem mmPhyPageFree_eq {s : Memory} {pfn n : ℕ} (hready : s.buddyMemReady = true)
    (hpfn : pfn < 2 ^ 52) : (mmPhyPageFree s (wshl pfn pgShift) n).1 = s.released pfn n := by
  simp only [mmPhyPageFree, wshl_pgShift_shiftRight hpfn]
  rw [if_pos hready]
  rfl

namespace PhysInv

variable {handed : Set ℕ} {st st' : PhysRun} {L : ℕ → List ℕ} {op : BuddyOp}

theorem buddyFree_iff (h : PhysInv handed st L) {p : ℕ} :
    BuddyFree st.mm.buddy p ↔ p ∈ cover (blocksOf L) := by
  have hblocks : freeBlocks st.mm.buddy = blocksOf L := h.run.sound.toListed.freeBlocks_eq
  rw [BuddyFree, hblocks]
  rfl

theorem live_lt (h : PhysInv handed st L) {p : ℕ} (hp : p ∈ livePages st.live) :
    p < st.mm.pfnMax := by
  refine h.handed_lt p ?_
  rw [← h.run.handed_eq]
  exact Or.inr hp

theorem agree (h : PhysInv handed st L) : Agree st := by
  have hmax := h.pfn_max_le
  refine ⟨fun p hp => ?_, fun pfn n hn => ?_⟩
  · rw [h.buddyFree_iff]
    exact h.bits p hp
  · have hpfn : wshl pfn pgShift >>> pgShift = pfn := wshl_pgShift_shiftRight (by omega)
    have hsize := h.size_eq
    obtain ⟨hs, he⟩ := @range_inside st.mm.memMap pfn n (by omega) (by omega)
    simp only [mmPhyPageFree, hpfn]
    rcases bitmapFind_cases (by omega) hs he (by omega) memPageAvail with
      ⟨hnone, hall⟩ | ⟨p, hp, hsp, hpe, hbit, -⟩
    · rw [hnone]
      refine iff_of_false (by simp) ?_
      rintro ⟨p, hsp, hpe, hfree⟩
      exact hall p hsp hpe ((h.bits p (by omega)).mpr (h.buddyFree_iff.mp hfree))
    · rw [hp, if_pos (by omega)]
      exact iff_of_true rfl ⟨p, hsp, hpe, h.buddyFree_iff.mpr ((h.bits p (by omega)).mp hbit)⟩

/-- A successful allocation, as a step of the buddy allocator and a write to the page map. -/
theorem alloc_inv (h : PhysInv handed st L) {n addr : ℕ} {mm : Memory}
    (halloc : mmPhyPageAlloc st.mm n = some (addr, mm)) (haddr : addr ≠ allocFailed) :
    ∃ pfn buddy, buddyPageAlloc st.mm.buddy n = some (pfn, buddy) ∧ pfn ≠ pfnNotfound ∧
      addr >>> pgShift = pfn ∧ mm = st.mm.granted buddy pfn n := by
  rw [mmPhyPageAlloc, if_neg (not_not.mpr h.mm_ready)] at halloc
  dsimp only at halloc
  rw [if_pos h.buddy_ready, Option.map_map] at halloc
  obtain ⟨⟨pfn, buddy⟩, hb, he⟩ := Option.map_eq_some_iff.mp halloc
  obtain ⟨rfl, rfl⟩ := Prod.mk.inj he
  have hpfn : pfn ≠ pfnNotfound := fun he => haddr (by rw [he]; rfl)
  refine ⟨pfn, buddy, hb, hpfn, wshl_pgShift_shiftRight ?_, rfl⟩
  show pfn < 2 ^ 52
  rcases h.run.alloc_cases n with ⟨hnone, -⟩ | ⟨p, s', L', hsome, -, hp, -⟩
  · rw [show st.buddyRun.mm = st.mm.buddy from rfl, hb, Option.some.injEq, Prod.mk.injEq] at hnone
    exact absurd hnone.1 hpfn
  · rw [show st.buddyRun.mm = st.mm.buddy from rfl, hb, Option.some.injEq, Prod.mk.injEq] at hsome
    have hlt := h.handed_lt p (h.run.mem_cover_iff.mp hp).1
    have hmax := h.pfn_max_le
    omega

end PhysInv

/-- **A run of the page allocator is a run of the buddy allocator.** -/
theorem PhysStep.buddyStep {handed : Set ℕ} {st st' : PhysRun} {L : ℕ → List ℕ} {op : BuddyOp}
    (h : PhysInv handed st L) (hstep : PhysStep st op st') :
    BuddyStep st.buddyRun op st'.buddyRun := by
  cases hstep with
  | @alloc n k addr mm hn hk halloc haddr =>
    obtain ⟨pfn, buddy, hb, hpfn, rfl, rfl⟩ := h.alloc_inv halloc haddr
    exact .alloc hn hk hb hpfn
  | @free pfn n hlive =>
    have hstep : BuddyStep st.buddyRun (.free pfn n) _ := .free hlive
    have hlt : pfn < st.mm.pfnMax := h.live_lt ⟨_, hlive, le_rfl, by
      rw [h.run.single _ hlive]
      exact Nat.lt_succ_self pfn⟩
    have hmax := h.pfn_max_le
    rw [mmPhyPageFree_eq h.buddy_ready (by omega)]
    exact hstep

/-- **One call keeps the invariant**, if it meets the condition of `PhysServes`. -/
theorem PhysInv.step {handed : Set ℕ} {st st' : PhysRun} {L : ℕ → List ℕ} {op : BuddyOp}
    (h : PhysInv handed st L) (hok : PhysServes st op) (hstep : PhysStep st op st') :
    ∃ L', PhysInv handed st' L' := by
  obtain ⟨L', hrun⟩ := h.run.step hok (hstep.buddyStep h)
  have hsize := h.size_eq
  have hmax := h.pfn_max_le
  have hbits : ∀ p < st.mm.pfnMax,
      st.mm.memMap.bit p = false ↔ p ∈ handed ∧ p ∉ livePages st.live := fun p hp =>
    (h.bits p hp).trans h.run.mem_cover_iff
  refine ⟨L', ?_⟩
  cases hstep with
  | @alloc n k addr mm hn hk halloc haddr =>
    obtain ⟨pfn, buddy, hb, hpfn, rfl, rfl⟩ := h.alloc_inv halloc haddr
    obtain rfl : n = 1 := hrun.single (addr >>> pgShift, n) List.mem_cons_self
    have hin : addr >>> pgShift ∈ handed := by
      rw [← hrun.handed_eq]
      exact Or.inr (hrun.mem_live.mpr List.mem_cons_self)
    have hlt := h.handed_lt _ hin
    refine ⟨hrun, h.mm_ready, h.buddy_ready, by simpa [Memory.granted] using hsize, hmax,
      h.handed_lt, fun p hp => ?_⟩
    have hbit : (bitmapSet st.mm.memMap memPageUsed (addr >>> pgShift) 1).bit p
        = if addr >>> pgShift ≤ p ∧ p < addr >>> pgShift + 1 then true else st.mm.memMap.bit p :=
      bitmapSet_bit_inside (by omega) (by omega) _ p
    have hlive : livePages ((addr >>> pgShift, 1) :: st.live)
        = {addr >>> pgShift} ∪ livePages st.live := by
      rw [livePages_cons, rangePages_one]
    rw [hrun.mem_cover_iff]
    simp only [Memory.granted, PhysRun.buddyRun, hbit, hlive, Set.mem_union, Set.mem_singleton_iff]
    by_cases hpe : p = addr >>> pgShift
    · simp [hpe]
    · rw [if_neg (by omega), hbits p hp]
      tauto
  | @free pfn n hlive =>
    obtain rfl : n = 1 := h.run.single _ hlive
    have hmem : pfn ∈ livePages st.live := h.run.mem_live.mpr hlive
    have hlt := h.live_lt hmem
    have hin : pfn ∈ handed := by
      rw [← h.run.handed_eq]
      exact Or.inr hmem
    rw [mmPhyPageFree_eq h.buddy_ready (by omega)] at hrun ⊢
    refine ⟨hrun, h.mm_ready, h.buddy_ready, by simpa [Memory.released] using hsize, hmax,
      h.handed_lt, fun p hp => ?_⟩
    have hbit : (bitmapSet st.mm.memMap memPageAvail pfn 1).bit p
        = if pfn ≤ p ∧ p < pfn + 1 then false else st.mm.memMap.bit p :=
      bitmapSet_bit_inside (by omega) (by omega) _ p
    have herase : livePages (st.live.erase (pfn, 1)) = livePages st.live \ {pfn} :=
      h.run.livePages_erase
    rw [hrun.mem_cover_iff]
    simp only [Memory.released, PhysRun.buddyRun, hbit, herase, Set.mem_sdiff,
      Set.mem_singleton_iff]
    by_cases hpe : p = pfn
    · simp [hpe, hin]
    · rw [if_neg (by omega), hbits p hp]
      tauto

/-- What `mem_init` leaves: the bitmap allocator serves, and the page map has a bit per page. -/
structure MapReady (s : Memory) : Prop where
  mm_ready : s.mmReady = true
  not_buddy_ready : s.buddyMemReady = false
  size_eq : s.memMap.size = s.pfnMax

/-- **What `buddy_init` needs.** Its loop frees everything when the search for the next available page
fails, so the last page has to be available once the page structs have their pages; `bitmap_find`
returns an `int`; and nothing clears the page structs. -/
structure CanInit (s : Memory) (pages : ℕ → Page) : Prop where
  last_avail : ∀ addr s', mmPhyPageAlloc s (divRoundUp (wmul s.pfnMax sizeofPage) pgSize)
    = some (addr, s') → s'.memMap.bit (s.pfnMax - 1) = false
  pfn_max_le : s.pfnMax ≤ 2 ^ 31
  clean : ∀ x, ¬ (pages x).Flagged

/-- **After `buddy_init` the two agree**: no page that the buddy allocator manages is available in the map.
-/
theorem PhysInv.of_pmmInit {s s' : Memory} {pages : ℕ → Page} (hmap : MapReady s)
    (hcan : CanInit s pages) (hinit : pmmInit s pages = some s') :
    ∃ handed L, PhysInv handed ⟨s', []⟩ L := by
  simp only [pmmInit, buddyInit, Option.map_map, Option.map_eq_some_iff, Function.comp_apply,
    Prod.exists] at hinit
  obtain ⟨addr, s₁, halloc, rfl⟩ := hinit
  have hlast := hcan.last_avail addr s₁ halloc
  -- the page structs come from the bitmap allocator, which writes the page map only
  have hs₁ : ∃ m, s₁ = { s with memMap := m } ∧ m.size = s.memMap.size := by
    rw [mmPhyPageAlloc, if_neg (not_not.mpr hmap.mm_ready)] at halloc
    dsimp only at halloc
    rw [if_neg (Bool.not_eq_true _ ▸ hmap.not_buddy_ready), Option.map_some, Option.some.injEq,
      Prod.mk.injEq] at halloc
    exact ⟨_, halloc.2.symm, bitmapSet_size⟩
  obtain ⟨m, rfl, hm⟩ := hs₁
  have hmax := hcan.pfn_max_le
  obtain ⟨h₀, hscal⟩ := @buddyInitZone_sound { s.buddy with memPages := pages } 0 s.pfnMax hcan.clean
    (by omega)
  simp only [Zone.scalars, Prod.mk.injEq] at hscal
  have hempty : cover (blocksOf fun _ => []) = ∅ := PageRun.cover_eq_empty_of fun _ _ => rfl
  have hc₀ : Counted (buddyInitZone { s.buddy with memPages := pages } 0 s.pfnMax) fun _ => [] := by
    rw [Counted, hempty, Set.ncard_empty, hscal.2.2.2]
  obtain ⟨buddy, L, hloop, hsound, hcount, hcov⟩ := buddyInitLoop_sound s.pfnMax
    (s := { s with memMap := m, buddy := buddyInitZone { s.buddy with memPages := pages } 0 s.pfnMax })
    (r := 0) (by dsimp only; omega) (Nat.zero_le _) (hm.trans hmap.size_eq) hmax hlast
    (by rw [Zone.pages, hscal.2.1, hscal.2.2.1, Nat.zero_add]) h₀ hc₀
    (by
      rw [hempty]
      ext x
      simp [availBelow])
  refine ⟨availBelow m s.pfnMax, L, ?_⟩
  rw [Nat.cast_zero] at hloop
  rw [hloop]
  refine ⟨⟨?_, hcount, fun _ hr => absurd hr List.not_mem_nil, List.nodup_nil, ?_⟩, hmap.mm_ready,
    rfl, hm.trans hmap.size_eq, hmax, fun p hp => hp.1, fun p hp => ?_⟩
  · simpa [PhysRun.buddyRun] using hsound
  · simpa [PhysRun.buddyRun] using hcov
  · rw [hcov]
    exact ⟨fun hbit => ⟨hp, hbit⟩, And.right⟩

/-- **The page map and the free lists agree throughout a run whose calls meet neither defect of the
buddy allocator**, from what `buddy_init` leaves when it meets none of its own. -/
theorem agree_of_servesPages {s s' : Memory} {pages : ℕ → Page} {l : List (BuddyOp × PhysRun)}
    (hmap : MapReady s) (hcan : CanInit s pages) (hinit : pmmInit s pages = some s')
    (hrun : Trace.Run PhysStep ⟨s', []⟩ l) (hok : Trace.StepsOk PhysServes ⟨s', []⟩ l) :
    ∀ t ∈ Trace.states ⟨s', []⟩ l, Agree t := by
  obtain ⟨handed, hinv⟩ := PhysInv.of_pmmInit hmap hcan hinit
  intro t ht
  obtain ⟨L, hL⟩ := Trace.invariant (I := fun st => ∃ L, PhysInv handed st L)
    (fun ⟨_, hI⟩ hok hstep => hI.step hok hstep) hrun hinv hok t ht
  exact hL.agree

/-! ### Four pages -/

/-- Memory of four pages; `map` is the only byte of the page map. -/
def fourPageMemory (map : BitVec 8) : Memory :=
  { buddy := zeroMemory, memMap := ⟨fun _ => map, 4⟩, pfnMax := 4, reservedEnd := 0, kernEnd := 0,
    mbootInfoEnd := 0, reservedMemReady := true, buddyMemReady := false, mmReady := true }

theorem mapReady_fourPageMemory (map : BitVec 8) : MapReady (fourPageMemory map) := ⟨rfl, rfl, rfl⟩

theorem canInit_fourPageMemory : CanInit (fourPageMemory 0) fun _ => .zero where
  last_avail := by
    have hbit : (mmPhyPageAlloc (fourPageMemory 0)
        (divRoundUp (wmul (fourPageMemory 0).pfnMax sizeofPage) pgSize)).map
          (fun r => r.2.memMap.bit 3) = some false := by
      decide
    intro addr s' halloc
    rw [halloc, Option.map_some, Option.some.injEq] at hbit
    exact hbit
  pfn_max_le := by decide
  clean := fun _ => not_flagged_zero

/-- With all four pages available, page 0 goes to the page structs and page 1 is allocated first. -/
theorem fourPageMemory_alloc {k : ℕ} (hk : k < 2) :
    ∃ s mm, pmmInit (fourPageMemory 0) (fun _ => .zero) = some s ∧
      PhysStep ⟨s, []⟩ (.alloc (2 ^ k)) ⟨mm, [(1, 2 ^ k)]⟩ ∧ mm.pfnMax = 4 ∧
      mm.memMap.bit 2 = decide (k = 1) ∧ (mm.buddy.nodes (.freeArea 1)).next = .page 2 := by
  have hrun : (pmmInit (fourPageMemory 0) fun _ => .zero).bind (fun s =>
      (mmPhyPageAlloc s (2 ^ k)).map fun r => (r.1, r.2.pfnMax, r.2.memMap.bit 2,
        (r.2.buddy.nodes (.freeArea 1)).next))
        = some (4096, 4, decide (k = 1), BuddyNode.page 2) := by
    revert k
    decide
  obtain ⟨s, hinit, hrest⟩ := Option.bind_eq_some_iff.mp hrun
  obtain ⟨⟨addr, mm⟩, halloc, he⟩ := Option.map_eq_some_iff.mp hrest
  simp only [Prod.mk.injEq] at he
  obtain ⟨rfl, hmax, hbit, hnext⟩ := he
  have hstep : PhysStep ⟨s, []⟩ (.alloc (2 ^ k)) ⟨mm, [(4096 >>> pgShift, 2 ^ k)]⟩ :=
    .alloc rfl (by simp only [maxOrder]; omega) halloc (by decide)
  exact ⟨s, mm, hinit, hstep, hmax, hbit, hnext⟩

/-- Allocating one page keeps the two in agreement. -/
theorem agree_of_servesPages_fourPageMemory :
    ∃ s mm, pmmInit (fourPageMemory 0) (fun _ => .zero) = some s ∧
      ∀ t ∈ Trace.states ⟨s, []⟩ [(BuddyOp.alloc 1, ⟨mm, [(1, 1)]⟩)], Agree t := by
  obtain ⟨s, mm, hinit, hstep, -⟩ := fourPageMemory_alloc (k := 0) (by norm_num)
  exact ⟨s, mm, hinit, agree_of_servesPages (mapReady_fourPageMemory 0) canInit_fourPageMemory hinit
    (.cons hstep (.nil _)) ⟨Or.inl rfl, trivial⟩⟩

/-- Allocating two pages does not: page 2 is marked used, and stays on a free list. -/
theorem not_agree_fourPageMemory :
    ∃ s mm, pmmInit (fourPageMemory 0) (fun _ => .zero) = some s ∧
      Trace.Run PhysStep ⟨s, []⟩ [(.alloc 2, ⟨mm, [(1, 2)]⟩)] ∧ ¬ Agree ⟨mm, [(1, 2)]⟩ := by
  obtain ⟨s, mm, hinit, hstep, hmax, hbit, hnext⟩ := fourPageMemory_alloc (k := 1) (by norm_num)
  refine ⟨s, mm, hinit, .cons hstep (.nil _), fun hagree => ?_⟩
  have hfree : BuddyFree mm.buddy 2 :=
    ⟨(1, 2), ⟨by decide, 1, hnext⟩, head_mem_block 1 2⟩
  have hused := (hagree.bits 2 (by rw [hmax]; decide)).mpr hfree
  rw [hbit] at hused
  exact absurd hused (by decide)

/-- If the last page is used, `buddy_init` frees it as well, and page 0, which holds the page structs. -/
example : (pmmInit (fourPageMemory 8) fun _ => .zero).map (fun s =>
    (s.memMap.bit 0, s.memMap.bit 3, (s.buddy.nodes (.freeArea 2)).next))
      = some (true, true, .page 0) := by
  decide

end GeekToyOS
