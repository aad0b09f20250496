import GeekToyOS.Kernel.BuddySafety

/-!
# Freeing does not depend on the order

Populating a zone is a greedy process: each range is cut into the largest blocks that fit, and each
block merges as far as it can with what is there. The outcome is nevertheless a function of the set of
pages alone. No step of it looks at a page that somebody holds, so the invariant makes the free blocks
a canonical decomposition, and there is only one.

## Main results

* `freeBlocks_populate` — the free blocks after populating a zone
* `populate_order_independent` — two sequences with one union leave the same free blocks
-/

namespace GeekToyOS

open Dyadic

variable {mem : Buddy} {pfnStart nrPages : ℕ} {ranges ranges' : List (ℕ × ℕ)}

/-- The free blocks of a state that keeps the invariant decompose what they cover. -/
theorem Sound.canonical {s : Buddy} {L : ℕ → List ℕ} {out : Set ℕ} (h : Sound s L out) :
    Canonical (maxOrder - 1) (cover (blocksOf L)) (freeBlocks s) := by
  rw [h.freeBlocks_eq]
  exact ⟨h.packing, rfl⟩

/-- **The free blocks after populating a zone** decompose what was handed in. -/
theorem freeBlocks_populate (h : Populated mem pfnStart nrPages ranges) :
    Canonical (maxOrder - 1) (livePages ranges)
      (freeBlocks (populate (buddyInitZone mem pfnStart nrPages) ranges)) := by
  obtain ⟨L, hI⟩ := PageRun.of_populated h
  have hcov : cover (blocksOf L) = livePages ranges := by
    rw [← hI.handed_eq]
    simp [buddyStart]
  rw [← hcov]
  exact hI.sound.canonical

/-- **Populating a zone does not depend on the order of the ranges or on how the pages are cut into
ranges**, and its outcome is the one decomposition into unmergeable blocks that there is. -/
theorem populate_order_independent (h : Populated mem pfnStart nrPages ranges)
    (h' : Populated mem pfnStart nrPages ranges') (hunion : livePages ranges = livePages ranges') :
    freeBlocks (populate (buddyInitZone mem pfnStart nrPages) ranges)
        = freeBlocks (populate (buddyInitZone mem pfnStart nrPages) ranges') ∧
      ∀ F, Canonical (maxOrder - 1) (livePages ranges) F ↔
        F = freeBlocks (populate (buddyInitZone mem pfnStart nrPages) ranges) := by
  have hc := freeBlocks_populate h
  have hc' := freeBlocks_populate h'
  refine ⟨?_, fun F => ⟨fun hF => ?_, ?_⟩⟩
  · rw [hc.eq_maximal, hc'.eq_maximal, hunion]
  · rw [hF.eq_maximal, hc.eq_maximal]
  · rintro rfl
    exact hc

/-- Four pages, the second one first and the last two together. -/
theorem populated_pieces : Populated zeroMemory 0 4 [(1, 1), (0, 1), (2, 2)] where
  clean := fun _ => not_flagged_zero
  fits := by decide
  in_zone := by
    rintro ⟨p, n⟩ hr x ⟨hx, hx'⟩
    simp only [List.mem_cons, Prod.mk.injEq, List.not_mem_nil, or_false] at hr
    dsimp only at hx hx'
    exact ⟨Nat.zero_le x, by omega⟩
  disjoint := by
    have hdisj : ∀ {a b c d : ℕ}, a + b ≤ c ∨ c + d ≤ a →
        Disjoint (rangePages (a, b)) (rangePages (c, d)) := fun h =>
      Set.disjoint_left.mpr fun x hx hx' => by
        simp only [rangePages, Set.mem_Ico] at hx hx'
        omega
    simp [hdisj]

/-- Freeing four pages in pieces, in another order, or at once. -/
theorem populate_order_independent_fourPages :
    freeBlocks (populate (buddyInitZone zeroMemory 0 4) [(1, 1), (0, 1), (2, 2)])
      = freeBlocks (populate (buddyInitZone zeroMemory 0 4) [(0, 4)]) := by
  refine (populate_order_independent populated_pieces populated_fourPages ?_).1
  ext x
  simp only [livePages_cons, livePages_nil, rangePages, Set.mem_union, Set.mem_Ico,
    Set.mem_empty_iff_false, or_false]
  omega

end GeekToyOS
