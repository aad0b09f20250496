import GeekToyOS.Kernel.PageSource

/-!
# A page allocator

An instance of `PageLaws`, to run the heap on. It hands out page after page and reuses nothing. A
request for `n` pages gets as many as the largest power of two that divides `n`, which is what the
order loop of `buddy_page_alloc` aims at: for a power of two all of them, for three pages one.

## Main results

* `bumpPages_laws` — it is lawful
-/

namespace GeekToyOS

/-- The first page that is given out. -/
def bumpFirst : ℕ := 256

/-- What was handed out lies below `next`. -/
structure BumpPages where
  next : ℕ
  granted : List (ℕ × ℕ)
  page : ℕ → Page
  below : ∀ r ∈ granted, r.1 + r.2 ≤ next

namespace BumpPages

/-- Nothing handed out, page structs zero. -/
def empty : BumpPages := ⟨bumpFirst, [], fun _ => .zero, fun _ hr => absurd hr List.not_mem_nil⟩

/-- Hand out `n` pages. -/
def grant (s : BumpPages) (n : ℕ) : BumpPages where
  next := s.next + n
  granted := (s.next, n) :: s.granted
  page := s.page
  below := by
    rintro r (_ | ⟨_, hr⟩)
    · exact le_rfl
    · exact (s.below r hr).trans (Nat.le_add_right _ _)

/-- Take a range back. -/
def release (s : BumpPages) (r : ℕ × ℕ) : BumpPages :=
  { s with
    granted := s.granted.filter (· ≠ r)
    below := fun q hq => s.below q (List.mem_of_mem_filter hq) }

end BumpPages

/-- The operations. -/
def bumpPages : PageOps BumpPages where
  alloc s n :=
    let m := n.gcd (2 ^ 64)
    if bumpFirst ≤ s.next ∧ s.next + m ≤ 2 ^ 35 then some (s.next * 4096, s.grant m) else none
  free s addr n := s.release (addr / 4096, n)
  page := BumpPages.page
  setPage s i p := { s with page := Function.update s.page i p }

/-- The pages that can be handed out. -/
def bumpManaged : Set ℕ := {p | bumpFirst ≤ p ∧ p < 2 ^ 35}

/-- What was handed out. -/
def bumpGranted (s : BumpPages) : Set (ℕ × ℕ) := {r | r ∈ s.granted}

theorem bumpPages_laws : PageLaws bumpPages bumpManaged bumpGranted where
  managed_lt := fun _ hp => hp.2
  alloc := by
    rintro s n k addr s' rfl hk halloc
    have hgcd : (2 ^ k).gcd (2 ^ 64) = 2 ^ k :=
      Nat.gcd_eq_left (Nat.pow_dvd_pow 2 (by rw [maxOrder] at hk; omega))
    simp only [bumpPages, hgcd] at halloc
    split at halloc
    · rename_i hroom
      obtain ⟨rfl, rfl⟩ := Prod.mk.inj (Option.some.inj halloc)
      refine ⟨s.next, rfl, fun x hx => ?_, fun r hr => Set.disjoint_left.mpr fun x hx hx' => ?_, ?_,
        fun _ _ _ _ => rfl, fun _ => ⟨id, rfl⟩⟩
      · simp only [rangePages, Set.mem_Ico] at hx
        exact ⟨by omega, by omega⟩
      · have := s.below r hr
        simp only [rangePages, Set.mem_Ico] at hx hx'
        omega
      · ext r
        simp [bumpGranted, BumpPages.grant]
    · exact absurd halloc (by simp)
  free := by
    intro s pfn n _
    refine ⟨?_, fun _ _ _ _ => rfl, fun _ => ⟨id, rfl⟩⟩
    ext r
    simp [bumpGranted, bumpPages, BumpPages.release]
  setPage := by
    intro s i p _
    refine ⟨rfl, fun j => ?_⟩
    show Function.update s.page i p j = _
    by_cases hj : j = i
    · rw [hj, Function.update_self, if_pos rfl]
    · rw [Function.update_of_ne hj, if_neg hj]
      rfl

end GeekToyOS
