import GeekToyOS.Arch.PageRegion

/-!
# Entries of the top level that repeat each other

The page tables of `boot.S` are no tree: entries 0 and 256 of the top level refer to the same directory. What
a call of `arch_map_region` does to such tables it does through one of the entries, and what it installs
depends on the entry and not on its place.

## Main definitions

* `LinkedTables` — the tables are a tree but for entries of the top level that repeat others
* `slotAddr` — the address that differs in its slot of the top level

## Main results

* `mapPage_congr` — equal entries lead to the same page
* `LinkedTables.mapPage`, `LinkedTables.installAll` — installing pages keeps the tables linked
* `LinkedTables.hwWalk_eq` — the processor ends its walk where the search ends
-/

namespace GeekToyOS

variable {π : Type*} {P : TablePages π} {held : π → Set ℕ} {S : Set (Fin 512)} {m m' : Paging π}
  {pgd r v a b va : ℕ}

/-- **The tables are a tree but for entries of the top level that repeat others**: those of the slots in `S`
are the roots of a tree, and each of the others is equal to one of them. -/
structure LinkedTables (held : π → Set ℕ) (S : Set (Fin 512)) (m : Paging π) (pgd : ℕ) : Prop where
  owns : (pageShape S).Owns (m.store held) 3 pgd
  top : ∀ i, ¬ Large (m.entry pgd i)
  shared : ∀ i ∉ S, Present (m.entry pgd i) ∧ ∃ j ∈ S, m.entry pgd j = m.entry pgd i

/-- A page table that is a tree is linked: it refers to no table twice. -/
theorem WellFormed.linked (h : WellFormed held m pgd) : LinkedTables held Set.univ m pgd :=
  ⟨h.owns, h.top, fun _ hi => absurd (Set.mem_univ _) hi⟩

/-! ### Through either entry -/

/-- A walk that is not asked for an address depends on the slots only. -/
theorem walkDir_congr {flag shift large level : ℕ} {next : Paging π → ℕ → Option (Walk π)}
    (h : pdIndexer shift a = pdIndexer shift b) :
    walkDir P a none flag shift large level next = walkDir P b none flag shift large level next := by
  funext m t
  rw [walkDir, walkDir, h]
  rfl

theorem walkPud_congr {flag : ℕ} (h : ∀ k < 3, pdIndexer (levelShift k) a = pdIndexer (levelShift k) b) :
    walkPud P a none flag = walkPud P b none flag := by
  have hpt : walkPt (π := π) a none = walkPt b none := by
    funext m t
    have hidx : ptx a = ptx b := h 0 (by norm_num)
    rw [walkPt, walkPt, hidx]
    rfl
  have hpd : walkPd P a none flag = walkPd P b none flag := by
    rw [walkPd, walkPd, hpt]
    exact walkDir_congr (h 1 (by norm_num))
  rw [walkPud, walkPud, hpd]
  exact walkDir_congr (h 2 (by norm_num))

/-- **Equal entries lead to the same page**: two addresses with the same indices below the top level, and
equal entries there, are mapped alike. -/
theorem mapPage_congr (h : ∀ k < 3, pdIndexer (levelShift k) a = pdIndexer (levelShift k) b)
    (he : m.entry pgd (pgx b) = m.entry pgd (pgx a)) (hp : Present (m.entry pgd (pgx a))) :
    mapPage P pgd r a v m = mapPage P pgd r b v m := by
  have hp' : Present (m.entry pgd (pgx b)) := he ▸ hp
  rw [mapPage, mapPage, pgdirWalk, pgdirWalk, if_neg (not_not.mpr hp), if_neg (not_not.mpr hp'), he,
    walkPud_congr h]

/-- The address with the slot `j` at the top level, and the slots of `va` below. -/
def slotAddr (j : Fin 512) (va : ℕ) : ℕ := j * 2 ^ 39 + va % 2 ^ 39

theorem pgx_slotAddr (j : Fin 512) (va : ℕ) : pgx (slotAddr j va) = j := by
  have hj := j.isLt
  refine Fin.ext ?_
  rw [pgx, pdIndexer_val, slotAddr, pgxShift]
  omega

theorem pdIndexer_slotAddr (j : Fin 512) (va : ℕ) :
    ∀ k < 3, pdIndexer (levelShift k) va = pdIndexer (levelShift k) (slotAddr j va) := by
  intro k hk
  refine Fin.ext ?_
  rw [pdIndexer_val, pdIndexer_val, slotAddr]
  interval_cases k <;> simp only [levelShift] <;> omega

/-! ### Installing pages -/

theorem LinkedTables.of_mapped (hl : LinkedTables held S m pgd) (hm : Mapped held S r v va m m' 3 pgd)
    (htop : ∀ j, TopKept (m.entry pgd j) (m'.entry pgd j)) :
    LinkedTables held S m' pgd ∧ m'.kernelPgd = m.kernelPgd := by
  -- an entry that is present is kept
  have hkept : ∀ j, Present (m.entry pgd j) → m'.entry pgd j = m.entry pgd j := fun j hp =>
    (htop j).resolve_right fun h => h.1 hp
  refine ⟨⟨hm.edit.owns, fun i => ?_, fun i hi => ?_⟩, hm.kernelPgd⟩
  · rcases htop i with h | h
    · rw [h]
      exact hl.top i
    · exact h.2.2
  · obtain ⟨hp, j, hj, he⟩ := hl.shared i hi
    rw [hkept i hp]
    exact ⟨hp, j, hj, (hkept j (he ▸ hp)).trans he⟩

/-- **Installing a page keeps the tables linked**, through whatever entry it goes. -/
theorem LinkedTables.mapPage (hP : TablePageLaws P held) (hv : LeafFor r v)
    (hl : LinkedTables held S m pgd) (h : mapPage P pgd r va v m = some m') :
    LinkedTables held S m' pgd ∧ m'.kernelPgd = m.kernelPgd := by
  by_cases hi : pgx va ∈ S
  · obtain ⟨hm, htop⟩ := mapPage_mapped hP hv hl.owns hi h
    exact hl.of_mapped hm htop
  · obtain ⟨hp, j, hj, he⟩ := hl.shared _ hi
    rw [mapPage_congr (pdIndexer_slotAddr j va) (by rw [pgx_slotAddr, he]) hp] at h
    obtain ⟨hm, htop⟩ := mapPage_mapped hP hv hl.owns (by rwa [pgx_slotAddr]) h
    exact hl.of_mapped hm htop

theorem LinkedTables.installAll {qs : List PageRequest} (hP : TablePageLaws P held)
    (hqs : ∀ q ∈ qs, LeafFor q.level q.value) (hl : LinkedTables held S m pgd)
    (h : installAll P pgd qs m = some m') : LinkedTables held S m' pgd ∧ m'.kernelPgd = m.kernelPgd := by
  refine installAll_induct (Q := fun m₁ => LinkedTables held S m₁ pgd ∧ m₁.kernelPgd = m.kernelPgd)
    (fun q hq m₁ m₂ h₁ h₂ => ?_) ⟨hl, rfl⟩ h
  obtain ⟨hl₂, hpgd⟩ := h₁.1.mapPage hP (hqs q hq) h₂
  exact ⟨hl₂, hpgd.trans h₁.2⟩

/-! ### The walk of the processor -/

/-- **The processor ends its walk where the search ends**, if the entry it finds there is present. -/
theorem LinkedTables.hwWalk_eq (hl : LinkedTables held S m pgd) (hP : TablePageLaws P held) (va : ℕ) :
    hwWalk m.entry 3 pgd va =
      if Present (walkEnd m pgd va).2 then some (walkEnd m pgd va) else none := by
  have hidx : pdIndexer (levelShift (2 + 1)) va = pgx va := rfl
  rw [hwWalk, hidx, walkEnd]
  set e := m.entry pgd (pgx va) with hedef
  by_cases hp : Present e
  · obtain ⟨j, hj, he⟩ : ∃ j ∈ S, m.entry pgd j = e := by
      by_cases hi : pgx va ∈ S
      · exact ⟨_, hi, rfl⟩
      · exact (hl.shared _ hi).2
    have hc : (pageShape S).child (2 + 1) e = some (ptaddr e) := child_of_table (by norm_num) hp (Or.inl rfl)
    have hsub : (pageShape S).tables m.entry 2 (ptaddr e) ⊆ (pageShape S).tables m.entry 3 pgd := by
      rw [← Radix.Shape.below_of_child hc, ← he]
      exact Radix.Shape.below_subset hj
    have hlt : ∀ p ∈ (pageShape S).tables m.entry 2 (ptaddr e), p < 2 ^ 52 := fun p hp =>
      (hP.held_page (hl.owns.sub (hsub hp))).2
    have hfind : (pageShape Set.univ).find m.entry 3 pgd va =
        (pageShape Set.univ).find m.entry 2 (ptaddr e) va :=
      Radix.Shape.find_of_child (child_of_table (by norm_num) hp (Or.inl rfl))
    rw [if_neg (not_not.mpr hp), if_neg (hl.top _), hwTable_eq (hlt _ Radix.Shape.self_mem_tables), hfind,
      GeekToyOS.hwWalk_eq (S := S) (by norm_num) (fun j hj => mem_slots (by omega) _) hlt (by omega),
      find_slots]
  · have hfind : (pageShape Set.univ).find m.entry 3 pgd va = (3, e) :=
      Radix.Shape.find_of_none (child_of_not_present hp)
    rw [if_pos hp, hfind, if_neg hp]

theorem LinkedTables.translate_eq (hl : LinkedTables held S m pgd) (hP : TablePageLaws P held) (va : ℕ) :
    translate m pgd va = if Canonical va ∧ Present (walkEnd m pgd va).2 then
      some (leafTranslation va (walkEnd m pgd va)) else none := by
  rw [translate, hl.hwWalk_eq hP]
  by_cases hc : Canonical va <;> by_cases hp : Present (walkEnd m pgd va).2 <;> simp [hc, hp]

end GeekToyOS
