import GeekToyOS.Arch.PageFrame

/-!
# The direct map after `arch_smp_init`

The boot page tables of `boot.S` map the first GiB twice: entries 0 and 256 of the top level refer to the
same page-upper directory. `arch_smp_init` maps the trampoline at `MP_BASE`, in the low half, and removes
that mapping again before `arch_clear_low_page` drops entry 0. The tables below are shared, so what it
removes is also the page at `KERN_BASE + MP_BASE`.

The tables are no tree, but they are one without entry 0 (`UpperTables`). As long as the two entries are
equal (`SharedTop`), a page that is installed in the low half is the page that would be installed at
`upperAlias` of its address. So every call is one for addresses of the upper half.

## Main definitions

* `bootTables`, `KernelMap` — the tables of `boot.S`, and the calls that extend them
* `UpperTables`, `SharedTop` — the invariant
* `InTrampoline` — the direct map of the trampoline's pages
* `KeepsDirectMap` — what is mapped from `KERN_BASE` on is mapped as before

## Main results

* `SharedTop.mapPage` — installing a page, through either entry
* `smpKeeps_iff` — what `arch_smp_init` leaves of the direct map
-/

namespace GeekToyOS

variable {π : Type*} {P : TablePages π} {held : π → Set ℕ} {m m' : Paging π} {page1GB : Bool}
  {pgd a va : ℕ}

/-! ### The tables at boot -/

/-- What `boot.S` writes into the pages `pgd`, `pud` and `pmd`. -/
def bootEntry (mem : ℕ → Fin 512 → ℕ) (pgd pud pmd t : ℕ) (i : Fin 512) : ℕ :=
  if t = pgd then if i.val = 0 ∨ i.val = 256 then pud ||| (pteP ||| pteW) else 0
  else if t = pud then if i.val = 0 then pmd ||| (pteP ||| pteW) else 0
  else if t = pmd then i.val <<< 21 ||| (pteP ||| pteW ||| ptePS)
  else mem t i

/-- The tables that the kernel starts with. -/
def bootTables (mem : ℕ → Fin 512 → ℕ) (pgd pud pmd : ℕ) (pages : π) : Paging π :=
  ⟨bootEntry mem pgd pud pmd, pgd, pages⟩

/-- The three pages are different, and in use. -/
structure BootPages (held : π → Set ℕ) (pages : π) (pgd pud pmd : ℕ) : Prop where
  pgd_held : pgd ∈ held pages
  pud_held : pud ∈ held pages
  pmd_held : pmd ∈ held pages
  pgd_ne_pud : pgd ≠ pud
  pgd_ne_pmd : pgd ≠ pmd
  pud_ne_pmd : pud ≠ pmd

/-- A call that extends the tables. -/
inductive KernelMap
  /-- `arch_map_kernel_page(maxPhyAddr)` -/
  | kernelPage (maxPhyAddr : ℕ)
  /-- `arch_kmap(phy, sz)` -/
  | kmap (phy sz : ℕ)

variable (P page1GB) in
/-- The tables after the call. -/
def kernelMap (m : Paging π) : KernelMap → Option (Paging π)
  | .kernelPage maxPhyAddr => archMapKernelPage P page1GB maxPhyAddr m
  | .kmap phy sz => (archKmap P page1GB phy sz m).map Prod.snd

/-! ### What should hold -/

/-- **What is mapped from `KERN_BASE` on is mapped as before.** -/
def KeepsDirectMap (m m' : Paging π) : Prop :=
  ∀ va, kernBase ≤ va → va < 2 ^ 64 → translate m m.kernelPgd va ≠ none →
    translate m' m.kernelPgd va = translate m m.kernelPgd va

/-- The pages of the trampoline, at their place in the direct map. -/
def InTrampoline (mpSize va : ℕ) : Prop :=
  kernBase + mpBase ≤ va ∧ va < kernBase + mpBase + (mpSize + 4095) / 4096 * 4096

instance {mpSize : ℕ} : Decidable (InTrampoline mpSize va) := inferInstanceAs (Decidable (_ ∧ _))

/-! ### The tables without the lowest entry -/

/-- The slots of the top level but the lowest. -/
def upperSlots : Set (Fin 512) := {i | i.val ≠ 0}

/-- Without the lowest entry the tables form a tree, and its pages are aligned. -/
structure UpperTables (held : π → Set ℕ) (m : Paging π) (pgd : ℕ) : Prop where
  owns : (pageShape upperSlots).Owns (m.store held) 3 pgd
  top : ∀ i, ¬ Large (m.entry pgd i)
  aligned : ∀ a, pgx a ≠ 0 → LeafAligned (walkEnd m pgd a).1 (walkEnd m pgd a).2

/-- The lowest entry refers to the tables of the lowest entry of the upper half. -/
structure SharedTop (held : π → Set ℕ) (m : Paging π) : Prop extends
    UpperTables held m m.kernelPgd where
  shared : m.entry m.kernelPgd 0 = m.entry m.kernelPgd 256
  present : Present (m.entry m.kernelPgd 0)

theorem mem_upperSlots {i : Fin 512} : i ∈ upperSlots ↔ i ≠ 0 :=
  ⟨fun h h0 => h (congrArg Fin.val h0), fun h h0 => h (Fin.ext h0)⟩

/-- The lowest entry is the only one that repeats another. -/
theorem SharedTop.linked (hI : SharedTop held m) : LinkedTables held upperSlots m m.kernelPgd := by
  refine ⟨hI.owns, hI.top, fun i hi => ?_⟩
  obtain rfl : i = 0 := not_not.mp (mt mem_upperSlots.mpr hi)
  exact ⟨hI.present, 256, mem_upperSlots.mpr (by decide), hI.shared.symm⟩

theorem within_upperSlots (ha : pgx a ≠ 0) : (pageShape upperSlots).Within 3 a := by
  intro j _
  by_cases hj : j = 3
  · subst hj
    exact mem_upperSlots.mpr ha
  · exact mem_slots hj _

theorem pgx_ne_zero_of_kernBase (hlo : kernBase ≤ va) (hhi : va < 2 ^ 64) : pgx va ≠ 0 := by
  intro h
  have hval := pdIndexer_val pgxShift va
  rw [show pdIndexer pgxShift va = 0 from h] at hval
  rw [kernBase] at hlo
  simp only [pgxShift, Fin.val_zero] at hval
  omega

theorem UpperTables.translate_eq (hU : UpperTables held m pgd) (hP : TablePageLaws P held)
    (ha : pgx va ≠ 0) : translate m pgd va = if Canonical va ∧ Present (walkEnd m pgd va).2 then
      some (leafTranslation va (walkEnd m pgd va)) else none := by
  have hwalk : hwWalk m.entry 3 pgd va =
      if Present (walkEnd m pgd va).2 then some (walkEnd m pgd va) else none := by
    have h := hwWalk_eq (S := upperSlots) le_rfl (within_upperSlots ha)
      (fun _ hp => (hP.held_page (hU.owns.sub hp)).2) fun _ => hU.top _
    rwa [find_slots (S := upperSlots)] at h
  rw [translate, hwalk]
  by_cases hc : Canonical va <;> by_cases hp : Present (walkEnd m pgd va).2 <;> simp [hc, hp]

/-! ### The other address of a page -/

/-- The address of the upper half that selects the same slots, but for the lowest one of the top level. -/
def upperAlias (va : ℕ) : ℕ := if (pgx va).val = 0 then kernBase + va % 2 ^ 39 else va

theorem upperAlias_of_low (h0 : pgx va = 0) : upperAlias va = kernBase + va % 2 ^ 39 :=
  if_pos (congrArg Fin.val h0)

theorem upperAlias_of_high (h0 : pgx va ≠ 0) : upperAlias va = va := if_neg fun h => h0 (Fin.ext h)

theorem pgx_kernBase_add {x : ℕ} (hx : x < 2 ^ 39) : pgx (kernBase + x) = 256 := by
  refine Fin.ext ?_
  rw [pgx, pdIndexer_val, kernBase, pgxShift]
  change _ = 256
  omega

theorem pgx_upperAlias_ne (va : ℕ) : pgx (upperAlias va) ≠ 0 := by
  rw [upperAlias]
  split
  · rw [pgx_kernBase_add (Nat.mod_lt _ (by norm_num))]
    decide
  · next h => exact fun h0 => h (congrArg Fin.val h0)

theorem pdIndexer_upperAlias {k : ℕ} (hk : k < 3) (va : ℕ) :
    pdIndexer (levelShift k) (upperAlias va) = pdIndexer (levelShift k) va := by
  rw [upperAlias]
  split
  · refine Fin.ext ?_
    rw [pdIndexer_val, pdIndexer_val, kernBase]
    interval_cases k <;> simp only [levelShift] <;> omega
  · rfl

/-- **Through either entry the same slot is found.** -/
theorem SharedTop.mapPage_upperAlias (hI : SharedTop held m) (r va v : ℕ) :
    mapPage P m.kernelPgd r (upperAlias va) v m = mapPage P m.kernelPgd r va v m := by
  by_cases h0 : pgx va = 0
  · have halias : pgx (upperAlias va) = 256 := by
      rw [upperAlias_of_low h0]
      exact pgx_kernBase_add (Nat.mod_lt _ (by norm_num))
    refine mapPage_congr (fun k hk => pdIndexer_upperAlias hk va) ?_ ?_
    · rw [halias, h0, hI.shared]
    · rw [halias, ← hI.shared]
      exact hI.present
  · rw [upperAlias_of_high h0]

/-- **Installing a page**, through either entry of the shared directory, keeps it shared. -/
theorem SharedTop.mapPage {r v : ℕ} (hP : TablePageLaws P held) (hI : SharedTop held m)
    (hv : LeafFor r v) (hal : LeafAligned r v) (h : mapPage P m.kernelPgd r va v m = some m') :
    SharedTop held m' ∧ Mapped held upperSlots r v (upperAlias va) m m' 3 m.kernelPgd := by
  rw [← hI.mapPage_upperAlias] at h
  obtain ⟨hm, htop⟩ := mapPage_mapped hP hv hI.owns (mem_upperSlots.mpr (pgx_upperAlias_ne va)) h
  have hlow : m'.entry m.kernelPgd 0 = m.entry m.kernelPgd 0 :=
    (htop 0).resolve_right fun h => h.1 hI.present
  have hhigh : m'.entry m.kernelPgd 256 = m.entry m.kernelPgd 256 :=
    (htop 256).resolve_right fun h => h.1 (hI.shared ▸ hI.present)
  refine ⟨{ owns := ?_, top := ?_, aligned := ?_, shared := ?_, present := ?_ }, hm⟩
  all_goals rw [hm.kernelPgd]
  · exact hm.edit.owns
  · intro i
    rcases htop i with h | h
    · rw [h]
      exact hI.top i
    · exact h.2.2
  · intro a ha hp
    rw [walkEnd, ← find_slots (S := upperSlots)] at hp ⊢
    rcases hm.hit_or_splits (within_upperSlots ha) with hhit | hsplit
    · rw [hhit] at hp ⊢
      exact leafAligned_slotLevel hal _ hp
    · have hp₀ := (present_of_splits hsplit).mp hp
      have hal₀ := hI.aligned a ha
      rw [find_slots (S := upperSlots)] at hsplit hp₀
      exact (leafTranslation_of_splits hsplit hp₀ (walkEnd_le hp₀) hal₀).2 hp
  · rw [hlow, hhigh, hI.shared]
  · rw [hlow]
    exact hI.present

/-! ### The calls before -/

/-- What a call with present pages keeps: the shared entries, and every page that is present. -/
structure StaysPresent (held : π → Set ℕ) (m m' : Paging π) : Prop where
  shared : SharedTop held m'
  kernelPgd : m'.kernelPgd = m.kernelPgd
  present : ∀ a, pgx a ≠ 0 → Present (walkEnd m m.kernelPgd a).2 → Present (walkEnd m' m.kernelPgd a).2

theorem StaysPresent.refl (hI : SharedTop held m) : StaysPresent held m m := ⟨hI, rfl, fun _ _ h => h⟩

theorem StaysPresent.trans {m₁ : Paging π} (h : StaysPresent held m m₁)
    (h' : StaysPresent held m₁ m') : StaysPresent held m m' := by
  refine ⟨h'.shared, h'.kernelPgd.trans h.kernelPgd, fun a ha hp => ?_⟩
  have := h'.present a ha
  rw [h.kernelPgd] at this
  exact this (h.present a ha hp)

/-- A call that moves pages by multiples of 1 GiB and makes them present. -/
theorem SharedTop.archMapRegion {vaddr paddr size permFlag : ℕ} (hP : TablePageLaws P held)
    (hI : SharedTop held m) (hdelta : 2 ^ 30 ∣ wsub vaddr paddr)
    (hperm : Present (regionPerm permFlag))
    (h : archMapRegion P page1GB none vaddr paddr size permFlag m = some m') :
    StaysPresent held m m' := by
  rw [archMapRegion_eq] at h
  refine installAll_induct (Q := StaysPresent held m) (fun q hq m₁ m₂ h₁ h₂ => ?_) (.refl hI) h
  have hfit := fitting_of_mem hq
  have hdvd : 2 ^ levelShift q.level ∣ wsub vaddr paddr :=
    (two_pow_levelShift_dvd hfit.level_le).trans hdelta
  obtain ⟨hpa, hal⟩ := hfit.leafAligned hdvd (regionPerm_lt _)
  have hpgd : m₁.kernelPgd = m.kernelPgd := h₁.kernelPgd
  rw [Option.getD_none, ← hpgd] at h₂
  obtain ⟨hI₂, hm⟩ := h₁.shared.mapPage hP hfit.leafFor hal h₂
  refine h₁.trans ⟨hI₂, hm.kernelPgd, fun a ha hp => ?_⟩
  rw [walkEnd, ← find_slots (S := upperSlots)] at hp ⊢
  rcases hm.hit_or_splits (within_upperSlots ha) with hhit | hsplit
  · rw [hhit, hfit.value]
    have h4096 := (two_pow_levelShift_dvd (Nat.zero_le q.level)).trans hpa
    exact (present_leafValue h4096).mpr hperm
  · exact (present_of_splits hsplit).mpr hp

theorem wsub_kaddr {phy : ℕ} (h : phy < 2 ^ 64) : wsub (kaddr phy) phy = kernBase := by
  rw [kaddr, wadd, wsub, kernBase]
  omega

theorem SharedTop.kernelMap {c : KernelMap} (hP : TablePageLaws P held) (hI : SharedTop held m)
    (h : kernelMap P page1GB m c = some m') : StaysPresent held m m' := by
  have hdvd : 2 ^ 30 ∣ kernBase := by decide
  have hperm : Present (regionPerm (pteW ||| pteG)) := by decide
  cases c with
  | kernelPage maxPhyAddr =>
    rw [GeekToyOS.kernelMap, archMapKernelPage] at h
    split at h
    · obtain rfl := Option.some.inj h
      exact .refl hI
    · refine hI.archMapRegion hP ?_ hperm h
      rwa [wsub_kaddr (by decide)]
  | kmap phy sz =>
    rw [GeekToyOS.kernelMap, archKmap, Option.map_map] at h
    obtain ⟨m₁, h₁, rfl⟩ := Option.map_eq_some_iff.mp h
    split at h₁
    · refine hI.archMapRegion hP ?_ hperm h₁
      rwa [wsub_kaddr (by rw [ptaddr_eq]; omega)]
    · obtain rfl := Option.some.inj h₁
      exact .refl hI

/-- **A sequence of calls** keeps the directory shared, and what is mapped stays mapped. -/
theorem SharedTop.kernelMaps {calls : List KernelMap} (hP : TablePageLaws P held)
    (hI : SharedTop held m) (h : calls.foldlM (GeekToyOS.kernelMap P page1GB) m = some m') :
    StaysPresent held m m' := by
  induction calls generalizing m with
  | nil =>
    obtain rfl := Option.some.inj h
    exact .refl hI
  | cons c calls ih =>
    rw [List.foldlM_cons] at h
    obtain ⟨m₁, h₁, h₂⟩ := Option.bind_eq_some_iff.mp h
    have hc := hI.kernelMap hP h₁
    exact hc.trans (ih hc.shared h₂)

/-! ### Pages of the low half -/

theorem canonical_of_kernBase (hlo : kernBase ≤ va) (hhi : va < 2 ^ 64) : Canonical va := by
  rw [kernBase] at hlo
  exact Or.inr ⟨by omega, hhi⟩

theorem upperAlias_of_lt {x : ℕ} (hx : x < 2 ^ 39) : upperAlias x = kernBase + x := by
  have h0 : pgx x = 0 := by
    refine Fin.ext ?_
    rw [pgx, pdIndexer_val, pgxShift]
    change _ = 0
    omega
  rw [upperAlias_of_low h0, Nat.mod_eq_of_lt hx]

section Low

variable {x v : ℕ} (hx : x < 2 ^ 39) (hdvd : 4096 ∣ x) (hlo : kernBase ≤ a) (hhi : a < 2 ^ 64)
  (hm : Mapped held upperSlots 0 v (upperAlias x) m m' 3 pgd)

include hx hdvd hlo hhi hm

/-- A 4 KiB page installed in the low half is one at its place in the direct map. -/
theorem Mapped.low_hit (hin : kernBase + x ≤ a ∧ a < kernBase + x + 4096) :
    walkEnd m' pgd a = (0, v) := by
  have hdiv : a / 2 ^ levelShift 0 = upperAlias x / 2 ^ levelShift 0 := by
    rw [upperAlias_of_lt hx]
    simp only [levelShift, kernBase] at *
    omega
  have hslot : slotLevel 0 3 ((pageShape upperSlots).find m.entry 3 pgd (upperAlias x)) = 0 := by
    rw [slotLevel]
    split <;> rfl
  have hhit := hm.hit a (within_upperSlots (pgx_ne_zero_of_kernBase hlo hhi)) fun j _ _ =>
    pdIndexer_eq_of_div (Nat.zero_le j) hdiv
  rwa [hslot, find_slots (S := upperSlots)] at hhit

/-- An address outside of the page finds what it found before, at most taken apart. -/
theorem Mapped.low_miss (hout : ¬ (kernBase + x ≤ a ∧ a < kernBase + x + 4096)) :
    (pageShape upperSlots).Splits pagePart a (walkEnd m pgd a) (walkEnd m' pgd a) := by
  have hdiv : a / 2 ^ levelShift 0 ≠ upperAlias x / 2 ^ levelShift 0 := by
    rw [upperAlias_of_lt hx]
    simp only [levelShift, kernBase] at *
    omega
  have hslot : slotLevel 0 3 ((pageShape upperSlots).find m.entry 3 pgd (upperAlias x)) = 0 := by
    rw [slotLevel]
    split <;> rfl
  have hcanon : Canonical (upperAlias x) := by
    rw [upperAlias_of_lt hx]
    exact canonical_of_kernBase (Nat.le_add_right _ _) (by rw [kernBase]; omega)
  obtain ⟨j, -, hj, hne⟩ :=
    exists_pdIndexer_ne (by norm_num) (canonical_of_kernBase hlo hhi) hcanon hdiv
  have hmiss := (hm.miss a (within_upperSlots (pgx_ne_zero_of_kernBase hlo hhi)) j (by omega) hj hne).1
  rwa [find_slots (S := upperSlots), find_slots (S := upperSlots)] at hmiss

end Low

/-- A 4 KiB page of the low half. -/
structure LowPage (q : PageRequest) : Prop where
  level : q.level = 0
  lt : q.vaddr < 2 ^ 39
  dvd : 4096 ∣ q.vaddr

theorem LowPage.covers_iff {q : PageRequest} (hq : LowPage q) (hlo : kernBase ≤ a) :
    q.Covers (a - kernBase) ↔ kernBase + q.vaddr ≤ a ∧ a < kernBase + q.vaddr + 4096 := by
  rw [PageRequest.Covers, PageRequest.size, hq.level]
  simp only [levelShift]
  omega

theorem LowPage.mapPage {q : PageRequest} (hq : LowPage q) (hP : TablePageLaws P held)
    (hI : SharedTop held m) (h : mapPage P m.kernelPgd q.level q.vaddr q.value m = some m') :
    SharedTop held m' ∧ Mapped held upperSlots 0 q.value (upperAlias q.vaddr) m m' 3 m.kernelPgd := by
  rw [hq.level] at h
  exact hI.mapPage hP ⟨by norm_num, fun h => absurd rfl h⟩ (leafAligned_zero _) h

/-- **What pages of the low half do to the direct map**: where none of them lies, nothing but that larger
pages are taken apart; where one does and all entries are absent, there is nothing left. -/
theorem SharedTop.installLow {qs : List PageRequest} (hP : TablePageLaws P held)
    (hI : SharedTop held m) (hqs : ∀ q ∈ qs, LowPage q)
    (h : installAll P m.kernelPgd qs m = some m') :
    SharedTop held m' ∧ m'.kernelPgd = m.kernelPgd ∧ ∀ a, kernBase ≤ a → a < 2 ^ 64 →
      ((∀ q ∈ qs, ¬ q.Covers (a - kernBase)) → (pageShape upperSlots).Splits pagePart a
        (walkEnd m m.kernelPgd a) (walkEnd m' m.kernelPgd a)) ∧
      ((∀ q ∈ qs, ¬ Present q.value) →
        (¬ Present (walkEnd m m.kernelPgd a).2 ∨ ∃ q ∈ qs, q.Covers (a - kernBase)) →
        ¬ Present (walkEnd m' m.kernelPgd a).2) := by
  induction qs generalizing m with
  | nil =>
    obtain rfl := Option.some.inj h
    refine ⟨hI, rfl, fun a _ _ => ⟨fun _ => .refl _, fun _ habsent => habsent.resolve_right ?_⟩⟩
    rintro ⟨q, hq, -⟩
    cases hq
  | cons q qs ih =>
    obtain ⟨m₁, h₁, h₂⟩ := Option.bind_eq_some_iff.mp h
    have hq := hqs q List.mem_cons_self
    obtain ⟨hI₁, hm⟩ := hq.mapPage hP hI h₁
    have hpgd := hm.kernelPgd
    rw [← hpgd] at h₂
    obtain ⟨hI', hpgd', hrest⟩ := ih hI₁ (fun q hq => hqs q (List.mem_cons_of_mem _ hq)) h₂
    rw [hpgd] at hpgd' hrest
    refine ⟨hI', hpgd', fun a hlo hhi => ⟨fun hout => ?_, fun hvalues habsent => ?_⟩⟩
    · have hfirst := hm.low_miss hq.lt hq.dvd hlo hhi
        (mt (hq.covers_iff hlo).mpr (hout q List.mem_cons_self))
      exact hfirst.trans ((hrest a hlo hhi).1 fun q hq => hout q (List.mem_cons_of_mem _ hq))
    · refine (hrest a hlo hhi).2 (fun q hq => hvalues q (List.mem_cons_of_mem _ hq)) ?_
      by_cases hcov : q.Covers (a - kernBase)
      · left
        rw [hm.low_hit hq.lt hq.dvd hlo hhi ((hq.covers_iff hlo).mp hcov)]
        exact hvalues q List.mem_cons_self
      · rcases habsent with hnone | ⟨q', hq', hcov'⟩
        · left
          exact mt (present_of_splits
            (hm.low_miss hq.lt hq.dvd hlo hhi (mt (hq.covers_iff hlo).mpr hcov))).mp hnone
        · rcases List.mem_cons.mp hq' with rfl | hq'
          · exact absurd hcov' hcov
          · exact Or.inr ⟨q', hq', hcov'⟩

/-! ### `arch_smp_init` -/

/-- The call of `arch_map_region` that `arch_smp_init` makes: its pages are those of the trampoline. -/
theorem trampoline_requests (page1GB : Bool) (paddr permFlag : ℕ) {mpSize : ℕ}
    (hfit : mpBase + mpSize ≤ ptSize) :
    (∀ q ∈ regionRequests page1GB mpBase paddr mpSize permFlag, LowPage q) ∧
      ∀ a, kernBase ≤ a → (InTrampoline mpSize a ↔
        ∃ q ∈ regionRequests page1GB mpBase paddr mpSize permFlag, q.Covers (a - kernBase)) := by
  have hbound : mpSize ≤ 2 ^ 21 - 0x8000 := by
    simp only [mpBase, ptSize, pgSize, npdEntries] at hfit
    omega
  have hend : mpBase + mpSize + 2 ^ 30 ≤ 2 ^ 64 := by
    rw [mpBase]
    omega
  obtain ⟨htiles, hq⟩ := regionRequests_tiles paddr permFlag page1GB hend
  have hstart : regionStart mpBase = 0x8000 := regionStart_eq hend
  have hstop := regionEnd_eq hend
  rw [hstart, hstop, mpBase] at htiles
  refine ⟨fun q hmem => ?_, fun a hlo => ⟨fun hin => ?_, ?_⟩⟩
  · obtain ⟨hfitting, hlarge⟩ := hq q hmem
    have hlt := htiles.within hmem
    have hlevel : q.level = 0 := by
      by_contra hne
      have hdvd : 2 ^ 21 ∣ q.vaddr :=
        (two_pow_levelShift_dvd (j := 1) (Nat.one_le_iff_ne_zero.mpr hne)).trans hfitting.dvd
      have hge : 2 ^ levelShift 1 ≤ q.size :=
        Nat.pow_le_pow_right (by norm_num) (by rw [levelShift, levelShift]; omega)
      have hin := (hlarge hne).2
      simp only [levelShift, mpBase] at hge hin
      omega
    have hpos := q.size_pos
    have hdvd := hfitting.dvd
    rw [hlevel] at hdvd
    exact ⟨hlevel, by omega, hdvd⟩
  · refine htiles.exists_covers (a - kernBase) ?_ ?_
    all_goals
      simp only [InTrampoline, mpBase] at hin
      omega
  · rintro ⟨q, hmem, hcov⟩
    have hlt := htiles.within hmem
    simp only [InTrampoline, PageRequest.Covers, mpBase] at hcov ⊢
    omega

/-- Starting the other processors keeps the pages in use. -/
theorem SharedTop.boot {boot : π → π} (hboot : ∀ s, held s ⊆ held (boot s)) (hI : SharedTop held m) :
    SharedTop held { m with pages := boot m.pages } :=
  { hI with owns := ⟨hI.owns.tree, hI.owns.sub.trans (hboot m.pages)⟩ }

/-- Without the lowest entry the other addresses find what they found. -/
theorem SharedTop.clearLowPage (hI : SharedTop held m) :
    UpperTables held (archClearLowPage m) m.kernelPgd ∧
      ∀ a, pgx a ≠ 0 → walkEnd (archClearLowPage m) m.kernelPgd a = walkEnd m m.kernelPgd a := by
  have hslot : (0 : Fin 512) ∉ (pageShape upperSlots).slots 3 := fun h => h rfl
  have hend : ∀ a, pgx a ≠ 0 →
      walkEnd (archClearLowPage m) m.kernelPgd a = walkEnd m m.kernelPgd a := by
    intro a ha
    have hfind : (pageShape upperSlots).find (Radix.setEntry m.entry m.kernelPgd 0 0) 3 m.kernelPgd a =
        (pageShape upperSlots).find m.entry 3 m.kernelPgd a :=
      Radix.Shape.find_of_write_ne hI.owns (within_upperSlots ha) ha
    rwa [find_slots (S := upperSlots), find_slots (S := upperSlots)] at hfind
  refine ⟨⟨hI.owns.of_write_other hslot, fun i => ?_, fun a ha => ?_⟩, hend⟩
  · change ¬ Large (Radix.setEntry m.entry m.kernelPgd 0 0 m.kernelPgd i)
    by_cases hi : i = 0
    · rw [hi, Radix.setEntry_self]
      decide
    · rw [Radix.setEntry_of_slot_ne hi]
      exact hI.top i
  · rw [hend a ha]
    exact hI.aligned a ha

/-- **Every address of the direct map**: `arch_smp_init` leaves it alone, but for those of the trampoline. -/
theorem SharedTop.smpInit {mpSize : ℕ} {boot : π → π} (hP : TablePageLaws P held)
    (hboot : ∀ s, held s ⊆ held (boot s)) (hfit : mpBase + mpSize ≤ ptSize) (hI : SharedTop held m)
    (h : archSmpInit P page1GB mpSize boot m = some m') (hlo : kernBase ≤ va) (hhi : va < 2 ^ 64) :
    translate m' m.kernelPgd va = if InTrampoline mpSize va then none else translate m m.kernelPgd va := by
  have hne := pgx_ne_zero_of_kernBase hlo hhi
  obtain ⟨m₁, h₁, hrest⟩ := Option.bind_eq_some_iff.mp h
  obtain ⟨m₂, h₂, rfl⟩ := Option.map_eq_some_iff.mp hrest
  rw [archMapRegion_eq, Option.getD_none] at h₁ h₂
  obtain ⟨hlow₁, hcovers₁⟩ := trampoline_requests page1GB mpBase pteW hfit
  obtain ⟨hlow₂, hcovers₂⟩ := trampoline_requests page1GB 0 pgClear hfit
  obtain ⟨hI₁, hpgd₁, heffect₁⟩ := hI.installLow hP hlow₁ h₁
  obtain ⟨hI₂, hpgd₂, heffect₂⟩ := (hI₁.boot hboot).installLow hP hlow₂ h₂
  obtain ⟨hU, hend⟩ := hI₂.clearLowPage
  have hpgd : m₂.kernelPgd = m.kernelPgd := hpgd₂.trans hpgd₁
  rw [hpgd] at hU hend
  rw [hU.translate_eq hP hne, hend va hne, hI.translate_eq hP hne]
  rw [show ({ m₁ with pages := boot m₁.pages } : Paging π).kernelPgd = m.kernelPgd from hpgd₁] at heffect₂
  by_cases hin : InTrampoline mpSize va
  · -- the entry that was written last is absent
    have hvalues : ∀ q ∈ regionRequests page1GB mpBase 0 mpSize pgClear, ¬ Present q.value := by
      intro q hq
      have hpa : 4096 ∣ wsub q.vaddr (wsub mpBase 0) :=
        wsub_dvd (k := 12) (by norm_num) (hlow₂ q hq).dvd (by decide)
      rw [(fitting_of_mem hq).value, present_leafValue hpa]
      decide
    have habsent := (heffect₂ va hlo hhi).2 hvalues (Or.inr ((hcovers₂ va hlo).mp hin))
    rw [if_pos hin, if_neg fun hp => habsent hp.2]
  · have hsplit₁ := (heffect₁ va hlo hhi).1 fun q hq hcov => hin ((hcovers₁ va hlo).mpr ⟨q, hq, hcov⟩)
    have hsplit₂ := (heffect₂ va hlo hhi).1 fun q hq hcov => hin ((hcovers₂ va hlo).mpr ⟨q, hq, hcov⟩)
    have hsplit : (pageShape upperSlots).Splits pagePart va (walkEnd m m.kernelPgd va)
        (walkEnd m₂ m.kernelPgd va) := hsplit₁.trans hsplit₂
    rw [if_neg hin]
    exact translation_of_splits hsplit walkEnd_le (hI.aligned va hne)

/-! ### From boot on -/

section Boot

variable {mem : ℕ → Fin 512 → ℕ} {pud pmd : ℕ} {pages : π}

theorem bootEntry_pgd (i : Fin 512) : bootEntry mem pgd pud pmd pgd i =
    if i = 0 ∨ i = 256 then pud ||| (pteP ||| pteW) else 0 := by
  simp only [Fin.ext_iff]
  exact if_pos rfl

theorem bootEntry_pgd_of_ne {i : Fin 512} (h0 : i ≠ 0) (h256 : i ≠ 256) :
    bootEntry mem pgd pud pmd pgd i = 0 := by
  rw [bootEntry_pgd, if_neg fun h => h.elim h0 h256]

/-- The 2 MiB pages of the boot tables are aligned to their size. -/
theorem leafAligned_boot (i : Fin 512) : LeafAligned 1 (i.val <<< 21 ||| (pteP ||| pteW ||| ptePS)) := by
  intro _
  have hbase : 2 ^ 12 ∣ i.val * 2 ^ 21 := (pow_dvd_pow 2 (by norm_num)).trans (Nat.dvd_mul_left _ _)
  have hor := Bits.or_eq_add_of_low (k := 12) hbase (show pteP ||| pteW ||| ptePS < 2 ^ 12 by decide)
  have hattr : pteP ||| pteW ||| ptePS = 0x83 := by decide
  have hlt := i.isLt
  rw [Nat.shiftLeft_eq, hor, hattr, ptaddr_eq, levelShift]
  generalize i.val = n at hlt
  have hpage : (n * 2 ^ 21 + 0x83) % 2 ^ 64 / 4096 * 4096 = n * 2 ^ 21 := by omega
  rw [hpage]
  exact Nat.dvd_mul_left _ _

section Pages

variable (hpages : BootPages held pages pgd pud pmd)

include hpages

theorem BootPages.entry_pud (i : Fin 512) : bootEntry mem pgd pud pmd pud i =
    if i = 0 then pmd ||| (pteP ||| pteW) else 0 := by
  rw [bootEntry, if_neg hpages.pgd_ne_pud.symm, if_pos rfl]
  simp only [Fin.ext_iff]
  rfl

theorem BootPages.entry_pmd (i : Fin 512) : bootEntry mem pgd pud pmd pmd i =
    i.val <<< 21 ||| (pteP ||| pteW ||| ptePS) := by
  rw [bootEntry, if_neg hpages.pgd_ne_pmd.symm, if_neg hpages.pud_ne_pmd.symm, if_pos rfl]

variable {S : Set (Fin 512)} (hP : TablePageLaws P held)

include hP

theorem BootPages.child_pgd :
    (pageShape S).child 3 (bootEntry mem pgd pud pmd pgd 256) = some pud := by
  obtain ⟨hdvd, hlt⟩ := hP.held_page hpages.pud_held
  rw [bootEntry_pgd, if_pos (Or.inr rfl), child_of_table (by norm_num) (present_link hdvd) (Or.inl rfl),
    ptaddr_link hdvd (hlt.trans (by norm_num))]

theorem BootPages.child_pud :
    (pageShape S).child 2 (bootEntry mem pgd pud pmd pud 0) = some pmd := by
  obtain ⟨hdvd, hlt⟩ := hP.held_page hpages.pmd_held
  rw [hpages.entry_pud, if_pos rfl,
    child_of_table (by norm_num) (present_link hdvd) (Or.inr (not_large_link hdvd)),
    ptaddr_link hdvd (hlt.trans (by norm_num))]

omit hP in
theorem BootPages.child_pud_of_ne {i : Fin 512} (hi : i ≠ 0) :
    (pageShape S).child 2 (bootEntry mem pgd pud pmd pud i) = none := by
  rw [hpages.entry_pud, if_neg hi]
  exact child_of_not_present not_present_zero

omit hP in
theorem BootPages.child_pmd (i : Fin 512) :
    (pageShape S).child 1 (bootEntry mem pgd pud pmd pmd i) = none := by
  refine child_of_large (by norm_num) (large_iff.mpr ?_)
  rw [hpages.entry_pmd, Nat.testBit_or, show (pteP ||| pteW ||| ptePS).testBit 7 = true by decide,
    Bool.or_true]

/-- Where the search for an address of the upper half ends in the boot tables. -/
theorem BootPages.walkEnd (ha : pgx a ≠ 0) : walkEnd (bootTables mem pgd pud pmd pages) pgd a =
    if pgx a = 256 then
      if pux a = 0 then (1, (pdx a).val <<< 21 ||| (pteP ||| pteW ||| ptePS)) else (2, 0)
    else (3, 0) := by
  rw [GeekToyOS.walkEnd, bootTables]
  dsimp only
  by_cases h256 : pgx a = 256
  · have hpgd : (pageShape Set.univ).child 3 (bootEntry mem pgd pud pmd pgd (pgx a)) = some pud :=
      h256 ▸ hpages.child_pgd hP
    rw [if_pos h256, Radix.Shape.find_of_child hpgd]
    by_cases h0 : pux a = 0
    · have hpud : (pageShape Set.univ).child 2 (bootEntry mem pgd pud pmd pud (pux a)) = some pmd :=
        h0 ▸ hpages.child_pud hP
      rw [if_pos h0, Radix.Shape.find_of_child hpud,
        Radix.Shape.find_of_none (hpages.child_pmd _), hpages.entry_pmd]
      rfl
    · have hpud : (pageShape Set.univ).child 2 (bootEntry mem pgd pud pmd pud (pux a)) = none :=
        hpages.child_pud_of_ne h0
      rw [if_neg h0, Radix.Shape.find_of_none hpud, hpages.entry_pud]
      exact congrArg _ (if_neg h0)
  · have hzero : bootEntry mem pgd pud pmd pgd (pgx a) = 0 := bootEntry_pgd_of_ne ha h256
    have hpgd : (pageShape Set.univ).child 3 (bootEntry mem pgd pud pmd pgd (pgx a)) = none := by
      rw [hzero]
      exact child_of_not_present not_present_zero
    rw [if_neg h256, Radix.Shape.find_of_none hpgd]
    exact congrArg _ hzero

theorem BootPages.owns :
    (pageShape upperSlots).Owns ((bootTables mem pgd pud pmd pages).store held) 3 pgd := by
  have hpmd : (pageShape upperSlots).Owns ((bootTables mem pgd pud pmd pages).store held) 1 pmd :=
    .of_leaf hpages.pmd_held fun i _ => hpages.child_pmd i
  have hpmd' : (pageShape upperSlots).tables (bootEntry mem pgd pud pmd) 1 pmd = {pmd} :=
    Radix.Shape.tables_of_leaf fun i _ => hpages.child_pmd i
  have hslot : (0 : Fin 512) ∈ (pageShape upperSlots).slots 2 := mem_slots (by norm_num) _
  have hpud : (pageShape upperSlots).Owns ((bootTables mem pgd pud pmd pages).store held) 2 pud := by
    refine .of_single hslot (hpages.child_pud hP) (fun j _ hj => hpages.child_pud_of_ne hj) hpmd
      hpages.pud_held fun h => hpages.pud_ne_pmd ?_
    rw [show ((bootTables mem pgd pud pmd pages).store held).mem = bootEntry mem pgd pud pmd from rfl,
      hpmd'] at h
    exact h
  have hpud' : (pageShape upperSlots).tables (bootEntry mem pgd pud pmd) 2 pud = {pud, pmd} := by
    rw [Radix.Shape.tables_of_single hslot (hpages.child_pud hP) fun j _ hj => hpages.child_pud_of_ne hj,
      hpmd']
  refine .of_single (i := 256) (mem_upperSlots.mpr (by decide)) (hpages.child_pgd hP)
    (fun j hj hne => child_of_not_present ?_) hpud hpages.pgd_held fun h => ?_
  · rw [show ((bootTables mem pgd pud pmd pages).store held).mem pgd j = _ from
      bootEntry_pgd_of_ne (mem_upperSlots.mp hj) hne]
    exact not_present_zero
  · rw [show ((bootTables mem pgd pud pmd pages).store held).mem = bootEntry mem pgd pud pmd from rfl,
      hpud'] at h
    exact h.elim hpages.pgd_ne_pud hpages.pgd_ne_pmd

/-- **The boot tables share their entries**: slots 0 and 256 refer to the same tables. -/
theorem BootPages.sharedTop : SharedTop held (bootTables mem pgd pud pmd pages) := by
  obtain ⟨hdvd, -⟩ := hP.held_page hpages.pud_held
  refine {
    owns := hpages.owns hP
    top := fun i => ?_
    aligned := fun a ha hp => ?_
    shared := ?_
    present := ?_ }
  · change ¬ Large (bootEntry mem pgd pud pmd pgd i)
    rw [bootEntry_pgd]
    split
    · exact not_large_link hdvd
    · decide
  · change Present (GeekToyOS.walkEnd (bootTables mem pgd pud pmd pages) pgd a).2 at hp
    change 2 ^ levelShift (GeekToyOS.walkEnd (bootTables mem pgd pud pmd pages) pgd a).1 ∣
      ptaddr (GeekToyOS.walkEnd (bootTables mem pgd pud pmd pages) pgd a).2
    rw [hpages.walkEnd hP ha] at hp ⊢
    split at hp
    · split at hp
      · next h256 h0 =>
        rw [if_pos h256, if_pos h0]
        exact leafAligned_boot (pdx a) hp
      · exact absurd hp not_present_zero
    · exact absurd hp not_present_zero
  · change bootEntry mem pgd pud pmd pgd 0 = bootEntry mem pgd pud pmd pgd 256
    rw [bootEntry_pgd, bootEntry_pgd, if_pos (Or.inl rfl), if_pos (Or.inr rfl)]
  · change Present (bootEntry mem pgd pud pmd pgd 0)
    rw [bootEntry_pgd, if_pos (Or.inl rfl)]
    exact present_link hdvd

/-- The page of the trampoline is mapped by the boot tables. -/
theorem BootPages.present_trampoline :
    Present (GeekToyOS.walkEnd (bootTables mem pgd pud pmd pages) pgd (kernBase + mpBase)).2 := by
  have hpgx : pgx (kernBase + mpBase) = 256 := pgx_kernBase_add (by decide)
  have hpux : pux (kernBase + mpBase) = 0 := by
    refine Fin.ext ?_
    rw [pux, pdIndexer_val, kernBase, mpBase, puxShift]
    rfl
  rw [hpages.walkEnd hP (by rw [hpgx]; decide), if_pos hpgx, if_pos hpux, present_iff, Nat.testBit_or,
    show (pteP ||| pteW ||| ptePS).testBit 0 = true by decide, Bool.or_true]

end Pages

/-- **What `arch_smp_init` leaves of the direct map**: all of it but the pages of the trampoline. They are
always mapped before, so it never leaves the whole. -/
theorem smpKeeps_iff {mpSize : ℕ} {boot : π → π} {calls : List KernelMap} (hP : TablePageLaws P held)
    (hpages : BootPages held pages pgd pud pmd) (hboot : ∀ s, held s ⊆ held (boot s))
    (hsize : 0 < mpSize) (hfit : mpBase + mpSize ≤ ptSize)
    (hrun : calls.foldlM (kernelMap P page1GB) (bootTables mem pgd pud pmd pages) = some m)
    (h : archSmpInit P page1GB mpSize boot m = some m') :
    ¬ KeepsDirectMap m m' ∧ ∀ va, kernBase ≤ va → va < 2 ^ 64 → translate m m.kernelPgd va ≠ none →
      (translate m' m.kernelPgd va = translate m m.kernelPgd va ↔ ¬ InTrampoline mpSize va) := by
  have hstays := (hpages.sharedTop hP).kernelMaps hP hrun
  have hsmp : ∀ va, kernBase ≤ va → va < 2 ^ 64 → translate m' m.kernelPgd va =
      if InTrampoline mpSize va then none else translate m m.kernelPgd va :=
    fun va hlo hhi => hstays.shared.smpInit hP hboot hfit h hlo hhi
  have hlo : kernBase ≤ kernBase + mpBase := Nat.le_add_right _ _
  have hhi : kernBase + mpBase < 2 ^ 64 := by decide
  have hne := pgx_ne_zero_of_kernBase hlo hhi
  have hmapped : translate m m.kernelPgd (kernBase + mpBase) ≠ none := by
    have hp := hstays.present _ hne (hpages.present_trampoline hP)
    rw [← hstays.kernelPgd] at hp
    rw [hstays.shared.translate_eq hP hne, if_pos ⟨canonical_of_kernBase hlo hhi, hp⟩]
    exact Option.some_ne_none _
  refine ⟨fun hkeeps => hmapped ?_, fun va hlo hhi hva => ?_⟩
  · rw [← hkeeps _ hlo hhi hmapped, hsmp _ hlo hhi]
    exact if_pos ⟨le_rfl, by omega⟩
  · rw [hsmp va hlo hhi]
    split
    · next hin => exact iff_of_false (Ne.symm hva) (not_not.mpr hin)
    · next hout => exact iff_of_true rfl hout

end Boot

/-! ### Runs -/

/-- The boot tables in pages 1 to 3. -/
def lowBootTables : Paging (List ℕ) := bootTables (fun _ _ => 0) 0x1000 0x2000 0x3000 [1, 2, 3]

theorem lowBootTables_pages : BootPages listHeld [1, 2, 3] 0x1000 0x2000 0x3000 where
  pgd_held := ⟨1, by decide, by norm_num, by norm_num⟩
  pud_held := ⟨2, by decide, by norm_num, by norm_num⟩
  pmd_held := ⟨3, by decide, by norm_num, by norm_num⟩
  pgd_ne_pud := by norm_num
  pgd_ne_pmd := by norm_num
  pud_ne_pmd := by norm_num

/-- The trampoline is mapped through the lowest entry, while that still repeats the one at `KERN_BASE`. -/
theorem softwareMatches_iff_boot :
    ∃ l t, Trace.Run (MapStep listPages true 0x1000) lowBootTables l ∧ t ∈ Trace.states lowBootTables l ∧
      checkPgtable listPages t 0x8123 = 0x8123 ∧ SoftwareMatches listPages t 0x8123 := by
  have hexec : (Trace.exec (mapCall listPages true 0x1000) lowBootTables [lowPage]).any fun l =>
      (Trace.states lowBootTables l).any fun t => checkPgtable listPages t 0x8123 == 0x8123 &&
        decide (EndsWell 0x8123 (walkEnd t t.kernelPgd 0x8123)) := by
    decide +kernel
  obtain ⟨l, hl, hany⟩ := (Option.any_eq_true _ _).mp hexec
  obtain ⟨t, ht, hok⟩ := List.any_eq_true.mp hany
  rw [Bool.and_eq_true, beq_iff_eq, decide_eq_true_eq] at hok
  have hrun : Trace.Run (MapStep listPages true 0x1000) lowBootTables l := Trace.run_of_exec hl
  have hlinked : LinkedTables listHeld upperSlots lowBootTables 0x1000 :=
    (lowBootTables_pages.sharedTop listPages_laws).linked
  exact ⟨l, t, hrun, ht, hok.1,
    (softwareMatches_iff listPages_laws hlinked hrun t ht 0x8123).mpr hok.2⟩

/-- With 2 GiB of memory and a local APIC, the page behind the trampoline is kept. -/
theorem smpKeeps_iff_apic : ∃ m m',
    [KernelMap.kernelPage 0x80000000, .kmap 0xFEE00000 0x1000].foldlM (kernelMap listPages true)
      lowBootTables = some m ∧
    archSmpInit listPages true 0x100 id m = some m' ∧ ¬ KeepsDirectMap m m' ∧
    translate m' m.kernelPgd (kernBase + 0x9123) = translate m m.kernelPgd (kernBase + 0x9123) := by
  have hexec : ([KernelMap.kernelPage 0x80000000, .kmap 0xFEE00000 0x1000].foldlM
      (kernelMap listPages true) lowBootTables).any fun m =>
        (archSmpInit listPages true 0x100 id m).isSome &&
          decide (translate m m.kernelPgd (kernBase + 0x9123) ≠ none) := by
    decide +kernel
  obtain ⟨m, hm, hok⟩ := (Option.any_eq_true _ _).mp hexec
  rw [Bool.and_eq_true, decide_eq_true_eq] at hok
  obtain ⟨m', hm'⟩ := Option.isSome_iff_exists.mp hok.1
  obtain ⟨hlost, hiff⟩ := smpKeeps_iff listPages_laws lowBootTables_pages (fun _ => subset_rfl)
    (by decide) (by decide) hm hm'
  exact ⟨m, m', hm, hm', hlost, (hiff _ (by decide) (by decide) hok.2).mpr (by decide)⟩

/-- **`arch_smp_init` right after boot**: the address `KERN_BASE + 0x8000` loses its mapping. -/
theorem not_keepsDirectMap_boot : ¬ ∀ m', archSmpInit listPages true 0x100 id lowBootTables = some m' →
    KeepsDirectMap lowBootTables m' := by
  intro hall
  have hexec : (archSmpInit listPages true 0x100 id lowBootTables).any fun m' =>
      decide (translate lowBootTables 0x1000 (kernBase + 0x8000) ≠ none ∧
        translate m' 0x1000 (kernBase + 0x8000) = none) := by
    decide +kernel
  obtain ⟨m', hm', hok⟩ := (Option.any_eq_true _ _).mp hexec
  obtain ⟨hbefore, hafter⟩ := of_decide_eq_true hok
  have hkept := hall m' hm' (kernBase + 0x8000) (by decide) (by decide) hbefore
  exact hbefore (hkept.symm.trans hafter)

end GeekToyOS
