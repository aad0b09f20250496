import GeekToyOS.Arch.PageTiling
import GeekToyOS.Arch.SoftWalk

/-!
# Addresses outside the range

Installing a page leaves the translation of every other address alone, though the walk for it may end at
another level than before: what it finds there is a part of the large page that it found earlier. This is
so for canonical addresses only. The walk drops bits 48 to 63 of an address, and a range that
leaves the canonical addresses is mapped where some other range is. And a large page that is split must be
aligned to its size: `PTADDR` takes all bits from 12 on for the address of the page, while the processor
ignores those below the size, and bit 12 is the `PAT` attribute, which the kernel has no name for.

## Main definitions

* `PagesAligned` — every page is aligned to its size
* `AlignedAround` — so is every page that reaches into a range
* `CanonicalRange` — the pages of a call are at canonical addresses

## Main results

* `mapPage_miss`, `installAll_miss` — what the walk for another address finds
* `translate_frame` — a call changes no translation outside its range
-/

namespace GeekToyOS

variable {π : Type*} {P : TablePages π} {held : π → Set ℕ} {m m' : Paging π} {pgd : ℕ}

/-! ### Indices and pages -/

theorem pdIndexer_eq_of_div {s j a b : ℕ} (hj : s ≤ j)
    (h : a / 2 ^ levelShift s = b / 2 ^ levelShift s) :
    pdIndexer (levelShift j) a = pdIndexer (levelShift j) b := by
  have hsplit : ∀ x : ℕ, x / 2 ^ levelShift j = x / 2 ^ levelShift s / 2 ^ (9 * (j - s)) := by
    intro x
    rw [Nat.div_div_eq_div_mul, ← pow_add, levelShift, levelShift]
    congr 2
    omega
  refine Fin.ext ?_
  rw [pdIndexer_val, pdIndexer_val, hsplit, hsplit, h]

/-- Canonical addresses in different pages of level `s` are told apart at a level from `s` on. -/
theorem exists_pdIndexer_ne {s a b : ℕ} (hs : s ≤ 3) (ha : Canonical a) (hb : Canonical b)
    (h : a / 2 ^ levelShift s ≠ b / 2 ^ levelShift s) :
    ∃ j, s ≤ j ∧ j ≤ 3 ∧ pdIndexer (levelShift j) a ≠ pdIndexer (levelShift j) b := by
  by_contra hall
  have hidx : ∀ j, s ≤ j → j ≤ 3 →
      a / 2 ^ levelShift j % 512 = b / 2 ^ levelShift j % 512 := by
    intro j hsj hj
    rw [← pdIndexer_val, ← pdIndexer_val]
    by_contra hne
    exact hall ⟨j, hsj, hj, fun heq => hne (congrArg Fin.val heq)⟩
  have h₃ := hidx 3 hs le_rfl
  simp only [levelShift] at h₃ h
  rcases ha with ha | ⟨ha, ha'⟩ <;> rcases hb with hb | ⟨hb, hb'⟩
  all_goals
    interval_cases s
    · have h₀ := hidx 0 le_rfl (by norm_num)
      have h₁ := hidx 1 (by norm_num) (by norm_num)
      have h₂ := hidx 2 (by norm_num) (by norm_num)
      simp only [levelShift] at h₀ h₁ h₂
      omega
    · have h₁ := hidx 1 le_rfl (by norm_num)
      have h₂ := hidx 2 (by norm_num) (by norm_num)
      simp only [levelShift] at h₁ h₂
      omega
    · have h₂ := hidx 2 le_rfl (by norm_num)
      simp only [levelShift] at h₂
      omega
    · omega

/-- An address outside an aligned page is in another page of that size. -/
theorem PageRequest.div_ne_of_not_covers {q : PageRequest} {a s : ℕ} (hs : s ≤ q.level)
    (hdvd : 2 ^ levelShift q.level ∣ q.vaddr) (h : ¬ q.Covers a) :
    a / 2 ^ levelShift s ≠ q.vaddr / 2 ^ levelShift s := by
  intro heq
  have hlevel : a / 2 ^ levelShift q.level = q.vaddr / 2 ^ levelShift q.level := by
    have hsplit : ∀ x : ℕ, x / 2 ^ levelShift q.level =
        x / 2 ^ levelShift s / 2 ^ (9 * (q.level - s)) := by
      intro x
      rw [Nat.div_div_eq_div_mul, ← pow_add, levelShift, levelShift]
      congr 2
      omega
    rw [hsplit, hsplit, heq]
  refine h ⟨?_, ?_⟩
  · calc q.vaddr = q.vaddr / 2 ^ levelShift q.level * 2 ^ levelShift q.level :=
          (Nat.div_mul_cancel hdvd).symm
      _ = a / 2 ^ levelShift q.level * 2 ^ levelShift q.level := by rw [hlevel]
      _ ≤ a := Nat.div_mul_le_self _ _
  · have hlt := Nat.lt_div_mul_add (a := a) (Nat.two_pow_pos (levelShift q.level))
    rwa [hlevel, Nat.div_mul_cancel hdvd] at hlt

/-! ### Parts of a page -/

section Splits

variable {S : Set (Fin 512)} {va : ℕ} {x y : ℕ × ℕ}

theorem present_of_splits (h : (pageShape S).Splits pagePart va x y) :
    Present y.2 ↔ Present x.2 := by
  induction h with
  | refl => exact Iff.rfl
  | step _ ih => exact ih.trans (present_pagePart _)

theorem level_le_of_splits (h : (pageShape S).Splits pagePart va x y) : y.1 ≤ x.1 := by
  induction h with
  | refl => exact le_rfl
  | step _ ih => exact ih.trans (Nat.le_succ _)

/-- The parts of an aligned page are aligned and map what the page mapped. -/
theorem leafTranslation_of_splits (h : (pageShape S).Splits pagePart va x y)
    (hp : Present x.2) (hle : x.1 ≤ 2) (hal : LeafAligned x.1 x.2) :
    leafTranslation va y = leafTranslation va x ∧ LeafAligned y.1 y.2 := by
  induction h with
  | refl => exact ⟨rfl, hal⟩
  | step _ ih =>
    rename_i k e y _
    have hk : k < 2 := Nat.lt_of_succ_le hle
    obtain ⟨htr, hal'⟩ := ih ((present_pagePart _).mpr hp) hk.le
      (leafAligned_pagePart _ hk hal)
    exact ⟨htr.trans (leafTranslation_pagePart hk hp hal), hal'⟩

/-- What ends at the same level or below has not been taken apart, so it is the same. -/
theorem eq_of_splits (h : (pageShape S).Splits pagePart va x y) (hle : x.1 ≤ y.1) : y = x := by
  cases h with
  | refl => rfl
  | step h => exact absurd (level_le_of_splits h) (Nat.not_le_of_lt hle)

/-- So an address with a walk that ends at a part of an aligned page keeps its translation. -/
theorem translation_of_splits (h : (pageShape S).Splits pagePart va x y)
    (hle : Present x.2 → x.1 ≤ 2) (hal : LeafAligned x.1 x.2) :
    (if Canonical va ∧ Present y.2 then some (leafTranslation va y) else none) =
      if Canonical va ∧ Present x.2 then some (leafTranslation va x) else none := by
  by_cases hp : Present x.2
  · rw [(leafTranslation_of_splits h hp (hle hp) hal).1]
    simp only [present_of_splits h]
  · have hp' : ¬ Present y.2 := mt (present_of_splits h).mp hp
    rw [if_neg fun h => hp' h.2, if_neg fun h => hp h.2]

end Splits

/-- Every page is aligned to its size. -/
def PagesAligned (m : Paging π) (pgd : ℕ) : Prop :=
  ∀ va, LeafAligned (walkEnd m pgd va).1 (walkEnd m pgd va).2

/-- Every page that reaches into `[start, stop)` is aligned to its size. -/
def AlignedAround (m : Paging π) (pgd start stop : ℕ) : Prop :=
  ∀ va b, start ≤ b → b < stop →
    va / 2 ^ levelShift (walkEnd m pgd va).1 = b / 2 ^ levelShift (walkEnd m pgd va).1 →
      LeafAligned (walkEnd m pgd va).1 (walkEnd m pgd va).2

theorem PagesAligned.around (hal : PagesAligned m pgd) (start stop : ℕ) : AlignedAround m pgd start stop :=
  fun va _ _ _ _ => hal va

theorem WellFormed.translate_eq (hwf : WellFormed held m pgd) (hP : TablePageLaws P held) (va : ℕ) :
    translate m pgd va = if Canonical va ∧ Present (walkEnd m pgd va).2 then
      some (leafTranslation va (walkEnd m pgd va)) else none :=
  hwf.linked.translate_eq hP va

/-! ### What other addresses see -/

/-- Installing a page, seen from an address outside it. -/
theorem mapPage_miss {q : PageRequest} {v a : ℕ} (hq : q.level ≤ 3)
    (hdvd : 2 ^ levelShift q.level ∣ q.vaddr) (hcq : Canonical q.vaddr) (ha : Canonical a)
    (hne : ¬ q.Covers a) (hm : Mapped held Set.univ q.level v q.vaddr m m' 3 pgd) :
    (pageShape Set.univ).Splits pagePart a (walkEnd m pgd a) (walkEnd m' pgd a) ∧
      ∀ r ≤ 3, a / 2 ^ levelShift r ≠ q.vaddr / 2 ^ levelShift r →
        r ≤ (walkEnd m pgd a).1 → r ≤ (walkEnd m' pgd a).1 := by
  have hslot : slotLevel q.level 3 ((pageShape Set.univ).find m.entry 3 pgd q.vaddr) ≤ q.level := by
    rw [slotLevel]
    split <;> omega
  set s := slotLevel q.level 3 ((pageShape Set.univ).find m.entry 3 pgd q.vaddr) with hs
  have hdiff : a / 2 ^ levelShift s ≠ q.vaddr / 2 ^ levelShift s :=
    PageRequest.div_ne_of_not_covers hslot hdvd hne
  refine ⟨?_, fun r hr hdiff' hle => ?_⟩
  · obtain ⟨j, hsj, hj, hidx⟩ := exists_pdIndexer_ne (by omega) ha hcq hdiff
    exact (hm.miss a within_univ j hsj hj hidx).1
  · have hmax : a / 2 ^ levelShift (max s r) ≠ q.vaddr / 2 ^ levelShift (max s r) := by
      rcases max_choice s r with h | h
      · rwa [h]
      · rwa [h]
    obtain ⟨j, hsj, hj, hidx⟩ := exists_pdIndexer_ne (by omega) ha hcq hmax
    have hsj' : s ≤ j := (le_max_left s r).trans hsj
    have hrj : r ≤ j := (le_max_right s r).trans hsj
    have hlevel := (hm.miss a within_univ j hsj' hj hidx).2
    rw [walkEnd] at hle ⊢
    omega

/-- Installing pages, seen from an address outside all of them. -/
theorem installAll_miss {qs : List PageRequest} {delta perm a : ℕ} (hP : TablePageLaws P held)
    (hqs : ∀ q ∈ qs, Fitting delta perm q ∧ Canonical q.vaddr ∧ ¬ q.Covers a) (ha : Canonical a)
    (hwf : WellFormed held m pgd) (h : installAll P pgd qs m = some m') :
    WellFormed held m' pgd ∧
      (pageShape Set.univ).Splits pagePart a (walkEnd m pgd a) (walkEnd m' pgd a) ∧
      ∀ r ≤ 3, (∀ q ∈ qs, a / 2 ^ levelShift r ≠ q.vaddr / 2 ^ levelShift r) →
        r ≤ (walkEnd m pgd a).1 → r ≤ (walkEnd m' pgd a).1 := by
  induction qs generalizing m with
  | nil =>
    obtain rfl := Option.some.inj h
    exact ⟨hwf, .refl _, fun _ _ _ hle => hle⟩
  | cons q qs ih =>
    obtain ⟨m₁, h₁, h₂⟩ := Option.bind_eq_some_iff.mp h
    obtain ⟨hfit, hcq, hne⟩ := hqs q List.mem_cons_self
    have hle := hfit.level_le
    obtain ⟨hwf₁, hm⟩ := hwf.mapPage hP hfit.leafFor h₁
    obtain ⟨hsplit₁, hlevel₁⟩ := mapPage_miss (by omega) hfit.dvd hcq ha hne hm
    obtain ⟨hwf₂, hsplit₂, hlevel₂⟩ := ih (fun q hq => hqs q (List.mem_cons_of_mem _ hq)) hwf₁ h₂
    refine ⟨hwf₂, hsplit₁.trans hsplit₂, fun r hr hdiff hlv => ?_⟩
    exact hlevel₂ r hr (fun q hq => hdiff q (List.mem_cons_of_mem _ hq))
      (hlevel₁ r hr (hdiff q List.mem_cons_self) hlv)

/-- Where the walk ends at a part of what it ended at before, the translation is the same. -/
theorem translate_of_splits {va : ℕ} (hP : TablePageLaws P held) (hwf : WellFormed held m pgd)
    (hwf' : WellFormed held m' pgd)
    (hal : LeafAligned (walkEnd m pgd va).1 (walkEnd m pgd va).2)
    (h : (pageShape Set.univ).Splits pagePart va (walkEnd m pgd va) (walkEnd m' pgd va)) :
    translate m' pgd va = translate m pgd va := by
  rw [hwf.translate_eq hP, hwf'.translate_eq hP]
  exact translation_of_splits h walkEnd_le hal

/-- The pages of a call are at canonical addresses. -/
def CanonicalRange (vaddr size : ℕ) : Prop :=
  ∀ va, regionStart vaddr ≤ va → va < regionEnd vaddr size → Canonical va

/-- What a call does to the translation of an address outside its range: nothing. -/
theorem translate_of_outside {page1GB : Bool} {pgdir : Option ℕ} {vaddr paddr size permFlag va : ℕ}
    (hP : TablePageLaws P held) (hwf : WellFormed held m (pgdir.getD m.kernelPgd))
    (hal : AlignedAround m (pgdir.getD m.kernelPgd) (regionStart vaddr) (regionEnd vaddr size))
    (hend : vaddr + size + 2 ^ 30 ≤ 2 ^ 64) (hcanon : CanonicalRange vaddr size)
    (h : archMapRegion P page1GB pgdir vaddr paddr size permFlag m = some m')
    (hva : va < regionStart vaddr ∨ regionEnd vaddr size ≤ va) :
    translate m' (pgdir.getD m.kernelPgd) va = translate m (pgdir.getD m.kernelPgd) va := by
  by_cases hc : Canonical va
  · rw [archMapRegion_eq] at h
    obtain ⟨htiles, hfit⟩ := regionRequests_tiles paddr permFlag page1GB hend
    have hin : ∀ q ∈ regionRequests page1GB vaddr paddr size permFlag,
        regionStart vaddr ≤ q.vaddr ∧ q.vaddr < regionEnd vaddr size := fun q hq => by
      have := htiles.within hq
      have hpos := q.size_pos
      omega
    have hqs : ∀ q ∈ regionRequests page1GB vaddr paddr size permFlag,
        Fitting (wsub vaddr paddr) (regionPerm permFlag) q ∧ Canonical q.vaddr ∧ ¬ q.Covers va := by
      intro q hq
      have hwithin := htiles.within hq
      refine ⟨(hfit q hq).1, hcanon _ (hin q hq).1 (hin q hq).2, fun hcov => ?_⟩
      have hcov₁ := hcov.1
      have hcov₂ := hcov.2
      omega
    obtain ⟨hwf', hsplit, hlevel⟩ := installAll_miss hP hqs hc hwf h
    by_cases hreach : ∃ b, regionStart vaddr ≤ b ∧ b < regionEnd vaddr size ∧
        va / 2 ^ levelShift (walkEnd m (pgdir.getD m.kernelPgd) va).1 =
          b / 2 ^ levelShift (walkEnd m (pgdir.getD m.kernelPgd) va).1
    · obtain ⟨b, hlo, hhi, hpage⟩ := hreach
      exact translate_of_splits hP hwf hwf' (hal va b hlo hhi hpage) hsplit
    · -- a page that does not reach into the range is not taken apart
      have hle : (walkEnd m (pgdir.getD m.kernelPgd) va).1 ≤ 3 := Radix.Shape.find_le
      have hsame := eq_of_splits hsplit (hlevel _ hle
        (fun q hq heq => hreach ⟨q.vaddr, (hin q hq).1, (hin q hq).2, heq⟩) le_rfl)
      rw [hwf.translate_eq hP, hwf'.translate_eq hP, hsame]
  · rw [translate, translate, if_neg hc, if_neg hc]

/-- **A call changes no translation outside its range**, if the pages that it takes apart are aligned. -/
theorem translate_frame {page1GB : Bool} {pgdir : Option ℕ} {vaddr paddr size permFlag va : ℕ}
    (hP : TablePageLaws P held) (hwf : WellFormed held m (pgdir.getD m.kernelPgd))
    (hal : AlignedAround m (pgdir.getD m.kernelPgd) (regionStart vaddr) (regionEnd vaddr size))
    (hend : vaddr + size + 2 ^ 30 ≤ 2 ^ 64) (hcanon : CanonicalRange vaddr size)
    (h : archMapRegion P page1GB pgdir vaddr paddr size permFlag m = some m')
    (hva : va < regionStart vaddr ∨ regionEnd vaddr size ≤ va) :
    translate m' (pgdir.getD m.kernelPgd) va = translate m (pgdir.getD m.kernelPgd) va :=
  translate_of_outside hP hwf hal hend hcanon h hva

/-! ### Pages stay aligned -/

@[simp] theorem leafAligned_zero (v : ℕ) : LeafAligned 0 v := by
  intro _
  rw [ptaddr_eq]
  exact Nat.dvd_mul_left _ _

/-- A page that is aligned for the level it is installed at is aligned for the level where it ends up. -/
theorem leafAligned_slotLevel {r v k : ℕ} (hv : LeafAligned r v) (x : ℕ × ℕ) :
    LeafAligned (slotLevel r k x) v := by
  rw [slotLevel]
  split
  · exact hv
  · exact leafAligned_zero v

theorem mapPage_aligned {r v va : ℕ} (hv : LeafAligned r v) (hal : PagesAligned m pgd)
    (hm : Mapped held Set.univ r v va m m' 3 pgd) : PagesAligned m' pgd := by
  intro a
  rcases hm.hit_or_splits within_univ with hhit | hsplit
  · rw [walkEnd, hhit]
    exact leafAligned_slotLevel hv _
  · intro hp
    have hp₀ := (present_of_splits hsplit).mp hp
    exact (leafTranslation_of_splits hsplit hp₀ (walkEnd_le hp₀) (hal a)).2 hp

/-- **Pages stay aligned** through calls that move them by multiples of 1 GiB. -/
theorem archMapRegion_aligned {page1GB : Bool} {pgdir : Option ℕ} {vaddr paddr size permFlag : ℕ}
    (hP : TablePageLaws P held) (hwf : WellFormed held m (pgdir.getD m.kernelPgd))
    (hal : PagesAligned m (pgdir.getD m.kernelPgd)) (hdelta : 2 ^ 30 ∣ wsub vaddr paddr)
    (h : archMapRegion P page1GB pgdir vaddr paddr size permFlag m = some m') :
    WellFormed held m' (pgdir.getD m.kernelPgd) ∧ PagesAligned m' (pgdir.getD m.kernelPgd) := by
  rw [archMapRegion_eq] at h
  refine installAll_induct (Q := fun m₁ => WellFormed held m₁ (pgdir.getD m.kernelPgd) ∧
    PagesAligned m₁ (pgdir.getD m.kernelPgd)) (fun q hq m₁ m₂ h₁ h₂ => ?_) ⟨hwf, hal⟩ h
  have hq := fitting_of_mem hq
  obtain ⟨hwf₂, hm⟩ := h₁.1.mapPage hP hq.leafFor h₂
  refine ⟨hwf₂, mapPage_aligned (hq.leafAligned ?_ (regionPerm_lt _)).2 h₁.2 hm⟩
  exact (two_pow_levelShift_dvd hq.level_le).trans hdelta

/-- Where nothing is present there is nothing to align. -/
theorem pagesAligned_of_absent (hnone : ∀ i, m.entry pgd i = 0) : PagesAligned m pgd := by
  intro va hp
  have hend : walkEnd m pgd va = (3, m.entry pgd (pgx va)) :=
    Radix.Shape.find_of_none (child_of_not_present (by
      rw [hnone]
      exact not_present_zero))
  rw [hend] at hp
  dsimp only at hp
  rw [hnone] at hp
  exact (not_present_zero hp).elim

/-! ### Two calls -/

/-- A 4 KiB page inside a 1 GiB page leaves the next one alone. -/
theorem translate_frame_smallInHuge :
    ∃ m m', mapCall listPages true 4096 emptyTables hugePage = some m ∧
      mapCall listPages true 4096 m smallPage = some m' ∧
      translate m 4096 0x40001000 = some ⟨0x40001000, pteW ||| pteP, 0⟩ ∧
      translate m' 4096 0x40001000 = translate m 4096 0x40001000 := by
  have hexec : (mapCall listPages true 4096 emptyTables hugePage).any fun m =>
      (mapCall listPages true 4096 m smallPage).isSome &&
        decide (translate m 4096 0x40001000 = some ⟨0x40001000, pteW ||| pteP, 0⟩) := by
    decide +kernel
  obtain ⟨m, hm, hok⟩ := (Option.any_eq_true _ _).mp hexec
  rw [Bool.and_eq_true, decide_eq_true_eq] at hok
  obtain ⟨m', hm'⟩ := Option.isSome_iff_exists.mp hok.1
  obtain ⟨hwf, hal⟩ := archMapRegion_aligned listPages_laws
    emptyTables_wellFormed (pagesAligned_of_absent fun _ => rfl) (by decide) hm
  have hcanon : CanonicalRange 0x40000000 0x1000 := by
    intro va _ hlt
    left
    rw [regionEnd_eq (by decide)] at hlt
    omega
  have haround : AlignedAround m ((some 4096).getD m.kernelPgd) (regionStart 0x40000000)
      (regionEnd 0x40000000 0x1000) := PagesAligned.around hal _ _
  have hend : 0x40000000 + 0x1000 + 2 ^ 30 ≤ 2 ^ 64 := by norm_num
  have hcall : archMapRegion listPages true (some 4096) 0x40000000 0x40000000 0x1000 pteW m = some m' := hm'
  have hout : regionEnd 0x40000000 0x1000 ≤ 0x40001000 := by decide
  have hsame := translate_frame listPages_laws hwf haround hend hcanon hcall (Or.inr hout)
  exact ⟨m, m', hm, hm', hok.2, hsame⟩

/-- The 2 MiB page at 1 GiB with bit 12 in its entry, which the processor does not take for a bit of the
address. -/
def patPage : MapCall := ⟨0x40000000, 0x40001000, 0x200000, pteW⟩

/-- A page at 2⁴⁷, the first address that is not canonical, is mapped at the lowest address of the upper
half. -/
theorem translate_nonCanonical : ¬ ∀ m' va,
    archMapRegion listPages true none (2 ^ 47) (2 ^ 47) 4096 pteW emptyTables = some m' →
      va < regionStart (2 ^ 47) ∨ regionEnd (2 ^ 47) 4096 ≤ va →
      translate m' 4096 va = translate emptyTables 4096 va := by
  intro hall
  have hexec : (archMapRegion listPages true none (2 ^ 47) (2 ^ 47) 4096 pteW emptyTables).any
      fun m => decide (translate m 4096 kernBase ≠ translate emptyTables 4096 kernBase) := by
    decide +kernel
  obtain ⟨m, hm, hne⟩ := (Option.any_eq_true _ _).mp hexec
  exact of_decide_eq_true hne (hall m kernBase hm (Or.inr (by decide)))

/-- A 4 KiB page inside the 2 MiB page moves the others. -/
theorem translate_patPage : ¬ ∀ m m' va, mapCall listPages true 4096 emptyTables patPage = some m →
    WellFormed listHeld m 4096 →
    mapCall listPages true 4096 m ⟨0x40005000, 0x40005000, 0x1000, pteW⟩ = some m' →
      va < regionStart 0x40005000 ∨ regionEnd 0x40005000 0x1000 ≤ va →
      translate m' 4096 va = translate m 4096 va := by
  intro hall
  have hexec : (mapCall listPages true 4096 emptyTables patPage).any fun m =>
      (mapCall listPages true 4096 m ⟨0x40005000, 0x40005000, 0x1000, pteW⟩).any fun m' =>
        decide (translate m 4096 0x40010000 = some ⟨0x40010000, pteW ||| pteP, 0⟩ ∧
          translate m' 4096 0x40010000 = some ⟨0x40011000, pteW ||| pteP, 0⟩) := by
    decide +kernel
  obtain ⟨m, hm, hany⟩ := (Option.any_eq_true _ _).mp hexec
  obtain ⟨m', hm', hok⟩ := (Option.any_eq_true _ _).mp hany
  obtain ⟨hbefore, hafter⟩ := of_decide_eq_true hok
  have hinst := hm
  rw [mapCall_eq] at hinst
  obtain ⟨hwf, -⟩ := installAll_wellFormed listPages_laws MapCall.leafFor emptyTables_wellFormed hinst
  have hsame := hall m m' 0x40010000 hm hwf hm' (Or.inr (by decide))
  rw [hbefore, hafter] at hsame
  exact absurd hsame (by decide)

/-- **Where a call changes a translation outside its range**: the range is not canonical, or a page that is
taken apart is not aligned. -/
theorem not_translate_frame :
    (¬ ∀ m' va, archMapRegion listPages true none (2 ^ 47) (2 ^ 47) 4096 pteW emptyTables = some m' →
      va < regionStart (2 ^ 47) ∨ regionEnd (2 ^ 47) 4096 ≤ va →
      translate m' 4096 va = translate emptyTables 4096 va) ∧
    ¬ ∀ m m' va, mapCall listPages true 4096 emptyTables patPage = some m → WellFormed listHeld m 4096 →
      mapCall listPages true 4096 m ⟨0x40005000, 0x40005000, 0x1000, pteW⟩ = some m' →
      va < regionStart 0x40005000 ∨ regionEnd 0x40005000 0x1000 ≤ va →
      translate m' 4096 va = translate m 4096 va :=
  ⟨translate_nonCanonical, translate_patPage⟩

end GeekToyOS
