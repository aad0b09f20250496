import GeekToyOS.Arch.PageMapping
import GeekToyOS.Arch.SoftWalk

/-!
# Mapping on demand

`arch_kmap` and `acpi_remap`: the physical range is to be readable at its place in the direct map.

`arch_kmap` asks `check_pgtable` about the first page only, and if that one is there it maps nothing. If it
is not, it rounds the start down to a page and keeps the size, so that a range which starts inside of a
page can end one page behind the last one that is mapped.

## Main definitions

* `DirectMap` — what is present in the window is at its place
* `KmapCovers` — the range is readable
* `LooksMapped`, `RestMapped` — what `check_pgtable` says, and what has to be there already

## Main results

* `DirectMap.region` — a call for a part of the window
* `archKmap_covers`, `acpiRemap_covers` — when the range is readable
* `kmapCovers_iff` — both
-/

namespace GeekToyOS

variable {π : Type*} {P : TablePages π} {held : π → Set ℕ} {m m' : Paging π} {page1GB : Bool}
  {page phy sz va a : ℕ}

/-- Well-formed tables, in which every page of the window is mapped to its place or not at all. -/
structure DirectMap (held : π → Set ℕ) (m : Paging π) : Prop where
  wellFormed : WellFormed held m m.kernelPgd
  aligned : PagesAligned m m.kernelPgd
  phys : ∀ va tr, kernBase ≤ va → va < 2 ^ 64 → translate m m.kernelPgd va = some tr →
    tr.phys = va - kernBase

/-- **The range is readable** at `va`. -/
def KmapCovers (m : Paging π) (va phy sz : ℕ) : Prop :=
  ∀ i < sz, (translate m m.kernelPgd (va + i)).map Translation.phys = some (phy + i)

variable (P) in
/-- `check_pgtable` says that the page of `phy` is mapped. -/
def LooksMapped (m : Paging π) (phy : ℕ) : Prop := checkPgtable P m (kaddr (ptaddr phy)) = ptaddr phy

variable (P) in
/-- What has to be there already: the whole range, if its first page looks mapped; else what lies behind
the pages of the first `reach` bytes, counted from the start of the page. -/
def RestMapped (m : Paging π) (phy sz reach : ℕ) : Prop :=
  ∀ i < sz, (LooksMapped P m phy ∨ phy / 4096 * 4096 + (reach + 4095) / 4096 * 4096 ≤ phy + i) →
    translate m m.kernelPgd (kernBase + phy + i) ≠ none

@[simp]
theorem requestedTranslation_phys {delta perm : ℕ} :
    (requestedTranslation delta perm va).phys = wsub va delta := rfl

@[simp]
theorem requestedTranslation_high {delta perm : ℕ} : (requestedTranslation delta perm va).high = 0 := rfl

theorem kaddr_of_lt (h : phy < 2 ^ 47) : kaddr phy = kernBase + phy := by
  rw [kaddr, wadd_of_lt (by rw [kernBase]; omega), Nat.add_comm]

theorem ptaddr_of_lt (h : phy < 2 ^ 47) : ptaddr phy = phy / 4096 * 4096 := by
  rw [ptaddr_eq]
  omega

/-- An address with a translation, and no bits beyond the physical address in it. -/
theorem checkPgtable_of_translate {S : Set (Fin 512)} {tr : Translation} (hP : TablePageLaws P held)
    (hl : LinkedTables held S m m.kernelPgd) (h : translate m m.kernelPgd va = some tr)
    (hhigh : tr.high = 0) : checkPgtable P m va = tr.phys := by
  rw [hl.translate_eq hP] at h
  split at h
  · rename_i hp
    obtain rfl := Option.some.inj h
    have hle := walkEnd_le hp.2
    rw [checkPgtable_eq]
    rw [leafTranslation] at hhigh ⊢
    generalize walkEnd m m.kernelPgd va = x at *
    obtain ⟨k, e⟩ := x
    dsimp only at hhigh hle hp ⊢
    rw [softAddr_eq (by omega) (Or.inr hp.2), hwPhys]
    interval_cases k <;> simp only [levelShift] <;> omega
  · exact absurd h.symm (Option.some_ne_none _)

/-! ### A part of the window -/

section Region

variable (hP : TablePageLaws P held) (hd : DirectMap held m) (hpage : 4096 ∣ page)
  (hwin : page + sz + 2 ^ 30 ≤ 2 ^ 47)
  (h : archMapRegion P page1GB none (kernBase + page) page sz (pteW ||| pteG) m = some m')

theorem wsub_kernBase (hlo : kernBase ≤ a) (hhi : a < 2 ^ 64) : wsub a kernBase = a - kernBase :=
  wsub_of_le hlo hhi

include hwin in
theorem window_end : kernBase + page + sz + 2 ^ 30 ≤ 2 ^ 64 := by
  rw [kernBase]
  omega

theorem window_delta : wsub (kernBase + page) page = kernBase := by
  rw [wsub, kernBase]
  omega

include hpage hwin in
theorem window_range : regionStart (kernBase + page) = kernBase + page ∧
    regionEnd (kernBase + page) sz = kernBase + page + (sz + 4095) / 4096 * 4096 := by
  have hend := window_end hwin
  rw [regionStart_eq hend, regionEnd_eq hend, kernBase]
  omega

include hpage hwin in
theorem window_canonical : CanonicalRange (kernBase + page) sz := by
  obtain ⟨hs, he⟩ := window_range hpage hwin
  intro va hlo hhi
  rw [hs, kernBase] at hlo
  rw [he, kernBase] at hhi
  right
  omega

include hP hd hpage hwin h

/-- **A call for a part of the window**: it is mapped to its place, nothing else changes, and the window
stays a direct map. -/
theorem DirectMap.region : DirectMap held m' ∧ m'.kernelPgd = m.kernelPgd ∧
    (∀ a, kernBase + page ≤ a → a < kernBase + page + (sz + 4095) / 4096 * 4096 →
      (translate m' m.kernelPgd a).map Translation.phys = some (a - kernBase)) ∧
    ∀ a, a < kernBase + page ∨ kernBase + page + (sz + 4095) / 4096 * 4096 ≤ a →
      translate m' m.kernelPgd a = translate m m.kernelPgd a := by
  have hend := window_end hwin
  have hdelta := @window_delta page
  have hcanon := window_canonical hpage hwin
  obtain ⟨hs, he⟩ := window_range hpage hwin
  have hdvd : 2 ^ 30 ∣ wsub (kernBase + page) page := by
    rw [hdelta]
    decide
  have hclear : ¬ IsClear (pteW ||| pteG) := by decide
  have hframe : ∀ a, a < kernBase + page ∨ kernBase + page + (sz + 4095) / 4096 * 4096 ≤ a →
      translate m' m.kernelPgd a = translate m m.kernelPgd a := by
    intro a ha
    have haround : AlignedAround m ((none : Option ℕ).getD m.kernelPgd) (regionStart (kernBase + page))
        (regionEnd (kernBase + page) sz) := hd.aligned.around _ _
    have hout : a < regionStart (kernBase + page) ∨ regionEnd (kernBase + page) sz ≤ a := by
      rwa [hs, he]
    exact translate_of_outside hP hd.wellFormed haround hend hcanon h hout
  obtain ⟨hwf', hal'⟩ := archMapRegion_aligned hP hd.wellFormed hd.aligned hdvd h
  have hinst := h
  rw [archMapRegion_eq] at hinst
  obtain ⟨htiles, hfit⟩ := regionRequests_tiles page (pteW ||| pteG) page1GB hend
  have hkernel : m'.kernelPgd = m.kernelPgd :=
    (installAll_wellFormed hP (fun q hq => (hfit q hq).1.leafFor) hd.wellFormed hinst).2
  have hinside : ∀ a, kernBase + page ≤ a → a < kernBase + page + (sz + 4095) / 4096 * 4096 →
      (translate m' m.kernelPgd a).map Translation.phys = some (a - kernBase) := by
    intro a hlo hhi
    have ha64 : kernBase ≤ a ∧ a < 2 ^ 64 := by
      rw [kernBase] at hlo hhi ⊢
      omega
    obtain ⟨q, hq, hcov⟩ := htiles.exists_covers a (by rw [hs]; exact hlo) (by rw [he]; exact hhi)
    by_cases hrest : Blocked m m.kernelPgd q ∧ q.vaddr + 4096 ≤ a
    · -- the page that is there is at its place
      rw [translate_kept hP hd.wellFormed hd.aligned hend hinst hcanon hq hcov hrest.1 hrest.2]
      have hpres := hrest.1.present (hfit q hq).1.dvd hcov
      have hc : Canonical a := hcanon a (by rw [hs]; exact hlo) (by rw [he]; exact hhi)
      obtain ⟨tr, htr⟩ := Option.ne_none_iff_exists'.mp (hd.wellFormed.translate_ne_none hP hc hpres)
      rw [htr, Option.map_some, hd.phys a tr ha64.1 ha64.2 htr]
    · have hwritten : ¬ Blocked m m.kernelPgd q ∨ a < q.vaddr + 4096 := by
        by_cases hb : Blocked m m.kernelPgd q
        · exact Or.inr (Nat.lt_of_not_le fun hle => hrest ⟨hb, hle⟩)
        · exact Or.inl hb
      have hphys : wsub a (wsub (kernBase + page) page) = a - kernBase := by
        rw [hdelta, wsub_kernBase ha64.1 ha64.2]
      have htr := translate_written hP hd.wellFormed hend hinst hcanon hclear hdvd hq hcov hwritten
        (by rw [hphys, kernBase]; omega)
      rw [htr, Option.map_some, requestedTranslation, hphys]
  refine ⟨⟨hkernel ▸ hwf', hkernel ▸ hal', fun a tr hlo hhi htr => ?_⟩, hkernel, hinside, hframe⟩
  rw [hkernel] at htr
  by_cases hin : kernBase + page ≤ a ∧ a < kernBase + page + (sz + 4095) / 4096 * 4096
  · have := hinside a hin.1 hin.2
    rw [htr, Option.map_some] at this
    exact Option.some.inj this
  · rw [hframe a (by omega)] at htr
    exact hd.phys a tr hlo hhi htr

/-- After the call, what was to be mapped is there unless it lies behind the call's pages and was missing
before. -/
theorem DirectMap.region_mapped {n : ℕ} (hle : page ≤ phy) :
    (∀ i < n, translate m' m.kernelPgd (kernBase + phy + i) ≠ none) ↔
      ∀ i < n, page + (sz + 4095) / 4096 * 4096 ≤ phy + i →
        translate m m.kernelPgd (kernBase + phy + i) ≠ none := by
  obtain ⟨-, -, hinside, hframe⟩ := hd.region hP hpage hwin h
  refine forall₂_congr fun i hi => ?_
  by_cases hin : page + (sz + 4095) / 4096 * 4096 ≤ phy + i
  · rw [hframe _ (Or.inr (by omega))]
    simp only [hin, forall_const]
  · have hmapped := hinside (kernBase + phy + i) (by omega) (by omega)
    refine iff_of_true (fun hnone => ?_) fun hin' => absurd hin' hin
    rw [hnone] at hmapped
    exact absurd hmapped.symm (Option.some_ne_none _)

/-- The first page of the call gets the entry that was asked for. -/
theorem DirectMap.region_first (hsz : 0 < sz) : translate m' m.kernelPgd (kernBase + page) =
    some (requestedTranslation kernBase (regionPerm (pteW ||| pteG)) (kernBase + page)) := by
  have hend := window_end hwin
  have hdelta := @window_delta page
  obtain ⟨hs, he⟩ := window_range hpage hwin
  rw [archMapRegion_eq] at h
  obtain ⟨htiles, hfit⟩ := regionRequests_tiles page (pteW ||| pteG) page1GB hend
  obtain ⟨q, hq, hcov⟩ := htiles.exists_covers (kernBase + page) (by rw [hs]) (by rw [he]; omega)
  have hstart := (htiles.within hq).1
  rw [hs] at hstart
  have htr := translate_written hP hd.wellFormed hend h (window_canonical hpage hwin) (by decide)
    (by rw [hdelta]; decide) hq hcov (Or.inr (by omega))
    (by rw [hdelta, wsub_kernBase (by omega) (by rw [kernBase]; omega)]; rw [kernBase]; omega)
  rw [htr, hdelta]

end Region

/-! ### The calls -/

/-- Where a direct map has a page, it is the right one. -/
theorem DirectMap.covers_iff (hd : DirectMap held m) (hwin : phy + sz ≤ 2 ^ 47) :
    KmapCovers m (kernBase + phy) phy sz ↔
      ∀ i < sz, translate m m.kernelPgd (kernBase + phy + i) ≠ none := by
  refine forall₂_congr fun i hi => ⟨fun h hnone => ?_, fun h => ?_⟩
  · rw [hnone] at h
    exact absurd h.symm (Option.some_ne_none _)
  · obtain ⟨tr, htr⟩ := Option.ne_none_iff_exists'.mp h
    have hphys := hd.phys _ tr (by omega) (by rw [kernBase]; omega) htr
    rw [htr, Option.map_some, hphys, Nat.add_assoc, Nat.add_sub_cancel_left]

theorem page_add_offset (phy : ℕ) : phy / 4096 * 4096 + phy % 4096 = phy := Nat.div_add_mod' phy 4096

/-- What `arch_kmap` does: it returns the address in the direct map, and maps the page there unless the page
looks mapped already. -/
theorem archKmap_cases (hwin : phy + sz + 2 ^ 30 ≤ 2 ^ 47)
    (h : archKmap P page1GB phy sz m = some (va, m')) :
    va = kernBase + phy ∧ (LooksMapped P m phy ∧ m' = m ∨ ¬ LooksMapped P m phy ∧
      archMapRegion P page1GB none (kernBase + phy / 4096 * 4096) (phy / 4096 * 4096) sz
        (pteW ||| pteG) m = some m') := by
  have hpt : ptaddr phy = _ := ptaddr_of_lt (by omega)
  have hkaddr : kaddr (phy / 4096 * 4096) = _ := kaddr_of_lt (by omega)
  have hva : wadd (kernBase + phy / 4096 * 4096) (pgoff phy) = kernBase + phy := by
    rw [pgoff_eq, wadd_of_lt (by rw [kernBase]; omega), Nat.add_assoc, page_add_offset]
  rw [archKmap] at h
  obtain ⟨m₁, h₁, h₂⟩ := Option.map_eq_some_iff.mp h
  obtain ⟨rfl, rfl⟩ := Prod.mk.inj h₂
  rw [hpt, hkaddr] at h₁
  rw [LooksMapped, hpt, hkaddr]
  refine ⟨hva, ?_⟩
  by_cases hlooks : checkPgtable P m (kernBase + phy / 4096 * 4096) = phy / 4096 * 4096
  · rw [if_neg (not_not.mpr hlooks)] at h₁
    exact Or.inl ⟨hlooks, (Option.some.inj h₁).symm⟩
  · rw [if_pos hlooks] at h₁
    exact Or.inr ⟨hlooks, h₁⟩

/-- **When `arch_kmap` makes its range readable**: what it leaves out has to be there already. -/
theorem archKmap_covers (hP : TablePageLaws P held) (hd : DirectMap held m)
    (hwin : phy + sz + 2 ^ 30 ≤ 2 ^ 47) (h : archKmap P page1GB phy sz m = some (va, m')) :
    KmapCovers m' va phy sz ↔ RestMapped P m phy sz sz := by
  obtain ⟨rfl, ⟨hlooks, rfl⟩ | ⟨hlooks, h⟩⟩ := archKmap_cases hwin h
  · rw [hd.covers_iff (by omega), RestMapped]
    simp only [hlooks, true_or, forall_const]
  · have hpage : 4096 ∣ phy / 4096 * 4096 := Nat.dvd_mul_left 4096 _
    obtain ⟨hd', hkernel, hinside, hframe⟩ :=
      hd.region hP (Nat.dvd_mul_left 4096 _) (by omega) h
    rw [hd'.covers_iff (by omega), RestMapped]
    simp only [hlooks, false_or, hkernel]
    exact hd.region_mapped hP hpage (by omega) h (Nat.div_mul_le_self phy 4096)

/-- **When `acpi_remap` makes its table readable**: its first call maps the first page, so that the
second one finds it. -/
theorem acpiRemap_covers {length : ℕ} (hP : TablePageLaws P held) (hd : DirectMap held m)
    (hwin : phy + max acpiHeaderSize length + 2 ^ 30 ≤ 2 ^ 47)
    (h : acpiRemap P page1GB phy length m = some (va, m')) :
    KmapCovers m' va phy length ↔ RestMapped P m phy length acpiHeaderSize := by
  rw [acpiRemap] at h
  obtain ⟨⟨va₁, m₁⟩, h₁, h₂⟩ := Option.bind_eq_some_iff.mp h
  have hheader : phy + acpiHeaderSize + 2 ^ 30 ≤ 2 ^ 47 := by omega
  obtain ⟨-, ⟨hlooks, rfl⟩ | ⟨hlooks, h₁⟩⟩ := archKmap_cases hheader h₁
  · rw [archKmap_covers hP hd (by omega) h₂, RestMapped, RestMapped]
    simp only [hlooks, true_or, forall_const]
  · have hpage : 4096 ∣ phy / 4096 * 4096 := Nat.dvd_mul_left 4096 _
    obtain ⟨hd₁, hkernel, -, -⟩ := hd.region hP hpage (by omega) h₁
    have hfirst := hd.region_first hP hpage (by omega) h₁ (by decide)
    have hlooks₁ : LooksMapped P m₁ phy := by
      rw [← hkernel] at hfirst
      have hcheck := checkPgtable_of_translate hP hd₁.wellFormed.linked hfirst requestedTranslation_high
      rw [LooksMapped, ptaddr_of_lt (by omega), kaddr_of_lt (by omega), hcheck,
        requestedTranslation_phys, wsub_kernBase (by omega) (by rw [kernBase]; omega),
        Nat.add_sub_cancel_left]
    rw [archKmap_covers hP hd₁ (by omega) h₂, RestMapped, RestMapped]
    simp only [hlooks₁, hlooks, true_or, false_or, forall_const, hkernel]
    exact hd.region_mapped hP hpage (by omega) h₁ (Nat.div_mul_le_self phy 4096)

theorem emptyTables_directMap : DirectMap listHeld emptyTables where
  wellFormed := emptyTables_wellFormed
  aligned := pagesAligned_of_absent fun _ => rfl
  phys := by
    intro va tr _ _ h
    change translate emptyTables 4096 va = some tr at h
    rw [emptyTables_wellFormed.translate_eq listPages_laws] at h
    have hend : walkEnd emptyTables 4096 va = (3, 0) :=
      Radix.Shape.find_of_none (child_of_not_present not_present_zero)
    rw [if_neg fun hp => not_present_zero (by rw [hend] at hp; exact hp.2)] at h
    exact absurd h.symm (Option.some_ne_none _)

end GeekToyOS
