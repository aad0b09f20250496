import GeekToyOS.Data.Trace
import GeekToyOS.Arch.PageRegion

/-!
# Who owns the table pages

When a large page is installed over a table, `pgdir_walk` gives that table back. Over a page table this is
all there is to give back; but where a 1 GiB page takes the place of a page directory, the page tables
below the directory stay allocated and nothing refers to them any more.

## Main definitions

* `Conserved` — the table pages are the initial ones, with those obtained and without those given back
* `SparesTables` — the page does not take the place of a page directory with page tables

## Main results

* `conserved_iff` — the table pages are conserved all along a run exactly if every page spares the tables
-/

namespace GeekToyOS

variable {π : Type*} {P : TablePages π} {held : π → Set ℕ} {m m' : Paging π} {pgd : ℕ}

/-- The arguments of a call of `arch_map_region`. -/
structure MapCall where
  vaddr : ℕ
  paddr : ℕ
  size : ℕ
  permFlag : ℕ

/-- The pages that the call installs. -/
def MapCall.requests (page1GB : Bool) (c : MapCall) : List PageRequest :=
  regionRequests page1GB c.vaddr c.paddr c.size c.permFlag

/-- A call on the page directory `pgd`. -/
def mapCall (P : TablePages π) (page1GB : Bool) (pgd : ℕ) (m : Paging π) (c : MapCall) :
    Option (Paging π) :=
  archMapRegion P page1GB (some pgd) c.vaddr c.paddr c.size c.permFlag m

/-- The calls as steps. -/
def MapStep (P : TablePages π) (page1GB : Bool) (pgd : ℕ) (m : Paging π) (c : MapCall)
    (m' : Paging π) : Prop :=
  mapCall P page1GB pgd m c = some m'

theorem mapCall_eq (page1GB : Bool) (c : MapCall) :
    mapCall P page1GB pgd m c = installAll P pgd (c.requests page1GB) m :=
  archMapRegion_eq page1GB (some pgd) c.vaddr c.paddr c.size c.permFlag m

theorem MapCall.leafFor {page1GB : Bool} {c : MapCall} :
    ∀ q ∈ c.requests page1GB, LeafFor q.level q.value :=
  fun _ hq => leafFor_of_mem hq

/-- **The accounts of the table pages**: between `m₀` and `m`, the pages that came into use were obtained,
and those that went out of use were given back. -/
structure Conserved (held : π → Set ℕ) (pgd : ℕ) (m₀ m : Paging π) : Prop where
  eq : tablePages m pgd = (tablePages m₀ pgd ∪ (held m.pages \ held m₀.pages)) \
    (held m₀.pages \ held m.pages)
  /-- No reachable table page has been given back. -/
  inUse : tablePages m pgd ⊆ held m.pages
  /-- No page that was obtained is unreachable. -/
  reachable : held m.pages \ tablePages m pgd ⊆ held m₀.pages \ tablePages m₀ pgd

/-- A 1 GiB page does not take the place of a page directory that refers to page tables. -/
def SparesTables (m : Paging π) (pgd : ℕ) (q : PageRequest) : Prop :=
  q.level = 2 → Present (m.entry pgd (pgx q.vaddr)) →
    let e := m.entry (ptaddr (m.entry pgd (pgx q.vaddr))) (pux q.vaddr)
    Present e → ¬ Large e →
      ∀ i, ¬ (Present (m.entry (ptaddr e) i) ∧ ¬ Large (m.entry (ptaddr e) i))

variable (P pgd) in
/-- Every page of a list spares the tables, when its turn comes. -/
def AllSpare : List PageRequest → Paging π → Prop
  | [], _ => True
  | q :: qs, m => SparesTables m pgd q ∧
      ∀ m' ∈ mapPage P pgd q.level q.vaddr q.value m, AllSpare qs m'

instance (q : PageRequest) : Decidable (SparesTables m pgd q) :=
  inferInstanceAs (Decidable (_ → _ → _ → _ → ∀ _ : Fin 512, ¬ (_ ∧ _)))

instance AllSpare.instDecidable (qs : List PageRequest) (m : Paging π) :
    Decidable (AllSpare P pgd qs m) :=
  match qs with
  | [] => inferInstanceAs (Decidable True)
  | _ :: qs =>
    have : DecidablePred (AllSpare P pgd qs) := fun m => instDecidable qs m
    inferInstanceAs (Decidable (_ ∧ ∀ m' ∈ _, AllSpare P pgd qs m'))

/-- The pages in use that are no table pages. -/
def otherPages (held : π → Set ℕ) (m : Paging π) (pgd : ℕ) : Set ℕ :=
  held m.pages \ tablePages m pgd

/-! ### One page -/

theorem child_of_pd {e : ℕ} (hp : Present e) (hl : ¬ Large e) {k : ℕ} (hk : k ≠ 0) :
    (pageShape Set.univ).child k e = some (ptaddr e) :=
  child_of_table hk hp (Or.inr hl)

/-- A page directory with no page tables is the only table below itself. -/
theorem tables_pd_subset_iff {entry : ℕ → Fin 512 → ℕ} {t : ℕ}
    (ht : (pageShape Set.univ).Tree entry 1 t) :
    (pageShape Set.univ).tables entry 1 t \ {t} = ∅ ↔
      ∀ i, ¬ (Present (entry t i) ∧ ¬ Large (entry t i)) := by
  obtain ⟨htree, -⟩ := Radix.Shape.tree_iff.mp ht
  constructor
  · rintro h i ⟨hp, hl⟩
    have hbelow : (pageShape Set.univ).below entry 1 (entry t i) =
        (pageShape Set.univ).tables entry 0 (ptaddr (entry t i)) :=
      Radix.Shape.below_of_child (child_of_pd hp hl (by norm_num))
    have hmem : ptaddr (entry t i) ∈ (pageShape Set.univ).below entry 1 (entry t i) := by
      rw [hbelow]
      exact Radix.Shape.self_mem_tables
    have hne : ptaddr (entry t i) ≠ t := by
      intro heq
      rw [heq] at hmem
      exact (htree i (mem_slots (by norm_num) i)).1 hmem
    have : ptaddr (entry t i) ∈ (pageShape Set.univ).tables entry 1 t \ {t} :=
      ⟨Radix.Shape.below_subset (mem_slots (by norm_num) i) hmem, hne⟩
    rw [h] at this
    exact this
  · intro h
    refine Set.eq_empty_iff_forall_notMem.mpr ?_
    rintro p ⟨hp, hne⟩
    rcases Radix.Shape.mem_tables.mp hp with rfl | ⟨i, -, hp⟩
    · exact hne rfl
    · have hnone : (pageShape Set.univ).child 1 (entry t i) = none := by
        refine child_eq_none_iff.mpr (Or.inr ?_)
        by_cases hpres : Present (entry t i)
        · exact Or.inr ⟨by norm_num, not_not.mp fun hl => h i ⟨hpres, hl⟩⟩
        · exact Or.inl hpres
      rw [Radix.Shape.below_of_none hnone] at hp
      exact hp

/-- A page loses no table iff it spares the tables: it is no 1 GiB page in place of a page directory that
refers to page tables. -/
theorem orphans_eq_empty_iff {q : PageRequest} (hwf : WellFormed held m pgd) (hq : q.level ≤ 2) :
    (pageShape Set.univ).orphans m.entry q.level 3 pgd q.vaddr = ∅ ↔ SparesTables m pgd q := by
  have hne3 : 2 + 1 ≠ q.level := by omega
  by_cases hg : Present (m.entry pgd (pgx q.vaddr))
  · have hcg : (pageShape Set.univ).child (2 + 1) (m.entry pgd (pgx q.vaddr)) =
        some (ptaddr (m.entry pgd (pgx q.vaddr))) := child_of_table (by norm_num) hg (Or.inl rfl)
    have hown := hwf.owns.child (Set.mem_univ _ : pgx q.vaddr ∈ Set.univ) hcg
    set pud := ptaddr (m.entry pgd (pgx q.vaddr)) with hpud
    have horph : (pageShape Set.univ).orphans m.entry q.level 3 pgd q.vaddr =
        (pageShape Set.univ).orphans m.entry q.level 2 pud q.vaddr := by
      rw [Radix.Shape.orphans_of_child (r := q.level) hcg, if_neg hne3]
    rw [horph]
    set e := m.entry pud (pux q.vaddr) with hedef
    by_cases ht : Present e ∧ ¬ Large e
    · obtain ⟨he, hl⟩ := ht
      have hce : (pageShape Set.univ).child (1 + 1) e = some (ptaddr e) :=
        child_of_pd he hl (by norm_num)
      have htree : (pageShape Set.univ).Tree m.entry 1 (ptaddr e) :=
        (hown.child (mem_slots (by norm_num) (pux q.vaddr)) hce).tree
      have horph' := Radix.Shape.orphans_of_child (R := pageShape Set.univ) (t := pud)
        (a := q.vaddr) (r := q.level) hce
      rw [horph']
      by_cases hq2 : q.level = 2
      · rw [if_pos hq2.symm, tables_pd_subset_iff htree]
        exact ⟨fun h _ _ _ _ => h, fun h => h hq2 hg he hl⟩
      · rw [if_neg (Ne.symm hq2)]
        refine ⟨fun _ h2 => (hq2 h2).elim, fun _ => ?_⟩
        -- over a page table nothing is lost
        cases hc : (pageShape Set.univ).child (0 + 1)
            (m.entry (ptaddr e) ((pageShape Set.univ).idx (0 + 1) q.vaddr)) with
        | none => exact Radix.Shape.orphans_of_none hc
        | some c =>
          rw [Radix.Shape.orphans_of_child hc]
          split
          · exact Set.sdiff_self
          · rfl
    · have hnone : (pageShape Set.univ).child 2 e = none := by
        refine child_eq_none_iff.mpr (Or.inr ?_)
        by_cases hpres : Present e
        · exact Or.inr ⟨by norm_num, not_not.mp fun hl => ht ⟨hpres, hl⟩⟩
        · exact Or.inl hpres
      refine iff_of_true (Radix.Shape.orphans_of_none hnone) ?_
      intro _ _
      exact fun he hl => (ht ⟨he, hl⟩).elim
  · have hnone : (pageShape Set.univ).child 3 (m.entry pgd (pgx q.vaddr)) = none :=
      child_of_not_present hg
    exact iff_of_true (Radix.Shape.orphans_of_none hnone) fun _ h => (hg h).elim

theorem mapPage_otherPages {q : PageRequest} (hP : TablePageLaws P held)
    (hq : LeafFor q.level q.value) (hwf : WellFormed held m pgd)
    (h : mapPage P pgd q.level q.vaddr q.value m = some m') :
    WellFormed held m' pgd ∧ otherPages held m pgd ⊆ otherPages held m' pgd ∧
      (otherPages held m' pgd = otherPages held m pgd ↔ SparesTables m pgd q) := by
  obtain ⟨hwf', hm⟩ := hwf.mapPage hP hq h
  have hrest : otherPages held m' pgd = otherPages held m pgd ∪
      (pageShape Set.univ).orphans m.entry q.level 3 pgd q.vaddr := hm.edit.rest
  refine ⟨hwf', ?_, ?_⟩
  · rw [hrest]
    exact Set.subset_union_left
  · rw [← orphans_eq_empty_iff hwf hq.le, hrest, Set.union_eq_left]
    constructor
    · intro hsub
      refine Set.eq_empty_iff_forall_notMem.mpr fun p hp => ?_
      obtain ⟨hheld, hne⟩ := hsub hp
      exact hne (hm.edit.lost_sub p hp hheld)
    · intro hempty
      rw [hempty]
      exact Set.empty_subset _

/-! ### Calls and runs -/

/-- What a call leaves behind: no page goes out of the hands of others, and none is added to them exactly
if every page spares the tables. -/
theorem installAll_otherPages {qs : List PageRequest} (hP : TablePageLaws P held)
    (hqs : ∀ q ∈ qs, LeafFor q.level q.value) (hwf : WellFormed held m pgd)
    (h : installAll P pgd qs m = some m') :
    WellFormed held m' pgd ∧ otherPages held m pgd ⊆ otherPages held m' pgd ∧
      (otherPages held m' pgd = otherPages held m pgd ↔ AllSpare P pgd qs m) := by
  induction qs generalizing m with
  | nil =>
    obtain rfl := Option.some.inj h
    exact ⟨hwf, le_rfl, iff_of_true rfl trivial⟩
  | cons q qs ih =>
    obtain ⟨m₁, h₁, h₂⟩ := Option.bind_eq_some_iff.mp h
    obtain ⟨hwf₁, hsub₁, hiff₁⟩ := mapPage_otherPages hP (hqs q List.mem_cons_self) hwf h₁
    obtain ⟨hwf₂, hsub₂, hiff₂⟩ := ih (fun q hq => hqs q (List.mem_cons_of_mem _ hq)) hwf₁ h₂
    refine ⟨hwf₂, hsub₁.trans hsub₂, fun heq => ?_, fun hall => ?_⟩
    · have heq₁ : otherPages held m₁ pgd = otherPages held m pgd :=
        (hsub₂.trans heq.subset).antisymm hsub₁
      refine ⟨hiff₁.mp heq₁, fun m₂ hm₂ => ?_⟩
      obtain rfl : m₁ = m₂ := Option.some.inj (h₁.symm.trans hm₂)
      exact hiff₂.mp (heq.trans heq₁.symm)
    · exact (hiff₂.mpr (hall.2 m₁ h₁)).trans (hiff₁.mpr hall.1)

/-- The pages of others stayed what they were exactly if the accounts are right. -/
theorem conserved_of_otherPages {m₀ : Paging π} (hwf₀ : WellFormed held m₀ pgd)
    (hwf : WellFormed held m pgd) (h : otherPages held m pgd = otherPages held m₀ pgd) :
    Conserved held pgd m₀ m := by
  have hsub₀ : tablePages m₀ pgd ⊆ held m₀.pages := hwf₀.owns.sub
  have hsub : tablePages m pgd ⊆ held m.pages := hwf.owns.sub
  have hother : ∀ p, p ∈ held m.pages ∧ p ∉ tablePages m pgd ↔
      p ∈ held m₀.pages ∧ p ∉ tablePages m₀ pgd := fun p => Set.ext_iff.mp h p
  refine ⟨Set.ext fun p => ?_, hsub, h.subset⟩
  have hp := hother p
  constructor
  · intro ht
    have hheld := hsub ht
    refine ⟨?_, fun hgone => hgone.2 hheld⟩
    by_cases h₀ : p ∈ held m₀.pages
    · by_cases ht₀ : p ∈ tablePages m₀ pgd
      · exact Or.inl ht₀
      · exact ((hp.mpr ⟨h₀, ht₀⟩).2 ht).elim
    · exact Or.inr ⟨hheld, h₀⟩
  · rintro ⟨ht₀ | ⟨hheld, h₀⟩, hgone⟩
    · have hheld : p ∈ held m.pages := by
        by_contra hne
        exact hgone ⟨hsub₀ ht₀, hne⟩
      by_contra hne
      exact (hp.mp ⟨hheld, hne⟩).2 ht₀
    · by_contra hne
      exact h₀ (hp.mp ⟨hheld, hne⟩).1

/-- A call that does not spare the tables leaves some of them allocated and unreachable. -/
theorem not_conserved_of_call {m₀ : Paging π} {page1GB : Bool} {c : MapCall}
    (hP : TablePageLaws P held) (hwf : WellFormed held m pgd)
    (heq : otherPages held m pgd = otherPages held m₀ pgd)
    (hstep : mapCall P page1GB pgd m c = some m')
    (hall : ¬ AllSpare P pgd (c.requests page1GB) m) : ¬ Conserved held pgd m₀ m' := by
  intro hcons
  rw [mapCall_eq] at hstep
  obtain ⟨-, hsub, hiff⟩ := installAll_otherPages hP MapCall.leafFor hwf hstep
  refine hall (hiff.mp (Set.Subset.antisymm ?_ hsub))
  rw [heq]
  exact hcons.reachable

/-- **The table pages are conserved all along a run of `arch_map_region` calls exactly if every page that
is installed spares the tables.** -/
theorem conserved_iff {page1GB : Bool} {l : List (MapCall × Paging π)} (hP : TablePageLaws P held)
    (hwf : WellFormed held m pgd) (hrun : Trace.Run (MapStep P page1GB pgd) m l) :
    (∀ t ∈ Trace.states m l, Conserved held pgd m t) ↔
      Trace.StepsOk (fun t c => AllSpare P pgd (c.requests page1GB) t) m l := by
  refine Trace.invariant_iff
    (I := fun t => WellFormed held t pgd ∧ otherPages held t pgd = otherPages held m pgd)
    ?_ ?_ ?_ hrun ⟨hwf, rfl⟩
  · rintro t c t' ⟨hwft, heq⟩ hok hstep
    rw [MapStep, mapCall_eq] at hstep
    obtain ⟨hwft', -, hiff⟩ := installAll_otherPages hP MapCall.leafFor hwft hstep
    exact ⟨hwft', (hiff.mpr hok).trans heq⟩
  · rintro t ⟨hwft, heq⟩
    exact conserved_of_otherPages hwf hwft heq
  · rintro t c t' ⟨hwft, heq⟩ hok hstep
    exact not_conserved_of_call hP hwft heq hstep hok

/-! ### Two runs -/

/-- A 4 KiB page at 1 GiB. -/
def smallPage : MapCall := ⟨0x40000000, 0x40000000, 0x1000, pteW⟩

/-- The 1 GiB page at 1 GiB. -/
def hugePage : MapCall := ⟨0x40000000, 0x40000000, 0x40000000, pteW⟩

theorem conserved_iff_smallInHuge :
    ∃ l t, Trace.Run (MapStep listPages true 4096) emptyTables l ∧ t ∈ Trace.states emptyTables l ∧
      t.pages = [4, 3, 2, 1] ∧ Conserved listHeld 4096 emptyTables t := by
  have hexec : (Trace.exec (mapCall listPages true 4096) emptyTables [hugePage, smallPage]).any
      fun l => decide (Trace.StepsOk (fun t c => AllSpare listPages 4096 (c.requests true) t)
        emptyTables l) && (Trace.states emptyTables l).any fun t => t.pages == [4, 3, 2, 1] := by
    decide +kernel
  obtain ⟨l, hl, hok⟩ := (Option.any_eq_true _ _).mp hexec
  rw [Bool.and_eq_true, decide_eq_true_eq, List.any_eq_true] at hok
  obtain ⟨hok, t, ht, hpages⟩ := hok
  have hrun : Trace.Run (MapStep listPages true 4096) emptyTables l := Trace.run_of_exec hl
  exact ⟨l, t, hrun, ht, beq_iff_eq.mp hpages,
    (conserved_iff listPages_laws emptyTables_wellFormed hrun).mpr hok t ht⟩

/-- The page directory is given back; its page table is not. -/
theorem not_conserved_hugeOverSmall :
    ¬ ∀ l, Trace.Run (MapStep listPages true 4096) emptyTables l →
      ∀ t ∈ Trace.states emptyTables l, Conserved listHeld 4096 emptyTables t := by
  intro hall
  have hexec : (mapCall listPages true 4096 emptyTables smallPage).any fun m =>
      decide (AllSpare listPages 4096 (smallPage.requests true) emptyTables) &&
      (!decide (AllSpare listPages 4096 (hugePage.requests true) m) &&
      (mapCall listPages true 4096 m hugePage).isSome) := by
    decide +kernel
  obtain ⟨m, hm, hok⟩ := (Option.any_eq_true _ _).mp hexec
  simp only [Bool.and_eq_true, decide_eq_true_eq, Bool.not_eq_true', decide_eq_false_iff_not] at hok
  obtain ⟨hsmall, hhuge, hsome⟩ := hok
  obtain ⟨m', hm'⟩ := Option.isSome_iff_exists.mp hsome
  have hstep := hm
  rw [mapCall_eq] at hstep
  obtain ⟨hwf, -, hiff⟩ :=
    installAll_otherPages listPages_laws MapCall.leafFor emptyTables_wellFormed hstep
  have hrun : Trace.Run (MapStep listPages true 4096) emptyTables [(smallPage, m), (hugePage, m')] :=
    .cons hm (.cons hm' (.nil _))
  refine not_conserved_of_call listPages_laws hwf (hiff.mpr hsmall) hm' hhuge (hall _ hrun m' ?_)
  simp [Trace.states]

end GeekToyOS
