import GeekToyOS.Arch.PageWalk

/-!
# `arch_map_region` page by page

A call of `arch_map_region` installs a list of pages, one after the other; which ones depends on its
arguments alone. So what installing a page preserves, a call preserves.

## Main definitions

* `PageRequest`, `regionRequests` — a page to install, and the pages that a call installs
* `installAll` — installing them in order
* `WellFormed` — a tree of tables that are all in use, without `PTE_PS` at the top level

## Main results

* `archMapRegion_eq` — the call installs its pages
* `installAll_wellFormed` — the tables stay well-formed
-/

namespace GeekToyOS

variable {π : Type*} {P : TablePages π} {held : π → Set ℕ} {m m' : Paging π} {pgd : ℕ}

/-- A page of a level, at an address, with the entry that is to map it. -/
structure PageRequest where
  level : ℕ
  vaddr : ℕ
  value : ℕ
deriving DecidableEq, Repr

variable (P pgd) in
/-- Install one page after the other. -/
def installAll : List PageRequest → Paging π → Option (Paging π)
  | [], m => some m
  | q :: qs, m => (mapPage P pgd q.level q.vaddr q.value m).bind (installAll qs)

theorem installAll_append (qs rs : List PageRequest) (m : Paging π) :
    installAll P pgd (qs ++ rs) m = (installAll P pgd qs m).bind (installAll P pgd rs) := by
  induction qs generalizing m with
  | nil => rfl
  | cons q qs ih =>
    rw [List.cons_append, installAll, installAll, Option.bind_assoc]
    exact congrArg _ (funext fun m => ih m)

/-! ### The pages of a chunk -/

/-- `n` pages of one level, from `addr` on. -/
def chunkRequests (attr level : ℕ) : ℕ → ℕ → ℕ → List PageRequest
  | 0, _, _ => []
  | n + 1, addr, paddr => ⟨level, addr, leafValue paddr attr level⟩ ::
      chunkRequests attr level n (wadd addr (levelSize level)) (wadd paddr (levelSize level))

theorem levelSize_eq {level : ℕ} (h : level ≤ 2) : levelSize level = 2 ^ levelShift level := by
  interval_cases level <;> rfl

/-- The loop of `__map_region` installs the pages of its chunk, one in each turn. -/
theorem mapLoop_eq {attr level vaddrEnd : ℕ} (hlevel : level ≤ 2) (hend : vaddrEnd < 2 ^ 64)
    (n fuel addr paddr : ℕ) (hn : n ≤ fuel)
    (h : addr + n * levelSize level = vaddrEnd ∨ n = 0 ∧ vaddrEnd ≤ addr) (m : Paging π) :
    mapLoop P pgd attr level vaddrEnd fuel addr paddr m =
      installAll P pgd (chunkRequests attr level n addr paddr) m := by
  have hsize := levelSize_eq hlevel
  have hpos : 0 < levelSize level := hsize ▸ Nat.two_pow_pos _
  induction n generalizing fuel addr paddr m with
  | zero =>
    have hge : ¬ addr < vaddrEnd := by omega
    cases fuel with
    | zero => rfl
    | succ fuel => rw [mapLoop, if_neg hge, chunkRequests, installAll]
  | succ n ih =>
    obtain ⟨fuel, rfl⟩ : ∃ f, fuel = f + 1 := ⟨fuel - 1, by omega⟩
    have hsum : addr + (n + 1) * levelSize level = vaddrEnd := h.resolve_right fun h => by omega
    rw [Nat.succ_mul] at hsum
    have hlt : addr < vaddrEnd := by omega
    have hnext : wadd addr (levelSize level) = addr + levelSize level := wadd_of_lt (by omega)
    rw [mapLoop, if_pos hlt, chunkRequests, installAll]
    refine congrArg _ (funext fun m => ih fuel _ _ (by omega) (Or.inl ?_) m)
    rw [hnext]
    omega

/-- The pages that `__map_region` installs. -/
def mapRequests (vaddr paddr size attr level : ℕ) : List PageRequest :=
  if size = 0 then []
  else
    let vaddrEnd := align (wadd vaddr size) (levelSize level)
    let start := alignDown vaddr (levelSize level)
    chunkRequests attr level ((vaddrEnd - start) / levelSize level) start
      (wsub paddr (wsub vaddr start))

theorem alignDown_eq (x : ℕ) {k : ℕ} (hk : k ≤ 64) :
    alignDown x (2 ^ k) = x % 2 ^ 64 / 2 ^ k * 2 ^ k := by
  have h := and_wnot_bitMask hk x
  rw [alignDown, notSizeMask_two_pow, ← wnot_bitMask]
  exact h

theorem align_eq (x : ℕ) {k : ℕ} (hk : k ≤ 64) :
    align x (2 ^ k) = (x + (2 ^ k - 1)) % 2 ^ 64 / 2 ^ k * 2 ^ k := by
  have h := alignDown_eq (wadd x (sizeMask (2 ^ k))) hk
  rw [alignDown] at h
  rw [align, h, wadd, Nat.mod_mod, sizeMask]

theorem mapRegion_eq {attr level : ℕ} (hlevel : level ≤ 2) (vaddr paddr size : ℕ) (m : Paging π) :
    mapRegion P pgd vaddr paddr size attr level m =
      installAll P pgd (mapRequests vaddr paddr size attr level) m := by
  rw [mapRegion, mapRequests]
  split
  · rfl
  · dsimp only
    have hk : levelShift level ≤ 64 := by
      rw [levelShift]
      omega
    have hsize := levelSize_eq hlevel
    have hend : align (wadd vaddr size) (levelSize level) < 2 ^ 64 := by
      rw [hsize, align_eq _ hk]
      exact lt_of_le_of_lt (Nat.div_mul_le_self _ _) (Nat.mod_lt _ (by norm_num))
    have hdvd : levelSize level ∣ align (wadd vaddr size) (levelSize level) := by
      rw [hsize, align_eq _ hk]
      exact Nat.dvd_mul_left _ _
    have hdvd' : levelSize level ∣ alignDown vaddr (levelSize level) := by
      rw [hsize, alignDown_eq _ hk]
      exact Nat.dvd_mul_left _ _
    refine mapLoop_eq hlevel hend _ _ _ _ ?_ ?_ m
    · exact (Nat.div_le_self _ _).trans (Nat.sub_le _ _)
    · rcases Nat.lt_or_ge (alignDown vaddr (levelSize level))
        (align (wadd vaddr size) (levelSize level)) with hlt | hge
      · left
        rw [Nat.div_mul_cancel (Nat.dvd_sub hdvd hdvd')]
        omega
      · right
        rw [Nat.sub_eq_zero_of_le hge, Nat.zero_div]
        exact ⟨rfl, hge⟩

/-- The pages that `arch_map_region` installs. -/
def regionRequests (page1GB : Bool) (vaddr paddr size permFlag : ℕ) : List PageRequest :=
  let delta := wsub vaddr paddr
  let vaS1 := align vaddr ptSize
  let vaE1 := alignDown (wadd vaddr size) ptSize
  let vaS2 := align vaddr (ptSize * npdEntries)
  let vaE2 := alignDown (wadd vaddr size) (ptSize * npdEntries)
  let vaEnd := align (wadd vaddr size) pgSize
  let va := alignDown vaddr pgSize
  let chunk := fun start stop level =>
    mapRequests start (wsub start delta) (wsub stop start) (regionPerm permFlag) level
  if vaS1 < vaE1 then
    chunk va vaS1 0 ++
    (if vaS2 < vaE2 ∧ page1GB then chunk vaS1 vaS2 1 ++ (chunk vaS2 vaE2 2 ++ chunk vaE2 vaE1 1)
      else chunk vaS1 vaE1 1) ++
    chunk vaE1 vaEnd 0
  else chunk va vaEnd 0

/-- **The call installs its pages**, those of all its chunks in order. -/
theorem archMapRegion_eq (page1GB : Bool) (pgdir : Option ℕ) (vaddr paddr size permFlag : ℕ)
    (m : Paging π) : archMapRegion P page1GB pgdir vaddr paddr size permFlag m =
      installAll P (pgdir.getD m.kernelPgd) (regionRequests page1GB vaddr paddr size permFlag) m := by
  have hchunk : ∀ {level : ℕ} (_ : level ≤ 2) (start delta size : ℕ),
      mapRegion P (pgdir.getD m.kernelPgd) start delta size (regionPerm permFlag) level =
        installAll P (pgdir.getD m.kernelPgd)
          (mapRequests start delta size (regionPerm permFlag) level) :=
    fun h _ _ _ => funext fun m => mapRegion_eq h _ _ _ m
  rw [archMapRegion, regionRequests]
  dsimp only
  simp only [hchunk (by norm_num : 0 ≤ 2), hchunk (by norm_num : 1 ≤ 2), hchunk (le_refl 2)]
  split
  · rw [installAll_append, installAll_append, Option.bind_assoc]
    split
    · refine congrArg _ (funext fun m => ?_)
      simp only [installAll_append, Option.bind_assoc]
    · rfl
  · rfl

/-! ### What the pages of a call have in common -/

theorem mem_chunkRequests {attr level n addr paddr : ℕ} {q : PageRequest}
    (h : q ∈ chunkRequests attr level n addr paddr) :
    q.level = level ∧ ∃ pa, q.value = leafValue pa attr level := by
  induction n generalizing addr paddr with
  | zero => cases h
  | succ n ih =>
    rcases List.mem_cons.mp h with rfl | h
    · exact ⟨rfl, paddr, rfl⟩
    · exact ih h

theorem mem_mapRequests {vaddr paddr size attr level : ℕ} {q : PageRequest}
    (h : q ∈ mapRequests vaddr paddr size attr level) :
    q.level = level ∧ ∃ pa, q.value = leafValue pa attr level := by
  rw [mapRequests] at h
  split at h
  · cases h
  · exact mem_chunkRequests h

/-- A page of a call is a page of one of its chunks. -/
theorem exists_chunk_of_mem {page1GB : Bool} {vaddr paddr size permFlag : ℕ} {q : PageRequest}
    (h : q ∈ regionRequests page1GB vaddr paddr size permFlag) :
    ∃ start stop level, level ≤ 2 ∧ q ∈ mapRequests start (wsub start (wsub vaddr paddr))
      (wsub stop start) (regionPerm permFlag) level := by
  rw [regionRequests] at h
  dsimp only at h
  split at h
  · rcases List.mem_append.mp h with h | h
    · rcases List.mem_append.mp h with h | h
      · exact ⟨_, _, _, by norm_num, h⟩
      · split at h
        · rcases List.mem_append.mp h with h | h
          · exact ⟨_, _, _, by norm_num, h⟩
          · rcases List.mem_append.mp h with h | h
            · exact ⟨_, _, _, le_rfl, h⟩
            · exact ⟨_, _, _, by norm_num, h⟩
        · exact ⟨_, _, _, by norm_num, h⟩
    · exact ⟨_, _, _, by norm_num, h⟩
  · exact ⟨_, _, _, by norm_num, h⟩

/-- The entry that is made for a large page has the bit that says so, and one for a small page counts as a
page anyhow. -/
theorem leafFor_leafValue {paddr attr level : ℕ} (h : level ≤ 2) :
    LeafFor level (leafValue paddr attr level) := by
  refine ⟨h, fun hne => ?_⟩
  rw [leafValue, if_pos hne, large_iff, Nat.testBit_or]
  simp [ptePS, show Nat.testBit 0x080 7 = true from rfl]

theorem leafFor_of_mem {page1GB : Bool} {vaddr paddr size permFlag : ℕ} {q : PageRequest}
    (h : q ∈ regionRequests page1GB vaddr paddr size permFlag) : LeafFor q.level q.value := by
  obtain ⟨start, stop, level, hlevel, h⟩ := exists_chunk_of_mem h
  obtain ⟨rfl, pa, hv⟩ := mem_mapRequests h
  rw [hv]
  exact leafFor_leafValue hlevel

/-! ### Well-formed tables -/

/-- The tables below the page directory form a tree, all of them are in use, and `PTE_PS` is clear at the
top level. -/
structure WellFormed (held : π → Set ℕ) (m : Paging π) (pgd : ℕ) : Prop where
  owns : (pageShape Set.univ).Owns (m.store held) 3 pgd
  top : ∀ i, ¬ Large (m.entry pgd i)

/-- The table pages reachable from the page directory. -/
def tablePages (m : Paging π) (pgd : ℕ) : Set ℕ := (pageShape Set.univ).tables m.entry 3 pgd

/-- The level and the entry at which the walk for an address ends. -/
def walkEnd (m : Paging π) (pgd va : ℕ) : ℕ × ℕ := (pageShape Set.univ).find m.entry 3 pgd va

theorem within_univ {k va : ℕ} : (pageShape Set.univ).Within k va := by
  intro j _
  by_cases hj : j = 3 <;> simp [pageShape, hj]

theorem WellFormed.mapPage {r v va : ℕ} (hP : TablePageLaws P held) (hv : LeafFor r v)
    (hwf : WellFormed held m pgd) (h : mapPage P pgd r va v m = some m') :
    WellFormed held m' pgd ∧ Mapped held Set.univ r v va m m' 3 pgd := by
  obtain ⟨hm, htop⟩ := mapPage_mapped hP hv hwf.owns (Set.mem_univ _) h
  refine ⟨⟨hm.edit.owns, fun i => ?_⟩, hm⟩
  rcases htop i with h | h
  · rw [h]
    exact hwf.top i
  · exact h.2.2

/-- **Rule for what installing a page preserves**: a sequence of pages preserves it too. -/
theorem installAll_induct {Q : Paging π → Prop} {qs : List PageRequest}
    (hstep : ∀ q ∈ qs, ∀ {m m'}, Q m → mapPage P pgd q.level q.vaddr q.value m = some m' → Q m')
    (hm : Q m) (h : installAll P pgd qs m = some m') : Q m' := by
  induction qs generalizing m with
  | nil =>
    obtain rfl := Option.some.inj h
    exact hm
  | cons q qs ih =>
    obtain ⟨m₁, h₁, h₂⟩ := Option.bind_eq_some_iff.mp h
    exact ih (fun q hq => hstep q (List.mem_cons_of_mem _ hq))
      (hstep q List.mem_cons_self hm h₁) h₂

theorem installAll_wellFormed {qs : List PageRequest} (hP : TablePageLaws P held)
    (hqs : ∀ q ∈ qs, LeafFor q.level q.value) (hwf : WellFormed held m pgd)
    (h : installAll P pgd qs m = some m') : WellFormed held m' pgd ∧ m'.kernelPgd = m.kernelPgd := by
  refine installAll_induct (Q := fun m₁ => WellFormed held m₁ pgd ∧ m₁.kernelPgd = m.kernelPgd)
    (fun q hq m₁ m₂ h₁ h₂ => ?_) ⟨hwf, rfl⟩ h
  obtain ⟨hwf₂, hm⟩ := h₁.1.mapPage hP (hqs q hq) h₂
  exact ⟨hwf₂, hm.kernelPgd.trans h₁.2⟩

/-! ### A source of pages -/

/-- The numbers of the pages in use; the page after the highest one is next. -/
def listPages : TablePages (List ℕ) where
  zalloc s :=
    let n := s.foldr max 0 + 1
    if n < 2 ^ 40 then some (n * 4096, n :: s) else none
  free s addr := s.filter (· ≠ addr / 4096)

/-- The pages in use. -/
def listHeld (s : List ℕ) : Set ℕ := {p | ∃ n ∈ s, n < 2 ^ 40 ∧ p = n * 4096}

theorem le_foldr_max {s : List ℕ} {n : ℕ} (h : n ∈ s) : n ≤ s.foldr max 0 := by
  induction s with
  | nil => cases h
  | cons x s ih =>
    rcases List.mem_cons.mp h with rfl | h
    · exact le_max_left _ _
    · exact (ih h).trans (le_max_right _ _)

theorem listPages_laws : TablePageLaws listPages listHeld where
  held_page := by
    rintro s p ⟨n, -, hn, rfl⟩
    omega
  zalloc := by
    intro s a s' h
    rw [listPages] at h
    dsimp only at h
    split at h
    · rename_i hlt
      obtain ⟨rfl, rfl⟩ := Prod.mk.inj (Option.some.inj h)
      refine ⟨?_, ?_⟩
      · rintro ⟨n, hn, -, heq⟩
        have := le_foldr_max hn
        omega
      · ext p
        constructor
        · rintro ⟨n, hn, hlt', rfl⟩
          rcases List.mem_cons.mp hn with rfl | hn
          · exact Or.inl rfl
          · exact Or.inr ⟨n, hn, hlt', rfl⟩
        · rintro (rfl | ⟨n, hn, hlt', rfl⟩)
          · exact ⟨_, List.mem_cons_self, hlt, rfl⟩
          · exact ⟨n, List.mem_cons_of_mem _ hn, hlt', rfl⟩
    · cases h
  free := by
    rintro s a ⟨n, hn, hlt, rfl⟩
    rw [listPages]
    ext p
    constructor
    · rintro ⟨l, hl, hlt', rfl⟩
      obtain ⟨hl, hne⟩ := List.mem_filter.mp hl
      refine ⟨⟨l, hl, hlt', rfl⟩, fun h => ?_⟩
      have hll : l * 4096 = n * 4096 := h
      simp at hne
      omega
    · rintro ⟨⟨l, hl, hlt', rfl⟩, hne⟩
      refine ⟨l, List.mem_filter.mpr ⟨hl, ?_⟩, hlt', rfl⟩
      have hne : l * 4096 ≠ n * 4096 := hne
      simp
      omega

/-- An empty page directory in page 1, the only page in use. -/
def emptyTables : Paging (List ℕ) := ⟨fun _ _ => 0, 4096, [1]⟩

/-- A page directory that refers to nothing is well-formed. -/
theorem wellFormed_of_absent (hheld : pgd ∈ held m.pages) (hnone : ∀ i, m.entry pgd i = 0) :
    WellFormed held m pgd := by
  refine ⟨Radix.Shape.Owns.of_leaf hheld fun i _ => child_of_not_present ?_, fun i => ?_⟩
  · rw [show (m.store held).mem pgd i = 0 from hnone i]
    exact not_present_zero
  · rw [hnone i]
    decide

theorem emptyTables_wellFormed : WellFormed listHeld emptyTables 4096 :=
  wellFormed_of_absent ⟨1, List.mem_singleton.mpr rfl, by norm_num, rfl⟩ fun _ => rfl

end GeekToyOS
