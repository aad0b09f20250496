import GeekToyOS.Arch.I386Paging

/-!
# What `arch_map_region` does on i386

The call maps page after page. Where the directory has no table, it links the next page that
`mm_phy_page_alloc` returns, as it is: the other entries of the new table are whatever that page held. So
every address ends at the entry written for it, at such a leftover, or where it ended before
(`I386.Progress`), and the call maps its region and nothing else exactly if the leftovers are not present.

## Main definitions

* `I386.handedOut` — the pages that `mm_phy_page_alloc` returns, in order
* `I386.Progress` — where the walks end when the pages of `[lo, hi)` are mapped
* `I386.MapsRegion` — the region is mapped as asked for, and every other address as before
* `I386.TablesClean` — the pages for new tables hold no present entry outside the region

## Main results

* `I386.Progress.step`, `I386.archMapRegion_progress` — one page, and all of them
* `I386.mapsRegion_iff` — when the call does what it is for
-/

namespace GeekToyOS.I386

variable {π : Type*} {P : TablePages π} {held : π → Set ℕ} {m m₁ m₂ m' : Paging π}
  {pgd lo hi a vaddr paddr size perm : ℕ} {value : ℕ → ℕ}

/-! ### Pages for new tables -/

variable (P) in
/-- The state after `k` calls of `mm_phy_page_alloc(1)`. -/
def drawn : ℕ → π → Option π
  | 0, s => some s
  | k + 1, s => (drawn k s).bind fun s' => (P.alloc s').map Prod.snd

variable (P) in
/-- The page that the call after `k` others returns. -/
def handedOut (k : ℕ) (s : π) : Option ℕ := (drawn P k s).bind fun s' => (P.alloc s').map Prod.fst

/-- Entry `j` of the directory, from the one of `lo` on, refers to no table. -/
def AbsentTable (m : Paging π) (pgd lo j : ℕ) : Prop :=
  lo / 2 ^ 22 ≤ j ∧ ¬ Present (m.entry pgd (pdx (j * 2 ^ 22)))

instance : DecidablePred (AbsentTable m pgd lo) := fun _ => inferInstanceAs (Decidable (_ ∧ _))

/-- The directory entry behind those of `[lo, hi)`. -/
def tablesEnd (lo hi : ℕ) : ℕ := if lo < hi then (hi - 1) / 2 ^ 22 + 1 else lo / 2 ^ 22

/-- The address belongs to a table that is new when `[lo, hi)` is mapped. -/
def NewTable (m : Paging π) (pgd lo hi a : ℕ) : Prop :=
  ¬ Present (m.entry pgd (pdx a)) ∧ lo / 2 ^ 22 ≤ a / 2 ^ 22 ∧ a / 2 ^ 22 < tablesEnd lo hi

instance : Decidable (NewTable m pgd lo hi a) := inferInstanceAs (Decidable (_ ∧ _))

/-- How many tables are new before the one of `a`. -/
def newBefore (m : Paging π) (pgd lo i : ℕ) : ℕ := Nat.count (AbsentTable m pgd lo) i

/-! ### The pages so far -/

/-- The pages of `[lo, hi)` are mapped by the entries `value`. -/
structure Progress (P : TablePages π) (held : π → Set ℕ) (m m' : Paging π) (pgd lo hi : ℕ)
    (value : ℕ → ℕ) : Prop where
  owns : pageShape.Owns (m'.store held) 1 pgd
  kernelPgd : m'.kernelPgd = m.kernelPgd
  free : ∀ p ∉ held m'.pages, m'.entry p = m.entry p
  pages : drawn P (newBefore m pgd lo (tablesEnd lo hi)) m.pages = some m'.pages
  dir : ∀ a < 2 ^ 32, Present (m'.entry pgd (pdx a)) ↔
    Present (m.entry pgd (pdx a)) ∨ lo / 2 ^ 22 ≤ a / 2 ^ 22 ∧ a / 2 ^ 22 < tablesEnd lo hi
  hit : ∀ a, lo ≤ a → a < hi → pageEntry m' pgd a = value (a / 4096 * 4096)
  /-- In a new table the other addresses find what the page held. -/
  fresh : ∀ a < 2 ^ 32, ¬ (lo ≤ a ∧ a < hi) → NewTable m pgd lo hi a →
    ∃ p, handedOut P (newBefore m pgd lo (a / 2 ^ 22)) m.pages = some p ∧
      pageEntry m' pgd a = m.entry p (ptx a)
  /-- Elsewhere they find what they found before. -/
  other : ∀ a < 2 ^ 32, ¬ (lo ≤ a ∧ a < hi) → ¬ NewTable m pgd lo hi a →
    pageEntry m' pgd a = pageEntry m pgd a

theorem Progress.refl (ho : pageShape.Owns (m.store held) 1 pgd) (lo : ℕ) (value : ℕ → ℕ) :
    Progress P held m m pgd lo lo value := by
  have hend : tablesEnd lo lo = lo / 2 ^ 22 := if_neg (Nat.lt_irrefl lo)
  have hnone : ∀ a, ¬ (lo / 2 ^ 22 ≤ a / 2 ^ 22 ∧ a / 2 ^ 22 < tablesEnd lo lo) := by
    rw [hend]
    omega
  have hcount : newBefore m pgd lo (lo / 2 ^ 22) = 0 := by
    rw [newBefore, Nat.count_iff_forall_not]
    exact fun j hj hab => absurd hab.1 (by omega)
  refine ⟨ho, rfl, fun _ _ => rfl, ?_, fun a _ => (or_iff_left (hnone a)).symm, fun a h h' => by omega,
    fun a _ _ h => absurd h.2 (hnone a), fun _ _ _ _ => rfl⟩
  rw [hend, hcount]
  rfl

theorem tablesEnd_succ (hhi : 4096 ∣ hi) (hle : lo ≤ hi) :
    tablesEnd lo (hi + 4096) = hi / 2 ^ 22 + 1 := by
  rw [tablesEnd, if_pos (by omega)]
  omega

/-- The table of the next page is the last one so far, or the one behind. -/
theorem tablesEnd_cases (hhi : 4096 ∣ hi) (hle : lo ≤ hi) :
    tablesEnd lo hi = hi / 2 ^ 22 ∧ (∀ a, lo ≤ a → a < hi → a / 2 ^ 22 ≠ hi / 2 ^ 22) ∨
      tablesEnd lo hi = hi / 2 ^ 22 + 1 := by
  rw [tablesEnd]
  split
  · by_cases h0 : hi % 2 ^ 22 = 0
    · exact Or.inl ⟨by omega, fun a _ _ => by omega⟩
    · exact Or.inr (by omega)
  · exact Or.inl ⟨by omega, fun a _ _ => by omega⟩

/-- Where the directory entry of the next page is absent, its table is the one behind those so far. -/
theorem Progress.tablesEnd_of_absent (h : Progress P held m m₁ pgd lo hi value) (hhi : 4096 ∣ hi)
    (hle : lo ≤ hi) (hlt : hi < 2 ^ 32) (hp : ¬ Present (m₁.entry pgd (pdx hi))) :
    tablesEnd lo hi = hi / 2 ^ 22 ∧ ¬ Present (m.entry pgd (pdx hi)) := by
  rw [h.dir hi hlt, not_or] at hp
  refine ⟨?_, hp.1⟩
  rcases tablesEnd_cases hhi hle with ⟨hT, -⟩ | hT
  · exact hT
  · exact absurd ⟨Nat.div_le_div_right hle, by omega⟩ hp.2

theorem pdx_table_base (a : ℕ) (ha : a < 2 ^ 32) : pdx (a / 2 ^ 22 * 2 ^ 22) = pdx a := by
  rw [pdx_eq_iff (by omega) ha]
  omega

/-- An address outside of the next page has another entry of its table. -/
theorem ptx_ne_of_table (hhi : 4096 ∣ hi) (hlt : hi < 2 ^ 32) (ha : a < 2 ^ 32)
    (hout : ¬ (hi ≤ a ∧ a < hi + 4096)) (hd : pdx a = pdx hi) : ptx a ≠ ptx hi := fun ht => by
  have := (page_eq_iff ha hlt).mp ⟨hd, ht⟩
  omega

/-- The next page of the call draws no table for the addresses of other tables. -/
theorem newTable_succ_iff (hhi : 4096 ∣ hi) (hle : lo ≤ hi) (hlt : hi < 2 ^ 32) (ha : a < 2 ^ 32)
    (hne : pdx a ≠ pdx hi) : NewTable m pgd lo (hi + 4096) a ↔ NewTable m pgd lo hi a := by
  rw [Ne, pdx_eq_iff ha hlt] at hne
  rw [NewTable, NewTable, tablesEnd_succ hhi hle]
  refine and_congr_right fun _ => and_congr_right fun _ => ?_
  rcases tablesEnd_cases hhi hle with ⟨hT, -⟩ | hT <;> omega

namespace Progress

section Step

variable (h : Progress P held m m₁ pgd lo hi value) (hhi : 4096 ∣ hi) (hle : lo ≤ hi)
  (hlt : hi < 2 ^ 32) (hm : PageMapped P held hi (value hi) m₁ m₂ pgd)

include h hhi hle hlt hm

/-- After the next page the tables that have been drawn are those of all addresses up to its end. -/
theorem step_pages : drawn P (newBefore m pgd lo (tablesEnd lo (hi + 4096))) m.pages = some m₂.pages := by
  have hbase := pdx_table_base hi hlt
  rw [tablesEnd_succ hhi hle]
  by_cases hp : Present (m₁.entry pgd (pdx hi))
  · rw [(hm.old_table hp).1, ← h.pages]
    rcases tablesEnd_cases hhi hle with ⟨hT, -⟩ | hT
    · have hpm : Present (m.entry pgd (pdx hi)) :=
        ((h.dir hi hlt).mp hp).resolve_right fun h' => by omega
      have hnot : ¬ AbsentTable m pgd lo (hi / 2 ^ 22) := fun habs => habs.2 (hbase.symm ▸ hpm)
      rw [hT, newBefore, newBefore, Nat.count_succ, if_neg hnot, Nat.add_zero]
    · rw [hT]
  · obtain ⟨hT, hpm⟩ := h.tablesEnd_of_absent hhi hle hlt hp
    obtain ⟨p, halloc, -⟩ := hm.new_table hp
    have habs : AbsentTable m pgd lo (hi / 2 ^ 22) := ⟨Nat.div_le_div_right hle, hbase.symm ▸ hpm⟩
    have hpages := h.pages
    rw [hT, newBefore] at hpages
    rw [newBefore, Nat.count_succ, if_pos habs, drawn, hpages, Option.bind_some, halloc]
    rfl

omit hhi hle hlt in
theorem step_free (hP : TableLaws P held) {p : ℕ} (hp : p ∉ held m₂.pages) :
    m₂.entry p = m.entry p := by
  have hfree : p ∉ held m₁.pages := by
    by_cases hpres : Present (m₁.entry pgd (pdx hi))
    · rwa [(hm.old_table hpres).1] at hp
    · obtain ⟨q, halloc, -⟩ := hm.new_table hpres
      exact fun hmem => hp ((hP.alloc halloc).2 ▸ Set.mem_insert_of_mem q hmem)
  rw [hm.free p hp, h.free p hfree]

theorem step_dir (ha : a < 2 ^ 32) : Present (m₂.entry pgd (pdx a)) ↔
    Present (m.entry pgd (pdx a)) ∨ lo / 2 ^ 22 ≤ a / 2 ^ 22 ∧ a / 2 ^ 22 < tablesEnd lo (hi + 4096) := by
  rw [tablesEnd_succ hhi hle]
  by_cases hd : pdx a = pdx hi
  · have hi' := (pdx_eq_iff ha hlt).mp hd
    rw [hd]
    exact iff_of_true hm.present (Or.inr ⟨by omega, by omega⟩)
  · rw [hm.dir _ hd, h.dir a ha]
    have hne := hd
    rw [pdx_eq_iff ha hlt] at hne
    refine or_congr_right (and_congr_right fun _ => ?_)
    rcases tablesEnd_cases hhi hle with ⟨hT, -⟩ | hT <;> omega

theorem step_hit (hlo : lo ≤ a) (ha : a < hi + 4096) (hend : hi + 4096 ≤ 2 ^ 32) :
    pageEntry m₂ pgd a = value (a / 4096 * 4096) := by
  have ha' : a < 2 ^ 32 := lt_of_lt_of_le ha hend
  by_cases hin : hi ≤ a
  · obtain ⟨hd, ht⟩ := (page_eq_iff ha' hlt).mpr (by omega)
    rw [hm.hit a hd ht]
    exact congrArg value (by omega)
  · have hold := h.hit a hlo (by omega)
    by_cases hd : pdx a = pdx hi
    · -- its table is there, since it maps `a`
      have hi' := (pdx_eq_iff ha' hlt).mp hd
      have hpres : Present (m₁.entry pgd (pdx hi)) := by
        rw [← hd, h.dir a ha']
        right
        rcases tablesEnd_cases hhi hle with ⟨-, hT⟩ | hT
        · exact absurd hi' (hT a hlo (by omega))
        · exact ⟨by omega, by omega⟩
      rw [(hm.old_table hpres).2 a hd (ptx_ne_of_table hhi hlt ha' (by omega) hd), hold]
    · rw [hm.miss a hd, hold]

theorem step_fresh (hP : TableLaws P held) (ha : a < 2 ^ 32) (hout : ¬ (lo ≤ a ∧ a < hi + 4096))
    (hnew : NewTable m pgd lo (hi + 4096) a) :
    ∃ p, handedOut P (newBefore m pgd lo (a / 2 ^ 22)) m.pages = some p ∧
      pageEntry m₂ pgd a = m.entry p (ptx a) := by
  by_cases hd : pdx a = pdx hi
  · have hi' := (pdx_eq_iff ha hlt).mp hd
    have ht := ptx_ne_of_table hhi hlt ha (by omega) hd
    by_cases hpres : Present (m₁.entry pgd (pdx hi))
    · rw [(hm.old_table hpres).2 a hd ht]
      refine h.fresh a ha (by omega) ⟨hnew.1, ?_⟩
      rw [← hd, h.dir a ha] at hpres
      exact hpres.resolve_left hnew.1
    · -- the table is new with this page
      obtain ⟨hT, -⟩ := h.tablesEnd_of_absent hhi hle hlt hpres
      obtain ⟨p, halloc, hfresh⟩ := hm.new_table hpres
      refine ⟨p, ?_, ?_⟩
      · rw [handedOut, hi', ← hT, h.pages, Option.bind_some, halloc]
        rfl
      · rw [hfresh a hd ht, h.free p (hP.alloc halloc).1]
  · rw [hm.miss a hd]
    exact h.fresh a ha (by omega) ((newTable_succ_iff hhi hle hlt ha hd).mp hnew)

theorem step_other (ha : a < 2 ^ 32) (hout : ¬ (lo ≤ a ∧ a < hi + 4096))
    (hold : ¬ NewTable m pgd lo (hi + 4096) a) : pageEntry m₂ pgd a = pageEntry m pgd a := by
  by_cases hd : pdx a = pdx hi
  · have hi' := (pdx_eq_iff ha hlt).mp hd
    have hend := @tablesEnd_succ lo hi hhi hle
    have hpa : Present (m.entry pgd (pdx a)) := by
      by_contra hpa
      exact hold ⟨hpa, by omega, by omega⟩
    have hpres : Present (m₁.entry pgd (pdx hi)) := by
      rw [← hd, h.dir a ha]
      exact Or.inl hpa
    rw [(hm.old_table hpres).2 a hd (ptx_ne_of_table hhi hlt ha (by omega) hd)]
    exact h.other a ha (by omega) fun h' => h'.1 hpa
  · rw [hm.miss a hd]
    exact h.other a ha (by omega) fun h' => hold ((newTable_succ_iff hhi hle hlt ha hd).mpr h')

end Step

/-- **One page** of the call extends the range that is done by its own 4 KiB. -/
theorem step (hP : TableLaws P held) (h : Progress P held m m₁ pgd lo hi value) (hhi : 4096 ∣ hi)
    (hle : lo ≤ hi) (hend : hi + 4096 ≤ 2 ^ 32) (hmap : mapPage P pgd hi (value hi) m₁ = some m₂) :
    Progress P held m m₂ pgd lo (hi + 4096) value := by
  have hm := mapPage_mapped hP h.owns hmap
  have hlt : hi < 2 ^ 32 := by omega
  exact {
    owns := hm.owns
    kernelPgd := hm.kernelPgd.trans h.kernelPgd
    free := fun _ hp => h.step_free hm hP hp
    pages := h.step_pages hhi hle hlt hm
    dir := fun _ ha => h.step_dir hhi hle hlt hm ha
    hit := fun _ hlo ha => h.step_hit hhi hle hlt hm hlo ha hend
    fresh := fun _ ha hout hnew => h.step_fresh hhi hle hlt hm hP ha hout hnew
    other := fun _ ha hout hold => h.step_other hhi hle hlt hm ha hout hold }

end Progress

/-! ### The loop -/

/-- The physical page for the page at `x`, when `lo` goes to `pa`. -/
def pageAt (pa lo x : ℕ) : ℕ := wadd pa (x - lo)

theorem mapLoop_progress (hP : TableLaws P held) {pa fuel : ℕ} (hlo : 4096 ∣ lo) (hend : 4096 ∣ a)
    (ha : a < 2 ^ 32) (hhi : 4096 ∣ hi) (hle : lo ≤ hi) (hhia : hi ≤ a) (hfuel : a ≤ fuel + hi)
    (h : Progress P held m m₁ pgd lo hi fun x => pageAt pa lo x ||| pteP ||| perm)
    (hloop : mapLoop P pgd perm a fuel hi (pageAt pa lo hi) m₁ = some m') :
    Progress P held m m' pgd lo a fun x => pageAt pa lo x ||| pteP ||| perm := by
  induction fuel generalizing hi m₁ with
  | zero =>
    obtain rfl : hi = a := by omega
    obtain rfl := Option.some.inj hloop
    exact h
  | succ fuel ih =>
    rw [mapLoop] at hloop
    split at hloop
    · have hnext : wadd hi pgSize = hi + 4096 := Nat.mod_eq_of_lt (by rw [pgSize]; omega)
      have hpa : wadd (pageAt pa lo hi) pgSize = pageAt pa lo (hi + 4096) := by
        rw [pageAt, pageAt, wadd, wadd, wadd, pgSize]
        omega
      obtain ⟨m₂, hmap, hrest⟩ := Option.bind_eq_some_iff.mp hloop
      rw [hnext, hpa] at hrest
      exact ih (by omega) (by omega) (by omega) (by omega) (Progress.step hP h hhi hle (by omega) hmap) hrest
    · obtain rfl : hi = a := by omega
      obtain rfl := Option.some.inj hloop
      exact h

/-- While there are pages, the call comes to its end. -/
theorem mapLoop_isSome (hpages : ∀ s, (P.alloc s).isSome) (pgd perm vaddrEnd fuel addr pa : ℕ)
    (m : Paging π) : (mapLoop P pgd perm vaddrEnd fuel addr pa m).isSome := by
  induction fuel generalizing addr pa m with
  | zero => rfl
  | succ fuel ih =>
    rw [mapLoop]
    split
    · obtain ⟨m₁, hm₁⟩ := Option.isSome_iff_exists.mp
        (mapPage_isSome hpages pgd addr (pa ||| pteP ||| perm) m)
      rw [hm₁]
      exact ih _ _ m₁
    · rfl

theorem archMapRegion_isSome (hpages : ∀ s, (P.alloc s).isSome) (pgdir : Option ℕ)
    (vaddr paddr size perm : ℕ) (m : Paging π) :
    (archMapRegion P pgdir vaddr paddr size perm m).isSome :=
  mapLoop_isSome hpages _ _ _ _ _ _ m

section Region

variable (hend : vaddr + size + 4096 ≤ 2 ^ 32)

include hend

theorem alignDown_region : alignDown vaddr pgSize = vaddr / 4096 * 4096 := by
  rw [alignDown_eq]
  omega

theorem align_region : align (wadd vaddr size) pgSize = (vaddr + size + 4095) / 4096 * 4096 := by
  rw [align_eq, wadd]
  omega

/-- **All pages of the call**: where it ends, the whole range, rounded out to pages, is done. -/
theorem archMapRegion_progress (hP : TableLaws P held) {pgdir : Option ℕ}
    (ho : pageShape.Owns (m.store held) 1 (pgdir.getD m.kernelPgd))
    (h : archMapRegion P pgdir vaddr paddr size perm m = some m') :
    Progress P held m m' (pgdir.getD m.kernelPgd) (alignDown vaddr pgSize)
      (align (wadd vaddr size) pgSize) fun x =>
        pageAt (wsub paddr (vaddr % 4096)) (alignDown vaddr pgSize) x ||| pteP ||| perm := by
  rw [archMapRegion] at h
  rw [alignDown_region hend, align_region hend] at h ⊢
  have hoff : wsub vaddr (vaddr / 4096 * 4096) = vaddr % 4096 := by
    rw [wsub]
    omega
  have hstart : pageAt (wsub paddr (vaddr % 4096)) (vaddr / 4096 * 4096) (vaddr / 4096 * 4096) =
      wsub paddr (vaddr % 4096) := by
    rw [pageAt, Nat.sub_self, wadd, wsub, Nat.add_zero, Nat.mod_mod]
  rw [hoff, ← hstart] at h
  exact mapLoop_progress hP (by omega) (by omega) (by omega) (by omega) le_rfl (by omega)
    (Nat.le_add_right _ _) (.refl ho _ _) h

end Region

/-! ### A run of the code -/

/-- The page after those in use; there are pages below 4 GiB. -/
def countPages : TablePages ℕ where
  alloc n := if n < 2 ^ 20 then some (n * 4096, n + 1) else none

/-- The pages in use. -/
def countHeld (n : ℕ) : Set ℕ := {p | ∃ k < n, k < 2 ^ 20 ∧ p = k * 4096}

theorem countPages_laws : TableLaws countPages countHeld where
  held_page := by
    rintro s p ⟨k, -, hk, rfl⟩
    omega
  alloc := by
    intro s p s' h
    rw [countPages] at h
    dsimp only at h
    split at h
    · rename_i hlt
      obtain ⟨rfl, rfl⟩ := Prod.mk.inj (Option.some.inj h)
      refine ⟨?_, ?_⟩
      · rintro ⟨k, hk, -, heq⟩
        omega
      · ext p
        constructor
        · rintro ⟨k, hk, hk', rfl⟩
          by_cases hks : k = s
          · exact Or.inl (by rw [hks])
          · exact Or.inr ⟨k, by omega, hk', rfl⟩
        · rintro (rfl | ⟨k, hk, hk', rfl⟩)
          · exact ⟨s, by omega, hlt, rfl⟩
          · exact ⟨k, by omega, hk', rfl⟩
    · cases h

/-- An empty directory in page 1, the last one in use; the page behind it holds `e` at index 5. -/
def emptyDirectory (e : ℕ) : Paging ℕ :=
  ⟨fun p i => if p = 0x2000 ∧ i.val = 5 then e else 0, 0x1000, 2⟩

theorem emptyDirectory_owns (e : ℕ) :
    pageShape.Owns ((emptyDirectory e).store countHeld) 1 0x1000 := by
  have hheld : (0x1000 : ℕ) ∈ countHeld 2 := ⟨1, by norm_num, by norm_num, rfl⟩
  have habsent : ¬ Present 0 := by decide
  exact .of_leaf hheld fun _ _ => child_absent habsent

/-! ### What the call is for -/

/-- **The region is mapped**, and every other address is mapped as before. -/
structure MapsRegion (m m' : Paging π) (pgd vaddr paddr size : ℕ) : Prop where
  inside : ∀ va, vaddr ≤ va → va < vaddr + size → translate m' pgd va = some (wadd paddr (va - vaddr))
  outside : ∀ va < 2 ^ 32,
    ¬ (alignDown vaddr pgSize ≤ va ∧ va < align (wadd vaddr size) pgSize) →
    translate m' pgd va = translate m pgd va

variable (P) in
/-- The pages that `mm_phy_page_alloc` returns for the new tables of `[lo, hi)` hold no present entry for
another address. -/
def TablesClean (m : Paging π) (pgd lo hi : ℕ) : Prop :=
  ∀ a < 2 ^ 32, ¬ (lo ≤ a ∧ a < hi) → NewTable m pgd lo hi a →
    ∀ p, handedOut P (newBefore m pgd lo (a / 2 ^ 22)) m.pages = some p → ¬ Present (m.entry p (ptx a))

/-- `perm` has no bit of a page's address that the address does not have. -/
def PermFits (vaddr paddr size perm : ℕ) : Prop :=
  ∀ va, vaddr ≤ va → va < vaddr + size →
    ptaddr (wadd paddr (va - vaddr)) ||| ptaddr perm = ptaddr (wadd paddr (va - vaddr))

theorem ptaddr_entry {pa : ℕ} (hdvd : 4096 ∣ pa) (hlt : pa < 2 ^ 32) (perm : ℕ) :
    ptaddr (pa ||| pteP ||| perm) = pa ||| ptaddr perm := by
  have hpa : pa &&& wnot 0xFFF = pa := by
    have := ptaddr_eq pa
    rw [ptaddr] at this
    omega
  have hpresent : pteP &&& wnot 0xFFF = 0 := by decide
  rw [ptaddr, ptaddr, Nat.and_or_distrib_right, Nat.and_or_distrib_right, hpa, hpresent, Nat.or_zero]

section Effect

variable (hend : vaddr + size + 4096 ≤ 2 ^ 32) (hcong : vaddr % 4096 = paddr % 4096)

include hend hcong

/-- An address of the region lies in the page that the loop maps there, at the offset that the request asks
for. -/
theorem pageAt_eq {va : ℕ} (hlo : vaddr ≤ va) (hhi : va < vaddr + size) :
    pageAt (wsub paddr (vaddr % 4096)) (alignDown vaddr pgSize) (va / 4096 * 4096) =
      ptaddr (wadd paddr (va - vaddr)) ∧
    wadd paddr (va - vaddr) = ptaddr (wadd paddr (va - vaddr)) + va % 4096 := by
  rw [alignDown_region hend, pageAt, ptaddr_eq, wadd, wadd, wsub]
  omega

variable {pgdir : Option ℕ}

/-- After the call an address of the region is found where the request puts it, with the attributes asked
for. -/
theorem translate_inside
    (h : Progress P held m m' pgd (alignDown vaddr pgSize) (align (wadd vaddr size) pgSize) fun x =>
      pageAt (wsub paddr (vaddr % 4096)) (alignDown vaddr pgSize) x ||| pteP ||| perm)
    {va : ℕ} (hlo : vaddr ≤ va) (hhi : va < vaddr + size) : translate m' pgd va =
      some ((ptaddr (wadd paddr (va - vaddr)) ||| ptaddr perm) + va % 4096) := by
  have hentry := h.hit va (by rw [alignDown_region hend]; omega) (by rw [align_region hend]; omega)
  rw [(pageAt_eq hend hcong hlo hhi).1] at hentry
  have hpage : 4096 ∣ ptaddr (wadd paddr (va - vaddr)) ∧ ptaddr (wadd paddr (va - vaddr)) < 2 ^ 32 := by
    rw [ptaddr_eq]
    omega
  rw [translate_eq, hentry, if_pos (present_or_pteP _ _), ptaddr_entry hpage.1 hpage.2]

omit hend hcong in
/-- Another address is found where it was before iff the table that was drawn for it, if any, was clear at
its slot. -/
theorem translate_outside {value : ℕ → ℕ} (h : Progress P held m m' pgd lo hi value) {va : ℕ}
    (hva : va < 2 ^ 32) (hout : ¬ (lo ≤ va ∧ va < hi)) :
    translate m' pgd va = translate m pgd va ↔ (NewTable m pgd lo hi va →
      ∀ p, handedOut P (newBefore m pgd lo (va / 2 ^ 22)) m.pages = some p →
        ¬ Present (m.entry p (ptx va))) := by
  rw [translate_eq, translate_eq]
  by_cases hnew : NewTable m pgd lo hi va
  · obtain ⟨p, hp, hentry⟩ := h.fresh va hva hout hnew
    rw [pageEntry_of_absent hnew.1, if_neg hnew.1, hentry]
    constructor
    · intro hnone _ q hq hpres
      obtain rfl := Option.some.inj (hp.symm.trans hq)
      rw [if_pos hpres] at hnone
      cases hnone
    · intro hclean
      exact if_neg (hclean hnew p hp)
  · rw [h.other va hva hout hnew]
    exact iff_of_true rfl fun hnew' => absurd hnew' hnew

end Effect

end GeekToyOS.I386
