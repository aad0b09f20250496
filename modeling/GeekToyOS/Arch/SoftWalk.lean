import GeekToyOS.Arch.LinkedTables
import GeekToyOS.Arch.PageOwnership

/-!
# `check_pgtable` and the processor

Without `PG_ALLOC`, `pgdir_walk` changes nothing: it ends where the walk of the processor ends, and
`check_pgtable` returns what it finds there. At the last level it does not look at `PTE_P`, so that an
entry which was cleared still yields an address.

## Main definitions

* `softAddr` — what `check_pgtable` makes of the entry it ends at
* `SoftwareMatches` — it returns the physical address that the processor uses, or zero if there is none

## Main results

* `checkPgtable_eq` — `check_pgtable` in terms of the search of the tree
* `softwareMatches_iff` — when the two agree
-/

namespace GeekToyOS

variable {π : Type*} {P : TablePages π} {held : π → Set ℕ} {m : Paging π} {pgd va : ℕ}

/-- What `check_pgtable` returns when the walk ends at the entry `x.2` of a table of level `x.1`. -/
def softAddr (va : ℕ) (x : ℕ × ℕ) : ℕ :=
  if x.1 = 0 ∨ Present x.2 then
    (x.2 &&& wnot (bitMask (levelShift x.1))) ||| (va &&& bitMask (levelShift x.1))
  else 0

/-! ### The walk without `PG_ALLOC` -/

theorem walkPt_paddr (t : ℕ) : (walkPt va (some 0) m t).bind Walk.paddr =
    some (softAddr va ((pageShape Set.univ).find m.entry 0 t va)) := rfl

theorem walkDir_paddr {k t : ℕ} {next : Paging π → ℕ → Option (Walk π)} (hk : k + 1 ≠ 3)
    (hnext : ∀ c, (next m c).bind Walk.paddr =
      some (softAddr va ((pageShape Set.univ).find m.entry k c va))) :
    (walkDir P va (some 0) 0 (levelShift (k + 1)) (k + 1) k next m t).bind Walk.paddr =
      some (softAddr va ((pageShape Set.univ).find m.entry (k + 1) t va)) := by
  have hflag : ∀ x, 0 &&& x = 0 := Nat.zero_and
  set e := m.entry t (pdIndexer (levelShift (k + 1)) va) with hedef
  have hend : (pageShape Set.univ).child (k + 1) e = none →
      (pageShape Set.univ).find m.entry (k + 1) t va = (k + 1, e) := fun h =>
    Radix.Shape.find_of_none h
  rw [walkDir]
  dsimp only
  rw [← hedef]
  by_cases hp : Present e
  · rw [if_neg (not_not.mpr hp)]
    by_cases hl : Large e
    · rw [if_pos hl, if_pos (hflag _), hend (child_of_large hk hl), softAddr, if_pos (Or.inr hp),
        Option.bind_some, storePaddr, Option.map_some]
    · have hfind : (pageShape Set.univ).find m.entry (k + 1) t va =
          (pageShape Set.univ).find m.entry k (ptaddr e) va :=
        Radix.Shape.find_of_child (child_of_pd hp hl (Nat.succ_ne_zero k))
      rw [if_neg hl, if_neg (fun h => h.1 (hflag _)), hfind]
      exact hnext _
  · rw [if_pos hp, if_pos (hflag _), hend (child_of_not_present hp), softAddr,
      if_neg (by simp [hp]), Option.bind_some]

/-- **`check_pgtable` returns what it finds where the search ends.** -/
theorem checkPgtable_eq : checkPgtable P m va = softAddr va (walkEnd m m.kernelPgd va) := by
  have hpd : ∀ t, (walkPd P va (some 0) 0 m t).bind Walk.paddr =
      some (softAddr va ((pageShape Set.univ).find m.entry 1 t va)) := fun t =>
    walkDir_paddr (k := 0) (by norm_num) walkPt_paddr
  have hpud : ∀ t, (walkPud P va (some 0) 0 m t).bind Walk.paddr =
      some (softAddr va ((pageShape Set.univ).find m.entry 2 t va)) := fun t =>
    walkDir_paddr (k := 1) (by norm_num) hpd
  rw [checkPgtable, pgdirWalk, walkEnd]
  by_cases hp : Present (m.entry m.kernelPgd (pgx va))
  · have hfind : (pageShape Set.univ).find m.entry 3 m.kernelPgd va =
        (pageShape Set.univ).find m.entry 2 (ptaddr (m.entry m.kernelPgd (pgx va))) va :=
      Radix.Shape.find_of_child (child_of_table (by norm_num) hp (Or.inl rfl))
    rw [if_neg (not_not.mpr hp), hpud, hfind, Option.getD_some]
  · have hfind : (pageShape Set.univ).find m.entry 3 m.kernelPgd va =
        (3, m.entry m.kernelPgd (pgx va)) := Radix.Shape.find_of_none (child_of_not_present hp)
    rw [if_pos hp, if_pos (Nat.zero_and _), hfind, softAddr, if_neg (by simp [hp]),
      Option.bind_some, Option.getD_some]

theorem softAddr_eq {k e : ℕ} (hk : k ≤ 3) (h : k = 0 ∨ Present e) :
    softAddr va (k, e) =
      e % 2 ^ 64 / 2 ^ levelShift k * 2 ^ levelShift k + va % 2 ^ levelShift k := by
  have hshift : levelShift k ≤ 64 := by
    rw [levelShift]
    omega
  rw [softAddr, if_pos h, and_wnot_bitMask hshift, and_bitMask]
  exact Bits.or_eq_add_of_low (Nat.dvd_mul_left _ _) (Nat.mod_lt _ (Nat.two_pow_pos _))

/-! ### The walk of the processor -/

theorem WellFormed.hwWalk_eq (hwf : WellFormed held m pgd) (hP : TablePageLaws P held) (va : ℕ) :
    hwWalk m.entry 3 pgd va =
      if Present (walkEnd m pgd va).2 then some (walkEnd m pgd va) else none :=
  hwf.linked.hwWalk_eq hP va

theorem walkEnd_le (hp : Present (walkEnd m pgd va).2) :
    (walkEnd m pgd va).1 ≤ 2 := by
  have hle : (walkEnd m pgd va).1 ≤ 3 := Radix.Shape.find_le
  rcases Nat.lt_or_ge 2 (walkEnd m pgd va).1 with h | h
  · -- at the top level, a present entry refers to a table
    exfalso
    by_cases hg : Present (m.entry pgd (pgx va))
    · have hfind : walkEnd m pgd va =
          (pageShape Set.univ).find m.entry 2 (ptaddr (m.entry pgd (pgx va))) va :=
        Radix.Shape.find_of_child (child_of_table (by norm_num) hg (Or.inl rfl))
      have : ((pageShape Set.univ).find m.entry 2 (ptaddr (m.entry pgd (pgx va))) va).1 ≤ 2 :=
        Radix.Shape.find_le
      rw [hfind] at h
      omega
    · have hfind : walkEnd m pgd va = (3, m.entry pgd (pgx va)) :=
        Radix.Shape.find_of_none (child_of_not_present hg)
      rw [hfind] at hp
      exact hg hp
  · exact h

variable (P) in
/-- `check_pgtable` agrees with the processor about an address. -/
def SoftwareMatches (m : Paging π) (va : ℕ) : Prop :=
  checkPgtable P m va =
    ((hwWalk m.entry 3 m.kernelPgd va).map fun x => hwPhys x.1 x.2 va).getD 0

instance (m : Paging π) (va : ℕ) : Decidable (SoftwareMatches P m va) :=
  inferInstanceAs (Decidable (_ = _))

/-- What the entry at which the walk ends must be like: a present one has no bits beyond the physical
address; one of a page table that is not present has no address, and is asked for at its first byte. -/
def EndsWell (va : ℕ) (x : ℕ × ℕ) : Prop :=
  if Present x.2 then x.2 % 2 ^ 64 < 2 ^ 52 else x.1 = 0 → ptaddr x.2 = 0 ∧ va % 4096 = 0

instance (va : ℕ) (x : ℕ × ℕ) : Decidable (EndsWell va x) :=
  inferInstanceAs (Decidable (if Present x.2 then x.2 % 2 ^ 64 < 2 ^ 52
    else x.1 = 0 → ptaddr x.2 = 0 ∧ va % 4096 = 0))

/-- **When `check_pgtable` agrees with the processor**, in every state that calls of `arch_map_region` lead
to. At the start the tables may be a tree (`WellFormed.linked`) or, like those of `boot.S`, have entries of
the top level that repeat others (`SharedTop.linked`). -/
theorem softwareMatches_iff {S : Set (Fin 512)} {page1GB : Bool} {l : List (MapCall × Paging π)}
    (hP : TablePageLaws P held) (hl : LinkedTables held S m m.kernelPgd)
    (hrun : Trace.Run (MapStep P page1GB m.kernelPgd) m l) :
    ∀ t ∈ Trace.states m l, ∀ va,
      SoftwareMatches P t va ↔ EndsWell va (walkEnd t t.kernelPgd va) := by
  have hinv : ∀ t ∈ Trace.states m l, LinkedTables held S t m.kernelPgd ∧
      t.kernelPgd = m.kernelPgd := by
    refine Trace.always (fun {t c t'} ht hstep => ?_) hrun ⟨hl, rfl⟩
    rw [MapStep, mapCall_eq] at hstep
    obtain ⟨hl', hpgd⟩ := ht.1.installAll hP MapCall.leafFor hstep
    exact ⟨hl', hpgd.trans ht.2⟩
  intro t ht va
  obtain ⟨hlt, hpgd⟩ := hinv t ht
  rw [← hpgd] at hlt
  rw [SoftwareMatches, hlt.hwWalk_eq hP, checkPgtable_eq, EndsWell]
  rcases hx : walkEnd t t.kernelPgd va with ⟨k, e⟩
  have hle : k ≤ 3 := by
    have : ((pageShape Set.univ).find t.entry 3 t.kernelPgd va).1 ≤ 3 := Radix.Shape.find_le
    rw [show (pageShape Set.univ).find t.entry 3 t.kernelPgd va = (k, e) from hx] at this
    exact this
  by_cases hp : Present e
  · have hk : k ≤ 2 := by
      have hend : (walkEnd t t.kernelPgd va).1 ≤ 2 := walkEnd_le (by rwa [hx])
      rwa [hx] at hend
    rw [if_pos hp, if_pos hp, Option.map_some, Option.getD_some]
    dsimp only
    rw [softAddr_eq hle (Or.inr hp), hwPhys]
    interval_cases k <;> simp only [levelShift] <;> omega
  · rw [if_neg hp, if_neg hp, Option.map_none, Option.getD_none]
    by_cases hk : k = 0
    · subst hk
      rw [softAddr_eq hle (Or.inl rfl), ptaddr_eq]
      simp only [levelShift, forall_const]
      omega
    · rw [softAddr, if_neg (by simp [hk, hp])]
      simp [hk]

/-! ### A run -/

/-- The page of the trampoline. -/
def lowPage : MapCall := ⟨mpBase, mpBase, 0x1000, pteW⟩

/-- And its removal. -/
def lowPageClear : MapCall := ⟨mpBase, mpBase, 0x1000, pgClear⟩

/-- Once the page is removed, the processor has no translation, and `check_pgtable` still has. -/
theorem not_softwareMatches_lowPageClear :
    ¬ ∀ l, Trace.Run (MapStep listPages true 4096) emptyTables l →
      ∀ t ∈ Trace.states emptyTables l, ∀ va, SoftwareMatches listPages t va := by
  intro hall
  have hexec : (Trace.exec (mapCall listPages true 4096) emptyTables [lowPage, lowPageClear]).any
      fun l => (Trace.states emptyTables l).any fun t =>
        !decide (SoftwareMatches listPages t 0x8000) := by
    decide +kernel
  obtain ⟨l, hl, hany⟩ := (Option.any_eq_true _ _).mp hexec
  obtain ⟨t, ht, hne⟩ := List.any_eq_true.mp hany
  rw [Bool.not_eq_true', decide_eq_false_iff_not] at hne
  exact hne (hall l (Trace.run_of_exec hl) t ht 0x8000)

end GeekToyOS
