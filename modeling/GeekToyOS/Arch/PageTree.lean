import Mathlib.Tactic.IntervalCases
import GeekToyOS.Arch.Paging

/-!
# Page tables as radix trees

The tables of `Arch/Paging.lean` as an instance of `Data/Radix.lean`: level 3 is the page directory that
`%cr3` points to, level 0 are the page tables. An entry refers to a table when it is present and, below
level 3, not a large page.

`pagePart` is what a new table is filled with: by `expand_page`, if it takes the place of a large page, and
with zeros otherwise. Neither changes a translation.

## Main definitions

* `pageShape S` — the shape; `S` are the slots of the top level that count
* `LeafAligned` — a page is aligned to its size

## Main results

* `leafTranslation_pagePart` — splitting a large page changes no translation
* `hwWalk_eq` — the processor ends its walk where the search of the tree ends
-/

namespace GeekToyOS

/-! ### Bits of entries -/

theorem wnot_bitMask (k : ℕ) : wnot (bitMask k) = Bits.highMask 64 k := by
  have := Nat.two_pow_pos k
  rw [wnot, bitMask_eq, Bits.highMask]
  omega

theorem and_wnot_bitMask {k : ℕ} (hk : k ≤ 64) (x : ℕ) :
    x &&& wnot (bitMask k) = x % 2 ^ 64 / 2 ^ k * 2 ^ k := by
  rw [wnot_bitMask, Bits.and_highMask_mod hk]

theorem ptaddr_eq (e : ℕ) : ptaddr e = e % 2 ^ 64 / 4096 * 4096 :=
  and_wnot_bitMask (k := 12) (by norm_num) e

theorem pgoff_eq (e : ℕ) : pgoff e = e % 4096 := Nat.and_two_pow_sub_one_eq_mod e 12

theorem and_bitMask (x k : ℕ) : x &&& bitMask k = x % 2 ^ k := by
  rw [bitMask_eq, Nat.and_two_pow_sub_one_eq_mod]

theorem present_iff {e : ℕ} : Present e ↔ e.testBit 0 = true := by
  rw [Present, pteP, show (1 : ℕ) = 2 ^ 0 from rfl, Nat.and_two_pow]
  cases e.testBit 0 <;> simp

theorem large_iff {e : ℕ} : Large e ↔ e.testBit 7 = true := by
  rw [Large, ptePS, show (0x080 : ℕ) = 2 ^ 7 from rfl, Nat.and_two_pow]
  cases e.testBit 7 <;> simp

@[simp] theorem not_present_zero : ¬ Present 0 := by decide

theorem pdIndexer_val (shift la : ℕ) : (pdIndexer shift la : ℕ) = la / 2 ^ shift % 512 := by
  rw [pdIndexer, ← Nat.shiftRight_eq_div_pow]
  exact Nat.and_two_pow_sub_one_eq_mod _ 9

theorem testBit_of_dvd {b k j : ℕ} (h : 2 ^ k ∣ b) (hj : j < k) : b.testBit j = false := by
  obtain ⟨c, rfl⟩ := h
  rw [Nat.testBit_two_pow_mul]
  simp [Nat.not_le.mpr hj]

section Link

variable {a : ℕ} (ha : 4096 ∣ a) (ha' : a < 2 ^ 64)

include ha in
theorem link_eq : a ||| (pteP ||| pteW) = a + 3 :=
  Bits.or_eq_add_of_low (k := 12) ha (by decide)

include ha ha' in
/-- An entry made for a new table refers to it: the attributes take no part in the address. -/
theorem ptaddr_link : ptaddr (a ||| (pteP ||| pteW)) = a := by
  rw [link_eq ha, ptaddr_eq]
  omega

include ha in
theorem present_link : Present (a ||| (pteP ||| pteW)) := by
  rw [present_iff, link_eq ha, Nat.testBit_zero]
  simp
  omega

include ha in
theorem not_large_link : ¬ Large (a ||| (pteP ||| pteW)) := by
  rw [large_iff, Nat.testBit_or, testBit_of_dvd (k := 12) ha (by norm_num)]
  decide

end Link

/-! ### Large pages taken apart -/

/-- The base of entry `i` of `expandRow`. -/
def rowBase (pde tableLevel i : ℕ) : ℕ :=
  wadd (ptaddr pde) (wmul (if tableLevel ≠ 0 then ptSize else pgSize) i)

/-- The attributes of the entries of `expandRow`. -/
def rowAttr (pde tableLevel : ℕ) : ℕ :=
  (if tableLevel ≠ 0 then ptePS else 0) ||| pgoff (pgoff pde &&& wnot ptePS)

theorem rowBase_dvd (pde tableLevel i : ℕ) : 4096 ∣ rowBase pde tableLevel i := by
  rw [rowBase, wadd, wmul, ptaddr_eq, ptSize, pgSize, npdEntries]
  split <;> omega

theorem testBit_rowAttr (pde tableLevel j : ℕ) : (rowAttr pde tableLevel).testBit j =
    (decide (tableLevel ≠ 0 ∧ j = 7) || (pde.testBit j && decide (j < 12 ∧ j ≠ 7))) := by
  have hmask : ∀ x : ℕ, (pgoff x).testBit j = (x.testBit j && decide (j < 12)) := by
    intro x
    rw [pgoff_eq, show (4096 : ℕ) = 2 ^ 12 from rfl, Nat.testBit_mod_two_pow, Bool.and_comm]
  have hps : (if tableLevel ≠ 0 then ptePS else 0).testBit j =
      decide (tableLevel ≠ 0 ∧ j = 7) := by
    split
    · rename_i h
      rw [ptePS, show (0x080 : ℕ) = 2 ^ 7 from rfl, Nat.testBit_two_pow]
      simp [h, eq_comm]
    · rename_i h
      simp [h]
  rw [rowAttr, Nat.testBit_or, hps, hmask, Nat.testBit_and, hmask]
  congr 1
  by_cases hj : j < 12
  · interval_cases j <;> simp +decide
  · simp [hj]

theorem rowAttr_lt (pde tableLevel : ℕ) : rowAttr pde tableLevel < 4096 := by
  refine Nat.lt_pow_two_of_testBit (n := 12) _ fun j hj => ?_
  rw [testBit_rowAttr]
  simp
  omega

theorem expandRow_eq (pde tableLevel : ℕ) (i : Fin 512) :
    expandRow pde tableLevel i = rowBase pde tableLevel i + rowAttr pde tableLevel :=
  Bits.or_eq_add_of_low (k := 12) (rowBase_dvd pde tableLevel i) (rowAttr_lt pde tableLevel)

theorem testBit_expandRow (pde tableLevel : ℕ) (i : Fin 512) {j : ℕ} (hj : j < 12) :
    (expandRow pde tableLevel i).testBit j = (rowAttr pde tableLevel).testBit j := by
  change (rowBase pde tableLevel i ||| rowAttr pde tableLevel).testBit j = _
  rw [Nat.testBit_or, testBit_of_dvd (k := 12) (rowBase_dvd pde tableLevel i) hj, Bool.false_or]

theorem present_expandRow (pde tableLevel : ℕ) (i : Fin 512) :
    Present (expandRow pde tableLevel i) ↔ Present pde := by
  rw [present_iff, present_iff, testBit_expandRow pde tableLevel i (by norm_num), testBit_rowAttr]
  simp

theorem large_expandRow (pde tableLevel : ℕ) (i : Fin 512) :
    Large (expandRow pde tableLevel i) ↔ tableLevel ≠ 0 := by
  rw [large_iff, testBit_expandRow pde tableLevel i (by norm_num), testBit_rowAttr]
  simp

/-- What a table is filled with that is linked in place of an entry of level `k`. -/
def pagePart (k e : ℕ) (i : Fin 512) : ℕ := if Present e then expandRow e (k - 1) i else 0

theorem present_pagePart {k e : ℕ} (i : Fin 512) : Present (pagePart k e i) ↔ Present e := by
  rw [pagePart]
  split
  · exact present_expandRow _ _ _
  · rename_i h
    simp [h, not_present_zero]

/-- A page of level `k` is aligned to its size. -/
def LeafAligned (k e : ℕ) : Prop := Present e → 2 ^ levelShift k ∣ ptaddr e

theorem rowBase_of_aligned {k e : ℕ} {i : ℕ} (hk : k < 2) (hi : i < 512)
    (h : 2 ^ levelShift (k + 1) ∣ ptaddr e) :
    rowBase e k i = ptaddr e + 2 ^ levelShift k * i ∧ 2 ^ levelShift k ∣ rowBase e k i := by
  have hlt : ptaddr e < 2 ^ 64 := by
    rw [ptaddr_eq]
    omega
  rw [rowBase, wadd, wmul, ptSize, pgSize, npdEntries]
  interval_cases k <;> simp [levelShift] at h ⊢ <;> omega

theorem leafAligned_pagePart {k e : ℕ} (i : Fin 512) (hk : k < 2) (h : LeafAligned (k + 1) e) :
    LeafAligned k (pagePart (k + 1) e i) := by
  intro hp
  have he : Present e := (present_pagePart i).mp hp
  obtain ⟨-, hdvd⟩ := rowBase_of_aligned hk i.isLt (h he)
  have hlt : rowBase e k i < 2 ^ 64 := Nat.mod_lt _ (by norm_num)
  have hattr := rowAttr_lt e k
  have hbase := rowBase_dvd e k i
  rw [pagePart, if_pos he, Nat.add_sub_cancel, expandRow_eq, ptaddr_eq]
  have : (rowBase e k i + rowAttr e k) % 2 ^ 64 / 4096 * 4096 = rowBase e k i := by omega
  rw [this]
  exact hdvd

/-- **Splitting a large page changes no translation.** -/
theorem leafTranslation_pagePart {k e va : ℕ} (hk : k < 2) (he : Present e)
    (h : LeafAligned (k + 1) e) :
    leafTranslation va (k, pagePart (k + 1) e (pdIndexer (levelShift k) va)) =
      leafTranslation va (k + 1, e) := by
  have hi := pdIndexer_val (levelShift k) va
  obtain ⟨hbase, hdvd⟩ := rowBase_of_aligned hk (pdIndexer (levelShift k) va).isLt (h he)
  have hattr := rowAttr_lt e k
  have hlt : rowBase e k (pdIndexer (levelShift k) va) < 2 ^ 64 := Nat.mod_lt _ (by norm_num)
  have hpt := ptaddr_eq e
  have hal := h he
  rw [pagePart, if_pos he, Nat.add_sub_cancel, leafTranslation, leafTranslation,
    Translation.mk.injEq]
  refine ⟨?_, ?_, ?_⟩
  · rw [expandRow_eq, hwPhys, hwPhys]
    rw [hi] at hbase hdvd hlt ⊢
    interval_cases k <;> simp [levelShift] at * <;> omega
  · refine Nat.eq_of_testBit_eq fun j => ?_
    rw [Nat.testBit_and, Nat.testBit_and]
    have hseven : (0xFFF - ptePS).testBit 7 = false := by decide
    by_cases hj : j < 12
    · rw [testBit_expandRow _ _ _ hj, testBit_rowAttr]
      interval_cases j <;> simp +decide [hseven]
    · have hmask : (0xFFF - ptePS).testBit j = false := by
        refine Nat.testBit_lt_two_pow (lt_of_lt_of_le (b := 2 ^ 12) (by decide) ?_)
        exact Nat.pow_le_pow_right (by norm_num) (by omega)
      rw [hmask, Bool.and_false, Bool.and_false]
  · rw [expandRow_eq, hbase]
    rw [hi] at hbase hlt ⊢
    interval_cases k <;> simp [levelShift] at * <;> omega

/-! ### The shape -/

/-- Page tables as radix tables. -/
def pageShape (S : Set (Fin 512)) : Radix.Shape ℕ (Fin 512) ℕ ℕ where
  child k e := if k ≠ 0 ∧ Present e ∧ (k = 3 ∨ ¬ Large e) then some (ptaddr e) else none
  idx k va := pdIndexer (levelShift k) va
  slots k := if k = 3 then S else Set.univ

variable {S : Set (Fin 512)} {k e : ℕ}

@[simp] theorem pageShape_idx (va : ℕ) : (pageShape S).idx k va = pdIndexer (levelShift k) va := rfl

theorem child_eq_none_iff :
    (pageShape S).child k e = none ↔ (k = 0 ∨ ¬ Present e ∨ k ≠ 3 ∧ Large e) := by
  simp only [pageShape]
  split
  · rename_i h
    simp
    tauto
  · rename_i h
    simp
    tauto

theorem child_of_not_present (h : ¬ Present e) : (pageShape S).child k e = none :=
  child_eq_none_iff.mpr (Or.inr (Or.inl h))

theorem child_of_large (hk : k ≠ 3) (h : Large e) : (pageShape S).child k e = none :=
  child_eq_none_iff.mpr (Or.inr (Or.inr ⟨hk, h⟩))

@[simp] theorem child_zero : (pageShape S).child 0 e = none := child_eq_none_iff.mpr (Or.inl rfl)

theorem child_of_table (hk : k ≠ 0) (hp : Present e) (h : k = 3 ∨ ¬ Large e) :
    (pageShape S).child k e = some (ptaddr e) :=
  if_pos ⟨hk, hp, h⟩

theorem mem_slots (hk : k ≠ 3) (i : Fin 512) : i ∈ (pageShape S).slots k := by
  simp [pageShape, hk]

/-- Where a search ends does not depend on the slots that count. -/
theorem find_slots {entry : ℕ → Fin 512 → ℕ} {t a : ℕ} :
    (pageShape S).find entry k t a = (pageShape Set.univ).find entry k t a := by
  induction k generalizing t with
  | zero => rfl
  | succ k ih =>
    cases hc : (pageShape Set.univ).child (k + 1) (entry t ((pageShape Set.univ).idx (k + 1) a)) with
    | none =>
      have hc' : (pageShape S).child (k + 1) (entry t ((pageShape S).idx (k + 1) a)) = none := hc
      exact (Radix.Shape.find_of_none hc').trans (Radix.Shape.find_of_none hc).symm
    | some c =>
      have hc' : (pageShape S).child (k + 1) (entry t ((pageShape S).idx (k + 1) a)) = some c := hc
      rw [Radix.Shape.find_of_child hc, Radix.Shape.find_of_child hc', ih]

/-- The entries of a new table are parts of a page or zero, so the table refers to no other one. -/
theorem child_pagePart (hk : k < 2 ∨ ¬ Present e) (i : Fin 512) :
    (pageShape S).child k (pagePart (k + 1) e i) = none := by
  by_cases he : Present e
  · rcases Nat.eq_zero_or_pos k with rfl | hpos
    · exact child_zero
    · have hk : k < 2 := hk.resolve_right fun h => h he
      refine child_of_large (by omega) ?_
      rw [pagePart, if_pos he, large_expandRow]
      omega
  · refine child_of_not_present ?_
    rwa [present_pagePart]

/-! ### The processor walks the tree -/

theorem hwTable_eq (h : ptaddr e < 2 ^ 52) : hwTable e = ptaddr e := by
  rw [ptaddr_eq] at h ⊢
  rw [hwTable]
  omega

/-- **The processor ends where the search ends**, if the entry it finds there is present. -/
theorem hwWalk_eq {entry : ℕ → Fin 512 → ℕ} {t va : ℕ} (hk : k ≤ 3)
    (hw : (pageShape S).Within k va) (hlt : ∀ p ∈ (pageShape S).tables entry k t, p < 2 ^ 52)
    (htop : k = 3 → ¬ Large (entry t (pgx va))) :
    hwWalk entry k t va = if Present ((pageShape S).find entry k t va).2 then
      some ((pageShape S).find entry k t va) else none := by
  induction k generalizing t with
  | zero => rfl
  | succ k ih =>
    rw [hwWalk]
    set e := entry t (pdIndexer (levelShift (k + 1)) va) with he
    by_cases hp : Present e
    · rw [if_neg (not_not.mpr hp)]
      by_cases hl : Large e
      · have hne : k + 1 ≠ 3 := by
          rintro hk3
          obtain rfl : k = 2 := by omega
          exact htop rfl hl
        have hfind : (pageShape S).find entry (k + 1) t va = (k + 1, e) :=
          Radix.Shape.find_of_none (child_of_large hne hl)
        rw [if_pos hl, if_neg hne, hfind, if_pos hp]
      · have hc : (pageShape S).child (k + 1) e = some (ptaddr e) :=
          child_of_table (Nat.succ_ne_zero k) hp (Or.inr hl)
        have hsub : (pageShape S).tables entry k (ptaddr e) ⊆
            (pageShape S).tables entry (k + 1) t := by
          rw [← Radix.Shape.below_of_child hc]
          exact Radix.Shape.below_subset (hw _ le_rfl)
        have hfind : (pageShape S).find entry (k + 1) t va =
            (pageShape S).find entry k (ptaddr e) va := Radix.Shape.find_of_child hc
        rw [if_neg hl, hwTable_eq (hlt _ (hsub Radix.Shape.self_mem_tables)), hfind]
        exact ih (by omega) (hw.mono (Nat.le_succ k)) (fun p h => hlt p (hsub h)) (by omega)
    · have hfind : (pageShape S).find entry (k + 1) t va = (k + 1, e) :=
        Radix.Shape.find_of_none (child_of_not_present hp)
      rw [if_pos hp, hfind, if_neg hp]

end GeekToyOS
