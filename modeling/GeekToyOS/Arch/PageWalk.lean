import GeekToyOS.Arch.PageTree

/-!
# What installing one page does

One turn of the loop of `__map_region` walks down to a slot and writes it. On its way it makes tables where
there are none and takes large pages apart; where a table is in the way of a large page, the table is given
back. `Mapped` says what all this amounts to, for the tree below a table of any level: which slot was
written (`slotLevel`), that every other address is still served by the entry that served it, or by a part
of it, and what became of the table pages. It is proved one level of `pgdir_walk` at a time.

A large page is not written where it was asked for if there is a large page already: that one is taken
apart, down to 4 KiB, and the slot written is the one of a 4 KiB page.

## Main definitions

* `TablePageLaws` — what is relied on of the page allocator
* `Mapped` — the effect of installing a page

## Main results

* `mapped_of_walkDir`, `mapped_of_walkPud`, `mapPage_mapped`
-/

namespace GeekToyOS

variable {π : Type*}

/-- **What the tables rely on.** `held` are the physical pages in use, of whatever kind; a page that is
handed out is a fresh one. -/
structure TablePageLaws (P : TablePages π) (held : π → Set ℕ) : Prop where
  held_page : ∀ {s p}, p ∈ held s → 4096 ∣ p ∧ p < 2 ^ 52
  zalloc : ∀ {s a s'}, P.zalloc s = some (a, s') → a ∉ held s ∧ held s' = insert a (held s)
  free : ∀ {s a}, a ∈ held s → held (P.free s a) = held s \ {a}

/-- The tables with the pages in use. -/
def Paging.store (held : π → Set ℕ) (m : Paging π) : Radix.Store ℕ (Fin 512) ℕ :=
  ⟨m.entry, held m.pages⟩

/-- The level of the slot that is written when a page of level `r` is asked for below a table of level
`k` and the search for its address ends at `x`. -/
def slotLevel (r k : ℕ) (x : ℕ × ℕ) : ℕ :=
  if r ≤ k ∧ ¬ (r ≤ x.1 ∧ Present x.2) then r else 0

/-- The entry `v` was written for the address `va`, where a page of level `r` was asked for below the
table `t` of level `k`. -/
structure Mapped (held : π → Set ℕ) (S : Set (Fin 512)) (r v va : ℕ) (m m' : Paging π) (k t : ℕ) :
    Prop where
  edit : (pageShape S).Edit (m.store held) (m'.store held) k t
    ((pageShape S).orphans m.entry r k t va)
  kernelPgd : m'.kernelPgd = m.kernelPgd
  /-- The addresses that share the slot find the new entry in it. -/
  hit : ∀ a, (pageShape S).Within k a →
    (∀ j, slotLevel r k ((pageShape S).find m.entry k t va) ≤ j → j ≤ k →
      pdIndexer (levelShift j) a = pdIndexer (levelShift j) va) →
    (pageShape S).find m'.entry k t a = (slotLevel r k ((pageShape S).find m.entry k t va), v)
  /-- The others find what they found, or a part of it no smaller than needed to tell the two addresses
  apart. -/
  miss : ∀ a, (pageShape S).Within k a →
    ∀ j, slotLevel r k ((pageShape S).find m.entry k t va) ≤ j → j ≤ k →
      pdIndexer (levelShift j) a ≠ pdIndexer (levelShift j) va →
      (pageShape S).Splits pagePart a ((pageShape S).find m.entry k t a)
        ((pageShape S).find m'.entry k t a) ∧
      min j ((pageShape S).find m.entry k t a).1 ≤ ((pageShape S).find m'.entry k t a).1

variable {P : TablePages π} {held : π → Set ℕ} {S : Set (Fin 512)} {r v va k t c e : ℕ}
  {m m' m₁ : Paging π}

theorem slotLevel_self (x : ℕ × ℕ) (h : x = (k, e)) (hp : ¬ Present e) : slotLevel k k x = k := by
  subst h
  simp [slotLevel, hp]

theorem slotLevel_zero_right (x : ℕ × ℕ) : slotLevel r 0 x = 0 := by
  rw [slotLevel]
  split
  · rename_i h
    exact Nat.le_zero.mp h.1
  · rfl

theorem slotLevel_pagePart (i : Fin 512) (hr : Present e ∨ r ≠ k + 1) :
    slotLevel r k (k, pagePart (k + 1) e i) = slotLevel r (k + 1) (k + 1, e) := by
  have hpart : Present (pagePart (k + 1) e i) ↔ Present e := present_pagePart i
  rw [slotLevel, slotLevel]
  dsimp only
  by_cases hp : Present e
  · simp only [hp, hpart.mpr hp, and_true]
    split <;> split <;> omega
  · have hr : r ≠ k + 1 := hr.resolve_left hp
    simp only [hp, mt hpart.mp hp, and_false, not_false_eq_true, and_true]
    split <;> split <;> omega

theorem slotLevel_le (x : ℕ × ℕ) : slotLevel r k x ≤ k := by
  rw [slotLevel]
  split <;> omega

/-- An address finds the new entry, or what it found or a part of it. -/
theorem Mapped.hit_or_splits (hm : Mapped held S r v va m m' k t) {a : ℕ}
    (ha : (pageShape S).Within k a) :
    (pageShape S).find m'.entry k t a = (slotLevel r k ((pageShape S).find m.entry k t va), v) ∨
      (pageShape S).Splits pagePart a ((pageShape S).find m.entry k t a)
        ((pageShape S).find m'.entry k t a) := by
  by_cases hhit : ∀ j, slotLevel r k ((pageShape S).find m.entry k t va) ≤ j → j ≤ k →
      pdIndexer (levelShift j) a = pdIndexer (levelShift j) va
  · exact Or.inl (hm.hit a ha hhit)
  · push Not at hhit
    obtain ⟨j, hsj, hj, hne⟩ := hhit
    exact Or.inr (hm.miss a ha j hsj hj hne).1

/-! ### One level of the walk -/

section Stage

variable (ho : (pageShape S).Owns (m.store held) (k + 1) t)
  (hi : pdIndexer (levelShift (k + 1)) va ∈ (pageShape S).slots (k + 1))

include ho hi

/-- The walk goes on in the table that the slot refers to. -/
theorem Mapped.of_descend (hr : r ≠ k + 1)
    (hc : (pageShape S).child (k + 1) (m.entry t (pdIndexer (levelShift (k + 1)) va)) = some c)
    (h : Mapped held S r v va m m' k c) : Mapped held S r v va m m' (k + 1) t := by
  have hfind : ∀ a, pdIndexer (levelShift (k + 1)) a = pdIndexer (levelShift (k + 1)) va →
      (pageShape S).find m.entry (k + 1) t a = (pageShape S).find m.entry k c a := by
    intro a ha
    refine Radix.Shape.find_of_child ?_
    rw [pageShape_idx, ha, hc]
  have hfind' : ∀ a, pdIndexer (levelShift (k + 1)) a = pdIndexer (levelShift (k + 1)) va →
      (pageShape S).find m'.entry (k + 1) t a = (pageShape S).find m'.entry k c a :=
    fun a ha => Radix.Shape.find_of_descend_eq ho hi hc h.edit ha
  have hlevel : slotLevel r (k + 1) ((pageShape S).find m.entry (k + 1) t va) =
      slotLevel r k ((pageShape S).find m.entry k c va) := by
    have hle : ((pageShape S).find m.entry k c va).1 ≤ k := Radix.Shape.find_le
    rw [hfind va rfl, slotLevel, slotLevel]
    by_cases hrk : r ≤ k
    · simp [hrk, show r ≤ k + 1 by omega]
    · simp [hrk, show ¬ r ≤ k + 1 by omega]
  have hslot := slotLevel_le (r := r) (k := k) ((pageShape S).find m.entry k c va)
  refine ⟨?_, h.kernelPgd, fun a ha hj => ?_, fun a ha j hj hjk hne => ?_⟩
  · rw [Radix.Shape.orphans_of_child hc, if_neg (Ne.symm hr)]
    exact Radix.Shape.Edit.of_descend ho hi hc h.edit
  · rw [hlevel] at hj ⊢
    rw [hfind' a (hj (k + 1) (by omega) le_rfl)]
    exact h.hit a (ha.mono (Nat.le_succ k)) fun j hj' hjk => hj j hj' (by omega)
  · rw [hlevel] at hj
    by_cases ha' : pdIndexer (levelShift (k + 1)) a = pdIndexer (levelShift (k + 1)) va
    · have hjk' : j ≤ k := by
        by_contra hlt
        obtain rfl : j = k + 1 := by omega
        exact hne ha'
      rw [hfind a ha', hfind' a ha']
      exact h.miss a (ha.mono (Nat.le_succ k)) j hj hjk' hne
    · have hsame : (pageShape S).find m'.entry (k + 1) t a = (pageShape S).find m.entry (k + 1) t a :=
        Radix.Shape.find_of_descend_ne ho hi hc h.edit ha ha'
      rw [hsame]
      exact ⟨.refl _, min_le_right _ _⟩

/-- The walk links a new table into the slot, filled with what the slot stood for, and goes on there. -/
theorem Mapped.of_link {link : ℕ} (hk : k < 2 ∨ ¬ Present e)
    (he : m.entry t (pdIndexer (levelShift (k + 1)) va) = e)
    (hnone : (pageShape S).child (k + 1) e = none) (hr : Present e ∨ r ≠ k + 1)
    (hfresh : c ∉ (m.store held).held) (hlink : (pageShape S).child (k + 1) link = some c)
    (hstore : m₁.store held =
      ⟨Radix.setEntry (Function.update m.entry c (pagePart (k + 1) e)) t
        (pdIndexer (levelShift (k + 1)) va) link, insert c (m.store held).held⟩)
    (hpgd : m₁.kernelPgd = m.kernelPgd) (h : Mapped held S r v va m₁ m' k c) :
    Mapped held S r v va m m' (k + 1) t := by
  have hrow : ∀ i, (pageShape S).child k (pagePart (k + 1) e i) = none := child_pagePart hk
  have hmem : m₁.entry = Radix.setEntry (Function.update m.entry c (pagePart (k + 1) e)) t
      (pdIndexer (levelShift (k + 1)) va) link := congrArg Radix.Store.mem hstore
  have hnone' : (pageShape S).child (k + 1)
      ((m.store held).mem t (pdIndexer (levelShift (k + 1)) va)) = none := by
    rw [show (m.store held).mem = m.entry from rfl, he, hnone]
  have hedit : (pageShape S).Edit (m.store held) (m₁.store held) (k + 1) t ∅ := by
    rw [hstore]
    exact Radix.Shape.Edit.of_link ho hi hnone' hfresh hlink hrow
  have hfindEq : ∀ a, pdIndexer (levelShift (k + 1)) a = pdIndexer (levelShift (k + 1)) va →
      (pageShape S).find m.entry (k + 1) t a = (k + 1, e) ∧
      (pageShape S).find m₁.entry (k + 1) t a =
        (k, pagePart (k + 1) e (pdIndexer (levelShift k) a)) := by
    intro a ha
    refine ⟨?_, ?_⟩
    · have hslot : m.entry t ((pageShape S).idx (k + 1) a) = e := by rw [pageShape_idx, ha, he]
      rw [← hslot] at hnone ⊢
      exact Radix.Shape.find_of_none hnone
    · rw [hmem]
      exact Radix.Shape.find_of_link_eq ho hfresh hlink hrow ha
  have hfindNe : ∀ a, (pageShape S).Within (k + 1) a →
      pdIndexer (levelShift (k + 1)) a ≠ pdIndexer (levelShift (k + 1)) va →
      (pageShape S).find m₁.entry (k + 1) t a = (pageShape S).find m.entry (k + 1) t a := by
    intro a ha hne
    rw [hmem]
    exact Radix.Shape.find_of_link_ne ho hfresh ha hne
  have howns : (pageShape S).Owns (m₁.store held) (k + 1) t := hedit.owns
  have hchild : (pageShape S).child (k + 1)
      ((m₁.store held).mem t (pdIndexer (levelShift (k + 1)) va)) = some c := by
    change (pageShape S).child (k + 1) (m₁.entry t _) = some c
    rw [hmem, Radix.setEntry_self, hlink]
  have hsub : ∀ a, pdIndexer (levelShift (k + 1)) a = pdIndexer (levelShift (k + 1)) va →
      (pageShape S).find m₁.entry (k + 1) t a = (pageShape S).find m₁.entry k c a := by
    intro a ha
    refine Radix.Shape.find_of_child ?_
    rw [pageShape_idx, ha]
    exact hchild
  have hvia : (pageShape S).find m₁.entry k c va =
      (k, pagePart (k + 1) e (pdIndexer (levelShift k) va)) := by
    rw [← hsub va rfl, (hfindEq va rfl).2]
  have hlevel : slotLevel r (k + 1) ((pageShape S).find m.entry (k + 1) t va) =
      slotLevel r k ((pageShape S).find m₁.entry k c va) := by
    rw [(hfindEq va rfl).1, hvia, slotLevel_pagePart _ hr]
  have hslot := slotLevel_le (r := r) (k := k) ((pageShape S).find m₁.entry k c va)
  have hfind' : ∀ a, pdIndexer (levelShift (k + 1)) a = pdIndexer (levelShift (k + 1)) va →
      (pageShape S).find m'.entry (k + 1) t a = (pageShape S).find m'.entry k c a :=
    fun a ha => Radix.Shape.find_of_descend_eq howns hi hchild h.edit ha
  refine ⟨?_, h.kernelPgd.trans hpgd, fun a ha hj => ?_, fun a ha j hj hjk hne => ?_⟩
  · have hlost : (pageShape S).orphans m₁.entry r k c va = ∅ := by
      refine Radix.Shape.orphans_of_none ?_
      have hct : m₁.entry c = pagePart (k + 1) e := by
        have htc : c ≠ t := fun h => hfresh (h ▸ ho.mem_held)
        rw [hmem, Radix.setEntry_of_ne htc, Function.update_self]
      rw [hct, hrow]
    have hlost' : (pageShape S).orphans m.entry r (k + 1) t va = ∅ :=
      Radix.Shape.orphans_of_none hnone'
    have htrans := hedit.trans (Radix.Shape.Edit.of_descend howns hi hchild h.edit)
    rwa [hlost, Set.union_empty, ← hlost'] at htrans
  · rw [hlevel] at hj ⊢
    rw [hfind' a (hj (k + 1) (by omega) le_rfl)]
    exact h.hit a (ha.mono (Nat.le_succ k)) fun j hj' hjk => hj j hj' (by omega)
  · rw [hlevel] at hj
    by_cases ha' : pdIndexer (levelShift (k + 1)) a = pdIndexer (levelShift (k + 1)) va
    · have hjk' : j ≤ k := by
        by_contra hlt
        obtain rfl : j = k + 1 := by omega
        exact hne ha'
      obtain ⟨hsplit, hle⟩ := h.miss a (ha.mono (Nat.le_succ k)) j hj hjk' hne
      rw [← hsub a ha', (hfindEq a ha').2] at hsplit hle
      rw [(hfindEq a ha').1, hfind' a ha']
      refine ⟨.step hsplit, ?_⟩
      dsimp only at hle ⊢
      omega
    · have hsame : (pageShape S).find m'.entry (k + 1) t a =
          (pageShape S).find m₁.entry (k + 1) t a :=
        Radix.Shape.find_of_descend_ne howns hi hchild h.edit ha ha'
      rw [hsame, hfindNe a ha ha']
      exact ⟨.refl _, min_le_right _ _⟩

end Stage

/-- Where the walk stops at a slot and writes it, the page is installed. -/
theorem Mapped.of_write {freed : Set ℕ} (ho : (pageShape S).Owns (m.store held) k t)
    (hi : pdIndexer (levelShift k) va ∈ (pageShape S).slots k)
    (hlevel : slotLevel r k ((pageShape S).find m.entry k t va) = k)
    (hv : (pageShape S).child k v = none)
    (hfreed : freed ⊆ (pageShape S).below m.entry k (m.entry t (pdIndexer (levelShift k) va)))
    (horphans : (pageShape S).orphans m.entry r k t va =
      (pageShape S).below m.entry k (m.entry t (pdIndexer (levelShift k) va)) \ freed)
    (hstore : m'.store held = ⟨Radix.setEntry m.entry t (pdIndexer (levelShift k) va) v,
      (m.store held).held \ freed⟩)
    (hpgd : m'.kernelPgd = m.kernelPgd) : Mapped held S r v va m m' k t := by
  have hmem : m'.entry = Radix.setEntry m.entry t (pdIndexer (levelShift k) va) v :=
    congrArg Radix.Store.mem hstore
  refine ⟨?_, hpgd, fun a _ hj => ?_, fun a ha j hj hjk hne => ?_⟩
  · rw [hstore, horphans]
    exact Radix.Shape.Edit.of_write ho hi hv hfreed
  · rw [hlevel] at hj ⊢
    rw [hmem]
    exact Radix.Shape.find_of_write_eq hv (hj k le_rfl le_rfl)
  · obtain rfl : j = k := by omega
    have hsame : (pageShape S).find m'.entry j t a = (pageShape S).find m.entry j t a := by
      rw [hmem]
      exact Radix.Shape.find_of_write_ne ho ha hne
    rw [hsame]
    exact ⟨.refl _, min_le_right _ _⟩

/-! ### New tables -/

theorem zalloc_eq {r : ℕ × Paging π} (hP : TablePageLaws P held) (h : m.zalloc P = some r) :
    r.1 ∉ held m.pages ∧ 4096 ∣ r.1 ∧ r.1 < 2 ^ 52 ∧ r.2.kernelPgd = m.kernelPgd ∧
      r.2.entry = Function.update m.entry r.1 (fun _ => 0) ∧
      held r.2.pages = insert r.1 (held m.pages) := by
  obtain ⟨⟨a, s⟩, hz, rfl⟩ := Option.map_eq_some_iff.mp h
  obtain ⟨hfresh, hheld⟩ := hP.zalloc hz
  obtain ⟨hdvd, hlt⟩ := hP.held_page (s := s) (p := a) (hheld ▸ Set.mem_insert a _)
  exact ⟨hfresh, hdvd, hlt, rfl, rfl, hheld⟩

/-- The entry `i` of `t` refers to a new table filled with `row`. -/
structure TableLinked (held : π → Set ℕ) (m m₁ : Paging π) (t : ℕ) (i : Fin 512) (row : Fin 512 → ℕ)
    (c : ℕ) : Prop where
  fresh : c ∉ held m.pages
  dvd : 4096 ∣ c
  lt : c < 2 ^ 52
  store : m₁.store held =
    ⟨Radix.setEntry (Function.update m.entry c row) t i (c ||| (pteP ||| pteW)),
      insert c (held m.pages)⟩
  kernelPgd : m₁.kernelPgd = m.kernelPgd

theorem TableLinked.entry_eq {i : Fin 512} {row : Fin 512 → ℕ} (h : TableLinked held m m₁ t i row c) :
    m₁.entry t i = c ||| (pteP ||| pteW) := by
  have hmem : m₁.entry =
      Radix.setEntry (Function.update m.entry c row) t i (c ||| (pteP ||| pteW)) :=
    congrArg Radix.Store.mem h.store
  rw [hmem, Radix.setEntry_self]

theorem TableLinked.ptaddr_entry {i : Fin 512} {row : Fin 512 → ℕ} (h : TableLinked held m m₁ t i row c) :
    ptaddr (m₁.entry t i) = c := by
  rw [h.entry_eq, ptaddr_link h.dvd (h.lt.trans (by norm_num))]

theorem TableLinked.child {i : Fin 512} {row : Fin 512 → ℕ} (h : TableLinked held m m₁ t i row c)
    (hk : k ≠ 0) : (pageShape S).child k (c ||| (pteP ||| pteW)) = some c := by
  rw [child_of_table hk (present_link h.dvd) (Or.inr (not_large_link h.dvd)),
    ptaddr_link h.dvd (h.lt.trans (by norm_num))]

/-- A new table is a tree by itself, as its entries refer to nothing. -/
theorem TableLinked.owns {i : Fin 512} (h : TableLinked held m m₁ t i (pagePart (k + 1) e) c)
    (ho : (pageShape S).Owns (m.store held) (k + 1) t) (hi : i ∈ (pageShape S).slots (k + 1))
    (hnone : (pageShape S).child (k + 1) (m.entry t i) = none) (hk : k < 2 ∨ ¬ Present e) :
    (pageShape S).Owns (m₁.store held) k c := by
  have hedit : (pageShape S).Edit (m.store held) (m₁.store held) (k + 1) t ∅ := by
    rw [h.store]
    exact Radix.Shape.Edit.of_link ho hi hnone h.fresh (h.child (Nat.succ_ne_zero k))
      (child_pagePart hk)
  refine hedit.owns.child hi ?_
  rw [show (m₁.store held).mem = m₁.entry from rfl, h.entry_eq, h.child (Nat.succ_ne_zero k)]

theorem linked_of_zalloc {r : ℕ × Paging π} {i : Fin 512} (hP : TablePageLaws P held)
    (h : m.zalloc P = some r) :
    TableLinked held m (r.2.set t i (r.1 ||| (pteP ||| pteW))) t i (fun _ => 0) r.1 := by
  obtain ⟨hfresh, hdvd, hlt, hpgd, hentry, hheld⟩ := zalloc_eq hP h
  refine ⟨hfresh, hdvd, hlt, ?_, hpgd⟩
  rw [Paging.store, Paging.set, hentry, hheld]

theorem linked_of_expandPage {i : Fin 512} (hP : TablePageLaws P held) (ht : t ∈ held m.pages)
    (h : expandPage P m t i k = some m₁) :
    ∃ c, TableLinked held m m₁ t i (expandRow (m.entry t i) k) c := by
  obtain ⟨r, hz, rfl⟩ := Option.map_eq_some_iff.mp h
  obtain ⟨hfresh, hdvd, hlt, hpgd, hentry, hheld⟩ := zalloc_eq hP hz
  refine ⟨r.1, hfresh, hdvd, hlt, ?_, hpgd⟩
  have hne : t ≠ r.1 := fun h => hfresh (h ▸ ht)
  have hflags : pteW ||| pteP = pteP ||| pteW := by decide
  rw [Paging.store, Paging.set, hentry, hflags]
  refine congrArg₂ Radix.Store.mk ?_ hheld
  dsimp only
  rw [Radix.setEntry, Radix.setEntry, Function.update_of_ne hne, Function.update_of_ne hne,
    Function.update_comm hne, Function.update_idem]

/-! ### The stages of `pgdir_walk` -/

/-- What is assigned to `*pte` refers to no table, and the page asked for is of level 0, 1 or 2. -/
structure LeafFor (r v : ℕ) : Prop where
  le : r ≤ 2
  large : r ≠ 0 → Large v

theorem LeafFor.child (h : LeafFor r v) (hk : k = r ∨ k = 0) : (pageShape S).child k v = none := by
  rcases eq_or_ne k 0 with rfl | hk0
  · exact child_zero
  · obtain rfl : k = r := hk.resolve_right hk0
    have := h.le
    exact child_of_large (by omega) (h.large hk0)

theorem flag_and_alloc (hr : r ≤ 2) : (pgAlloc ||| r) &&& pgAlloc ≠ 0 := by
  interval_cases r <;> decide

theorem flag_and_large (hr : r ≤ 2) (hk : k < 2) : (pgAlloc ||| r) &&& (k + 1) ≠ 0 ↔ r = k + 1 := by
  interval_cases r <;> interval_cases k <;> decide

theorem mapped_of_walkPt (hv : LeafFor r v) (ho : (pageShape S).Owns (m.store held) 0 t)
    (h : (walkPt va none m t).bind (Walk.assign v) = some m') : Mapped held S r v va m m' 0 t := by
  obtain rfl : m.set t (ptx va) v = m' := Option.some.inj h
  refine Mapped.of_write ho (mem_slots (by norm_num) _) (slotLevel_zero_right _)
    (hv.child (Or.inr rfl)) (Set.empty_subset _) ?_ ?_ rfl
  · exact (Set.empty_sdiff _).symm
  · exact congrArg (Radix.Store.mk _) (Set.sdiff_empty).symm

/-- **A directory**: if the walk below it installs the page, so does the walk from it on, through a table
that is there or a new one. -/
theorem mapped_of_walkDir (hP : TablePageLaws P held) (hv : LeafFor r v) (hk : k < 2)
    {next : Paging π → ℕ → Option (Walk π)}
    (hnext : ∀ {m m' c}, (pageShape S).Owns (m.store held) k c →
      (next m c).bind (Walk.assign v) = some m' → Mapped held S r v va m m' k c)
    (ho : (pageShape S).Owns (m.store held) (k + 1) t)
    (h : (walkDir P va none (pgAlloc ||| r) (levelShift (k + 1)) (k + 1) k next m t).bind
      (Walk.assign v) = some m') : Mapped held S r v va m m' (k + 1) t := by
  have hi : pdIndexer (levelShift (k + 1)) va ∈ (pageShape S).slots (k + 1) :=
    mem_slots (by omega) _
  rw [walkDir] at h
  set i := pdIndexer (levelShift (k + 1)) va with hidef
  set e := m.entry t i with hedef
  have hfindNone : (pageShape S).child (k + 1) e = none →
      (pageShape S).find m.entry (k + 1) t va = (k + 1, e) := fun h =>
    Radix.Shape.find_of_none h
  by_cases hp : Present e
  · rw [if_neg (not_not.mpr hp)] at h
    by_cases hl : Large e
    · -- the large page is taken apart
      have hnone : (pageShape S).child (k + 1) e = none := child_of_large (by omega) hl
      rw [if_pos hl, if_neg (flag_and_alloc hv.le), Option.bind_assoc] at h
      obtain ⟨m₁, hm₁, hrest⟩ := Option.bind_eq_some_iff.mp h
      obtain ⟨c, hlink⟩ := linked_of_expandPage hP ho.mem_held hm₁
      have hrow : expandRow e k = pagePart (k + 1) e := by
        funext j
        rw [pagePart, if_pos hp, Nat.add_sub_cancel]
      rw [← hedef, hrow] at hlink
      have hstep := hlink.owns ho hi hnone (Or.inl hk)
      refine Mapped.of_link ho hi (Or.inl hk) hedef.symm hnone (Or.inl hp) hlink.fresh
        (hlink.child (Nat.succ_ne_zero k)) hlink.store hlink.kernelPgd (hnext hstep ?_)
      rwa [hlink.ptaddr_entry] at hrest
    · have hc : (pageShape S).child (k + 1) e = some (ptaddr e) :=
        child_of_table (Nat.succ_ne_zero k) hp (Or.inr hl)
      rw [if_neg hl] at h
      by_cases hr : r = k + 1
      · -- the table gives way to a large page
        rw [if_pos ⟨(flag_and_large hv.le hk).mpr hr, flag_and_alloc hv.le⟩] at h
        obtain rfl := Option.some.inj h
        have hbelow : (pageShape S).below m.entry (k + 1) e =
            (pageShape S).tables m.entry k (ptaddr e) := Radix.Shape.below_of_child hc
        have hlevel : slotLevel r (k + 1) ((pageShape S).find m.entry (k + 1) t va) = k + 1 := by
          have hle : ((pageShape S).find m.entry k (ptaddr e) va).1 ≤ k := Radix.Shape.find_le
          have hfind : (pageShape S).find m.entry (k + 1) t va =
              (pageShape S).find m.entry k (ptaddr e) va := Radix.Shape.find_of_child hc
          rw [hfind, slotLevel, if_pos ⟨by omega, fun h => by omega⟩, hr]
        have hfreed : ({ptaddr e} : Set ℕ) ⊆ (pageShape S).below m.entry (k + 1) e := by
          rw [hbelow]
          exact Set.singleton_subset_iff.mpr Radix.Shape.self_mem_tables
        refine Mapped.of_write ho hi hlevel (hv.child (Or.inl hr.symm)) hfreed ?_ ?_ rfl
        · rw [Radix.Shape.orphans_of_child hc, if_pos hr.symm]
          exact congrArg (· \ _) hbelow.symm
        · exact congrArg (Radix.Store.mk _) (hP.free (ho.below_sub hi (hfreed rfl)))
      · rw [if_neg (fun hf => hr ((flag_and_large hv.le hk).mp hf.1))] at h
        exact Mapped.of_descend ho hi hr hc (hnext (ho.child hi hc) h)
  · rw [if_pos hp, if_neg (flag_and_alloc hv.le)] at h
    have hnone : (pageShape S).child (k + 1) e = none := child_of_not_present hp
    by_cases hr : r = k + 1
    · rw [if_pos ((flag_and_large hv.le hk).mpr hr)] at h
      obtain rfl : m.set t i v = m' := Option.some.inj h
      have hlevel : slotLevel r (k + 1) ((pageShape S).find m.entry (k + 1) t va) = k + 1 := by
        rw [hfindNone hnone, hr, slotLevel_self _ rfl hp]
      refine Mapped.of_write ho hi hlevel (hv.child (Or.inl hr.symm)) (Set.empty_subset _) ?_ ?_ rfl
      · rw [Radix.Shape.orphans_of_none hnone, Radix.Shape.below_of_none hnone, Set.empty_sdiff]
      · exact congrArg (Radix.Store.mk _) (Set.sdiff_empty).symm
    · rw [if_neg (fun hf => hr ((flag_and_large hv.le hk).mp hf)), Option.bind_assoc] at h
      obtain ⟨z, hz, hrest⟩ := Option.bind_eq_some_iff.mp h
      have hlink := linked_of_zalloc (t := t) (i := i) hP hz
      have hrow : (fun _ => 0) = pagePart (k + 1) e := by
        funext j
        rw [pagePart, if_neg hp]
      rw [hrow] at hlink
      have hstep := hlink.owns ho hi hnone (Or.inr hp)
      refine Mapped.of_link ho hi (Or.inr hp) hedef.symm hnone (Or.inr hr) hlink.fresh
        (hlink.child (Nat.succ_ne_zero k)) hlink.store hlink.kernelPgd (hnext hstep ?_)
      dsimp only at hrest
      rwa [hlink.ptaddr_entry] at hrest

theorem mapped_of_walkPd (hP : TablePageLaws P held) (hv : LeafFor r v)
    (ho : (pageShape S).Owns (m.store held) 1 t)
    (h : (walkPd P va none (pgAlloc ||| r) m t).bind (Walk.assign v) = some m') :
    Mapped held S r v va m m' 1 t :=
  mapped_of_walkDir hP hv (by norm_num) (fun ho h => mapped_of_walkPt hv ho h) ho h

theorem mapped_of_walkPud (hP : TablePageLaws P held) (hv : LeafFor r v)
    (ho : (pageShape S).Owns (m.store held) 2 t)
    (h : (walkPud P va none (pgAlloc ||| r) m t).bind (Walk.assign v) = some m') :
    Mapped held S r v va m m' 2 t :=
  mapped_of_walkDir hP hv (by norm_num) (fun ho h => mapped_of_walkPd hP hv ho h) ho h

/-- An entry of the top level is kept, or refers to a table where there was none. -/
def TopKept (e e' : ℕ) : Prop := e' = e ∨ ¬ Present e ∧ Present e' ∧ ¬ Large e'

/-- **Installing a page** writes its slot and, on the way to it, only links new tables; every entry of the
top level refers to the table that it referred to. -/
theorem mapPage_mapped {pgd : ℕ} (hP : TablePageLaws P held) (hv : LeafFor r v)
    (ho : (pageShape S).Owns (m.store held) 3 pgd) (hi : pgx va ∈ S)
    (h : mapPage P pgd r va v m = some m') :
    Mapped held S r v va m m' 3 pgd ∧ ∀ j, TopKept (m.entry pgd j) (m'.entry pgd j) := by
  have hr3 : r ≠ 2 + 1 := by
    have := hv.le
    omega
  have hi' : pdIndexer (levelShift (2 + 1)) va ∈ (pageShape S).slots (2 + 1) := hi
  rw [mapPage, pgdirWalk] at h
  by_cases hp : Present (m.entry pgd (pgx va))
  · rw [if_neg (not_not.mpr hp)] at h
    have hc : (pageShape S).child (2 + 1) (m.entry pgd (pgx va)) =
        some (ptaddr (m.entry pgd (pgx va))) := child_of_table (by norm_num) hp (Or.inl rfl)
    have hsub := mapped_of_walkPud hP hv (ho.child hi' hc) h
    refine ⟨Mapped.of_descend ho hi' hr3 hc hsub, fun j => Or.inl ?_⟩
    exact congrFun (Radix.Shape.Edit.root_eq ho hi' hc hsub.edit) j
  · rw [if_pos hp, if_neg (flag_and_alloc hv.le), Option.bind_assoc] at h
    obtain ⟨z, hz, hrest⟩ := Option.bind_eq_some_iff.mp h
    dsimp only at hrest
    have hlink := linked_of_zalloc (t := pgd) (i := pgx va) hP hz
    have hrow : (fun _ => 0) = pagePart (2 + 1) (m.entry pgd (pgx va)) := by
      funext j
      rw [pagePart, if_neg hp]
    rw [hrow] at hlink
    have hnone : (pageShape S).child (2 + 1) (m.entry pgd (pgx va)) = none :=
      child_of_not_present hp
    rw [hlink.ptaddr_entry] at hrest
    have hchild := hlink.child (S := S) (k := 2 + 1) (by norm_num)
    have hsub := mapped_of_walkPud hP hv (hlink.owns ho hi' hnone (Or.inr hp)) hrest
    refine ⟨Mapped.of_link ho hi' (Or.inr hp) rfl hnone (Or.inr hr3) hlink.fresh
      hchild hlink.store hlink.kernelPgd hsub, fun j => ?_⟩
    -- below, the walk leaves the top level alone
    have hedit : (pageShape S).Edit (m.store held)
        (Paging.store held (z.2.set pgd (pgx va) (z.1 ||| (pteP ||| pteW)))) (2 + 1) pgd ∅ := by
      rw [hlink.store]
      exact Radix.Shape.Edit.of_link ho hi' hnone hlink.fresh hchild (child_pagePart (Or.inr hp))
    have hroot : m'.entry pgd = (z.2.set pgd (pgx va) (z.1 ||| (pteP ||| pteW))).entry pgd := by
      refine Radix.Shape.Edit.root_eq hedit.owns hi' ?_ hsub.edit
      rw [show (Paging.store held (z.2.set pgd (pgx va) (z.1 ||| (pteP ||| pteW)))).mem pgd
        (pdIndexer (levelShift (2 + 1)) va) = z.1 ||| (pteP ||| pteW) from hlink.entry_eq, hchild]
    rw [hroot]
    by_cases hj : j = pgx va
    · subst hj
      rw [hlink.entry_eq]
      exact Or.inr ⟨hp, present_link hlink.dvd, not_large_link hlink.dvd⟩
    · have hne : pgd ≠ z.1 := fun h => hlink.fresh (h ▸ ho.mem_held)
      have hmem := congrArg Radix.Store.mem hlink.store
      refine Or.inl ?_
      change (Paging.store held (z.2.set pgd (pgx va) (z.1 ||| (pteP ||| pteW)))).mem pgd j = _
      rw [hmem]
      dsimp only
      rw [Radix.setEntry_of_slot_ne hj, Function.update_of_ne hne]

end GeekToyOS
