import Mathlib

/-!
# Radix tables in memory

A table of level `k` has one entry a slot. An entry of a table of level `k + 1` may refer to a table of
level `k`; one that does not is where the search for an address ends. The tables live in a memory and
are shared by nobody as long as they form a tree.

This file is about trees that change: what becomes of the tables and of the search for every address when
one slot is written, when a new table is linked into a slot, and when the change happens in a table
further down. `Edit.of_slot` is the one argument behind the three.

## Main definitions

* `Shape` — which table an entry refers to, which slot an address selects, and which slots count
* `find` — the level and the entry at which the search for an address ends
* `tables`, `below` — the tables reachable from a table, and from an entry
* `orphans` — the tables that become unreachable when a slot is overwritten
* `Tree` — no table is reachable in two ways
* `Owns` — a tree whose tables are all in use
* `Edit s s' k t lost` — a change of the tree below `t`, and of nothing else; the pages in `lost` stay
  in use although no table of the tree refers to them any more
* `Splits` — the entry at which the search ends was replaced by finer ones

## Main results

* `Edit.of_write`, `Edit.of_link`, `Edit.of_descend` — the three changes
* `find_of_write`, `find_of_link`, `find_of_descend` — and what the searches see of them
-/

namespace Radix

variable {ν ι ε α : Type*}

/-- How tables refer to tables. -/
structure Shape (ν ι ε α : Type*) where
  /-- the table that an entry of a table of this level refers to -/
  child : ℕ → ε → Option ν
  /-- the slot that an address selects at this level -/
  idx : ℕ → α → ι
  /-- the slots that count -/
  slots : ℕ → Set ι

/-- A memory of tables, and the pages of it that are in use. -/
structure Store (ν ι ε : Type*) where
  mem : ν → ι → ε
  held : Set ν

section SetEntry

variable [DecidableEq ν] [DecidableEq ι]

/-- The memory with one entry written. -/
def setEntry (mem : ν → ι → ε) (t : ν) (i : ι) (e : ε) : ν → ι → ε :=
  Function.update mem t (Function.update (mem t) i e)

@[simp] theorem setEntry_self (mem : ν → ι → ε) (t : ν) (i : ι) (e : ε) :
    setEntry mem t i e t i = e := by
  simp [setEntry]

theorem setEntry_of_slot_ne {mem : ν → ι → ε} {t : ν} {i j : ι} {e : ε} (h : j ≠ i) :
    setEntry mem t i e t j = mem t j := by
  simp [setEntry, h]

theorem setEntry_of_ne {mem : ν → ι → ε} {t p : ν} {i : ι} {e : ε} (h : p ≠ t) :
    setEntry mem t i e p = mem p := by
  simp [setEntry, h]

end SetEntry

namespace Shape

variable (R : Shape ν ι ε α) (mem : ν → ι → ε)

/-- The level and the entry at which the search for `a` ends. -/
def find : ℕ → ν → α → ℕ × ε
  | 0, t, a => (0, mem t (R.idx 0 a))
  | k + 1, t, a =>
    match R.child (k + 1) (mem t (R.idx (k + 1) a)) with
    | none => (k + 1, mem t (R.idx (k + 1) a))
    | some c => find k c a

/-- The tables reachable from the table `t` of level `k`. -/
def tables : ℕ → ν → Set ν
  | 0, t => {t}
  | k + 1, t => {p | p = t ∨
      ∃ i ∈ R.slots (k + 1), ∃ c, R.child (k + 1) (mem t i) = some c ∧ p ∈ tables k c}

/-- The tables reachable from an entry of a table of level `k`. -/
def below : ℕ → ε → Set ν
  | 0, _ => ∅
  | k + 1, e => {p | ∃ c, R.child (k + 1) e = some c ∧ p ∈ R.tables mem k c}

/-- No table is reachable from `t` in two ways. -/
def Tree : ℕ → ν → Prop
  | 0, _ => True
  | k + 1, t =>
    (∀ i ∈ R.slots (k + 1), ∀ c, R.child (k + 1) (mem t i) = some c →
      t ∉ R.tables mem k c ∧ Tree k c) ∧
    ∀ i ∈ R.slots (k + 1), ∀ j ∈ R.slots (k + 1), i ≠ j →
      Disjoint (R.below mem (k + 1) (mem t i)) (R.below mem (k + 1) (mem t j))

/-- The same of an entry. -/
def EntryTree : ℕ → ε → Prop
  | 0, _ => True
  | k + 1, e => ∀ c, R.child (k + 1) e = some c → R.Tree mem k c

/-- What no table refers to any more when the slot of level `r` on the way to `a` is overwritten and
the table it referred to is given back: the tables below that one. -/
def orphans (r : ℕ) : ℕ → ν → α → Set ν
  | 0, _, _ => ∅
  | k + 1, t, a =>
    match R.child (k + 1) (mem t (R.idx (k + 1) a)) with
    | none => ∅
    | some c => if k + 1 = r then R.tables mem k c \ {c} else orphans r k c a

variable {R mem} {mem' : ν → ι → ε} {k : ℕ} {t c : ν} {i : ι} {e : ε} {a : α} {p : ν}

theorem mem_tables :
    p ∈ R.tables mem k t ↔ p = t ∨ ∃ i ∈ R.slots k, p ∈ R.below mem k (mem t i) := by
  cases k with
  | zero => simp [tables, below]
  | succ k => rfl

theorem self_mem_tables : t ∈ R.tables mem k t := mem_tables.mpr (Or.inl rfl)

theorem below_subset (hi : i ∈ R.slots k) : R.below mem k (mem t i) ⊆ R.tables mem k t :=
  fun _ hp => mem_tables.mpr (Or.inr ⟨i, hi, hp⟩)

theorem below_of_child (h : R.child (k + 1) e = some c) :
    R.below mem (k + 1) e = R.tables mem k c := by
  ext p
  simp [below, h]

theorem below_of_none (h : R.child k e = none) : R.below mem k e = ∅ := by
  cases k with
  | zero => rfl
  | succ k =>
    ext p
    simp [below, h]

theorem tree_iff : R.Tree mem k t ↔
    (∀ i ∈ R.slots k, t ∉ R.below mem k (mem t i) ∧ R.EntryTree mem k (mem t i)) ∧
      ∀ i ∈ R.slots k, ∀ j ∈ R.slots k, i ≠ j →
        Disjoint (R.below mem k (mem t i)) (R.below mem k (mem t j)) := by
  cases k with
  | zero => simp [Tree, below, EntryTree]
  | succ k =>
    refine and_congr_left fun _ => forall₂_congr fun i _ => ⟨fun h => ?_, fun h c hc => ?_⟩
    · exact ⟨fun hb => hb.elim fun c hc => (h c hc.1).1 hc.2, fun c hc => (h c hc).2⟩
    · exact ⟨fun ht => h.1 ⟨c, hc, ht⟩, h.2 c hc⟩

/-! ### Memories that agree -/

theorem tables_congr (h : Set.EqOn mem' mem (R.tables mem k t)) :
    R.tables mem' k t = R.tables mem k t := by
  induction k generalizing t with
  | zero => rfl
  | succ k ih =>
    have ht : mem' t = mem t := h self_mem_tables
    have hsub : ∀ i ∈ R.slots (k + 1), ∀ c, R.child (k + 1) (mem t i) = some c →
        R.tables mem' k c = R.tables mem k c := by
      intro i hi c hc
      refine ih (h.mono ?_)
      rw [← below_of_child hc]
      exact below_subset hi
    ext p
    refine or_congr_right (exists_congr fun i => and_congr_right fun hi =>
      exists_congr fun c => ?_)
    rw [ht]
    exact and_congr_right fun hc => by rw [hsub i hi c hc]

theorem below_congr (h : Set.EqOn mem' mem (R.below mem k e)) :
    R.below mem' k e = R.below mem k e := by
  cases k with
  | zero => rfl
  | succ k =>
    cases hc : R.child (k + 1) e with
    | none => rw [below_of_none hc, below_of_none hc]
    | some c =>
      rw [below_of_child hc] at h
      rw [below_of_child hc, below_of_child hc, tables_congr h]

theorem tree_congr (h : Set.EqOn mem' mem (R.tables mem k t)) (ht : R.Tree mem k t) :
    R.Tree mem' k t := by
  induction k generalizing t with
  | zero => trivial
  | succ k ih =>
    have hroot : mem' t = mem t := h self_mem_tables
    have hbelow : ∀ i ∈ R.slots (k + 1),
        R.below mem' (k + 1) (mem t i) = R.below mem (k + 1) (mem t i) :=
      fun i hi => below_congr (h.mono (below_subset hi))
    refine ⟨fun i hi c hc => ?_, fun i hi j hj hne => ?_⟩
    · rw [hroot] at hc
      have hsub : R.tables mem k c ⊆ R.tables mem (k + 1) t := by
        rw [← below_of_child hc]
        exact below_subset hi
      rw [tables_congr (h.mono hsub)]
      exact ⟨(ht.1 i hi c hc).1, ih (h.mono hsub) (ht.1 i hi c hc).2⟩
    · rw [hroot, hbelow i hi, hbelow j hj]
      exact ht.2 i hi j hj hne

theorem entryTree_congr (h : Set.EqOn mem' mem (R.below mem k e)) (ht : R.EntryTree mem k e) :
    R.EntryTree mem' k e := by
  cases k with
  | zero => trivial
  | succ k =>
    intro c hc
    rw [below_of_child hc] at h
    exact tree_congr h (ht c hc)

variable (R) in
/-- The address selects only slots that count. -/
def Within (k : ℕ) (a : α) : Prop := ∀ j ≤ k, R.idx j a ∈ R.slots j

theorem Within.mono {j : ℕ} (h : R.Within k a) (hj : j ≤ k) : R.Within j a :=
  fun j' hj' => h j' (hj'.trans hj)

theorem find_congr (ha : R.Within k a) (h : Set.EqOn mem' mem (R.tables mem k t)) :
    R.find mem' k t a = R.find mem k t a := by
  induction k generalizing t with
  | zero =>
    have ht : mem' t = mem t := h self_mem_tables
    rw [find, find, ht]
  | succ k ih =>
    have ht : mem' t = mem t := h self_mem_tables
    rw [find, find, ht]
    cases hc : R.child (k + 1) (mem t (R.idx (k + 1) a)) with
    | none => rfl
    | some c =>
      refine ih (ha.mono (Nat.le_succ k)) (h.mono ?_)
      rw [← below_of_child hc]
      exact below_subset (ha _ le_rfl)

theorem find_of_child (h : R.child (k + 1) (mem t (R.idx (k + 1) a)) = some c) :
    R.find mem (k + 1) t a = R.find mem k c a := by
  rw [find, h]

theorem find_of_none (h : R.child k (mem t (R.idx k a)) = none) :
    R.find mem k t a = (k, mem t (R.idx k a)) := by
  cases k with
  | zero => rfl
  | succ k => rw [find, h]

theorem orphans_of_none {r : ℕ} (h : R.child k (mem t (R.idx k a)) = none) :
    R.orphans mem r k t a = ∅ := by
  cases k with
  | zero => rfl
  | succ k => rw [orphans, h]

theorem orphans_of_child {r : ℕ} (h : R.child (k + 1) (mem t (R.idx (k + 1) a)) = some c) :
    R.orphans mem r (k + 1) t a =
      if k + 1 = r then R.tables mem k c \ {c} else R.orphans mem r k c a := by
  rw [orphans, h]

theorem find_le : (R.find mem k t a).1 ≤ k := by
  induction k generalizing t with
  | zero => exact le_rfl
  | succ k ih =>
    rw [find]
    cases R.child (k + 1) (mem t (R.idx (k + 1) a)) with
    | none => exact le_rfl
    | some c => exact (ih (t := c)).trans (Nat.le_succ k)

/-- Addresses that agree down to the level where the search ends find the same. -/
theorem find_eq_of_idx {b : α}
    (h : ∀ j, (R.find mem k t a).1 ≤ j → j ≤ k → R.idx j b = R.idx j a) :
    R.find mem k t b = R.find mem k t a := by
  induction k generalizing t with
  | zero =>
    have h0 : R.idx 0 b = R.idx 0 a := h 0 le_rfl le_rfl
    rw [find, find, h0]
  | succ k ih =>
    have htop : R.idx (k + 1) b = R.idx (k + 1) a := h (k + 1) find_le le_rfl
    rw [find, find, htop]
    rw [find] at h
    cases hc : R.child (k + 1) (mem t (R.idx (k + 1) a)) with
    | none => rfl
    | some c =>
      rw [hc] at h
      exact ih fun j hj hjk => h j hj (hjk.trans (Nat.le_succ k))

/-- A search finds what it found before if its own slot, and what is below it, have not changed. -/
theorem find_congr_slot (ha : R.Within k a)
    (hslot : mem' t (R.idx k a) = mem t (R.idx k a))
    (h : Set.EqOn mem' mem (R.below mem k (mem t (R.idx k a)))) :
    R.find mem' k t a = R.find mem k t a := by
  cases k with
  | zero => rw [find, find, hslot]
  | succ k =>
    rw [find, find, hslot]
    cases hc : R.child (k + 1) (mem t (R.idx (k + 1) a)) with
    | none => rfl
    | some c =>
      rw [below_of_child hc] at h
      exact find_congr (ha.mono (Nat.le_succ k)) h

/-! ### Changes of a tree -/

variable (R)

/-- The tables below `t` form a tree, and all of them are in use. -/
structure Owns (s : Store ν ι ε) (k : ℕ) (t : ν) : Prop where
  tree : R.Tree s.mem k t
  sub : R.tables s.mem k t ⊆ s.held

/-- The tree below `t` changed, and nothing else did. -/
structure Edit (s s' : Store ν ι ε) (k : ℕ) (t : ν) (lost : Set ν) : Prop where
  owns : R.Owns s' k t
  frame : Set.EqOn s'.mem s.mem (s.held \ R.tables s.mem k t)
  rest : s'.held \ R.tables s'.mem k t = s.held \ R.tables s.mem k t ∪ lost
  lost_sub : ∀ p ∈ lost, p ∈ s.held → p ∈ R.tables s.mem k t

variable {R} {s s' s'' : Store ν ι ε} {lost lost' : Set ν}

theorem Owns.mem_held (h : R.Owns s k t) : t ∈ s.held := h.sub self_mem_tables

theorem Owns.notMem_below (h : R.Owns s k t) (hi : i ∈ R.slots k) :
    t ∉ R.below s.mem k (s.mem t i) :=
  ((tree_iff.mp h.tree).1 i hi).1

theorem Owns.below_sub (h : R.Owns s k t) (hi : i ∈ R.slots k) :
    R.below s.mem k (s.mem t i) ⊆ s.held :=
  (below_subset hi).trans h.sub

/-- A table that refers to none is the only table of its tree. -/
theorem tables_of_leaf (h : ∀ i ∈ R.slots k, R.child k (mem t i) = none) : R.tables mem k t = {t} := by
  ext p
  rw [mem_tables]
  refine ⟨fun hp => hp.elim id ?_, Or.inl⟩
  rintro ⟨i, hi, hp⟩
  rw [below_of_none (h i hi)] at hp
  exact hp.elim

theorem Owns.of_leaf (ht : t ∈ s.held) (h : ∀ i ∈ R.slots k, R.child k (s.mem t i) = none) :
    R.Owns s k t := by
  refine ⟨tree_iff.mpr ⟨fun i hi => ⟨?_, ?_⟩, fun i hi j _ _ => ?_⟩, ?_⟩
  · rw [below_of_none (h i hi)]
    exact Set.notMem_empty t
  · cases k with
    | zero => trivial
    | succ k =>
      intro c hc
      rw [h i hi] at hc
      cases hc
  · rw [below_of_none (h i hi)]
    exact Set.empty_disjoint _
  · rw [tables_of_leaf h]
    exact Set.singleton_subset_iff.mpr ht

/-- The tree of a table that refers to one other is itself and the tree of that one. -/
theorem tables_of_single (hi : i ∈ R.slots (k + 1)) (hc : R.child (k + 1) (mem t i) = some c)
    (h : ∀ j ∈ R.slots (k + 1), j ≠ i → R.child (k + 1) (mem t j) = none) :
    R.tables mem (k + 1) t = insert t (R.tables mem k c) := by
  ext p
  rw [mem_tables]
  refine or_congr_right ⟨?_, fun hp => ⟨i, hi, ?_⟩⟩
  · rintro ⟨j, hj, hp⟩
    by_cases hji : j = i
    · rwa [hji, below_of_child hc] at hp
    · rw [below_of_none (h j hj hji)] at hp
      exact hp.elim
  · rwa [below_of_child hc]

theorem Owns.of_single (hi : i ∈ R.slots (k + 1)) (hc : R.child (k + 1) (s.mem t i) = some c)
    (h : ∀ j ∈ R.slots (k + 1), j ≠ i → R.child (k + 1) (s.mem t j) = none) (ho : R.Owns s k c)
    (ht : t ∈ s.held) (hne : t ∉ R.tables s.mem k c) : R.Owns s (k + 1) t := by
  have hempty : ∀ j ∈ R.slots (k + 1), j ≠ i → R.below s.mem (k + 1) (s.mem t j) = ∅ :=
    fun j hj hji => below_of_none (h j hj hji)
  refine ⟨⟨fun j hj d hd => ?_, fun j hj l hl hjl => ?_⟩, ?_⟩
  · by_cases hji : j = i
    · subst hji
      obtain rfl := Option.some.inj (hc.symm.trans hd)
      exact ⟨hne, ho.tree⟩
    · rw [h j hj hji] at hd
      cases hd
  · by_cases hji : j = i
    · rw [hempty l hl fun hli => hjl (hji.trans hli.symm)]
      exact Set.disjoint_empty _
    · rw [hempty j hj hji]
      exact Set.empty_disjoint _
  · rw [tables_of_single hi hc h]
    exact Set.insert_subset ht ho.sub

/-- The subtree of a slot is owned as a tree by itself. -/
theorem Owns.child (h : R.Owns s (k + 1) t) (hi : i ∈ R.slots (k + 1))
    (hc : R.child (k + 1) (s.mem t i) = some c) : R.Owns s k c := by
  refine ⟨((tree_iff.mp h.tree).1 i hi).2 c hc, ?_⟩
  rw [← below_of_child hc]
  exact h.below_sub hi

theorem Edit.refl (h : R.Owns s k t) : R.Edit s s k t ∅ :=
  ⟨h, fun _ _ => rfl, (Set.union_empty _).symm, fun _ hp => hp.elim⟩

theorem Edit.trans (h : R.Edit s s' k t lost) (h' : R.Edit s' s'' k t lost') :
    R.Edit s s'' k t (lost ∪ lost') := by
  have hkept : s.held \ R.tables s.mem k t ⊆ s'.held \ R.tables s'.mem k t := by
    rw [h.rest]
    exact Set.subset_union_left
  refine ⟨h'.owns, fun p hp => ?_, ?_, ?_⟩
  · rw [h'.frame (hkept hp), h.frame hp]
  · rw [h'.rest, h.rest, Set.union_assoc]
  · rintro p (hp | hp) hheld
    · exact h.lost_sub p hp hheld
    · by_contra hne
      have hp' := hkept ⟨hheld, hne⟩
      exact hp'.2 (h'.lost_sub p hp hp'.1)

/-- Another tree, whose tables are in use and not among those that changed, is left alone. -/
theorem Edit.eqOn_of_disjoint {S : Set ν} (h : R.Edit s s' k t lost) (hS : S ⊆ s.held)
    (hdisj : Disjoint S (R.tables s.mem k t)) : Set.EqOn s'.mem s.mem S :=
  fun _ hp => h.frame ⟨hS hp, Set.disjoint_left.mp hdisj hp⟩

/-- **One slot of `t` changes, with the tables below it.** -/
theorem Edit.of_slot (ho : R.Owns s k t) (hi : i ∈ R.slots k)
    (hslots : ∀ j, j ≠ i → s'.mem t j = s.mem t j)
    (htree : R.EntryTree s'.mem k (s'.mem t i)) (ht : t ∉ R.below s'.mem k (s'.mem t i))
    (hframe : Set.EqOn s'.mem s.mem (s.held \ insert t (R.below s.mem k (s.mem t i))))
    (hsub : R.below s'.mem k (s'.mem t i) ⊆ s'.held)
    (hrest : s'.held \ R.below s'.mem k (s'.mem t i) =
      s.held \ R.below s.mem k (s.mem t i) ∪ lost)
    (hlost : ∀ p ∈ lost, p ∈ s.held → p ∈ R.below s.mem k (s.mem t i)) :
    R.Edit s s' k t lost := by
  obtain ⟨hentry, hdisj⟩ := tree_iff.mp ho.tree
  have hother : ∀ j ∈ R.slots k, j ≠ i →
      R.below s'.mem k (s'.mem t j) = R.below s.mem k (s.mem t j) ∧
      Set.EqOn s'.mem s.mem (R.below s.mem k (s.mem t j)) := by
    intro j hj hne
    have heq : Set.EqOn s'.mem s.mem (R.below s.mem k (s.mem t j)) := by
      refine fun p hp => hframe ⟨ho.below_sub hj hp, ?_⟩
      rintro (rfl | hp')
      · exact (hentry j hj).1 hp
      · exact Set.disjoint_left.mp (hdisj j hj i hi hne) hp hp'
    rw [hslots j hne]
    exact ⟨below_congr heq, heq⟩
  -- what the other slots refer to is in use before and after, and not below slot `i`
  have hkeep : ∀ p ∈ s.held, p ∉ R.below s.mem k (s.mem t i) →
      p ∈ s'.held ∧ p ∉ R.below s'.mem k (s'.mem t i) := by
    intro p hp hne
    have : p ∈ s'.held \ R.below s'.mem k (s'.mem t i) := by
      rw [hrest]
      exact Or.inl ⟨hp, hne⟩
    exact this
  have hfar : ∀ j ∈ R.slots k, j ≠ i → ∀ p ∈ R.below s.mem k (s.mem t j),
      p ∈ s.held ∧ p ∉ R.below s.mem k (s.mem t i) := fun j hj hne p hp =>
    ⟨ho.below_sub hj hp, fun hp' => Set.disjoint_left.mp (hdisj j hj i hi hne) hp hp'⟩
  refine ⟨⟨tree_iff.mpr ⟨fun j hj => ?_, fun j hj l hl hne => ?_⟩, fun p hp => ?_⟩, ?_, ?_, ?_⟩
  · by_cases hji : j = i
    · subst hji
      exact ⟨ht, htree⟩
    · obtain ⟨hb, heq⟩ := hother j hj hji
      refine ⟨?_, ?_⟩
      · rw [hb]
        exact (hentry j hj).1
      · rw [hslots j hji]
        exact entryTree_congr heq (hentry j hj).2
  · by_cases hji : j = i
    · subst hji
      rw [(hother l hl hne.symm).1]
      refine Set.disjoint_right.mpr fun p hp => ?_
      obtain ⟨hpheld, hpi⟩ := hfar l hl hne.symm p hp
      exact (hkeep p hpheld hpi).2
    · by_cases hli : l = i
      · subst hli
        rw [(hother j hj hji).1]
        refine Set.disjoint_left.mpr fun p hp => ?_
        obtain ⟨hpheld, hpi⟩ := hfar j hj hji p hp
        exact (hkeep p hpheld hpi).2
      · rw [(hother j hj hji).1, (hother l hl hli).1]
        exact hdisj j hj l hl hne
  · rcases mem_tables.mp hp with rfl | ⟨j, hj, hp⟩
    · exact (hkeep p ho.mem_held (hentry i hi).1).1
    · by_cases hji : j = i
      · subst hji
        exact hsub hp
      · rw [(hother j hj hji).1] at hp
        obtain ⟨hpheld, hpi⟩ := hfar j hj hji p hp
        exact (hkeep p hpheld hpi).1
  · refine fun p hp => hframe ⟨hp.1, ?_⟩
    rintro (rfl | hp')
    · exact hp.2 self_mem_tables
    · exact hp.2 (below_subset hi hp')
  · -- outside the tree: what was there, and what was lost
    have htab : ∀ p, p ∉ R.below s.mem k (s.mem t i) → p ∉ R.below s'.mem k (s'.mem t i) →
        (p ∈ R.tables s'.mem k t ↔ p ∈ R.tables s.mem k t) := by
      intro p hp hp'
      rw [mem_tables, mem_tables]
      refine or_congr_right (exists_congr fun j => and_congr_right fun hj => ?_)
      by_cases hji : j = i
      · subst hji
        exact ⟨fun h => (hp' h).elim, fun h => (hp h).elim⟩
      · rw [(hother j hj hji).1]
    ext p
    constructor
    · rintro ⟨hheld, hne⟩
      have hne' : p ∉ R.below s'.mem k (s'.mem t i) := fun h => hne (below_subset hi h)
      have hp : p ∈ s.held \ R.below s.mem k (s.mem t i) ∪ lost := by
        rw [← hrest]
        exact ⟨hheld, hne'⟩
      rcases hp with ⟨hs, hb⟩ | hp
      · exact Or.inl ⟨hs, fun h => hne ((htab p hb hne').mpr h)⟩
      · exact Or.inr hp
    · rintro (⟨hheld, hne⟩ | hp)
      · have hb : p ∉ R.below s.mem k (s.mem t i) := fun h => hne (below_subset hi h)
        obtain ⟨hheld', hb'⟩ := hkeep p hheld hb
        exact ⟨hheld', fun h => hne ((htab p hb hb').mp h)⟩
      · have hp' : p ∈ s'.held \ R.below s'.mem k (s'.mem t i) := by
          rw [hrest]
          exact Or.inr hp
        refine ⟨hp'.1, fun h => ?_⟩
        -- a lost page that the tree still reaches would be in use and below another slot
        rcases mem_tables.mp h with rfl | ⟨j, hj, hpj⟩
        · exact (hentry i hi).1 (hlost p hp ho.mem_held)
        · by_cases hji : j = i
          · subst hji
            exact hp'.2 hpj
          · rw [(hother j hj hji).1] at hpj
            obtain ⟨hpheld, hpi⟩ := hfar j hj hji p hpj
            exact hpi (hlost p hp hpheld)
  · exact fun p hp hheld => below_subset hi (hlost p hp hheld)

/-! ### The change happens in the table that a slot refers to -/

section Descend

variable (ho : R.Owns s (k + 1) t) (hi : i ∈ R.slots (k + 1))
  (hc : R.child (k + 1) (s.mem t i) = some c) (h : R.Edit s s' k c lost)

include ho hi hc h

theorem Edit.root_eq : s'.mem t = s.mem t := by
  refine h.frame ⟨ho.mem_held, ?_⟩
  rw [← below_of_child hc]
  exact ho.notMem_below hi

theorem Edit.of_descend : R.Edit s s' (k + 1) t lost := by
  have hroot : s'.mem t = s.mem t := Edit.root_eq ho hi hc h
  have hc' : R.child (k + 1) (s'.mem t i) = some c := by rw [hroot, hc]
  have hkept : t ∈ s'.held \ R.tables s'.mem k c := by
    rw [h.rest, ← below_of_child hc]
    exact Or.inl ⟨ho.mem_held, ho.notMem_below hi⟩
  refine Edit.of_slot ho hi (fun j _ => by rw [hroot]) ?_ ?_ ?_ ?_ ?_ ?_
  · intro d hd
    obtain rfl : c = d := Option.some.inj (hc'.symm.trans hd)
    exact h.owns.tree
  · rw [below_of_child hc']
    exact hkept.2
  · rw [below_of_child hc]
    exact fun p hp => h.frame ⟨hp.1, fun hp' => hp.2 (Or.inr hp')⟩
  · rw [below_of_child hc']
    exact h.owns.sub
  · rw [below_of_child hc', below_of_child hc]
    exact h.rest
  · rw [below_of_child hc]
    exact h.lost_sub

theorem find_of_descend_eq (ha : R.idx (k + 1) a = i) :
    R.find s'.mem (k + 1) t a = R.find s'.mem k c a := by
  refine find_of_child ?_
  rw [Edit.root_eq ho hi hc h, ha, hc]

theorem find_of_descend_ne (hw : R.Within (k + 1) a) (ha : R.idx (k + 1) a ≠ i) :
    R.find s'.mem (k + 1) t a = R.find s.mem (k + 1) t a := by
  have hslot := hw _ le_rfl
  refine find_congr_slot hw (by rw [Edit.root_eq ho hi hc h]) ?_
  refine h.eqOn_of_disjoint (ho.below_sub hslot) ?_
  rw [← below_of_child hc]
  exact (tree_iff.mp ho.tree).2 _ hslot i hi ha

end Descend

/-! ### A slot is written -/

section Write

variable [DecidableEq ν] [DecidableEq ι] {e' : ε} {freed : Set ν}

/-- **A slot is written, and tables that it referred to are given back.** -/
theorem Edit.of_write (ho : R.Owns s k t) (hi : i ∈ R.slots k) (he : R.child k e' = none)
    (hf : freed ⊆ R.below s.mem k (s.mem t i)) :
    R.Edit s ⟨setEntry s.mem t i e', s.held \ freed⟩ k t
      (R.below s.mem k (s.mem t i) \ freed) := by
  have hbelow : R.below (setEntry s.mem t i e') k (setEntry s.mem t i e' t i) = ∅ := by
    rw [setEntry_self, below_of_none he]
  refine Edit.of_slot ho hi (fun j hj => setEntry_of_slot_ne hj) ?_ ?_ ?_ ?_ ?_ fun p hp _ => hp.1
  · cases k with
    | zero => trivial
    | succ k =>
      intro c hc
      dsimp only at hc
      rw [setEntry_self, he] at hc
      cases hc
  · rw [hbelow]
    exact Set.notMem_empty t
  · refine fun p hp => setEntry_of_ne fun hpt => hp.2 (Or.inl hpt)
  · rw [hbelow]
    exact Set.empty_subset _
  · rw [hbelow]
    ext p
    constructor
    · rintro ⟨⟨hheld, hpf⟩, -⟩
      by_cases hp : p ∈ R.below s.mem k (s.mem t i)
      · exact Or.inr ⟨hp, hpf⟩
      · exact Or.inl ⟨hheld, hp⟩
    · rintro (⟨hheld, hp⟩ | ⟨hp, hpf⟩)
      · exact ⟨⟨hheld, fun h => hp (hf h)⟩, Set.notMem_empty p⟩
      · exact ⟨⟨ho.below_sub hi hp, hpf⟩, Set.notMem_empty p⟩

theorem find_of_write_eq (he : R.child k e' = none) (ha : R.idx k a = i) :
    R.find (setEntry mem t i e') k t a = (k, e') := by
  subst ha
  rw [find_of_none (by rw [setEntry_self, he]), setEntry_self]

theorem find_of_write_ne (ho : R.Owns s k t) (hw : R.Within k a) (ha : R.idx k a ≠ i) :
    R.find (setEntry s.mem t i e') k t a = R.find s.mem k t a := by
  refine find_congr_slot hw (setEntry_of_slot_ne ha) fun p hp => setEntry_of_ne ?_
  rintro rfl
  exact ho.notMem_below (hw _ le_rfl) hp

/-- Writing a slot that does not count leaves the tree owned. -/
theorem Owns.of_write_other (ho : R.Owns s k t) (hi : i ∉ R.slots k) :
    R.Owns ⟨setEntry s.mem t i e', s.held⟩ k t := by
  have hslot : ∀ j ∈ R.slots k, setEntry s.mem t i e' t j = s.mem t j := fun j hj =>
    setEntry_of_slot_ne fun h => hi (h ▸ hj)
  have heq : ∀ j ∈ R.slots k,
      Set.EqOn (setEntry s.mem t i e') s.mem (R.below s.mem k (s.mem t j)) := fun j hj p hp =>
    setEntry_of_ne fun hpt => ho.notMem_below hj (hpt ▸ hp)
  obtain ⟨hsub, hdisj⟩ := tree_iff.mp ho.tree
  refine ⟨tree_iff.mpr ⟨fun j hj => ?_, fun j hj l hl hne => ?_⟩, fun p hp => ?_⟩
  · dsimp only
    rw [hslot j hj, below_congr (heq j hj)]
    exact ⟨(hsub j hj).1, entryTree_congr (heq j hj) (hsub j hj).2⟩
  · dsimp only
    rw [hslot j hj, hslot l hl, below_congr (heq j hj), below_congr (heq l hl)]
    exact hdisj j hj l hl hne
  · rcases mem_tables.mp hp with rfl | ⟨j, hj, hp⟩
    · exact ho.mem_held
    · dsimp only at hp
      rw [hslot j hj, below_congr (heq j hj)] at hp
      exact ho.below_sub hj hp

/-! ### A new table is linked into a slot -/

variable {row : ι → ε}

/-- **A slot that refers to no table is made to refer to a new one.** -/
theorem Edit.of_link (ho : R.Owns s (k + 1) t) (hi : i ∈ R.slots (k + 1))
    (hnone : R.child (k + 1) (s.mem t i) = none) (hfresh : c ∉ s.held)
    (he : R.child (k + 1) e' = some c) (hrow : ∀ j, R.child k (row j) = none) :
    R.Edit s ⟨setEntry (Function.update s.mem c row) t i e', insert c s.held⟩ (k + 1) t ∅ := by
  have htc : t ≠ c := fun h => hfresh (h ▸ ho.mem_held)
  have hct : setEntry (Function.update s.mem c row) t i e' c = row := by
    rw [setEntry_of_ne htc.symm, Function.update_self]
  have htables : R.tables (setEntry (Function.update s.mem c row) t i e') k c = {c} :=
    tables_of_leaf fun j _ => by rw [hct, hrow j]
  have hbelow : R.below (setEntry (Function.update s.mem c row) t i e') (k + 1)
      (setEntry (Function.update s.mem c row) t i e' t i) = {c} := by
    rw [setEntry_self, below_of_child he, htables]
  have hold : R.below s.mem (k + 1) (s.mem t i) = ∅ := below_of_none hnone
  refine Edit.of_slot ho hi ?_ ?_ ?_ ?_ ?_ ?_ fun p hp => hp.elim
  · intro j hj
    dsimp only
    rw [setEntry_of_slot_ne hj, Function.update_of_ne htc]
  · intro d hd
    dsimp only at hd ⊢
    rw [setEntry_self] at hd
    obtain rfl : c = d := Option.some.inj (he.symm.trans hd)
    refine tree_iff.mpr ⟨fun j _ => ⟨?_, ?_⟩, fun j _ l _ _ => ?_⟩
    · rw [hct, below_of_none (hrow j)]
      exact Set.notMem_empty c
    · rw [hct]
      cases k with
      | zero => trivial
      | succ k =>
        intro d hd
        rw [hrow j] at hd
        cases hd
    · rw [hct, below_of_none (hrow j)]
      exact Set.empty_disjoint _
  · rw [hbelow]
    exact htc
  · intro p hp
    have hpc : p ≠ c := fun h => hfresh (h ▸ hp.1)
    dsimp only
    rw [setEntry_of_ne fun hpt => hp.2 (Or.inl hpt), Function.update_of_ne hpc]
  · rw [hbelow]
    exact Set.singleton_subset_iff.mpr (Set.mem_insert c _)
  · rw [hbelow, hold, Set.sdiff_empty, Set.union_empty]
    ext p
    constructor
    · rintro ⟨rfl | hp, hpc⟩
      · exact (hpc rfl).elim
      · exact hp
    · exact fun hp => ⟨Or.inr hp, fun hpc => hfresh (hpc ▸ hp)⟩

theorem find_of_link_eq (ho : R.Owns s (k + 1) t) (hfresh : c ∉ s.held)
    (he : R.child (k + 1) e' = some c) (hrow : ∀ j, R.child k (row j) = none)
    (ha : R.idx (k + 1) a = i) :
    R.find (setEntry (Function.update s.mem c row) t i e') (k + 1) t a = (k, row (R.idx k a)) := by
  have htc : t ≠ c := fun h => hfresh (h ▸ ho.mem_held)
  have hct : setEntry (Function.update s.mem c row) t i e' c = row := by
    rw [setEntry_of_ne htc.symm, Function.update_self]
  subst ha
  rw [find_of_child (by rw [setEntry_self, he]), find_of_none (by rw [hct, hrow]), hct]

theorem find_of_link_ne (ho : R.Owns s (k + 1) t) (hfresh : c ∉ s.held)
    (hw : R.Within (k + 1) a) (ha : R.idx (k + 1) a ≠ i) :
    R.find (setEntry (Function.update s.mem c row) t i e') (k + 1) t a =
      R.find s.mem (k + 1) t a := by
  have htc : t ≠ c := fun h => hfresh (h ▸ ho.mem_held)
  refine find_congr_slot hw ?_ fun p hp => ?_
  · rw [setEntry_of_slot_ne ha, Function.update_of_ne htc]
  · have hpt : p ≠ t := by
      rintro rfl
      exact ho.notMem_below (hw _ le_rfl) hp
    have hpc : p ≠ c := fun h => hfresh (h ▸ ho.below_sub (hw _ le_rfl) hp)
    rw [setEntry_of_ne hpt, Function.update_of_ne hpc]

end Write

/-! ### Entries replaced by finer ones -/

/-- The entry at which the search for `a` ends was replaced, if at all, by the parts of it at lower
levels: `part` is the row of entries that replaces an entry. -/
inductive Splits (R : Shape ν ι ε α) (part : ℕ → ε → ι → ε) (a : α) : ℕ × ε → ℕ × ε → Prop
  | refl (x : ℕ × ε) : Splits R part a x x
  | step {ℓ : ℕ} {e : ε} {y : ℕ × ε}
      (h : Splits R part a (ℓ, part (ℓ + 1) e (R.idx ℓ a)) y) : Splits R part a (ℓ + 1, e) y

variable {part : ℕ → ε → ι → ε}

theorem Splits.trans {x y z : ℕ × ε} (h : R.Splits part a x y) (h' : R.Splits part a y z) :
    R.Splits part a x z := by
  induction h with
  | refl => exact h'
  | step _ ih => exact .step (ih h')

end Shape

end Radix
