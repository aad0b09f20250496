import GeekToyOS.Data.Bits
import Mathlib

/-!
# Dyadic blocks

A dyadic block of order `k` is an interval `[p, p + 2 ^ k)` whose head `p` is a multiple of `2 ^ k`.
Two such blocks are nested or disjoint, and the block of order `k + 1` around a block of order `k`
consists of that block and its *buddy*, whose head differs in bit `k` alone.

## The canonical decomposition

A set of numbers has at most one decomposition into disjoint dyadic blocks of order at most `K` in
which no two buddies below order `K` are both present: its members are exactly the blocks that lie in
the set and whose parent does not. `Canonical.eq_maximal` is that statement, and it is what makes the
outcome of any merging discipline independent of the order in which the pieces arrive.

## Main definitions

* `block k p`, `buddy k p`, `parent k p`
* `maximal K U` — the blocks of order at most `K` that lie in `U` and cannot grow inside it
* `Apart F` — disjoint blocks
* `halves j k p` — the upper halves that are cut off a block of order `k` down to order `j`
* `Packing K F` — disjoint blocks of order at most `K`, no two of them buddies below the top order
* `Canonical K U F` — a packing that covers exactly `U`
* `Greedy K U k q` — the largest block at `q` that lies in `U`

## Main results

* `block_subset_of_mem` — blocks that meet are nested
* `block_parent` — a parent is its two halves
* `Packing.erase`, `Packing.insert` — the two moves an allocator makes
* `Canonical.eq_maximal` — the decomposition is unique
* `NotInside.mem_maximal`, `NotInside.next` — taking the largest block each time, from the left, finds it
-/

namespace Dyadic

variable {k j p q : ℕ}

/-- The numbers of the block of order `k` at head `p`. -/
def block (k p : ℕ) : Set ℕ := Set.Ico p (p + 2 ^ k)

theorem mem_block {x : ℕ} : x ∈ block k p ↔ p ≤ x ∧ x < p + 2 ^ k := Iff.rfl

theorem head_mem_block (k p : ℕ) : p ∈ block k p :=
  ⟨le_refl p, Nat.lt_add_of_pos_right (Nat.two_pow_pos k)⟩

@[simp] theorem block_zero (p : ℕ) : block 0 p = {p} := by
  ext x
  simp only [mem_block, pow_zero, Set.mem_singleton_iff]
  omega

/-- An aligned block is a fibre of division by its size. -/
theorem mem_block_iff_div (hp : 2 ^ k ∣ p) {x : ℕ} : x ∈ block k p ↔ x / 2 ^ k = p / 2 ^ k := by
  obtain ⟨c, rfl⟩ := hp
  have hpos : 0 < 2 ^ k := Nat.two_pow_pos k
  rw [Nat.mul_div_cancel_left _ hpos, Nat.div_eq_iff hpos, mem_block, Nat.mul_comm (2 ^ k) c]
  omega

/-- The head of the block of order `k` around `x`. -/
def head (k x : ℕ) : ℕ := x / 2 ^ k * 2 ^ k

theorem aligned_head (k x : ℕ) : 2 ^ k ∣ head k x := Nat.dvd_mul_left _ _

theorem mem_block_head (k x : ℕ) : x ∈ block k (head k x) := by
  rw [mem_block_iff_div (aligned_head k x), head, Nat.mul_div_cancel _ (Nat.two_pow_pos k)]

theorem head_of_aligned (hp : 2 ^ k ∣ p) : head k p = p := Nat.div_mul_cancel hp

theorem head_le (k x : ℕ) : head k x ≤ x := Nat.div_mul_le_self x _

/-- Aligned blocks of one order that meet are equal. -/
theorem head_eq_of_mem (hp : 2 ^ k ∣ p) (hq : 2 ^ k ∣ q) {x : ℕ} (hxp : x ∈ block k p)
    (hxq : x ∈ block k q) : p = q := by
  rw [mem_block_iff_div hp] at hxp
  rw [mem_block_iff_div hq] at hxq
  rw [← Nat.div_mul_cancel hp, ← Nat.div_mul_cancel hq, ← hxp, hxq]

/-- **Dyadic blocks that meet are nested**: the block of the smaller order lies in the other one. -/
theorem block_subset_of_mem (hkj : k ≤ j) (hp : 2 ^ k ∣ p) (hq : 2 ^ j ∣ q) {x : ℕ}
    (hxp : x ∈ block k p) (hxq : x ∈ block j q) : block k p ⊆ block j q := by
  intro y hy
  rw [mem_block_iff_div hp] at hxp hy
  rw [mem_block_iff_div hq] at hxq ⊢
  have hpow : (2 : ℕ) ^ j = 2 ^ k * 2 ^ (j - k) := by rw [← pow_add, Nat.add_sub_cancel' hkj]
  rw [← hxq, hpow, ← Nat.div_div_eq_div_mul, ← Nat.div_div_eq_div_mul, hxp, hy]

/-- A head aligned to `2 ^ j` can only be the head of a block of order at most `j` holding it. -/
theorem head_eq_of_aligned_mem (hkj : k ≤ j) (hp : 2 ^ k ∣ p) (hq : 2 ^ j ∣ q)
    (h : q ∈ block k p) : p = q :=
  head_eq_of_mem hp (dvd_trans (pow_dvd_pow 2 hkj) hq) h (head_mem_block k q)

/-- Growing a block in two steps or in one leads to the same head. -/
theorem head_head (hkj : k ≤ j) (x : ℕ) : head j (head k x) = head j x :=
  head_eq_of_mem (aligned_head j _) (aligned_head j x) (mem_block_head j (head k x))
    (block_subset_of_mem hkj (aligned_head k x) (aligned_head j x) (mem_block_head k x)
      (mem_block_head j x) (head_mem_block k _))

/-! ### Buddies -/

/-- The head of the other half of the parent. -/
def buddy (k p : ℕ) : ℕ := p ^^^ 2 ^ k

/-- The head of the block of order `k + 1` around the block of order `k` at `p`. -/
def parent (k p : ℕ) : ℕ := head (k + 1) p

theorem buddy_buddy (k p : ℕ) : buddy k (buddy k p) = p := by
  rw [buddy, buddy, Nat.xor_assoc, Nat.xor_self, Nat.xor_zero]

theorem aligned_parent (k p : ℕ) : 2 ^ (k + 1) ∣ parent k p := aligned_head _ _

theorem parent_le (k p : ℕ) : parent k p ≤ p := head_le _ _

/-- A block that is a lower half: its buddy follows it, and its parent begins with it. -/
theorem buddy_parent_of_lower (hp : 2 ^ k ∣ p) (h : p / 2 ^ k % 2 = 0) :
    buddy k p = p + 2 ^ k ∧ parent k p = p := by
  obtain ⟨c, rfl⟩ := hp
  rw [Nat.mul_div_cancel_left _ (Nat.two_pow_pos k)] at h
  refine ⟨?_, ?_⟩
  · rw [buddy, Bits.mul_xor_two_pow, Nat.xor_one_of_even (Nat.even_iff.mpr h)]
    ring
  · rw [parent, head, pow_succ, ← Nat.div_div_eq_div_mul, Nat.mul_div_cancel_left _ (Nat.two_pow_pos k)]
    obtain ⟨d, rfl⟩ := Nat.dvd_of_mod_eq_zero h
    rw [Nat.mul_div_cancel_left _ (by norm_num)]
    ring

/-- A block that is an upper half: its buddy precedes it, and its parent begins there. -/
theorem buddy_parent_of_upper (hp : 2 ^ k ∣ p) (h : p / 2 ^ k % 2 = 1) :
    buddy k p + 2 ^ k = p ∧ parent k p = buddy k p := by
  obtain ⟨c, rfl⟩ := hp
  rw [Nat.mul_div_cancel_left _ (Nat.two_pow_pos k)] at h
  obtain ⟨d, rfl⟩ : ∃ d, c = 2 * d + 1 := ⟨c / 2, by omega⟩
  have hb : buddy k (2 ^ k * (2 * d + 1)) = 2 ^ k * (2 * d) := by
    rw [buddy, Bits.mul_xor_two_pow, Bits.xor_one_of_odd h]
    rfl
  refine ⟨by rw [hb]; ring, ?_⟩
  rw [hb, parent, head, pow_succ, ← Nat.div_div_eq_div_mul,
    Nat.mul_div_cancel_left _ (Nat.two_pow_pos k),
    show (2 * d + 1) / 2 = d by omega]
  ring

theorem lower_or_upper (k p : ℕ) : p / 2 ^ k % 2 = 0 ∨ p / 2 ^ k % 2 = 1 :=
  Nat.mod_two_eq_zero_or_one _

theorem aligned_buddy (hp : 2 ^ k ∣ p) : 2 ^ k ∣ buddy k p := by
  obtain ⟨c, rfl⟩ := hp
  rw [buddy, Bits.mul_xor_two_pow]
  exact Nat.dvd_mul_right _ _

theorem buddy_ne (hp : 2 ^ k ∣ p) : buddy k p ≠ p := by
  have hpos := Nat.two_pow_pos k
  rcases lower_or_upper k p with h | h
  · have := (buddy_parent_of_lower hp h).1
    omega
  · have := (buddy_parent_of_upper hp h).1
    omega

/-- Masking a head with its buddy finds the parent. -/
theorem buddy_and (hp : 2 ^ k ∣ p) : buddy k p &&& p = parent k p := by
  obtain ⟨c, rfl⟩ := hp
  rw [buddy, Bits.mul_xor_two_pow, Bits.mul_and_mul, Bits.and_xor_one, parent, head, pow_succ,
    ← Nat.div_div_eq_div_mul, Nat.mul_div_cancel_left _ (Nat.two_pow_pos k)]
  ring

/-- **A parent is its two halves**, a block and its buddy. -/
theorem block_parent (hp : 2 ^ k ∣ p) :
    block (k + 1) (parent k p) = block k p ∪ block k (buddy k p) := by
  ext x
  simp only [Set.mem_union, mem_block, pow_succ]
  rcases lower_or_upper k p with h | h
  · obtain ⟨hb, hpar⟩ := buddy_parent_of_lower hp h
    rw [hb, hpar]
    omega
  · obtain ⟨hb, hpar⟩ := buddy_parent_of_upper hp h
    rw [hpar]
    omega

theorem disjoint_buddy (hp : 2 ^ k ∣ p) : Disjoint (block k p) (block k (buddy k p)) :=
  Set.disjoint_left.mpr fun _ hx hx' =>
    buddy_ne hp (head_eq_of_mem (aligned_buddy hp) hp hx' hx)

theorem block_subset_parent (hp : 2 ^ k ∣ p) : block k p ⊆ block (k + 1) (parent k p) := by
  rw [block_parent hp]
  exact Set.subset_union_left

/-! ### The canonical decomposition -/

/-- The blocks of order at most `K` inside `U` whose parent is not. -/
def maximal (K : ℕ) (U : Set ℕ) : Set (ℕ × ℕ) :=
  {b | b.1 ≤ K ∧ 2 ^ b.1 ∣ b.2 ∧ block b.1 b.2 ⊆ U ∧
    (b.1 < K → ¬ block (b.1 + 1) (parent b.1 b.2) ⊆ U)}

/-- The numbers that the blocks of `F` cover. -/
def cover (F : Set (ℕ × ℕ)) : Set ℕ := {x | ∃ b ∈ F, x ∈ block b.1 b.2}

/-- `F` is a set of disjoint dyadic blocks of order at most `K`, no two of which are buddies that could
still merge. -/
structure Packing (K : ℕ) (F : Set (ℕ × ℕ)) : Prop where
  /-- Orders are bounded. -/
  order_le : ∀ b ∈ F, b.1 ≤ K
  /-- Heads are aligned. -/
  aligned : ∀ b ∈ F, 2 ^ b.1 ∣ b.2
  /-- Blocks that share a number are equal. -/
  apart : ∀ b ∈ F, ∀ c ∈ F, ∀ x, x ∈ block b.1 b.2 → x ∈ block c.1 c.2 → b = c
  /-- No block below the top order has its buddy beside it. -/
  unmerged : ∀ b ∈ F, b.1 < K → (b.1, buddy b.1 b.2) ∉ F

/-- `F` decomposes `U` into disjoint blocks none of which could merge. -/
structure Canonical (K : ℕ) (U : Set ℕ) (F : Set (ℕ × ℕ)) : Prop extends Packing K F where
  /-- Together the blocks make up `U`. -/
  cover_eq : cover F = U

variable {K : ℕ} {U : Set ℕ} {F : Set (ℕ × ℕ)} {b : ℕ × ℕ}

theorem block_subset_cover (hb : b ∈ F) : block b.1 b.2 ⊆ cover F := fun _ hx => ⟨b, hb, hx⟩

theorem cover_insert (b : ℕ × ℕ) (F : Set (ℕ × ℕ)) :
    cover (insert b F) = cover F ∪ block b.1 b.2 := by
  ext x
  constructor
  · rintro ⟨c, rfl | hc, hx⟩
    · exact Or.inr hx
    · exact Or.inl ⟨c, hc, hx⟩
  · rintro (⟨c, hc, hx⟩ | hx)
    · exact ⟨c, Or.inr hc, hx⟩
    · exact ⟨b, Or.inl rfl, hx⟩

theorem cover_union (F G : Set (ℕ × ℕ)) : cover (F ∪ G) = cover F ∪ cover G := by
  ext x
  simp only [cover, Set.mem_ofPred_eq, Set.mem_union, or_and_right, exists_or]

theorem packing_empty (K : ℕ) : Packing K ∅ :=
  ⟨fun _ h => h.elim, fun _ h => h.elim, fun _ h => h.elim, fun _ h => h.elim⟩

theorem cover_empty : cover ∅ = ∅ := by
  ext x
  simp [cover]

/-- `F` is a set of disjoint dyadic blocks. -/
structure Apart (F : Set (ℕ × ℕ)) : Prop where
  /-- Heads are aligned. -/
  aligned : ∀ b ∈ F, 2 ^ b.1 ∣ b.2
  /-- Blocks that share a number are equal. -/
  apart : ∀ b ∈ F, ∀ c ∈ F, ∀ x, x ∈ block b.1 b.2 → x ∈ block c.1 c.2 → b = c

namespace Apart

theorem erase (h : Apart F) (b : ℕ × ℕ) : Apart (F \ {b}) :=
  ⟨fun c hc => h.aligned c hc.1, fun c hc d hd => h.apart c hc.1 d hd.1⟩

theorem cover_erase (h : Apart F) (hb : b ∈ F) : cover (F \ {b}) = cover F \ block b.1 b.2 := by
  ext x
  constructor
  · rintro ⟨c, ⟨hc, hne⟩, hx⟩
    exact ⟨⟨c, hc, hx⟩, fun hxb => hne (h.apart c hc b hb x hx hxb)⟩
  · rintro ⟨⟨c, hc, hx⟩, hxb⟩
    refine ⟨c, ⟨hc, fun hcb => hxb ?_⟩, hx⟩
    rwa [Set.mem_singleton_iff.mp hcb] at hx

/-- Adding a block that meets no other keeps the blocks apart. -/
theorem insert (h : Apart F) (hb : 2 ^ b.1 ∣ b.2) (hd : Disjoint (block b.1 b.2) (cover F)) :
    Apart (insert b F) := by
  have hmeet : ∀ c ∈ F, ∀ x, x ∈ block b.1 b.2 → x ∉ block c.1 c.2 := fun c hc x hx hxc =>
    Set.disjoint_left.mp hd hx ⟨c, hc, hxc⟩
  refine ⟨?_, ?_⟩
  · rintro c (rfl | hc)
    · exact hb
    · exact h.aligned c hc
  · rintro c (rfl | hc) d (rfl | hd') x hxc hxd
    · rfl
    · exact absurd hxd (hmeet d hd' x hxc)
    · exact absurd hxc (hmeet c hc x hxd)
    · exact h.apart c hc d hd' x hxc hxd

end Apart

/-- What is left of the block of order `k` at `p` when it is halved down to order `j`, each time
keeping the lower half: the upper halves. -/
def halves (j k p : ℕ) : Set (ℕ × ℕ) := {b | j ≤ b.1 ∧ b.1 < k ∧ b.2 = p + 2 ^ b.1}

@[simp] theorem halves_self (k p : ℕ) : halves k k p = ∅ := by
  ext b
  simp only [halves, Set.mem_ofPred_eq, Set.mem_empty_iff_false, iff_false]
  omega

theorem halves_succ (hjk : j ≤ k) (p : ℕ) :
    halves j (k + 1) p = insert (k, p + 2 ^ k) (halves j k p) := by
  ext b
  simp only [halves, Set.mem_ofPred_eq, Set.mem_insert_iff, Prod.ext_iff]
  constructor
  · rintro ⟨hj, hk, hb⟩
    rcases Nat.lt_succ_iff_lt_or_eq.mp hk with hlt | heq
    · exact Or.inr ⟨hj, hlt, hb⟩
    · exact Or.inl ⟨heq, heq ▸ hb⟩
  · rintro (⟨hk, hb⟩ | ⟨hj, hk, hb⟩)
    · exact ⟨by omega, by omega, hk ▸ hb⟩
    · exact ⟨hj, by omega, hb⟩

/-- **The upper halves make up what is cut off** of a block down to the order `j`. -/
theorem cover_halves (hjk : j ≤ k) (p : ℕ) : cover (halves j k p) = block k p \ block j p := by
  induction k, hjk using Nat.le_induction with
  | base =>
    rw [halves_self, cover_empty, Set.sdiff_self]
  | succ k hjk ih =>
    have hle : 2 ^ j ≤ 2 ^ k := Nat.pow_le_pow_right (by norm_num) hjk
    rw [halves_succ hjk, cover_insert, ih]
    ext x
    simp only [Set.mem_union, Set.mem_sdiff, mem_block, pow_succ]
    omega

namespace Packing

theorem toApart (h : Packing K F) : Apart F := ⟨h.aligned, h.apart⟩

/-- Taking a block out of a packing leaves a packing. -/
theorem erase (h : Packing K F) (b : ℕ × ℕ) : Packing K (F \ {b}) :=
  ⟨fun c hc => h.order_le c hc.1, fun c hc => h.aligned c hc.1,
    fun c hc d hd => h.apart c hc.1 d hd.1, fun c hc hlt hm => h.unmerged c hc.1 hlt hm.1⟩

theorem cover_erase (h : Packing K F) (hb : b ∈ F) :
    cover (F \ {b}) = cover F \ block b.1 b.2 := h.toApart.cover_erase hb

/-- Adding a block that meets no other and whose buddy is absent. -/
theorem insert (h : Packing K F) (hk : b.1 ≤ K) (hb : 2 ^ b.1 ∣ b.2)
    (hd : Disjoint (block b.1 b.2) (cover F)) (hbuddy : b.1 < K → (b.1, buddy b.1 b.2) ∉ F) :
    Packing K (insert b F) := by
  have hapart := h.toApart.insert hb hd
  refine ⟨?_, hapart.aligned, hapart.apart, ?_⟩
  · rintro c (rfl | hc)
    · exact hk
    · exact h.order_le c hc
  · rintro c (rfl | hc) hlt (he | hm)
    · exact buddy_ne hb (congrArg Prod.snd he)
    · exact hbuddy hlt hm
    · -- the block `c` would be the buddy of the new one
      obtain ⟨h1, h2⟩ : c.1 = b.1 ∧ buddy c.1 c.2 = b.2 := Prod.ext_iff.mp he
      have h2 : buddy b.1 b.2 = c.2 := by rw [← h2, ← h1, buddy_buddy]
      refine hbuddy (h1 ▸ hlt) ?_
      rw [h2, ← h1]
      exact hc
    · exact h.unmerged c hc hlt hm

/-- **A covered buddy of an uncovered block heads a member.** If the head of the buddy block is covered
and some number of the block itself is not, the member around that head starts there and has order at
most `k`. -/
theorem exists_member_at (h : Packing K F) (hp : 2 ^ k ∣ p) {x : ℕ} (hx : x ∈ block k p)
    (hfree : x ∉ cover F) (hq : buddy k p ∈ cover F) : ∃ j ≤ k, (j, buddy k p) ∈ F := by
  obtain ⟨⟨j, r⟩, hb, hmem⟩ := hq
  have hr : 2 ^ j ∣ r := h.aligned _ hb
  dsimp only at hmem
  have hjk : j ≤ k := by
    by_contra hlt
    have hpar : block (k + 1) (parent k p) ⊆ block j r := by
      refine block_subset_of_mem (by omega) (aligned_parent k p) hr ?_ hmem
      rw [block_parent hp]
      exact Or.inr (head_mem_block k _)
    exact hfree ⟨_, hb, hpar (block_subset_parent hp hx)⟩
  refine ⟨j, hjk, ?_⟩
  rw [← head_eq_of_aligned_mem hjk hr (aligned_buddy hp) hmem]
  exact hb

end Packing

/-- Every block inside `U` lies in a block of the decomposition. The induction is on the order: the
two halves lie in members by hypothesis, and members that are exactly the halves would be buddies. -/
theorem Canonical.exists_superblock (h : Canonical K U F) :
    ∀ {k p : ℕ}, k ≤ K → 2 ^ k ∣ p → block k p ⊆ U →
      ∃ b ∈ F, k ≤ b.1 ∧ block k p ⊆ block b.1 b.2 := by
  intro k
  induction k with
  | zero =>
    intro p _ _ hsub
    obtain ⟨b, hb, hpb⟩ := h.cover_eq ▸ hsub (head_mem_block 0 p)
    refine ⟨b, hb, Nat.zero_le _, ?_⟩
    rw [block_zero]
    exact Set.singleton_subset_iff.mpr hpb
  | succ k ih =>
    intro p hk hp hsub
    have hpk : 2 ^ k ∣ p := dvd_trans (pow_dvd_pow 2 (Nat.le_succ k)) hp
    have hpar : parent k p = p := head_of_aligned hp
    have hhalves := block_parent hpk
    rw [hpar] at hhalves
    have hlow : block k p ⊆ U := fun x hx => hsub (hhalves ▸ Or.inl hx)
    have hhigh : block k (buddy k p) ⊆ U := fun x hx => hsub (hhalves ▸ Or.inr hx)
    obtain ⟨b, hb, hkb, hbsub⟩ := ih (by omega) hpk hlow
    obtain ⟨c, hc, hkc, hcsub⟩ := ih (by omega) (aligned_buddy hpk) hhigh
    -- a member of order `k` around a half is that half
    have same : ∀ {d : ℕ × ℕ} {q : ℕ}, d ∈ F → k = d.1 → 2 ^ k ∣ q → q ∈ block d.1 d.2 →
        d = (k, q) := by
      rintro ⟨j, r⟩ q hd rfl hq hmem
      have hrq : r = q := head_eq_of_mem (h.aligned _ hd) hq hmem (head_mem_block k q)
      rw [hrq]
    -- a member of larger order around either half holds the whole block
    have grow : ∀ {d : ℕ × ℕ} {x : ℕ}, d ∈ F → k < d.1 → x ∈ block d.1 d.2 → x ∈ block (k + 1) p →
        ∃ b ∈ F, k + 1 ≤ b.1 ∧ block (k + 1) p ⊆ block b.1 b.2 := fun {d x} hd hlt hxd hxp =>
      ⟨d, hd, hlt, block_subset_of_mem hlt hp (h.aligned d hd) hxp hxd⟩
    rcases Nat.eq_or_lt_of_le hkb with hbk | hbk
    · rcases Nat.eq_or_lt_of_le hkc with hck | hck
      · have hbp := same hb hbk hpk (hbsub (head_mem_block k p))
        have hcp := same hc hck (aligned_buddy hpk) (hcsub (head_mem_block k _))
        rw [hbp] at hb
        rw [hcp] at hc
        exact absurd hc (h.unmerged _ hb (by omega))
      · exact grow hc hck (hcsub (head_mem_block k _)) (hhalves ▸ Or.inr (head_mem_block k _))
    · exact grow hb hbk (hbsub (head_mem_block k p)) (hhalves ▸ Or.inl (head_mem_block k p))

/-- **The decomposition is unique**: its members are the blocks of `U` that cannot grow. -/
theorem Canonical.eq_maximal (h : Canonical K U F) : F = maximal K U := by
  ext ⟨k, p⟩
  constructor
  · intro hb
    have hp : 2 ^ k ∣ p := h.aligned _ hb
    refine ⟨h.order_le _ hb, hp, h.cover_eq ▸ block_subset_cover hb, fun hlt hsub => ?_⟩
    obtain ⟨c, hc, hkc, hcsub⟩ := h.exists_superblock hlt (aligned_parent k p) hsub
    have hbc : (k, p) = c :=
      h.apart _ hb _ hc p (head_mem_block k p) (hcsub (block_subset_parent hp (head_mem_block k p)))
    have : c.1 = k := by rw [← hbc]
    omega
  · rintro ⟨hk, hp, hsub, hmax⟩
    obtain ⟨c, hc, hkc, hcsub⟩ := h.exists_superblock hk hp hsub
    have hcal := h.aligned c hc
    dsimp only at hk hp hsub hmax hkc hcsub
    rcases Nat.eq_or_lt_of_le hkc with hkc' | hlt
    · obtain ⟨j, r⟩ := c
      obtain rfl : k = j := hkc'
      have hrp : r = p := head_eq_of_mem hcal hp (hcsub (head_mem_block k p)) (head_mem_block k p)
      rwa [← hrp]
    · -- a strictly larger member would contain the parent, which does not lie in `U`
      have hpar : block (k + 1) (parent k p) ⊆ block c.1 c.2 :=
        block_subset_of_mem hlt (aligned_parent k p) hcal
          (block_subset_parent hp (head_mem_block k p)) (hcsub (head_mem_block k p))
      have hKc := h.order_le c hc
      exact absurd (hpar.trans (h.cover_eq ▸ block_subset_cover hc)) (hmax (by omega))

/-! ### Decomposing a set from the left -/

/-- No block of order at most `K` inside `U` has `q` in it, but as its head. -/
def NotInside (K : ℕ) (U : Set ℕ) (q : ℕ) : Prop :=
  ∀ j ≤ K, ∀ y, 2 ^ j ∣ y → y < q → q < y + 2 ^ j → ¬ block j y ⊆ U

/-- The block of order `k` at `q` is the largest one there that lies in `U`. -/
structure Greedy (K : ℕ) (U : Set ℕ) (k q : ℕ) : Prop where
  order_le : k ≤ K
  aligned : 2 ^ k ∣ q
  subset : block k q ⊆ U
  largest : ∀ j ≤ K, k < j → 2 ^ j ∣ q → ¬ block j q ⊆ U

/-- No block of the set reaches over a number that is not in the set. -/
theorem notInside_of_gap {q : ℕ} (h : q = 0 ∨ q - 1 ∉ U) : NotInside K U q := by
  intro j _ y _ hyq hqy hsub
  rcases h with rfl | h
  · omega
  · exact h (hsub ⟨by omega, by omega⟩)

namespace NotInside

variable {q : ℕ}

/-- A largest block is a member of the canonical decomposition. -/
theorem mem_maximal (h : NotInside K U q) (hg : Greedy K U k q) : (k, q) ∈ maximal K U := by
  refine ⟨hg.order_le, hg.aligned, hg.subset, fun hlt hsub => ?_⟩
  dsimp only at hlt hsub
  have hpar := aligned_parent k q
  have hpos := Nat.two_pow_pos k
  rcases lower_or_upper k q with hlow | hup
  · have hq := (buddy_parent_of_lower hg.aligned hlow).2
    rw [hq] at hsub hpar
    exact hg.largest (k + 1) hlt (Nat.lt_succ_self k) hpar hsub
  · obtain ⟨hb, hq⟩ := buddy_parent_of_upper hg.aligned hup
    refine h (k + 1) hlt _ hpar ?_ ?_ hsub
    · omega
    · rw [pow_succ]
      omega

/-- Behind a largest block there is no larger one either. -/
theorem next (h : NotInside K U q) (hg : Greedy K U k q) : NotInside K U (q + 2 ^ k) := by
  intro j hj y hy hlt hlt' hsub
  have hpos := Nat.two_pow_pos k
  rcases lt_trichotomy y q with hyq | rfl | hqy
  · exact h j hj y hy hyq (by omega) hsub
  · have hkj : k < j := (Nat.pow_lt_pow_iff_right (by norm_num)).mp (show 2 ^ k < 2 ^ j by omega)
    exact hg.largest j hj hkj hy hsub
  · -- a block that starts inside the largest one ends there as well
    have hyk : y ∈ block k q := ⟨Nat.le_of_lt hqy, hlt⟩
    rcases Nat.lt_or_ge k j with hkj | hjk
    · have := head_eq_of_aligned_mem (Nat.le_of_lt hkj) hg.aligned hy hyk
      omega
    · have hin := block_subset_of_mem hjk hy hg.aligned (head_mem_block j y) hyk
      have hpos := Nat.two_pow_pos j
      have hlast : y + 2 ^ j - 1 ∈ block j y := ⟨by omega, by omega⟩
      have := (hin hlast).2
      omega

end NotInside

end Dyadic
