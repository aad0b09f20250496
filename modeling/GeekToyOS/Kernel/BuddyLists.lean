import GeekToyOS.Data.Dyadic
import GeekToyOS.Kernel.Buddy

/-!
# The free lists of the buddy allocator

What the list operations of `buddy.c` do to the facts about the lists that survive every step, right
or wrong: the heap of nodes holds one ring per order, a page on list `k` is flagged with order `k`,
and a flagged page that is on no list is linked to itself.

The last fact is what removing a page from a list it is not on comes to: nothing happens to the
lists, and only the counter moves.

## Main definitions

* `Ringed s L` — the heap of nodes holds the lists `L k`, and pages on lists are flagged
* `Listed s L` — moreover, flagged pages on no list are linked to themselves
* `onFreeList s k p` — following the pointers of list `k` one meets page `p`

## Main results

* `Listed.del`, `Listed.del_absent`, `Listed.put` — the steps on lists
* `Listed.onFreeList_iff` — membership read off the pointers
-/

namespace GeekToyOS

open Dyadic

/-! ### Page numbers and indices -/

/-- The pages of a range. -/
def rangePages (r : ℕ × ℕ) : Set ℕ := Set.Ico r.1 (r.1 + r.2)

theorem rangePages_one (p : ℕ) : rangePages (p, 1) = {p} := by
  ext x
  simp only [rangePages, Set.mem_Ico, Set.mem_singleton_iff]
  omega

theorem pfnToPage_eq {z : Zone} (hb : z.memMap = z.pfnBase) (hz : z.pfnBase < 2 ^ 64) {pfn : ℕ}
    (hp : pfn < 2 ^ 64) : pfnToPage z pfn = pfn := by
  rw [pfnToPage, hb, wsub_self_add hp hz]

theorem pageToPfn_eq {z : Zone} (hb : z.memMap = z.pfnBase) (hz : z.pfnBase < 2 ^ 64) {i : ℕ}
    (hi : i < 2 ^ 64) : pageToPfn z i = i := by
  rw [pageToPfn, hb, wsub_self_add hi hz]

theorem findBuddyPfn_eq (pfn order : ℕ) : _findBuddyPfn pfn order = buddy order pfn := by
  rw [_findBuddyPfn, buddy, Nat.one_shiftLeft]

theorem buddy_lt {k p : ℕ} (hk : k < 64) (hp : p < 2 ^ 64) : buddy k p < 2 ^ 64 :=
  Nat.xor_lt_two_pow hp (Nat.pow_lt_pow_right (by norm_num) hk)

/-! ### Flags -/

/-- The page carries `PAGE_FLAG_BUDDY`. -/
def Page.Flagged (p : Page) : Prop := p.flag &&& pageFlagBuddy ≠ 0

instance (p : Page) : Decidable p.Flagged := inferInstanceAs (Decidable (_ ≠ _))

theorem pageIsBuddy_iff {p : Page} {k : ℕ} :
    pageIsBuddy p k = true ↔ p.Flagged ∧ p.order = k := by
  simp [pageIsBuddy, Page.Flagged]

@[simp] theorem not_flagged_zero : ¬ Page.zero.Flagged := by decide

theorem Page.Flagged.isBuddy {p : Page} (h : p.Flagged) : pageIsBuddy p p.order = true :=
  pageIsBuddy_iff.mpr ⟨h, rfl⟩

theorem and_flag_and_flag (f : BitVec 32) :
    f &&& pageFlagBuddy &&& pageFlagBuddy = f &&& pageFlagBuddy := by
  rw [BitVec.and_assoc, BitVec.and_self]

theorem or_flag_and_flag (f : BitVec 32) : (f ||| pageFlagBuddy) &&& pageFlagBuddy ≠ 0 := by
  intro h
  have hbit := congrArg (fun v : BitVec 32 => v.getLsbD 0) h
  simp [pageFlagBuddy] at hbit

/-! ### One step, field by field -/

/-- The fields of a zone that the list operations never write. -/
def Zone.scalars (z : Zone) : ℕ × ℕ × ℕ × ℕ := (z.memMap, z.pfnBase, z.nrPages, z.nrFreePages)

section Fields

variable (s : Buddy) (p k x j : ℕ)

@[simp] theorem del_nodes : (delPageFromFreeList s p k).nodes = listRemove s.nodes (.page p) := rfl

@[simp] theorem del_count : (delPageFromFreeList s p k).zone.count
    = Function.update s.zone.count k (wsub (s.zone.count k) 1) := rfl

@[simp] theorem del_scalars : (delPageFromFreeList s p k).zone.scalars = s.zone.scalars := rfl

/-- **Removal leaves the evidence behind**: no page changes its answer to `page_is_buddy`. -/
@[simp] theorem del_pageIsBuddy :
    pageIsBuddy ((delPageFromFreeList s p k).memPages x) j = pageIsBuddy (s.memPages x) j := by
  by_cases hx : x = p
  · subst hx
    simp [delPageFromFreeList, Buddy.setPage, Buddy.setCount, pageIsBuddy, and_flag_and_flag]
  · simp [delPageFromFreeList, Buddy.setPage, Buddy.setCount, hx]

/-- A page put on list `k`: flagged with the order, then linked in and counted. -/
def putPage : Buddy := addPageToFreeList (setBuddyOrder s p k) p k

theorem setBuddyOrder_add : setBuddyOrder (addPageToFreeList s p k) p k = putPage s p k := rfl

@[simp] theorem put_nodes : (putPage s p k).nodes
    = listAddLast (listInit s.nodes (.page p)) (.page p) (.freeArea k) := rfl

@[simp] theorem put_count : (putPage s p k).zone.count
    = Function.update s.zone.count k (wadd (s.zone.count k) 1) := rfl

@[simp] theorem put_scalars : (putPage s p k).zone.scalars = s.zone.scalars := rfl

theorem put_memPages_of_ne (hx : x ≠ p) : (putPage s p k).memPages x = s.memPages x := by
  simp [putPage, addPageToFreeList, setBuddyOrder, Buddy.setPage, Buddy.setCount, hx]

@[simp] theorem put_flagged_self : ((putPage s p k).memPages p).Flagged := by
  simpa [putPage, addPageToFreeList, setBuddyOrder, Buddy.setPage, Buddy.setCount, Page.Flagged]
    using or_flag_and_flag (s.memPages p).flag

@[simp] theorem put_order_self : ((putPage s p k).memPages p).order = k := by
  simp [putPage, addPageToFreeList, setBuddyOrder, Buddy.setPage, Buddy.setCount]

@[simp] theorem put_pageIsBuddy_self : pageIsBuddy ((putPage s p k).memPages p) k = true :=
  pageIsBuddy_iff.mpr ⟨put_flagged_self s p k, put_order_self s p k⟩

end Fields

theorem flagged_iff_of_isBuddy {p q : Page} (h : ∀ j, pageIsBuddy p j = pageIsBuddy q j) :
    p.Flagged ↔ q.Flagged := by
  refine ⟨fun hp => ?_, fun hq => ?_⟩
  · exact (pageIsBuddy_iff.mp ((h p.order).symm.trans hp.isBuddy)).1
  · exact (pageIsBuddy_iff.mp ((h q.order).trans hq.isBuddy)).1

theorem del_flagged (s : Buddy) (p k x : ℕ) :
    ((delPageFromFreeList s p k).memPages x).Flagged ↔ (s.memPages x).Flagged :=
  flagged_iff_of_isBuddy (del_pageIsBuddy s p k x)

/-! ### The lists as sequences -/

/-- The head of list `k`. -/
def areaHead (k : Fin maxOrder) : BuddyNode := .freeArea k

/-- The nodes of list `k`. -/
def areaNodes (L : ℕ → List ℕ) (k : Fin maxOrder) : List BuddyNode := (L k).map .page

theorem areaNodes_update (L : ℕ → List ℕ) {k : ℕ} (hk : k < maxOrder) (l : List ℕ) :
    areaNodes (Function.update L k l)
      = Function.update (areaNodes L) ⟨k, hk⟩ (l.map .page) := by
  funext i
  by_cases hi : i = ⟨k, hk⟩
  · subst hi
    simp [areaNodes]
  · have hne : (i : ℕ) ≠ k := fun he => hi (Fin.ext he)
    rw [Function.update_of_ne hi, areaNodes, Function.update_of_ne hne, areaNodes]

theorem page_injective : Function.Injective BuddyNode.page := fun _ _ h => BuddyNode.page.inj h

theorem page_mem_areaNodes {L : ℕ → List ℕ} {k : Fin maxOrder} {p : ℕ} :
    BuddyNode.page p ∈ areaHead k :: areaNodes L k ↔ p ∈ L k := by
  simp [areaHead, areaNodes]

/-- The heap of nodes holds the lists `L`, and pages on lists are flagged. -/
structure Ringed (s : Buddy) (L : ℕ → List ℕ) : Prop where
  /-- Page structs are indexed by page number. -/
  base : s.zone.memMap = s.zone.pfnBase
  /-- The first page number of the zone is a `size_t`. -/
  base_lt : s.zone.pfnBase < 2 ^ 64
  /-- The heap of nodes holds a ring per order. -/
  rings : Rings s.nodes areaHead (areaNodes L)
  /-- Pages on lists are page numbers. -/
  page_lt : ∀ k < maxOrder, ∀ p ∈ L k, p < 2 ^ 64
  /-- A page on list `k` is flagged with order `k`. -/
  tagged : ∀ k < maxOrder, ∀ p ∈ L k, pageIsBuddy (s.memPages p) k = true

/-- What stays true of the lists whatever is freed. -/
structure Listed (s : Buddy) (L : ℕ → List ℕ) : Prop where
  /-- Page structs are indexed by page number. -/
  base : s.zone.memMap = s.zone.pfnBase
  /-- The first page number of the zone is a `size_t`. -/
  base_lt : s.zone.pfnBase < 2 ^ 64
  /-- The heap of nodes holds a ring per order. -/
  rings : Rings s.nodes areaHead (areaNodes L)
  /-- Pages on lists are page numbers. -/
  page_lt : ∀ k < maxOrder, ∀ p ∈ L k, p < 2 ^ 64
  /-- A page on list `k` is flagged with order `k`. -/
  tagged : ∀ k < maxOrder, ∀ p ∈ L k, pageIsBuddy (s.memPages p) k = true
  /-- A flagged page on no list is linked to itself. -/
  selfLinked : ∀ x, (s.memPages x).Flagged → (∀ k < maxOrder, x ∉ L k) →
    s.nodes (.page x) = ⟨.page x, .page x⟩

/-- Following the pointers of list `k` one meets page `p`. -/
def onFreeList (s : Buddy) (k p : ℕ) : Prop :=
  ∃ n, (fun m => (s.nodes m).next)^[n] (.freeArea k) = BuddyNode.page p

/-- The free blocks: a page on list `k` heads a block of order `k`. -/
def freeBlocks (s : Buddy) : Set (ℕ × ℕ) := {b | b.1 < maxOrder ∧ onFreeList s b.1 b.2}

/-- The blocks that the sequences `L` stand for. -/
def blocksOf (L : ℕ → List ℕ) : Set (ℕ × ℕ) := {b | b.1 < maxOrder ∧ b.2 ∈ L b.1}

variable {s : Buddy} {L : ℕ → List ℕ} {k p : ℕ}

theorem mem_put_iff {j q : ℕ} :
    q ∈ Function.update L k (L k ++ [p]) j ↔ q ∈ L j ∨ (j = k ∧ q = p) := by
  by_cases hj : j = k
  · subst hj
    simp
  · simp [hj]

theorem blocksOf_put (hk : k < maxOrder) :
    blocksOf (Function.update L k (L k ++ [p])) = insert (k, p) (blocksOf L) := by
  ext b
  simp only [blocksOf, Set.mem_ofPred_eq, Set.mem_insert_iff, Prod.ext_iff, mem_put_iff]
  constructor
  · rintro ⟨hb, h | h⟩
    · exact Or.inr ⟨hb, h⟩
    · exact Or.inl h
  · rintro (⟨rfl, rfl⟩ | ⟨hb, h⟩)
    · exact ⟨hk, Or.inr ⟨rfl, rfl⟩⟩
    · exact ⟨hb, Or.inl h⟩

theorem not_mem_node (hp : ∀ k < maxOrder, p ∉ L k) (i : Fin maxOrder) :
    BuddyNode.page p ∉ areaHead i :: areaNodes L i := fun hm =>
  hp i i.isLt (page_mem_areaNodes.mp hm)

namespace Ringed

theorem pfnToPage (h : Ringed s L) {pfn : ℕ} (hp : pfn < 2 ^ 64) :
    GeekToyOS.pfnToPage s.zone pfn = pfn := pfnToPage_eq h.base h.base_lt hp

theorem order_eq (h : Ringed s L) {j : ℕ} (hk : k < maxOrder) (hp : p ∈ L k)
    (hj : pageIsBuddy (s.memPages p) j = true) : k = j :=
  (pageIsBuddy_iff.mp (h.tagged k hk p hp)).2.symm.trans (pageIsBuddy_iff.mp hj).2

theorem onFreeList_iff (h : Ringed s L) (hk : k < maxOrder) : onFreeList s k p ↔ p ∈ L k := by
  rw [← page_mem_areaNodes (k := ⟨k, hk⟩)]
  exact ((h.rings.ring ⟨k, hk⟩).mem_iff).symm

theorem freeBlocks_eq (h : Ringed s L) : freeBlocks s = blocksOf L := by
  ext b
  exact and_congr_right fun hk => h.onFreeList_iff hk

theorem nodup (h : Ringed s L) (hk : k < maxOrder) : (L k).Nodup :=
  List.Nodup.of_map _ (List.nodup_cons.mp (h.rings.ring ⟨k, hk⟩).nodup).2

theorem mem_erase_iff (h : Ringed s L) (hk : k < maxOrder) {j q : ℕ} :
    q ∈ Function.update L k ((L k).erase p) j ↔ q ∈ L j ∧ ¬ (j = k ∧ q = p) := by
  by_cases hj : j = k
  · subst hj
    rw [Function.update_self, (h.nodup hk).mem_erase_iff]
    tauto
  · rw [Function.update_of_ne hj]
    tauto

theorem blocksOf_erase (h : Ringed s L) (hk : k < maxOrder) :
    blocksOf (Function.update L k ((L k).erase p)) = blocksOf L \ {(k, p)} := by
  ext b
  simp only [blocksOf, Set.mem_ofPred_eq, Set.mem_sdiff, Set.mem_singleton_iff, Prod.ext_iff,
    h.mem_erase_iff hk]
  tauto

/-- **Taking a page off its list** leaves the rings in order, with that page erased. -/
theorem del (h : Ringed s L) (hk : k < maxOrder) (hp : p ∈ L k) :
    Ringed (delPageFromFreeList s p k) (Function.update L k ((L k).erase p)) := by
  have hnode : BuddyNode.page p ∈ areaNodes L ⟨k, hk⟩ := List.mem_map_of_mem hp
  refine ⟨h.base, h.base_lt, ?_, fun j hj q hq => ?_, fun j hj q hq => ?_⟩
  · rw [areaNodes_update L hk, List.map_erase page_injective]
    exact h.rings.remove hnode
  · exact h.page_lt j hj q ((h.mem_erase_iff hk).mp hq).1
  · rw [del_pageIsBuddy]
    exact h.tagged j hj q ((h.mem_erase_iff hk).mp hq).1

/-- `list_front` finds the front of a list that is not empty. -/
theorem listFrontPage_eq (h : Ringed s L) (hk : k < maxOrder) {rest : List ℕ} (hL : L k = p :: rest) :
    listFrontPage s.nodes (.freeArea k) = some p := by
  have hnodes : areaNodes L ⟨k, hk⟩ = .page p :: rest.map .page := by
    rw [areaNodes, hL]
    rfl
  have hempty : listEmpty s.nodes (.freeArea k) = false := by
    rw [Bool.eq_false_iff]
    intro he
    have := (h.rings.listEmpty_iff ⟨k, hk⟩).mp he
    rw [hnodes] at this
    exact absurd this (List.cons_ne_nil _ _)
  have hnext : (s.nodes (.freeArea k)).next = .page p := h.rings.next_head hnodes
  rw [listFrontPage, hempty, hnext]
  rfl

theorem exists_cons_of_listFrontPage (h : Ringed s L) (hk : k < maxOrder)
    (hfront : listFrontPage s.nodes (.freeArea k) = some p) : ∃ rest, L k = p :: rest := by
  cases hL : L k with
  | nil =>
    have hempty : listEmpty s.nodes (.freeArea k) = true :=
      (h.rings.listEmpty_iff ⟨k, hk⟩).mpr (by rw [areaNodes, hL]; rfl)
    rw [listFrontPage, hempty] at hfront
    exact absurd hfront (by simp)
  | cons q rest =>
    rw [h.listFrontPage_eq hk hL, Option.some.injEq] at hfront
    exact ⟨rest, by rw [hfront]⟩

/-- Resetting the node of a page that is on no list leaves the rings as they are. -/
theorem rings_listInit (h : Ringed s L) (hnot : ∀ j < maxOrder, p ∉ L j) :
    Rings (listInit s.nodes (.page p)) areaHead (areaNodes L) :=
  h.rings.frame fun i _ hm => listInit_of_ne _ fun he =>
    hnot i i.isLt (page_mem_areaNodes.mp (he ▸ hm))

/-- **Putting a page on a list**, if it is on none, leaves the rings in order, with that page at the end. -/
theorem put (h : Ringed s L) (hk : k < maxOrder) (hp : p < 2 ^ 64) (hnot : ∀ j < maxOrder, p ∉ L j) :
    Ringed (putPage s p k) (Function.update L k (L k ++ [p])) := by
  refine ⟨h.base, h.base_lt, ?_, fun j hj q hq => ?_, fun j hj q hq => ?_⟩
  · rw [areaNodes_update L hk, List.map_append]
    exact (h.rings_listInit hnot).addLast ⟨k, hk⟩ (not_mem_node hnot)
  · rcases mem_put_iff.mp hq with hq | ⟨-, rfl⟩
    · exact h.page_lt j hj q hq
    · exact hp
  · rcases mem_put_iff.mp hq with hq | ⟨rfl, rfl⟩
    · rw [put_memPages_of_ne _ _ _ _ fun he : q = p => hnot j hj (he ▸ hq)]
      exact h.tagged j hj q hq
    · exact put_pageIsBuddy_self s q j

end Ringed

namespace Listed

theorem toRinged (h : Listed s L) : Ringed s L := ⟨h.base, h.base_lt, h.rings, h.page_lt, h.tagged⟩

theorem nodup (h : Listed s L) (hk : k < maxOrder) : (L k).Nodup := h.toRinged.nodup hk

theorem order_eq (h : Listed s L) {j : ℕ} (hk : k < maxOrder) (hp : p ∈ L k)
    (hj : pageIsBuddy (s.memPages p) j = true) : k = j := h.toRinged.order_eq hk hp hj

theorem pfnToPage (h : Listed s L) {pfn : ℕ} (hp : pfn < 2 ^ 64) :
    GeekToyOS.pfnToPage s.zone pfn = pfn := h.toRinged.pfnToPage hp

theorem pageToPfn (h : Listed s L) {i : ℕ} (hi : i < 2 ^ 64) :
    GeekToyOS.pageToPfn s.zone i = i := pageToPfn_eq h.base h.base_lt hi

theorem onFreeList_iff (h : Listed s L) (hk : k < maxOrder) : onFreeList s k p ↔ p ∈ L k :=
  h.toRinged.onFreeList_iff hk

theorem freeBlocks_eq (h : Listed s L) : freeBlocks s = blocksOf L := h.toRinged.freeBlocks_eq

theorem mem_erase_iff (h : Listed s L) (hk : k < maxOrder) {j q : ℕ} :
    q ∈ Function.update L k ((L k).erase p) j ↔ q ∈ L j ∧ ¬ (j = k ∧ q = p) :=
  h.toRinged.mem_erase_iff hk

theorem blocksOf_erase (h : Listed s L) (hk : k < maxOrder) :
    blocksOf (Function.update L k ((L k).erase p)) = blocksOf L \ {(k, p)} :=
  h.toRinged.blocksOf_erase hk

/-- **Removing a page that is on the list** keeps the counters in step with the lists, too. -/
theorem del (h : Listed s L) (hk : k < maxOrder) (hp : p ∈ L k) :
    Listed (delPageFromFreeList s p k) (Function.update L k ((L k).erase p)) := by
  have hnode : BuddyNode.page p ∈ areaNodes L ⟨k, hk⟩ := List.mem_map_of_mem hp
  have hdel := h.toRinged.del hk hp
  refine ⟨hdel.base, hdel.base_lt, hdel.rings, hdel.page_lt, hdel.tagged, fun x hx hnot => ?_⟩
  rw [del_nodes]
  by_cases hxp : x = p
  · rw [hxp, listRemove_self]
  · have hnot' : ∀ j < maxOrder, x ∉ L j := fun j hj hm =>
      hnot j hj ((h.mem_erase_iff hk).mpr ⟨hm, fun he => hxp he.2⟩)
    rw [(h.rings.ring ⟨k, hk⟩).remove_frame hnode (not_mem_node hnot' _)]
    exact h.selfLinked x ((del_flagged s p k x).mp hx) hnot'

/-- **Removing a flagged page that is on no list** changes no list. -/
theorem del_absent (h : Listed s L) (hflag : (s.memPages p).Flagged)
    (hp : ∀ j < maxOrder, p ∉ L j) : Listed (delPageFromFreeList s p k) L := by
  have hnodes : (delPageFromFreeList s p k).nodes = s.nodes := by
    rw [del_nodes, listRemove_of_self (h.selfLinked p hflag hp)]
  refine ⟨h.base, h.base_lt, ?_, h.page_lt, fun j hj q hq => ?_, fun x hx hnot => ?_⟩
  · rw [hnodes]
    exact h.rings
  · rw [del_pageIsBuddy]
    exact h.tagged j hj q hq
  · rw [hnodes]
    exact h.selfLinked x ((del_flagged s p k x).mp hx) hnot

/-- **Putting a page on a list** keeps the counters in step with the lists, too. -/
theorem put (h : Listed s L) (hk : k < maxOrder) (hp : p < 2 ^ 64)
    (hnot : ∀ j < maxOrder, p ∉ L j) :
    Listed (putPage s p k) (Function.update L k (L k ++ [p])) := by
  have hinit := h.toRinged.rings_listInit hnot
  have hput := h.toRinged.put hk hp hnot
  refine ⟨hput.base, hput.base_lt, hput.rings, hput.page_lt, hput.tagged, fun x hx hnot' => ?_⟩
  have hxp : x ≠ p := fun he => hnot' k hk (mem_put_iff.mpr (Or.inr ⟨rfl, he⟩))
  have hxL : ∀ j < maxOrder, x ∉ L j := fun j hj hm => hnot' j hj (mem_put_iff.mpr (Or.inl hm))
  rw [put_memPages_of_ne _ _ _ _ hxp] at hx
  have hframe := (hinit.ring ⟨k, hk⟩).addLast_frame (x := .page p) (not_mem_node hxL ⟨k, hk⟩)
    (fun he => hxp (BuddyNode.page.inj he))
  have hinit_x : listInit s.nodes (.page p) (.page x) = s.nodes (.page x) :=
    listInit_of_ne _ fun he => hxp (BuddyNode.page.inj he)
  rw [put_nodes]
  exact hframe.trans (hinit_x.trans (h.selfLinked x hx hxL))

end Listed

end GeekToyOS
