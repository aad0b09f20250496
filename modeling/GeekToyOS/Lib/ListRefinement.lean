import GeekToyOS.Lib.List

/-!
# Lists refine sequences

What the macros of `include/lib/list.h` do to a heap of rings is what the operations on sequences do to
their contents. The nodes may be neighbours, or the only ones, and the list that a node moves to may be the
one it is on: none of that shows in the statement.

## Main definitions

* `ListOp` — insertion at either end, removal and move, on the heap (`run`) and on sequences (`apply`)
* `ListOp.Applicable` — what a caller has to see to
* `MutuallyInverse` — going forward and back ends where it began, both ways
* `ListOp.Refines` — what an operation does

## Main results

* `ListOp.refines_sequences` — every applicable operation refines its operation on sequences, and so does
  every sequence of them
-/

namespace GeekToyOS

variable {ν ι : Type*}

/-- A call of one of the macros, with the list that it names. -/
inductive ListOp (ι ν : Type*)
  /-- `list_add_first(node, list)` -/
  | addFirst (node : ν) (list : ι)
  /-- `list_add_last(node, list)` -/
  | addLast (node : ν) (list : ι)
  /-- `list_remove(node)` -/
  | remove (node : ν)
  /-- `list_move(node, list)` -/
  | move (node : ν) (list : ι)

/-- The node is no head, and on no list. -/
def OffLists (head : ι → ν) (l : ι → List ν) (x : ν) : Prop := ∀ i, x ∉ head i :: l i

/-- Going forward and back from the node ends there, and going back and forward too. -/
def MutuallyInverse (h : ListHeap ν) (n : ν) : Prop :=
  (h (h n).next).prev = n ∧ (h (h n).prev).next = n

namespace ListOp

/-- The node that is inserted, removed or moved. -/
def node : ListOp ι ν → ν
  | addFirst x _ | addLast x _ | remove x | move x _ => x

/-- The list that it is on afterwards. -/
def list : ListOp ι ν → Option ι
  | addFirst _ i | addLast _ i | move _ i => some i
  | remove _ => none

/-- What an inserted node has to be: linked to itself, and on no list. One that is removed or moved may
be on a list instead. -/
def Applicable (h : ListHeap ν) (head : ι → ν) (l : ι → List ν) : ListOp ι ν → Prop
  | addFirst x _ | addLast x _ => h x = ⟨x, x⟩ ∧ OffLists head l x
  | remove x | move x _ => (∃ i, x ∈ l i) ∨ h x = ⟨x, x⟩ ∧ OffLists head l x

section Operations

variable [DecidableEq ν]

/-- On the heap. -/
def run (head : ι → ν) : ListOp ι ν → ListHeap ν → ListHeap ν
  | addFirst x i, h => listAddFirst h x (head i)
  | addLast x i, h => listAddLast h x (head i)
  | remove x, h => listRemove h x
  | move x i, h => listMove h x (head i)

variable [DecidableEq ι]

/-- On sequences. -/
def apply : ListOp ι ν → (ι → List ν) → ι → List ν
  | addFirst x i, l => Function.update l i (x :: l i)
  | addLast x i, l => Function.update l i (l i ++ [x])
  | remove x, l => fun k => (l k).erase x
  | move x i, l => Function.update (fun k => (l k).erase x) i (x :: (l i).erase x)

/-- **What an operation does.** -/
structure Refines (op : ListOp ι ν) (h : ListHeap ν) (head : ι → ν) (l : ι → List ν) : Prop where
  /-- The lists of the heap are the sequences after the operation. -/
  rings : Rings (op.run head h) head (op.apply l)
  /-- On the lists, `prev` and `next` are inverse to each other. -/
  on_lists : ∀ i, ∀ n ∈ head i :: op.apply l i, MutuallyInverse (op.run head h) n
  /-- They stay so wherever they were. -/
  everywhere : ∀ n, MutuallyInverse h n → MutuallyInverse (op.run head h) n
  /-- The other sequences are the ones before. -/
  others : ∀ k, op.list ≠ some k → op.node ∉ l k → op.apply l k = l k
  /-- No other node off the lists is written. -/
  frame : ∀ m, m ≠ op.node → OffLists head l m → op.run head h m = h m
  /-- A node that is removed, and not inserted again, is linked to itself. -/
  removed : op.list = none → op.run head h op.node = ⟨op.node, op.node⟩

end Operations

end ListOp

variable {h : ListHeap ν} {head : ι → ν} {l : ι → List ν} {i : ι} {n x : ν}

/-! ### Neighbours on a ring -/

/-- The node behind a node of a ring is on the ring, too. -/
theorem IsRing.exists_next {head : ν} {l : List ν} (hr : IsRing h head l) (hn : n ∈ head :: l) :
    ∃ b ∈ head :: l, Linked h n b := by
  obtain ⟨p, r, hsplit⟩ := List.append_of_mem hn
  obtain ⟨b, q, hb⟩ := exists_append_singleton_eq r head
  have hc := hr.chain
  rw [hsplit, List.append_assoc, List.cons_append, hb] at hc
  refine ⟨b, ?_, (List.isChain_append_cons_cons.mp hc).2.1⟩
  have hmem : b ∈ r ++ [head] := hb ▸ List.mem_cons_self
  rcases List.mem_append.mp hmem with hbr | hbh
  · rw [hsplit]
    exact List.mem_append_right p (List.mem_cons_of_mem n hbr)
  · rw [List.mem_singleton.mp hbh]
    exact List.mem_cons_self

/-- So is the one before it. -/
theorem IsRing.exists_prev {head : ν} {l : List ν} (hr : IsRing h head l) (hn : n ∈ head :: l) :
    ∃ a ∈ head :: l, Linked h a n := by
  have hn' : n ∈ l ++ [head] := (List.perm_append_singleton head l).mem_iff.mpr hn
  obtain ⟨p, r, hsplit⟩ := List.append_of_mem hn'
  obtain ⟨q, a, ha⟩ := exists_eq_append_singleton head p
  have hc := hr.chain
  have hlist : head :: l ++ [head] = q ++ a :: n :: r := by
    rw [List.cons_append, hsplit, ← List.cons_append, ha, List.append_assoc, List.singleton_append]
  rw [hlist] at hc
  refine ⟨a, ?_, (List.isChain_append_cons_cons.mp hc).2.1⟩
  have hmem : a ∈ head :: p := ha ▸ List.mem_append_right q (List.mem_singleton_self a)
  rcases List.mem_cons.mp hmem with rfl | hap
  · exact List.mem_cons_self
  · have hal : a ∈ l ++ [head] := hsplit ▸ List.mem_append_left _ hap
    exact (List.perm_append_singleton head l).mem_iff.mp hal

namespace Rings

theorem mutuallyInverse (hr : Rings h head l) (hn : n ∈ head i :: l i) : MutuallyInverse h n := by
  obtain ⟨b, -, hnb⟩ := (hr.ring i).exists_next hn
  obtain ⟨a, -, han⟩ := (hr.ring i).exists_prev hn
  refine ⟨?_, ?_⟩
  · rw [hnb.1, hnb.2]
  · rw [han.2, han.1]

/-- No pointer leads from a list to a node that is not on it. -/
theorem neighbours_mem (hr : Rings h head l) (hn : n ∈ head i :: l i) :
    (h n).next ∈ head i :: l i ∧ (h n).prev ∈ head i :: l i := by
  obtain ⟨b, hb, hnb⟩ := (hr.ring i).exists_next hn
  obtain ⟨a, ha, han⟩ := (hr.ring i).exists_prev hn
  exact ⟨hnb.1 ▸ hb, han.2 ▸ ha⟩

section Remove

variable [DecidableEq ν]

theorem erase_of_offLists (hx : OffLists head l x) : (fun k => (l k).erase x) = l :=
  funext fun k => List.erase_of_not_mem fun hm => hx k (List.mem_cons_of_mem _ hm)

theorem erase_eq_update [DecidableEq ι] (hr : Rings h head l) (hx : x ∈ l i) :
    (fun k => (l k).erase x) = Function.update l i ((l i).erase x) := by
  funext k
  by_cases hk : k = i
  · subst hk
    rw [Function.update_self]
  · rw [Function.update_of_ne hk]
    exact List.erase_of_not_mem fun hm => hk (hr.eq_of_mem hm hx)

/-- **`list_remove` erases the node wherever it is**, and does nothing if it is nowhere. -/
theorem removeAny (hr : Rings h head l)
    (hx : (∃ i, x ∈ l i) ∨ h x = ⟨x, x⟩ ∧ OffLists head l x) :
    Rings (listRemove h x) head (fun k => (l k).erase x) ∧ OffLists head (fun k => (l k).erase x) x := by
  classical
  rcases hx with ⟨i, hi⟩ | ⟨hself, hoff⟩
  · rw [hr.erase_eq_update hi]
    exact ⟨hr.remove hi, hr.not_mem_of_remove hi⟩
  · rw [erase_of_offLists hoff, listRemove_of_self hself]
    exact ⟨hr, hoff⟩

theorem removeAny_frame (hr : Rings h head l)
    (hx : (∃ i, x ∈ l i) ∨ h x = ⟨x, x⟩ ∧ OffLists head l x) {m : ν} (hm : OffLists head l m) :
    listRemove h x m = h m := by
  rcases hx with ⟨i, hi⟩ | ⟨hself, -⟩
  · exact (hr.ring i).remove_frame hi (hm i)
  · rw [listRemove_of_self hself]

end Remove

end Rings

/-! ### One operation -/

namespace ListOp

/-- An applicable operation finds its node on a list or linked to itself. -/
theorem Applicable.self_linked {op : ListOp ι ν} (hop : op.Applicable h head l)
    (hoff : OffLists head l op.node) : h op.node = ⟨op.node, op.node⟩ := by
  cases op with
  | addFirst x i => exact hop.1
  | addLast x i => exact hop.1
  | remove x =>
    rcases hop with ⟨i, hi⟩ | hself
    · exact absurd (List.mem_cons_of_mem _ hi) (hoff i)
    · exact hself.1
  | move x i =>
    rcases hop with ⟨i, hi⟩ | hself
    · exact absurd (List.mem_cons_of_mem _ hi) (hoff i)
    · exact hself.1

variable [DecidableEq ν] [DecidableEq ι] {op : ListOp ι ν}

theorem run_rings (hr : Rings h head l) (hop : op.Applicable h head l) :
    Rings (op.run head h) head (op.apply l) := by
  cases op with
  | addFirst x i => exact hr.addFirst i hop.2
  | addLast x i => exact hr.addLast i hop.2
  | remove x => exact (hr.removeAny hop).1
  | move x i =>
    obtain ⟨hr', hoff⟩ := hr.removeAny hop
    exact hr'.addFirst i hoff

omit [DecidableEq ι] in
theorem run_frame (hr : Rings h head l) (hop : op.Applicable h head l) {m : ν} (hmx : m ≠ op.node)
    (hm : OffLists head l m) : op.run head h m = h m := by
  cases op with
  | addFirst x i => exact hr.addFirst_frame i hm hmx
  | addLast x i => exact (hr.ring i).addLast_frame (hm i) hmx
  | remove x => exact hr.removeAny_frame hop hm
  | move x i =>
    obtain ⟨hr', -⟩ := hr.removeAny hop
    have hm' : OffLists head (fun k => (l k).erase x) m := fun k hk =>
      hm k (List.cons_subset_cons _ List.erase_subset hk)
    exact (hr'.addFirst_frame i hm' hmx).trans (hr.removeAny_frame hop hm)

/-- An operation takes no node off a list but its own. -/
theorem mem_apply {m : ν} (hmx : m ≠ op.node) (hm : m ∈ l i) : m ∈ op.apply l i := by
  cases op with
  | addFirst x j =>
    by_cases hij : i = j
    · subst hij
      rw [apply, Function.update_self]
      exact List.mem_cons_of_mem x hm
    · rwa [apply, Function.update_of_ne hij]
  | addLast x j =>
    by_cases hij : i = j
    · subst hij
      rw [apply, Function.update_self]
      exact List.mem_append_left _ hm
    · rwa [apply, Function.update_of_ne hij]
  | remove x => exact (List.mem_erase_of_ne hmx).mpr hm
  | move x j =>
    have hkept : m ∈ (l i).erase x := (List.mem_erase_of_ne hmx).mpr hm
    by_cases hij : i = j
    · subst hij
      rw [apply, Function.update_self]
      exact List.mem_cons_of_mem x hkept
    · rwa [apply, Function.update_of_ne hij]

theorem apply_of_ne {k : ι} (hlist : op.list ≠ some k) (hk : op.node ∉ l k) : op.apply l k = l k := by
  cases op with
  | addFirst x i => exact Function.update_of_ne (fun h => hlist (congrArg some h.symm)) _ _
  | addLast x i => exact Function.update_of_ne (fun h => hlist (congrArg some h.symm)) _ _
  | remove x => exact List.erase_of_not_mem hk
  | move x i =>
    rw [apply, Function.update_of_ne fun h => hlist (congrArg some h.symm)]
    exact List.erase_of_not_mem hk

omit [DecidableEq ι] in
theorem run_removed (hlist : op.list = none) : op.run head h op.node = ⟨op.node, op.node⟩ := by
  cases op with
  | addFirst x i => cases hlist
  | addLast x i => cases hlist
  | remove x => exact listRemove_self h x
  | move x i => cases hlist

/-- The node that an operation inserts is on the list that it names. -/
theorem node_mem_apply (hlist : op.list = some i) : op.node ∈ op.apply l i := by
  cases op with
  | addFirst x j =>
    obtain rfl := Option.some.inj hlist
    rw [apply, Function.update_self]
    exact List.mem_cons_self
  | addLast x j =>
    obtain rfl := Option.some.inj hlist
    rw [apply, Function.update_self]
    exact List.mem_append_right _ (List.mem_singleton_self x)
  | remove x => cases hlist
  | move x j =>
    obtain rfl := Option.some.inj hlist
    rw [apply, Function.update_self]
    exact List.mem_cons_self

omit [DecidableEq ι] in
/-- Off the lists nothing that leads to a node is written, and nothing that it leads to. -/
theorem run_mutuallyInverse_off (hr : Rings h head l) (hop : op.Applicable h head l) (hnx : n ≠ op.node)
    (hoff : OffLists head l n) (hn : MutuallyInverse h n) : MutuallyInverse (op.run head h) n := by
  have hkept : ∀ m, (h m).prev = n ∨ (h m).next = n → op.run head h m = h m := by
    intro m hm
    have hmoff : OffLists head l m := by
      intro i hmi
      obtain ⟨hnext, hprev⟩ := hr.neighbours_mem hmi
      rcases hm with rfl | rfl
      · exact hoff i hprev
      · exact hoff i hnext
    refine run_frame hr hop ?_ hmoff
    rintro rfl
    rw [hop.self_linked hmoff] at hm
    exact hnx (hm.elim Eq.symm Eq.symm)
  have hself := run_frame hr hop hnx hoff
  refine ⟨?_, ?_⟩
  · rw [hself, hkept _ (Or.inl hn.1)]
    exact hn.1
  · rw [hself, hkept _ (Or.inr hn.2)]
    exact hn.2

theorem run_mutuallyInverse (hr : Rings h head l) (hop : op.Applicable h head l)
    (hn : MutuallyInverse h n) : MutuallyInverse (op.run head h) n := by
  have hr' := run_rings hr hop
  by_cases hnx : n = op.node
  · subst hnx
    cases hlist : op.list with
    | none =>
      have hself : op.run head h op.node = ⟨op.node, op.node⟩ := run_removed hlist
      rw [MutuallyInverse, hself]
      dsimp only
      rw [hself]
      exact ⟨rfl, rfl⟩
    | some i => exact hr'.mutuallyInverse (List.mem_cons_of_mem _ (node_mem_apply hlist))
  · by_cases hoff : OffLists head l n
    · exact run_mutuallyInverse_off hr hop hnx hoff hn
    · rw [OffLists, not_forall] at hoff
      obtain ⟨i, hi⟩ := hoff
      rw [not_not] at hi
      refine hr'.mutuallyInverse (i := i) ?_
      rcases List.mem_cons.mp hi with rfl | hi
      · exact List.mem_cons_self
      · exact List.mem_cons_of_mem _ (mem_apply hnx hi)

/-- An operation does to the sequences what it should, whether its node is on one of the lists or on none.
-/
theorem Applicable.refines (hr : Rings h head l) (hop : op.Applicable h head l) : op.Refines h head l where
  rings := run_rings hr hop
  on_lists _ _ hn := (run_rings hr hop).mutuallyInverse hn
  everywhere _ hn := run_mutuallyInverse hr hop hn
  others _ hlist hk := apply_of_ne hlist hk
  frame _ hmx hm := run_frame hr hop hmx hm
  removed hlist := run_removed hlist

end ListOp

/-! ### Sequences of operations -/

/-- Lists, and the other nodes linked to themselves. -/
structure ListState (h : ListHeap ν) (head : ι → ν) (l : ι → List ν) : Prop extends Rings h head l where
  self_linked : ∀ n, OffLists head l n → h n = ⟨n, n⟩

namespace ListOp

/-- What the sequences have to say about an operation. -/
def Enabled (head : ι → ν) (l : ι → List ν) : ListOp ι ν → Prop
  | addFirst x _ | addLast x _ => OffLists head l x
  | remove x | move x _ => (∃ i, x ∈ l i) ∨ OffLists head l x

variable [DecidableEq ν] [DecidableEq ι]

/-- Each operation is enabled where it is applied. -/
def EnabledAll (head : ι → ν) : List (ListOp ι ν) → (ι → List ν) → Prop
  | [], _ => True
  | op :: ops, l => op.Enabled head l ∧ EnabledAll head ops (op.apply l)

/-- One after another, on the heap. -/
def runAll (head : ι → ν) (ops : List (ListOp ι ν)) (h : ListHeap ν) : ListHeap ν :=
  ops.foldl (fun h op => op.run head h) h

/-- One after another, on sequences. -/
def applyAll (ops : List (ListOp ι ν)) (l : ι → List ν) : ι → List ν :=
  ops.foldl (fun l op => op.apply l) l

end ListOp

namespace ListState

theorem applicable {op : ListOp ι ν} (hs : ListState h head l) (hop : op.Enabled head l) :
    op.Applicable h head l := by
  cases op with
  | addFirst x i => exact ⟨hs.self_linked x hop, hop⟩
  | addLast x i => exact ⟨hs.self_linked x hop, hop⟩
  | remove x => exact hop.imp_right fun hoff => ⟨hs.self_linked x hoff, hoff⟩
  | move x i => exact hop.imp_right fun hoff => ⟨hs.self_linked x hoff, hoff⟩

variable [DecidableEq ν] [DecidableEq ι]

/-- **One operation keeps the state sound**, with the sequences that it makes of those before. -/
theorem run {op : ListOp ι ν} (hs : ListState h head l) (hop : op.Enabled head l) :
    ListState (op.run head h) head (op.apply l) := by
  have happ := hs.applicable hop
  refine ⟨ListOp.run_rings hs.toRings happ, fun n hn => ?_⟩
  by_cases hnx : n = op.node
  · subst hnx
    refine ListOp.run_removed ?_
    cases hlist : op.list with
    | none => rfl
    | some i => exact absurd (List.mem_cons_of_mem _ (ListOp.node_mem_apply hlist)) (hn i)
  · have hoff : OffLists head l n := by
      intro i hi
      rcases List.mem_cons.mp hi with rfl | hi
      · exact hn i List.mem_cons_self
      · exact hn i (List.mem_cons_of_mem _ (ListOp.mem_apply hnx hi))
    rw [ListOp.run_frame hs.toRings happ hnx hoff]
    exact hs.self_linked n hoff

/-- **Any sequence of operations** that the sequences allow. -/
theorem runAll {ops : List (ListOp ι ν)} (hs : ListState h head l)
    (hops : ListOp.EnabledAll head ops l) :
    ListState (ListOp.runAll head ops h) head (ListOp.applyAll ops l) := by
  induction ops generalizing h l with
  | nil => exact hs
  | cons op ops ih => exact ih (hs.run hops.1) hops.2

end ListState

namespace ListOp

variable [DecidableEq ν] [DecidableEq ι]

/-- **Every applicable operation refines its operation on sequences.** If the nodes off the lists are linked
to themselves, so does every sequence of operations, and which of them can be called depends on the sequences
alone. -/
theorem refines_sequences (hr : Rings h head l) :
    (∀ op : ListOp ι ν, op.Applicable h head l → op.Refines h head l) ∧
      ∀ ops : List (ListOp ι ν), (∀ n, OffLists head l n → h n = ⟨n, n⟩) → EnabledAll head ops l →
        ListState (runAll head ops h) head (applyAll ops l) :=
  ⟨fun _ hop => hop.refines hr, fun _ hself hops => ListState.runAll ⟨hr, hself⟩ hops⟩

/-- Two heads, at the nodes 0 and 1. -/
def twoHeads (b : Bool) : ℕ := if b then 1 else 0

/-- All nodes are linked to themselves. -/
def selfLinked : ListHeap ℕ := ⟨fun n => ⟨n, n⟩⟩

theorem listState_selfLinked : ListState selfLinked twoHeads fun _ => [] where
  ring b := by cases b <;> exact ⟨by decide, by simp [Linked, selfLinked, twoHeads]⟩
  apart a b hab := by cases a <;> cases b <;> simp_all [twoHeads]
  self_linked _ _ := rfl

/-- The node 2 is the only one of a list. -/
def onlyNode : ListHeap ℕ := (addFirst 2 false).run twoHeads selfLinked

def onlyNodeLists : Bool → List ℕ := (addFirst 2 false).apply fun _ => []

/-- It is moved within its list, then to the other list and away. -/
theorem refines_sequences_onlyNode : (move 2 false).Refines onlyNode twoHeads onlyNodeLists ∧
    ListState (runAll twoHeads [move 2 false, move 2 true, remove 2] onlyNode) twoHeads
      (applyAll [move 2 false, move 2 true, remove 2] onlyNodeLists) := by
  have hoff : OffLists twoHeads (fun _ => []) 2 := by
    intro b
    cases b <;> decide
  have hs : ListState onlyNode twoHeads onlyNodeLists := listState_selfLinked.run hoff
  obtain ⟨hone, hall⟩ := refines_sequences hs.toRings
  refine ⟨hone _ (Or.inl ⟨false, by decide⟩), hall _ hs.self_linked ⟨Or.inl ⟨false, by decide⟩, ?_⟩⟩
  exact ⟨Or.inl ⟨false, by decide⟩, Or.inl ⟨true, by decide⟩, trivial⟩

end ListOp

end GeekToyOS
