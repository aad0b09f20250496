import Mathlib.Data.List.Chain
import Mathlib.Data.List.Nodup
import Mathlib.Logic.Function.Basic

/-!
# Intrusive circular lists

`include/lib/list.h`: a list is a ring of `list_node`s embedded in larger objects and reached through
`prev` and `next` pointers; the head is a node of the ring that carries no data.

The heap of nodes is a function from node pointers to nodes, and every macro of the header is the
sequence of pointer writes it expands to. The type `ν` of node pointers is left open.

## Main definitions

* `_listInsert`, `_listRemove` and the macros over them
* `IsRing h head l` — from `head` the heap holds a well-formed ring through exactly the nodes `l`
* `Rings h head l` — a family of rings that share no node

## Main results

* `Rings.addFirst`, `Rings.addLast`, `Rings.remove`, `Rings.move` — the operations on the heap are the
  operations on sequences, and no other ring of the family notices
* `IsRing.mem_iff`, `IsRing.unique` — the sequence is read off the forward pointers
* `listRemove_of_self` — removing a node that is on no list does nothing
-/

namespace GeekToyOS

/-- `struct list_node`. -/
structure ListNode (ν : Type*) where
  prev : ν
  next : ν
deriving DecidableEq, Repr

/-- The memory that holds the nodes. -/
@[ext] structure ListHeap (ν : Type*) where
  node : ν → ListNode ν

instance {ν : Type*} : CoeFun (ListHeap ν) fun _ => ν → ListNode ν := ⟨ListHeap.node⟩

variable {ν : Type*}

section Macros

variable [DecidableEq ν]

/-- `n->prev = v`. -/
def setPrev (h : ListHeap ν) (n v : ν) : ListHeap ν :=
  ⟨Function.update h.node n { h n with prev := v }⟩

/-- `n->next = v`. -/
def setNext (h : ListHeap ν) (n v : ν) : ListHeap ν :=
  ⟨Function.update h.node n { h n with next := v }⟩

/-- `list_init`: `(node)->prev = (node)->next = (node)`. -/
def listInit (h : ListHeap ν) (node : ν) : ListHeap ν := setPrev (setNext h node node) node node

/-- `list_empty`. -/
def listEmpty (h : ListHeap ν) (head : ν) : Bool := (h head).next = head

/-- `_list_insert`. -/
def _listInsert (h : ListHeap ν) (node prev next : ν) : ListHeap ν :=
  let h := setNext h prev node
  let h := setPrev h next node
  let h := setPrev h node prev
  setNext h node next

/-- `_list_remove`. -/
def _listRemove (h : ListHeap ν) (self prev next : ν) : ListHeap ν :=
  let h := setNext h prev next
  let h := setPrev h next prev
  let h := setPrev h self self
  setNext h self self

/-- `list_add_first`. -/
def listAddFirst (h : ListHeap ν) (node list : ν) : ListHeap ν :=
  _listInsert h node list (h list).next

/-- `list_add_last`. -/
def listAddLast (h : ListHeap ν) (node list : ν) : ListHeap ν :=
  _listInsert h node (h list).prev list

/-- `list_remove`. -/
def listRemove (h : ListHeap ν) (node : ν) : ListHeap ν :=
  _listRemove h node (h node).prev (h node).next

/-- `list_move`. -/
def listMove (h : ListHeap ν) (node list : ν) : ListHeap ν :=
  listAddFirst (listRemove h node) node list

/-! ### What one write changes -/

theorem setPrev_apply (h : ListHeap ν) (n v m : ν) :
    setPrev h n v m = if m = n then { h m with prev := v } else h m := by
  by_cases hm : m = n
  · subst hm; simp [setPrev]
  · simp [setPrev, hm]

theorem setNext_apply (h : ListHeap ν) (n v m : ν) :
    setNext h n v m = if m = n then { h m with next := v } else h m := by
  by_cases hm : m = n
  · subst hm; simp [setNext]
  · simp [setNext, hm]

@[simp] theorem setPrev_next (h : ListHeap ν) (n v m : ν) : (setPrev h n v m).next = (h m).next := by
  rw [setPrev_apply]; split <;> rfl

@[simp] theorem setNext_prev (h : ListHeap ν) (n v m : ν) : (setNext h n v m).prev = (h m).prev := by
  rw [setNext_apply]; split <;> rfl

theorem setPrev_prev (h : ListHeap ν) (n v m : ν) :
    (setPrev h n v m).prev = if m = n then v else (h m).prev := by
  rw [setPrev_apply]; split <;> rfl

theorem setNext_next (h : ListHeap ν) (n v m : ν) :
    (setNext h n v m).next = if m = n then v else (h m).next := by
  rw [setNext_apply]; split <;> rfl

theorem listInsert_next (h : ListHeap ν) (node prev next m : ν) :
    (_listInsert h node prev next m).next
      = if m = node then next else if m = prev then node else (h m).next := by
  simp only [_listInsert, setNext_next, setPrev_next]

theorem listInsert_prev (h : ListHeap ν) (node prev next m : ν) :
    (_listInsert h node prev next m).prev
      = if m = node then prev else if m = next then node else (h m).prev := by
  simp only [_listInsert, setNext_prev, setPrev_prev]

theorem listRemove_next (h : ListHeap ν) (self prev next m : ν) :
    (_listRemove h self prev next m).next
      = if m = self then self else if m = prev then next else (h m).next := by
  simp only [_listRemove, setNext_next, setPrev_next]

theorem listRemove_prev (h : ListHeap ν) (self prev next m : ν) :
    (_listRemove h self prev next m).prev
      = if m = self then self else if m = next then prev else (h m).prev := by
  simp only [_listRemove, setNext_prev, setPrev_prev]

@[simp] theorem listInit_self (h : ListHeap ν) (node : ν) : listInit h node node = ⟨node, node⟩ := by
  simp [listInit, setPrev_apply, setNext_apply]

theorem listInit_of_ne (h : ListHeap ν) {node m : ν} (hm : m ≠ node) :
    listInit h node m = h m := by
  simp [listInit, setPrev_apply, setNext_apply, hm]

end Macros

/-! ### Rings -/

/-- `a` is followed by `b`, and `b` knows it. -/
def Linked (h : ListHeap ν) (a b : ν) : Prop := (h a).next = b ∧ (h b).prev = a

/-- From `head` the heap holds a well-formed ring through exactly the nodes of `l`, in order. -/
structure IsRing (h : ListHeap ν) (head : ν) (l : List ν) : Prop where
  /-- No node occurs twice. -/
  nodup : (head :: l).Nodup
  /-- Each node is linked to the following one, and the last to the head. -/
  chain : List.IsChain (Linked h) (head :: l ++ [head])

/-- Links survive as long as the forward pointers of all but the last node and the backward pointers
of all but the first do. -/
theorem isChain_congr {h h' : ListHeap ν} : ∀ {l : List ν}, List.IsChain (Linked h) l →
    (∀ a ∈ l.dropLast, (h' a).next = (h a).next) → (∀ a ∈ l.tail, (h' a).prev = (h a).prev) →
    List.IsChain (Linked h') l
  | [], _, _, _ => List.IsChain.nil
  | [_], _, _, _ => List.IsChain.singleton _
  | a :: b :: l, hc, hn, hp => by
    rw [List.isChain_cons_cons] at hc ⊢
    refine ⟨⟨?_, ?_⟩, isChain_congr hc.2 (fun c hcm => hn c ?_) (fun c hcm => hp c ?_)⟩
    · rw [hn a (by simp)]; exact hc.1.1
    · rw [hp b (by simp)]; exact hc.1.2
    · simpa using Or.inr hcm
    · exact List.mem_cons_of_mem _ hcm

/-- A ring does not notice writes to nodes outside it. -/
theorem IsRing.frame {h h' : ListHeap ν} {head : ν} {l : List ν} (hr : IsRing h head l)
    (hf : ∀ m ∈ head :: l, h' m = h m) : IsRing h' head l := by
  have hmem : ∀ m ∈ head :: l ++ [head], h' m = h m := fun m hm => hf m (by
    rcases List.mem_append.mp hm with hm | hm
    · exact hm
    · rw [List.mem_singleton.mp hm]
      exact List.mem_cons_self)
  refine ⟨hr.nodup, isChain_congr hr.chain (fun a ha => ?_) (fun a ha => ?_)⟩
  · rw [hmem a (List.dropLast_subset _ ha)]
  · rw [hmem a (List.mem_of_mem_tail ha)]

/-- A head that is linked to itself is the empty ring. -/
theorem isRing_nil_of_self {h : ListHeap ν} {head : ν} (hs : h head = ⟨head, head⟩) :
    IsRing h head [] :=
  ⟨by simp, by simp [Linked, hs]⟩

/-- The first node of a ring, or its head when it is empty. -/
theorem IsRing.next_head {h : ListHeap ν} {head b : ν} {l ys : List ν} (hr : IsRing h head l)
    (heq : l ++ [head] = b :: ys) : (h head).next = b := by
  have hc := hr.chain
  rw [List.cons_append, heq] at hc
  exact (List.isChain_cons_cons.mp hc).1.1

/-- The last node of a ring, or its head when it is empty. -/
theorem IsRing.prev_head {h : ListHeap ν} {head a : ν} {l xs : List ν} (hr : IsRing h head l)
    (heq : head :: l = xs ++ [a]) : (h head).prev = a := by
  have hc := hr.chain
  rw [heq, List.append_assoc] at hc
  exact (List.isChain_append_cons_cons.mp hc).2.1.2

/-- The neighbours of a node of a ring are the nodes before and behind it in the sequence, or the head. -/
theorem IsRing.neighbours {h : ListHeap ν} {head x a b : ν} {l₁ l₂ xs ys : List ν}
    (hr : IsRing h head (l₁ ++ x :: l₂)) (ha : head :: l₁ = xs ++ [a]) (hb : l₂ ++ [head] = b :: ys) :
    List.IsChain (Linked h) (xs ++ [a]) ∧ (h x).prev = a ∧ (h x).next = b ∧
      List.IsChain (Linked h) (b :: ys) := by
  have hc := hr.chain
  have heq : head :: (l₁ ++ x :: l₂) ++ [head] = xs ++ a :: x :: (b :: ys) :=
    calc head :: (l₁ ++ x :: l₂) ++ [head] = (head :: l₁) ++ x :: (l₂ ++ [head]) := by simp
      _ = xs ++ a :: x :: (b :: ys) := by rw [ha, hb]; simp
  rw [heq] at hc
  obtain ⟨hleft, hax, hright⟩ := List.isChain_append_cons_cons.mp hc
  obtain ⟨hxb, hright⟩ := List.isChain_cons_cons.mp hright
  exact ⟨hleft, hax.2, hxb.1, hright⟩

/-! ### Following the pointers -/

/-- Every node of a chain is reached from its first by forward pointers. -/
theorem exists_iterate_of_isChain {h : ListHeap ν} : ∀ {l : List ν} {a x : ν},
    List.IsChain (Linked h) (a :: l) → x ∈ a :: l → ∃ n, (fun m => (h m).next)^[n] a = x
  | [], a, x, _, hx => ⟨0, (List.mem_singleton.mp hx).symm⟩
  | b :: l, a, x, hc, hx => by
    obtain ⟨hab, hc⟩ := List.isChain_cons_cons.mp hc
    rcases List.mem_cons.mp hx with rfl | hx
    · exact ⟨0, rfl⟩
    · obtain ⟨n, hn⟩ := exists_iterate_of_isChain hc hx
      exact ⟨n + 1, by rw [Function.iterate_succ_apply, hab.1, hn]⟩

/-- The forward pointer of a node of a chain leads to the rest of the chain. -/
theorem next_mem_of_isChain {h : ListHeap ν} {b : ν} : ∀ {l : List ν} {a x : ν},
    List.IsChain (Linked h) (a :: l ++ [b]) → x ∈ a :: l → (h x).next ∈ l ++ [b]
  | [], a, x, hc, hx => by
    rw [List.mem_singleton.mp hx, (List.isChain_cons_cons.mp hc).1.1]
    exact List.mem_singleton_self b
  | c :: l, a, x, hc, hx => by
    obtain ⟨hac, hc⟩ := List.isChain_cons_cons.mp hc
    rcases List.mem_cons.mp hx with rfl | hx
    · rw [hac.1]
      exact List.mem_cons_self
    · exact List.mem_cons_of_mem _ (next_mem_of_isChain hc hx)

/-- **The nodes of a ring are those its pointers reach.** -/
theorem IsRing.mem_iff {h : ListHeap ν} {head x : ν} {l : List ν} (hr : IsRing h head l) :
    x ∈ head :: l ↔ ∃ n, (fun m => (h m).next)^[n] head = x := by
  constructor
  · exact exists_iterate_of_isChain hr.chain.left_of_append
  · rintro ⟨n, rfl⟩
    induction n with
    | zero => exact List.mem_cons_self
    | succ n ih =>
      rw [Function.iterate_succ_apply']
      exact (List.perm_append_singleton head l).mem_iff.mp (next_mem_of_isChain hr.chain ih)

/-- A head is the start of one sequence of nodes only. -/
theorem IsRing.unique {h : ListHeap ν} {head : ν} {l l' : List ν} (hr : IsRing h head l)
    (hr' : IsRing h head l') : l = l' := by
  have key : ∀ (l l' : List ν) (a : ν), List.IsChain (Linked h) (a :: l ++ [head]) →
      List.IsChain (Linked h) (a :: l' ++ [head]) → head ∉ l → head ∉ l' → l = l' := by
    intro l
    induction l with
    | nil =>
      intro l' a hc hc' _ hn'
      have hnext : (h a).next = head := (List.isChain_cons_cons.mp hc).1.1
      cases l' with
      | nil => rfl
      | cons b l' =>
        have hb : (h a).next = b := (List.isChain_cons_cons.mp hc').1.1
        exact absurd (by rw [← hnext, hb]; exact List.mem_cons_self) hn'
    | cons c l ih =>
      intro l' a hc hc' hn hn'
      obtain ⟨hac, hc⟩ := List.isChain_cons_cons.mp hc
      cases l' with
      | nil =>
        have hnext : (h a).next = head := (List.isChain_cons_cons.mp hc').1.1
        exact absurd (by rw [← hnext, hac.1]; exact List.mem_cons_self) hn
      | cons b l' =>
        obtain ⟨hab, hc'⟩ := List.isChain_cons_cons.mp hc'
        obtain rfl : c = b := hac.1.symm.trans hab.1
        rw [ih l' c hc hc' (fun hm => hn (List.mem_cons_of_mem _ hm))
          (fun hm => hn' (List.mem_cons_of_mem _ hm))]
  exact key l l' head hr.chain hr'.chain (List.nodup_cons.mp hr.nodup).1
    (List.nodup_cons.mp hr'.nodup).1

theorem exists_eq_append_singleton (a : ν) (l : List ν) : ∃ xs b, a :: l = xs ++ [b] :=
  ⟨(a :: l).dropLast, (a :: l).getLast (by simp), (List.dropLast_append_getLast (by simp)).symm⟩

theorem exists_append_singleton_eq (l : List ν) (a : ν) : ∃ b ys, l ++ [a] = b :: ys := by
  cases l with
  | nil => exact ⟨a, [], rfl⟩
  | cons b l => exact ⟨b, l ++ [a], rfl⟩

section Operations

variable [DecidableEq ν] {h : ListHeap ν} {head x : ν} {l : List ν}

/-- **Insertion at the back** puts the node at the end of the sequence. -/
theorem IsRing.addLast (hr : IsRing h head l) (hx : x ∉ head :: l) :
    IsRing (listAddLast h x head) head (l ++ [x]) := by
  obtain ⟨xs, a, ha⟩ := exists_eq_append_singleton head l
  have hprev : (h head).prev = a := hr.prev_head ha
  have hnd : (xs ++ [a]).Nodup := ha ▸ hr.nodup
  have hxa : x ∉ xs ++ [a] := ha ▸ hx
  have hhx : head ≠ x := fun he => hx (he ▸ List.mem_cons_self)
  have hax : a ≠ x := fun he => hxa (by simp [he])
  have hchain : List.IsChain (Linked h) (xs ++ [a]) := by
    have hc := hr.chain
    rw [ha] at hc
    exact hc.left_of_append
  refine ⟨?_, ?_⟩
  · rw [← List.cons_append, List.nodup_append]
    exact ⟨hr.nodup, by simp, fun m hm y hy => by
      rw [List.mem_singleton.mp hy]
      exact fun he => hx (he ▸ hm)⟩
  · rw [show head :: (l ++ [x]) ++ [head] = xs ++ a :: x :: [head] by
      rw [← List.cons_append, ha]; simp]
    refine List.isChain_append_cons_cons.mpr ⟨?_, ⟨?_, ?_⟩, ?_⟩
    · refine isChain_congr hchain (fun m hm => ?_) (fun m hm => ?_)
      · have hm' : m ∈ xs := by simpa using hm
        have hma : m ≠ a := fun he => (List.nodup_append.mp hnd).2.2 m hm' a (by simp) he
        have hmx : m ≠ x := fun he => hxa (by simp [← he, hm'])
        rw [listAddLast, listInsert_next, if_neg hmx, hprev, if_neg hma]
      · have hm' : m ∈ l := by rw [← ha] at hm; simpa using hm
        have hmh : m ≠ head := fun he => (List.nodup_cons.mp hr.nodup).1 (he ▸ hm')
        have hmx : m ≠ x := fun he => hx (by simp [← he, hm'])
        rw [listAddLast, listInsert_prev, if_neg hmx, if_neg hmh]
    · rw [listAddLast, listInsert_next, if_neg hax, hprev, if_pos rfl]
    · rw [listAddLast, listInsert_prev, if_pos rfl, hprev]
    · refine List.isChain_cons_cons.mpr ⟨⟨?_, ?_⟩, List.IsChain.singleton _⟩
      · rw [listAddLast, listInsert_next, if_pos rfl]
      · rw [listAddLast, listInsert_prev, if_neg hhx, if_pos rfl]

/-- **Insertion at the front** puts the node at the start of the sequence. -/
theorem IsRing.addFirst (hr : IsRing h head l) (hx : x ∉ head :: l) :
    IsRing (listAddFirst h x head) head (x :: l) := by
  obtain ⟨b, ys, hb⟩ := exists_append_singleton_eq l head
  have hnext : (h head).next = b := hr.next_head hb
  have hnd : (b :: ys).Nodup := by
    rw [← hb]
    exact (List.perm_append_singleton head l).nodup_iff.mpr hr.nodup
  have hxb : x ∉ b :: ys := by
    rw [← hb]
    exact fun hm => hx ((List.perm_append_singleton head l).mem_iff.mp hm)
  have hhx : head ≠ x := fun he => hx (he ▸ List.mem_cons_self)
  have hbx : b ≠ x := fun he => hxb (he ▸ List.mem_cons_self)
  have hchain : List.IsChain (Linked h) (b :: ys) := by
    have hc := hr.chain
    rw [List.cons_append, hb] at hc
    exact (List.isChain_cons_cons.mp hc).2
  refine ⟨?_, ?_⟩
  · rw [(List.Perm.swap x head l).nodup_iff, List.nodup_cons]
    exact ⟨hx, hr.nodup⟩
  · rw [show head :: (x :: l) ++ [head] = head :: x :: (l ++ [head]) from rfl, hb]
    refine List.isChain_cons_cons.mpr ⟨⟨?_, ?_⟩, List.isChain_cons_cons.mpr ⟨⟨?_, ?_⟩, ?_⟩⟩
    · rw [listAddFirst, listInsert_next, if_neg hhx, if_pos rfl]
    · rw [listAddFirst, listInsert_prev, if_pos rfl]
    · rw [listAddFirst, listInsert_next, if_pos rfl, hnext]
    · rw [listAddFirst, listInsert_prev, if_neg hbx, hnext, if_pos rfl]
    · refine isChain_congr hchain (fun m hm => ?_) (fun m hm => ?_)
      · have hm' : m ∈ l := by rw [← hb] at hm; simpa using hm
        have hmh : m ≠ head := fun he => (List.nodup_cons.mp hr.nodup).1 (he ▸ hm')
        have hmx : m ≠ x := fun he => hx (by simp [← he, hm'])
        rw [listAddFirst, listInsert_next, if_neg hmx, if_neg hmh]
      · have hm' : m ∈ ys := by simpa using hm
        have hmb : m ≠ b := fun he => (List.nodup_cons.mp hnd).1 (he ▸ hm')
        have hmx : m ≠ x := fun he => hxb (by simp [← he, hm'])
        rw [listAddFirst, listInsert_prev, if_neg hmx, hnext, if_neg hmb]

/-- **Removal** takes the node out of the sequence. -/
theorem IsRing.remove (hr : IsRing h head l) (hx : x ∈ l) :
    IsRing (listRemove h x) head (l.erase x) := by
  obtain ⟨l₁, l₂, hnot, rfl, herase⟩ := List.exists_erase_eq hx
  obtain ⟨xs, a, ha⟩ := exists_eq_append_singleton head l₁
  obtain ⟨b, ys, hb⟩ := exists_append_singleton_eq l₂ head
  obtain ⟨hleft, hprev, hnext, hright⟩ := hr.neighbours ha hb
  have hnd := hr.nodup
  rw [List.nodup_cons, List.nodup_middle, List.nodup_cons] at hnd
  obtain ⟨hhead, hxl, hnd⟩ := hnd
  have hhx : head ≠ x := fun he => hhead (by simp [he])
  have hhl : head ∉ l₁ ++ l₂ := fun hm => hhead (by
    rcases List.mem_append.mp hm with hm | hm <;> simp [hm])
  have hring : (head :: (l₁ ++ l₂)).Nodup := List.nodup_cons.mpr ⟨hhl, hnd⟩
  have hsplit : (xs ++ [a] ++ l₂).Nodup := by rw [← ha]; exact hring
  have hbs : (b :: ys).Nodup := by
    rw [← hb]
    refine (List.perm_append_singleton head l₂).nodup_iff.mpr (List.nodup_cons.mpr ⟨?_, ?_⟩)
    · exact fun hm => hhl (List.mem_append_right _ hm)
    · exact (List.nodup_append.mp hnd).2.1
  have ha_mem : a ∈ head :: l₁ := by rw [ha]; simp
  have hb_mem : b ∈ head :: l₂ := by
    have : b ∈ l₂ ++ [head] := by rw [hb]; exact List.mem_cons_self
    exact (List.perm_append_singleton head l₂).mem_iff.mp this
  have hx₁ : x ∉ l₁ := fun hm => hxl (List.mem_append_left _ hm)
  have hx₂ : x ∉ l₂ := fun hm => hxl (List.mem_append_right _ hm)
  have hax : a ≠ x := by
    rintro rfl
    rcases List.mem_cons.mp ha_mem with he | hm
    · exact hhx he.symm
    · exact hx₁ hm
  have hbx : b ≠ x := by
    rintro rfl
    rcases List.mem_cons.mp hb_mem with he | hm
    · exact hhx he.symm
    · exact hx₂ hm
  rw [herase]
  refine ⟨hring, ?_⟩
  rw [show head :: (l₁ ++ l₂) ++ [head] = xs ++ a :: b :: ys by
    rw [← hb, ← List.cons_append, ha]; simp]
  refine List.isChain_append_cons_cons.mpr ⟨?_, ⟨?_, ?_⟩, ?_⟩
  · refine isChain_congr hleft (fun m hm => ?_) (fun m hm => ?_)
    · have hm' : m ∈ xs := by simpa using hm
      have hmh : m ∈ head :: l₁ := by rw [ha]; exact List.mem_append_left _ hm'
      have hma : m ≠ a := by
        have := (List.nodup_append.mp (List.nodup_append.mp hsplit).1).2.2 m hm' a (by simp)
        exact this
      have hmx : m ≠ x := by
        rintro rfl
        rcases List.mem_cons.mp hmh with he | hm
        · exact hhx he.symm
        · exact hx₁ hm
      rw [listRemove, listRemove_next, if_neg hmx, hprev, if_neg hma]
    · have hm' : m ∈ l₁ := by rw [← ha] at hm; simpa using hm
      have hmb : m ≠ b := by
        rintro rfl
        rcases List.mem_cons.mp hb_mem with he | hm
        · exact hhl (he ▸ List.mem_append_left _ hm')
        · exact (List.nodup_append.mp hnd).2.2 m hm' m hm rfl
      have hmx : m ≠ x := fun he => hx₁ (he ▸ hm')
      rw [listRemove, listRemove_prev, if_neg hmx, hnext, if_neg hmb]
  · rw [listRemove, listRemove_next, if_neg hax, hprev, if_pos rfl, hnext]
  · rw [listRemove, listRemove_prev, if_neg hbx, hnext, if_pos rfl, hprev]
  · refine isChain_congr hright (fun m hm => ?_) (fun m hm => ?_)
    · have hm' : m ∈ l₂ := by rw [← hb] at hm; simpa using hm
      have hma : m ≠ a := by
        rintro rfl
        rcases List.mem_cons.mp ha_mem with he | hm
        · exact hhl (he ▸ List.mem_append_right _ hm')
        · exact (List.nodup_append.mp hnd).2.2 m hm m hm' rfl
      have hmx : m ≠ x := fun he => hx₂ (he ▸ hm')
      rw [listRemove, listRemove_next, if_neg hmx, hprev, if_neg hma]
    · have hm' : m ∈ ys := by simpa using hm
      have hmb : m ≠ b := fun he => (List.nodup_cons.mp hbs).1 (he ▸ hm')
      have hmx : m ≠ x := by
        rintro rfl
        have : m ∈ l₂ ++ [head] := by rw [hb]; exact List.mem_cons_of_mem _ hm'
        rcases List.mem_append.mp this with hm | hm
        · exact hx₂ hm
        · exact hhx (List.mem_singleton.mp hm).symm
      rw [listRemove, listRemove_prev, if_neg hmx, hnext, if_neg hmb]

/-! ### Frames -/

theorem listInsert_of_ne {node prev next m : ν} (hn : m ≠ node) (hp : m ≠ prev) (hx : m ≠ next) :
    _listInsert h node prev next m = h m := by
  simp [_listInsert, setNext_apply, setPrev_apply, hn, hp, hx]

theorem listRemove_of_ne {self prev next m : ν} (hn : m ≠ self) (hp : m ≠ prev) (hx : m ≠ next) :
    _listRemove h self prev next m = h m := by
  simp [_listRemove, setNext_apply, setPrev_apply, hn, hp, hx]

theorem IsRing.addLast_frame (hr : IsRing h head l) {m : ν} (hm : m ∉ head :: l) (hx : m ≠ x) :
    listAddLast h x head m = h m := by
  obtain ⟨xs, a, ha⟩ := exists_eq_append_singleton head l
  refine listInsert_of_ne hx ?_ (fun he => hm (he ▸ List.mem_cons_self))
  rw [hr.prev_head ha]
  exact fun he => hm (by rw [ha, he]; simp)

theorem IsRing.addFirst_frame (hr : IsRing h head l) {m : ν} (hm : m ∉ head :: l) (hx : m ≠ x) :
    listAddFirst h x head m = h m := by
  obtain ⟨b, ys, hb⟩ := exists_append_singleton_eq l head
  refine listInsert_of_ne hx (fun he => hm (he ▸ List.mem_cons_self)) ?_
  rw [hr.next_head hb]
  exact fun he => hm ((List.perm_append_singleton head l).mem_iff.mp (by rw [hb, he]; simp))

theorem IsRing.remove_frame (hr : IsRing h head l) (hx : x ∈ l) {m : ν} (hm : m ∉ head :: l) :
    listRemove h x m = h m := by
  obtain ⟨l₁, l₂, rfl⟩ := List.append_of_mem hx
  obtain ⟨xs, a, ha⟩ := exists_eq_append_singleton head l₁
  obtain ⟨b, ys, hb⟩ := exists_append_singleton_eq l₂ head
  obtain ⟨-, hprev, hnext, -⟩ := hr.neighbours ha hb
  have hmx : m ≠ x := fun he => hm (by simp [he])
  refine listRemove_of_ne hmx ?_ ?_
  · rw [hprev]
    rintro rfl
    have : m ∈ head :: l₁ := by rw [ha]; simp
    rcases List.mem_cons.mp this with he | hml
    · exact hm (by simp [he])
    · exact hm (by simp [hml])
  · rw [hnext]
    rintro rfl
    have : m ∈ l₂ ++ [head] := by rw [hb]; simp
    rcases List.mem_append.mp this with hml | he
    · exact hm (by simp [hml])
    · exact hm (by simp [List.mem_singleton.mp he])

/-- A node that was removed is linked to itself. -/
@[simp] theorem listRemove_self (h : ListHeap ν) (x : ν) : listRemove h x x = ⟨x, x⟩ := by
  simp [listRemove, _listRemove, setNext_apply, setPrev_apply]

/-- **Removing a node that is on no list does nothing.** -/
theorem listRemove_of_self (hx : h x = ⟨x, x⟩) : listRemove h x = h := by
  refine ListHeap.ext (funext fun m => ?_)
  by_cases hm : m = x
  · rw [hm, listRemove_self, hx]
  · refine listRemove_of_ne hm ?_ ?_ <;> rw [hx] <;> exact hm

end Operations

/-! ### Families of rings -/

/-- A family of rings, no two of which share a node. -/
structure Rings {ι : Type*} (h : ListHeap ν) (head : ι → ν) (l : ι → List ν) : Prop where
  /-- Each member is a ring. -/
  ring : ∀ i, IsRing h (head i) (l i)
  /-- Different members have no node in common. -/
  apart : ∀ i j, i ≠ j → (head i :: l i).Disjoint (head j :: l j)

namespace Rings

variable {ι : Type*} {h h' : ListHeap ν} {head : ι → ν} {l : ι → List ν} {x : ν} {i j : ι}

/-- A family does not notice writes to nodes outside it. -/
theorem frame (hr : Rings h head l) (hf : ∀ i, ∀ m ∈ head i :: l i, h' m = h m) :
    Rings h' head l :=
  ⟨fun i => (hr.ring i).frame (hf i), hr.apart⟩

theorem head_not_mem (hr : Rings h head l) (i j : ι) : head i ∉ l j := by
  intro hm
  by_cases hij : i = j
  · subst hij
    exact (List.nodup_cons.mp (hr.ring i).nodup).1 hm
  · exact hr.apart i j hij List.mem_cons_self (List.mem_cons_of_mem _ hm)

theorem eq_of_mem (hr : Rings h head l) (hi : x ∈ l i) (hj : x ∈ l j) : i = j := by
  by_contra hij
  exact hr.apart i j hij (List.mem_cons_of_mem _ hi) (List.mem_cons_of_mem _ hj)

/-- `list_front` of a list that is not empty is its first node. -/
theorem next_head (hr : Rings h head l) {xs : List ν} (hl : l i = x :: xs) :
    (h (head i)).next = x :=
  (hr.ring i).next_head (show l i ++ [head i] = x :: (xs ++ [head i]) by rw [hl]; rfl)

/-- `list_empty` is true of a list exactly when it has no nodes. -/
theorem listEmpty_iff [DecidableEq ν] (hr : Rings h head l) (i : ι) :
    listEmpty h (head i) = true ↔ l i = [] := by
  rw [listEmpty, decide_eq_true_eq]
  cases hl : l i with
  | nil => simpa using (hr.ring i).next_head (show l i ++ [head i] = [head i] by rw [hl]; rfl)
  | cons x xs =>
    rw [hr.next_head hl]
    refine iff_of_false (fun he => ?_) (by simp)
    exact hr.head_not_mem i i (by rw [hl, he]; exact List.mem_cons_self)

variable [DecidableEq ι]

/-- Replacing one member by another ring whose nodes are old or fresh keeps the family. -/
theorem update (hr : Rings h head l) {l' : List ν} (hring : IsRing h' (head i) l')
    (hnew : ∀ m ∈ l', m ∈ l i ∨ ∀ j, m ∉ head j :: l j)
    (hf : ∀ j, j ≠ i → ∀ m ∈ head j :: l j, h' m = h m) :
    Rings h' head (Function.update l i l') := by
  refine ⟨fun j => ?_, ?_⟩
  · by_cases hj : j = i
    · subst hj
      rwa [Function.update_self]
    · rw [Function.update_of_ne hj]
      exact (hr.ring j).frame (hf j hj)
  · have key : ∀ j, j ≠ i → (head i :: l').Disjoint (head j :: l j) := by
      intro j hj m hm hm'
      rcases List.mem_cons.mp hm with rfl | hm
      · exact hr.apart i j (Ne.symm hj) List.mem_cons_self hm'
      · rcases hnew m hm with hold | hfresh
        · exact hr.apart i j (Ne.symm hj) (List.mem_cons_of_mem _ hold) hm'
        · exact hfresh j hm'
    intro a b hab
    by_cases ha : a = i
    · subst ha
      rw [Function.update_self, Function.update_of_ne (Ne.symm hab)]
      exact key b (Ne.symm hab)
    · by_cases hb : b = i
      · subst hb
        rw [Function.update_self, Function.update_of_ne ha]
        exact fun m hm hm' => key a ha hm' hm
      · rw [Function.update_of_ne ha, Function.update_of_ne hb]
        exact hr.apart a b hab

variable [DecidableEq ν]

/-- **`list_add_last` appends**, and the other rings do not notice. -/
theorem addLast (hr : Rings h head l) (i : ι) (hx : ∀ j, x ∉ head j :: l j) :
    Rings (listAddLast h x (head i)) head (Function.update l i (l i ++ [x])) := by
  refine hr.update ((hr.ring i).addLast (hx i)) (fun m hm => ?_) (fun j hj m hm => ?_)
  · rcases List.mem_append.mp hm with hm | hm
    · exact Or.inl hm
    · exact Or.inr (List.mem_singleton.mp hm ▸ hx)
  · exact (hr.ring i).addLast_frame (fun hm' => hr.apart j i hj hm hm') (fun he => hx j (he ▸ hm))

/-- **`list_add_first` prepends**, and the other rings do not notice. -/
theorem addFirst (hr : Rings h head l) (i : ι) (hx : ∀ j, x ∉ head j :: l j) :
    Rings (listAddFirst h x (head i)) head (Function.update l i (x :: l i)) := by
  refine hr.update ((hr.ring i).addFirst (hx i)) (fun m hm => ?_) (fun j hj m hm => ?_)
  · rcases List.mem_cons.mp hm with rfl | hm
    · exact Or.inr hx
    · exact Or.inl hm
  · exact (hr.ring i).addFirst_frame (fun hm' => hr.apart j i hj hm hm') (fun he => hx j (he ▸ hm))

/-- **`list_remove` erases**, and the other rings do not notice. -/
theorem remove (hr : Rings h head l) (hx : x ∈ l i) :
    Rings (listRemove h x) head (Function.update l i ((l i).erase x)) :=
  hr.update ((hr.ring i).remove hx) (fun _ hm => Or.inl (List.mem_of_mem_erase hm))
    (fun j hj _ hm => (hr.ring i).remove_frame hx (fun hm' => hr.apart j i hj hm hm'))

/-- A node that was removed is on no list. -/
theorem not_mem_of_remove (hr : Rings h head l) (hx : x ∈ l i) (j : ι) :
    x ∉ head j :: Function.update l i ((l i).erase x) j := by
  intro hm
  rcases List.mem_cons.mp hm with rfl | hm
  · exact hr.head_not_mem j i hx
  · by_cases hj : j = i
    · subst hj
      rw [Function.update_self] at hm
      exact (List.nodup_cons.mp (hr.ring j).nodup).2.not_mem_erase hm
    · rw [Function.update_of_ne hj] at hm
      exact hj (hr.eq_of_mem hm hx)

/-- **`list_move`** takes the node out of its list, and puts it at the front of another, or of the same. -/
theorem move (hr : Rings h head l) (hx : x ∈ l i) (j : ι) :
    Rings (listMove h x (head j)) head
      (Function.update (Function.update l i ((l i).erase x)) j
        (x :: Function.update l i ((l i).erase x) j)) :=
  (hr.remove hx).addFirst j (hr.not_mem_of_remove hx)

omit [DecidableEq ι] in
/-- `list_add_first` changes no node that is on none of the lists, but the one it inserts. -/
theorem addFirst_frame (hr : Rings h head l) (i : ι) {m : ν} (hm : ∀ j, m ∉ head j :: l j)
    (hmx : m ≠ x) : listAddFirst h x (head i) m = h m := (hr.ring i).addFirst_frame (hm i) hmx

/-- `list_move` changes no node that is on none of the lists. -/
theorem move_frame (hr : Rings h head l) (hx : x ∈ l i) (j : ι) {m : ν}
    (hm : ∀ k, m ∉ head k :: l k) : listMove h x (head j) m = h m := by
  have hmx : m ≠ x := by
    rintro rfl
    exact hm i (List.mem_cons_of_mem _ hx)
  have hm' : ∀ k, m ∉ head k :: Function.update l i ((l i).erase x) k := by
    intro k hk
    by_cases hki : k = i
    · subst hki
      rw [Function.update_self] at hk
      exact hm k (List.cons_subset_cons _ List.erase_subset hk)
    · rw [Function.update_of_ne hki] at hk
      exact hm k hk
  rw [listMove, (hr.remove hx).addFirst_frame j hm' hmx]
  exact (hr.ring i).remove_frame hx (hm i)

end Rings

end GeekToyOS
