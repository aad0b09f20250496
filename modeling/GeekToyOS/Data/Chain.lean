import Mathlib

/-!
# Chains through memory

A chain threads a sequence of cells: each cell holds the address of the next one, and the last holds
the null address. Pushing a cell and popping the first one are the two operations of a free list.

## Main definitions

* `Links word null p l` — from `p` the cells of `l` follow each other, and then comes `null`

## Main results

* `Links.push`, `Links.pop` — the operations on memory are those on sequences
* `Links.frame` — writes to other cells do not matter
* `Links.unique` — the sequence is read off the memory
-/

namespace Chain

variable {α : Type*} {word word' : α → α} {null p x : α} {l l' : List α}

/-- From `p` the cells of `l` follow each other, and then comes `null`. -/
def Links (word : α → α) (null : α) : α → List α → Prop
  | p, [] => p = null
  | p, x :: l => p = x ∧ x ≠ null ∧ Links word null (word x) l

@[simp] theorem links_nil : Links word null null [] := rfl

theorem Links.eq_head (h : Links word null p (x :: l)) : p = x := h.1

theorem Links.head_ne (h : Links word null p (x :: l)) : x ≠ null := h.2.1

/-- The null address begins the empty chain, and no other one. -/
theorem Links.eq_null_iff (h : Links word null p l) : p = null ↔ l = [] := by
  cases l with
  | nil => exact iff_of_true h rfl
  | cons x l => exact iff_of_false (h.eq_head ▸ h.head_ne) (List.cons_ne_nil x l)

/-- **Popping**: behind the first element the rest of the chain begins. -/
theorem Links.pop (h : Links word null p (x :: l)) : Links word null (word x) l := h.2.2

/-- A chain survives writes to cells that are not in it. -/
theorem Links.frame (hw : ∀ y ∈ l, word' y = word y) (h : Links word null p l) :
    Links word' null p l := by
  induction l generalizing p with
  | nil => exact h
  | cons y l ih =>
    refine ⟨h.1, h.2.1, ?_⟩
    rw [hw y List.mem_cons_self]
    exact ih (fun z hz => hw z (List.mem_cons_of_mem y hz)) h.2.2

/-- **Pushing**: an element that is not on the chain, and is linked to its head, is the new head. -/
theorem Links.push [DecidableEq α] (h : Links word null p l) (hx : x ≠ null) (hnot : x ∉ l) :
    Links (Function.update word x p) null x (x :: l) := by
  refine ⟨rfl, hx, ?_⟩
  rw [Function.update_self]
  refine h.frame fun y hy => Function.update_of_ne ?_ _ _
  rintro rfl
  exact hnot hy

/-- The sequence is determined by the memory and the head. -/
theorem Links.unique (h : Links word null p l) (h' : Links word null p l') : l = l' := by
  induction l generalizing p l' with
  | nil => exact ((h'.eq_null_iff).mp h).symm
  | cons x l ih =>
    cases l' with
    | nil => exact absurd h' (h.eq_head ▸ h.head_ne)
    | cons y l' =>
      obtain rfl : x = y := h.eq_head.symm.trans h'.eq_head
      rw [ih h.pop h'.pop]

end Chain
