import Mathlib

/-!
# The first hit and the last write

Facts about going through a list. A loop that looks for the least value may keep the first index of the
least so far. A loop that stops at the first element with a property `q` may test
for a property `p` that implies `q`: it stops where it should exactly if the first element with `q` has `p`
already. And of a list of writes to the slots of a table, each computed from what the slot held, a slot
keeps those that went to it.

## Main results

* `IsFirstLeast.snoc_of_lt`, `IsFirstLeast.snoc_of_le` — one more value
* `findIdx?_eq_iff` — when the narrower test finds the same
* `find?_eq_some_of_unique` — the only hit is found
* `foldl_update_apply`, `foldl_const` — what a slot holds after the writes
-/

namespace Search

section Least

variable {β : Type*} [LinearOrder β] {f : ℕ → β} {n k : ℕ}

/-- The first of the indices below `n` at which `f` is least. -/
structure IsFirstLeast (f : ℕ → β) (n k : ℕ) : Prop where
  lt : k < n
  le : ∀ j < n, f k ≤ f j
  first : ∀ j < k, f k < f j

theorem isFirstLeast_one (f : ℕ → β) : IsFirstLeast f 1 0 :=
  ⟨one_pos, fun j hj => by rw [Nat.lt_one_iff.mp hj], fun j hj => absurd hj j.not_lt_zero⟩

/-- If the next value is less than the least so far, it is the first least one from there on. -/
theorem IsFirstLeast.snoc_of_lt (h : IsFirstLeast f n k) (hlt : f n < f k) : IsFirstLeast f (n + 1) n where
  lt := n.lt_succ_self
  le j hj := by
    obtain hj | rfl := Nat.lt_succ_iff_lt_or_eq.mp hj
    · exact hlt.le.trans (h.le j hj)
    · exact le_rfl
  first j hj := hlt.trans_le (h.le j hj)

/-- If the next value is not less than the least so far, the first least one stays the same. -/
theorem IsFirstLeast.snoc_of_le (h : IsFirstLeast f n k) (hle : f k ≤ f n) : IsFirstLeast f (n + 1) k where
  lt := h.lt.trans n.lt_succ_self
  le j hj := by
    obtain hj | rfl := Nat.lt_succ_iff_lt_or_eq.mp hj
    · exact h.le j hj
    · exact hle
  first := h.first

end Least

section First

variable {α : Type*} {p q : α → Bool} {xs : List α}

/-- **The narrower test stops at the same place** exactly if it is passed there. -/
theorem findIdx?_eq_iff (himp : ∀ x ∈ xs, p x → q x) :
    xs.findIdx? p = xs.findIdx? q ↔ ∀ x, xs.find? q = some x → p x := by
  induction xs with
  | nil => simp
  | cons x xs ih =>
    have ih := ih fun y hy => himp y (List.mem_cons_of_mem x hy)
    by_cases hq : q x
    · rw [List.findIdx?_cons, List.findIdx?_cons, List.find?_cons_of_pos hq, if_pos hq]
      by_cases hp : p x
      · simp [hp]
      · simp [hp]
    · have hp : ¬ p x := fun h => hq (himp x List.mem_cons_self h)
      rw [List.findIdx?_cons, List.findIdx?_cons, List.find?_cons_of_neg hq, if_neg hp, if_neg hq, ← ih]
      exact (Option.map_injective (add_left_injective 1)).eq_iff

/-- **The only hit is found**: if just one element of the list passes, the search ends with it. -/
theorem find?_eq_some_of_unique {x : α} (hx : x ∈ xs) (hp : p x) (huniq : ∀ y ∈ xs, p y → y = x) :
    xs.find? p = some x := by
  obtain ⟨y, hy⟩ := Option.isSome_iff_exists.mp (List.find?_isSome.mpr ⟨x, hx, hp⟩)
  rw [hy, huniq y (List.mem_of_find?_eq_some hy) (List.find?_some hy)]

end First

section Last

variable {α β κ : Type*} [DecidableEq κ]

/-- **What a slot holds after the writes** are the writes to it, one after the other. -/
theorem foldl_update_apply (key : α → κ) (f : α → β → β) (xs : List α) (T : κ → β) (k : κ) :
    xs.foldl (fun T x => Function.update T (key x) (f x (T (key x)))) T k =
      (xs.filter fun x => key x = k).foldl (fun v x => f x v) (T k) := by
  induction xs generalizing T with
  | nil => rfl
  | cons x xs ih =>
    rw [List.foldl_cons, ih]
    by_cases hk : key x = k
    · subst hk
      rw [List.filter_cons_of_pos (by simp), List.foldl_cons, Function.update_self]
    · rw [List.filter_cons_of_neg (by simpa using hk), Function.update_of_ne (Ne.symm hk)]

/-- If a write does not look at what the slot held, the last one counts. -/
theorem foldl_const (g : α → β) (xs : List α) (v : β) :
    xs.foldl (fun _ x => g x) v = (xs.getLast?.map g).getD v := by
  induction xs using List.reverseRecOn with
  | nil => rfl
  | append_singleton xs x _ => simp

end Last

end Search
