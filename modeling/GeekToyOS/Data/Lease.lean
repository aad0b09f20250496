import Mathlib

/-!
# Leases

Elements of a common stock are in use or not, and each lease covers some of them. The accounts are right
if no element is covered twice and those in use are the covered ones. Leases come and go; the accounts
stay right exactly if the stock changes by what the leases cover.

## Main definitions

* `Accounts span used live` — the live leases account for the elements in use

## Main results

* `Accounts.grant_iff`, `Accounts.filter_iff` — one lease more, and some less
-/

namespace Lease

variable {ι α : Type*} {span : ι → Set α} {used used' : Set α} {live : List ι} {a b : ι} {x : α}

/-- No element is covered by two of the leases, and those in use are the covered ones. -/
structure Accounts (span : ι → Set α) (used : Set α) (live : List ι) : Prop where
  disjoint : live.Pairwise fun a b => Disjoint (span a) (span b)
  mem_used : ∀ x, x ∈ used ↔ ∃ a ∈ live, x ∈ span a

namespace Accounts

theorem subset (h : Accounts span used live) (ha : a ∈ live) : span a ⊆ used := fun x hx =>
  (h.mem_used x).mpr ⟨a, ha, hx⟩

/-- An element is in the span of one lease at most. -/
theorem unique (h : Accounts span used live) (ha : a ∈ live) (hb : b ∈ live) (hxa : x ∈ span a)
    (hxb : x ∈ span b) : a = b := by
  by_contra hne
  have : Std.Symm fun a b => Disjoint (span a) (span b) := ⟨fun _ _ hd => hd.symm⟩
  exact Set.disjoint_left.mp (h.disjoint.forall ha hb hne) hxa hxb

/-- **One lease more** is accounted for iff its span was free and is used now. -/
theorem grant_iff (h : Accounts span used live) : Accounts span used' (a :: live) ↔
    Disjoint (span a) used ∧ used' = used ∪ span a := by
  constructor
  · rintro ⟨hdisj, hused⟩
    refine ⟨Set.disjoint_left.mpr fun x hxa hx => ?_, Set.ext fun x => ?_⟩
    · obtain ⟨b, hb, hxb⟩ := (h.mem_used x).mp hx
      exact Set.disjoint_left.mp (List.rel_of_pairwise_cons hdisj hb) hxa hxb
    · rw [hused, Set.mem_union, h.mem_used, List.exists_mem_cons_iff]
      exact or_comm
  · rintro ⟨hdisj, rfl⟩
    refine ⟨List.pairwise_cons.mpr ⟨fun b hb => hdisj.mono_right (h.subset hb), h.disjoint⟩, fun x => ?_⟩
    rw [Set.mem_union, h.mem_used, List.exists_mem_cons_iff]
    exact or_comm

/-- **Some leases less**: what they covered is not in use any more. -/
theorem filter_iff (h : Accounts span used live) (keep : ι → Bool) :
    Accounts span used' (live.filter keep) ↔
      ∀ x, x ∈ used' ↔ x ∈ used ∧ ∀ a ∈ live, x ∈ span a → keep a := by
  have hkept : ∀ x, (∃ a ∈ live.filter keep, x ∈ span a) ↔
      x ∈ used ∧ ∀ a ∈ live, x ∈ span a → keep a := by
    intro x
    constructor
    · rintro ⟨a, ha, hxa⟩
      obtain ⟨ha, hkeep⟩ := List.mem_filter.mp ha
      exact ⟨h.subset ha hxa, fun b hb hxb => h.unique ha hb hxa hxb ▸ hkeep⟩
    · rintro ⟨hx, hall⟩
      obtain ⟨a, ha, hxa⟩ := (h.mem_used x).mp hx
      exact ⟨a, List.mem_filter.mpr ⟨ha, hall a ha hxa⟩, hxa⟩
  constructor
  · exact fun h' x => (h'.mem_used x).trans (hkept x)
  · exact fun hused => ⟨h.disjoint.filter keep, fun x => (hused x).trans (hkept x).symm⟩

end Accounts

end Lease
