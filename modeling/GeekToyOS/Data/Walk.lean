import Mathlib.Logic.Function.Iterate
import Mathlib.Data.List.Basic
import Mathlib.Tactic.Common

/-!
# Walking through memory

A loop that goes from state to state, reading as it goes, until a state at which it stops. How far it goes
is up to what it reads, so it may not end; here it has fuel. It is described by the states that the step
leads to, one after the other.

## Main definitions

* `StopsAfter next stop s k` — from `s` it takes `k` steps to stop
* `run` — the loop, with what it reads: places and sizes

## Main results

* `run_eq_some_iff` — what the loop ends with, and what it reads
* `run_safe_iff` — it ends, and all its reads are allowed
* `not_stopsAfter_of_fixed` — a step that goes nowhere
-/

namespace Walk

variable {σ : Type*} {next : σ → σ} {stop : σ → Prop} {s : σ} {k n : ℕ}

/-- From `s` it takes `k` steps to stop. -/
structure StopsAfter (next : σ → σ) (stop : σ → Prop) (s : σ) (k : ℕ) : Prop where
  goes : ∀ i < k, ¬ stop (next^[i] s)
  stops : stop (next^[k] s)

@[simp] theorem stopsAfter_zero : StopsAfter next stop s 0 ↔ stop s :=
  ⟨fun h => h.stops, fun h => ⟨fun _ hi => absurd hi (Nat.not_lt_zero _), h⟩⟩

theorem stopsAfter_succ :
    StopsAfter next stop s (k + 1) ↔ ¬ stop s ∧ StopsAfter next stop (next s) k := by
  constructor
  · intro h
    exact ⟨h.goes 0 k.succ_pos, fun i hi => h.goes (i + 1) (Nat.succ_lt_succ hi), h.stops⟩
  · rintro ⟨hs, h⟩
    refine ⟨fun i hi => ?_, h.stops⟩
    cases i with
    | zero => exact hs
    | succ i => exact h.goes i (Nat.lt_of_succ_lt_succ hi)

theorem StopsAfter.unique {k' : ℕ} (h : StopsAfter next stop s k) (h' : StopsAfter next stop s k') :
    k = k' := by
  rcases Nat.lt_trichotomy k k' with hlt | heq | hgt
  · exact absurd h.stops (h'.goes k hlt)
  · exact heq
  · exact absurd h'.stops (h.goes k' hgt)

/-- **A step that goes nowhere** is taken for ever. -/
theorem not_stopsAfter_of_fixed (hfix : next s = s) (hs : ¬ stop s) : ¬ StopsAfter next stop s k := by
  intro h
  have := h.stops
  rw [Function.iterate_fixed hfix] at this
  exact hs this

section Run

variable [DecidablePred stop] {log : σ → List (ℕ × ℕ)}

variable (next stop log) in
/-- The loop, with fuel: the state in which it stops, and what was read. `log` are the reads at a state. -/
def run : ℕ → σ → Option (σ × List (ℕ × ℕ))
  | 0, _ => none
  | n + 1, s => if stop s then some (s, log s) else (run n (next s)).map fun r => (r.1, log s ++ r.2)

/-- **What the loop ends with, and what it reads.** -/
theorem run_eq_some_iff {r : σ × List (ℕ × ℕ)} : run next stop log n s = some r ↔
    ∃ k < n, StopsAfter next stop s k ∧
      r = (next^[k] s, (List.range (k + 1)).flatMap fun i => log (next^[i] s)) := by
  induction n generalizing s r with
  | zero => simp [run]
  | succ n ih =>
    rw [run]
    by_cases hs : stop s
    · rw [if_pos hs, Option.some.injEq]
      constructor
      · rintro rfl
        exact ⟨0, n.succ_pos, stopsAfter_zero.mpr hs, by simp⟩
      · rintro ⟨k, -, hk, rfl⟩
        obtain rfl : k = 0 := hk.unique (stopsAfter_zero.mpr hs)
        simp
    · rw [if_neg hs, Option.map_eq_some_iff]
      constructor
      · rintro ⟨r', hr', rfl⟩
        obtain ⟨k, hk, hstops, rfl⟩ := ih.mp hr'
        refine ⟨k + 1, Nat.succ_lt_succ hk, stopsAfter_succ.mpr ⟨hs, hstops⟩, ?_⟩
        rw [List.range_succ_eq_map (n := k + 1), List.flatMap_cons, List.flatMap_map]
        rfl
      · rintro ⟨k, hk, hstops, rfl⟩
        cases k with
        | zero => exact absurd (stopsAfter_zero.mp hstops) hs
        | succ k =>
          refine ⟨_, ih.mpr ⟨k, Nat.lt_of_succ_lt_succ hk, (stopsAfter_succ.mp hstops).2, rfl⟩, ?_⟩
          rw [List.range_succ_eq_map (n := k + 1), List.flatMap_cons, List.flatMap_map]
          rfl

/-- With enough fuel the loop ends after its `k` steps, with what it has logged on the way. -/
theorem run_eq_of_stopsAfter (h : StopsAfter next stop s k) (hk : k < n) : run next stop log n s =
    some (next^[k] s, (List.range (k + 1)).flatMap fun i => log (next^[i] s)) :=
  run_eq_some_iff.mpr ⟨k, hk, h, rfl⟩

variable (next stop log s) in
/-- **The loop ends, and all its reads are allowed.** -/
theorem run_safe_iff (ok : ℕ × ℕ → Prop) :
    (∃ n r, run next stop log n s = some r ∧ ∀ a ∈ r.2, ok a) ↔
      ∃ k, StopsAfter next stop s k ∧ ∀ i ≤ k, ∀ a ∈ log (next^[i] s), ok a := by
  constructor
  · rintro ⟨n, r, hr, hok⟩
    obtain ⟨k, -, hstops, rfl⟩ := run_eq_some_iff.mp hr
    exact ⟨k, hstops, fun i hi a ha =>
      hok a (List.mem_flatMap.mpr ⟨i, List.mem_range.mpr (Nat.lt_succ_of_le hi), ha⟩)⟩
  · rintro ⟨k, hstops, hok⟩
    refine ⟨k + 1, _, run_eq_of_stopsAfter hstops k.lt_succ_self, fun a ha => ?_⟩
    obtain ⟨i, hi, ha⟩ := List.mem_flatMap.mp ha
    exact hok i (Nat.le_of_lt_succ (List.mem_range.mp hi)) a ha

end Run

end Walk
