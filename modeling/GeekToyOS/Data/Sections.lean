import Mathlib.Data.List.Basic

/-!
# What is written under a lock

Processes write to a common log, each only while it holds the lock. From taking the lock to giving it back
is a section; what a section is going to write is settled when it begins. Then the log is the sections one
after the other, in the order in which they began, and only the last one may be incomplete.

A process is known by two numbers: how many sections it has open, and what they have left to write. Nothing
is said of how it works. One that holds the lock and waits for it again stays where it is.

## Main definitions

* `Orderly` — one section at most is open, and the log is the sections up to what that one has left

## Main results

* `Orderly.enter`, `Orderly.write`, `Orderly.leave`, `Orderly.congr` — the steps
* `Orderly.eq_of_holds` — mutual exclusion
* `Orderly.exists_rest` — the log, completed by the rest of the last section
-/

namespace Sections

variable {ι α : Type*}

/-- The lock is taken or not; `holds i` sections of process `i` are open and have `left i` to write. -/
structure Orderly (locked : Prop) (holds : ι → ℕ) (left : ι → List α) (sections : List (List α))
    (log : List α) : Prop where
  idle : ∀ i, holds i = 0 → left i = []
  free : ¬locked → (∀ i, holds i = 0) ∧ log = sections.flatten
  taken : locked → ∃ i before done, holds i = 1 ∧ (∀ j ≠ i, holds j = 0) ∧
    sections = before ++ [done ++ left i] ∧ log = before.flatten ++ done

variable {locked : Prop} {holds holds' : ι → ℕ} {left left' : ι → List α} {sections : List (List α)}
  {log : List α} {i j : ι} {a : α}

theorem Orderly.start : Orderly False (fun _ : ι => 0) (fun _ => ([] : List α)) [] [] where
  idle := fun _ _ => rfl
  free := fun _ => ⟨fun _ => rfl, rfl⟩
  taken := False.elim

/-- The order depends only on whether the lock is taken, who holds it, and what each has left. -/
theorem Orderly.congr {locked' : Prop} (h : Orderly locked holds left sections log) (hl : locked' ↔ locked)
    (hholds : ∀ i, holds' i = holds i) (hleft : ∀ i, left' i = left i) :
    Orderly locked' holds' left' sections log := by
  obtain rfl : holds' = holds := funext hholds
  obtain rfl : left' = left := funext hleft
  exact { idle := h.idle, free := fun hf => h.free (mt hl.mpr hf), taken := fun ht => h.taken (hl.mp ht) }

theorem Orderly.locked_of_holds (h : Orderly locked holds left sections log) (hi : holds i ≠ 0) : locked := by
  by_contra hfree
  exact hi ((h.free hfree).1 i)

/-- **Mutual exclusion**: whoever holds the lock holds it once, and nobody else does. -/
theorem Orderly.eq_of_holds (h : Orderly locked holds left sections log) (hi : holds i ≠ 0) :
    holds i = 1 ∧ ∀ j, holds j ≠ 0 → j = i := by
  obtain ⟨k, -, -, hk, hother, -, -⟩ := h.taken (h.locked_of_holds hi)
  obtain rfl : i = k := by
    by_contra hne
    exact hi (hother i hne)
  exact ⟨hk, fun j hj => by by_contra hne; exact hj (hother j hne)⟩

/-- The state of the log, seen from the process that is writing. -/
theorem Orderly.of_holds (h : Orderly locked holds left sections log) (hi : holds i ≠ 0) :
    ∃ before done, sections = before ++ [done ++ left i] ∧ log = before.flatten ++ done := by
  obtain ⟨k, before, done, hk, -, hsections, hlog⟩ := h.taken (h.locked_of_holds hi)
  obtain rfl : k = i := (h.eq_of_holds hi).2 k (by omega)
  exact ⟨before, done, hsections, hlog⟩

/-- **A section begins** when the lock is free: its holder has the whole section left. -/
theorem Orderly.enter (h : Orderly locked holds left sections log) (hfree : ¬locked)
    (hother : ∀ j ≠ i, holds' j = holds j ∧ left' j = left j) (hi : holds' i = holds i + 1) :
    Orderly True holds' left' (sections ++ [left' i]) log where
  idle := by
    intro j hj
    by_cases hji : j = i
    · rw [hji] at hj
      omega
    · rw [(hother j hji).2]
      exact h.idle j ((hother j hji).1 ▸ hj)
  free := fun hn => absurd trivial hn
  taken := by
    obtain ⟨hzero, hlog⟩ := h.free hfree
    refine fun _ => ⟨i, sections, [], by rw [hi, hzero i], fun j hj => ?_, rfl, by rw [List.append_nil, hlog]⟩
    rw [(hother j hj).1, hzero j]

/-- **A section writes** the next of what its holder has left. -/
theorem Orderly.write (h : Orderly locked holds left sections log)
    (hother : ∀ j ≠ i, holds' j = holds j ∧ left' j = left j) (hi : holds' i = holds i)
    (hleft : left i = a :: left' i) : Orderly locked holds' left' sections (log ++ [a]) := by
  have hpos : holds i ≠ 0 := fun h0 => by
    rw [h.idle i h0] at hleft
    exact List.cons_ne_nil _ _ hleft.symm
  have hlocked := h.locked_of_holds hpos
  obtain ⟨before, done, hsections, hlog⟩ := h.of_holds hpos
  obtain ⟨hone, huniq⟩ := h.eq_of_holds hpos
  refine { idle := ?_, free := fun hn => absurd hlocked hn, taken := fun _ => ?_ }
  · intro j hj
    by_cases hji : j = i
    · rw [hji] at hj
      omega
    · rw [(hother j hji).2]
      exact h.idle j ((hother j hji).1 ▸ hj)
  · refine ⟨i, before, done ++ [a], hi.trans hone, fun j hj => ?_, ?_, ?_⟩
    · rw [(hother j hj).1]
      by_contra hne
      exact hj (huniq j hne)
    · rw [hsections, hleft, List.append_assoc, List.singleton_append]
    · rw [hlog, List.append_assoc]

/-- **A section ends**, when it has written everything. -/
theorem Orderly.leave (h : Orderly locked holds left sections log)
    (hother : ∀ j ≠ i, holds' j = holds j ∧ left' j = left j) (hi : holds i = holds' i + 1)
    (hleft : left i = []) (hleft' : left' i = []) : Orderly False holds' left' sections log := by
  have hpos : holds i ≠ 0 := by omega
  obtain ⟨before, done, hsections, hlog⟩ := h.of_holds hpos
  obtain ⟨hone, huniq⟩ := h.eq_of_holds hpos
  have hzero : ∀ j, holds' j = 0 := by
    intro j
    by_cases hji : j = i
    · rw [hji]
      omega
    · rw [(hother j hji).1]
      by_contra hne
      exact hji (huniq j hne)
  refine { idle := fun j _ => ?_, free := fun _ => ⟨hzero, ?_⟩, taken := False.elim }
  · by_cases hji : j = i
    · rw [hji, hleft']
    · rw [(hother j hji).2]
      exact h.idle j ((hother j hji).1 ▸ hzero j)
  · rw [hsections, hlog, hleft, List.append_nil, List.flatten_append, List.flatten_singleton]

/-- **The log is the sections, up to the rest of the last one.** -/
theorem Orderly.exists_rest (h : Orderly locked holds left sections log) :
    ∃ rest, log ++ rest = sections.flatten ∧
      (rest ≠ [] → ∃ last, sections.getLast? = some last ∧ rest <:+ last) := by
  by_cases hlocked : locked
  · obtain ⟨i, before, done, -, -, hsections, hlog⟩ := h.taken hlocked
    refine ⟨left i, ?_, fun _ => ⟨done ++ left i, ?_, List.suffix_append _ _⟩⟩
    · rw [hlog, hsections, List.flatten_append, List.flatten_singleton, List.append_assoc]
    · rw [hsections, List.getLast?_append_of_ne_nil _ (List.cons_ne_nil _ _), List.getLast?_singleton]
  · exact ⟨[], by rw [List.append_nil, (h.free hlocked).2], fun hne => absurd rfl hne⟩

/-- The log is the sections one after the other up to a rest of the last one, also where sections have
names. -/
theorem Orderly.exists_rest_map {β : Type*} {g : β → List α} {names : List β}
    (h : Orderly locked holds left (names.map g) log) :
    ∃ rest, log ++ rest = (names.map g).flatten ∧
      (rest ≠ [] → ∃ b, names.getLast? = some b ∧ rest <:+ g b) := by
  obtain ⟨rest, hrest, hlast⟩ := h.exists_rest
  refine ⟨rest, hrest, fun hne => ?_⟩
  obtain ⟨last, hget, hsuffix⟩ := hlast hne
  rw [List.getLast?_map] at hget
  obtain ⟨b, hb, rfl⟩ := Option.map_eq_some_iff.mp hget
  exact ⟨b, hb, hsuffix⟩

end Sections
