import GeekToyOS.Data.Raster

/-!
# Packed records

A record in memory is written field by field, in any order; a table is records of one size, one after the
other. What is read back of a field is what was written, cut to its size, as long as fields do not overlap.

## Main definitions

* `Field` — an offset, a size and a value
* `storeFields` — the fields of a record, written one after the other
* `storeTable` — a table, written record by record

## Main results

* `loadBytes_storeFields` — a field of a record
* `loadBytes_storeTable` — a field of a record of a table
* `storeTable_outside` — nothing else is written
-/

namespace Packed

open Raster

/-- A field of a record, and what is written to it. -/
structure Field where
  offset : ℕ
  size : ℕ
  value : ℕ
deriving DecidableEq, Repr

/-- The fields do not overlap. -/
def Field.Apart (f g : Field) : Prop := f.offset + f.size ≤ g.offset ∨ g.offset + g.size ≤ f.offset

instance (f g : Field) : Decidable (f.Apart g) := inferInstanceAs (Decidable (_ ∨ _))

/-- The fields of the record at `p` are written. -/
def storeFields (m : Mem) (p : ℕ) (fs : List Field) : Mem :=
  fs.foldl (fun m f => storeBytes m (p + f.offset) f.size f.value) m

/-- The first `n` records of the table at `p` are written. -/
def storeTable (m : Mem) (p size : ℕ) (fields : ℕ → List Field) (n : ℕ) : Mem :=
  (List.range n).foldl (fun m i => storeFields m (p + size * i) (fields i)) m

variable {m : Mem} {p q k v size n i a : ℕ} {fs : List Field} {f : Field} {fields : ℕ → List Field}

theorem storeBytes_outside (ha : ¬(p ≤ a ∧ a < p + k)) : storeBytes m p k v a = m a := if_neg ha

theorem loadBytes_storeBytes : loadBytes (storeBytes m p k v) p k = v % 256 ^ k := by
  refine loadBytes_eq fun j hj => ?_
  rw [storeBytes, if_pos (by omega), Nat.add_sub_cancel_left]

theorem loadBytes_storeBytes_of_apart {k' : ℕ} (h : p + k ≤ q ∨ q + k' ≤ p) :
    loadBytes (storeBytes m p k v) q k' = loadBytes m q k' :=
  loadBytes_congr fun j hj => storeBytes_outside (by omega)

@[simp] theorem storeFields_cons : storeFields m p (f :: fs) =
    storeFields (storeBytes m (p + f.offset) f.size f.value) p fs := rfl

/-- Fields of a record leave alone what they do not overlap. -/
theorem loadBytes_storeFields_of_apart (h : ∀ f ∈ fs, p + f.offset + f.size ≤ q ∨ q + k ≤ p + f.offset) :
    loadBytes (storeFields m p fs) q k = loadBytes m q k := by
  induction fs generalizing m with
  | nil => rfl
  | cons f fs ih =>
    rw [storeFields_cons, ih fun g hg => h g (List.mem_cons_of_mem f hg)]
    exact loadBytes_storeBytes_of_apart (h f List.mem_cons_self)

/-- **A field of a record reads as it was written.** -/
theorem loadBytes_storeFields (hapart : fs.Pairwise Field.Apart) (hf : f ∈ fs) :
    loadBytes (storeFields m p fs) (p + f.offset) f.size = f.value % 256 ^ f.size := by
  induction fs generalizing m with
  | nil => cases hf
  | cons g fs ih =>
    obtain ⟨hg, hfs⟩ := List.pairwise_cons.mp hapart
    rw [storeFields_cons]
    rcases List.mem_cons.mp hf with rfl | hf
    · rw [loadBytes_storeFields_of_apart, loadBytes_storeBytes]
      intro g' hg'
      rcases hg g' hg' with h | h <;> omega
    · exact ih hfs hf

theorem storeFields_outside (h : ∀ f ∈ fs, ¬(p + f.offset ≤ a ∧ a < p + f.offset + f.size)) :
    storeFields m p fs a = m a := by
  induction fs generalizing m with
  | nil => rfl
  | cons f fs ih =>
    rw [storeFields_cons, ih fun g hg => h g (List.mem_cons_of_mem f hg)]
    exact storeBytes_outside (h f List.mem_cons_self)

theorem storeTable_succ : storeTable m p size fields (n + 1) =
    storeFields (storeTable m p size fields n) (p + size * n) (fields n) := by
  rw [storeTable, List.range_succ, List.foldl_append]
  rfl

variable (fields) in
/-- **A field of a record of a table reads as it was written.** -/
theorem loadBytes_storeTable (hsize : ∀ i < n, ∀ f ∈ fields i, f.offset + f.size ≤ size)
    (hapart : ∀ i < n, (fields i).Pairwise Field.Apart) (hi : i < n) (hf : f ∈ fields i) :
    loadBytes (storeTable m p size fields n) (p + size * i + f.offset) f.size = f.value % 256 ^ f.size := by
  induction n with
  | zero => omega
  | succ n ih =>
    rw [storeTable_succ]
    rcases Nat.lt_succ_iff_lt_or_eq.mp hi with hlt | rfl
    · rw [loadBytes_storeFields_of_apart]
      · exact ih (fun i hi => hsize i (Nat.lt_succ_of_lt hi))
          (fun i hi => hapart i (Nat.lt_succ_of_lt hi)) hlt
      · intro g _
        have hf := hsize i hi f hf
        have hmul : size * i + size ≤ size * n := by
          calc size * i + size = size * (i + 1) := by rw [Nat.mul_succ]
            _ ≤ size * n := Nat.mul_le_mul_left size hlt
        omega
    · exact loadBytes_storeFields (hapart i hi) hf

variable (fields) in
/-- **Nothing else is written**: storing a table leaves the bytes outside of it alone. -/
theorem storeTable_outside (hsize : ∀ i < n, ∀ f ∈ fields i, f.offset + f.size ≤ size)
    (ha : a < p ∨ p + size * n ≤ a) : storeTable m p size fields n a = m a := by
  induction n with
  | zero => rfl
  | succ n ih =>
    rw [Nat.mul_succ] at ha
    rw [storeTable_succ, storeFields_outside]
    · exact ih (fun i hi => hsize i (Nat.lt_succ_of_lt hi)) (by omega)
    · intro f hf
      have := hsize n n.lt_succ_self f hf
      omega

end Packed
