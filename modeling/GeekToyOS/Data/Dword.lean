import Mathlib

/-!
# Words in memory

A memory of bytes with addresses of 32 bits, which wrap around, and the words in it, low byte first. A stack
of words grows down in such a memory.

## Main definitions

* `load`, `store` — a word at an address
* `Apart` — two words do not overlap
* `Stack` — memory with a stack pointer

## Main results

* `load_store`, `load_store_of_apart` — what is read behind a write
* `load_store_ofNat`, `load_foldl` — aligned words, and a loop that writes each word once
* `Stack.word_pushAll` — the stack holds what was pushed, the last word first
-/

namespace Dword

/-- Bytes by address. -/
abbrev Mem := BitVec 32 → BitVec 8

/-- The word at an address. -/
def load (m : Mem) (a : BitVec 32) : BitVec 32 := m (a + 3) ++ m (a + 2) ++ m (a + 1) ++ m a

def store (m : Mem) (a v : BitVec 32) : Mem := fun x =>
  if x - a < 4 then v.extractLsb' (8 * (x - a).toNat) 8 else m x

/-- The words at two addresses do not overlap. -/
def Apart (a b : BitVec 32) : Prop := 4 ≤ a - b ∧ 4 ≤ b - a

instance (a b : BitVec 32) : Decidable (Apart a b) := inferInstanceAs (Decidable (_ ∧ _))

variable {m : Mem} {a b v : BitVec 32}

theorem Apart.symm (h : Apart a b) : Apart b a := ⟨h.2, h.1⟩

/-- The four bytes of a word, one behind the other, make up the word. -/
theorem append_extractLsb' (v : BitVec 32) :
    v.extractLsb' 24 8 ++ v.extractLsb' 16 8 ++ v.extractLsb' 8 8 ++ v.extractLsb' 0 8 = v := by
  have hjoin : ∀ {start len start' len' : ℕ}, start' = start + len →
      v.extractLsb' start' len' ++ v.extractLsb' start len = v.extractLsb' start (len' + len) :=
    BitVec.extractLsb'_append_extractLsb'_eq_extractLsb'
  rw [hjoin (show 24 = 16 + 8 from rfl), hjoin (show 16 = 8 + 8 from rfl), hjoin (show 8 = 0 + 8 from rfl)]
  exact BitVec.extractLsb'_eq_self

theorem load_store : load (store m a v) a = v := by
  have hbyte : ∀ k : BitVec 32, k < 4 → store m a v (a + k) = v.extractLsb' (8 * k.toNat) 8 := by
    intro k hk
    have hsub : a + k - a = k := by bv_omega
    rw [store, hsub, if_pos hk]
  rw [load, hbyte 3 (by decide), hbyte 2 (by decide), hbyte 1 (by decide)]
  have hzero := hbyte 0 (by decide)
  rw [BitVec.ofNat_eq_ofNat, BitVec.add_zero] at hzero
  rw [hzero]
  exact append_extractLsb' v

theorem load_store_of_apart (h : Apart a b) : load (store m b v) a = load m a := by
  have hbyte : ∀ k : BitVec 32, k < 4 → store m b v (a + k) = m (a + k) := by
    intro k hk
    obtain ⟨hab, hba⟩ := h
    rw [store, if_neg]
    bv_omega
  have hzero := hbyte 0 (by decide)
  rw [BitVec.ofNat_eq_ofNat, BitVec.add_zero] at hzero
  rw [load, hbyte 3 (by decide), hbyte 2 (by decide), hbyte 1 (by decide), hzero, load]

/-! ### Aligned words -/

theorem apart_ofNat {a b : ℕ} (ha : a < 2 ^ 32) (hb : b < 2 ^ 32) (ha4 : 4 ∣ a) (hb4 : 4 ∣ b) (hne : a ≠ b) :
    Apart (BitVec.ofNat 32 a) (BitVec.ofNat 32 b) := by
  obtain ⟨a, rfl⟩ := ha4
  obtain ⟨b, rfl⟩ := hb4
  have hsub : ∀ x y : ℕ, 4 * x < 2 ^ 32 → 4 * y < 2 ^ 32 → 4 * x ≠ 4 * y →
      4 ≤ BitVec.ofNat 32 (4 * x) - BitVec.ofNat 32 (4 * y) := by
    intro x y hx hy hxy
    rw [BitVec.le_def, BitVec.toNat_sub, BitVec.toNat_ofNat, BitVec.toNat_ofNat]
    change 4 ≤ _
    omega
  exact ⟨hsub a b ha hb hne, hsub b a hb ha hne.symm⟩

/-- **What is read behind a write**, where words are aligned. -/
theorem load_store_ofNat {a b : ℕ} (ha : a < 2 ^ 32) (hb : b < 2 ^ 32) (ha4 : 4 ∣ a) (hb4 : 4 ∣ b) :
    load (store m (BitVec.ofNat 32 b) v) (BitVec.ofNat 32 a) =
      if a = b then v else load m (BitVec.ofNat 32 a) := by
  split
  · next h => rw [h, load_store]
  · next h => exact load_store_of_apart (apart_ofNat ha hb ha4 hb4 h)

section Writes

variable {write : ℕ → Mem → Mem} {l : List ℕ}

/-- Writes that leave a word alone do so one after the other, too. -/
theorem load_foldl_of_apart (hother : ∀ j ∈ l, ∀ m, load (write j m) a = load m a) :
    load (l.foldl (fun m j => write j m) m) a = load m a := by
  induction l generalizing m with
  | nil => rfl
  | cons j l ih =>
    rw [List.foldl_cons, ih fun k hk => hother k (List.mem_cons_of_mem j hk)]
    exact hother j List.mem_cons_self m

/-- A word that one of many writes sets, and the others leave alone. -/
theorem load_foldl {i : ℕ} (hi : i ∈ l) (hself : ∀ m, load (write i m) a = v)
    (hother : ∀ j ∈ l, j ≠ i → ∀ m, load (write j m) a = load m a) :
    load (l.foldl (fun m j => write j m) m) a = v := by
  induction l using List.reverseRecOn with
  | nil => exact absurd hi List.not_mem_nil
  | append_singleton l j ih =>
    rw [List.foldl_append, List.foldl_cons, List.foldl_nil]
    by_cases hj : j = i
    · rw [hj, hself]
    · rw [hother j (by simp) hj]
      refine ih ((List.mem_append.mp hi).resolve_right fun h => hj (List.mem_singleton.mp h).symm) ?_
      exact fun k hk => hother k (List.mem_append_left _ hk)

end Writes

/-! ### A stack -/

/-- A stack; `top` is the stack pointer. -/
structure Stack where
  top : BitVec 32
  mem : Mem

namespace Stack

/-- The word with `i` others on top of it. -/
def word (s : Stack) (i : ℕ) : BitVec 32 := load s.mem (s.top + BitVec.ofNat 32 (4 * i))

def push (s : Stack) (v : BitVec 32) : Stack := ⟨s.top - 4, store s.mem (s.top - 4) v⟩

def pushAll (s : Stack) (ws : List (BitVec 32)) : Stack := ws.foldl push s

/-- `n` words are taken from the stack. -/
def drop (s : Stack) (n : ℕ) : Stack := { s with top := s.top + BitVec.ofNat 32 (4 * n) }

variable {s : Stack} {w : BitVec 32} {i : ℕ}

@[simp] theorem word_push_zero : (s.push w).word 0 = w := by
  rw [word, push, Nat.mul_zero, BitVec.ofNat_eq_ofNat, BitVec.add_zero, load_store]

theorem word_push_succ (hi : i < 2 ^ 29) : (s.push w).word (i + 1) = s.word i := by
  have haddr : s.top - 4 + BitVec.ofNat 32 (4 * (i + 1)) = s.top + BitVec.ofNat 32 (4 * i) := by
    rw [Nat.mul_add, BitVec.ofNat_add]
    bv_omega
  have hapart : Apart (s.top + BitVec.ofNat 32 (4 * i)) (s.top - 4) := by
    constructor <;> bv_omega
  rw [word, push, word]
  dsimp only
  rw [haddr, load_store_of_apart hapart]

theorem word_drop (n : ℕ) : (s.drop n).word i = s.word (n + i) := by
  rw [word, drop, word, Nat.mul_add, BitVec.ofNat_add, BitVec.add_assoc]

@[simp] theorem drop_zero : s.drop 0 = s := by
  simp [drop]

theorem drop_drop (n k : ℕ) : (s.drop n).drop k = s.drop (n + k) := by
  rw [drop, drop, drop, Nat.mul_add, BitVec.ofNat_add, BitVec.add_assoc]

theorem pushAll_append (ws ws' : List (BitVec 32)) :
    s.pushAll (ws ++ ws') = (s.pushAll ws).pushAll ws' := List.foldl_append ..

theorem top_pushAll (ws : List (BitVec 32)) :
    (s.pushAll ws).top = s.top - BitVec.ofNat 32 (4 * ws.length) := by
  induction ws generalizing s with
  | nil => simp [pushAll]
  | cons w ws ih =>
    have hrest := ih (s := s.push w)
    rw [pushAll] at hrest
    rw [pushAll, List.foldl_cons, hrest, List.length_cons, Nat.mul_add, BitVec.ofNat_add, push]
    bv_omega

/-- **The stack holds what was pushed**, the last word first. -/
theorem word_pushAll (ws : List (BitVec 32)) (hi : i < 2 ^ 28) (hlen : ws.length < 2 ^ 28) :
    (s.pushAll ws).word i =
      if i < ws.length then ws.reverse.getD i 0 else s.word (i - ws.length) := by
  induction ws generalizing s with
  | nil => rw [pushAll, List.foldl_nil, List.length_nil, if_neg (by omega), Nat.sub_zero]
  | cons w ws ih =>
    rw [List.length_cons] at hlen
    have hrest := ih (s := s.push w) (by omega)
    rw [pushAll] at hrest
    rw [pushAll, List.foldl_cons, hrest, List.length_cons, List.reverse_cons]
    rcases Nat.lt_trichotomy i ws.length with h | h | h
    · rw [if_pos h, if_pos (by omega), List.getD_append _ _ _ _ (by simpa using h)]
    · rw [if_neg (by omega), if_pos (by omega), List.getD_append_right _ _ _ _ (by simp [h])]
      simp [h, word_push_zero]
    · obtain ⟨k, hk⟩ : ∃ k, i - ws.length = k + 1 := ⟨i - ws.length - 1, by omega⟩
      rw [if_neg (by omega), if_neg (by omega), hk, word_push_succ (by omega)]
      congr 1
      omega

end Stack

end Dword
