import GeekToyOS.Data.Raster
import GeekToyOS.Lib.Strcmp

/-!
# Copying strings

`strcpy`, `strcat`, `strncpy` and `strncat` of `src/lib/string.c`, on a memory of characters by address. All
copy forward, a character at a time, and look for the terminating zero as they go.

So a string may be copied onto its own beginning. It may not be copied to a place inside of itself: there
the zero is overwritten before it is read, and the copy goes on for ever. The two functions with a count end
with the count too, and then write no zero; nor do they fill up with zeros.

## Main definitions

* `strcpy`, `strcat`, `strncpy`, `strncat`
* `Inside` — the place is inside of the string

## Main results

* `strcpyLoop_eq`, `strcpyLoop_eq_none` — copying, and copying for ever
* `strcat_appends` — when `strcat` appends, and what it does else
* `strncat_holds_iff`, `strncpy_holds_iff` — when there is a zero at the end
-/

namespace GeekToyOS

open Raster

/-- The loop of `strcpy` and the second one of `strcat`; the first argument bounds its turns. -/
def strcpyLoop : ℕ → Mem → ℕ → ℕ → Option Mem
  | 0, _, _, _ => none
  | fuel + 1, m, dst, src =>
    let m' := Function.update m dst (m src)
    if m src ≠ 0 then strcpyLoop fuel m' (dst + 1) (src + 1) else some m'

/-- `strcpy` -/
def strcpy (fuel : ℕ) (m : Mem) (dst src : ℕ) : Option Mem := strcpyLoop fuel m dst src

/-- `while (*temp != '\0') temp++;` -/
def endLoop (m : Mem) : ℕ → ℕ → Option ℕ
  | 0, _ => none
  | fuel + 1, temp => if m temp ≠ 0 then endLoop m fuel (temp + 1) else some temp

/-- `strcat`: the memory, and what it returns. -/
def strcat (fuel : ℕ) (m : Mem) (dst src : ℕ) : Option (Mem × ℕ) :=
  if dst = 0 ∨ src = 0 then some (m, 0)
  else (endLoop m fuel dst).bind fun temp => (strcpyLoop fuel m temp src).map (·, dst)

/-- The second loop of `strncat`. -/
def strncatLoop : ℕ → Mem → ℕ → ℕ → Mem
  | 0, m, _, _ => m
  | n + 1, m, temp, src =>
    let m' := Function.update m temp (m src)
    if m src ≠ 0 then strncatLoop n m' (temp + 1) (src + 1) else m'

/-- `strncat` -/
def strncat (fuel : ℕ) (m : Mem) (dst src n : ℕ) : Option (Mem × ℕ) :=
  if dst = 0 ∨ src = 0 then some (m, 0)
  else (endLoop m fuel dst).map fun temp => (strncatLoop n m temp src, dst)

/-- The loop of `strncpy`, from the `i`-th characters on, with `n` to go. It looks at `src[i]` after it has
written `dest[i]`. -/
def strncpyLoop (dest src : ℕ) : ℕ → Mem → ℕ → Mem
  | 0, m, _ => m
  | n + 1, m, i =>
    let m' := Function.update m (dest + i) (m (src + i))
    if m' (src + i) = 0 then m' else strncpyLoop dest src n m' (i + 1)

/-- `strncpy` -/
def strncpy (m : Mem) (dest src n : ℕ) : Mem :=
  if dest = 0 ∨ src = 0 then m else strncpyLoop dest src n m 0

/-- `dst` is inside of the `n` characters and the zero at `src`, behind the first one. -/
def Inside (dst src n : ℕ) : Prop := src < dst ∧ dst ≤ src + n

instance (dst src n : ℕ) : Decidable (Inside dst src n) := inferInstanceAs (Decidable (_ ∧ _))

/-- There are `n` characters at `src`, and a zero behind them. -/
structure EndsAfter (m : Mem) (src n : ℕ) : Prop where
  goes : ∀ i < n, m (src + i) ≠ 0
  ends : m (src + n) = 0

variable {m m' : Mem} {dst src dest n k : ℕ} {w w1 w2 : List (BitVec 8)}

theorem HoldsString.endsAfter (h : HoldsString m src w) : EndsAfter m src w.length := by
  refine ⟨fun i hi => ?_, ?_⟩
  · rw [h.read i hi.le, List.getD_eq_getElem _ _ hi]
    exact h.ne_zero _ (List.getElem_mem hi)
  · rw [h.read _ le_rfl, List.getD_eq_default _ _ le_rfl]

/-! ### The loops -/

/-- The first character has been copied: the rest of the string is there. -/
theorem EndsAfter.update (h : EndsAfter m src (n + 1)) (hin : ¬Inside dst src (n + 1)) :
    EndsAfter (Function.update m dst (m src)) (src + 1) n := by
  have hsame : ∀ i ≤ n, Function.update m dst (m src) (src + 1 + i) = m (src + (i + 1)) := by
    intro i hi
    have hne : src + 1 + i ≠ dst := by
      unfold Inside at hin
      omega
    rw [Function.update_of_ne hne, Nat.add_assoc, Nat.add_comm 1]
  refine ⟨fun i hi => ?_, ?_⟩
  · rw [hsame i hi.le]
    exact h.goes (i + 1) (by omega)
  · rw [hsame n le_rfl]
    exact h.ends

/-- Copying one byte, and then `n` from the bytes behind it, copies `n + 1`. -/
theorem copyBytes_succ (h : dst ≤ src ∨ src + 1 + n ≤ dst) :
    copyBytes (Function.update m dst (m src)) (Function.update m dst (m src)) (dst + 1) (src + 1) n =
      copyBytes m m dst src (n + 1) := by
  rw [← copyBytes_one, copyBytes_append h, Nat.add_comm]

/-- **The loop copies the string with its zero**, where it does not overwrite the zero before it gets there.
-/
theorem strcpyLoop_eq (h : EndsAfter m src n) (hin : ¬Inside dst src n) :
    strcpyLoop (n + 1) m dst src = some (copyBytes m m dst src (n + 1)) := by
  induction n generalizing m dst src with
  | zero =>
    have hzero : m src = 0 := h.ends
    rw [strcpyLoop, copyBytes_one, if_neg (not_not_intro hzero)]
  | succ n ih =>
    have hne : m src ≠ 0 := h.goes 0 n.succ_pos
    have hin' : ¬Inside (dst + 1) (src + 1) n := by
      unfold Inside at hin ⊢
      omega
    rw [strcpyLoop, if_pos hne, ih (h.update hin) hin', copyBytes_succ]
    unfold Inside at hin
    omega

/-- A loop that has ended has the same result with more fuel. -/
theorem strcpyLoop_mono {fuel j : ℕ} (h : strcpyLoop fuel m dst src = some m') :
    strcpyLoop (fuel + j) m dst src = some m' := by
  induction fuel generalizing m dst src with
  | zero => cases h
  | succ fuel ih =>
    rw [Nat.add_right_comm]
    rw [strcpyLoop] at h ⊢
    split at h
    · next hne => rw [if_pos hne]; exact ih h
    · next hzero => rw [if_neg hzero]; exact h

/-- **Inside of the string it goes on for ever**: what it reads it has written, and that is no zero. -/
theorem strcpyLoop_eq_none {fuel : ℕ} (hlt : src < dst) (h : ∀ a, src ≤ a → a < dst → m a ≠ 0) :
    strcpyLoop fuel m dst src = none := by
  induction fuel generalizing m dst src with
  | zero => rfl
  | succ fuel ih =>
    have hne : m src ≠ 0 := h src le_rfl hlt
    rw [strcpyLoop, if_pos hne]
    refine ih (by omega) fun a hlo hhi => ?_
    by_cases ha : a = dst
    · rw [ha, Function.update_self]
      exact hne
    · rw [Function.update_of_ne ha]
      exact h a (by omega) (by omega)

/-- **The search for the end**: it is found if there are turns enough. -/
theorem endLoop_eq (fuel : ℕ) (h : EndsAfter m src n) :
    endLoop m fuel src = if n < fuel then some (src + n) else none := by
  induction fuel generalizing src n with
  | zero => rfl
  | succ fuel ih =>
    rw [endLoop]
    cases n with
    | zero =>
      have hzero : m src = 0 := h.ends
      rw [if_neg (not_not_intro hzero), if_pos fuel.succ_pos, Nat.add_zero]
    | succ n =>
      have hne : m src ≠ 0 := h.goes 0 n.succ_pos
      have hrest : EndsAfter m (src + 1) n := by
        refine ⟨fun i hi => ?_, ?_⟩
        · rw [Nat.add_assoc, Nat.add_comm 1]
          exact h.goes (i + 1) (by omega)
        · rw [Nat.add_assoc, Nat.add_comm 1]
          exact h.ends
      rw [if_pos hne, ih hrest, Nat.add_assoc, Nat.add_comm 1]
      simp only [Nat.succ_lt_succ_iff]

/-- **With a count, the loop copies so many characters at most**, the zero among them. -/
theorem strncatLoop_eq (h : EndsAfter m src k) (hin : ¬Inside dst src k) :
    strncatLoop n m dst src = copyBytes m m dst src (min n (k + 1)) := by
  induction n generalizing m dst src k with
  | zero => rw [strncatLoop, Nat.zero_min, copyBytes_zero]
  | succ n ih =>
    rw [strncatLoop]
    cases k with
    | zero =>
      have hzero : m src = 0 := h.ends
      rw [if_neg (not_not_intro hzero), Nat.zero_add, min_eq_right (by omega), copyBytes_one]
    | succ k =>
      have hne : m src ≠ 0 := h.goes 0 k.succ_pos
      have hin' : ¬Inside (dst + 1) (src + 1) k := by
        unfold Inside at hin ⊢
        omega
      rw [if_pos hne, ih (h.update hin) hin', copyBytes_succ, Nat.succ_min_succ]
      unfold Inside at hin
      omega

theorem strncpyLoop_eq (i : ℕ) :
    strncpyLoop dst src n m i = strncatLoop n m (dst + i) (src + i) := by
  induction n generalizing m i with
  | zero => rfl
  | succ n ih =>
    have hread : Function.update m (dst + i) (m (src + i)) (src + i) = m (src + i) := by
      by_cases h : src + i = dst + i
      · rw [h, Function.update_self]
      · rw [Function.update_of_ne h]
    rw [strncpyLoop, strncatLoop, hread]
    split
    · next hzero => rw [if_neg (not_not_intro hzero)]
    · exact ih (i + 1)

/-! ### What is there then -/

/-- The characters `w` stand at `s`, whatever is behind them. -/
structure StartsWith (m : Mem) (s : ℕ) (w : List (BitVec 8)) : Prop where
  ne_null : s ≠ 0
  ne_zero : ∀ c ∈ w, c ≠ 0
  read : ∀ i < w.length, m (s + i) = w.getD i 0

theorem HoldsString.startsWith (h : HoldsString m src w) : StartsWith m src w :=
  ⟨h.ne_null, h.ne_zero, fun i hi => h.read i hi.le⟩

theorem startsWith_nil (h : dst ≠ 0) : StartsWith m dst [] := ⟨h, by simp, by simp⟩

/-- What is read behind `w1` when some of the characters at `src` have been copied there. -/
theorem copyBytes_read (h2 : HoldsString m src w2) {i : ℕ} (hi : i < min n (w2.length + 1)) :
    copyBytes m m dst src (min n (w2.length + 1)) (dst + i) = w2.getD i 0 := by
  rw [copyBytes, if_pos (by omega), Nat.add_sub_cancel_left]
  exact h2.read i (by omega)

/-- **The zero is there** if there was room for it, or if it was there before. -/
theorem holdsString_copyBytes_iff (h1 : StartsWith m dst w1) (h2 : HoldsString m src w2) (n : ℕ) :
    HoldsString (copyBytes m m (dst + w1.length) src (min n (w2.length + 1))) dst (w1 ++ w2.take n) ↔
      w2.length < n ∨ m (dst + w1.length + n) = 0 := by
  have hlength : (w1 ++ w2.take n).length = w1.length + min n w2.length := by simp
  have hlast : copyBytes m m (dst + w1.length) src (min n (w2.length + 1))
      (dst + (w1.length + min n w2.length)) = if w2.length < n then 0 else m (dst + w1.length + n) := by
    rw [← Nat.add_assoc]
    split
    · next hlt =>
      rw [copyBytes_read h2 (by omega), min_eq_right hlt.le, List.getD_eq_default _ _ le_rfl]
    · rw [copyBytes, if_neg (by omega), min_eq_left (by omega)]
  constructor
  · intro h
    have hzero := h.endsAfter.ends
    rw [hlength, hlast] at hzero
    by_cases hlt : w2.length < n
    · exact Or.inl hlt
    · rw [if_neg hlt] at hzero
      exact Or.inr hzero
  · intro h
    refine ⟨h1.ne_null, fun c hc => ?_, fun i hi => ?_⟩
    · rcases List.mem_append.mp hc with hc | hc
      · exact h1.ne_zero c hc
      · exact h2.ne_zero c (List.mem_of_mem_take hc)
    · rw [hlength] at hi
      rcases Nat.lt_or_ge i w1.length with hlt | hge
      · rw [copyBytes, if_neg (by omega), List.getD_append _ _ _ _ hlt]
        exact h1.read i hlt
      · obtain ⟨j, rfl⟩ := Nat.exists_eq_add_of_le hge
        rw [List.getD_append_right _ _ _ _ hge, Nat.add_sub_cancel_left, getD_take]
        rcases Nat.lt_or_ge j (min n w2.length) with hj | hj
        · rw [← Nat.add_assoc, copyBytes_read h2 (by omega), if_pos (by omega)]
        · obtain rfl : j = min n w2.length := by omega
          rw [hlast]
          by_cases hlt : w2.length < n
          · rw [if_pos hlt, if_pos (by omega), List.getD_eq_default _ _ (by omega)]
          · rw [if_neg hlt, if_neg (by omega)]
            exact h.resolve_left hlt

/-- **When `strcat` appends.** The place where the first string ends must not be inside of the second one.
If it is, `strcat` does not end; else it leaves the two strings one after the other, and the rest as it
was. -/
theorem strcat_appends (hdst : HoldsString m dst w1) (hsrc : HoldsString m src w2) :
    (Inside (dst + w1.length) src w2.length → ∀ fuel, strcat fuel m dst src = none) ∧
    (¬Inside (dst + w1.length) src w2.length → ∃ fuel m', strcat fuel m dst src = some (m', dst) ∧
      HoldsString m' dst (w1 ++ w2) ∧
      ∀ a, ¬(dst + w1.length ≤ a ∧ a < dst + w1.length + w2.length + 1) → m' a = m a) := by
  have hnull : ¬(dst = 0 ∨ src = 0) := not_or.mpr ⟨hdst.ne_null, hsrc.ne_null⟩
  refine ⟨fun hin fuel => ?_, fun hin => ?_⟩
  · rw [strcat, if_neg hnull, Option.bind_eq_none_iff]
    intro temp htemp
    rw [Option.map_eq_none_iff]
    rw [endLoop_eq fuel hdst.endsAfter] at htemp
    split at htemp
    case isFalse => cases htemp
    obtain rfl := Option.some.inj htemp
    refine strcpyLoop_eq_none hin.1 fun a hlo hhi => ?_
    obtain ⟨j, rfl⟩ := Nat.exists_eq_add_of_le hlo
    exact hsrc.endsAfter.goes j (by unfold Inside at hin; omega)
  · have hend := endLoop_eq (w1.length + 1 + (w2.length + 1)) hdst.endsAfter
    rw [if_pos (by omega)] at hend
    have hcopy := strcpyLoop_mono (j := w1.length + 1) (strcpyLoop_eq hsrc.endsAfter hin)
    rw [Nat.add_comm] at hcopy
    refine ⟨w1.length + 1 + (w2.length + 1), copyBytes m m (dst + w1.length) src (w2.length + 1), ?_, ?_,
      fun a ha => ?_⟩
    · rw [strcat, if_neg hnull, hend, Option.bind_some, hcopy]
      rfl
    · have hholds := holdsString_copyBytes_iff hdst.startsWith hsrc (w2.length + 1)
      rw [min_self, List.take_of_length_le (by omega)] at hholds
      exact hholds.mpr (Or.inl (by omega))
    · rw [copyBytes, if_neg (by omega)]

/-- A string of two characters, and one of one character right behind it. -/
def catMem : Mem := fun a => [72#8, 105#8, 0#8, 33#8, 0#8].getD (a - 100) 0xFF#8

theorem holdsString_catMem : HoldsString catMem 100 [72, 105] ∧ HoldsString catMem 103 [33] :=
  ⟨⟨by decide, by decide, by decide⟩, ⟨by decide, by decide, by decide⟩⟩

/-- The second string is overwritten while it is read; the other way round there is no end. -/
theorem strcat_appends_catMem :
    (∃ fuel m', strcat fuel catMem 100 103 = some (m', 100) ∧ HoldsString m' 100 ([72, 105] ++ [33]) ∧
      ∀ a, ¬(102 ≤ a ∧ a < 104) → m' a = catMem a) ∧
    ∀ fuel, strcat fuel catMem 100 100 = none :=
  ⟨(strcat_appends holdsString_catMem.1 holdsString_catMem.2).2 (by decide),
    (strcat_appends holdsString_catMem.1 holdsString_catMem.1).1 (by decide)⟩

/-- **When `strncat` leaves a string.** It appends `n` characters at most; behind them there is a zero if the
string was shorter, or if there was one before. -/
theorem strncat_holds_iff (hdst : HoldsString m dst w1) (hsrc : HoldsString m src w2)
    (hin : ¬Inside (dst + w1.length) src w2.length) (n : ℕ) :
    ∃ fuel m', strncat fuel m dst src n = some (m', dst) ∧
      (HoldsString m' dst (w1 ++ w2.take n) ↔ w2.length < n ∨ m (dst + w1.length + n) = 0) ∧
      ∀ a, ¬(dst + w1.length ≤ a ∧ a < dst + w1.length + min n (w2.length + 1)) → m' a = m a := by
  have hnull : ¬(dst = 0 ∨ src = 0) := not_or.mpr ⟨hdst.ne_null, hsrc.ne_null⟩
  have hend := endLoop_eq (w1.length + 1) hdst.endsAfter
  rw [if_pos (by omega)] at hend
  refine ⟨w1.length + 1, copyBytes m m (dst + w1.length) src (min n (w2.length + 1)), ?_,
    holdsString_copyBytes_iff hdst.startsWith hsrc n, fun a ha => ?_⟩
  · rw [strncat, if_neg hnull, hend, Option.map_some, strncatLoop_eq hsrc.endsAfter hin]
  · rw [copyBytes, if_neg ha]

theorem strncat_holds_iff_catMem : ∃ fuel m', strncat fuel catMem 100 103 1 = some (m', 100) ∧
    ¬HoldsString m' 100 [72, 105, 33] := by
  obtain ⟨fuel, m', h, hiff, -⟩ :=
    strncat_holds_iff holdsString_catMem.1 holdsString_catMem.2 (by decide) 1
  exact ⟨fuel, m', h, fun hholds => absurd (hiff.mp hholds) (by decide)⟩

/-- **When `strncpy` leaves a string.** It copies `n` characters at most, and leaves alone what is behind the
zero. -/
theorem strncpy_holds_iff (hdest : dest ≠ 0) (hsrc : HoldsString m src w) (hin : ¬Inside dest src w.length)
    (n : ℕ) :
    (HoldsString (strncpy m dest src n) dest (w.take n) ↔ w.length < n ∨ m (dest + n) = 0) ∧
      ∀ a, ¬(dest ≤ a ∧ a < dest + min n (w.length + 1)) → strncpy m dest src n a = m a := by
  have hcopy : strncpy m dest src n = copyBytes m m dest src (min n (w.length + 1)) := by
    rw [strncpy, if_neg (not_or.mpr ⟨hdest, hsrc.ne_null⟩), strncpyLoop_eq, Nat.add_zero, Nat.add_zero,
      strncatLoop_eq hsrc.endsAfter hin]
  rw [hcopy]
  refine ⟨?_, fun a ha => by rw [copyBytes, if_neg ha]⟩
  simpa using holdsString_copyBytes_iff (startsWith_nil hdest) hsrc n

theorem strncpy_holds_iff_catMem : HoldsString (strncpy catMem 200 100 3) 200 [72, 105] ∧
    ¬HoldsString (strncpy catMem 200 100 2) 200 [72, 105] :=
  ⟨(strncpy_holds_iff (by decide) holdsString_catMem.1 (by decide) 3).1.mpr (by decide),
    fun h => absurd ((strncpy_holds_iff (by decide) holdsString_catMem.1 (by decide) 2).1.mp h) (by decide)⟩

/-- **When `strcpy` copies**, and what it does else. -/
theorem strcpy_copies (hdst : dst ≠ 0) (hsrc : HoldsString m src w) :
    (Inside dst src w.length → ∀ fuel, strcpy fuel m dst src = none) ∧
    (¬Inside dst src w.length → ∃ fuel m', strcpy fuel m dst src = some m' ∧ HoldsString m' dst w ∧
      ∀ a, ¬(dst ≤ a ∧ a < dst + w.length + 1) → m' a = m a) := by
  refine ⟨fun hin fuel => ?_, fun hin => ⟨w.length + 1, copyBytes m m dst src (w.length + 1),
    strcpyLoop_eq hsrc.endsAfter hin, ?_, fun a ha => by rw [copyBytes, if_neg (by omega)]⟩⟩
  · refine strcpyLoop_eq_none hin.1 fun a hlo hhi => ?_
    obtain ⟨j, rfl⟩ := Nat.exists_eq_add_of_le hlo
    exact hsrc.endsAfter.goes j (by unfold Inside at hin; omega)
  · have hholds := holdsString_copyBytes_iff (startsWith_nil hdst) hsrc (w.length + 1)
    rw [min_self, List.take_of_length_le (by omega)] at hholds
    exact hholds.mpr (Or.inl (by omega))

end GeekToyOS
