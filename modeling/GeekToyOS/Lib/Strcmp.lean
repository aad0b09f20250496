import Mathlib.Data.Int.Init
import Mathlib.Data.List.Basic
import Mathlib.Data.List.GetD
import Mathlib.Tactic.NormNum

/-!
# `strcmp` and `strncmp`

The two comparisons of `src/lib/string.c`, on a memory of characters by address. A `char` is signed. Both
look for the first position at which the strings differ; `strcmp` ends at the terminating zero too,
`strncmp` only after `n` characters.

## Main definitions

* `strcmp`, `strncmp`
* `HoldsString` — a string with its terminating zero
* `StrncmpLawful` — `strncmp` compares the first `n` characters and reads no more than the strings

## Main results

* `strncmp_of_first`, `strncmp_of_agree` — what `strncmp` returns and reads
* `strncmpLawful_iff` — it is lawful unless the strings are equal and end before `n - 1`
-/

namespace GeekToyOS

/-- The loop of `strcmp`, from the `i`-th characters on; the first argument bounds its turns. -/
def strcmpLoop (m : ℕ → BitVec 8) (s1 s2 : ℕ) : ℕ → ℕ → Option ℤ
  | 0, _ => none
  | fuel + 1, i =>
    if m (s1 + i) ≠ 0 ∧ m (s2 + i) ≠ 0 ∧ m (s1 + i) = m (s2 + i) then strcmpLoop m s1 s2 fuel (i + 1)
    else some ((m (s1 + i)).toInt - (m (s2 + i)).toInt)

/-- `strcmp` -/
def strcmp (m : ℕ → BitVec 8) (s1 s2 fuel : ℕ) : Option ℤ :=
  if s1 = 0 ∨ s2 = 0 then some (Int.bmod (s1 - s2) (2 ^ 32)) else strcmpLoop m s1 s2 fuel 0

/-- The loop of `strncmp`, with `n` characters to go from the `i`-th on: what is returned, and how many
characters of each string have been read then. -/
def strncmpLoop (m : ℕ → BitVec 8) (s1 s2 : ℕ) : ℕ → ℕ → ℤ × ℕ
  | 0, i => (0, i)
  | n + 1, i =>
    if m (s1 + i) ≠ m (s2 + i) then ((m (s1 + i)).toInt - (m (s2 + i)).toInt, i + 1)
    else strncmpLoop m s1 s2 n (i + 1)

/-- `strncmp`: what it returns, and how many characters of each string it reads. -/
def strncmp (m : ℕ → BitVec 8) (s1 s2 n : ℕ) : ℤ × ℕ :=
  if s1 = 0 ∨ s2 = 0 then (Int.bmod (s1 - s2) (2 ^ 32), 0) else strncmpLoop m s1 s2 n 0

/-! ### What `strncmp` is for -/

/-- The characters `w` stand at `s`, with a zero behind them. -/
structure HoldsString (m : ℕ → BitVec 8) (s : ℕ) (w : List (BitVec 8)) : Prop where
  ne_null : s ≠ 0
  ne_zero : ∀ c ∈ w, c ≠ 0
  read : ∀ i ≤ w.length, m (s + i) = w.getD i 0

/-- **`strncmp` compares the first `n` characters.** -/
structure StrncmpLawful (m : ℕ → BitVec 8) (s1 s2 : ℕ) (w1 w2 : List (BitVec 8)) (n : ℕ) : Prop where
  /-- It returns zero if the strings agree on `n` characters, or are equal and shorter. -/
  zero : (strncmp m s1 s2 n).1 = 0 ↔
    (n ≤ w1.length ∧ n ≤ w2.length ∧ ∀ i < n, w1.getD i 0 = w2.getD i 0) ∨ w1 = w2 ∧ w1.length < n
  /-- It has the sign that `strcmp` returns for the strings cut to `n` characters. -/
  sign : ∀ m' t1 t2, HoldsString m' t1 (w1.take n) → HoldsString m' t2 (w2.take n) →
    ∃ fuel r, strcmp m' t1 t2 fuel = some r ∧ (strncmp m s1 s2 n).1.sign = r.sign
  /-- It reads nothing behind the end of either string. -/
  reads : (strncmp m s1 s2 n).2 ≤ w1.length + 1 ∧ (strncmp m s1 s2 n).2 ≤ w2.length + 1

variable {m m' : ℕ → BitVec 8} {s1 s2 n : ℕ} {w w1 w2 : List (BitVec 8)}

/-! ### The first difference -/

/-- Different strings differ at a position first, at the end of the shorter one at the latest. -/
theorem exists_first_ne (h1 : ∀ c ∈ w1, c ≠ 0) (h2 : ∀ c ∈ w2, c ≠ 0) (hne : w1 ≠ w2) :
    ∃ d, d ≤ w1.length ∧ d ≤ w2.length ∧ w1.getD d 0 ≠ w2.getD d 0 ∧
      ∀ i < d, w1.getD i 0 = w2.getD i 0 := by
  induction w1 generalizing w2 with
  | nil =>
    cases w2 with
    | nil => exact absurd rfl hne
    | cons b w2 =>
      refine ⟨0, le_rfl, Nat.zero_le _, ?_, fun i hi => absurd hi i.not_lt_zero⟩
      exact fun h => h2 b List.mem_cons_self h.symm
  | cons a w1 ih =>
    cases w2 with
    | nil =>
      refine ⟨0, Nat.zero_le _, le_rfl, ?_, fun i hi => absurd hi i.not_lt_zero⟩
      exact fun h => h1 a List.mem_cons_self h
    | cons b w2 =>
      by_cases hab : a = b
      · subst hab
        obtain ⟨d, hd1, hd2, hd, hfirst⟩ := ih (fun c hc => h1 c (List.mem_cons_of_mem _ hc))
          (fun c hc => h2 c (List.mem_cons_of_mem _ hc)) fun h => hne (congrArg _ h)
        refine ⟨d + 1, Nat.succ_le_succ hd1, Nat.succ_le_succ hd2, hd, fun i hi => ?_⟩
        cases i with
        | zero => rfl
        | succ i => exact hfirst i (Nat.lt_of_succ_lt_succ hi)
      · exact ⟨0, Nat.zero_le _, Nat.zero_le _, hab, fun i hi => absurd hi i.not_lt_zero⟩

/-- Strings that agree up to the end of the shorter one are equal. -/
theorem eq_of_agree (h1 : ∀ c ∈ w1, c ≠ 0) (h2 : ∀ c ∈ w2, c ≠ 0)
    (h : ∀ i, i ≤ w1.length → i ≤ w2.length → w1.getD i 0 = w2.getD i 0) : w1 = w2 := by
  by_contra hne
  obtain ⟨d, hd1, hd2, hd, -⟩ := exists_first_ne h1 h2 hne
  exact hd (h d hd1 hd2)

theorem getD_take (w : List (BitVec 8)) (n i : ℕ) :
    (w.take n).getD i 0 = if i < n then w.getD i 0 else 0 := by
  rw [List.getD_eq_getElem?_getD, List.getElem?_take]
  split
  · rw [List.getD_eq_getElem?_getD]
  · rfl

/-! ### The loops -/

/-- The loop of `strncmp` ends at the first difference. -/
theorem strncmpLoop_of_first {k d : ℕ} (hd : d < n)
    (hne : m (s1 + (k + d)) ≠ m (s2 + (k + d))) (hfirst : ∀ i < d, m (s1 + (k + i)) = m (s2 + (k + i))) :
    strncmpLoop m s1 s2 n k = ((m (s1 + (k + d))).toInt - (m (s2 + (k + d))).toInt, k + d + 1) := by
  induction n generalizing k d with
  | zero => omega
  | succ n ih =>
    rw [strncmpLoop]
    cases d with
    | zero =>
      rw [Nat.add_zero] at hne
      exact if_pos hne
    | succ d =>
      have hk := hfirst 0 (Nat.succ_pos d)
      rw [Nat.add_zero] at hk
      rw [if_neg (not_not.mpr hk)]
      have hstep : k + (d + 1) = k + 1 + d := by omega
      rw [hstep] at hne ⊢
      refine ih (by omega) hne fun i hi => ?_
      have := hfirst (i + 1) (by omega)
      rwa [show k + (i + 1) = k + 1 + i by omega] at this

/-- Where there is no difference the loop goes on to the end, and returns zero. -/
theorem strncmpLoop_of_agree {k : ℕ} (h : ∀ i < n, m (s1 + (k + i)) = m (s2 + (k + i))) :
    strncmpLoop m s1 s2 n k = (0, k + n) := by
  induction n generalizing k with
  | zero => rfl
  | succ n ih =>
    have hk := h 0 (Nat.succ_pos n)
    rw [Nat.add_zero] at hk
    have hrest : strncmpLoop m s1 s2 n (k + 1) = (0, k + 1 + n) := by
      refine ih fun i hi => ?_
      have := h (i + 1) (by omega)
      rwa [show k + (i + 1) = k + 1 + i by omega] at this
    rw [strncmpLoop, if_neg (not_not.mpr hk), hrest, show k + 1 + n = k + (n + 1) by omega]

theorem le_strncmpLoop {k : ℕ} : k ≤ (strncmpLoop m s1 s2 n k).2 := by
  induction n generalizing k with
  | zero => exact le_rfl
  | succ n ih =>
    rw [strncmpLoop]
    split
    · exact Nat.le_succ k
    · exact (Nat.le_succ k).trans ih

/-- The loop reads on as long as the characters agree, whether the strings have ended or not. -/
theorem strncmpLoop_reads {k d : ℕ} (hd : d < n) (h : ∀ i < d, m (s1 + (k + i)) = m (s2 + (k + i))) :
    k + d < (strncmpLoop m s1 s2 n k).2 := by
  induction n generalizing k d with
  | zero => omega
  | succ n ih =>
    rw [strncmpLoop]
    cases d with
    | zero =>
      split
      · exact Nat.lt_succ_self k
      · exact le_strncmpLoop
    | succ d =>
      have hk := h 0 (Nat.succ_pos d)
      rw [Nat.add_zero] at hk
      rw [if_neg (not_not.mpr hk), show k + (d + 1) = k + 1 + d by omega]
      refine ih (by omega) fun i hi => ?_
      have := h (i + 1) (by omega)
      rwa [show k + (i + 1) = k + 1 + i by omega] at this

/-- The loop of `strcmp` ends at the first difference, or at the end of the strings. -/
theorem strcmpLoop_of_first {k d fuel : ℕ} (hd : d < fuel)
    (hstop : m (s1 + (k + d)) = 0 ∨ m (s2 + (k + d)) = 0 ∨ m (s1 + (k + d)) ≠ m (s2 + (k + d)))
    (hfirst : ∀ i < d, m (s1 + (k + i)) ≠ 0 ∧ m (s1 + (k + i)) = m (s2 + (k + i))) :
    strcmpLoop m s1 s2 fuel k = some ((m (s1 + (k + d))).toInt - (m (s2 + (k + d))).toInt) := by
  induction fuel generalizing k d with
  | zero => omega
  | succ fuel ih =>
    rw [strcmpLoop]
    cases d with
    | zero =>
      rw [Nat.add_zero] at hstop
      have hend : ¬(m (s1 + k) ≠ 0 ∧ m (s2 + k) ≠ 0 ∧ m (s1 + k) = m (s2 + k)) := by
        rintro ⟨hz1, hz2, heq⟩
        exact hstop.elim hz1 fun h => h.elim hz2 fun hne => hne heq
      exact if_neg hend
    | succ d =>
      obtain ⟨hzero, heq⟩ := hfirst 0 (Nat.succ_pos d)
      rw [Nat.add_zero] at hzero heq
      rw [if_pos ⟨hzero, heq ▸ hzero, heq⟩]
      have hstep : k + (d + 1) = k + 1 + d := by omega
      rw [hstep] at hstop ⊢
      refine ih (by omega) hstop fun i hi => ?_
      have := hfirst (i + 1) (by omega)
      rwa [show k + (i + 1) = k + 1 + i by omega] at this

/-! ### On strings -/

section Strings

variable (h1 : HoldsString m s1 w1) (h2 : HoldsString m s2 w2)

theorem HoldsString.getD_ne_zero (h : HoldsString m s1 w) {i : ℕ} (hi : i < w.length) :
    w.getD i 0 ≠ 0 := by
  rw [List.getD_eq_getElem _ _ hi]
  exact h.ne_zero _ (List.getElem_mem hi)

include h1 h2

/-- **`strcmp`** on strings that differ first at `d`. -/
theorem strcmp_of_first {d : ℕ} (hd1 : d ≤ w1.length) (hd2 : d ≤ w2.length)
    (hne : w1.getD d 0 ≠ w2.getD d 0) (hfirst : ∀ i < d, w1.getD i 0 = w2.getD i 0) :
    strcmp m s1 s2 (d + 1) = some ((w1.getD d 0).toInt - (w2.getD d 0).toInt) := by
  have hloop : strcmpLoop m s1 s2 (d + 1) 0 =
      some ((m (s1 + (0 + d))).toInt - (m (s2 + (0 + d))).toInt) := by
    refine strcmpLoop_of_first (Nat.lt_succ_self d) (Or.inr (Or.inr ?_)) fun i hi => ?_
    · rw [Nat.zero_add, h1.read d hd1, h2.read d hd2]
      exact hne
    · rw [Nat.zero_add, h1.read i (by omega), h2.read i (by omega)]
      exact ⟨h1.getD_ne_zero (by omega), hfirst i hi⟩
  rw [strcmp, if_neg (not_or.mpr ⟨h1.ne_null, h2.ne_null⟩), hloop, Nat.zero_add, h1.read d hd1,
    h2.read d hd2]

/-- `strcmp` returns zero on equal strings, once it has compared their zeros, too. -/
theorem strcmp_of_eq (heq : w1 = w2) : strcmp m s1 s2 (w1.length + 1) = some 0 := by
  subst heq
  have hend : w1.getD w1.length 0 = 0 := List.getD_eq_default _ _ le_rfl
  have hloop : strcmpLoop m s1 s2 (w1.length + 1) 0 =
      some ((m (s1 + (0 + w1.length))).toInt - (m (s2 + (0 + w1.length))).toInt) := by
    refine strcmpLoop_of_first (Nat.lt_succ_self _) (Or.inl ?_) fun i hi => ?_
    · rw [Nat.zero_add, h1.read _ le_rfl, hend]
    · rw [Nat.zero_add, h1.read i hi.le, h2.read i hi.le]
      exact ⟨h1.getD_ne_zero hi, rfl⟩
  rw [strcmp, if_neg (not_or.mpr ⟨h1.ne_null, h2.ne_null⟩), hloop, Nat.zero_add, h1.read _ le_rfl,
    h2.read _ le_rfl, Int.sub_self]

/-- **`strncmp`** on strings that differ first at `d`, before `n`. -/
theorem strncmp_of_first {d : ℕ} (hd : d < n) (hd1 : d ≤ w1.length) (hd2 : d ≤ w2.length)
    (hne : w1.getD d 0 ≠ w2.getD d 0) (hfirst : ∀ i < d, w1.getD i 0 = w2.getD i 0) :
    strncmp m s1 s2 n = ((w1.getD d 0).toInt - (w2.getD d 0).toInt, d + 1) := by
  have hloop : strncmpLoop m s1 s2 n 0 =
      ((m (s1 + (0 + d))).toInt - (m (s2 + (0 + d))).toInt, 0 + d + 1) := by
    refine strncmpLoop_of_first hd ?_ fun i hi => ?_
    · rw [Nat.zero_add, h1.read d hd1, h2.read d hd2]
      exact hne
    · rw [Nat.zero_add, h1.read i (by omega), h2.read i (by omega)]
      exact hfirst i hi
  rw [strncmp, if_neg (not_or.mpr ⟨h1.ne_null, h2.ne_null⟩), hloop, Nat.zero_add, h1.read d hd1,
    h2.read d hd2]

/-- `strncmp` on strings that agree on `n` characters, the zeros at their ends included. -/
theorem strncmp_of_agree (hn1 : n ≤ w1.length + 1) (hn2 : n ≤ w2.length + 1)
    (h : ∀ i < n, w1.getD i 0 = w2.getD i 0) : strncmp m s1 s2 n = (0, n) := by
  have hloop : strncmpLoop m s1 s2 n 0 = (0, 0 + n) := by
    refine strncmpLoop_of_agree fun i hi => ?_
    rw [Nat.zero_add, h1.read i (by omega), h2.read i (by omega)]
    exact h i hi
  rw [strncmp, if_neg (not_or.mpr ⟨h1.ne_null, h2.ne_null⟩), hloop, Nat.zero_add]

/-- On equal strings that end before `n` it reads behind their ends. -/
theorem strncmp_reads_of_eq (heq : w1 = w2) (hn : w1.length + 1 < n) :
    w1.length + 1 < (strncmp m s1 s2 n).2 := by
  subst heq
  rw [strncmp, if_neg (not_or.mpr ⟨h1.ne_null, h2.ne_null⟩)]
  have hreads : 0 + (w1.length + 1) < (strncmpLoop m s1 s2 n 0).2 := by
    refine strncmpLoop_reads hn fun i hi => ?_
    rw [Nat.zero_add, h1.read i (by omega), h2.read i (by omega)]
  rwa [Nat.zero_add] at hreads

end Strings

/-! ### The comparison is lawful, or reads on -/

section Lawful

variable (h1 : HoldsString m s1 w1) (h2 : HoldsString m s2 w2)

include h1 h2

/-- Where the strings differ before `n`, or one of them ends there, it does what it should. -/
theorem strncmpLawful_of_first {d : ℕ} (hd : d < n) (hd1 : d ≤ w1.length) (hd2 : d ≤ w2.length)
    (hne : w1.getD d 0 ≠ w2.getD d 0) (hfirst : ∀ i < d, w1.getD i 0 = w2.getD i 0) :
    StrncmpLawful m s1 s2 w1 w2 n := by
  have hres := strncmp_of_first h1 h2 hd hd1 hd2 hne hfirst
  have hcut : ∀ w : List (BitVec 8), ∀ i ≤ d, (w.take n).getD i 0 = w.getD i 0 := fun w i hi => by
    rw [getD_take, if_pos (by omega)]
  refine ⟨?_, fun m' t1 t2 ht1 ht2 => ?_, ?_⟩
  · rw [hres]
    constructor
    · intro hzero
      exact absurd (BitVec.eq_of_toInt_eq (sub_eq_zero.mp hzero)) hne
    · rintro (⟨-, -, hagree⟩ | ⟨heq, -⟩)
      · exact absurd (hagree d hd) hne
      · exact absurd (by rw [heq]) hne
  · have hstr : strcmp m' t1 t2 (d + 1) =
        some (((w1.take n).getD d 0).toInt - ((w2.take n).getD d 0).toInt) := by
      refine strcmp_of_first ht1 ht2 ?_ ?_ ?_ fun i hi => ?_
      · rw [List.length_take]
        omega
      · rw [List.length_take]
        omega
      · rw [hcut w1 d le_rfl, hcut w2 d le_rfl]
        exact hne
      · rw [hcut w1 i hi.le, hcut w2 i hi.le]
        exact hfirst i hi
    refine ⟨d + 1, _, hstr, ?_⟩
    rw [hres, hcut w1 d le_rfl, hcut w2 d le_rfl]
  · rw [hres]
    exact ⟨Nat.succ_le_succ hd1, Nat.succ_le_succ hd2⟩

/-- The strings agree on `n` characters, the zeros at their ends included. -/
theorem strncmpLawful_of_agree (hn1 : n ≤ w1.length + 1) (hn2 : n ≤ w2.length + 1)
    (h : ∀ i < n, w1.getD i 0 = w2.getD i 0)
    (hend : n ≤ w1.length ∧ n ≤ w2.length ∨ w1 = w2 ∧ w1.length < n) :
    StrncmpLawful m s1 s2 w1 w2 n := by
  have hres := strncmp_of_agree h1 h2 hn1 hn2 h
  refine ⟨?_, fun m' t1 t2 ht1 ht2 => ?_, ?_⟩
  · rw [hres]
    refine iff_of_true rfl (hend.imp_left fun ⟨hl1, hl2⟩ => ⟨hl1, hl2, h⟩)
  · have hcut : w1.take n = w2.take n := by
      refine eq_of_agree ht1.ne_zero ht2.ne_zero fun i _ _ => ?_
      rw [getD_take, getD_take]
      split
      · exact h i ‹_›
      · rfl
    refine ⟨_, 0, strcmp_of_eq ht1 ht2 hcut, ?_⟩
    rw [hres]
  · rw [hres]
    exact ⟨hn1, hn2⟩

/-- **`strncmp` compares the first `n` characters** of two strings if and only if the strings differ or
end at `n - 1` at the earliest: it does not stop at a zero that the strings share. -/
theorem strncmpLawful_iff :
    StrncmpLawful m s1 s2 w1 w2 n ↔ w1 ≠ w2 ∨ n ≤ w1.length + 1 := by
  constructor
  · intro hlaw
    by_contra hbad
    push Not at hbad
    have hreads := strncmp_reads_of_eq h1 h2 hbad.1 hbad.2
    exact absurd hlaw.reads.1 (by omega)
  · intro hok
    by_cases heq : w1 = w2
    · have hn := hok.resolve_left (not_not.mpr heq)
      subst heq
      refine strncmpLawful_of_agree h1 h2 hn hn (fun _ _ => rfl) ?_
      rcases Nat.lt_or_ge w1.length n with hlt | hle
      · exact Or.inr ⟨rfl, hlt⟩
      · exact Or.inl ⟨hle, hle⟩
    · obtain ⟨d, hd1, hd2, hne, hfirst⟩ := exists_first_ne h1.ne_zero h2.ne_zero heq
      rcases Nat.lt_or_ge d n with hlt | hge
      · exact strncmpLawful_of_first h1 h2 hlt hd1 hd2 hne hfirst
      · exact strncmpLawful_of_agree h1 h2 (by omega) (by omega) (fun i hi => hfirst i (by omega))
          (Or.inl ⟨by omega, by omega⟩)

end Lawful

/-- The string `ab` at 1, and `a` at 4 and at 6 with other characters behind. -/
def strcmpMem (i : ℕ) : BitVec 8 := [0, 97, 98, 0, 97, 0, 97, 0, 98].getD i 0

theorem strncmpLawful_ab : StrncmpLawful strcmpMem 1 4 [97, 98] [97] 3 :=
  (strncmpLawful_iff ⟨by decide, by decide, by decide⟩ ⟨by decide, by decide, by decide⟩).mpr
    (Or.inl (by decide))

/-- The two strings `a` are not equal for `strncmp` with `n = 4`: it compares what is behind them. -/
theorem not_strncmpLawful : ¬∀ (m : ℕ → BitVec 8) (s1 s2 : ℕ) (w1 w2 : List (BitVec 8)) (n : ℕ),
    HoldsString m s1 w1 → HoldsString m s2 w2 → StrncmpLawful m s1 s2 w1 w2 n := by
  intro h
  have hlaw := h strcmpMem 4 6 [97] [97] 4 ⟨by decide, by decide, by decide⟩
    ⟨by decide, by decide, by decide⟩
  have hzero : (strncmp strcmpMem 4 6 4).1 = 0 := hlaw.zero.mpr (Or.inr ⟨rfl, by decide⟩)
  exact absurd hzero (by decide)

end GeekToyOS
