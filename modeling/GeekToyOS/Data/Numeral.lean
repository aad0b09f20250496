import Mathlib

/-!
# Numerals

A number as text: its digits in a base up to sixteen, a sign, and padding on the left; and the number that
such a text shows. The digits themselves are the standard library's `Nat.toDigits`.

Blanks stand before the sign, zeros behind it, and there are no more of them than it takes to reach the
width.

## Main definitions

* `digitVal`, `ofDigits` — digits back to numbers
* `render zero width neg base n` — a number as text
* `readBack base text` — the number that a text shows
* `Shows base n l` — `l` are the digits of `n`, without leading zeros

## Main results

* `ofDigits_toDigits`, `readBack_render` — reading undoes writing
* `shows_iff` — there is one way to write a number
* `length_render` — the text is as wide as it has to be
-/

namespace Numeral

variable {base n : ℕ}

/-! ### Digits -/

/-- Induction along the digits, from the last one on. -/
theorem digits_induction (hb : 1 < base) {P : ℕ → Prop} (small : ∀ n < base, P n)
    (step : ∀ n, base ≤ n → P (n / base) → P n) (n : ℕ) : P n := by
  induction n using Nat.strong_induction_on with
  | _ n ih =>
    rcases Nat.lt_or_ge n base with h | h
    · exact small n h
    · exact step n h (ih _ (Nat.div_lt_self (by omega) hb))

theorem mem_toDigits (hb : 1 < base) {c : Char} (h : c ∈ Nat.toDigits base n) :
    ∃ d < base, c = Nat.digitChar d := by
  induction n using digits_induction hb with
  | small n hn =>
    rw [Nat.toDigits_of_lt_base hn, List.mem_singleton] at h
    exact ⟨n, hn, h⟩
  | step n hn ih =>
    rw [Nat.toDigits_of_base_le hb hn, List.mem_append, List.mem_singleton] at h
    rcases h with h | h
    · exact ih h
    · exact ⟨_, Nat.mod_lt n (by omega), h⟩

/-- A number that is not zero has no leading zeros. -/
theorem toDigits_head (hb : 1 < base) (hn : 0 < n) :
    ∃ d l, 0 < d ∧ d < base ∧ Nat.toDigits base n = Nat.digitChar d :: l := by
  induction n using digits_induction hb with
  | small n h => exact ⟨n, [], hn, h, Nat.toDigits_of_lt_base h⟩
  | step n h ih =>
    obtain ⟨d, l, hd, hlt, heq⟩ := ih (Nat.div_pos h (by omega))
    refine ⟨d, l ++ [Nat.digitChar (n % base)], hd, hlt, ?_⟩
    rw [Nat.toDigits_of_base_le hb h, heq, List.cons_append]

/-- The value of a digit. -/
def digitVal (c : Char) : ℕ := if c ≤ '9' then c.toNat - 48 else c.toNat - 87

theorem digitVal_digitChar {d : ℕ} (hd : d < 16) : digitVal (Nat.digitChar d) = d := by
  interval_cases d <;> rfl

/-- The number that a sequence of digits shows. -/
def ofDigits (base : ℕ) (l : List Char) : ℕ := l.foldl (fun acc c => acc * base + digitVal c) 0

/-- **Reading digits undoes writing them**, in any base up to 16. -/
theorem ofDigits_toDigits (hb : 1 < base) (hb16 : base ≤ 16) (n : ℕ) :
    ofDigits base (Nat.toDigits base n) = n := by
  induction n using digits_induction hb with
  | small n hn =>
    rw [Nat.toDigits_of_lt_base hn, ofDigits, List.foldl_cons, List.foldl_nil, Nat.zero_mul,
      Nat.zero_add, digitVal_digitChar (by omega)]
  | step n hn ih =>
    have hmod : n % base < base := Nat.mod_lt n (by omega)
    rw [ofDigits] at ih
    rw [Nat.toDigits_of_base_le hb hn, ofDigits, List.foldl_append, ih, List.foldl_cons, List.foldl_nil,
      digitVal_digitChar (by omega), Nat.div_add_mod']

/-- Zeros in front do not change the number that is read. -/
theorem ofDigits_replicate_zero (base k : ℕ) (l : List Char) :
    ofDigits base (List.replicate k '0' ++ l) = ofDigits base l := by
  have hzero : (List.replicate k '0').foldl (fun acc c => acc * base + digitVal c) 0 = 0 := by
    induction k with
    | zero => rfl
    | succ k ih =>
      rw [List.replicate_succ, List.foldl_cons, Nat.zero_mul, Nat.zero_add,
        show digitVal '0' = 0 from rfl]
      exact ih
  rw [ofDigits, ofDigits, List.foldl_append, hzero]

theorem ofDigits_append (base : ℕ) (l : List Char) (c : Char) :
    ofDigits base (l ++ [c]) = ofDigits base l * base + digitVal c := by
  rw [ofDigits, List.foldl_append, List.foldl_cons, List.foldl_nil, ofDigits]

/-- The digits `l` show `n`, and the first is no zero unless it is the only one. -/
structure Shows (base n : ℕ) (l : List Char) : Prop where
  ne_nil : l ≠ []
  digits : ∀ c ∈ l, ∃ d < base, c = Nat.digitChar d
  no_leading : l.head? = some '0' → l = ['0']
  value : ofDigits base l = n

theorem shows_toDigits (hb : 1 < base) (hb16 : base ≤ 16) (n : ℕ) :
    Shows base n (Nat.toDigits base n) := by
  refine ⟨Nat.toDigits_ne_nil, fun c hc => mem_toDigits hb hc, fun hhead => ?_,
    ofDigits_toDigits hb hb16 n⟩
  rcases Nat.eq_zero_or_pos n with rfl | hn
  · exact Nat.toDigits_zero base
  · obtain ⟨d, l, hd, hlt, heq⟩ := toDigits_head hb hn
    rw [heq, List.head?_cons, Option.some.injEq] at hhead
    have hval := congrArg digitVal hhead
    rw [digitVal_digitChar (by omega), show digitVal '0' = 0 from rfl] at hval
    omega

/-- **There is one way to write a number** without zeros in front. -/
theorem shows_iff (hb : 1 < base) (hb16 : base ≤ 16) {l : List Char} :
    Shows base n l ↔ l = Nat.toDigits base n := by
  refine ⟨fun h => ?_, fun h => h ▸ shows_toDigits hb hb16 n⟩
  induction l using List.reverseRecOn generalizing n with
  | nil => exact absurd rfl h.ne_nil
  | append_singleton l c ih =>
    obtain ⟨d, hd, rfl⟩ := h.digits c (List.mem_append_right _ (List.mem_singleton_self c))
    have hval := h.value
    rw [ofDigits_append, digitVal_digitChar (by omega)] at hval
    cases hl : l with
    | nil =>
      rw [hl, show ofDigits base [] = 0 from rfl, Nat.zero_mul, Nat.zero_add] at hval
      rw [← hval, Nat.toDigits_of_lt_base hd, List.nil_append]
    | cons a l' =>
      have hhead : l.head? ≠ some '0' := by
        intro hhead
        have hall := h.no_leading (by rw [List.head?_append, hhead]; rfl)
        have hlen := congrArg List.length hall
        rw [hl, List.length_append] at hlen
        simp only [List.length_cons, List.length_nil] at hlen
        omega
      have hdigits := ih (n := ofDigits base l) ⟨by rw [hl]; exact List.cons_ne_nil _ _,
        fun c hc => h.digits c (List.mem_append_left _ hc), fun hz => absurd hz hhead, rfl⟩
      have hpos : ofDigits base l ≠ 0 := by
        intro hz
        rw [hz, Nat.toDigits_zero] at hdigits
        exact hhead (by rw [hdigits]; rfl)
      have hge : base ≤ n := by
        rw [← hval]
        exact (Nat.le_mul_of_pos_left base (Nat.pos_of_ne_zero hpos)).trans (Nat.le_add_right _ _)
      have hdiv : n / base = ofDigits base l := by
        rw [← hval, Nat.mul_comm, Nat.mul_add_div (by omega), Nat.div_eq_of_lt hd, Nat.add_zero]
      have hmod : n % base = d := by
        rw [← hval, Nat.mul_comm, Nat.mul_add_mod, Nat.mod_eq_of_lt hd]
      rw [← hl, Nat.toDigits_of_base_le hb hge, hdiv, hmod, ← hdigits]

/-! ### Sign and padding -/

/-- The sign. -/
def sign (neg : Bool) : List Char := if neg then ['-'] else []

/-- **A number as text**: padded with zeros behind the sign, or with blanks before it, to `width`
characters at least. -/
def render (zero : Bool) (width : ℕ) (neg : Bool) (base n : ℕ) : List Char :=
  let pad := width - ((sign neg).length + (Nat.toDigits base n).length)
  if zero then sign neg ++ List.replicate pad '0' ++ Nat.toDigits base n
  else List.replicate pad ' ' ++ sign neg ++ Nat.toDigits base n

/-- **The text is as wide as it has to be**, and no wider. -/
theorem length_render (zero : Bool) (width : ℕ) (neg : Bool) (base n : ℕ) :
    (render zero width neg base n).length
      = max width ((sign neg).length + (Nat.toDigits base n).length) := by
  rw [render]
  split
  all_goals
    simp only [List.length_append, List.length_replicate]
    omega

/-- The number that a text shows: blanks are skipped, and a sign is heeded. -/
def readBack (base : ℕ) (text : List Char) : ℤ :=
  match text.dropWhile (· = ' ') with
  | '-' :: l => -(ofDigits base l : ℤ)
  | l => ofDigits base l

theorem readBack_digits {l : List Char} (h : ∀ c ∈ l.head?, c ≠ ' ' ∧ c ≠ '-') :
    readBack base l = ofDigits base l := by
  cases l with
  | nil => rfl
  | cons c l =>
    obtain ⟨hblank, hminus⟩ := h c rfl
    rw [readBack, List.dropWhile_cons_of_neg (by simpa using hblank)]
    split
    · rename_i heq
      exact absurd (List.cons.inj heq).1 hminus
    · rfl

theorem readBack_minus (l : List Char) : readBack base ('-' :: l) = -(ofDigits base l : ℤ) := by
  rw [readBack, List.dropWhile_cons_of_neg (by decide)]
  rfl

theorem readBack_blanks (k : ℕ) (l : List Char) :
    readBack base (List.replicate k ' ' ++ l) = readBack base l := by
  have hdrop : (List.replicate k ' ' ++ l).dropWhile (· = ' ') = l.dropWhile (· = ' ') :=
    List.dropWhile_append_of_pos fun c hc => by simp [List.eq_of_mem_replicate hc]
  rw [readBack, hdrop, readBack]

theorem digitChar_ne {d : ℕ} (hd : d < 16) : Nat.digitChar d ≠ ' ' ∧ Nat.digitChar d ≠ '-' := by
  interval_cases d <;> decide

/-- The digits of a number, with zeros in front, are read back as the number. -/
theorem readBack_toDigits (hb : 1 < base) (hb16 : base ≤ 16) (k n : ℕ) :
    readBack base (List.replicate k '0' ++ Nat.toDigits base n) = n := by
  rw [readBack_digits, ofDigits_replicate_zero, ofDigits_toDigits hb hb16]
  intro c hc
  have hmem := List.mem_of_mem_head? hc
  rcases List.mem_append.mp hmem with hmem | hmem
  · rw [List.eq_of_mem_replicate hmem]
    decide
  · obtain ⟨d, hd, rfl⟩ := mem_toDigits hb hmem
    exact digitChar_ne (by omega)

/-- **Reading a text undoes writing it**, whatever the padding, for either sign. -/
theorem readBack_render (hb : 1 < base) (hb16 : base ≤ 16) (zero : Bool) (width : ℕ) (neg : Bool)
    (n : ℕ) : readBack base (render zero width neg base n) = if neg then -(n : ℤ) else n := by
  have hplain := readBack_toDigits hb hb16 0 n
  rw [List.replicate_zero, List.nil_append] at hplain
  cases zero <;> cases neg
  · simp [render, sign, readBack_blanks, hplain]
  · simp [render, sign, readBack_blanks, readBack_minus, ofDigits_toDigits hb hb16]
  · simp [render, sign, readBack_toDigits hb hb16]
  · simp [render, sign, readBack_minus, ofDigits_replicate_zero, ofDigits_toDigits hb hb16]

end Numeral
