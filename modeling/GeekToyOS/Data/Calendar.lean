import Mathlib

/-!
# The proleptic Gregorian calendar

Years, months and days, and the number of a day counted from the first day of year zero. The number is
defined by adding up the lengths of the years and months before the day, and nothing else; closed forms
are theorems.

Months are counted from zero and days from one.

## Main definitions

* `IsLeap`, `yearLength`, `monthLength`
* `Date`, `Date.Valid`, `Date.number` — a day, and its number
* `Date.ofYear` — the day of the year, from zero
* `Date.weekday` — the day of the week, from Sunday
* `DateTime`, `DateTime.seconds` — seconds since the first second of year zero

## Main results

* `position_unique` — a number has one position in a sequence of blocks
* `daysBeforeYear_eq` — the days before a year in closed form
* `Date.number_injective`, `DateTime.seconds_injective`
-/

namespace Calendar

/-! ### Positions in a sequence of blocks -/

/-- The blocks before block `a` have `offset len a` members together. -/
def offset (len : ℕ → ℕ) (a : ℕ) : ℕ := ∑ i ∈ Finset.range a, len i

@[simp] theorem offset_zero (len : ℕ → ℕ) : offset len 0 = 0 := Finset.sum_range_zero _

theorem offset_succ (len : ℕ → ℕ) (a : ℕ) : offset len (a + 1) = offset len a + len a :=
  Finset.sum_range_succ _ _

theorem offset_mono (len : ℕ → ℕ) {a b : ℕ} (h : a ≤ b) : offset len a ≤ offset len b :=
  Finset.sum_le_sum_of_subset (Finset.range_mono h)

/-- **A number has one position**: at most one section of the sequence holds it, and there at one place. -/
theorem position_unique (len : ℕ → ℕ) {a b r s : ℕ} (h : offset len a + r = offset len b + s)
    (hr : r < len a) (hs : s < len b) : a = b ∧ r = s := by
  have hle : ∀ {a b r s : ℕ}, offset len a + r = offset len b + s → s < len b → a ≤ b := by
    intro a b r s h hs
    by_contra hlt
    have hnext : offset len (b + 1) ≤ offset len a := offset_mono len (by omega)
    rw [offset_succ] at hnext
    omega
  obtain rfl : a = b := le_antisymm (hle h hs) (hle h.symm hr)
  exact ⟨rfl, by omega⟩

/-! ### Years and months -/

/-- Leap years. -/
def IsLeap (y : ℕ) : Prop := 4 ∣ y ∧ ¬ 100 ∣ y ∨ 400 ∣ y

instance IsLeap.instDecidable (y : ℕ) : Decidable (IsLeap y) :=
  inferInstanceAs (Decidable (_ ∧ _ ∨ _))

def yearLength (y : ℕ) : ℕ := if IsLeap y then 366 else 365

/-- The length of a month; January is month zero. -/
def monthLength (y m : ℕ) : ℕ :=
  if m = 1 then if IsLeap y then 29 else 28
  else if m = 3 ∨ m = 5 ∨ m = 8 ∨ m = 10 then 30 else 31

/-- The days before a year. -/
def daysBeforeYear (y : ℕ) : ℕ := offset yearLength y

/-- The days of the year before a month. -/
def daysBeforeMonth (y m : ℕ) : ℕ := offset (monthLength y) m

theorem yearLength_of_mod (y : ℕ) : yearLength y =
    365 + (if y % 4 = 0 then 1 else 0) - (if y % 100 = 0 then 1 else 0)
      + (if y % 400 = 0 then 1 else 0) := by
  rw [yearLength]
  simp only [IsLeap, Nat.dvd_iff_mod_eq_zero]
  split_ifs <;> omega

/-- **The days before a year in closed form**: 365 for each year and one for each leap year. -/
theorem daysBeforeYear_eq (y : ℕ) :
    daysBeforeYear y + (y + 99) / 100 = 365 * y + (y + 3) / 4 + (y + 399) / 400 := by
  induction y with
  | zero => rfl
  | succ y ih =>
    rw [daysBeforeYear, offset_succ, yearLength_of_mod]
    rw [daysBeforeYear] at ih
    split_ifs <;> omega

theorem daysBeforeYear_succ (y : ℕ) : daysBeforeYear (y + 1) = daysBeforeYear y + yearLength y :=
  offset_succ _ y

/-- The days up to the end of a year, in closed form. -/
theorem daysBeforeYear_succ_eq (y : ℕ) :
    daysBeforeYear (y + 1) + y / 100 = 365 * (y + 1) + y / 4 + y / 400 + 1 := by
  have := daysBeforeYear_eq (y + 1)
  rw [show (y + 1 + 99) / 100 = y / 100 + 1 by omega, show (y + 1 + 3) / 4 = y / 4 + 1 by omega,
    show (y + 1 + 399) / 400 = y / 400 + 1 by omega] at this
  omega

theorem daysBeforeMonth_succ (y m : ℕ) :
    daysBeforeMonth y (m + 1) = daysBeforeMonth y m + monthLength y m := offset_succ _ m

/-- The twelve months make up the year. -/
theorem daysBeforeMonth_twelve (y : ℕ) : daysBeforeMonth y 12 = yearLength y := by
  rw [daysBeforeMonth, offset, yearLength]
  by_cases h : IsLeap y <;> simp [Finset.sum_range_succ, monthLength, h]

/-- Before February there are the 31 days of January, whatever the year. -/
theorem daysBeforeMonth_of_lt {y m : ℕ} (hm : m < 2) : daysBeforeMonth y m = 31 * m := by
  rw [daysBeforeMonth, offset]
  interval_cases m <;> simp [monthLength]

/-- **From March on** the lengths of months are the differences of `367 * m / 12`. -/
theorem daysBeforeMonth_of_ge {y m : ℕ} (hm : 2 ≤ m) (hm' : m ≤ 12) :
    daysBeforeMonth y m + 365 = 367 * (m - 1) / 12 + 29 + yearLength y := by
  induction m, hm using Nat.le_induction with
  | base =>
    rw [daysBeforeMonth_succ, daysBeforeMonth_of_lt (by norm_num), monthLength, yearLength, if_pos rfl]
    split_ifs <;> rfl
  | succ m hm ih =>
    have hlt : m < 12 := hm'
    have hlen : monthLength y m + 367 * (m - 1) / 12 = 367 * m / 12 := by
      rw [monthLength, if_neg (by omega)]
      interval_cases m <;> rfl
    have := ih (by omega)
    rw [daysBeforeMonth_succ, Nat.add_sub_cancel]
    omega

/-! ### Dates -/

/-- A day. -/
structure Date where
  year : ℕ
  /-- from zero -/
  month : ℕ
  /-- from one -/
  day : ℕ
deriving DecidableEq, Repr

namespace Date

/-- The day exists. -/
structure Valid (d : Date) : Prop where
  month_lt : d.month < 12
  one_le : 1 ≤ d.day
  day_le : d.day ≤ monthLength d.year d.month

/-- The day of the year, from zero. -/
def ofYear (d : Date) : ℕ := daysBeforeMonth d.year d.month + (d.day - 1)

/-- The number of the day, counted from the first day of year zero. -/
def number (d : Date) : ℕ := daysBeforeYear d.year + d.ofYear

/-- The day of the week, from Sunday; the first day of year zero is a Saturday. -/
def weekday (d : Date) : ℕ := (d.number + 6) % 7

variable {d e : Date}

theorem Valid.ofYear_lt (h : d.Valid) : d.ofYear < yearLength d.year := by
  have hmono : daysBeforeMonth d.year (d.month + 1) ≤ daysBeforeMonth d.year 12 :=
    offset_mono _ h.month_lt
  rw [daysBeforeMonth_twelve, daysBeforeMonth_succ] at hmono
  have := h.one_le
  have := h.day_le
  rw [ofYear]
  omega

/-- **A day is determined by its number**: no two valid days have the same one. -/
theorem number_injective (hd : d.Valid) (he : e.Valid) (h : d.number = e.number) : d = e := by
  obtain ⟨hyear, hday⟩ := position_unique yearLength h hd.ofYear_lt he.ofYear_lt
  have hd1 := hd.one_le
  have he1 := he.one_le
  have hdl := hd.day_le
  have hel := he.day_le
  cases d with | mk y m a =>
  cases e with | mk y' m' a' =>
  dsimp only [ofYear] at *
  subst hyear
  obtain ⟨hmonth, hday⟩ := position_unique (monthLength y) hday (by omega) (by omega)
  subst hmonth
  rw [show a = a' by omega]

end Date

/-! ### Dates and times -/

/-- A second. -/
structure DateTime where
  date : Date
  hour : ℕ
  min : ℕ
  sec : ℕ
deriving DecidableEq, Repr

namespace DateTime

/-- The second exists. -/
structure Valid (c : DateTime) : Prop where
  date : c.date.Valid
  hour_lt : c.hour < 24
  min_lt : c.min < 60
  sec_lt : c.sec < 60

/-- Seconds since the first second of year zero. -/
def seconds (c : DateTime) : ℕ := ((c.date.number * 24 + c.hour) * 60 + c.min) * 60 + c.sec

/-- **A second is determined by its number**: no two valid times have the same one. -/
theorem seconds_injective {c e : DateTime} (hc : c.Valid) (he : e.Valid)
    (h : c.seconds = e.seconds) : c = e := by
  obtain ⟨hcd, hch, hcm, hcs⟩ := hc
  obtain ⟨hed, heh, hem, hes⟩ := he
  cases c with | mk d hh mm ss =>
  cases e with | mk d' hh' mm' ss' =>
  dsimp only [seconds] at *
  obtain rfl : ss = ss' := by omega
  obtain rfl : mm = mm' := by omega
  obtain rfl : hh = hh' := by omega
  rw [Date.number_injective hcd hed (by omega)]

end DateTime

end Calendar
