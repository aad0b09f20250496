import GeekToyOS.Data.Calendar

/-!
# Timestamps and dates

`mktime` and `gmtime` of `src/lib/time.c`, and what they are for: a timestamp is a number of seconds since
the first second of 1970, and a date-time one of the Gregorian calendar.

Two algorithms have to agree. `mktime` starts the year in March and adds up quotients; `gmtime` divides
by the length of four years, corrects for the centuries, and searches for the year and the month. Both
are compared with the calendar that adds up the lengths of years and months.

## Main definitions

* `Tm`, `mktime`, `_gmtime`, `gmtime`, `localtime`
* `Tm.Shows tm c` — the fields are those of the date-time `c`
* `epoch` — the first second of 1970

## Main results

* `yearLoop_spec`, `monthLoop_spec` — what the two searches find
* `mktime_eq` — the timestamp of a date-time
* `gmtime_spec` — the date-time of a timestamp
* `gmtime_mktime` — both are right, and inverse to each other
* `showsLocal_iff` — where `localtime` is right
-/

namespace GeekToyOS

open Calendar

/-- Conversion to `unsigned int`. -/
def toU32 (x : ℤ) : ℕ := (x % 2 ^ 32).toNat

/-- Conversion to `unsigned long`. -/
def toU64 (x : ℤ) : ℕ := (x % 2 ^ 64).toNat

/-- Conversion of an `unsigned int` to `int`. -/
def toInt32 (x : ℕ) : ℤ := if x < 2 ^ 31 then x else x - 2 ^ 32

/-- `struct tm`, the fields that `time.c` works on. -/
structure Tm where
  tmSec : ℤ
  tmMin : ℤ
  tmHour : ℤ
  tmMday : ℤ
  tmMon : ℤ
  /-- the year less 1900 -/
  tmYear : ℤ
  tmWday : ℤ
  tmYday : ℤ
  /-- `__tm_gmtoff`, seconds east of UTC -/
  tmGmtoff : ℤ
deriving DecidableEq, Repr

/-- `mktime`. -/
def mktime (time : Tm) : ℕ :=
  let mon := toU32 (time.tmMon + 1)
  let year := toU32 (time.tmYear + 1900)
  let day := toU32 time.tmMday
  let hour := toU32 time.tmHour
  let min := toU32 time.tmMin
  let sec := toU32 time.tmSec
  let mon := toU32 (mon - 2)
  -- February comes last, since it has the leap day
  let (mon, year) :=
    if 0 ≥ toInt32 mon then (toU32 (mon + 12), toU32 (year - 1)) else (mon, year)
  let days := toU32 ((year / 4 : ℕ) - (year / 100 : ℕ) + (year / 400 : ℕ)
    + (toU32 (367 * mon) / 12 : ℕ) + day)
  let days := toU64 (days + toU32 (year * 365) - 719499)
  toU32 (toU64 (((days * 24 + hour) * 60 + min) * 60 + sec - time.tmGmtoff))

/-- The condition for a leap year in `_gmtime`, where years count from 1900. -/
def leapYear (year : ℕ) : Bool :=
  decide (year % 4 = 0) && decide (year % 100 ≠ 0) || decide ((year + 300) % 400 = 0)

/-- `ydays`. -/
def ydays (year : ℕ) : ℕ := 365 + (leapYear year).toNat

/-- The search for the year: `while(ydays <= localtime)`. Each round takes a day off at least, so
`localtime` rounds are enough. -/
def yearLoop : ℕ → ℕ → ℕ → ℕ × ℕ
  | 0, localtime, year => (localtime, year)
  | n + 1, localtime, year =>
    if ydays year ≤ localtime then yearLoop n (localtime - ydays year) (year + 1)
    else (localtime, year)

/-- `Days`. -/
def daysTable : List ℕ := [31, 28, 31, 30, 31, 30, 31, 31, 30, 31, 30, 31]

/-- `mdays`; there is none for a month that `Days` does not have. -/
def mdays (leapyear : Bool) (mon : ℕ) : Option ℕ :=
  daysTable[mon]?.map (· + (leapyear && decide (mon = 1)).toNat)

/-- The search for the month: `while (mdays <= localtime)`. It has no outcome if it leaves `Days`, which
twelve rounds do. -/
def monthLoop : ℕ → Bool → ℕ → ℕ → Option (ℕ × ℕ)
  | 0, _, _, _ => none
  | n + 1, leapyear, localtime, mon =>
    (mdays leapyear mon).bind fun days =>
      if days ≤ localtime then monthLoop n leapyear (localtime - days) (mon + 1)
      else some (localtime, mon)

/-- `_gmtime`. -/
def _gmtime (timestamp : ℕ) (tmTime : Tm) : Option Tm :=
  let localtime := toU32 (timestamp + tmTime.tmGmtoff)
  let sec := localtime % 60
  let localtime := localtime / 60
  let min := localtime % 60
  let localtime := localtime / 60
  let hour := localtime % 24
  let localtime := localtime / 24
  let wday := (toInt32 (toU32 (localtime + 4))).tmod 7
  let localtime := toU32 (localtime + 25567)
  let year := toU32 ((localtime / 1461) <<< 2 : ℕ)
  let localtime := toU32 ((localtime % 1461 : ℕ)
    + (((year + 99) / 100 : ℕ) - ((year + 299) / 400 : ℕ)))
  let (localtime, year) := yearLoop localtime localtime year
  (monthLoop 12 (leapYear year) localtime 0).map fun (mday, mon) =>
    { tmTime with
      tmSec := sec
      tmMin := min
      tmHour := hour
      tmWday := wday
      tmYear := year
      tmYday := localtime
      tmMon := mon
      tmMday := mday + 1 }

/-- `gmtime`. -/
def gmtime (timestamp : ℕ) (tmTime : Tm) : Option Tm :=
  _gmtime timestamp { tmTime with tmGmtoff := 0 }

/-- `localtime`; `LOCAL_TIMEZONE` is `+8`. -/
def localtime (timestamp : ℕ) (tmTime : Tm) : Option Tm :=
  _gmtime timestamp { tmTime with tmGmtoff := 8 * 3600 }

/-! ### What they are for -/

/-- **The fields show the date-time `c`.** -/
structure Tm.Shows (tm : Tm) (c : DateTime) : Prop where
  year : tm.tmYear + 1900 = c.date.year
  month : tm.tmMon = c.date.month
  day : tm.tmMday = c.date.day
  hour : tm.tmHour = c.hour
  min : tm.tmMin = c.min
  sec : tm.tmSec = c.sec

/-- The first second of 1970. -/
def epoch : DateTime := ⟨⟨1970, 0, 1⟩, 0, 0, 0⟩

theorem toU32_natCast {x : ℕ} (h : x < 2 ^ 32) : toU32 x = x := by
  rw [toU32]
  omega

/-- The number of days before the year 1970. -/
theorem daysBeforeYear_epoch : daysBeforeYear 1970 = 719528 := by
  have := daysBeforeYear_eq 1970
  omega

theorem epoch_number : epoch.date.number = 719528 := by
  rw [Date.number, Date.ofYear, epoch]
  dsimp only
  rw [daysBeforeYear_epoch, daysBeforeMonth, offset_zero]

theorem epoch_seconds : epoch.seconds = 719528 * 86400 := by
  rw [DateTime.seconds, epoch_number]
  rfl

/-! ### The searches -/

theorem leapYear_iff (year : ℕ) : leapYear year = true ↔ IsLeap (1900 + year) := by
  simp only [leapYear, Bool.or_eq_true, Bool.and_eq_true, decide_eq_true_eq, IsLeap,
    Nat.dvd_iff_mod_eq_zero]
  omega

theorem ydays_eq (year : ℕ) : ydays year = yearLength (1900 + year) := by
  rw [ydays, yearLength]
  by_cases h : leapYear year = true
  · rw [h, if_pos ((leapYear_iff year).mp h)]
    rfl
  · rw [if_neg fun hl => h ((leapYear_iff year).mpr hl), Bool.eq_false_iff.mpr h]
    rfl

/-- **What the search for the year finds**: the year that the day is in. -/
theorem yearLoop_spec : ∀ (n localtime year : ℕ), localtime ≤ n →
    ∃ yday year', yearLoop n localtime year = (yday, year') ∧ yday < yearLength (1900 + year') ∧
      daysBeforeYear (1900 + year') + yday = daysBeforeYear (1900 + year) + localtime := by
  intro n
  induction n with
  | zero =>
    intro localtime year hn
    refine ⟨localtime, year, rfl, ?_, rfl⟩
    rw [← ydays_eq, ydays]
    omega
  | succ n ih =>
    intro localtime year hn
    rw [yearLoop]
    by_cases hle : ydays year ≤ localtime
    · have hpos : 0 < ydays year := by
        rw [ydays]
        omega
      obtain ⟨yday, year', hloop, hlt, hsum⟩ := ih (localtime - ydays year) (year + 1) (by omega)
      have hnext : daysBeforeYear (1900 + year + 1) = daysBeforeYear (1900 + year) + ydays year := by
        rw [ydays_eq]
        exact offset_succ _ _
      rw [← Nat.add_assoc, hnext] at hsum
      rw [if_pos hle]
      exact ⟨yday, year', hloop, hlt, by omega⟩
    · rw [if_neg hle]
      exact ⟨localtime, year, rfl, by rw [← ydays_eq]; omega, rfl⟩

theorem mdays_eq {leapyear : Bool} {y mon : ℕ} (hleap : leapyear = true ↔ IsLeap y) (hmon : mon < 12) :
    mdays leapyear mon = some (monthLength y mon) := by
  have hl : (if IsLeap y then 29 else 28) = 28 + leapyear.toNat := by
    cases leapyear
    · rw [if_neg fun h => Bool.false_ne_true (hleap.mpr h)]
      rfl
    · rw [if_pos (hleap.mp rfl)]
      rfl
  rw [mdays, monthLength, hl]
  interval_cases mon <;> simp [daysTable]

/-- **What the search for the month finds**: the month that the day is in. -/
theorem monthLoop_spec {leapyear : Bool} {y : ℕ} (hleap : leapyear = true ↔ IsLeap y) :
    ∀ (n localtime mon : ℕ), n + mon = 12 → daysBeforeMonth y mon + localtime < yearLength y →
    ∃ r mon', monthLoop n leapyear localtime mon = some (r, mon') ∧ mon' < 12 ∧
      r < monthLength y mon' ∧ daysBeforeMonth y mon' + r = daysBeforeMonth y mon + localtime := by
  intro n
  induction n with
  | zero =>
    intro localtime mon hmon hlt
    obtain rfl : mon = 12 := by omega
    rw [daysBeforeMonth_twelve] at hlt
    omega
  | succ n ih =>
    intro localtime mon hmon hlt
    rw [monthLoop, mdays_eq hleap (by omega), Option.bind_some]
    by_cases hle : monthLength y mon ≤ localtime
    · have hnext := daysBeforeMonth_succ y mon
      obtain ⟨r, mon', hloop, hlt', hr, hsum⟩ := ih (localtime - monthLength y mon) (mon + 1)
        (by omega) (by omega)
      rw [if_pos hle]
      exact ⟨r, mon', hloop, hlt', hr, by omega⟩
    · rw [if_neg hle]
      exact ⟨localtime, mon, rfl, by omega, by omega, rfl⟩

/-! ### `mktime` -/

/-- The number of a date by the formula of `mktime`, with years that start in March. -/
theorem number_eq_march {d : Date} (h : d.Valid) {year mon : ℕ}
    (hpos : d.month < 2 → year + 1 = d.year ∧ mon = d.month + 11)
    (hneg : 2 ≤ d.month → year = d.year ∧ mon + 1 = d.month) :
    d.number + year / 100 = year / 4 + year / 400 + 367 * mon / 12 + d.day + year * 365 + 29 := by
  have hday := h.one_le
  have hmonth := h.month_lt
  rw [Date.number, Date.ofYear]
  rcases Nat.lt_or_ge d.month 2 with hm | hm
  · obtain ⟨hyear, rfl⟩ := hpos hm
    have hclosed := daysBeforeYear_succ_eq year
    rw [hyear] at hclosed
    rw [daysBeforeMonth_of_lt hm]
    interval_cases d.month <;> omega
  · obtain ⟨rfl, hmon⟩ := hneg hm
    have hclosed := daysBeforeYear_succ_eq d.year
    have hdays := daysBeforeMonth_of_ge (y := d.year) hm (Nat.le_of_lt hmonth)
    rw [daysBeforeYear_succ] at hclosed
    rw [show d.month - 1 = mon by omega] at hdays
    omega

/-- The year of a date whose timestamp fits into 32 bits. -/
theorem year_mem {c : DateTime} (hc : c.Valid) {t : ℕ} (ht : c.seconds = epoch.seconds + t)
    (hlt : t < 2 ^ 32) : 1970 ≤ c.date.year ∧ c.date.year < 2200 := by
  obtain ⟨hd, hh, hm, hs⟩ := hc
  rw [DateTime.seconds, epoch_seconds] at ht
  have hday := hd.ofYear_lt
  have hnum : c.date.number = daysBeforeYear c.date.year + c.date.ofYear := rfl
  constructor
  · by_contra hy
    have hmono : daysBeforeYear (c.date.year + 1) ≤ daysBeforeYear 1970 :=
      offset_mono yearLength (by omega)
    rw [daysBeforeYear_epoch, daysBeforeYear_succ] at hmono
    omega
  · have hclosed := daysBeforeYear_eq c.date.year
    omega

/-- The month and the year as `mktime` counts them, with February at the end of the year. -/
theorem march_eq {y m : ℕ} (hm : m < 12) (hy : 1 ≤ y) (hy' : y < 2 ^ 32) :
    (if 0 ≥ toInt32 (toU32 ((m + 1 : ℕ) - 2)) then
      (toU32 (toU32 ((m + 1 : ℕ) - 2) + 12), toU32 (y - 1)) else (toU32 ((m + 1 : ℕ) - 2), y))
      = if m < 2 then (m + 11, y - 1) else (m - 1, y) := by
  have hyear : toU32 (y - 1) = y - 1 := by
    rw [toU32]
    omega
  rw [hyear]
  rcases Nat.lt_or_ge m 2 with h | h
  · rw [if_pos h]
    interval_cases m <;> rfl
  · have hmon : toU32 ((m + 1 : ℕ) - 2) = m - 1 := by
      rw [toU32]
      omega
    rw [hmon, if_neg (show ¬ m < 2 by omega), if_neg]
    rw [toInt32, if_pos (by omega)]
    omega

/-- **The timestamp of a date-time**, less the offset. -/
theorem mktime_eq_sub {tm : Tm} {c : DateTime} (hs : tm.Shows c) (hc : c.Valid)
    {t : ℕ} (ht : c.seconds = epoch.seconds + t) (hlt : t < 2 ^ 32) :
    mktime tm = toU32 (t - tm.tmGmtoff) := by
  obtain ⟨hy, hy'⟩ := year_mem hc ht hlt
  obtain ⟨hd, hh, hm, hss⟩ := hc
  have hmonth := hd.month_lt
  have hday : c.date.day ≤ 31 := by
    have := hd.day_le
    rw [monthLength] at this
    split_ifs at this <;> omega
  have h1 : toU32 (tm.tmMon + 1) = c.date.month + 1 := by
    rw [hs.month]
    exact_mod_cast toU32_natCast (x := c.date.month + 1) (by omega)
  have h2 : toU32 (tm.tmYear + 1900) = c.date.year := by
    rw [hs.year]
    exact toU32_natCast (by omega)
  have h3 : toU32 tm.tmMday = c.date.day := by
    rw [hs.day]
    exact toU32_natCast (by omega)
  have h4 : toU32 tm.tmHour = c.hour := by
    rw [hs.hour]
    exact toU32_natCast (by omega)
  have h5 : toU32 tm.tmMin = c.min := by
    rw [hs.min]
    exact toU32_natCast (by omega)
  have h6 : toU32 tm.tmSec = c.sec := by
    rw [hs.sec]
    exact toU32_natCast (by omega)
  rw [mktime, h1, h2, h3, h4, h5, h6]
  simp only [march_eq hmonth (show 1 ≤ c.date.year by omega) (show c.date.year < 2 ^ 32 by omega)]
  obtain ⟨mon, year, hshift, hmon, hyear, hmarch⟩ : ∃ mon year,
      (if c.date.month < 2 then (c.date.month + 11, c.date.year - 1)
        else (c.date.month - 1, c.date.year)) = (mon, year) ∧ mon ≤ 12 ∧ year < 2200 ∧
      c.date.number + year / 100 = year / 4 + year / 400 + 367 * mon / 12 + c.date.day + year * 365 + 29 := by
    rcases Nat.lt_or_ge c.date.month 2 with h | h
    · exact ⟨_, _, if_pos h, by omega, by omega, number_eq_march hd (by omega) (by omega)⟩
    · exact ⟨_, _, if_neg (by omega), by omega, by omega, number_eq_march hd (by omega) (by omega)⟩
  rw [hshift]
  dsimp only
  rw [DateTime.seconds, epoch_seconds] at ht
  have hmul : toU32 (367 * mon) = 367 * mon := by
    rw [toU32]
    omega
  have hdays : toU32 (year * 365) = year * 365 := by
    rw [toU32]
    omega
  have hsum : (toU32 ((year / 4 : ℕ) - (year / 100 : ℕ) + (year / 400 : ℕ)
      + (toU32 (367 * mon) / 12 : ℕ) + c.date.day) : ℤ) = c.date.number - year * 365 - 29 := by
    rw [hmul, toU32]
    omega
  have hnum : (toU64 (c.date.number - year * 365 - 29 + (year * 365 : ℕ) - 719499) : ℤ)
      = c.date.number - 719528 := by
    rw [toU64]
    omega
  rw [hsum, hdays, hnum, toU32, toU32, toU64]
  omega

/-- **`mktime` gives the timestamp of a date-time**, if it fits 32 bits. -/
theorem mktime_eq {tm : Tm} {c : DateTime} (hs : tm.Shows c) (hc : c.Valid) (hoff : tm.tmGmtoff = 0)
    {t : ℕ} (ht : c.seconds = epoch.seconds + t) (hlt : t < 2 ^ 32) : mktime tm = t := by
  rw [mktime_eq_sub hs hc ht hlt, hoff, sub_zero, toU32_natCast hlt]

/-! ### `gmtime` -/

/-- Where the search for the year starts: the day counted from the first day of the four years, with
the days that the centuries before them are short of. -/
theorem year_start (days : ℕ) : ∃ year offset, (((days + 25567) / 1461) <<< 2) = year ∧
    ((days + 25567) % 1461 : ℕ) + (((year + 99) / 100 : ℕ) - ((year + 299) / 400 : ℕ) : ℤ) = (offset : ℕ) ∧
    offset ≤ days + 25567 + year ∧
    daysBeforeYear (1900 + year) + offset = daysBeforeYear 1970 + days := by
  obtain ⟨q, r, hq, hr, hdiv⟩ : ∃ q r, (days + 25567) / 1461 = q ∧ (days + 25567) % 1461 = r ∧
      days + 25567 = 1461 * q + r := ⟨_, _, rfl, rfl, (Nat.div_add_mod _ _).symm⟩
  obtain ⟨a, ha⟩ : ∃ a, (4 * q + 99) / 100 = a := ⟨_, rfl⟩
  obtain ⟨b, hb⟩ : ∃ b, (4 * q + 299) / 400 = b := ⟨_, rfl⟩
  have hba : b ≤ a := by omega
  have haq : a ≤ q + 1 := by omega
  have hclosed := daysBeforeYear_eq (1900 + 4 * q)
  rw [show (1900 + 4 * q + 99) / 100 = 19 + a by omega,
    show (1900 + 4 * q + 3) / 4 = 475 + q by omega,
    show (1900 + 4 * q + 399) / 400 = 5 + b by omega] at hclosed
  rw [hq, hr, daysBeforeYear_epoch]
  refine ⟨4 * q, r + (a - b), ?_, ?_, ?_, ?_⟩
  · rw [Nat.shiftLeft_eq, Nat.mul_comm]
  · rw [ha, hb]
    omega
  · omega
  · omega

/-- **What `_gmtime` sets**: the date-time of the timestamp with the offset added, on 32 bits. -/
theorem _gmtime_spec {s t : ℕ} {tmTime : Tm} (ht : t < 2 ^ 32)
    (hoffset : toU32 (s + tmTime.tmGmtoff) = t) :
    ∃ tm c, _gmtime s tmTime = some tm ∧ c.Valid ∧ c.seconds = epoch.seconds + t ∧ tm.Shows c ∧
      tm.tmWday = c.date.weekday ∧ tm.tmYday = c.date.ofYear ∧ tm.tmGmtoff = tmTime.tmGmtoff := by
  obtain ⟨days, hdays⟩ : ∃ days, t / 60 / 60 / 24 = days := ⟨_, rfl⟩
  obtain ⟨year₀, off, hyear₀, hoff, hle, hstart⟩ := year_start days
  obtain ⟨yday, year, hloop, hlt, hsum⟩ := yearLoop_spec off off year₀ le_rfl
  have hbefore : daysBeforeMonth (1900 + year) 0 = 0 := offset_zero _
  obtain ⟨r, mon, hmonth, hmon, hr, hmsum⟩ := monthLoop_spec (leapYear_iff year) 12 yday 0 rfl
    (by omega)
  have h2 : toU32 ((days : ℤ) + 25567) = days + 25567 := by
    rw [toU32]
    omega
  have h3 : toU32 ((year₀ : ℕ) : ℤ) = year₀ := toU32_natCast (by rw [Nat.shiftLeft_eq] at hyear₀; omega)
  have h4 : toU32 ((off : ℕ) : ℤ) = off := toU32_natCast (by rw [Nat.shiftLeft_eq] at hyear₀; omega)
  have h5 : (toInt32 (toU32 ((days : ℤ) + 4))).tmod 7 = ((days + 4) % 7 : ℕ) := by
    have : toU32 ((days : ℤ) + 4) = days + 4 := by
      rw [toU32]
      omega
    rw [this, toInt32, if_pos (by omega), Int.tmod_eq_emod_of_nonneg (by omega)]
    omega
  have hvalid : Date.Valid ⟨1900 + year, mon, r + 1⟩ := ⟨hmon, Nat.le_add_left 1 r, hr⟩
  have hofYear : Date.ofYear ⟨1900 + year, mon, r + 1⟩ = yday := by
    rw [Date.ofYear]
    dsimp only
    omega
  have hnumber : Date.number ⟨1900 + year, mon, r + 1⟩ = 719528 + days := by
    rw [Date.number, hofYear, hsum, hstart, daysBeforeYear_epoch]
  refine ⟨⟨(t % 60 : ℕ), (t / 60 % 60 : ℕ), (t / 60 / 60 % 24 : ℕ), (r : ℤ) + 1, mon, year,
    ((days + 4) % 7 : ℕ), yday, tmTime.tmGmtoff⟩,
    ⟨⟨1900 + year, mon, r + 1⟩, t / 60 / 60 % 24, t / 60 % 60, t % 60⟩, ?_,
    ⟨hvalid, Nat.mod_lt _ (by norm_num), Nat.mod_lt _ (by norm_num), Nat.mod_lt _ (by norm_num)⟩,
    ?_, ⟨?_, rfl, ?_, rfl, rfl, rfl⟩, ?_, by rw [hofYear], rfl⟩
  · simp only [_gmtime, hoffset, hdays, h2, hyear₀, h3, hoff, h4, hloop, hmonth, h5,
      Option.map_some]
  · rw [DateTime.seconds, hnumber, epoch_seconds]
    dsimp only
    omega
  · push_cast
    ring
  · push_cast
    ring
  · rw [Date.weekday, hnumber]
    dsimp only
    omega

/-- **`gmtime` gives the date-time of a timestamp**, with the day of the week and of the year. -/
theorem gmtime_spec {t : ℕ} (ht : t < 2 ^ 32) (tmTime : Tm) :
    ∃ tm c, gmtime t tmTime = some tm ∧ c.Valid ∧ c.seconds = epoch.seconds + t ∧ tm.Shows c ∧
      tm.tmWday = c.date.weekday ∧ tm.tmYday = c.date.ofYear ∧ tm.tmGmtoff = 0 :=
  _gmtime_spec ht (by rw [add_zero, toU32_natCast ht])

/-- **Both are right, and inverse to each other.** The date-time of a timestamp is the one that many
seconds after the epoch, weekday and day of the year included, and has that timestamp; the timestamp of a
date-time has that date-time. -/
theorem gmtime_mktime :
    (∀ t < 2 ^ 32, ∀ tmTime : Tm, ∃ tm c, gmtime t tmTime = some tm ∧ c.Valid ∧
      c.seconds = epoch.seconds + t ∧ tm.Shows c ∧ tm.tmWday = c.date.weekday ∧
      tm.tmYday = c.date.ofYear ∧ mktime tm = t) ∧
    ∀ (tm : Tm) (c : DateTime) (t : ℕ), c.Valid → tm.Shows c → tm.tmGmtoff = 0 →
      c.seconds = epoch.seconds + t → t < 2 ^ 32 →
      ∃ tm', gmtime (mktime tm) tm = some tm' ∧ tm'.Shows c := by
  refine ⟨fun t ht tmTime => ?_, fun tm c t hc hs hoff hsec ht => ?_⟩
  · obtain ⟨tm, c, hgm, hc, hsec, hs, hwday, hyday, hoff⟩ := gmtime_spec ht tmTime
    exact ⟨tm, c, hgm, hc, hsec, hs, hwday, hyday, mktime_eq hs hc hoff hsec ht⟩
  · rw [mktime_eq hs hc hoff hsec ht]
    obtain ⟨tm', c', hgm, hc', hsec', hs', -⟩ := gmtime_spec ht tm
    obtain rfl : c' = c := DateTime.seconds_injective hc' hc (hsec'.trans hsec.symm)
    exact ⟨tm', hgm, hs'⟩

/-- The last day of February 2000, there and back. -/
theorem gmtime_mktime_leapDay : ∃ tm c, gmtime 951782400 ⟨0, 0, 0, 0, 0, 0, 0, 0, 0⟩ = some tm ∧
    tm.Shows c ∧ tm.tmMon = 1 ∧ tm.tmMday = 29 ∧ tm.tmYear = 100 ∧ mktime tm = 951782400 := by
  have hgm : gmtime 951782400 ⟨0, 0, 0, 0, 0, 0, 0, 0, 0⟩ = some ⟨0, 0, 0, 29, 1, 100, 2, 59, 0⟩ := by
    decide +kernel
  obtain ⟨tm, c, htm, -, -, hs, -, -, hmk⟩ :=
    gmtime_mktime.1 951782400 (by norm_num) ⟨0, 0, 0, 0, 0, 0, 0, 0, 0⟩
  obtain rfl := Option.some.inj (hgm.symm.trans htm)
  exact ⟨_, c, htm, hs, rfl, rfl, rfl, hmk⟩

/-! ### `localtime` -/

/-- The fields of a `struct tm` show one date-time only. -/
theorem Tm.Shows.unique {tm : Tm} {c c' : DateTime} (h : tm.Shows c) (h' : tm.Shows c') : c = c' := by
  obtain ⟨hy, hm, hd, hh, hmi, hs⟩ := h
  obtain ⟨hy', hm', hd', hh', hmi', hs'⟩ := h'
  cases c with | mk d hour min sec =>
  cases c' with | mk d' hour' min' sec' =>
  cases d with | mk year month day =>
  cases d' with | mk year' month' day' =>
  dsimp only at *
  obtain rfl : year = year' := by omega
  obtain rfl : month = month' := by omega
  obtain rfl : day = day' := by omega
  obtain rfl : hour = hour' := by omega
  obtain rfl : min = min' := by omega
  obtain rfl : sec = sec' := by omega
  rfl

/-- **What `localtime` sets.** The sum of timestamp and offset has 32 bits; `mktime` gets the timestamp
back all the same. -/
theorem localtime_spec {t : ℕ} (ht : t < 2 ^ 32) (tmTime : Tm) :
    ∃ tm c, localtime t tmTime = some tm ∧ c.Valid ∧
      c.seconds = epoch.seconds + (t + 28800) % 2 ^ 32 ∧ tm.Shows c ∧ tm.tmWday = c.date.weekday ∧
      mktime tm = t := by
  have hlt : (t + 28800) % 2 ^ 32 < 2 ^ 32 := Nat.mod_lt _ (by norm_num)
  have hoffset : toU32 (t + 8 * 3600) = (t + 28800) % 2 ^ 32 := by
    rw [toU32]
    omega
  obtain ⟨tm, c, hgm, hc, hsec, hs, hwday, -, hoff⟩ :=
    @_gmtime_spec t _ { tmTime with tmGmtoff := 8 * 3600 } hlt hoffset
  replace hoff : tm.tmGmtoff = 8 * 3600 := hoff
  refine ⟨tm, c, hgm, hc, hsec, hs, hwday, ?_⟩
  rw [mktime_eq_sub hs hc hsec hlt, hoff, toU32]
  omega

/-- **`localtime` shows the local date-time of a timestamp**, weekday included, and `mktime` takes it
back. -/
def ShowsLocal (t : ℕ) : Prop :=
  ∀ tmTime : Tm, ∃ tm c, localtime t tmTime = some tm ∧ c.Valid ∧
    c.seconds = epoch.seconds + (t + 28800) ∧ tm.Shows c ∧ tm.tmWday = c.date.weekday ∧ mktime tm = t

/-- **The local date-time is right** just where the sum of timestamp and offset has 32 bits. -/
theorem showsLocal_iff {t : ℕ} (ht : t < 2 ^ 32) : ShowsLocal t ↔ t + 28800 < 2 ^ 32 := by
  constructor
  · intro h
    obtain ⟨tm, c, hl, -, hsec, hs, -, -⟩ := h ⟨0, 0, 0, 0, 0, 0, 0, 0, 0⟩
    obtain ⟨tm', c', hl', -, hsec', hs', -, -⟩ := localtime_spec ht ⟨0, 0, 0, 0, 0, 0, 0, 0, 0⟩
    obtain rfl : tm = tm' := Option.some.inj (hl.symm.trans hl')
    rw [hs.unique hs'] at hsec
    have hlt := Nat.mod_lt (t + 28800) (show 0 < 2 ^ 32 by norm_num)
    omega
  · intro hlt tmTime
    obtain ⟨tm, c, hl, hc, hsec, hs, hwday, hmk⟩ := localtime_spec ht tmTime
    rw [Nat.mod_eq_of_lt hlt] at hsec
    exact ⟨tm, c, hl, hc, hsec, hs, hwday, hmk⟩

theorem showsLocal_iff_epoch : ShowsLocal 0 ↔ 0 + 28800 < 2 ^ 32 := showsLocal_iff (by norm_num)

/-- The last second of 32 bits: `localtime` is back in 1970. -/
theorem not_showsLocal_last : ¬ ShowsLocal (2 ^ 32 - 1) := by
  intro h
  obtain ⟨tm, c, hl, hc, hsec, hs, -, -⟩ := h ⟨0, 0, 0, 0, 0, 0, 0, 0, 0⟩
  have hlocal : (localtime (2 ^ 32 - 1) ⟨0, 0, 0, 0, 0, 0, 0, 0, 0⟩).map (·.tmYear) = some 70 := by
    decide +kernel
  rw [hl, Option.map_some, Option.some.injEq] at hlocal
  -- a date in 1970 is less than 366 days from the epoch
  have hyear : c.date.year = 1970 := by
    have := hs.year
    omega
  have hday := hc.1.ofYear_lt
  rw [hyear, show yearLength 1970 = 365 by decide] at hday
  rw [DateTime.seconds, Date.number, hyear, daysBeforeYear_epoch, epoch_seconds] at hsec
  obtain ⟨-, hh, hm, hss⟩ := hc
  omega

end GeekToyOS
