import GeekToyOS.Lib.Time

/-!
# Reading the clock chip

`rtc_get_datetime` of `src/arch/x86/clock.c`: six registers are read one by one, from the year to the
second, and the second once more. If it changed meanwhile they are read again.

The chip holds a time and goes on by a second now and then. What happens in a pass of the loop is a
`RtcPass`. A second that comes between the two reads of the second register is noticed; one that comes
before is not, and if it carries into a register that was read already, the pass mixes two times.

The chip may hold binary numbers or BCD, which the code asks for, and hours up to 24 or up to 12, which it
does not.

## Main definitions

* `RtcTime`, `RtcMode`, `readRtc` — the chip
* `RtcPass` — when the time goes on in a pass
* `rtcGetDatetime`
* `RtcConsistent` — the time that is accepted is the one at an instant of its pass

## Main results

* `passTm_eq_iff` — what a pass that is accepted reads
* `rtcGetDatetime_eq` — the loop ends with the first such pass
* `rtcConsistent_iff`
-/

namespace GeekToyOS

/-! ### The chip -/

/-- The time that the chip holds; the year has two digits. -/
structure RtcTime where
  year : ℕ
  month : ℕ
  day : ℕ
  hour : ℕ
  minute : ℕ
  second : ℕ
deriving DecidableEq, Repr

/-- The last day of a month. -/
def rtcMonthLength (year month : ℕ) : ℕ :=
  if month = 2 then if year % 4 = 0 then 29 else 28
  else if month = 4 ∨ month = 6 ∨ month = 9 ∨ month = 11 then 30 else 31

namespace RtcTime

structure Valid (t : RtcTime) : Prop where
  year : t.year < 100
  month : 1 ≤ t.month ∧ t.month ≤ 12
  day : 1 ≤ t.day ∧ t.day ≤ rtcMonthLength t.year t.month
  hour : t.hour < 24
  minute : t.minute < 60
  second : t.second < 60

/-- A second later. -/
def next (t : RtcTime) : RtcTime :=
  if t.second < 59 then { t with second := t.second + 1 }
  else if t.minute < 59 then { t with second := 0, minute := t.minute + 1 }
  else if t.hour < 23 then { t with second := 0, minute := 0, hour := t.hour + 1 }
  else if t.day < rtcMonthLength t.year t.month then
    { t with second := 0, minute := 0, hour := 0, day := t.day + 1 }
  else if t.month < 12 then { t with second := 0, minute := 0, hour := 0, day := 1, month := t.month + 1 }
  else ⟨(t.year + 1) % 100, 1, 1, 0, 0, 0⟩

/-- The registers in the order in which they are read. -/
def field (t : RtcTime) : ℕ → ℕ
  | 0 => t.year
  | 1 => t.month
  | 2 => t.day
  | 3 => t.hour
  | 4 => t.minute
  | _ => t.second

end RtcTime

/-- How the chip holds numbers: bits 2 and 1 of register B. -/
structure RtcMode where
  binary : Bool
  hour24 : Bool
deriving DecidableEq, Repr

namespace RtcMode

/-- A number in a register. -/
def encode (mode : RtcMode) (x : ℕ) : BitVec 8 :=
  BitVec.ofNat 8 (if mode.binary then x else x / 10 * 16 + x % 10)

/-- The register of the hours; of 12 hours, those after noon have the high bit. -/
def encodeHour (mode : RtcMode) (hour : ℕ) : BitVec 8 :=
  if mode.hour24 then mode.encode hour
  else if hour < 12 then mode.encode ((hour + 11) % 12 + 1)
  else mode.encode ((hour + 11) % 12 + 1) ||| 0x80

/-- Register B. -/
def registerB (mode : RtcMode) : BitVec 8 :=
  (if mode.binary then 4 else 0) ||| (if mode.hour24 then 2 else 0)

end RtcMode

/-- `readRTC`, when the chip holds `t`. -/
def readRtc (mode : RtcMode) (t : RtcTime) (addr : ℕ) : BitVec 8 :=
  match addr with
  | 0x0 => mode.encode t.second
  | 0x2 => mode.encode t.minute
  | 0x4 => mode.encodeHour t.hour
  | 0x7 => mode.encode t.day
  | 0x8 => mode.encode t.month
  | 0x9 => mode.encode t.year
  | 0xB => mode.registerB
  | _ => 0

/-! ### The code -/

/-- `bcd2byte` -/
def bcd2byte (x : BitVec 8) : ℕ := ((x >>> 4) &&& 0xF).toNat * 10 + (x &&& 0xF).toNat

/-- What becomes of a register: `registerB` tells whether it is BCD. -/
def rtcNumber (registerB x : BitVec 8) : ℕ := if registerB &&& 4 = 0 then bcd2byte x else x.toNat

/-- The last lines of `rtc_get_datetime`, which fill `time`. -/
def rtcTm (time : Tm) (year mon day hour min sec : ℕ) : Tm :=
  let year := (year : ℤ) + 1900
  let year := if year < 1970 then year + 100 else year
  { time with
    tmYear := year - 1900
    tmMon := mon - 1
    tmMday := day
    tmHour := hour
    tmMin := min
    tmSec := sec
    tmGmtoff := 0 }

/-- A pass of the loop: the seconds that go by before it, and the read after which one more does. -/
structure RtcPass where
  before : ℕ
  within : Option (Fin 6)
deriving DecidableEq, Repr

namespace RtcPass

/-- The time at the first read, when it is `t` before the pass. -/
def start (p : RtcPass) (t : RtcTime) : RtcTime := RtcTime.next^[p.before] t

/-- The time at the `i`-th read. -/
def atRead (p : RtcPass) (t : RtcTime) (i : ℕ) : RtcTime :=
  match p.within with
  | none => p.start t
  | some j => if i ≤ j then p.start t else (p.start t).next

end RtcPass

/-- `rtc_get_datetime`, and the pass with which its loop ends. -/
def rtcGetDatetime (mode : RtcMode) (time : Tm) : List RtcPass → RtcTime → Option (ℕ × Tm)
  | [], _ => none
  | p :: passes, t =>
    let year := readRtc mode (p.atRead t 0) 0x9
    let mon := readRtc mode (p.atRead t 1) 0x8
    let day := readRtc mode (p.atRead t 2) 0x7
    let hour := readRtc mode (p.atRead t 3) 0x4
    let min := readRtc mode (p.atRead t 4) 0x2
    let sec := readRtc mode (p.atRead t 5) 0x0
    if sec ≠ readRtc mode (p.atRead t 6) 0x0 then
      (rtcGetDatetime mode time passes (p.atRead t 6)).map fun r => (r.1 + 1, r.2)
    else
      let b := readRtc mode (p.atRead t 6) 0xB
      some (0, rtcTm time (rtcNumber b year) (rtcNumber b mon) (rtcNumber b day) (rtcNumber b hour)
        (rtcNumber b min) (rtcNumber b sec))

/-! ### What it should do -/

/-- The full time. -/
def RtcTime.tm (time : Tm) (t : RtcTime) : Tm := rtcTm time t.year t.month t.day t.hour t.minute t.second

/-- A pass, and the time before it. -/
def passAt : List RtcPass → RtcTime → ℕ → Option (RtcPass × RtcTime)
  | [], _, _ => none
  | p :: _, t, 0 => some (p, t)
  | p :: passes, t, n + 1 => passAt passes (p.atRead t 6) n

/-- **The time that is accepted is the one at an instant of its pass.** -/
def RtcConsistent (mode : RtcMode) (time : Tm) (passes : List RtcPass) (t : RtcTime) : Prop :=
  ∀ n tm, rtcGetDatetime mode time passes t = some (n, tm) →
    ∃ p u, passAt passes t n = some (p, u) ∧ ∃ i ≤ 6, tm = (p.atRead u i).tm time

/-- No second goes by between the two reads of the second. -/
def RtcPass.accepted (p : RtcPass) : Bool := p.within ≠ some 5

/-- The pass does not mix two times: the second that goes by in it does not change a register that was read
before, and the hours can be read. -/
structure RtcPass.Whole (mode : RtcMode) (p : RtcPass) (t : RtcTime) : Prop where
  fields : ∀ j, p.within = some j → ∀ f ≤ j.val, (p.start t).field f = (p.start t).next.field f
  hour : mode.hour24 = true ∨ 1 ≤ (p.atRead t 3).hour ∧ (p.atRead t 3).hour ≤ 11

/-! ### The time -/

namespace RtcTime

variable {t : RtcTime}

theorem one_le_rtcMonthLength (year month : ℕ) : 1 ≤ rtcMonthLength year month := by
  rw [rtcMonthLength]
  split_ifs <;> omega

theorem Valid.next (h : t.Valid) : t.next.Valid := by
  have hmonth := h.month
  have hday := h.day
  have hlength := one_le_rtcMonthLength t.year (t.month + 1)
  rw [RtcTime.next]
  split_ifs
  · exact { h with second := by dsimp only; omega }
  · exact { h with second := by norm_num, minute := by dsimp only; omega }
  · exact { h with second := by norm_num, minute := by norm_num, hour := by dsimp only; omega }
  · exact { h with
      second := by norm_num
      minute := by norm_num
      hour := by norm_num
      day := ⟨by dsimp only; omega, by dsimp only; omega⟩ }
  · exact { h with
      second := by norm_num
      minute := by norm_num
      hour := by norm_num
      day := ⟨le_rfl, hlength⟩
      month := ⟨by dsimp only; omega, by dsimp only; omega⟩ }
  · exact ⟨Nat.mod_lt _ (by norm_num), ⟨le_rfl, by norm_num⟩, ⟨le_rfl, one_le_rtcMonthLength _ _⟩,
      by norm_num, by norm_num, by norm_num⟩

theorem Valid.iterate_next (h : t.Valid) (n : ℕ) : (RtcTime.next^[n] t).Valid := by
  induction n with
  | zero => exact h
  | succ n ih =>
    rw [Function.iterate_succ_apply']
    exact ih.next

/-- From one second to the next the second field changes. -/
theorem next_second_ne (t : RtcTime) : t.next.second ≠ t.second := by
  rw [RtcTime.next]
  split_ifs <;> dsimp only <;> omega

/-- The hour stays, or goes on by one, or is midnight. -/
theorem next_hour (t : RtcTime) :
    t.next.hour = t.hour ∨ t.next.hour = t.hour + 1 ∨ ¬ t.hour < 23 ∧ t.next.hour = 0 := by
  rw [RtcTime.next]
  split_ifs <;> simp_all

end RtcTime

/-! ### A pass -/

section Pass

variable {mode : RtcMode} {time : Tm} {p : RtcPass} {t : RtcTime}

/-- A number below 100 is read as it is, in binary or in BCD. -/
theorem rtcNumber_encode (mode : RtcMode) {x : ℕ} (hx : x < 100) :
    rtcNumber mode.registerB (mode.encode x) = x := by
  have hall : ∀ binary hour24 : Bool, ∀ x < 100,
      rtcNumber (RtcMode.registerB ⟨binary, hour24⟩) (RtcMode.encode ⟨binary, hour24⟩ x) = x := by
    decide +kernel
  exact hall mode.binary mode.hour24 x hx

/-- How the hours of a 12-hour clock are read: midnight as 12, the morning as it is, the afternoon as
numbers from 24 on. -/
theorem rtcNumber_encodeHour_12 (binary : Bool) {h : ℕ} (hh : h < 24) :
    (h = 0 → rtcNumber (RtcMode.registerB ⟨binary, false⟩) (RtcMode.encodeHour ⟨binary, false⟩ h) = 12) ∧
    (1 ≤ h → h ≤ 11 →
      rtcNumber (RtcMode.registerB ⟨binary, false⟩) (RtcMode.encodeHour ⟨binary, false⟩ h) = h) ∧
    (12 ≤ h →
      24 ≤ rtcNumber (RtcMode.registerB ⟨binary, false⟩) (RtcMode.encodeHour ⟨binary, false⟩ h)) := by
  revert binary h
  decide +kernel

/-- Of 12 hours, those from 1 to 11 in the morning are read as they are. -/
theorem rtcNumber_encodeHour (mode : RtcMode) {h h' : ℕ} (hh : h < 24) (hh' : h' < 24) :
    rtcNumber mode.registerB (mode.encodeHour h) = h' ↔
      (mode.hour24 = true ∨ 1 ≤ h ∧ h ≤ 11) ∧ h = h' ∨ mode.hour24 = false ∧ h = 0 ∧ h' = 12 := by
  obtain ⟨binary, hour24⟩ := mode
  cases hour24 with
  | true =>
    have hread : rtcNumber (RtcMode.registerB ⟨binary, true⟩) (RtcMode.encodeHour ⟨binary, true⟩ h) = h :=
      rtcNumber_encode ⟨binary, true⟩ (by omega)
    rw [hread]
    simp
  | false =>
    obtain ⟨hzero, hmorning, hlate⟩ := rtcNumber_encodeHour_12 binary hh
    rcases Nat.eq_zero_or_pos h with h0 | hpos
    · rw [hzero h0]
      simp [h0]
      omega
    · by_cases hle : h ≤ 11
      · rw [hmorning hpos hle]
        simp
        omega
      · have := hlate (by omega)
        simp
        omega

theorem RtcPass.valid_start (p : RtcPass) (h : t.Valid) : (p.start t).Valid := h.iterate_next p.before

theorem RtcPass.valid_atRead (p : RtcPass) (h : t.Valid) (i : ℕ) : (p.atRead t i).Valid := by
  have hstart := p.valid_start h
  rw [RtcPass.atRead]
  split
  · exact hstart
  · split
    · exact hstart
    · exact hstart.next

/-- What a pass reads. -/
def passTm (mode : RtcMode) (time : Tm) (p : RtcPass) (t : RtcTime) : Tm :=
  rtcTm time (p.atRead t 0).year (p.atRead t 1).month (p.atRead t 2).day
    (rtcNumber mode.registerB (mode.encodeHour (p.atRead t 3).hour)) (p.atRead t 4).minute
    (p.atRead t 5).second

/-- A second is noticed between the two reads of the second, and nowhere else. -/
theorem RtcPass.accepted_iff {p : RtcPass} {t : RtcTime} :
    p.accepted = true ↔ (p.atRead t 5).second = (p.atRead t 6).second := by
  rw [RtcPass.accepted, decide_eq_true_eq, RtcPass.atRead, RtcPass.atRead]
  cases hw : p.within with
  | none => simp
  | some j =>
    by_cases hj : j = 5
    · subst hj
      simpa using (p.start t).next_second_ne.symm
    · have hlt : j.val < 5 := by
        have := j.isLt
        have : j.val ≠ 5 := fun h => hj (Fin.ext h)
        omega
      dsimp only
      rw [if_neg (by omega), if_neg (by omega)]
      simpa using hj

theorem rtcGetDatetime_cons (passes : List RtcPass) (h : t.Valid) :
    rtcGetDatetime mode time (p :: passes) t = if p.accepted then some (0, passTm mode time p t)
      else (rtcGetDatetime mode time passes (p.atRead t 6)).map fun r => (r.1 + 1, r.2) := by
  have hv := fun i => p.valid_atRead h i
  have hsec : mode.encode (p.atRead t 5).second = mode.encode (p.atRead t 6).second ↔
      (p.atRead t 5).second = (p.atRead t 6).second := by
    refine ⟨fun heq => ?_, fun heq => by rw [heq]⟩
    have hnumber := congrArg (rtcNumber mode.registerB) heq
    rwa [rtcNumber_encode mode ((hv 5).second.trans (by norm_num)),
      rtcNumber_encode mode ((hv 6).second.trans (by norm_num))] at hnumber
  have hday : (p.atRead t 2).day < 100 := by
    have := (hv 2).day.2
    have : rtcMonthLength (p.atRead t 2).year (p.atRead t 2).month ≤ 31 := by
      rw [rtcMonthLength]
      split_ifs <;> omega
    omega
  have hmonth := (hv 1).month.2
  have hcond : readRtc mode (p.atRead t 5) 0x0 ≠ readRtc mode (p.atRead t 6) 0x0 ↔ ¬ p.accepted = true :=
    not_congr (hsec.trans RtcPass.accepted_iff.symm)
  rw [rtcGetDatetime]
  by_cases hacc : p.accepted = true
  · rw [if_neg (mt hcond.mp (not_not_intro hacc)), if_pos hacc]
    change some (0, rtcTm time (rtcNumber mode.registerB (mode.encode (p.atRead t 0).year))
      (rtcNumber mode.registerB (mode.encode (p.atRead t 1).month))
      (rtcNumber mode.registerB (mode.encode (p.atRead t 2).day))
      (rtcNumber mode.registerB (mode.encodeHour (p.atRead t 3).hour))
      (rtcNumber mode.registerB (mode.encode (p.atRead t 4).minute))
      (rtcNumber mode.registerB (mode.encode (p.atRead t 5).second))) = _
    rw [rtcNumber_encode mode (hv 0).year, rtcNumber_encode mode (by omega), rtcNumber_encode mode hday,
      rtcNumber_encode mode ((hv 4).minute.trans (by norm_num)),
      rtcNumber_encode mode ((hv 5).second.trans (by norm_num)), passTm]
  · rw [if_pos (hcond.mpr hacc), if_neg hacc]

/-- Two full times are the same only if all numbers are. -/
theorem rtcTm_eq_iff {year mon day hour min sec year' mon' day' hour' min' sec' : ℕ}
    (hyear : year < 100) (hyear' : year' < 100) :
    rtcTm time year mon day hour min sec = rtcTm time year' mon' day' hour' min' sec' ↔
      year = year' ∧ mon = mon' ∧ day = day' ∧ hour = hour' ∧ min = min' ∧ sec = sec' := by
  simp only [rtcTm, Tm.mk.injEq, and_true, Nat.cast_inj]
  have hmon : (mon : ℤ) - 1 = mon' - 1 ↔ mon = mon' := by omega
  have hyears : ((if (year : ℤ) + 1900 < 1970 then (year : ℤ) + 1900 + 100 else year + 1900) - 1900 =
      (if (year' : ℤ) + 1900 < 1970 then (year' : ℤ) + 1900 + 100 else year' + 1900) - 1900) ↔
      year = year' := by
    split_ifs <;> omega
  rw [hmon, hyears]
  exact ⟨fun ⟨hs, hmi, hh, hd, hmo, hy⟩ => ⟨hy, hmo, hd, hh, hmi, hs⟩,
    fun ⟨hy, hmo, hd, hh, hmi, hs⟩ => ⟨hs, hmi, hh, hd, hmo, hy⟩⟩

/-- Within a second the hour does not go from midnight to noon. -/
theorem RtcPass.hour_ne_noon (p : RtcPass) {v : RtcTime} (hv : v = p.start t ∨ v = (p.start t).next)
    (i : ℕ) (hi : (p.atRead t i).hour = 0) : v.hour ≠ 12 := by
  have hnext := (p.start t).next_hour
  have hread : (p.atRead t i).hour = (p.start t).hour ∨
      (p.atRead t i).hour = (p.start t).next.hour := by
    rw [RtcPass.atRead]
    split
    · exact .inl rfl
    · split
      · exact .inl rfl
      · exact .inr rfl
  rcases hv with rfl | rfl <;> omega

/-- A pass reads `v` if each register was that of `v` when it was read, and the hours can be read. -/
theorem passTm_eq_tm_iff (ht : t.Valid) {v : RtcTime}
    (hv : v = p.start t ∨ v = (p.start t).next) :
    passTm mode time p t = v.tm time ↔ (∀ f ≤ 5, (p.atRead t f).field f = v.field f) ∧
      (mode.hour24 = true ∨ 1 ≤ (p.atRead t 3).hour ∧ (p.atRead t 3).hour ≤ 11) := by
  have hvalid : v.Valid := by
    rcases hv with rfl | rfl
    · exact p.valid_start ht
    · exact (p.valid_start ht).next
  have hnoon := p.hour_ne_noon hv 3
  rw [passTm, RtcTime.tm, rtcTm_eq_iff (p.valid_atRead ht 0).year hvalid.year,
    rtcNumber_encodeHour mode (p.valid_atRead ht 3).hour hvalid.hour]
  constructor
  · rintro ⟨hyear, hmonth, hday, ⟨hmode, hhour⟩ | ⟨-, hzero, htwelve⟩, hminute, hsecond⟩
    · refine ⟨fun f hf => ?_, hmode⟩
      interval_cases f
      exacts [hyear, hmonth, hday, hhour, hminute, hsecond]
    · exact absurd htwelve (hnoon hzero)
  · rintro ⟨hfield, hmode⟩
    exact ⟨hfield 0 (by norm_num), hfield 1 (by norm_num), hfield 2 (by norm_num),
      .inl ⟨hmode, hfield 3 (by norm_num)⟩, hfield 4 (by norm_num), hfield 5 le_rfl⟩

/-- **What a pass that is accepted reads** is the time at an instant exactly if the pass is whole: after
a second that was not noticed, that instant can only be a later one. -/
theorem passTm_eq_iff (ht : t.Valid) (hacc : p.accepted = true) :
    (∃ i ≤ 6, passTm mode time p t = (p.atRead t i).tm time) ↔ p.Whole mode t := by
  cases hw : p.within with
  | none =>
    have hread : ∀ i, p.atRead t i = p.start t := fun i => by rw [RtcPass.atRead, hw]
    constructor
    · rintro ⟨i, -, heq⟩
      rw [hread, passTm_eq_tm_iff ht (.inl rfl)] at heq
      exact ⟨fun j hj => by rw [hw] at hj; contradiction, heq.2⟩
    · rintro ⟨-, hhour⟩
      refine ⟨0, by norm_num, ?_⟩
      rw [hread 0, passTm_eq_tm_iff ht (.inl rfl)]
      exact ⟨fun f _ => by rw [hread], hhour⟩
  | some j =>
    have hj : j.val < 5 := by
      have hne : j ≠ 5 := by rintro rfl; simp [RtcPass.accepted, hw] at hacc
      have : j.val ≠ 5 := fun h => hne (Fin.ext h)
      omega
    have hread : ∀ i, p.atRead t i = if i ≤ j then p.start t else (p.start t).next := fun i => by
      rw [RtcPass.atRead, hw]
    constructor
    · rintro ⟨i, -, heq⟩
      rw [hread i] at heq
      split at heq
      · -- the second was read later
        have hsecond := ((passTm_eq_tm_iff ht (.inl rfl)).mp heq).1 5 le_rfl
        rw [hread 5, if_neg (by omega)] at hsecond
        exact absurd hsecond (p.start t).next_second_ne
      · obtain ⟨hfield, hhour⟩ := (passTm_eq_tm_iff ht (.inr rfl)).mp heq
        refine ⟨fun j' hj' f hf => ?_, hhour⟩
        obtain rfl : j = j' := Option.some.inj (hw.symm.trans hj')
        have hf' := hfield f (by omega)
        rwa [hread f, if_pos hf] at hf'
    · rintro ⟨hfields, hhour⟩
      refine ⟨6, le_rfl, ?_⟩
      rw [hread 6, if_neg (by omega), passTm_eq_tm_iff ht (.inr rfl)]
      refine ⟨fun f _ => ?_, hhour⟩
      rw [hread f]
      split
      · next hf => exact hfields j hw f hf
      · rfl

end Pass

/-! ### The loop -/

section Loop

variable {mode : RtcMode} {time : Tm} {passes : List RtcPass} {t : RtcTime}

/-- The time at which a pass begins is valid. -/
theorem passAt_valid (ht : t.Valid) {n : ℕ} {p : RtcPass} {u : RtcTime}
    (hat : passAt passes t n = some (p, u)) : u.Valid := by
  induction passes generalizing t n with
  | nil => simp [passAt] at hat
  | cons q passes ih =>
    cases n with
    | zero =>
      obtain ⟨-, rfl⟩ := Prod.mk.inj (Option.some.inj hat)
      exact ht
    | succ n => exact ih (q.valid_atRead ht 6) hat

/-- The pass that ends the loop is the first that is accepted. -/
theorem findIdx?_accepted_passAt {n : ℕ} (hfind : passes.findIdx? RtcPass.accepted = some n) :
    ∃ p u, passAt passes t n = some (p, u) ∧ p.accepted = true := by
  induction passes generalizing t n with
  | nil => simp at hfind
  | cons q passes ih =>
    rw [List.findIdx?_cons] at hfind
    split at hfind
    · next hq =>
      obtain rfl := Option.some.inj hfind
      exact ⟨q, t, rfl, hq⟩
    · obtain ⟨m, hm, rfl⟩ := Option.map_eq_some_iff.mp hfind
      exact ih hm

/-- **What `rtc_get_datetime` returns** is what the first pass reads that is accepted. -/
theorem rtcGetDatetime_eq (ht : t.Valid) {n : ℕ} {tm : Tm} :
    rtcGetDatetime mode time passes t = some (n, tm) ↔
      passes.findIdx? RtcPass.accepted = some n ∧
        ∃ p u, passAt passes t n = some (p, u) ∧ tm = passTm mode time p u := by
  induction passes generalizing t n with
  | nil => simp [rtcGetDatetime]
  | cons q passes ih =>
    rw [rtcGetDatetime_cons passes ht, List.findIdx?_cons]
    split
    · constructor
      · intro h
        obtain ⟨rfl, rfl⟩ := Prod.mk.inj (Option.some.inj h)
        exact ⟨rfl, q, t, rfl, rfl⟩
      · rintro ⟨hn, p, u, hat, rfl⟩
        obtain rfl := Option.some.inj hn
        obtain ⟨rfl, rfl⟩ := Prod.mk.inj (Option.some.inj hat)
        rfl
    · constructor
      · intro h
        obtain ⟨⟨m, tm'⟩, hrest, heq⟩ := Option.map_eq_some_iff.mp h
        obtain ⟨rfl, rfl⟩ := Prod.mk.inj heq
        obtain ⟨hfind, hread⟩ := (ih (q.valid_atRead ht 6)).mp hrest
        exact ⟨by rw [hfind]; rfl, hread⟩
      · rintro ⟨hn, hread⟩
        obtain ⟨m, hfind, rfl⟩ := Option.map_eq_some_iff.mp hn
        exact Option.map_eq_some_iff.mpr ⟨(m, tm), (ih (q.valid_atRead ht 6)).mpr ⟨hfind, hread⟩, rfl⟩

/-- **When the time that is accepted is one that the chip held**: exactly if the first pass that no second
disturbs between its reads of the second is whole. -/
theorem rtcConsistent_iff (mode : RtcMode) (time : Tm) (passes : List RtcPass) {t : RtcTime}
    (ht : t.Valid) :
    RtcConsistent mode time passes t ↔
      ∀ n p u, passes.findIdx? RtcPass.accepted = some n → passAt passes t n = some (p, u) →
        p.Whole mode u := by
  constructor
  · intro h n p u hfind hat
    have hreturn : rtcGetDatetime mode time passes t = some (n, passTm mode time p u) :=
      (rtcGetDatetime_eq ht).mpr ⟨hfind, p, u, hat, rfl⟩
    obtain ⟨p', u', hat', i, hi, heq⟩ := h _ _ hreturn
    obtain ⟨rfl, rfl⟩ := Prod.mk.inj (Option.some.inj (hat.symm.trans hat'))
    obtain ⟨q, v, hatq, hacc⟩ := findIdx?_accepted_passAt (t := t) hfind
    obtain ⟨rfl, rfl⟩ := Prod.mk.inj (Option.some.inj (hat.symm.trans hatq))
    exact (passTm_eq_iff (passAt_valid ht hat) hacc).mp ⟨i, hi, heq⟩
  · intro h n tm hreturn
    obtain ⟨hfind, p, u, hat, rfl⟩ := (rtcGetDatetime_eq ht).mp hreturn
    obtain ⟨q, v, hatq, hacc⟩ := findIdx?_accepted_passAt (t := t) hfind
    obtain ⟨rfl, rfl⟩ := Prod.mk.inj (Option.some.inj (hat.symm.trans hatq))
    exact ⟨p, u, hat, (passTm_eq_iff (passAt_valid ht hat) hacc).mpr (h n p u hfind hat)⟩

end Loop

/-- An hour that begins before the hour is read does no harm. -/
theorem rtcConsistent_iff_hour :
    RtcConsistent ⟨false, true⟩ ⟨0, 0, 0, 0, 0, 0, 0, 0, 0⟩ [⟨0, some 5⟩, ⟨58, some 2⟩]
      ⟨23, 12, 31, 22, 59, 0⟩ := by
  have hvalid : RtcTime.Valid ⟨23, 12, 31, 22, 59, 0⟩ := ⟨by decide, by decide, by decide, by decide,
    by decide, by decide⟩
  refine (rtcConsistent_iff _ _ _ hvalid).mpr fun n p u hfind hat => ?_
  obtain rfl : 1 = n := Option.some.inj hfind
  obtain ⟨rfl, rfl⟩ := Prod.mk.inj (Option.some.inj hat)
  refine ⟨fun j hj => ?_, .inl rfl⟩
  obtain rfl : 2 = j := Option.some.inj hj
  decide +kernel

/-- **The new year begins after the year was read**: all registers but the year are those of 1 January, and
both reads of the second agree. -/
theorem not_rtcConsistent_newYear :
    ¬ RtcConsistent ⟨false, true⟩ ⟨0, 0, 0, 0, 0, 0, 0, 0, 0⟩ [⟨0, some 0⟩] ⟨23, 12, 31, 23, 59, 59⟩ := by
  intro h
  have hreturn : rtcGetDatetime ⟨false, true⟩ ⟨0, 0, 0, 0, 0, 0, 0, 0, 0⟩ [⟨0, some 0⟩]
      ⟨23, 12, 31, 23, 59, 59⟩ = some (0, ⟨0, 0, 0, 1, 0, 123, 0, 0, 0⟩) := by
    decide +kernel
  obtain ⟨p, u, hat, i, hi, heq⟩ := h _ _ hreturn
  obtain ⟨rfl, rfl⟩ := Prod.mk.inj (Option.some.inj hat)
  have hno : ∀ i ≤ 6, (⟨0, 0, 0, 1, 0, 123, 0, 0, 0⟩ : Tm) ≠
      ((⟨0, some 0⟩ : RtcPass).atRead ⟨23, 12, 31, 23, 59, 59⟩ i).tm ⟨0, 0, 0, 0, 0, 0, 0, 0, 0⟩ := by
    decide +kernel
  exact hno i hi heq

end GeekToyOS
