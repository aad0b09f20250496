import GeekToyOS.Lib.Snprintf
import GeekToyOS.Lib.Time

/-!
# Dates as text

`strftime` of `src/lib/time.c`. Characters of the format are stored as they are; a field of the date is
printed by `snprintf`, which ends it with a zero.

Nothing else ends the text, and nothing but `snprintf` looks at the size of the buffer. What it returns is
added to the pointer: the length of a field that was cut off, or less than nothing where there is no room.

## Main definitions

* `strftime`
* `Item`, `items` — a format, as what it prints
* `StaysInBuffer` — the law of `strftime`
* `EndsInField`, `RunsOut` — formats that end well, and formats with a field behind the buffer

## Main results

* `snprintf_field` — a field in a buffer
* `strftime_eq` — `strftime` as a run over the items of its format
* `runItems_fits` — what a run leaves while there is room
* `staysInBuffer_iff` — where `strftime` stays in its buffer
-/

namespace GeekToyOS

open Raster

/-- `"%0*d"` -/
def fieldFormat : List Char := ['%', '0', '*', 'd']

/-- `alignz` and `d` for a conversion. -/
def strftimeField (tm : Tm) (ch : Char) : Option (ℤ × ℤ) :=
  if ch = 'd' then some (2, tm.tmMday)
  else if ch = 'H' then some (2, tm.tmHour)
  else if ch = 'I' then some (2, (tm.tmHour + 11).tmod 12 + 1)
  else if ch = 'M' then some (2, tm.tmMin)
  else if ch = 'm' then some (2, tm.tmMon + 1)
  else if ch = 'S' then some (2, tm.tmSec)
  else if ch = 'Y' then some (0, tm.tmYear + 1900)
  else if ch = 'y' then some (2, (tm.tmYear + 1900).tmod 100)
  else none

/-- The loop of `strftime`: the memory, and the pointer `p` at the end. A `%` that the zero follows takes
the loop behind the zero; what it reads there is not known. -/
def strftimeLoop (s : ℕ) (max : ℤ) (tm : Tm) : List Char → ℤ → Mem → Option (Mem × ℤ)
  | [], p, mem => some (mem, p)
  | ch :: fmt, p, mem =>
    if ch ≠ '%' then
      strftimeLoop s max tm fmt (p + 1) (Function.update mem p.toNat (BitVec.ofNat 8 ch.toNat))
    else
      match fmt with
      | [] => none
      | ch :: fmt =>
        if ch = '%' then
          strftimeLoop s max tm fmt (p + 1) (Function.update mem p.toNat (BitVec.ofNat 8 ch.toNat))
        else
          match strftimeField tm ch with
          | none => strftimeLoop s max tm fmt p mem
          | some (alignz, d) =>
            (snprintf (fun _ => []) [] mem p.toNat (wrapInt (max - (p - s))) fieldFormat
                [wrapULong alignz, wrapULong d]).bind
              fun (mem, n) => strftimeLoop s max tm fmt (p + n) mem

/-- `strftime`: the memory, and the number returned. -/
def strftime (mem : Mem) (s : ℕ) (max : ℤ) (fmt : List Char) (tm : Tm) : Option (Mem × ℤ) :=
  (strftimeLoop s max tm fmt s mem).map fun (mem, p) => (mem, wrapInt (p - s))

/-! ### What a format says -/

/-- A character, or a field of the date. -/
inductive Item
  | char (ch : Char)
  | field (text : List Char)

namespace Item

/-- What it prints. -/
def text : Item → List Char
  | char ch => [ch]
  | field text => text

end Item

/-- What a format prints. -/
def expansion (items : List Item) : List Char := items.flatMap Item.text

/-- A number below a hundred, in two digits. -/
def twoDigits (d : ℕ) : List Char := [Nat.digitChar (d / 10), Nat.digitChar (d % 10)]

/-- The hour on a clock of twelve hours. -/
def clockHour (hour : ℕ) : ℕ := if hour % 12 = 0 then 12 else hour % 12

/-- The text of a field: two digits, and a year in full. -/
def fieldText (tm : Tm) (ch : Char) : Option (List Char) :=
  if ch = 'd' then some (twoDigits tm.tmMday.toNat)
  else if ch = 'H' then some (twoDigits tm.tmHour.toNat)
  else if ch = 'I' then some (twoDigits (clockHour tm.tmHour.toNat))
  else if ch = 'M' then some (twoDigits tm.tmMin.toNat)
  else if ch = 'm' then some (twoDigits (tm.tmMon + 1).toNat)
  else if ch = 'S' then some (twoDigits tm.tmSec.toNat)
  else if ch = 'Y' then some (Nat.toDigits 10 (tm.tmYear + 1900).toNat)
  else if ch = 'y' then some (twoDigits ((tm.tmYear + 1900).toNat % 100))
  else none

/-- A format, as what it prints; there is none where it ends in a lone `%`. A letter that is no
conversion prints nothing. -/
def items (tm : Tm) : List Char → Option (List Item)
  | [] => some []
  | ch :: fmt =>
    if ch ≠ '%' then (items tm fmt).map (.char ch :: ·)
    else
      match fmt with
      | [] => none
      | ch :: fmt =>
        if ch = '%' then (items tm fmt).map (.char ch :: ·)
        else
          match fieldText tm ch with
          | none => items tm fmt
          | some text => (items tm fmt).map (.field text :: ·)

/-- The fields of a date; the year is not negative. -/
structure Tm.InRange (tm : Tm) : Prop where
  sec : 0 ≤ tm.tmSec ∧ tm.tmSec ≤ 60
  min : 0 ≤ tm.tmMin ∧ tm.tmMin ≤ 59
  hour : 0 ≤ tm.tmHour ∧ tm.tmHour ≤ 23
  mday : 1 ≤ tm.tmMday ∧ tm.tmMday ≤ 31
  mon : 0 ≤ tm.tmMon ∧ tm.tmMon ≤ 11
  year : 0 ≤ tm.tmYear + 1900 ∧ tm.tmYear + 1900 < 2 ^ 31

/-! ### Fields -/

section Field

variable {mem : Mem} {buf n : ℕ}

/-- `"%0*d"` prints a number, with zeros up to the width. -/
theorem vprintfmt_fieldFormat (alignz d : ℕ) (halign : alignz < 2 ^ 31) (hd : d < 2 ^ 32) :
    vprintfmt (fun _ => []) [] fieldFormat [alignz, d] = some
      (List.replicate (alignz - (Nat.toDigits 10 d).length) '0' ++ Nat.toDigits 10 d) := by
  have hflags : reswitch (fun _ => []) [] ['0', '*', 'd'] .init ['0', '*', 'd'] [alignz, d] = some
      (number ⟨'0', wrapInt alignz, -1, 0, true, false⟩ 10 d, [], []) := by
    rw [reswitch_zero, reswitch_star]
    exact reswitch_conv _ _ _ _ .d d [] [] rfl
  have hnum : number ⟨'0', alignz, -1, 0, true, false⟩ 10 d
      = List.replicate (alignz - (Nat.toDigits 10 d).length) '0' ++ Nat.toDigits 10 d := by
    have hlong : ¬ wrapLong d < 0 := by
      rw [wrapLong]
      omega
    have hlen : (Nat.toDigits 10 d).length ≤ 10 :=
      (Nat.length_toDigits_le_iff (by decide) (by decide)).mpr (hd.trans_le (by norm_num))
    rw [number]
    dsimp only
    rw [if_pos rfl, Nat.mod_eq_of_lt hd, if_neg (fun h => hlong h.2),
      printnum_eq (by decide) (by decide) _ 63 _ (hd.trans_le (by norm_num)),
      wrapInt_of_mem (by omega) (by omega), Int.toNat_sub]
  rw [fieldFormat, vprintfmt_of_reswitch _ _ hflags, vprintfmt_nil, wrapInt_of_lt halign, hnum,
    Option.map_some, List.append_nil]

theorem twoDigits_eq {d : ℕ} (hd : d < 100) :
    List.replicate (2 - (Nat.toDigits 10 d).length) '0' ++ Nat.toDigits 10 d = twoDigits d := by
  rcases Nat.lt_or_ge d 10 with hlt | hge
  · rw [Nat.toDigits_of_lt_base hlt, twoDigits, Nat.div_eq_of_lt hlt, Nat.mod_eq_of_lt hlt]
    rfl
  · rw [Nat.toDigits_of_base_le (by decide) hge, Nat.toDigits_of_lt_base (by omega), twoDigits]
    rfl

theorem wrapULong_of_lt {n : ℕ} (h : n < 2 ^ 64) : wrapULong n = n := by
  rw [wrapULong, Int.emod_eq_of_lt (by omega) (by exact_mod_cast h), Int.toNat_natCast]

/-- A conversion prints its field, if there is one. -/
theorem strftimeField_cases {tm : Tm} (hr : tm.InRange) (ch : Char) :
    (strftimeField tm ch = none ∧ fieldText tm ch = none) ∨
    ∃ alignz d : ℕ, alignz < 2 ^ 31 ∧ d < 2 ^ 31 ∧
      strftimeField tm ch = some ((alignz : ℤ), (d : ℤ)) ∧ fieldText tm ch = some
        (List.replicate (alignz - (Nat.toDigits 10 d).length) '0' ++ Nat.toDigits 10 d) := by
  obtain ⟨hsec, hmin, hhour, hmday, hmon, hyear⟩ := hr
  -- a field of two digits
  have htwo : ∀ (x : ℤ) (d : ℕ), x = d → d < 100 → strftimeField tm ch = some (2, x) →
      fieldText tm ch = some (twoDigits d) → ∃ alignz d : ℕ, alignz < 2 ^ 31 ∧ d < 2 ^ 31 ∧
        strftimeField tm ch = some ((alignz : ℤ), (d : ℤ)) ∧ fieldText tm ch = some
          (List.replicate (alignz - (Nat.toDigits 10 d).length) '0' ++ Nat.toDigits 10 d) := by
    rintro _ d rfl hd hfield htext
    exact ⟨2, d, by norm_num, by omega, hfield, by rw [htext, twoDigits_eq hd]⟩
  by_cases h : ch ∈ ['d', 'H', 'I', 'M', 'm', 'S', 'Y', 'y']
  · right
    simp only [List.mem_cons, List.not_mem_nil, or_false] at h
    rcases h with rfl | rfl | rfl | rfl | rfl | rfl | rfl | rfl
    · exact htwo tm.tmMday tm.tmMday.toNat (by omega) (by omega) rfl rfl
    · exact htwo tm.tmHour tm.tmHour.toNat (by omega) (by omega) rfl rfl
    · have hclock : (tm.tmHour + 11).tmod 12 + 1 = clockHour tm.tmHour.toNat ∧
          clockHour tm.tmHour.toNat < 100 := by
        rw [clockHour, Int.tmod_eq_emod_of_nonneg (by omega)]
        split <;> omega
      exact htwo _ _ hclock.1 hclock.2 rfl rfl
    · exact htwo tm.tmMin tm.tmMin.toNat (by omega) (by omega) rfl rfl
    · exact htwo (tm.tmMon + 1) (tm.tmMon + 1).toNat (by omega) (by omega) rfl rfl
    · exact htwo tm.tmSec tm.tmSec.toNat (by omega) (by omega) rfl rfl
    · refine ⟨0, (tm.tmYear + 1900).toNat, by norm_num, by omega, ?_, ?_⟩
      · rw [Int.toNat_of_nonneg hyear.1]
        rfl
      · rw [Nat.zero_sub, List.replicate_zero, List.nil_append]
        rfl
    · have hyear2 : (tm.tmYear + 1900).tmod 100 = ((tm.tmYear + 1900).toNat % 100 : ℕ) := by
        rw [Int.tmod_eq_emod_of_nonneg hyear.1]
        omega
      exact htwo _ _ hyear2 (by omega) rfl rfl
  · left
    simp only [List.mem_cons, List.not_mem_nil, or_false, not_or] at h
    obtain ⟨h1, h2, h3, h4, h5, h6, h7, h8⟩ := h
    simp only [strftimeField, fieldText, if_neg h1, if_neg h2, if_neg h3, if_neg h4, if_neg h5,
      if_neg h6, if_neg h7, if_neg h8, and_self]

/-- The characters of a field are digits, and they are few. -/
theorem fieldText_digits {tm : Tm} (hr : tm.InRange) {ch : Char} {text : List Char}
    (htext : fieldText tm ch = some text) :
    text.length < 2 ^ 31 ∧ ∀ c ∈ text, 0 < c.toNat ∧ c.toNat < 256 := by
  rcases strftimeField_cases hr ch with ⟨-, hnone⟩ | ⟨alignz, d, halign, hd, -, hsome⟩
  · rw [htext] at hnone
    exact absurd hnone (Option.some_ne_none _)
  · rw [htext] at hsome
    rw [Option.some.inj hsome]
    have hlen : (Nat.toDigits 10 d).length ≤ 10 :=
      (Nat.length_toDigits_le_iff (by decide) (by norm_num)).mpr (hd.trans (by norm_num))
    refine ⟨?_, fun c hc => ?_⟩
    · rw [List.length_append, List.length_replicate]
      omega
    · rcases List.mem_append.mp hc with hc | hc
      · rw [List.eq_of_mem_replicate hc]
        decide
      · obtain ⟨e, he, rfl⟩ := Numeral.mem_toDigits (n := d) (by decide) hc
        rw [toNat_digitChar he]
        omega

/-- **A field in a buffer**: it is cut off where there is no room for all of it. -/
theorem snprintf_field {tm : Tm} (hr : tm.InRange) {ch : Char} {text : List Char} {alignz d : ℤ}
    (htext : fieldText tm ch = some text) (hfield : strftimeField tm ch = some (alignz, d))
    (hbuf : buf ≠ 0) (hn : 1 ≤ n) (hend : buf + n ≤ 2 ^ 64) :
    snprintf (fun _ => []) [] mem buf n fieldFormat [wrapULong alignz, wrapULong d] = some
      (Function.update (storeChars mem buf (text.take (n - 1))) (buf + min text.length (n - 1)) 0,
        (text.length : ℤ)) := by
  rcases strftimeField_cases hr ch with ⟨hnone, -⟩ | ⟨a, e, ha, he, hsome, htext'⟩
  · rw [hfield] at hnone
    exact absurd hnone (Option.some_ne_none _)
  · rw [hfield] at hsome
    have hlen := (fieldText_digits hr htext).1
    rw [htext] at htext'
    obtain ⟨rfl, rfl⟩ : alignz = a ∧ d = e := by simpa using hsome
    rw [snprintf, wrapULong_of_lt (by omega), wrapULong_of_lt (by omega),
      vsnprintf_eq hbuf hn hend (vprintfmt_fieldFormat a e ha (by omega)), ← Option.some.inj htext',
      wrapInt_of_lt hlen]

end Field

/-! ### Runs -/

/-- An item at an offset of the buffer. -/
def runItem (s max : ℕ) (x : ℕ × Mem) : Item → ℕ × Mem
  | .char ch => (x.1 + 1, Function.update x.2 (s + x.1) (BitVec.ofNat 8 ch.toNat))
  | .field text =>
    (x.1 + text.length, Function.update (storeChars x.2 (s + x.1) (text.take (max - x.1 - 1)))
      (s + x.1 + min text.length (max - x.1 - 1)) 0)

/-- No field starts behind the buffer. -/
def HasRoom (max k : ℕ) (l : List Item) : Prop :=
  ∀ pre text post, l = pre ++ .field text :: post → k + (expansion pre).length < max

section Runs

variable {s max k : ℕ} {tm : Tm} {mem : Mem} {fmt : List Char} {l : List Item}

theorem HasRoom.tail {i : Item} (h : HasRoom max k (i :: l)) : HasRoom max (k + i.text.length) l := by
  rintro pre text post rfl
  have := h (i :: pre) text post rfl
  rw [expansion, List.flatMap_cons, List.length_append] at this
  rw [expansion]
  omega

theorem HasRoom.head {text : List Char} (h : HasRoom max k (.field text :: l)) : k < max := h [] text l rfl

theorem expansion_concat (l : List Item) (i : Item) : expansion (l ++ [i]) = expansion l ++ i.text := by
  simp [expansion]

theorem foldl_runItem_fst : ∀ (l : List Item) (x : ℕ × Mem),
    (l.foldl (runItem s max) x).1 = x.1 + (expansion l).length := by
  intro l
  induction l with
  | nil => exact fun x => rfl
  | cons i l ih =>
    intro x
    rw [List.foldl_cons, ih, expansion, expansion, List.flatMap_cons, List.length_append,
      ← Nat.add_assoc]
    cases i <;> rfl

/-- A `%` at the very end takes the loop behind the end of the format, and what it does there is not known.
-/
theorem strftimeLoop_eq_none (s max : ℕ) (h : items tm fmt = none) :
    ∀ (p : ℤ) (mem : Mem), strftimeLoop s max tm fmt p mem = none := by
  fun_induction items tm fmt with
  | case1 => exact absurd h (Option.some_ne_none _)
  | case2 ch fmt hch ih =>
    intro p mem
    rw [strftimeLoop.eq_def]
    dsimp only
    rw [if_pos hch]
    exact ih (Option.map_eq_none_iff.mp h) _ _
  | case3 ch hch =>
    intro p mem
    rw [strftimeLoop, if_neg hch]
  | case4 ch hch fmt ih =>
    intro p mem
    rw [strftimeLoop, if_neg hch]
    dsimp only
    rw [if_pos rfl]
    exact ih (Option.map_eq_none_iff.mp h) _ _
  | case5 ch hch c fmt hc htext ih =>
    intro p mem
    rw [strftimeLoop, if_neg hch]
    dsimp only
    rw [if_neg hc]
    cases hfield : strftimeField tm c with
    | none => exact ih h _ _
    | some x =>
      simp only [ih h, Option.bind_fun_none]
  | case6 ch hch c fmt hc text htext ih =>
    intro p mem
    rw [strftimeLoop, if_neg hch]
    dsimp only
    rw [if_neg hc]
    cases hfield : strftimeField tm c with
    | none => exact ih (Option.map_eq_none_iff.mp h) _ _
    | some x =>
      simp only [ih (Option.map_eq_none_iff.mp h), Option.bind_fun_none]

/-- **`strftime` as a run over the items** of its format, while no field starts behind the buffer. -/
theorem strftimeLoop_eq (hr : tm.InRange) (hs : s ≠ 0) (hmax : max < 2 ^ 31) (hend : s + max ≤ 2 ^ 64)
    (hitems : items tm fmt = some l) : ∀ (k : ℕ) (mem : Mem), HasRoom max k l →
      strftimeLoop s max tm fmt (s + k : ℕ) mem = some
        ((l.foldl (runItem s max) (k, mem)).2, ((s + (k + (expansion l).length) : ℕ) : ℤ)) := by
  fun_induction items tm fmt generalizing l with
  | case1 =>
    intro k mem _
    obtain rfl : [] = l := Option.some.inj hitems
    rfl
  | case2 ch fmt hch ih =>
    intro k mem hroom
    obtain ⟨l, hl, rfl⟩ := Option.map_eq_some_iff.mp hitems
    have hrest := ih hl (k + 1) (Function.update mem (s + k) (BitVec.ofNat 8 ch.toNat)) hroom.tail
    rw [strftimeLoop.eq_def]
    dsimp only
    rw [if_pos hch, Int.toNat_natCast]
    rw [show ((s + (k + 1) : ℕ) : ℤ) = ((s + k : ℕ) : ℤ) + 1 by push_cast; ring] at hrest
    rw [hrest, expansion, expansion, List.flatMap_cons, List.length_append, Nat.add_assoc k]
    rfl
  | case3 ch hch => exact absurd hitems.symm (Option.some_ne_none _)
  | case4 ch hch fmt ih =>
    intro k mem hroom
    obtain ⟨l, hl, rfl⟩ := Option.map_eq_some_iff.mp hitems
    have hrest := ih hl (k + 1) (Function.update mem (s + k) (BitVec.ofNat 8 '%'.toNat)) hroom.tail
    rw [strftimeLoop, if_neg hch, Int.toNat_natCast]
    dsimp only
    rw [if_pos rfl]
    rw [show ((s + (k + 1) : ℕ) : ℤ) = ((s + k : ℕ) : ℤ) + 1 by push_cast; ring] at hrest
    rw [hrest, expansion, expansion, List.flatMap_cons, List.length_append, Nat.add_assoc k]
    rfl
  | case5 ch hch c fmt hc htext ih =>
    intro k mem hroom
    rw [strftimeLoop, if_neg hch]
    dsimp only
    rw [if_neg hc]
    rcases strftimeField_cases hr c with ⟨hnone, -⟩ | ⟨_, _, -, -, -, hsome⟩
    · rw [hnone]
      exact ih hitems k mem hroom
    · rw [htext] at hsome
      exact absurd hsome.symm (Option.some_ne_none _)
  | case6 ch hch c fmt hc text htext ih =>
    intro k mem hroom
    obtain ⟨l, hl, rfl⟩ := Option.map_eq_some_iff.mp hitems
    have hk := hroom.head
    rw [strftimeLoop, if_neg hch, Int.toNat_natCast]
    dsimp only
    rw [if_neg hc]
    rcases strftimeField_cases hr c with ⟨-, hnone⟩ | ⟨alignz, d, -, -, hsome, -⟩
    · rw [htext] at hnone
      exact absurd hnone (Option.some_ne_none _)
    · have hn : wrapInt ((max : ℤ) - (((s + k : ℕ) : ℤ) - s)) = ((max - k : ℕ) : ℤ) := by
        rw [show (max : ℤ) - (((s + k : ℕ) : ℤ) - s) = ((max - k : ℕ) : ℤ) by omega,
          wrapInt_of_lt (by omega)]
      have hrest := ih hl (k + text.length)
        (runItem s max (k, mem) (.field text)).2 hroom.tail
      rw [hsome]
      dsimp only
      rw [hn, snprintf_field hr htext hsome (by omega) (by omega) (by omega), Option.bind_some]
      dsimp only
      rw [show ((s + (k + text.length) : ℕ) : ℤ) = ((s + k : ℕ) : ℤ) + text.length by push_cast; ring]
        at hrest
      rw [runItem] at hrest
      rw [hrest, expansion, expansion, List.flatMap_cons, List.length_append, Nat.add_assoc k]
      rfl

theorem storeChars_of_lt {o : ℕ} {t : List Char} (h : s ≤ o) (hlt : o < s + t.length) :
    storeChars mem s t o = BitVec.ofNat 8 (t.getD (o - s) nul).toNat := by
  rw [storeChars, if_pos ⟨h, hlt⟩]

theorem storeChars_of_ge {o : ℕ} {t : List Char} (h : o < s ∨ s + t.length ≤ o) :
    storeChars mem s t o = mem o := by
  rw [storeChars, if_neg (by omega)]

/-- Storing characters, and others behind them, stores both. -/
theorem storeChars_append {m : Mem} {o : ℕ} {t u : List Char}
    (hm : ¬ (s + t.length ≤ o ∧ o < s + t.length + u.length) → m o = storeChars mem s t o) :
    storeChars m (s + t.length) u o = storeChars mem s (t ++ u) o := by
  have hlen : (t ++ u).length = t.length + u.length := List.length_append
  by_cases hu : s + t.length ≤ o ∧ o < s + t.length + u.length
  · rw [storeChars_of_lt hu.1 hu.2, storeChars_of_lt (by omega) (by omega),
      List.getD_append_right _ _ _ _ (by omega), Nat.sub_sub]
  · rw [storeChars_of_ge (by omega), hm hu]
    by_cases ht : s ≤ o ∧ o < s + t.length
    · rw [storeChars_of_lt ht.1 ht.2, storeChars_of_lt ht.1 (by omega),
        List.getD_append _ _ _ _ (by omega)]
    · rw [storeChars_of_ge (by omega), storeChars_of_ge (by omega)]

theorem storeChars_singleton (ch : Char) :
    Function.update mem s (BitVec.ofNat 8 ch.toNat) = storeChars mem s [ch] := by
  rw [← storeChars_cons, storeChars_nil]

/-- What a run does at its last item, from where the items before it have ended. -/
theorem runItems_concat (l : List Item) (i : Item) (mem : Mem) :
    (l ++ [i]).foldl (runItem s max) (0, mem)
      = runItem s max ((expansion l).length, (l.foldl (runItem s max) (0, mem)).2) i := by
  have hcursor := @foldl_runItem_fst s max l (0, mem)
  rw [Nat.zero_add] at hcursor
  rw [List.foldl_append, List.foldl_cons, List.foldl_nil, ← hcursor]

/-- **What a run leaves while there is room**: the expansion; only the zero of a field may stand behind
it. -/
theorem runItems_fits (mem : Mem) (l : List Item) (hfits : (expansion l).length < max) :
    ∀ o ≠ s + (expansion l).length,
      (l.foldl (runItem s max) (0, mem)).2 o = storeChars mem s (expansion l) o := by
  induction l using List.reverseRecOn with
  | nil =>
    intro o _
    rw [show expansion [] = [] from rfl, storeChars_nil]
    rfl
  | append_singleton l i ih =>
    intro o ho
    rw [expansion_concat, List.length_append] at hfits ho
    rw [runItems_concat, expansion_concat]
    have hbefore := ih (by omega) o
    cases i with
    | char ch =>
      rw [runItem, storeChars_singleton]
      refine storeChars_append (u := [ch]) fun hout => hbefore ?_
      rw [List.length_singleton] at hout
      omega
    | field text =>
      rw [Item.text] at hfits ho
      rw [runItem]
      dsimp only
      rw [Function.update_of_ne (by omega), List.take_of_length_le (by omega)]
      refine storeChars_append fun hout => hbefore ?_
      omega

/-- A character at the end of a run leaves nothing but the expansion. -/
theorem runItems_char (mem : Mem) (l : List Item) (ch : Char) (hfits : (expansion l).length < max) :
    ((l ++ [Item.char ch]).foldl (runItem s max) (0, mem)).2
      = storeChars mem s (expansion (l ++ [Item.char ch])) := by
  funext o
  rw [runItems_concat, expansion_concat, runItem, storeChars_singleton]
  refine storeChars_append (u := [ch]) fun hout => runItems_fits mem l hfits o ?_
  rw [List.length_singleton] at hout
  omega

/-- **`strftime` stays in its buffer**: it reads the format no further than its zero, changes nothing
outside of the buffer, leaves a text with a zero in it, and prints the whole expansion if that fits. -/
def StaysInBuffer (tm : Tm) (fmt : List Char) (max : ℕ) : Prop :=
  ∀ (s : ℕ) (mem : Mem), s ≠ 0 → s + max ≤ 2 ^ 64 → ∃ m r,
    strftime mem s max fmt tm = some (m, r) ∧ (∀ o, o < s ∨ s + max ≤ o → m o = mem o) ∧
    (∃ k < max, m (s + k) = 0) ∧
    ∀ l, items tm fmt = some l → (expansion l).length < max →
      (∀ i < (expansion l).length, m (s + i) = BitVec.ofNat 8 ((expansion l).getD i nul).toNat) ∧
      m (s + (expansion l).length) = 0 ∧ r = (expansion l).length

/-- The last thing that the format prints is a field, and it starts in the buffer. -/
def EndsInField (max : ℕ) (l : List Item) : Prop :=
  ∃ pre text, l = pre ++ [.field text] ∧ (expansion pre).length < max

theorem EndsInField.hasRoom {max : ℕ} {l : List Item} (h : EndsInField max l) : HasRoom max 0 l := by
  obtain ⟨pre, text, rfl, hlt⟩ := h
  intro pre' text' post heq
  have hle : (expansion pre').length ≤ (expansion pre).length := by
    rcases List.eq_nil_or_concat post with rfl | ⟨post, i, rfl⟩
    · rw [(List.append_inj' heq rfl).1]
    · have hpre : pre = pre' ++ .field text' :: post := by
        have : pre ++ [.field text] = (pre' ++ .field text' :: post) ++ [i] := by simpa using heq
        exact (List.append_inj' this rfl).1
      rw [hpre, expansion, expansion, List.flatMap_append, List.length_append]
      exact Nat.le_add_right _ _
  omega

/-- What `strftime` leaves in memory and returns, as long as no field starts behind the buffer. -/
theorem strftime_eq (hr : tm.InRange) (hs : s ≠ 0) (hmax : max < 2 ^ 31) (hend : s + max ≤ 2 ^ 64)
    (hitems : items tm fmt = some l) (hroom : HasRoom max 0 l) (mem : Mem) :
    strftime mem s max fmt tm = some
      ((l.foldl (runItem s max) (0, mem)).2, wrapInt (expansion l).length) := by
  have hloop := strftimeLoop_eq hr hs hmax hend hitems 0 mem hroom
  rw [Nat.add_zero, Nat.zero_add] at hloop
  rw [strftime, hloop, Option.map_some]
  dsimp only
  rw [Nat.cast_add, add_sub_cancel_left]

/-- **A format that ends in a field stays in the buffer.** -/
theorem staysInBuffer_of_endsInField (hr : tm.InRange) (hmax : max < 2 ^ 31)
    (hitems : items tm fmt = some l) (h : EndsInField max l) : StaysInBuffer tm fmt max := by
  intro s mem hs hend
  have hrun := strftime_eq hr hs hmax hend hitems h.hasRoom mem
  obtain ⟨pre, text, rfl, hlt⟩ := h
  have hfits := runItems_fits (s := s) mem pre hlt
  rw [runItems_concat, runItem] at hrun
  dsimp only at hrun
  have hlen : (text.take (max - (expansion pre).length - 1)).length
      = min text.length (max - (expansion pre).length - 1) := by
    rw [List.length_take, Nat.min_comm]
  refine ⟨_, _, hrun, fun o ho => ?_,
    ⟨(expansion pre).length + min text.length (max - (expansion pre).length - 1), by omega, ?_⟩, ?_⟩
  · rw [Function.update_of_ne (by omega), storeChars_of_ge (by omega), hfits o (by omega),
      storeChars_of_ge (by omega)]
  · rw [← Nat.add_assoc, Function.update_self]
  · intro l hl hshort
    obtain rfl := Option.some.inj (hitems.symm.trans hl)
    have htotal : (expansion (pre ++ [.field text])).length = (expansion pre).length + text.length := by
      rw [expansion_concat, List.length_append, Item.text]
    have htake : text.take (max - (expansion pre).length - 1) = text :=
      List.take_of_length_le (by omega)
    rw [htake, Nat.min_eq_left (by omega), Nat.add_assoc, ← htotal]
    refine ⟨fun i hi => ?_, Function.update_self _ _ _, wrapInt_of_lt (by omega)⟩
    rw [Function.update_of_ne (by omega), expansion_concat, Item.text,
      storeChars_append fun hout => hfits _ (by omega), storeChars_of_lt (by omega) (by
        rw [List.length_append]; omega), Nat.add_sub_cancel_left]

/-- The characters of a string, without its zero. -/
def IsString (fmt : List Char) : Prop := ∀ c ∈ fmt, 0 < c.toNat ∧ c.toNat < 256

theorem expansion_isString (hr : tm.InRange) (hfmt : IsString fmt) (hitems : items tm fmt = some l) :
    IsString (expansion l) := by
  fun_induction items tm fmt generalizing l with
  | case1 =>
    obtain rfl : [] = l := Option.some.inj hitems
    exact fun _ hc => absurd hc List.not_mem_nil
  | case2 ch fmt hch ih =>
    obtain ⟨l, hl, rfl⟩ := Option.map_eq_some_iff.mp hitems
    intro c hc
    rcases List.mem_cons.mp hc with rfl | hc
    · exact hfmt c List.mem_cons_self
    · exact ih (fun d hd => hfmt d (List.mem_cons_of_mem _ hd)) hl c hc
  | case3 ch hch => exact absurd hitems.symm (Option.some_ne_none _)
  | case4 ch hch fmt ih =>
    obtain ⟨l, hl, rfl⟩ := Option.map_eq_some_iff.mp hitems
    intro c hc
    rcases List.mem_cons.mp hc with rfl | hc
    · decide
    · exact ih (fun d hd => hfmt d (List.mem_cons_of_mem _ (List.mem_cons_of_mem _ hd))) hl c hc
  | case5 ch hch c fmt hc htext ih =>
    exact ih (fun d hd => hfmt d (List.mem_cons_of_mem _ (List.mem_cons_of_mem _ hd))) hitems
  | case6 ch hch c fmt hc text htext ih =>
    obtain ⟨l, hl, rfl⟩ := Option.map_eq_some_iff.mp hitems
    intro d hd
    rw [expansion, List.flatMap_cons, List.mem_append] at hd
    rcases hd with hd | hd
    · exact (fieldText_digits hr htext).2 d hd
    · exact ih (fun e he => hfmt e (List.mem_cons_of_mem _ (List.mem_cons_of_mem _ he))) hl d hd

theorem ofNat_ne_zero {c : Char} (h : 0 < c.toNat ∧ c.toNat < 256) : BitVec.ofNat 8 c.toNat ≠ 0 := by
  intro heq
  have := congrArg BitVec.toNat heq
  rw [BitVec.toNat_ofNat, Nat.mod_eq_of_lt h.2] at this
  exact h.1.ne' this

/-- A text that ends in a character has no zero behind it, or no room for it. -/
theorem endsInField_of_staysInBuffer (hr : tm.InRange) (hfmt : IsString fmt) (hmax : max < 2 ^ 31)
    (hitems : items tm fmt = some l) (hroom : HasRoom max 0 l) (h : StaysInBuffer tm fmt max) :
    EndsInField max l := by
  have hrun := strftime_eq hr one_ne_zero hmax (by omega) hitems hroom
  rcases List.eq_nil_or_concat l with rfl | ⟨pre, i, rfl⟩
  · obtain ⟨m, r, hres, -, ⟨k, -, hzero⟩, -⟩ := h 1 (fun _ => 255) one_ne_zero (by omega)
    rw [hrun] at hres
    obtain ⟨rfl, -⟩ : _ ∧ _ := Prod.mk.inj (Option.some.inj hres)
    exact absurd (show (255 : BitVec 8) = 0 from hzero) (by decide)
  · rw [List.concat_eq_append] at *
    cases i with
    | field text => exact ⟨pre, text, rfl, by simpa using hroom pre text [] rfl⟩
    | char ch =>
      exfalso
      by_cases hlt : (expansion pre).length < max
      · obtain ⟨m, r, hres, -, ⟨k, -, hzero⟩, -⟩ := h 1 (fun _ => 255) one_ne_zero (by omega)
        rw [hrun, runItems_char _ _ _ hlt] at hres
        obtain ⟨rfl, -⟩ : _ ∧ _ := Prod.mk.inj (Option.some.inj hres)
        by_cases hk : k < (expansion (pre ++ [Item.char ch])).length
        · rw [storeChars_of_lt (by omega) (by omega), Nat.add_sub_cancel_left,
            List.getD_eq_getElem _ _ hk] at hzero
          exact ofNat_ne_zero (expansion_isString hr hfmt hitems _ (List.getElem_mem hk)) hzero
        · rw [storeChars_of_ge (by omega)] at hzero
          exact absurd hzero (by decide)
      · obtain ⟨m, r, hres, hframe, -⟩ := h 1 (fun _ => BitVec.ofNat 8 (ch.toNat + 1)) one_ne_zero
          (by omega)
        rw [hrun, runItems_concat, runItem] at hres
        obtain ⟨rfl, -⟩ : _ ∧ _ := Prod.mk.inj (Option.some.inj hres)
        have hbyte := hframe (1 + (expansion pre).length) (Or.inr (by omega))
        dsimp only at hbyte
        rw [Function.update_self] at hbyte
        have := congrArg BitVec.toNat hbyte
        rw [BitVec.toNat_ofNat, BitVec.toNat_ofNat] at this
        omega

/-- **Where `strftime` stays in its buffer**: where the last thing it prints is a field that starts in the
buffer; and while no field starts behind the buffer, nowhere else. -/
theorem staysInBuffer_iff (hr : tm.InRange) (hfmt : IsString fmt) (hmax : max < 2 ^ 31) :
    ((∃ l, items tm fmt = some l ∧ EndsInField max l) → StaysInBuffer tm fmt max) ∧
    (StaysInBuffer tm fmt max →
      ∃ l, items tm fmt = some l ∧ (HasRoom max 0 l → EndsInField max l)) := by
  constructor
  · rintro ⟨l, hitems, hends⟩
    exact staysInBuffer_of_endsInField hr hmax hitems hends
  · intro h
    cases hitems : items tm fmt with
    | none =>
      obtain ⟨m, r, hres, -⟩ := h 1 (fun _ => 0) one_ne_zero (by omega)
      rw [strftime, strftimeLoop_eq_none 1 max hitems] at hres
      exact absurd hres.symm (Option.some_ne_none _)
    | some l => exact ⟨l, rfl, fun hroom => endsInField_of_staysInBuffer hr hfmt hmax hitems hroom h⟩

/-- The first second of 1970. -/
def epochTm : Tm := ⟨0, 0, 0, 1, 0, 70, 4, 0, 0⟩

theorem epochTm_inRange : epochTm.InRange := by
  constructor <;> decide

/-- `:%S` in a buffer for three characters: the last is cut off. -/
theorem staysInBuffer_iff_seconds : StaysInBuffer epochTm [':', '%', 'S'] 3 :=
  (staysInBuffer_iff epochTm_inRange (by simp [IsString]) (by decide)).1
    ⟨[.char ':', .field ['0', '0']], rfl, [.char ':'], ['0', '0'], rfl, by decide⟩

/-- **Two characters in a buffer of one byte** are two bytes. -/
theorem not_staysInBuffer_twoCharacters : ¬ ∀ (tm : Tm) (fmt : List Char) (max : ℕ), tm.InRange →
    IsString fmt → 1 ≤ max → max < 2 ^ 31 → StaysInBuffer tm fmt max := by
  intro h
  obtain ⟨m, r, hres, hframe, -⟩ := h epochTm ['a', 'b'] 1 epochTm_inRange (by simp [IsString])
    le_rfl (by decide) 8 (fun _ => 0) (by decide) (by decide)
  have hroom : HasRoom 1 0 [.char 'a', .char 'b'] := by
    intro pre text post heq
    have hmem : Item.field text ∈ [Item.char 'a', Item.char 'b'] :=
      heq ▸ List.mem_append_right _ List.mem_cons_self
    simp at hmem
  rw [strftime_eq epochTm_inRange (by decide) (by decide) (by decide) rfl hroom] at hres
  obtain ⟨rfl, -⟩ : _ ∧ _ := Prod.mk.inj (Option.some.inj hres)
  exact absurd (hframe 9 (Or.inr le_rfl)) (by decide)

end Runs

end GeekToyOS
