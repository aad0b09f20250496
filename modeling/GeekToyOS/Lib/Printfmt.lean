import GeekToyOS.Data.Numeral

/-!
# `printfmt.c`

`vprintfmt` and `printnum` of `src/lib/printfmt.c`, with the text passed to `putch` as the result.

A format is its characters up to the terminating zero. An argument list is the list of the 64-bit words
that `va_arg` fetches: `va_arg(ap, unsigned int)` is the lower half of a word, the other types are all
of it. Signed arithmetic wraps. `str` is the string at an address, and `errorString` the table of the
error texts; an argument that is not there leaves no outcome.

## Main definitions

* `printnum` — the digits of a number, padded
* `FmtLocals` — the local variables that a directive sets
* `reswitch`, `convert` — the directive after a `%`
* `vprintfmt`
* `NumberDirective` — the directives `%[0][width][l|ll]` with `d`, `u`, `o` or `x`
* `PrintnumLawful` — padding, then the digits
* `NumberDirective.Faithful` — a directive prints the C rendering of a value

## Main results

* `printnum_eq` — `printnum` prints the digits behind the padding
* `printnumLawful_iff` — for every width, unless decrementing it once a digit leaves the `int`s
* `vprintfmt_directive` — a directive prints its argument, and nothing else changes
* `NumberDirective.faithful_iff` — where formatting is faithful: to what is not negative, and to a
  negative `long` without padding
-/

namespace GeekToyOS

/-- Conversion to `int`. -/
def wrapInt (x : ℤ) : ℤ := (x + 2 ^ 31) % 2 ^ 32 - 2 ^ 31

/-- Conversion to `long long`. -/
def wrapLong (x : ℤ) : ℤ := (x + 2 ^ 63) % 2 ^ 64 - 2 ^ 63

/-- Conversion to `unsigned long long`. -/
def wrapULong (x : ℤ) : ℕ := (x % 2 ^ 64).toNat

/-- `"0123456789abcdef"[i]`. -/
def digitOf (i : ℕ) : Char := "0123456789abcdef".toList.getD i '0'

/-- `printnum`. The first argument bounds the depth of the recursion: 64 bits have no more than that many
digits. -/
def printnum : ℕ → ℕ → ℕ → ℤ → Char → List Char
  | 0, _, _, _, _ => []
  | n + 1, num, base, width, padc =>
    -- `while (--width > 0) putch(padc, putdat)` before the first digit
    (if num ≥ base then printnum n (num / base) base (wrapInt (width - 1)) padc
      else List.replicate (wrapInt (width - 1)).toNat padc) ++ [digitOf (num % base)]

/-- The local variables of `vprintfmt` that a directive sets. -/
structure FmtLocals where
  padc : Char
  width : ℤ
  precision : ℤ
  lflag : ℕ
  sgnflag : Bool
  altflag : Bool
deriving DecidableEq, Repr

/-- Their values at the start of a directive. -/
def FmtLocals.init : FmtLocals := ⟨' ', -1, -1, 0, false, false⟩

/-- The loop over the digits of a width: `precision = precision * 10 + ch - '0'; ch = *fmt`. -/
def widthLoop : ℤ → Char → List Char → ℤ × List Char
  | precision, ch, fmt =>
    let precision := wrapInt (precision * 10 + ch.toNat - 48)
    match fmt with
    | [] => (precision, [])
    | c :: rest => if c < '0' ∨ c > '9' then (precision, c :: rest) else widthLoop precision c rest

/-- `process_precision`. -/
def processPrecision (st : FmtLocals) : FmtLocals :=
  if st.width < 0 then { st with width := st.precision, precision := -1 } else st

/-- `number`. -/
def number (st : FmtLocals) (base arg : ℕ) : List Char :=
  let num := if st.lflag = 0 then arg % 2 ^ 32 else arg
  if st.sgnflag ∧ wrapLong num < 0 then
    '-' :: printnum 64 (wrapULong (-wrapLong num)) base st.width st.padc
  else printnum 64 num base st.width st.padc

/-- How many characters of a string `%s` prints. -/
def shownLength (p : List Char) (precision : ℤ) : ℕ :=
  if precision < 0 then p.length else min p.length precision.toNat

/-- `strnlen(p, precision)`, which counts in an `int`. As a `size_t` a negative precision is more than the
length of any string. -/
def strnlen (p : List Char) (precision : ℤ) : ℤ := wrapInt (shownLength p precision)

/-- `%s`: the padding in front, the characters, and the padding behind them. -/
def putString (st : FmtLocals) (p : List Char) : List Char :=
  let front := st.width > 0 ∧ st.padc ≠ '-'
  let width := if front then wrapInt (st.width - strnlen p st.precision) else st.width
  let lead := if front then List.replicate width.toNat st.padc else []
  let width := if front then min width 0 else width
  let shown := p.take (shownLength p st.precision)
  -- each character takes one from the width
  let width := (fun width => wrapInt (width - 1))^[shownLength p st.precision] width
  lead ++ shown.map (fun ch => if st.altflag ∧ (ch < ' ' ∨ ch > '~') then '?' else ch) ++
    List.replicate width.toNat ' '

/-- `%e`: the text of an error, or `printfmt(putch, putdat, "error %d", err)`. `-INT_MIN` leaves no
outcome. -/
def putError (str : ℕ → List Char) (errorString : List ℕ) (arg : ℕ) : Option (List Char) :=
  let err := wrapInt arg
  let err := if err < 0 then wrapInt (-err) else err
  let p := errorString.getD err.toNat 0
  if err < 0 then none
  else if p = 0 then
    some ("error ".toList ++ number { FmtLocals.init with sgnflag := true } 10 (wrapULong err))
  else some (putString .init (str p))

section Directives

variable (str : ℕ → List Char) (errorString : List ℕ)

/-- The conversions that fetch an argument, and what they print for it. -/
def convertArg (st : FmtLocals) (ch : Char) (arg : ℕ) : Option (List Char) :=
  if ch = 'c' then some [Char.ofNat (arg % 2 ^ 8)]
  else if ch = 'e' then putError str errorString arg
  else if ch = 's' then some (putString st (if arg = 0 then "(null)".toList else str arg))
  else if ch = 'd' then some (number { st with sgnflag := true } 10 arg)
  else if ch = 'u' then some (number st 10 arg)
  else if ch = 'o' then some (number st 8 arg)
  else if ch = 'p' then some ('0' :: 'x' :: number { st with lflag := 3 } 16 arg)
  else some (number st 16 arg)

/-- The conversion that ends a directive; `after` is the format behind the `%`. The result is the text,
the rest of the format and the rest of the arguments. -/
def convert (after : List Char) (st : FmtLocals) (ch : Char) (fmt : List Char) (ap : List ℕ) :
    Option (List Char × List Char × List ℕ) :=
  if ch ∈ ['c', 'e', 's', 'd', 'u', 'o', 'p', 'x'] then
    match ap with
    | [] => none
    | arg :: ap => (convertArg str errorString st ch arg).map fun text => (text, fmt, ap)
  else if ch = '%' then some (['%'], fmt, ap)
  -- an unknown directive is printed literally: `fmt` goes back to behind the `%`
  else some (['%'], after, ap)

theorem widthLoop_length : ∀ (fmt : List Char) (precision : ℤ) (ch : Char),
    (widthLoop precision ch fmt).2.length ≤ fmt.length := by
  intro fmt
  induction fmt with
  | nil => exact fun _ _ => le_rfl
  | cons c rest ih =>
    intro precision ch
    rw [widthLoop]
    split
    · exact le_rfl
    · exact (ih _ c).trans (Nat.le_succ _)

/-- `reswitch`: the flags, the width and the length modifiers of a directive, up to its conversion. -/
def reswitch (after : List Char) (st : FmtLocals) (fmt : List Char) (ap : List ℕ) :
    Option (List Char × List Char × List ℕ) :=
  match fmt with
  | [] => some (['%'], after, ap)
  | ch :: fmt =>
    if ch = '-' then reswitch after { st with padc := '-' } fmt ap
    else if ch = '0' then reswitch after { st with padc := '0' } fmt ap
    else if '1' ≤ ch ∧ ch ≤ '9' then
      reswitch after (processPrecision { st with precision := (widthLoop 0 ch fmt).1 })
        (widthLoop 0 ch fmt).2 ap
    else if ch = '*' then
      match ap with
      | [] => none
      | arg :: ap => reswitch after (processPrecision { st with precision := wrapInt arg }) fmt ap
    else if ch = '.' then reswitch after { st with width := if st.width < 0 then 0 else st.width } fmt ap
    else if ch = '#' then reswitch after { st with altflag := true } fmt ap
    else if ch = 'l' then
      reswitch after { st with lflag := if st.lflag < 2 then st.lflag + 1 else st.lflag } fmt ap
    else convert str errorString after st ch fmt ap
termination_by fmt.length
decreasing_by all_goals first
  | exact Nat.lt_succ_self _
  | exact Nat.lt_succ_of_le (widthLoop_length _ _ _)

theorem convert_length {after fmt rest out : List Char} {st : FmtLocals} {ch : Char} {ap ap' : List ℕ}
    (hafter : fmt.length ≤ after.length)
    (h : convert str errorString after st ch fmt ap = some (out, rest, ap')) :
    rest.length ≤ after.length := by
  unfold convert at h
  split at h
  · cases ap with
    | nil => exact absurd h.symm (Option.some_ne_none _)
    | cons arg ap =>
      obtain ⟨text, -, heq⟩ := Option.map_eq_some_iff.mp h
      simp only [Prod.mk.injEq] at heq
      exact heq.2.1 ▸ hafter
  · split at h
    all_goals
      simp only [Option.some.injEq, Prod.mk.injEq] at h
    · exact h.2.1 ▸ hafter
    · exact h.2.1 ▸ le_rfl

theorem reswitch_length {after fmt rest out : List Char} {st : FmtLocals} {ap ap' : List ℕ}
    (hafter : fmt.length ≤ after.length)
    (h : reswitch str errorString after st fmt ap = some (out, rest, ap')) :
    rest.length ≤ after.length := by
  fun_induction reswitch str errorString after st fmt ap
  case case1 =>
    simp only [Option.some.injEq, Prod.mk.injEq] at h
    exact h.2.1 ▸ le_rfl
  case case4 =>
    rename_i ch fmt _ _ _ ih
    have hloop := widthLoop_length fmt 0 ch
    exact ih (hloop.trans (Nat.le_of_succ_le hafter)) h
  case case5 => exact absurd h.symm (Option.some_ne_none _)
  case case10 => exact convert_length str errorString (Nat.le_of_succ_le hafter) h
  all_goals
    rename_i ih
    exact ih (Nat.le_of_succ_le hafter) h

/-- `vprintfmt`. -/
def vprintfmt (fmt : List Char) (ap : List ℕ) : Option (List Char) :=
  match fmt with
  | [] => some []
  | ch :: rest =>
    if ch = '%' then
      match _h : reswitch str errorString rest .init rest ap with
      | none => none
      | some (out, rest', ap) => (vprintfmt rest' ap).map (out ++ ·)
    else (vprintfmt rest ap).map (ch :: ·)
termination_by fmt.length
decreasing_by
  · exact Nat.lt_succ_of_le (reswitch_length str errorString le_rfl _h)
  · exact Nat.lt_succ_self _

end Directives

/-! ### Digits -/

theorem digitOf_eq {d : ℕ} (hd : d < 16) : digitOf d = Nat.digitChar d := by
  interval_cases d <;> rfl

theorem wrapInt_sub (x y : ℤ) : wrapInt (wrapInt x - y) = wrapInt (x - y) := by
  simp only [wrapInt]
  omega

theorem wrapInt_of_mem {x : ℤ} (hlo : -2 ^ 31 ≤ x) (hhi : x < 2 ^ 31) : wrapInt x = x := by
  rw [wrapInt]
  omega

/-- **`printnum` prints the digits behind the padding**; the width is decremented once a digit. -/
theorem printnum_eq {base : ℕ} (hb : 1 < base) (hb16 : base ≤ 16) (padc : Char) :
    ∀ (n : ℕ) {num : ℕ} (width : ℤ), num < base ^ (n + 1) →
      printnum (n + 1) num base width padc =
        List.replicate (wrapInt (width - (Nat.toDigits base num).length)).toNat padc
          ++ Nat.toDigits base num := by
  intro n
  induction n with
  | zero =>
    intro num width hnum
    rw [Nat.zero_add, pow_one] at hnum
    rw [printnum, if_neg (by omega), Nat.toDigits_of_lt_base hnum, Nat.mod_eq_of_lt hnum,
      digitOf_eq (by omega), List.length_singleton, Nat.cast_one]
  | succ n ih =>
    intro num width hnum
    have hmod : num % base < base := Nat.mod_lt num (by omega)
    rw [printnum, digitOf_eq (by omega)]
    rcases Nat.lt_or_ge num base with h | h
    · rw [if_neg (by omega), Nat.toDigits_of_lt_base h, Nat.mod_eq_of_lt h, List.length_singleton,
        Nat.cast_one]
    · have hdiv : num / base < base ^ (n + 1) := by
        rw [Nat.div_lt_iff_lt_mul (by omega), ← pow_succ]
        exact hnum
      have hwidth : width - 1 - ((Nat.toDigits base (num / base)).length : ℤ)
          = width - (Nat.toDigits base num).length := by
        rw [Nat.toDigits_of_base_le hb h, List.length_append, List.length_singleton]
        omega
      rw [if_pos h, ih _ hdiv, wrapInt_sub, hwidth, List.append_assoc,
        ← Nat.toDigits_of_base_le hb h]

theorem length_toDigits_le_64 {base num : ℕ} (hb : 1 < base) (hnum : num < 2 ^ 64) :
    (Nat.toDigits base num).length ≤ 64 :=
  (Nat.length_toDigits_le_iff hb (by norm_num)).mpr (hnum.trans_le (Nat.pow_le_pow_left hb 64))

/-- **The digit law of `printnum`**: padding up to the width, and the digits of the number behind it. -/
def PrintnumLawful (num base : ℕ) (width : ℤ) (padc : Char) : Prop :=
  ∃ digits, Numeral.Shows base num digits ∧ (num = 0 → digits.length = 1) ∧
    printnum 64 num base width padc = List.replicate (width - digits.length).toNat padc ++ digits

/-- **The law holds for every width that an `int` holds less the digits**: below, the width wraps. -/
theorem printnumLawful_iff {num base : ℕ} {width : ℤ} (padc : Char) (hnum : num < 2 ^ 64) (hb : 2 ≤ base)
    (hb16 : base ≤ 16) (hlo : -2 ^ 31 ≤ width) (hhi : width < 2 ^ 31) :
    PrintnumLawful num base width padc ↔ -2 ^ 31 + ((Nat.toDigits base num).length : ℤ) ≤ width := by
  have hlen := length_toDigits_le_64 hb hnum
  have hprint := printnum_eq hb hb16 padc 63 width (hnum.trans_le (Nat.pow_le_pow_left hb 64))
  constructor
  · rintro ⟨digits, hshows, -, heq⟩
    obtain rfl := (Numeral.shows_iff hb hb16).mp hshows
    have hpads := congrArg List.length (hprint.symm.trans heq)
    simp only [List.length_append, List.length_replicate] at hpads
    by_contra hlt
    have hwrap : wrapInt (width - (Nat.toDigits base num).length)
        = width - (Nat.toDigits base num).length + 2 ^ 32 := by
      rw [wrapInt]
      omega
    omega
  · intro hle
    refine ⟨_, Numeral.shows_toDigits hb hb16 num, fun h0 => ?_, ?_⟩
    · rw [h0, Nat.toDigits_zero, List.length_singleton]
    · rw [hprint, wrapInt_of_mem (by omega) (by omega)]

theorem printnumLawful_max : PrintnumLawful (2 ^ 64 - 1) 16 (-1) '0' :=
  (printnumLawful_iff '0' (by norm_num) (by norm_num) le_rfl (by norm_num) (by norm_num)).mpr (by
    have := @length_toDigits_le_64 16 (2 ^ 64 - 1) (by norm_num) (by norm_num)
    omega)

/-- `printnum` with the width `INT_MIN` pads a zero with all the blanks that an `int` can count. -/
theorem not_printnumLawful : ¬ ∀ (num base : ℕ) (width : ℤ) (padc : Char), num < 2 ^ 64 → 2 ≤ base →
    base ≤ 16 → -2 ^ 31 ≤ width → width < 2 ^ 31 → PrintnumLawful num base width padc := by
  intro h
  obtain ⟨digits, -, hone, heq⟩ := h 0 10 (-2 ^ 31) ' ' (by norm_num) (by norm_num) (by norm_num) le_rfl
    (by norm_num)
  have hprint := @printnum_eq 10 (by norm_num) (by norm_num) ' ' 63 0 (-2 ^ 31) (by norm_num)
  have hpads := congrArg List.length (hprint.symm.trans heq)
  simp only [List.length_append, List.length_replicate, hone rfl, Nat.toDigits_zero, List.length_singleton,
    wrapInt] at hpads
  omega

theorem wrapInt_of_lt {n : ℕ} (h : n < 2 ^ 31) : wrapInt n = n := by
  rw [wrapInt]
  omega

theorem wrapInt_mod (n : ℕ) : wrapInt (n % 2 ^ 32 : ℕ) = wrapInt n := by
  rw [wrapInt, wrapInt]
  omega

theorem wrapInt_lt (x : ℤ) : wrapInt x < 2 ^ 31 := by
  rw [wrapInt]
  omega

theorem wrapInt_mul_add (acc d : ℤ) : wrapInt (wrapInt acc * 10 + d) = wrapInt (acc * 10 + d) := by
  simp only [wrapInt]
  omega

theorem isDigit_digitChar {d : ℕ} (hd : d < 10) :
    ¬ (Nat.digitChar d < '0' ∨ Nat.digitChar d > '9') := by
  interval_cases d <;> decide

theorem toNat_digitChar {d : ℕ} (hd : d < 10) : (Nat.digitChar d).toNat = 48 + d := by
  interval_cases d <;> rfl

/-- The loop reads digits up to the first character that is none, and keeps their value as an `int`. -/
theorem widthLoop_digits {ch : Char} (hch : ch < '0' ∨ ch > '9') (rest : List Char) :
    ∀ (l : List Char) (acc : ℕ) (d : ℕ), d < 10 → (∀ c ∈ l, ∃ d < 10, c = Nat.digitChar d) →
      widthLoop (wrapInt acc) (Nat.digitChar d) (l ++ ch :: rest) =
        (wrapInt ((Nat.digitChar d :: l).foldl (fun acc c => acc * 10 + Numeral.digitVal c) acc : ℕ),
          ch :: rest) := by
  intro l
  induction l with
  | nil =>
    intro acc d hd _
    rw [List.nil_append, widthLoop, if_pos hch, toNat_digitChar hd, List.foldl_cons, List.foldl_nil,
      Numeral.digitVal_digitChar (by omega), add_sub_assoc, wrapInt_mul_add]
    push_cast
    ring_nf
  | cons c l ih =>
    intro acc d hd hl
    obtain ⟨e, he, rfl⟩ := hl c (List.mem_cons_self ..)
    have hacc : wrapInt (wrapInt acc * 10 + ((48 + d : ℕ) : ℤ) - 48) = wrapInt (acc * 10 + d : ℕ) := by
      rw [add_sub_assoc, wrapInt_mul_add]
      push_cast
      ring_nf
    rw [List.cons_append, widthLoop, if_neg (isDigit_digitChar he), toNat_digitChar hd, hacc,
      ih _ e he fun c hc => hl c (List.mem_cons_of_mem _ hc)]
    simp only [List.foldl_cons, Numeral.digitVal_digitChar (show d < 16 by omega)]

/-! ### Directives -/

/-- The conversions of numbers. -/
inductive NumberConv
  | d | u | o | x
deriving DecidableEq, Repr

namespace NumberConv

def char : NumberConv → Char
  | d => 'd'
  | u => 'u'
  | o => 'o'
  | x => 'x'

def base : NumberConv → ℕ
  | d | u => 10
  | o => 8
  | x => 16

theorem one_lt_base (c : NumberConv) : 1 < c.base := by cases c <;> decide

theorem base_le (c : NumberConv) : c.base ≤ 16 := by cases c <;> decide

theorem le_base (c : NumberConv) : 8 ≤ c.base := by cases c <;> decide

end NumberConv

/-- `%[0][width][l|ll]` and a conversion; no width is width zero. -/
structure NumberDirective where
  zero : Bool
  width : ℕ
  longs : ℕ
  conv : NumberConv
  longs_le : longs ≤ 2

namespace NumberDirective

variable (D : NumberDirective)

/-- The directive in a format. -/
def text : List Char :=
  '%' :: ((if D.zero then ['0'] else []) ++ (if D.width = 0 then [] else Nat.toDigits 10 D.width)
    ++ List.replicate D.longs 'l' ++ [D.conv.char])

/-- The width of the argument's type. -/
def bits : ℕ := if D.longs = 0 then 32 else 64

/-- The values of the argument's type. -/
def InRange (v : ℤ) : Prop :=
  if D.conv = .d then -2 ^ (D.bits - 1) ≤ v ∧ v < 2 ^ (D.bits - 1) else 0 ≤ v ∧ v < 2 ^ D.bits

instance (v : ℤ) : Decidable (D.InRange v) :=
  inferInstanceAs (Decidable (if D.conv = .d then -2 ^ (D.bits - 1) ≤ v ∧ v < 2 ^ (D.bits - 1)
    else 0 ≤ v ∧ v < 2 ^ D.bits))

/-- A 64-bit word that passes `v`; the upper half does not matter to a 32-bit type. -/
def Passes (v : ℤ) (arg : ℕ) : Prop := arg < 2 ^ 64 ∧ (arg : ℤ) % 2 ^ D.bits = v % 2 ^ D.bits

instance (v : ℤ) (arg : ℕ) : Decidable (D.Passes v arg) := inferInstanceAs (Decidable (_ ∧ _))

/-- The local variables at the conversion. -/
def locals : FmtLocals :=
  ⟨if D.zero then '0' else ' ', if D.width = 0 then -1 else wrapInt D.width, -1, D.longs,
    D.conv = .d, false⟩

end NumberDirective

section Parsing

variable (str : ℕ → List Char) (errorString : List ℕ) (after : List Char) (st : FmtLocals)

theorem reswitch_zero (fmt : List Char) (ap : List ℕ) :
    reswitch str errorString after st ('0' :: fmt) ap
      = reswitch str errorString after { st with padc := '0' } fmt ap := by
  rw [reswitch.eq_def]
  dsimp only
  rw [if_neg (by decide), if_pos rfl]

theorem reswitch_minus (fmt : List Char) (ap : List ℕ) :
    reswitch str errorString after st ('-' :: fmt) ap
      = reswitch str errorString after { st with padc := '-' } fmt ap := by
  rw [reswitch.eq_def]
  dsimp only
  rw [if_pos rfl]

theorem reswitch_dot (fmt : List Char) (ap : List ℕ) :
    reswitch str errorString after st ('.' :: fmt) ap
      = reswitch str errorString after { st with width := if st.width < 0 then 0 else st.width }
        fmt ap := by
  rw [reswitch.eq_def]
  dsimp only
  rw [if_neg (by decide), if_neg (by decide), if_neg (by decide), if_neg (by decide), if_pos rfl]

theorem reswitch_star (fmt : List Char) (arg : ℕ) (ap : List ℕ) :
    reswitch str errorString after st ('*' :: fmt) (arg :: ap)
      = reswitch str errorString after (processPrecision { st with precision := wrapInt arg }) fmt ap := by
  rw [reswitch.eq_def]
  dsimp only
  rw [if_neg (by decide), if_neg (by decide), if_neg (by decide), if_pos rfl]

/-- Digits before a conversion become the width, or the precision behind a point. -/
theorem reswitch_digits {w : ℕ} (hw : 0 < w) {ch : Char} (hch : ch < '0' ∨ ch > '9')
    (fmt : List Char) (ap : List ℕ) :
    reswitch str errorString after st (Nat.toDigits 10 w ++ ch :: fmt) ap
      = reswitch str errorString after (processPrecision { st with precision := wrapInt w })
        (ch :: fmt) ap := by
  obtain ⟨d, l, hd, hlt, heq⟩ := @Numeral.toDigits_head 10 w (by decide) hw
  have hmem : ∀ c ∈ l, ∃ d < 10, c = Nat.digitChar d := fun c hc =>
    Numeral.mem_toDigits (n := w) (by decide) (heq ▸ List.mem_cons_of_mem _ hc)
  have hloop := widthLoop_digits hch fmt l 0 d hlt hmem
  have hval := @Numeral.ofDigits_toDigits 10 (by decide) (by decide) w
  rw [heq, Numeral.ofDigits] at hval
  rw [hval, show wrapInt ((0 : ℕ) : ℤ) = 0 from rfl] at hloop
  have hfirst : Nat.digitChar d ≠ '-' ∧ Nat.digitChar d ≠ '0' ∧
      '1' ≤ Nat.digitChar d ∧ Nat.digitChar d ≤ '9' := by
    interval_cases d <;> decide
  rw [heq, List.cons_append, reswitch.eq_def]
  dsimp only
  rw [if_neg hfirst.1, if_neg hfirst.2.1, if_pos hfirst.2.2, hloop]

theorem reswitch_width {w : ℕ} (hw : 0 < w) {ch : Char} (hch : ch < '0' ∨ ch > '9')
    (fmt : List Char) (ap : List ℕ) (hst : st.width < 0 ∧ st.precision = -1) :
    reswitch str errorString after st (Nat.toDigits 10 w ++ ch :: fmt) ap
      = reswitch str errorString after { st with width := wrapInt w } (ch :: fmt) ap := by
  rw [reswitch_digits str errorString after st hw hch, processPrecision, if_pos hst.1]
  cases st
  simp only at hst
  rw [hst.2]

theorem reswitch_longs (k : ℕ) (fmt : List Char) (ap : List ℕ) :
    ∀ st : FmtLocals, st.lflag + k ≤ 2 →
      reswitch str errorString after st (List.replicate k 'l' ++ fmt) ap
        = reswitch str errorString after { st with lflag := st.lflag + k } fmt ap := by
  induction k with
  | zero =>
    intro st _
    rfl
  | succ k ih =>
    intro st hst
    rw [List.replicate_succ, List.cons_append, reswitch.eq_def]
    simp only [show ('l' : Char) ≠ '-' by decide, show ('l' : Char) ≠ '0' by decide,
      show ¬ ('1' ≤ 'l' ∧ 'l' ≤ '9') by decide, show ('l' : Char) ≠ '*' by decide,
      show ('l' : Char) ≠ '.' by decide, show ('l' : Char) ≠ '#' by decide, if_false, if_true]
    rw [if_pos (show st.lflag < 2 by omega), ih _ (by simp only; omega)]
    simp only [Nat.add_assoc, Nat.add_comm 1 k]

theorem reswitch_conv (c : NumberConv) (arg : ℕ) (fmt : List Char) (ap : List ℕ)
    (hst : st.sgnflag = false) :
    reswitch str errorString after st (c.char :: fmt) (arg :: ap)
      = some (number { st with sgnflag := c = .d } c.base arg, fmt, ap) := by
  rw [reswitch.eq_def]
  cases st
  simp only at hst
  subst hst
  cases c <;> rfl

/-- The directive without its `%` is read to its end, and its argument is printed. -/
theorem reswitch_directive (D : NumberDirective) (arg : ℕ) (rest : List Char) (ap : List ℕ) :
    reswitch str errorString after .init (D.text.tail ++ rest) (arg :: ap)
      = some (number D.locals D.conv.base arg, rest, ap) := by
  obtain ⟨zero, width, longs, conv, hlongs⟩ := D
  -- the format behind the width, and its first character
  obtain ⟨ch, fmt, hfmt, hch⟩ : ∃ ch fmt,
      List.replicate longs 'l' ++ (conv.char :: rest) = ch :: fmt ∧ (ch < '0' ∨ ch > '9') := by
    cases longs with
    | zero =>
      refine ⟨_, _, rfl, ?_⟩
      cases conv <;> decide
    | succ k => exact ⟨_, _, rfl, by decide⟩
  have hzero : ∀ fmt, reswitch str errorString after .init
      ((if zero then ['0'] else []) ++ fmt) (arg :: ap)
      = reswitch str errorString after { FmtLocals.init with padc := if zero then '0' else ' ' }
        fmt (arg :: ap) := by
    intro fmt
    cases zero with
    | false => rfl
    | true => exact reswitch_zero str errorString after .init fmt (arg :: ap)
  have hwidth : ∀ st : FmtLocals, st.width = -1 → st.precision = -1 →
      reswitch str errorString after st
        ((if width = 0 then [] else Nat.toDigits 10 width) ++ ch :: fmt) (arg :: ap)
      = reswitch str errorString after
        { st with width := if width = 0 then -1 else wrapInt width } (ch :: fmt) (arg :: ap) := by
    intro st hw hp
    rcases Nat.eq_zero_or_pos width with rfl | hpos
    · cases st
      simp only at hw
      subst hw
      rfl
    · rw [if_neg (by omega), if_neg (by omega)]
      exact reswitch_width str errorString after st hpos hch fmt (arg :: ap) ⟨by omega, hp⟩
  have hsplit : NumberDirective.text ⟨zero, width, longs, conv, hlongs⟩ = '%' ::
      ((if zero then ['0'] else []) ++ ((if width = 0 then [] else Nat.toDigits 10 width) ++
        (List.replicate longs 'l' ++ [conv.char]))) := by
    rw [NumberDirective.text, List.append_assoc, List.append_assoc]
  rw [hsplit, List.tail_cons, List.append_assoc, List.append_assoc, List.append_assoc,
    List.singleton_append, hzero, hfmt, hwidth _ rfl rfl, ← hfmt,
    reswitch_longs str errorString after longs _ _ _ (by simpa [FmtLocals.init] using hlongs),
    reswitch_conv str errorString after _ _ _ _ _ rfl]
  simp [NumberDirective.locals, FmtLocals.init]

/-- The format goes on behind a directive, with the arguments behind its own. -/
theorem vprintfmt_of_reswitch {fmt rest out : List Char} {ap ap' : List ℕ}
    (h : reswitch str errorString fmt .init fmt ap = some (out, rest, ap')) :
    vprintfmt str errorString ('%' :: fmt) ap
      = (vprintfmt str errorString rest ap').map (out ++ ·) := by
  rw [vprintfmt.eq_def]
  dsimp only
  rw [if_pos rfl]
  split
  · rename_i heq
    rw [h] at heq
    exact absurd heq (Option.some_ne_none _)
  · rename_i heq
    rw [h] at heq
    obtain ⟨rfl, rfl, rfl⟩ : _ ∧ _ ∧ _ := by simpa using heq
    rfl

/-- **A directive prints its argument, and nothing else changes**: the format goes on behind it, with
the arguments behind its own. -/
theorem vprintfmt_directive (D : NumberDirective) (arg : ℕ) (rest : List Char) (ap : List ℕ) :
    vprintfmt str errorString (D.text ++ rest) (arg :: ap)
      = (vprintfmt str errorString rest ap).map (number D.locals D.conv.base arg ++ ·) :=
  vprintfmt_of_reswitch str errorString (reswitch_directive str errorString _ D arg rest ap)

end Parsing

/-! ### Numbers -/

namespace NumberDirective

variable (D : NumberDirective) {v : ℤ} {arg : ℕ}

/-- The digits of a number, and the padding before them. -/
def padded (n : ℕ) : List Char :=
  List.replicate (wrapInt (D.locals.width - (Nat.toDigits D.conv.base n).length)).toNat D.locals.padc
    ++ Nat.toDigits D.conv.base n

theorem printnum_padded {n : ℕ} (hn : n < 2 ^ 64) :
    printnum 64 n D.conv.base D.locals.width D.locals.padc = D.padded n := by
  have hpow : 2 ^ 64 ≤ D.conv.base ^ 64 := Nat.pow_le_pow_left D.conv.one_lt_base 64
  exact printnum_eq D.conv.one_lt_base D.conv.base_le _ 63 _ (hn.trans_le hpow)

/-- What `va_arg` fetches is the value modulo the size of the conversion. -/
theorem fetched_eq (h : D.Passes v arg) :
    ((if D.locals.lflag = 0 then arg % 2 ^ 32 else arg : ℕ) : ℤ) = v % 2 ^ D.bits := by
  obtain ⟨hlt, hmod⟩ := h
  rw [← hmod]
  by_cases h0 : D.longs = 0
  · rw [if_pos (show D.locals.lflag = 0 from h0), bits, if_pos h0]
    push_cast
    rfl
  · rw [if_neg (show ¬ D.locals.lflag = 0 from h0), bits, if_neg h0,
      Int.emod_eq_of_lt (by omega) (by exact_mod_cast hlt)]

/-- **What the code prints**: a negative number of 32 bits as if it were unsigned, and one of 64 bits with
the padding between sign and digits. -/
theorem number_eq (hr : D.InRange v) (hp : D.Passes v arg) :
    number D.locals D.conv.base arg =
      if 0 ≤ v then D.padded v.toNat
      else if D.longs = 0 then D.padded (v + 2 ^ 32).toNat
      else '-' :: D.padded v.natAbs := by
  have hnum := D.fetched_eq hp
  rw [number]
  generalize (if D.locals.lflag = 0 then arg % 2 ^ 32 else arg : ℕ) = num at hnum
  have hlt : num < 2 ^ 64 := by
    rw [bits] at hnum
    split at hnum <;> omega
  by_cases hneg : D.locals.sgnflag = true ∧ wrapLong num < 0
  · -- only a negative number of 64 bits has the sign of its word
    obtain ⟨hd, hlong⟩ := hneg
    have hd : D.conv = .d := by simpa [locals] using hd
    rw [InRange, if_pos hd] at hr
    rw [wrapLong] at hlong
    have h0 : D.longs ≠ 0 := by
      intro h0
      rw [bits, if_pos h0] at hnum
      omega
    rw [bits, if_neg h0] at hr hnum
    have hmag : wrapULong (-wrapLong num) = v.natAbs := by
      rw [wrapULong, wrapLong]
      omega
    rw [if_pos ⟨by simpa [locals] using hd, by rw [wrapLong]; exact hlong⟩, if_neg (by omega),
      if_neg h0, hmag, D.printnum_padded (by omega)]
  · rw [if_neg hneg, D.printnum_padded hlt]
    by_cases hd : D.conv = .d
    · have hlong : ¬ wrapLong num < 0 := fun h => hneg ⟨by simpa [locals] using hd, h⟩
      rw [wrapLong] at hlong
      rw [InRange, if_pos hd] at hr
      rw [bits] at hr hnum
      split at hr
      · rename_i h0
        rw [if_pos h0] at hnum
        by_cases hv : 0 ≤ v
        · rw [if_pos hv, show num = v.toNat by omega]
        · rw [if_neg hv, if_pos h0, show num = (v + 2 ^ 32).toNat by omega]
      · rename_i h0
        rw [if_neg h0] at hnum
        rw [if_pos (by omega), show num = v.toNat by omega]
    · rw [InRange, if_neg hd] at hr
      rw [bits] at hr hnum
      rw [Int.emod_eq_of_lt hr.1 hr.2] at hnum
      rw [if_pos hr.1, show num = v.toNat by omega]

/-- The padding is right for every width that an `int` holds less the digits. -/
theorem locals_width {n : ℕ} (hn : n < 2 ^ 31) (hw : D.width < 2 ^ 31 + n) :
    (wrapInt (D.locals.width - n)).toNat = D.width - n := by
  simp only [locals, wrapInt]
  split <;> omega

theorem readBack_padded (n : ℕ) : Numeral.readBack D.conv.base (D.padded n) = n := by
  have hread := fun k =>
    Numeral.readBack_toDigits D.conv.one_lt_base D.conv.base_le k n
  rw [padded]
  cases hz : D.zero with
  | true =>
    rw [show D.locals.padc = '0' by simp [locals, hz], hread]
  | false =>
    have hplain := hread 0
    rw [List.replicate_zero, List.nil_append] at hplain
    rw [show D.locals.padc = ' ' by simp [locals, hz], Numeral.readBack_blanks, hplain]

theorem length_padded (n : ℕ) : (D.padded n).length
    = (wrapInt (D.locals.width - (Nat.toDigits D.conv.base n).length)).toNat
      + (Nat.toDigits D.conv.base n).length := by
  rw [padded, List.length_append, List.length_replicate]

/-- The C rendering of a value. -/
def rendering (v : ℤ) : List Char :=
  Numeral.render D.zero D.width (v < 0) D.conv.base v.natAbs

theorem length_digits_le (hr : D.InRange v) : (Nat.toDigits D.conv.base v.natAbs).length ≤ 22 := by
  have hpow : 8 ^ 22 ≤ D.conv.base ^ 22 := Nat.pow_le_pow_left D.conv.le_base 22
  have hlt : v.natAbs < 8 ^ 22 := by
    simp only [InRange, bits] at hr
    split at hr <;> split at hr <;> omega
  exact (Nat.length_toDigits_le_iff D.conv.one_lt_base (by norm_num)).mpr (hlt.trans_le hpow)

theorem padded_eq_rendering (hr : D.InRange v) (hv : 0 ≤ v)
    (hw : D.width < 2 ^ 31 + (Nat.toDigits D.conv.base v.natAbs).length) :
    D.padded v.toNat = D.rendering v := by
  have hdigits := D.length_digits_le hr
  obtain ⟨n, rfl⟩ := Int.eq_ofNat_of_zero_le hv
  rw [Int.natAbs_natCast] at hdigits hw
  have hneg : decide ((n : ℤ) < 0) = false := by simp
  rw [Int.toNat_natCast, padded, D.locals_width (by omega) hw, rendering, hneg, Int.natAbs_natCast,
    Numeral.render]
  cases hz : D.zero <;> simp [locals, hz, Numeral.sign]

/-- If the digits fill the width there is nothing to be padded, and the sign stands where it should. -/
theorem minus_padded_eq_rendering (hr : D.InRange v) (hv : v < 0)
    (hdigits : D.width ≤ (Nat.toDigits D.conv.base v.natAbs).length) :
    '-' :: D.padded v.natAbs = D.rendering v := by
  have hlen := D.length_digits_le hr
  have hneg : decide (v < 0) = true := by simpa using hv
  rw [padded, D.locals_width (by omega) (by omega), rendering, hneg, Numeral.render,
    Nat.sub_eq_zero_of_le hdigits, Nat.sub_eq_zero_of_le (by omega)]
  cases D.zero <;> simp [Numeral.sign]

/-- A width that is no `int` is lost, if it is not so little too large that the digits bring it back. -/
theorem width_lt_of_length (hr : D.InRange v) {k : ℕ} (hk : k ≤ 1)
    (h : k + ((wrapInt (D.locals.width - (Nat.toDigits D.conv.base v.natAbs).length)).toNat
      + (Nat.toDigits D.conv.base v.natAbs).length) = (D.rendering v).length)
    (hsign : (Numeral.sign (v < 0)).length = k) :
    D.width < 2 ^ 31 + (Nat.toDigits D.conv.base v.natAbs).length ∧
      (k = 1 → D.width ≤ (Nat.toDigits D.conv.base v.natAbs).length) := by
  have hdigits := D.length_digits_le hr
  rw [rendering, Numeral.length_render, hsign] at h
  generalize (Nat.toDigits D.conv.base v.natAbs).length = d at h hdigits
  simp only [locals, wrapInt] at h
  split at h <;> omega

/-- **Number formatting is faithful**: the directive prints the C rendering of its argument, and reading
that back yields the argument. -/
def Faithful (v : ℤ) : Prop :=
  ∀ (str : ℕ → List Char) (errorString : List ℕ) (arg : ℕ) (rest : List Char) (ap : List ℕ),
    D.Passes v arg → ∃ text,
      vprintfmt str errorString (D.text ++ rest) (arg :: ap)
        = (vprintfmt str errorString rest ap).map (text ++ ·) ∧
      text = D.rendering v ∧ Numeral.readBack D.conv.base text = v

/-- **Formatting is faithful to no negative `int`, and to a negative `long` only where its width leaves no
room for padding.** For the others the width less the digits has to be an `int`. -/
theorem faithful_iff {D : NumberDirective} {v : ℤ} (hr : D.InRange v) : D.Faithful v ↔
    0 ≤ v ∧ D.width < 2 ^ 31 + (Nat.toDigits D.conv.base v.natAbs).length ∨
      D.longs ≠ 0 ∧ D.width ≤ (Nat.toDigits D.conv.base v.natAbs).length := by
  constructor
  · intro h
    have hpass : D.Passes v (v % 2 ^ 64).toNat := by
      constructor
      · omega
      · simp only [bits]
        split <;> omega
    obtain ⟨text, hprint, htext, hread⟩ := h (fun _ => []) [] _ [] [] hpass
    rw [vprintfmt_directive, vprintfmt.eq_def] at hprint
    simp only [Option.map_some, List.append_nil, Option.some.injEq] at hprint
    rw [D.number_eq hr hpass] at hprint
    by_cases hv : 0 ≤ v
    · rw [if_pos hv] at hprint
      have hlen := D.length_padded v.toNat
      rw [hprint, htext, show v.toNat = v.natAbs by omega] at hlen
      have hneg : decide (v < 0) = false := by simpa using hv
      have hwidth := D.width_lt_of_length hr (Nat.zero_le 1) ((Nat.zero_add _).trans hlen.symm)
        (by rw [hneg]; rfl)
      exact Or.inl ⟨hv, hwidth.1⟩
    · rw [if_neg hv] at hprint
      by_cases h0 : D.longs = 0
      · -- an unsigned text does not read back as a negative number
        rw [if_pos h0] at hprint
        rw [← hprint, D.readBack_padded] at hread
        omega
      · rw [if_neg h0] at hprint
        have hlen := congrArg List.length hprint
        rw [List.length_cons, D.length_padded, htext, Nat.add_comm] at hlen
        have hneg : decide (v < 0) = true := by simpa using hv
        have hwidth := D.width_lt_of_length hr le_rfl hlen (by rw [hneg]; rfl)
        exact Or.inr ⟨h0, hwidth.2 rfl⟩
  · rintro hcase str errorString arg rest ap hpass
    refine ⟨_, vprintfmt_directive str errorString D arg rest ap, ?_⟩
    rw [D.number_eq hr hpass]
    suffices h : (if 0 ≤ v then D.padded v.toNat
        else if D.longs = 0 then D.padded (v + 2 ^ 32).toNat
        else '-' :: D.padded v.natAbs) = D.rendering v by
      refine ⟨h, ?_⟩
      rw [h, rendering, Numeral.readBack_render D.conv.one_lt_base D.conv.base_le]
      by_cases hv : v < 0
      · rw [if_pos (by simpa using hv)]
        omega
      · rw [if_neg (by simpa using hv)]
        omega
    by_cases hv : 0 ≤ v
    · rw [if_pos hv, D.padded_eq_rendering hr hv (by omega)]
    · obtain ⟨h0, hdigits⟩ := hcase.resolve_left fun h => hv h.1
      rw [if_neg hv, if_neg h0, D.minus_padded_eq_rendering hr (by omega) hdigits]

/-- `%1ld` prints `-5` of minus five: there is nothing to be padded. -/
theorem faithful_iff_minusFive : NumberDirective.Faithful ⟨false, 1, 1, .d, by decide⟩ (-5) :=
  (faithful_iff (by decide)).mpr (Or.inr ⟨by decide, by decide⟩)

/-- **`%d` of minus one prints `4294967295`**, since the argument is fetched without a sign. -/
theorem not_faithful_minusOne : ¬ ∀ (D : NumberDirective) (v : ℤ), D.InRange v → D.Faithful v := by
  intro h
  obtain ⟨text, hprint, htext, -⟩ := h ⟨false, 0, 0, .d, by decide⟩ (-1) (by decide)
    (fun _ => []) [] (2 ^ 32 - 1) [] [] (by decide)
  rw [vprintfmt_directive, vprintfmt.eq_def] at hprint
  simp only [Option.map_some, List.append_nil, Option.some.injEq] at hprint
  have hcode : number (locals ⟨false, 0, 0, .d, by decide⟩) 10 (2 ^ 32 - 1) = "4294967295".toList := by
    decide +kernel
  have hspec : rendering ⟨false, 0, 0, .d, by decide⟩ (-1) = "-1".toList := by decide +kernel
  have hne : "4294967295".toList ≠ "-1".toList := by decide
  exact hne (hcode.symm.trans (hprint.trans (htext.trans hspec)))

end NumberDirective

end GeekToyOS
