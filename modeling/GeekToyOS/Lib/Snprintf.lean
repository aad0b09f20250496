import GeekToyOS.Data.Raster
import GeekToyOS.Lib.FormatScan

/-!
# Printing into a buffer

`vsnprintf`, `snprintf` and `sprintputch` of `src/lib/printfmt.c`. Here `vprintfmt` and `printnum` take the
function `putch` that they call for every character, and the value `putdat` that it acts on, and the
loops that call it are written out. The format and the strings it prints are not in the buffer.

## Main definitions

* `vprintfmtTo` — `vprintfmt`, one call of `putch` after the other
* `Sprintbuf`, `sprintputch` — the cursor in a buffer, and the call that moves it
* `vsnprintf`, `snprintf`
* `Truncates` — the law of a buffer that may be too small

## Main results

* `vprintfmtTo_eq` — `putch` is called for every character of the text, in order
* `foldl_sprintputch` — what a run of calls leaves in a buffer
* `vsnprintf_eq` — what `vsnprintf` does
* `vsnprintf_truncates` — the law, but for the number returned, which is an `int`
-/

namespace GeekToyOS

open Raster

section Putch

variable {σ : Type*} (putch : σ → Char → σ)

/-- `while (--width > 0) putch(padc, putdat)` -/
def padBefore (padc : Char) (width : ℤ) (putdat : σ) : σ :=
  if wrapInt (width - 1) > 0 then padBefore padc (wrapInt (width - 1)) (putch putdat padc) else putdat
termination_by (wrapInt (width - 1)).toNat
decreasing_by
  have := wrapInt_lt (width - 1)
  rw [wrapInt_of_mem (x := wrapInt (width - 1) - 1) (by omega) (by omega)]
  omega

/-- `for (; width > 0; width--) putch(padc, putdat)` -/
def padLoop (padc : Char) (width : ℤ) (putdat : σ) : σ :=
  if width > 0 then padLoop padc (width - 1) (putch putdat padc) else putdat
termination_by width.toNat

/-- `printnum`, with the bound of `printnum` on the depth of the recursion. -/
def printnumTo : ℕ → ℕ → ℕ → ℤ → Char → σ → σ
  | 0, _, _, _, _, putdat => putdat
  | n + 1, num, base, width, padc, putdat =>
    putch
      (if num ≥ base then printnumTo n (num / base) base (wrapInt (width - 1)) padc putdat
        else padBefore putch padc width putdat)
      (digitOf (num % base))

/-- `number`. -/
def numberTo (st : FmtLocals) (base arg : ℕ) (putdat : σ) : σ :=
  let num := if st.lflag = 0 then arg % 2 ^ 32 else arg
  if st.sgnflag ∧ wrapLong num < 0 then
    printnumTo putch 64 (wrapULong (-wrapLong num)) base st.width st.padc (putch putdat '-')
  else printnumTo putch 64 num base st.width st.padc putdat

/-- `for (; (ch = *p++) != '\0' && (precision < 0 || --precision >= 0); width--)`, with the width that it
leaves. -/
def stringLoop (altflag : Bool) : List Char → ℤ → ℤ → σ → ℤ × σ
  | [], _, width, putdat => (width, putdat)
  | ch :: p, precision, width, putdat =>
    if precision < 0 ∨ precision - 1 ≥ 0 then
      stringLoop altflag p (if precision < 0 then precision else precision - 1) (wrapInt (width - 1))
        (putch putdat (if altflag ∧ (ch < ' ' ∨ ch > '~') then '?' else ch))
    else (width, putdat)

/-- `%s`. -/
def putStringTo (st : FmtLocals) (p : List Char) (putdat : σ) : σ :=
  let (width, putdat) :=
    if st.width > 0 ∧ st.padc ≠ '-' then
      let width := wrapInt (st.width - strnlen p st.precision)
      (min width 0, padLoop putch st.padc width putdat)
    else (st.width, putdat)
  let (width, putdat) := stringLoop putch st.altflag p st.precision width putdat
  padLoop putch ' ' width putdat

/-- `printfmt` with a text that is no directive. -/
def putLiteral (text : List Char) (putdat : σ) : σ := text.foldl putch putdat

/-- `%e`. -/
def putErrorTo (str : ℕ → List Char) (errorString : List ℕ) (arg : ℕ) (putdat : σ) : Option σ :=
  let err := wrapInt arg
  let err := if err < 0 then wrapInt (-err) else err
  let p := errorString.getD err.toNat 0
  if err < 0 then none
  else if p = 0 then
    some (numberTo putch { FmtLocals.init with sgnflag := true } 10 (wrapULong err)
      (putLiteral putch "error ".toList putdat))
  else some (putStringTo putch .init (str p) putdat)

variable (str : ℕ → List Char) (errorString : List ℕ)

/-- The conversions that fetch an argument. -/
def convertArgTo (st : FmtLocals) (ch : Char) (arg : ℕ) (putdat : σ) : Option σ :=
  if ch = 'c' then some (putch putdat (Char.ofNat (arg % 2 ^ 8)))
  else if ch = 'e' then putErrorTo putch str errorString arg putdat
  else if ch = 's' then
    some (putStringTo putch st (if arg = 0 then "(null)".toList else str arg) putdat)
  else if ch = 'd' then some (numberTo putch { st with sgnflag := true } 10 arg putdat)
  else if ch = 'u' then some (numberTo putch st 10 arg putdat)
  else if ch = 'o' then some (numberTo putch st 8 arg putdat)
  else if ch = 'p' then
    some (numberTo putch { st with lflag := 3 } 16 arg (putch (putch putdat '0') 'x'))
  else some (numberTo putch st 16 arg putdat)

/-- The conversion that ends a directive; `after` is the format behind the `%`. -/
def conversionTo (after : List Char) (putdat : σ) :
    FmtLocals × List Char × List ℕ → Option (σ × List Char × List ℕ)
  | (_, [], ap) => some (putch putdat '%', after, ap)
  | (st, ch :: fmt, ap) =>
    if ch ∈ ['c', 'e', 's', 'd', 'u', 'o', 'p', 'x'] then
      match ap with
      | [] => none
      | arg :: ap =>
        (convertArgTo putch str errorString st ch arg putdat).map fun putdat => (putdat, fmt, ap)
    else if ch = '%' then some (putch putdat '%', fmt, ap)
    else some (putch putdat '%', after, ap)

theorem flagLoop_length {st st' : FmtLocals} {fmt fmt' : List Char} {ap ap' : List ℕ}
    (h : flagLoop st fmt ap = some (st', fmt', ap')) : fmt'.length ≤ fmt.length := by
  fun_induction flagLoop st fmt ap
  case case1 =>
    simp only [Option.some.injEq, Prod.mk.injEq] at h
    rw [← h.2.1]
  case case4 =>
    rename_i ch fmt _ _ _ ih
    exact (ih h).trans ((widthLoop_length fmt 0 ch).trans (Nat.le_succ _))
  case case5 => exact absurd h.symm (Option.some_ne_none _)
  case case10 =>
    simp only [Option.some.injEq, Prod.mk.injEq] at h
    rw [← h.2.1]
  all_goals
    rename_i ih
    exact (ih h).trans (Nat.le_succ _)

theorem conversionTo_length {after fmt : List Char} {putdat d : σ} {ap : List ℕ}
    {x : FmtLocals × List Char × List ℕ} (hafter : x.2.1.length ≤ after.length)
    (h : conversionTo putch str errorString after putdat x = some (d, fmt, ap)) :
    fmt.length ≤ after.length := by
  obtain ⟨st, rest, args⟩ := x
  cases rest with
  | nil =>
    simp only [conversionTo, Option.some.injEq, Prod.mk.injEq] at h
    rw [← h.2.1]
  | cons ch rest =>
    rw [conversionTo.eq_def] at h
    dsimp only at h
    have hrest : rest.length ≤ after.length := (Nat.le_succ _).trans hafter
    split at h
    · cases args with
      | nil => exact absurd h.symm (Option.some_ne_none _)
      | cons arg args =>
        obtain ⟨putdat', -, heq⟩ := Option.map_eq_some_iff.mp h
        simp only [Prod.mk.injEq] at heq
        exact heq.2.1 ▸ hrest
    · split at h
      all_goals
        simp only [Option.some.injEq, Prod.mk.injEq] at h
      · exact h.2.1 ▸ hrest
      · exact h.2.1 ▸ le_rfl

/-- `vprintfmt`. -/
def vprintfmtTo (fmt : List Char) (ap : List ℕ) (putdat : σ) : Option σ :=
  match fmt with
  | [] => some putdat
  | ch :: fmt =>
    if ch = '%' then
      match _h : (flagLoop .init fmt ap).bind (conversionTo putch str errorString fmt putdat) with
      | none => none
      | some (putdat, fmt', ap) => vprintfmtTo fmt' ap putdat
    else vprintfmtTo fmt ap (putch putdat ch)
termination_by fmt.length
decreasing_by
  · obtain ⟨x, hflags, hconv⟩ := Option.bind_eq_some_iff.mp _h
    exact Nat.lt_succ_of_le (conversionTo_length putch str errorString (flagLoop_length hflags) hconv)
  · exact Nat.lt_succ_self _

/-! ### The calls of `putch` -/

variable {putch} {str} {errorString}

theorem padBefore_eq (padc : Char) (width : ℤ) (putdat : σ) :
    padBefore putch padc width putdat
      = (List.replicate (wrapInt (width - 1)).toNat padc).foldl putch putdat := by
  fun_induction padBefore putch padc width putdat with
  | case1 width putdat hpos ih =>
    have hlt := wrapInt_lt (width - 1)
    have hnext : wrapInt (wrapInt (width - 1) - 1) = wrapInt (width - 1) - 1 :=
      wrapInt_of_mem (by omega) (by omega)
    rw [ih, hnext, show (wrapInt (width - 1)).toNat = (wrapInt (width - 1) - 1).toNat + 1 by omega,
      List.replicate_succ, List.foldl_cons]
  | case2 width putdat hpos =>
    rw [show (wrapInt (width - 1)).toNat = 0 by omega, List.replicate_zero, List.foldl_nil]

theorem padLoop_eq (padc : Char) (width : ℤ) (putdat : σ) :
    padLoop putch padc width putdat = (List.replicate width.toNat padc).foldl putch putdat := by
  fun_induction padLoop putch padc width putdat with
  | case1 width putdat hpos ih =>
    rw [ih, show width.toNat = (width - 1).toNat + 1 by omega, List.replicate_succ, List.foldl_cons]
  | case2 width putdat hpos =>
    rw [show width.toNat = 0 by omega, List.replicate_zero, List.foldl_nil]

theorem printnumTo_eq (base : ℕ) (padc : Char) (putdat : σ) : ∀ (n num : ℕ) (width : ℤ),
    printnumTo putch n num base width padc putdat
      = (printnum n num base width padc).foldl putch putdat := by
  intro n
  induction n with
  | zero => exact fun _ _ => rfl
  | succ n ih =>
    intro num width
    rw [printnumTo, printnum, List.foldl_append, List.foldl_cons, List.foldl_nil]
    by_cases hnum : num ≥ base
    · rw [if_pos hnum, if_pos hnum, ih]
    · rw [if_neg hnum, if_neg hnum, padBefore_eq]

theorem numberTo_eq (st : FmtLocals) (base arg : ℕ) (putdat : σ) :
    numberTo putch st base arg putdat = (number st base arg).foldl putch putdat := by
  rw [numberTo, number]
  generalize (if st.lflag = 0 then arg % 2 ^ 32 else arg) = num
  by_cases hneg : st.sgnflag ∧ wrapLong num < 0
  · rw [if_pos hneg, if_pos hneg, printnumTo_eq, List.foldl_cons]
  · rw [if_neg hneg, if_neg hneg, printnumTo_eq]

/-- The loop over the string stops at its end or with the precision. -/
theorem stringLoop_eq (altflag : Bool) : ∀ (p : List Char) (precision width : ℤ) (putdat : σ),
    stringLoop putch altflag p precision width putdat =
      ((fun width => wrapInt (width - 1))^[shownLength p precision] width,
        ((p.take (shownLength p precision)).map fun ch =>
          if altflag ∧ (ch < ' ' ∨ ch > '~') then '?' else ch).foldl putch putdat) := by
  intro p
  induction p with
  | nil =>
    intro precision width putdat
    have hlen : shownLength [] precision = 0 := by simp [shownLength]
    rw [hlen]
    rfl
  | cons ch p ih =>
    intro precision width putdat
    rw [stringLoop]
    by_cases hgo : precision < 0 ∨ precision - 1 ≥ 0
    · have hlen : shownLength (ch :: p) precision
          = shownLength p (if precision < 0 then precision else precision - 1) + 1 := by
        simp only [shownLength, List.length_cons]
        split_ifs <;> omega
      rw [if_pos hgo, ih, hlen, List.take_succ_cons, List.map_cons, List.foldl_cons,
        Function.iterate_succ_apply]
    · have hlen : shownLength (ch :: p) precision = 0 := by
        simp only [shownLength]
        split_ifs <;> omega
      rw [if_neg hgo, hlen]
      rfl

theorem putStringTo_eq (st : FmtLocals) (p : List Char) (putdat : σ) :
    putStringTo putch st p putdat = (putString st p).foldl putch putdat := by
  rw [putStringTo, putString]
  by_cases hlead : st.width > 0 ∧ st.padc ≠ '-'
  · simp only [if_pos hlead, stringLoop_eq, padLoop_eq, List.foldl_append]
  · simp only [if_neg hlead, stringLoop_eq, padLoop_eq, List.foldl_append, List.foldl_nil]

theorem putErrorTo_eq (arg : ℕ) (putdat : σ) :
    putErrorTo putch str errorString arg putdat
      = (putError str errorString arg).map fun out => out.foldl putch putdat := by
  rw [putErrorTo, putError]
  dsimp only
  generalize (if wrapInt arg < 0 then wrapInt (-wrapInt arg) else wrapInt arg) = err
  by_cases herr : err < 0
  · rw [if_pos herr, if_pos herr, Option.map_none]
  · rw [if_neg herr, if_neg herr]
    by_cases hp : errorString.getD err.toNat 0 = 0
    · rw [if_pos hp, if_pos hp, numberTo_eq, putLiteral, Option.map_some, List.foldl_append]
    · rw [if_neg hp, if_neg hp, putStringTo_eq, Option.map_some]

theorem convertArgTo_eq (st : FmtLocals) (ch : Char) (arg : ℕ) (putdat : σ) :
    convertArgTo putch str errorString st ch arg putdat
      = (convertArg str errorString st ch arg).map fun out => out.foldl putch putdat := by
  rw [convertArgTo, convertArg]
  split_ifs
  · rfl
  · exact putErrorTo_eq arg putdat
  all_goals simp only [putStringTo_eq, numberTo_eq, Option.map_some, List.foldl_cons]

/-- A conversion calls `putch` for the characters of its text, in this order. -/
theorem conversionTo_eq (after : List Char) (putdat : σ) (x : FmtLocals × List Char × List ℕ) :
    conversionTo putch str errorString after putdat x
      = (conversion str errorString after x).map fun (out, fmt, ap) =>
          (out.foldl putch putdat, fmt, ap) := by
  obtain ⟨st, rest, args⟩ := x
  cases rest with
  | nil => rfl
  | cons ch rest =>
    rw [conversionTo.eq_def, conversion, convert.eq_def]
    dsimp only
    split_ifs
    · cases args with
      | nil => rfl
      | cons arg args =>
        dsimp only
        rw [convertArgTo_eq, Option.map_map, Option.map_map]
        rfl
    · rfl
    · rfl

/-- **`putch` is called for every character of the text, in order.** -/
theorem vprintfmtTo_eq : ∀ (n : ℕ) (fmt : List Char) (ap : List ℕ) (putdat : σ), fmt.length < n →
    vprintfmtTo putch str errorString fmt ap putdat
      = (vprintfmt str errorString fmt ap).map fun out => out.foldl putch putdat := by
  intro n
  induction n with
  | zero => exact fun _ _ _ hn => absurd hn (Nat.not_lt_zero _)
  | succ n ih =>
    intro fmt ap putdat hn
    cases fmt with
    | nil =>
      rw [vprintfmtTo, vprintfmt_nil]
      rfl
    | cons ch fmt =>
      have hlt : fmt.length < n := Nat.lt_of_succ_lt_succ hn
      rw [vprintfmtTo]
      by_cases hch : ch = '%'
      · subst hch
        rw [if_pos rfl, vprintfmt_percent]
        cases hflags : flagLoop .init fmt ap with
        | none => rfl
        | some x =>
          rw [Option.bind_some, Option.bind_some, conversionTo_eq]
          cases hconv : conversion str errorString fmt x with
          | none => rfl
          | some y =>
            obtain ⟨out, rest, args⟩ := y
            have hto : conversionTo putch str errorString fmt putdat x
                = some (out.foldl putch putdat, rest, args) := by
              rw [conversionTo_eq, hconv, Option.map_some]
            have hrest := conversionTo_length putch str errorString (flagLoop_length hflags) hto
            simp only [Option.map_some, Option.bind_some]
            rw [ih rest args _ (by omega), Option.map_map]
            refine congrFun (congrArg Option.map (funext fun text => ?_)) _
            exact (List.foldl_append).symm
      · rw [if_neg hch, vprintfmt_char _ _ hch, ih fmt ap _ hlt, Option.map_map]
        rfl

end Putch

/-! ### Buffers -/

/-- `struct sprintbuf`, and the memory that it points into. -/
structure Sprintbuf where
  mem : Mem
  buf : ℕ
  ebuf : ℕ
  cnt : ℤ

/-- `sprintputch`. -/
def sprintputch (b : Sprintbuf) (ch : Char) : Sprintbuf :=
  let b := { b with cnt := wrapInt (b.cnt + 1) }
  if b.buf < b.ebuf then
    { b with mem := Function.update b.mem b.buf (BitVec.ofNat 8 ch.toNat), buf := b.buf + 1 }
  else b

/-- `E_INVAL`. -/
def eInval : ℤ := 2

section Vsnprintf

variable (str : ℕ → List Char) (errorString : List ℕ)

/-- `vsnprintf`: the memory that it leaves, and what it returns. -/
def vsnprintf (mem : Mem) (buf : ℕ) (n : ℤ) (fmt : List Char) (ap : List ℕ) : Option (Mem × ℤ) :=
  let b : Sprintbuf := ⟨mem, buf, ((buf + n - 1) % 2 ^ 64).toNat, 0⟩
  if buf = 0 ∨ n < 1 then some (mem, -eInval)
  else (vprintfmtTo sprintputch str errorString fmt ap b).map fun b =>
    (Function.update b.mem b.buf 0, b.cnt)

/-- `snprintf`, with the list of its arguments. -/
def snprintf (mem : Mem) (buf : ℕ) (n : ℤ) (fmt : List Char) (ap : List ℕ) : Option (Mem × ℤ) :=
  vsnprintf str errorString mem buf n fmt ap

end Vsnprintf

/-- Characters at addresses from `p` on. -/
def storeChars (mem : Mem) (p : ℕ) (l : List Char) : Mem := fun o =>
  if p ≤ o ∧ o < p + l.length then BitVec.ofNat 8 (l.getD (o - p) nul).toNat else mem o

variable {mem : Mem} {p o : ℕ} {l : List Char}

@[simp] theorem storeChars_nil : storeChars mem p [] = mem := by
  funext o
  rw [storeChars, if_neg (by simp)]

theorem storeChars_cons (ch : Char) :
    storeChars (Function.update mem p (BitVec.ofNat 8 ch.toNat)) (p + 1) l = storeChars mem p (ch :: l) := by
  funext o
  rw [storeChars, storeChars, List.length_cons]
  by_cases hlt : p + 1 ≤ o ∧ o < p + 1 + l.length
  · rw [if_pos hlt, if_pos (by omega), show o - p = o - (p + 1) + 1 by omega, List.getD_cons_succ]
  · rw [if_neg hlt]
    by_cases ho : o = p
    · subst ho
      rw [Function.update_self, if_pos (by omega), Nat.sub_self, List.getD_cons_zero]
    · rw [Function.update_of_ne ho, if_neg (by omega)]

theorem wrapInt_add_one (x y : ℤ) : wrapInt (wrapInt (x + 1) + y) = wrapInt (x + (y + 1)) := by
  simp only [wrapInt]
  omega

/-- **What a run of calls leaves in a buffer**: as many characters as fit, and the count of them all. -/
theorem foldl_sprintputch : ∀ (out : List Char) (mem : Mem) (buf ebuf : ℕ) (cnt : ℤ),
    -2 ^ 31 ≤ cnt ∧ cnt < 2 ^ 31 →
    out.foldl sprintputch ⟨mem, buf, ebuf, cnt⟩ =
      ⟨storeChars mem buf (out.take (ebuf - buf)), buf + min out.length (ebuf - buf), ebuf,
        wrapInt (cnt + out.length)⟩ := by
  intro out
  induction out with
  | nil =>
    rintro mem buf ebuf cnt ⟨hlo, hhi⟩
    have hcnt : wrapInt (cnt + ([] : List Char).length) = cnt := by
      rw [List.length_nil, Nat.cast_zero, add_zero, wrapInt]
      omega
    rw [hcnt, List.foldl_nil, List.take_nil, storeChars_nil, List.length_nil, Nat.zero_min, Nat.add_zero]
  | cons ch out ih =>
    intro mem buf ebuf cnt _
    have hcnt : -2 ^ 31 ≤ wrapInt (cnt + 1) ∧ wrapInt (cnt + 1) < 2 ^ 31 := by
      rw [wrapInt]
      omega
    rw [List.foldl_cons, sprintputch]
    dsimp only
    by_cases hroom : buf < ebuf
    · rw [if_pos hroom, ih _ _ _ _ hcnt, wrapInt_add_one, show ebuf - buf = ebuf - (buf + 1) + 1 by omega,
        List.take_succ_cons, storeChars_cons, List.length_cons, Nat.add_min_add_right]
      push_cast
      congr 1
      omega
    · rw [if_neg hroom, ih _ _ _ _ hcnt, wrapInt_add_one, show ebuf - buf = 0 by omega, List.take_zero,
        List.take_zero, Nat.min_zero, Nat.min_zero, List.length_cons]
      push_cast
      rfl

/-! ### Truncation -/

/-- The first characters of a text in a buffer of `n` bytes, as many as fit before the zero, and no change
outside of the buffer. -/
def Stored (mem : Mem) (buf n : ℕ) (out : List Char) (m : Mem) : Prop :=
  (∀ i < min out.length (n - 1), m (buf + i) = BitVec.ofNat 8 (out.getD i nul).toNat) ∧
    m (buf + min out.length (n - 1)) = 0 ∧ ∀ o, o < buf ∨ buf + n ≤ o → m o = mem o

/-- **The law of a buffer that may be too small**: what fits of the text is stored, and the length of the
whole text is returned. -/
def Truncates (str : ℕ → List Char) (errorString : List ℕ) (mem : Mem) (buf n : ℕ) (fmt : List Char)
    (ap : List ℕ) : Prop :=
  ∀ out, vprintfmt str errorString fmt ap = some out →
    ∃ m, vsnprintf str errorString mem buf n fmt ap = some (m, (out.length : ℤ)) ∧ Stored mem buf n out m

section Law

variable {str : ℕ → List Char} {errorString : List ℕ} {buf n : ℕ} {fmt out : List Char} {ap : List ℕ}

theorem stored_storeChars (hn : 1 ≤ n) (out : List Char) :
    Stored mem buf n out
      (Function.update (storeChars mem buf (out.take (n - 1))) (buf + min out.length (n - 1)) 0) := by
  have hlen : (out.take (n - 1)).length = min out.length (n - 1) := by
    rw [List.length_take, Nat.min_comm]
  refine ⟨fun i hi => ?_, Function.update_self _ _ _, fun o ho => ?_⟩
  · rw [Function.update_of_ne (by omega), storeChars, hlen, if_pos (by omega), Nat.add_sub_cancel_left,
      List.getD_eq_getElem?_getD, List.getElem?_take_of_lt (by omega), ← List.getD_eq_getElem?_getD]
  · rw [Function.update_of_ne (by omega), storeChars, hlen, if_neg (by omega)]

/-- **What `vsnprintf` does** with a buffer: it stores as much of the output as there is room for, and a
zero behind it. -/
theorem vsnprintf_eq (hbuf : buf ≠ 0) (hn : 1 ≤ n) (hend : buf + n ≤ 2 ^ 64)
    (hout : vprintfmt str errorString fmt ap = some out) :
    vsnprintf str errorString mem buf n fmt ap = some
      (Function.update (storeChars mem buf (out.take (n - 1))) (buf + min out.length (n - 1)) 0,
        wrapInt out.length) := by
  have hebuf : (((buf : ℤ) + n - 1) % 2 ^ 64).toNat - buf = n - 1 := by omega
  have hvalid : ¬ (buf = 0 ∨ (n : ℤ) < 1) := by omega
  rw [vsnprintf, if_neg hvalid, vprintfmtTo_eq _ fmt ap _ (Nat.lt_succ_self _), hout, Option.map_some,
    Option.map_some, foldl_sprintputch _ _ _ _ _ (by decide), hebuf, zero_add]

/-- **`vsnprintf` truncates**, and the number that it returns is an `int`. -/
theorem vsnprintf_truncates (hbuf : buf ≠ 0) (hn : 1 ≤ n) (hend : buf + n ≤ 2 ^ 64) (mem : Mem)
    (hout : vprintfmt str errorString fmt ap = some out) :
    ∃ m, vsnprintf str errorString mem buf n fmt ap = some (m, wrapInt out.length) ∧
      Stored mem buf n out m ∧ (out.length < 2 ^ 31 → wrapInt out.length = out.length) := by
  refine ⟨_, vsnprintf_eq hbuf hn hend hout, stored_storeChars hn out, fun hlt => ?_⟩
  rw [wrapInt]
  omega

/-- `"ab"`, in a buffer with room for one character and the zero. -/
theorem vsnprintf_truncates_oneCharacter :
    ∃ m, vsnprintf (fun _ => []) [] (fun _ => 255) 0x1000 (2 : ℕ) ['a', 'b'] [] = some (m, 2) ∧
      m 0x1000 = 97 ∧ m 0x1001 = 0 ∧ m 0x1002 = 255 := by
  have hout : vprintfmt (fun _ => []) [] ['a', 'b'] [] = some ['a', 'b'] := by
    rw [vprintfmt_char _ _ (by decide), vprintfmt_char _ _ (by decide), vprintfmt_nil]
    rfl
  obtain ⟨m, hres, ⟨hchars, hnul, hframe⟩, -⟩ := @vsnprintf_truncates (fun _ => []) [] 0x1000 2 _ _ _
    (by decide) (by decide) (by decide) (fun _ => 255) hout
  exact ⟨m, hres, hchars 0 (by decide), hnul, hframe 0x1002 (Or.inr (by decide))⟩

/-- A directive for a number, with one more character behind it, prints both. -/
theorem vprintfmt_directive_char (D : NumberDirective) {v : ℤ} {arg : ℕ} {ch : Char} (hr : D.InRange v)
    (hp : D.Passes v arg) (hv : 0 ≤ v) (hch : ch ≠ '%') :
    vprintfmt str errorString (D.text ++ [ch]) [arg] = some (D.padded v.toNat ++ [ch]) := by
  rw [vprintfmt_directive, vprintfmt_char _ _ hch, vprintfmt_nil, D.number_eq hr hp, if_pos hv]
  rfl

/-- `%2147483647dx` is more than an `int` can count. -/
theorem not_truncates_maxWidth : ¬ ∀ (str : ℕ → List Char) (errorString : List ℕ) (mem : Mem)
    (buf n : ℕ) (fmt : List Char) (ap : List ℕ), buf ≠ 0 → 1 ≤ n → buf + n ≤ 2 ^ 64 →
    Truncates str errorString mem buf n fmt ap := by
  intro h
  obtain ⟨D, hconv, hwidth⟩ : ∃ D : NumberDirective, D.conv = .d ∧ D.longs = 0 ∧
      D.locals.width = 2147483647 :=
    ⟨⟨false, 2147483647, 0, .d, by decide⟩, rfl, rfl, by simp [NumberDirective.locals, wrapInt]⟩
  have hbits : D.bits = 32 := by rw [NumberDirective.bits, if_pos hwidth.1]
  have hrange : D.InRange 0 := by
    rw [NumberDirective.InRange, if_pos hconv, hbits]
    norm_num
  have hpass : D.Passes 0 0 := ⟨by norm_num, rfl⟩
  have hlen : (D.padded (0 : ℤ).toNat).length = 2147483647 := by
    have := D.length_padded (0 : ℤ).toNat
    rw [hwidth.2, hconv, show (Nat.toDigits NumberConv.d.base (0 : ℤ).toNat).length = 1 by decide] at this
    exact this
  have hout := @vprintfmt_directive_char (fun _ => []) [] D 0 0 'x' hrange hpass le_rfl (by decide)
  have htrunc := h (fun _ => []) [] (fun _ => 0) 0x1000 1 (D.text ++ ['x']) [0] (by decide) le_rfl
    (by decide)
  obtain ⟨m, hres, -⟩ := htrunc _ hout
  rw [vsnprintf_eq (by decide) le_rfl (by decide) hout, List.length_append, hlen] at hres
  have hcount : wrapInt (2147483647 + 1 : ℕ) = (2147483647 + 1 : ℕ) :=
    congrArg Prod.snd (Option.some.inj hres)
  rw [wrapInt] at hcount
  omega

end Law

end GeekToyOS
