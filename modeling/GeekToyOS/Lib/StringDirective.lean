import GeekToyOS.Lib.Printfmt

/-!
# The directive of a string

`%[-][width][.precision]s` of `vprintfmt`. Width and precision pass through the same variable, and a zero
in front of either is the flag that pads with zeros: a precision whose digits are only zeros is lost. The
width is an `int` that is counted down once a character, and twice where the padding goes in front; behind a
text that is long enough it wraps around, and the blanks behind the text begin anew.

## Main definitions

* `Count` — a width or a precision, in digits or as an argument
* `StringDirective` — the directive
* `StringDirective.rendering` — what it is to print for a string
* `StringDirective.Lawful` — it prints that
* `StringDirective.KeepsCount` — so many characters do not make the width wrap around

## Main results

* `reswitch_stringDirective` — the local variables at the `s`
* `putString_eq` — the text, with padding in front of it and behind it
* `StringDirective.lawful_iff` — the directives that print every string as they should, and the strings that
  the others still do
-/

namespace GeekToyOS

/-- A width or a precision: digits, with zeros before those of the number, or `*` and the word that is
fetched for it. -/
inductive Count
  | digits (zeros n : ℕ)
  | star (arg : ℕ)

namespace Count

/-- How it is written. -/
def text : Count → List Char
  | digits zeros n => List.replicate zeros '0' ++ Nat.toDigits 10 n
  | star _ => ['*']

/-- The arguments it takes. -/
def args : Count → List ℕ
  | digits _ _ => []
  | star arg => [arg]

/-- Its value; that of an argument is an `int` which is not negative. -/
def value : Count → ℕ
  | digits _ n => n
  | star arg => arg % 2 ^ 32

/-- An argument is not negative. -/
def Valid : Count → Prop
  | digits _ _ => True
  | star arg => arg % 2 ^ 32 < 2 ^ 31

/-- The digits begin with a zero. -/
def LeadingZero : Count → Prop
  | digits zeros n => 0 < zeros ∨ n = 0
  | star _ => False

instance (c : Count) : Decidable c.LeadingZero :=
  match c with
  | digits zeros n => inferInstanceAs (Decidable (0 < zeros ∨ n = 0))
  | star _ => inferInstanceAs (Decidable False)

/-- What it does to the local variables. -/
def locals (st : FmtLocals) : Count → FmtLocals
  | digits zeros n =>
    let st := if 0 < zeros ∨ n = 0 then { st with padc := '0' } else st
    if n = 0 then st else processPrecision { st with precision := wrapInt n }
  | star arg => processPrecision { st with precision := wrapInt arg }

end Count

/-- `%[-][width][.precision]s`. The width has no zero in front. -/
structure StringDirective where
  minus : Bool
  width : Option Count
  precision : Option Count
  width_zeros : ∀ zeros n, width = some (.digits zeros n) → zeros = 0
  width_valid : ∀ c, width = some c → c.Valid
  precision_valid : ∀ c, precision = some c → c.Valid

namespace StringDirective

variable (D : StringDirective)

/-- The width and what follows. -/
def tail : List Char :=
  (match D.width with
    | none => []
    | some c => c.text) ++
  (match D.precision with
    | none => []
    | some c => '.' :: c.text) ++ ['s']

/-- The directive in a format. -/
def text : List Char := '%' :: ((if D.minus then ['-'] else []) ++ D.tail)

/-- The arguments before the string. -/
def args : List ℕ :=
  (match D.width with
    | none => []
    | some c => c.args) ++
  (match D.precision with
    | none => []
    | some c => c.args)

/-- The width; none is zero. -/
def widthValue : ℕ :=
  match D.width with
  | none => 0
  | some c => c.value

/-- The part of a string that the precision leaves. -/
def shown (s : List Char) : List Char :=
  match D.precision with
  | none => s
  | some c => s.take c.value

/-- **What the directive is to print**: the part of the string, and blanks up to the width. -/
def rendering (s : List Char) : List Char :=
  let blanks := List.replicate (D.widthValue - (D.shown s).length) ' '
  if D.minus then D.shown s ++ blanks else blanks ++ D.shown s

/-- The local variables behind the flag. -/
def flags : FmtLocals := if D.minus then { FmtLocals.init with padc := '-' } else .init

/-- The local variables behind the width. -/
def widthLocals : FmtLocals :=
  match D.width with
  | none => D.flags
  | some c => c.locals D.flags

/-- The local variables at the `s`. -/
def locals : FmtLocals :=
  match D.precision with
  | none => D.widthLocals
  | some c =>
    c.locals { D.widthLocals with width := if D.widthLocals.width < 0 then 0 else D.widthLocals.width }

end StringDirective

/-! ### Parsing -/

section Parsing

variable (str : ℕ → List Char) (errorString : List ℕ) (after : List Char)

theorem reswitch_zeros (fmt : List Char) (ap : List ℕ) : ∀ (k : ℕ) (st : FmtLocals),
    reswitch str errorString after st (List.replicate k '0' ++ fmt) ap
      = reswitch str errorString after (if 0 < k then { st with padc := '0' } else st) fmt ap := by
  intro k
  induction k with
  | zero => exact fun _ => rfl
  | succ k ih =>
    intro st
    rw [List.replicate_succ, List.cons_append, reswitch_zero, ih, if_pos (Nat.succ_pos k)]
    simp only [ite_self]

theorem reswitch_s (st : FmtLocals) (fmt : List Char) {arg : ℕ} (harg : arg ≠ 0) (ap : List ℕ) :
    reswitch str errorString after st ('s' :: fmt) (arg :: ap)
      = some (putString st (str arg), fmt, ap) := by
  rw [reswitch.eq_def]
  simp [convert, convertArg, harg]

/-- A width or a precision is read to its end, and its argument is fetched. -/
theorem reswitch_count (c : Count) (st : FmtLocals) {ch : Char} (hch : ch < '0' ∨ ch > '9')
    (fmt : List Char) (ap : List ℕ) :
    reswitch str errorString after st (c.text ++ ch :: fmt) (c.args ++ ap)
      = reswitch str errorString after (c.locals st) (ch :: fmt) ap := by
  cases c with
  | star arg => exact reswitch_star str errorString after st (ch :: fmt) arg ap
  | digits zeros n =>
    rw [Count.text, Count.args, List.nil_append, List.append_assoc, reswitch_zeros, Count.locals]
    rcases Nat.eq_zero_or_pos n with rfl | hn
    · have hzero : Nat.toDigits 10 0 = ['0'] := rfl
      rw [hzero, List.singleton_append, reswitch_zero, if_pos (Or.inr rfl), if_pos rfl]
      split <;> rfl
    · rw [reswitch_digits str errorString after _ hn hch, if_neg (by omega : n ≠ 0)]
      simp only [show ¬ n = 0 by omega, or_false]

/-- The local variables at the `s`, and the string that is fetched for it. -/
theorem reswitch_stringDirective (D : StringDirective) {arg : ℕ} (harg : arg ≠ 0) (rest : List Char)
    (ap : List ℕ) :
    reswitch str errorString after .init (D.text.tail ++ rest) (D.args ++ arg :: ap)
      = some (putString D.locals (str arg), rest, ap) := by
  obtain ⟨minus, width, precision, _, _, _⟩ := D
  have hminus : ∀ fmt ap, reswitch str errorString after .init
      ((if minus then ['-'] else []) ++ fmt) ap = reswitch str errorString after
        (if minus then { FmtLocals.init with padc := '-' } else .init) fmt ap := by
    intro fmt ap
    cases minus with
    | false => rfl
    | true => exact reswitch_minus str errorString after .init fmt ap
  simp only [StringDirective.text, StringDirective.tail, StringDirective.args, List.tail_cons,
    List.append_assoc, hminus, StringDirective.locals, StringDirective.widthLocals,
    StringDirective.flags]
  generalize (if minus then { FmtLocals.init with padc := '-' } else FmtLocals.init) = st
  cases width with
  | none =>
    cases precision with
    | none => exact reswitch_s str errorString after st rest harg ap
    | some c =>
      simp only [List.nil_append, List.cons_append]
      rw [reswitch_dot, reswitch_count str errorString after c _ (by decide),
        reswitch_s str errorString after _ rest harg]
  | some w =>
    cases precision with
    | none =>
      simp only [List.nil_append, List.cons_append]
      rw [reswitch_count str errorString after w _ (by decide),
        reswitch_s str errorString after _ rest harg]
    | some c =>
      simp only [List.nil_append, List.cons_append]
      rw [reswitch_count str errorString after w _ (by decide), reswitch_dot,
        reswitch_count str errorString after c _ (by decide),
        reswitch_s str errorString after _ rest harg]

/-- A directive prints its string, and the format goes on behind it. -/
theorem vprintfmt_stringDirective (D : StringDirective) {arg : ℕ} (harg : arg ≠ 0) (rest : List Char)
    (ap : List ℕ) :
    vprintfmt str errorString (D.text ++ rest) (D.args ++ arg :: ap)
      = (vprintfmt str errorString rest ap).map (putString D.locals (str arg) ++ ·) :=
  vprintfmt_of_reswitch str errorString (reswitch_stringDirective str errorString _ D harg rest ap)

end Parsing

/-! ### Printing -/

/-- An `int` that is counted down `n` times wraps around as the difference does. -/
theorem iterate_wrapInt_pred {w : ℤ} (hlo : -2 ^ 31 ≤ w) (hhi : w < 2 ^ 31) (n : ℕ) :
    (fun width => wrapInt (width - 1))^[n] w = wrapInt (w - n) := by
  induction n with
  | zero => rw [Function.iterate_zero_apply, Nat.cast_zero, sub_zero, wrapInt_of_mem hlo hhi]
  | succ n ih =>
    rw [Function.iterate_succ_apply', ih, wrapInt_sub]
    push_cast
    rw [sub_sub]

/-- The padding goes in front. -/
def FmtLocals.Front (st : FmtLocals) : Prop := st.width > 0 ∧ st.padc ≠ '-'

instance (st : FmtLocals) : Decidable st.Front := inferInstanceAs (Decidable (_ ∧ _))

/-- The padding in front of `n` characters. -/
def FmtLocals.lead (st : FmtLocals) (n : ℕ) : ℕ := if st.Front then (wrapInt (st.width - n)).toNat else 0

/-- The blanks behind `n` characters: where the padding goes in front, the width has been counted down by
their number before they are printed, and each of them counts once more. -/
def FmtLocals.trail (st : FmtLocals) (n : ℕ) : ℕ :=
  (wrapInt ((if st.Front then min (wrapInt (st.width - n)) 0 else st.width) - n)).toNat

/-- **The text, with padding in front of it and behind it.** -/
theorem putString_eq {st : FmtLocals} (halt : st.altflag = false) (hlo : -2 ^ 31 ≤ st.width)
    (hhi : st.width < 2 ^ 31) (p : List Char) :
    putString st p =
      let shown := p.take (if st.precision < 0 then p.length else st.precision.toNat)
      List.replicate (st.lead shown.length) st.padc ++ shown ++
        List.replicate (st.trail shown.length) ' ' := by
  have hlen : shownLength p st.precision
      = (p.take (if st.precision < 0 then p.length else st.precision.toNat)).length := by
    rw [List.length_take, shownLength]
    split <;> omega
  have htake : p.take (shownLength p st.precision)
      = p.take (if st.precision < 0 then p.length else st.precision.toNat) := by
    rw [shownLength]
    split
    · rfl
    · rw [List.take_eq_take_iff]
      omega
  rw [putString]
  dsimp only
  rw [htake, strnlen, hlen, halt]
  generalize p.take (if st.precision < 0 then p.length else st.precision.toNat) = shown
  have hstrnlen : wrapInt (st.width - wrapInt shown.length) = wrapInt (st.width - shown.length) := by
    simp only [wrapInt]
    omega
  simp only [Bool.false_eq_true, false_and, if_false, List.map_id', hstrnlen]
  rw [FmtLocals.lead, FmtLocals.trail]
  by_cases hfront : st.width > 0 ∧ st.padc ≠ '-'
  · have hmem : -2 ^ 31 ≤ min (wrapInt (st.width - shown.length)) 0 ∧
        min (wrapInt (st.width - shown.length)) 0 < 2 ^ 31 := by
      rw [wrapInt]
      omega
    have hfront' : st.Front := hfront
    rw [if_pos hfront, if_pos hfront, if_pos hfront, if_pos hfront', if_pos hfront',
      iterate_wrapInt_pred hmem.1 hmem.2]
  · have hfront' : ¬ st.Front := hfront
    rw [if_neg hfront, if_neg hfront, if_neg hfront, if_neg hfront', if_neg hfront',
      iterate_wrapInt_pred hlo hhi, List.replicate_zero]

namespace Count

/-- What the code has for it: nothing where its digits are zeros only. -/
def fetched : Count → Option ℤ
  | digits _ n => if n = 0 then none else some (wrapInt n)
  | star arg => some (wrapInt arg)

/-- A value that fits an `int` is fetched as it is, but for zeros only. -/
theorem fetched_eq_value {c : Count} (hlt : c.value < 2 ^ 31) (hzero : ∀ zeros, c ≠ .digits zeros 0) :
    c.fetched = some (c.value : ℤ) := by
  cases c with
  | star arg =>
    rw [value] at hlt ⊢
    rw [fetched, ← wrapInt_mod, wrapInt_of_lt hlt]
  | digits zeros n =>
    rw [value] at hlt ⊢
    rw [fetched, if_neg (fun hn => hzero zeros (by rw [hn])), wrapInt_of_lt hlt]

theorem leadingZero_digits {zeros n : ℕ} : (digits zeros n).LeadingZero ↔ 0 < zeros ∨ n = 0 := Iff.rfl

/-- A number before there is a width becomes the width. -/
theorem locals_of_neg (c : Count) {st : FmtLocals} (hst : st.width < 0) (hp : st.precision = -1) :
    c.locals st = { st with padc := if c.LeadingZero then '0' else st.padc,
                            width := c.fetched.getD st.width } := by
  cases c with
  | star arg =>
    rw [locals, processPrecision, if_pos hst, fetched, Option.getD_some, if_neg (by exact id), hp]
  | digits zeros n =>
    rw [locals, fetched]
    simp only [leadingZero_digits]
    by_cases hn : n = 0
    · rw [if_pos hn, if_pos hn, if_pos (Or.inr hn), if_pos (Or.inr hn), Option.getD_none]
    · rw [if_neg hn, if_neg hn, Option.getD_some, processPrecision]
      by_cases hz : 0 < zeros ∨ n = 0
      · simp only [if_pos hz, if_pos hst, hp]
      · simp only [if_neg hz, if_pos hst, hp]

/-- A number when there is a width already becomes the precision. -/
theorem locals_of_nonneg (c : Count) {st : FmtLocals} (hst : 0 ≤ st.width) :
    c.locals st = { st with padc := if c.LeadingZero then '0' else st.padc,
                            precision := c.fetched.getD st.precision } := by
  have hneg : ¬ st.width < 0 := not_lt.mpr hst
  cases c with
  | star arg =>
    rw [locals, processPrecision, if_neg hneg, fetched, Option.getD_some, if_neg (by exact id)]
  | digits zeros n =>
    rw [locals, fetched]
    simp only [leadingZero_digits]
    by_cases hn : n = 0
    · rw [if_pos hn, if_pos hn, if_pos (Or.inr hn), if_pos (Or.inr hn), Option.getD_none]
    · rw [if_neg hn, if_neg hn, Option.getD_some, processPrecision]
      by_cases hz : 0 < zeros ∨ n = 0
      · simp only [if_pos hz, if_neg hneg]
      · simp only [if_neg hz, if_neg hneg]

theorem fetched_toNat (c : Count) : (c.fetched.getD (-1)).toNat = (wrapInt c.value).toNat := by
  cases c with
  | star arg => rw [fetched, Option.getD_some, value, wrapInt_mod]
  | digits zeros n =>
    rcases Nat.eq_zero_or_pos n with rfl | hn
    · rw [fetched, if_pos rfl, Option.getD_none, value, wrapInt_of_lt (by decide)]
      rfl
    · rw [fetched, if_neg (by omega), Option.getD_some, value]

end Count

namespace StringDirective

variable (D : StringDirective) {s : List Char}

/-- The precision; none is zero. -/
def precisionValue : ℕ :=
  match D.precision with
  | none => 0
  | some c => c.value

/-- The precision begins with a zero. -/
def LeadingZero : Prop := ∃ c, D.precision = some c ∧ c.LeadingZero

/-- Width and precision are an `int`. -/
def Fits : Prop := D.widthValue < 2 ^ 31 ∧ D.precisionValue < 2 ^ 31

theorem widthLocals_eq : D.widthLocals =
    { D.flags with
      padc := D.width.elim D.flags.padc fun c => if c.LeadingZero then '0' else D.flags.padc
      width := D.width.elim (-1) fun c => c.fetched.getD (-1) } := by
  have hflags : D.flags.width = -1 ∧ D.flags.precision = -1 := by
    rw [flags]
    split <;> exact ⟨rfl, rfl⟩
  rw [widthLocals]
  cases D.width with
  | none => simp only [Option.elim_none, ← hflags.1]
  | some c =>
    simp only [Option.elim_some]
    rw [c.locals_of_neg (by rw [hflags.1]; decide) hflags.2, hflags.1]

theorem locals_eq : D.locals =
    { D.widthLocals with
      padc := D.precision.elim D.widthLocals.padc fun c =>
        if c.LeadingZero then '0' else D.widthLocals.padc
      width := if D.precision.isSome ∧ D.widthLocals.width < 0 then 0 else D.widthLocals.width
      precision := D.precision.elim (-1) fun c => c.fetched.getD (-1) } := by
  have hprec : D.widthLocals.precision = -1 := by
    rw [widthLocals_eq, flags]
    split <;> rfl
  rw [locals]
  cases D.precision with
  | none => simp only [Option.elim_none, Option.isSome_none, Bool.false_eq_true, false_and, if_false, ← hprec]
  | some c =>
    simp only [Option.elim_some, Option.isSome_some, true_and]
    have hwidth : 0 ≤ (if D.widthLocals.width < 0 then 0 else D.widthLocals.width) := by
      split <;> omega
    rw [c.locals_of_nonneg hwidth, hprec]

theorem locals_altflag : D.locals.altflag = false := by
  rw [locals_eq, widthLocals_eq, flags]
  split <;> rfl

/-- The width at the `s` is that of the directive, as an `int`; without one it counts as zero. -/
theorem locals_width : D.locals.width.toNat = (wrapInt D.widthValue).toNat := by
  have hwidth : (D.width.elim (-1) fun c => c.fetched.getD (-1)).toNat = (wrapInt D.widthValue).toNat := by
    rw [widthValue]
    cases D.width with
    | none =>
      rw [Option.elim_none, wrapInt_of_lt (by decide)]
      rfl
    | some c => exact c.fetched_toNat
  rw [← hwidth, locals_eq, widthLocals_eq]
  dsimp only
  split <;> omega

theorem locals_padc_of_leadingZero (h : D.LeadingZero) : D.locals.padc = '0' := by
  obtain ⟨c, hc, hzero⟩ := h
  rw [locals_eq]
  simp only [hc, Option.elim_some, if_pos hzero]

theorem locals_padc (h : ¬ D.LeadingZero) (hw : D.widthValue ≠ 0) :
    D.locals.padc = if D.minus then '-' else ' ' := by
  have hflags : D.flags.padc = if D.minus then '-' else ' ' := by
    rw [flags]
    split <;> rfl
  have hwidth : D.widthLocals.padc = D.flags.padc := by
    rw [widthLocals_eq]
    cases hc : D.width with
    | none => rfl
    | some c =>
      rw [widthValue, hc] at hw
      refine if_neg fun hzero => ?_
      cases c with
      | star arg => exact hzero
      | digits zeros n =>
        have := D.width_zeros zeros n hc
        exact hw (hzero.resolve_left (by omega))
  rw [← hflags, ← hwidth, locals_eq]
  cases hc : D.precision with
  | none => rfl
  | some c => exact if_neg fun hzero => h ⟨c, hc, hzero⟩

/-- What the code keeps of a string. -/
def kept (s : List Char) : List Char :=
  s.take (if D.locals.precision < 0 then s.length else D.locals.precision.toNat)

theorem locals_precision : D.locals.precision = D.precision.elim (-1) fun c => c.fetched.getD (-1) := by
  rw [locals_eq]

/-- Where the precision fits an `int`, and is not written with zeros only, as much of the string is kept as
should be. -/
theorem kept_eq_shown (hp : D.precisionValue < 2 ^ 31) (h : D.LeadingZero → 0 < D.precisionValue)
    (s : List Char) : D.kept s = D.shown s := by
  rw [kept, locals_precision, shown]
  cases hc : D.precision with
  | none => exact List.take_length
  | some c =>
    have hvalue : D.precisionValue = c.value := by rw [precisionValue, hc]
    rw [hvalue] at hp h
    rw [Option.elim_some]
    have hfetched : c.fetched = some (c.value : ℤ) := by
      cases c with
      | star arg =>
        rw [Count.value] at hp
        rw [Count.fetched, Count.value, ← wrapInt_mod, wrapInt_of_lt hp]
      | digits zeros n =>
        rw [Count.value] at hp h
        have hn : n ≠ 0 := fun hn => absurd (h ⟨_, hc, Or.inr hn⟩) (by omega)
        rw [Count.fetched, if_neg hn, Count.value, wrapInt_of_lt hp]
    rw [hfetched, Option.getD_some, if_neg (by omega), Int.toNat_natCast]

/-- A precision that is written with zeros only is lost: all of the string is kept. -/
theorem kept_eq_self (hzero : D.LeadingZero) (hp : D.precisionValue = 0) (s : List Char) :
    D.kept s = s := by
  obtain ⟨c, hc, hzero⟩ := hzero
  have hvalue : D.precisionValue = c.value := by rw [precisionValue, hc]
  rw [hvalue] at hp
  have hfetched : c.fetched = none := by
    cases c with
    | star arg => exact hzero.elim
    | digits zeros n => exact if_pos hp
  rw [kept, locals_precision, hc, Option.elim_some, hfetched, Option.getD_none, if_pos (by decide),
    List.take_length]

theorem shown_eq_nil (hzero : D.LeadingZero) (hp : D.precisionValue = 0) (s : List Char) :
    D.shown s = [] := by
  obtain ⟨c, hc, -⟩ := hzero
  have hvalue : D.precisionValue = c.value := by rw [precisionValue, hc]
  rw [shown, hc]
  dsimp only
  rw [← hvalue, hp, List.take_zero]

/-- Padding that goes in front: there is some to be done, and no flag says otherwise. -/
def Front : Prop := 0 < D.widthValue ∧ (D.minus = false ∨ D.LeadingZero)

/-- What the width is counted down from: without a width and a precision it is -1. -/
def start : ℤ :=
  match D.precision, D.width with
  | none, none => -1
  | none, some (.digits _ 0) => -1
  | _, _ => D.widthValue

/-- **The width does not come up from below**: once `n` characters have been counted, or counted twice where
the padding goes in front, an `int` has not turned positive again. -/
def KeepsCount (n : ℕ) : Prop :=
  n ≤ D.widthValue ∨ (n - D.start) % 2 ^ 32 ≤ 2 ^ 31 ∧ (D.Front → (2 * n - D.start) % 2 ^ 32 ≤ 2 ^ 31)

theorem locals_width_mem : -2 ^ 31 ≤ D.locals.width ∧ D.locals.width < 2 ^ 31 := by
  have hfetched : ∀ c : Count, -2 ^ 31 ≤ c.fetched.getD (-1) ∧ c.fetched.getD (-1) < 2 ^ 31 := by
    intro c
    cases c with
    | star arg =>
      rw [Count.fetched, Option.getD_some, wrapInt]
      omega
    | digits zeros n =>
      rw [Count.fetched]
      split
      · decide
      · rw [Option.getD_some, wrapInt]
        omega
  have hwidth : -2 ^ 31 ≤ D.widthLocals.width ∧ D.widthLocals.width < 2 ^ 31 := by
    rw [widthLocals_eq]
    cases D.width with
    | none => exact ⟨by norm_num, by norm_num⟩
    | some c => exact hfetched c
  rw [locals_eq]
  dsimp only
  split
  · norm_num
  · exact hwidth

/-- A width that fits an `int` is the one from which padding starts. -/
theorem locals_width_eq (hw : D.widthValue < 2 ^ 31) : D.locals.width = D.start := by
  rw [locals_eq, widthLocals_eq, start]
  rw [widthValue] at hw ⊢
  dsimp only
  cases hc : D.width with
  | none =>
    cases D.precision with
    | none => rfl
    | some p => rfl
  | some c =>
    rw [hc] at hw
    cases c with
    | star arg =>
      rw [Option.elim_some, Count.fetched_eq_value hw (by simp)]
      cases D.precision with
      | none => rfl
      | some p => exact if_neg fun h => absurd h.2 (not_lt.mpr (Int.natCast_nonneg _))
    | digits zeros n =>
      cases n with
      | zero => cases D.precision <;> rfl
      | succ n =>
        rw [Option.elim_some, Count.fetched_eq_value hw (by simp)]
        cases D.precision with
        | none => rfl
        | some p => exact if_neg fun h => absurd h.2 (not_lt.mpr (Int.natCast_nonneg _))

theorem front_iff (hw : D.widthValue < 2 ^ 31) : D.locals.Front ↔ D.Front := by
  have hpos : D.locals.width > 0 ↔ 0 < D.widthValue := by
    have := D.locals_width
    rw [wrapInt_of_lt hw] at this
    omega
  rw [FmtLocals.Front, Front, hpos]
  refine and_congr_right fun h0 => ?_
  by_cases hzero : D.LeadingZero
  · rw [D.locals_padc_of_leadingZero hzero]
    simp [hzero]
  · rw [D.locals_padc hzero h0.ne']
    cases D.minus <;> simp [hzero]

/-- The padding of a text that is not longer than the width. -/
theorem padding_of_le (hw : D.widthValue < 2 ^ 31) {n : ℕ} (hn : n ≤ D.widthValue) :
    (D.Front → D.locals.lead n = D.widthValue - n ∧ D.locals.trail n = 0) ∧
      (¬ D.Front → D.locals.lead n = 0 ∧ D.locals.trail n = D.widthValue - n) := by
  have hwidth := D.locals_width
  have hmem := D.locals_width_mem
  rw [wrapInt_of_lt hw, Int.toNat_natCast] at hwidth
  have hge : D.widthValue = 0 → -1 ≤ D.locals.width := by
    intro _
    rw [D.locals_width_eq hw, start]
    split <;> omega
  constructor
  · intro hfront
    have hpos := hfront.1
    have hfront' := (D.front_iff hw).mpr hfront
    rw [FmtLocals.lead, FmtLocals.trail, if_pos hfront', if_pos hfront',
      wrapInt_of_mem (x := D.locals.width - n) (by omega) (by omega), wrapInt_of_mem (by omega) (by omega)]
    omega
  · intro hfront
    have hfront' := mt (D.front_iff hw).mp hfront
    rw [FmtLocals.lead, FmtLocals.trail, if_neg hfront', if_neg hfront', wrapInt_of_mem (by omega) (by omega)]
    omega

/-- There is none for a longer one exactly if the count is kept. -/
theorem padding_of_lt (hw : D.widthValue < 2 ^ 31) {n : ℕ} (hn : D.widthValue < n) :
    D.locals.lead n = 0 ∧ D.locals.trail n = 0 ↔ D.KeepsCount n := by
  have hwidth := D.locals_width
  have hmem := D.locals_width_mem
  rw [wrapInt_of_lt hw, Int.toNat_natCast] at hwidth
  rw [FmtLocals.lead, FmtLocals.trail, KeepsCount, ← D.locals_width_eq hw]
  by_cases hfront : D.Front
  · have hfront' := (D.front_iff hw).mpr hfront
    rw [if_pos hfront', if_pos hfront']
    simp only [hfront, forall_const, wrapInt]
    omega
  · have hfront' := mt (D.front_iff hw).mp hfront
    rw [if_neg hfront', if_neg hfront']
    simp only [hfront, false_implies, and_true, true_and, wrapInt]
    omega

/-- What the directive prints: the padding on the left, what is kept of the string, and the padding on the
right. -/
theorem putString_locals (s : List Char) : putString D.locals s =
    List.replicate (D.locals.lead (D.kept s).length) D.locals.padc ++ D.kept s ++
      List.replicate (D.locals.trail (D.kept s).length) ' ' :=
  putString_eq D.locals_altflag D.locals_width_mem.1 D.locals_width_mem.2 s

/-- **The directive prints its string**, and the format goes on behind it with the arguments behind its
own. -/
def Lawful (s : List Char) : Prop :=
  ∀ (str : ℕ → List Char) (errorString : List ℕ) (arg : ℕ) (rest : List Char) (ap : List ℕ),
    arg ≠ 0 → str arg = s → vprintfmt str errorString (D.text ++ rest) (D.args ++ arg :: ap)
      = (vprintfmt str errorString rest ap).map (D.rendering s ++ ·)

theorem lawful_iff_putString : D.Lawful s ↔ putString D.locals s = D.rendering s := by
  constructor
  · intro h
    have hprint := h (fun _ => s) [] 1 [] [] one_ne_zero rfl
    rw [vprintfmt_stringDirective _ _ D one_ne_zero, vprintfmt.eq_def] at hprint
    simpa using hprint
  · rintro h str errorString arg rest ap harg rfl
    rw [vprintfmt_stringDirective str errorString D harg, h]

/-- What a zero before the precision spares. -/
def Spared (s : List Char) : Prop :=
  if D.precisionValue = 0 then s = List.replicate D.widthValue ' '
  else D.widthValue ≤ (D.shown s).length

/-- A part that is longer than the width is printed as it is exactly if the count is kept. -/
theorem putString_eq_rendering_of_lt (hw : D.widthValue < 2 ^ 31) (hkept : D.kept s = D.shown s)
    (hlt : D.widthValue < (D.shown s).length) :
    putString D.locals s = D.rendering s ↔ D.KeepsCount (D.shown s).length := by
  have hrendering : D.rendering s = D.shown s := by
    rw [rendering, Nat.sub_eq_zero_of_le hlt.le]
    simp
  rw [← D.padding_of_lt hw hlt, putString_locals, hkept, hrendering]
  constructor
  · intro h
    have hlen := congrArg List.length h
    simp only [List.length_append, List.length_replicate] at hlen
    omega
  · rintro ⟨hlead, htrail⟩
    rw [hlead, htrail, List.replicate_zero, List.replicate_zero, List.nil_append, List.append_nil]

/-- A part that is not longer is padded as it should, unless a zero is taken for the flag. -/
theorem putString_eq_rendering_of_le (hw : D.widthValue < 2 ^ 31) (hkept : D.kept s = D.shown s)
    (hle : (D.shown s).length ≤ D.widthValue) : putString D.locals s = D.rendering s ↔
      (D.LeadingZero → D.widthValue ≤ (D.shown s).length) := by
  obtain ⟨hfront, hback⟩ := D.padding_of_le hw hle
  rw [putString_locals, hkept, rendering]
  by_cases hf : D.Front
  · obtain ⟨hlead, htrail⟩ := hfront hf
    rw [hlead, htrail, List.replicate_zero, List.append_nil]
    by_cases hzero : D.LeadingZero
    · rw [D.locals_padc_of_leadingZero hzero]
      simp only [hzero, forall_const]
      constructor
      · intro h
        have hcount := congrArg (List.count ' ') h
        rw [List.count_append, List.count_replicate, if_neg (by decide)] at hcount
        split at hcount
        all_goals
          rw [List.count_append, List.count_replicate_self] at hcount
          omega
      · intro h
        rw [Nat.sub_eq_zero_of_le h]
        simp
    · have hminus : D.minus = false := hf.2.resolve_right hzero
      rw [D.locals_padc hzero hf.1.ne', hminus]
      simp [hzero]
  · obtain ⟨hlead, htrail⟩ := hback hf
    rw [hlead, htrail, List.replicate_zero, List.nil_append]
    rcases Nat.eq_zero_or_pos D.widthValue with h0 | hpos
    · rw [h0, Nat.zero_sub, List.replicate_zero, List.append_nil, List.nil_append, ite_self]
      exact iff_of_true rfl fun _ => Nat.zero_le _
    · have hno : ¬ (D.minus = false ∨ D.LeadingZero) := fun h => hf ⟨hpos, h⟩
      have hminus : D.minus = true := by simpa using fun h => hno (Or.inl h)
      rw [if_pos hminus]
      exact iff_of_true rfl fun h => (hno (Or.inr h)).elim

/-- With a precision of zeros, the whole string is printed. -/
theorem putString_eq_rendering_of_lost (hw : D.widthValue < 2 ^ 31) (hzero : D.LeadingZero)
    (hp : D.precisionValue = 0) :
    putString D.locals s = D.rendering s ↔ s = List.replicate D.widthValue ' ' := by
  have hrendering : D.rendering s = List.replicate D.widthValue ' ' := by
    rw [rendering, D.shown_eq_nil hzero hp]
    simp
  have hfront : D.Front ↔ 0 < D.widthValue := and_iff_left (Or.inr hzero)
  rw [putString_locals, D.kept_eq_self hzero hp, hrendering, D.locals_padc_of_leadingZero hzero]
  constructor
  · intro h
    have hcount := congrArg (List.count '0') h
    simp only [List.count_append, List.count_replicate_self] at hcount
    rw [List.count_replicate, List.count_replicate, if_neg (by decide), if_neg (by decide)] at hcount
    have hlen := congrArg List.length h
    simp only [List.length_append, List.length_replicate] at hlen
    obtain ⟨hf, hb⟩ := D.padding_of_le hw (n := s.length) (by omega)
    have htrail : D.locals.trail s.length = 0 := by
      by_cases h0 : D.Front
      · exact (hf h0).2
      · have := (hb h0).2
        have := mt hfront.mpr h0
        omega
    rw [show D.locals.lead s.length = 0 by omega, htrail, List.replicate_zero, List.replicate_zero,
      List.nil_append, List.append_nil] at h
    exact h
  · rintro rfl
    rw [List.length_replicate]
    obtain ⟨hf, hb⟩ := D.padding_of_le hw (n := D.widthValue) le_rfl
    have hnone : D.locals.lead D.widthValue = 0 ∧ D.locals.trail D.widthValue = 0 := by
      by_cases h0 : D.Front
      · have := hf h0
        omega
      · have := hb h0
        omega
    rw [hnone.1, hnone.2, List.replicate_zero, List.replicate_zero, List.nil_append, List.append_nil]

theorem lawful_iff_of_fits (hfits : D.Fits) : D.Lawful s ↔
    D.KeepsCount (D.shown s).length ∧ (D.LeadingZero → D.Spared s) := by
  rw [lawful_iff_putString]
  by_cases hlost : D.LeadingZero ∧ D.precisionValue = 0
  · obtain ⟨hzero, hp⟩ := hlost
    have hkeeps : D.KeepsCount (D.shown s).length := by
      rw [D.shown_eq_nil hzero hp]
      exact Or.inl (Nat.zero_le _)
    rw [D.putString_eq_rendering_of_lost hfits.1 hzero hp, Spared, if_pos hp]
    simp only [hzero, hkeeps, true_and, forall_const]
  · have hkept : D.kept s = D.shown s := D.kept_eq_shown hfits.2
      (fun hzero => Nat.pos_of_ne_zero fun hp => hlost ⟨hzero, hp⟩) s
    have hspared : (D.LeadingZero → D.Spared s) ↔
        (D.LeadingZero → D.widthValue ≤ (D.shown s).length) := by
      refine forall_congr' fun hzero => ?_
      rw [Spared, if_neg fun hp => hlost ⟨hzero, hp⟩]
    rw [hspared]
    rcases Nat.lt_or_ge D.widthValue (D.shown s).length with hlt | hle
    · rw [D.putString_eq_rendering_of_lt hfits.1 hkept hlt]
      exact (and_iff_left fun _ => hlt.le).symm
    · rw [D.putString_eq_rendering_of_le hfits.1 hkept hle]
      exact (and_iff_right (Or.inl hle)).symm

theorem length_rendering (s : List Char) :
    (D.rendering s).length = max D.widthValue (D.shown s).length := by
  rw [rendering]
  split
  all_goals
    rw [List.length_append, List.length_replicate]
    omega

theorem locals_precision_lt : D.locals.precision < 2 ^ 31 := by
  have hfetched : ∀ c : Count, c.fetched.getD (-1) < 2 ^ 31 := by
    intro c
    cases c with
    | star arg =>
      rw [Count.fetched, Option.getD_some]
      exact wrapInt_lt arg
    | digits zeros n =>
      rw [Count.fetched]
      split
      · rw [Option.getD_none]
        decide
      · rw [Option.getD_some]
        exact wrapInt_lt n
  rw [locals_precision]
  cases D.precision with
  | none => decide
  | some c => exact hfetched c

theorem locals_padc_ne (h : ¬ D.locals.padc = '0') : D.locals.padc = '-' ∨ D.locals.padc = ' ' := by
  have hflags : D.flags.padc = '-' ∨ D.flags.padc = ' ' := by
    rw [flags]
    split
    · exact Or.inl rfl
    · exact Or.inr rfl
  have hwidth : D.widthLocals.padc = '0' ∨ D.widthLocals.padc = D.flags.padc := by
    rw [widthLocals_eq]
    cases D.width with
    | none => exact Or.inr rfl
    | some c =>
      by_cases hzero : c.LeadingZero
      · exact Or.inl (if_pos hzero)
      · exact Or.inr (if_neg hzero)
  have hlocals : D.locals.padc = '0' ∨ D.locals.padc = D.widthLocals.padc := by
    rw [locals_eq]
    cases D.precision with
    | none => exact Or.inr rfl
    | some c =>
      by_cases hzero : c.LeadingZero
      · exact Or.inl (if_pos hzero)
      · exact Or.inr (if_neg hzero)
  have hw := hlocals.resolve_left h
  rw [hw] at h ⊢
  rwa [hwidth.resolve_left h]

/-- The characters of a text that are no padding are those of the string. -/
theorem count_putString (s : List Char) : (putString D.locals s).count 'a' = (D.kept s).count 'a' := by
  have hne : D.locals.padc ≠ 'a' := by
    intro ha
    rcases D.locals_padc_ne (by rw [ha]; decide) with h | h
    · exact absurd (ha.symm.trans h) (by decide)
    · exact absurd (ha.symm.trans h) (by decide)
  rw [putString_locals, List.count_append, List.count_append, List.count_replicate, List.count_replicate,
    if_neg (by simpa using hne), if_neg (by decide), Nat.zero_add, Nat.add_zero]

theorem count_rendering (s : List Char) : (D.rendering s).count 'a' = (D.shown s).count 'a' := by
  rw [rendering]
  split
  all_goals
    rw [List.count_append, List.count_replicate, if_neg (by decide)]
    omega

/-- If the empty string is padded as it should be then the width fits an `int`. -/
theorem widthValue_lt_of_lawful (h : D.Lawful []) : D.widthValue < 2 ^ 31 := by
  have hlen := congrArg List.length (D.lawful_iff_putString.mp h)
  have hshown : D.shown [] = [] := by
    rw [shown]
    split
    · rfl
    · exact List.take_nil
  have hwidth := D.locals_width
  obtain ⟨hlo, hhi⟩ := D.locals_width_mem
  rw [putString_locals, kept, List.take_nil, length_rendering, hshown] at hlen
  simp only [List.length_append, List.length_replicate, List.length_nil, Nat.max_zero] at hlen
  rw [FmtLocals.lead, FmtLocals.trail, Nat.cast_zero, sub_zero, wrapInt_of_mem hlo hhi] at hlen
  split at hlen
  · rw [sub_zero, wrapInt_of_mem (by omega) (by omega)] at hlen
    omega
  · rw [sub_zero, wrapInt_of_mem hlo hhi] at hlen
    omega

/-- If a string that is longer than the precision is cut as it should be then the precision fits an `int`.
-/
theorem precisionValue_lt_of_lawful (h : D.Lawful (List.replicate (D.precisionValue + 1) 'a')) :
    D.precisionValue < 2 ^ 31 := by
  have hcount := congrArg (List.count 'a') (D.lawful_iff_putString.mp h)
  rw [count_putString, count_rendering, kept, List.take_replicate, List.count_replicate_self,
    List.length_replicate] at hcount
  have hlt := D.locals_precision_lt
  generalize D.locals.precision = P at hcount hlt
  by_contra hge
  have hshown : (D.shown (List.replicate (D.precisionValue + 1) 'a')).count 'a' = D.precisionValue := by
    rw [shown]
    rw [precisionValue] at hge ⊢
    cases hc : D.precision with
    | none => exact absurd (by rw [hc]; decide) hge
    | some c =>
      dsimp only
      rw [List.take_replicate, List.count_replicate_self]
      omega
  rw [hshown] at hcount
  split at hcount <;> omega

/-- Without a precision, a string that is long enough is padded. -/
theorem precision_isSome_of_keepsCount
    (h : D.KeepsCount (D.shown (List.replicate (D.widthValue + 2 ^ 31 + 1) 'a')).length) :
    D.precision.isSome := by
  by_contra hnone
  have hprec : D.precision = none := by simpa using hnone
  have hshown : (D.shown (List.replicate (D.widthValue + 2 ^ 31 + 1) 'a')).length
      = D.widthValue + 2 ^ 31 + 1 := by
    rw [shown, hprec]
    exact List.length_replicate
  have hstart : D.start = D.widthValue ∨ D.start = -1 ∧ D.widthValue = 0 := by
    rw [start, hprec]
    split
    · exact Or.inr ⟨rfl, by rw [widthValue]; simp_all⟩
    · exact Or.inr ⟨rfl, by rw [widthValue]; simp_all [Count.value]⟩
    · exact Or.inl rfl
  rw [hshown, KeepsCount] at h
  generalize D.widthValue = w at *
  generalize D.start = W at *
  rcases h with h | ⟨h, -⟩ <;> omega

/-- **With a precision, the count is kept for every string** unless both numbers are so large that the width
is used up twice over. -/
theorem forall_keepsCount_iff (hfits : D.Fits) (hsome : D.precision.isSome) :
    (∀ s, D.KeepsCount (D.shown s).length) ↔ (D.Front → 2 * D.precisionValue ≤ 2 ^ 31 + D.widthValue) := by
  obtain ⟨c, hc⟩ := Option.isSome_iff_exists.mp hsome
  have hstart : D.start = D.widthValue := by rw [start, hc]
  have hshown : ∀ s, (D.shown s).length = min s.length D.precisionValue := by
    intro s
    rw [shown, precisionValue, hc]
    dsimp only
    rw [List.length_take, min_comm]
  obtain ⟨hw, hp⟩ := hfits
  constructor
  · intro h hfront
    have hlong := h (List.replicate D.precisionValue 'a')
    rw [hshown, List.length_replicate, Nat.min_self, KeepsCount, hstart] at hlong
    rcases hlong with hle | ⟨-, hle⟩
    · omega
    · have := hle hfront
      omega
  · intro h s
    rw [KeepsCount, hshown, hstart]
    generalize s.length = n
    rcases Nat.lt_or_ge D.widthValue (min n D.precisionValue) with hlt | hle
    · refine Or.inr ⟨by omega, fun hfront => ?_⟩
      have := h hfront
      omega
    · exact Or.inl hle

/-- The directives that print every string as they should. -/
theorem forall_lawful_iff : (∀ s, D.Lawful s) ↔
    D.Fits ∧ D.precision.isSome ∧ (D.Front → 2 * D.precisionValue ≤ 2 ^ 31 + D.widthValue) ∧
      (D.LeadingZero → 0 < D.precisionValue ∧ D.widthValue = 0) := by
  constructor
  · intro h
    have hfits : D.Fits :=
      ⟨D.widthValue_lt_of_lawful (h _), D.precisionValue_lt_of_lawful (h _)⟩
    have hboth := fun s => (D.lawful_iff_of_fits hfits).mp (h s)
    have hsome := D.precision_isSome_of_keepsCount (hboth _).1
    refine ⟨hfits, hsome, (D.forall_keepsCount_iff hfits hsome).mp fun s => (hboth s).1, fun hzero => ?_⟩
    by_cases hp : D.precisionValue = 0
    · -- the precision is lost on `a`
      have ha := (hboth ['a']).2 hzero
      rw [Spared, if_pos hp] at ha
      have hmem : 'a' ∈ List.replicate D.widthValue ' ' := by rw [← ha]; exact List.mem_singleton_self _
      exact absurd (List.eq_of_mem_replicate hmem) (by decide)
    · have hempty := (hboth []).2 hzero
      rw [Spared, if_neg hp, ← D.kept_eq_shown hfits.2 fun _ => Nat.pos_of_ne_zero hp, kept,
        List.take_nil, List.length_nil] at hempty
      exact ⟨Nat.pos_of_ne_zero hp, Nat.le_zero.mp hempty⟩
  · rintro ⟨hfits, hsome, hcount, hzero⟩ s
    refine (D.lawful_iff_of_fits hfits).mpr
      ⟨(D.forall_keepsCount_iff hfits hsome).mpr hcount s, fun h => ?_⟩
    rw [Spared, if_neg (hzero h).1.ne', (hzero h).2]
    exact Nat.zero_le _

/-- **Where the directive of a string is right.** For every string it is if width and precision are `int`s,
there is a precision, the width cannot wrap around, and no zero in front of the precision is taken for the
flag. Otherwise it still is for the strings that leave the count alone, and nothing to pad or to cut off. -/
theorem lawful_iff : ((∀ s, D.Lawful s) ↔
      D.Fits ∧ D.precision.isSome ∧ (D.Front → 2 * D.precisionValue ≤ 2 ^ 31 + D.widthValue) ∧
        (D.LeadingZero → 0 < D.precisionValue ∧ D.widthValue = 0)) ∧
    (D.Fits → ∀ s, D.Lawful s ↔ D.KeepsCount (D.shown s).length ∧ (D.LeadingZero → D.Spared s)) :=
  ⟨D.forall_lawful_iff, fun hfits _ => D.lawful_iff_of_fits hfits⟩

/-- **`%.0s` prints all of its string**, since a precision of zero is taken for none. -/
theorem not_lawful_zeroPrecision : ¬ ∀ (D : StringDirective) (s : List Char), D.Lawful s := by
  intro h
  let D : StringDirective := ⟨false, none, some (.digits 0 0), by simp, by simp, by simp [Count.Valid]⟩
  have hlawful := ((D.lawful_iff_of_fits ⟨by decide, by decide⟩).mp (h D ['a'])).2
    ⟨_, rfl, Or.inr rfl⟩
  exact absurd (show ['a'] = [] from hlawful) (by decide)

end StringDirective

end GeekToyOS
