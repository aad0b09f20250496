import GeekToyOS.Lib.Printfmt

/-!
# Scanning a format

How `vprintfmt` moves over its format. The pointer goes past the character that it has looked at, back and
forth: `reswitch` is entered again for every flag, the loop over the digits of a width stops before the
character that ends them, and a directive that is not known is printed as it stands, for which the pointer
goes back to behind the last `%`.

The scanner is a machine of small steps, each of which reads the format once. It is compared with
`vprintfmt`, which takes the format as a list.

## Main definitions

* `flagLoop` — the flags, the width and the length of a directive
* `ScanState`, `scanStep` — the scanner
* `Scans` — a run of it that ends, with the addresses that it reads
* `Spells` — the characters in memory, with the zero behind them
* `Modifier`, `Unknown` — the characters of flags, width and length, and those that end no directive

## Main results

* `reswitch_eq` — a directive is its flags and then its conversion
* `scans_text` — the scanner ends, stays in the format, and prints what `vprintfmt` does
* `vprintfmt_unknown` — a directive that is not known is printed as it stands
* `scan_safe` — both, for every format
-/

namespace GeekToyOS

/-- The flags, the width and the length of a directive, up to its conversion. -/
def flagLoop (st : FmtLocals) (fmt : List Char) (ap : List ℕ) :
    Option (FmtLocals × List Char × List ℕ) :=
  match fmt with
  | [] => some (st, [], ap)
  | ch :: fmt =>
    if ch = '-' then flagLoop { st with padc := '-' } fmt ap
    else if ch = '0' then flagLoop { st with padc := '0' } fmt ap
    else if '1' ≤ ch ∧ ch ≤ '9' then
      flagLoop (processPrecision { st with precision := (widthLoop 0 ch fmt).1 })
        (widthLoop 0 ch fmt).2 ap
    else if ch = '*' then
      match ap with
      | [] => none
      | arg :: ap => flagLoop (processPrecision { st with precision := wrapInt arg }) fmt ap
    else if ch = '.' then flagLoop { st with width := if st.width < 0 then 0 else st.width } fmt ap
    else if ch = '#' then flagLoop { st with altflag := true } fmt ap
    else if ch = 'l' then
      flagLoop { st with lflag := if st.lflag < 2 then st.lflag + 1 else st.lflag } fmt ap
    else some (st, ch :: fmt, ap)
termination_by fmt.length
decreasing_by all_goals first
  | exact Nat.lt_succ_self _
  | exact Nat.lt_succ_of_le (widthLoop_length _ _ _)

section Machine

variable (str : ℕ → List Char) (errorString : List ℕ)

/-- What follows the flags. -/
def conversion (after : List Char) : FmtLocals × List Char × List ℕ →
    Option (List Char × List Char × List ℕ)
  | (_, [], ap) => some (['%'], after, ap)
  | (st, ch :: fmt, ap) => convert str errorString after st ch fmt ap

/-- **A directive is its flags and then its conversion.** -/
theorem reswitch_eq (after : List Char) (st : FmtLocals) (fmt : List Char) (ap : List ℕ) :
    reswitch str errorString after st fmt ap
      = (flagLoop st fmt ap).bind (conversion str errorString after) := by
  fun_induction flagLoop st fmt ap
  case case1 st ap => rw [reswitch.eq_def]; rfl
  all_goals
    rw [reswitch.eq_def]
    simp_all [conversion]

@[simp] theorem vprintfmt_nil (ap : List ℕ) : vprintfmt str errorString [] ap = some [] := by
  rw [vprintfmt.eq_def]

/-- A character that is no `%` is printed as it is. -/
theorem vprintfmt_char {ch : Char} (hch : ch ≠ '%') (fmt : List Char) (ap : List ℕ) :
    vprintfmt str errorString (ch :: fmt) ap = (vprintfmt str errorString fmt ap).map (ch :: ·) := by
  rw [vprintfmt.eq_def]
  dsimp only
  rw [if_neg hch]

/-- A directive is printed, and the format goes on behind it. -/
theorem vprintfmt_percent (fmt : List Char) (ap : List ℕ) :
    vprintfmt str errorString ('%' :: fmt) ap =
      ((flagLoop .init fmt ap).bind (conversion str errorString fmt)).bind fun (out, rest, ap) =>
        (vprintfmt str errorString rest ap).map (out ++ ·) := by
  rw [vprintfmt.eq_def, ← reswitch_eq]
  dsimp only
  rw [if_pos rfl]
  split
  · rename_i heq
    rw [heq, Option.bind_none]
  · rename_i heq
    rw [heq, Option.bind_some]

/-! ### The scanner -/

/-- Where the scanner is: between directives, in the switch, in the loop over the digits of a width, or on
the way back to the `%`. -/
inductive ScanPhase
  | text
  | switch (st : FmtLocals)
  | digits (st : FmtLocals) (ch : Char)
  | back

/-- The place in `vprintfmt`, the pointer into the format, the arguments that are left, and the text. -/
structure ScanState where
  phase : ScanPhase
  fmt : ℕ
  ap : List ℕ
  out : List Char

/-- The address that the next step reads. -/
def ScanState.readAt (s : ScanState) : ℕ :=
  match s.phase with
  | .back => s.fmt - 1
  | _ => s.fmt

/-- The zero behind a string. -/
def nul : Char := Char.ofNat 0

/-- A step of `vprintfmt`, or its end: the text, or no outcome where an argument is missing. -/
def scanStep (mem : ℕ → Char) (s : ScanState) : ScanState ⊕ Option (List Char) :=
  match s.phase with
  | .text =>
    -- `while ((ch = *fmt++) != '%')`
    let ch := mem s.fmt
    if ch = '%' then .inl { s with phase := .switch .init, fmt := s.fmt + 1 }
    else if ch = nul then .inr (some s.out)
    else .inl { s with fmt := s.fmt + 1, out := s.out ++ [ch] }
  | .switch st =>
    let ch := mem s.fmt
    let s := { s with fmt := s.fmt + 1 }
    if ch = '-' then .inl { s with phase := .switch { st with padc := '-' } }
    else if ch = '0' then .inl { s with phase := .switch { st with padc := '0' } }
    else if '1' ≤ ch ∧ ch ≤ '9' then .inl { s with phase := .digits { st with precision := 0 } ch }
    else if ch = '*' then
      match s.ap with
      | [] => .inr none
      | arg :: ap =>
        .inl { s with phase := .switch (processPrecision { st with precision := wrapInt arg }), ap := ap }
    else if ch = '.' then
      .inl { s with phase := .switch { st with width := if st.width < 0 then 0 else st.width } }
    else if ch = '#' then .inl { s with phase := .switch { st with altflag := true } }
    else if ch = 'l' then
      .inl { s with phase := .switch { st with lflag := if st.lflag < 2 then st.lflag + 1 else st.lflag } }
    else if ch ∈ ['c', 'e', 's', 'd', 'u', 'o', 'p', 'x'] then
      match s.ap with
      | [] => .inr none
      | arg :: ap =>
        match convertArg str errorString st ch arg with
        | none => .inr none
        | some text => .inl { s with phase := .text, ap := ap, out := s.out ++ text }
    else if ch = '%' then .inl { s with phase := .text, out := s.out ++ ['%'] }
    -- `putch('%', putdat); fmt--`
    else .inl { s with phase := .back, fmt := s.fmt - 1, out := s.out ++ ['%'] }
  | .digits st ch =>
    -- `precision = precision * 10 + ch - '0'; ch = *fmt`
    let st := { st with precision := wrapInt (st.precision * 10 + ch.toNat - 48) }
    let ch := mem s.fmt
    if ch < '0' ∨ ch > '9' then .inl { s with phase := .switch (processPrecision st) }
    else .inl { s with phase := .digits st ch, fmt := s.fmt + 1 }
  | .back =>
    -- `fmt[-1] != '%'; fmt--`
    if mem (s.fmt - 1) ≠ '%' then .inl { s with fmt := s.fmt - 1 } else .inl { s with phase := .text }

/-- Steps that read addresses from `lo` to `hi` only. -/
inductive Reaches (mem : ℕ → Char) (lo hi : ℕ) : ScanState → ScanState → Prop
  | refl (s : ScanState) : Reaches mem lo hi s s
  | step {s s' s'' : ScanState} (h : scanStep str errorString mem s = .inl s') (hlo : lo ≤ s.readAt)
      (hhi : s.readAt ≤ hi) (hrest : Reaches mem lo hi s' s'') : Reaches mem lo hi s s''

/-- **The scanner ends**, with that result, and has read addresses from `lo` to `hi` only. -/
def Ends (mem : ℕ → Char) (lo hi : ℕ) (s : ScanState) (r : Option (List Char)) : Prop :=
  ∃ s', Reaches str errorString mem lo hi s s' ∧ lo ≤ s'.readAt ∧ s'.readAt ≤ hi ∧
    scanStep str errorString mem s' = .inr r

end Machine

/-- The characters in memory, with the zero behind them. -/
def Spells (mem : ℕ → Char) : ℕ → List Char → Prop
  | p, [] => mem p = nul
  | p, ch :: fmt => mem p = ch ∧ ch ≠ nul ∧ Spells mem (p + 1) fmt

/-- A character of the flags, the width or the length of a directive. -/
def Modifier (ch : Char) : Prop :=
  ch = '-' ∨ ch = '0' ∨ '1' ≤ ch ∧ ch ≤ '9' ∨ ch = '*' ∨ ch = '.' ∨ ch = '#' ∨ ch = 'l'

/-- A character that ends no directive. -/
def Unknown (ch : Char) : Prop :=
  ¬ Modifier ch ∧ ch ∉ ['c', 'e', 's', 'd', 'u', 'o', 'p', 'x'] ∧ ch ≠ '%'

instance (ch : Char) : Decidable (Modifier ch) := inferInstanceAs (Decidable (_ ∨ _))

instance (ch : Char) : Decidable (Unknown ch) := inferInstanceAs (Decidable (_ ∧ _))

section Runs

variable {str : ℕ → List Char} {errorString : List ℕ} {mem : ℕ → Char} {lo lo' hi hi' p q : ℕ}
  {s s' s'' : ScanState} {r : Option (List Char)} {st st' : FmtLocals} {fmt fmt' : List Char}
  {ap ap' : List ℕ} {ch : Char}

theorem Reaches.trans (h : Reaches str errorString mem lo hi s s')
    (h' : Reaches str errorString mem lo hi s' s'') : Reaches str errorString mem lo hi s s'' := by
  induction h with
  | refl => exact h'
  | step hs hlo hhi _ ih => exact .step hs hlo hhi (ih h')

theorem Reaches.mono (h : Reaches str errorString mem lo hi s s') (hlo : lo' ≤ lo) (hhi : hi ≤ hi') :
    Reaches str errorString mem lo' hi' s s' := by
  induction h with
  | refl => exact .refl _
  | step hs h1 h2 _ ih => exact .step hs (hlo.trans h1) (h2.trans hhi) ih

theorem Ends.of_reaches (h : Reaches str errorString mem lo hi s s')
    (h' : Ends str errorString mem lo hi s' r) : Ends str errorString mem lo hi s r := by
  obtain ⟨t, ht, hrest⟩ := h'
  exact ⟨t, h.trans ht, hrest⟩

theorem Ends.mono (h : Ends str errorString mem lo hi s r) (hlo : lo' ≤ lo) (hhi : hi ≤ hi') :
    Ends str errorString mem lo' hi' s r := by
  obtain ⟨t, ht, h1, h2, hend⟩ := h
  exact ⟨t, ht.mono hlo hhi, hlo.trans h1, h2.trans hhi, hend⟩

theorem spells_drop {pre : List Char} (h : Spells mem p (pre ++ fmt)) :
    Spells mem (p + pre.length) fmt := by
  induction pre generalizing p with
  | nil => exact h
  | cons c pre ih =>
    rw [List.length_cons, Nat.add_comm pre.length, ← Nat.add_assoc]
    exact ih h.2.2

/-! ### The flags -/

theorem Modifier.ne_percent (h : Modifier ch) : ch ≠ '%' := by
  rintro rfl
  exact absurd h (by decide)

theorem modifier_of_digit (h : ¬ (ch < '0' ∨ ch > '9')) : Modifier ch := by
  rw [not_or, not_lt, not_lt] at h
  obtain ⟨hlo, hhi⟩ := h
  rcases eq_or_lt_of_le hlo with rfl | hlt
  · exact Or.inr (Or.inl rfl)
  · refine Or.inr (Or.inr (Or.inl ⟨?_, hhi⟩))
    rw [Char.le_def, UInt32.le_iff_toNat_le]
    rw [Char.lt_def, UInt32.lt_iff_toNat_lt] at hlt
    exact hlt

/-- The loop over the digits of a width stops before the character that ends them. -/
theorem reaches_digits (str : ℕ → List Char) (errorString : List ℕ) (out : List Char) (ap : List ℕ) :
    ∀ (fmt : List Char) (st : FmtLocals) (ch : Char) (q : ℕ), Spells mem q fmt →
      ∃ pre, fmt = pre ++ (widthLoop st.precision ch fmt).2 ∧
      (∀ c ∈ pre, Modifier c) ∧
      Reaches str errorString mem q (q + fmt.length) ⟨.digits st ch, q, ap, out⟩
        ⟨.switch (processPrecision { st with precision := (widthLoop st.precision ch fmt).1 }),
          q + pre.length, ap, out⟩ := by
  intro fmt
  induction fmt with
  | nil =>
    intro st ch q hsp
    refine ⟨[], rfl, by simp, .step ?_ le_rfl le_rfl (.refl _)⟩
    have hnul : mem q < '0' ∨ mem q > '9' := by
      rw [show mem q = nul from hsp]
      decide
    simp only [scanStep, if_pos hnul, widthLoop]
    rfl
  | cons c fmt ih =>
    rintro st ch q ⟨hc, -, hsp⟩
    rw [widthLoop]
    by_cases hdigit : c < '0' ∨ c > '9'
    · refine ⟨[], by rw [if_pos hdigit]; rfl, by simp, .step ?_ le_rfl (Nat.le_add_right _ _) (.refl _)⟩
      simp only [scanStep, hc, if_pos hdigit]
      rfl
    · obtain ⟨pre, hpre, hmod, hreach⟩ :=
        ih { st with precision := wrapInt (st.precision * 10 + ch.toNat - 48) } c (q + 1) hsp
      rw [if_neg hdigit]
      have hstep : scanStep str errorString mem ⟨.digits st ch, q, ap, out⟩
          = .inl ⟨.digits { st with precision := wrapInt (st.precision * 10 + ch.toNat - 48) } c,
            q + 1, ap, out⟩ := by
        simp only [scanStep, hc, if_neg hdigit]
      refine ⟨c :: pre, ?_, ?_, .step hstep le_rfl (Nat.le_add_right _ _) ?_⟩
      · rw [List.cons_append, ← hpre]
      · intro d hd
        rcases List.mem_cons.mp hd with rfl | hd
        · exact modifier_of_digit hdigit
        · exact hmod d hd
      · rw [show q + (c :: pre).length = q + 1 + pre.length by rw [List.length_cons]; omega]
        exact hreach.mono (Nat.le_succ q) (by rw [List.length_cons]; omega)

/-- What the scanner does with the flags of a directive at `q`: no outcome, or the switch at the first
character that is none of them. -/
def FlagsRun (str : ℕ → List Char) (errorString : List ℕ) (mem : ℕ → Char) (out : List Char) (q : ℕ)
    (fmt : List Char) (s : ScanState) : Option (FmtLocals × List Char × List ℕ) → Prop
  | none => Ends str errorString mem q (q + fmt.length) s none
  | some (st', fmt', ap') => ∃ pre, fmt = pre ++ fmt' ∧ (∀ c ∈ pre, Modifier c) ∧
      (∀ c ∈ fmt'.head?, ¬ Modifier c) ∧
      Reaches str errorString mem q (q + fmt.length) s ⟨.switch st', q + pre.length, ap', out⟩

/-- Flags in front of a run over flags make a longer run. -/
theorem FlagsRun.of_reaches {out pre : List Char} {res : Option (FmtLocals × List Char × List ℕ)}
    (hmod : ∀ c ∈ pre, Modifier c)
    (hreach : Reaches str errorString mem q (q + (pre ++ fmt).length) s s')
    (h : FlagsRun str errorString mem out (q + pre.length) fmt s' res) :
    FlagsRun str errorString mem out q (pre ++ fmt) s res := by
  have hhi : q + pre.length + fmt.length ≤ q + (pre ++ fmt).length := by
    rw [List.length_append, Nat.add_assoc]
  match res with
  | none => exact (Ends.mono h (Nat.le_add_right _ _) hhi).of_reaches hreach
  | some (st', fmt', ap') =>
    obtain ⟨pre', rfl, hmod', hstop, hrest⟩ := h
    refine ⟨pre ++ pre', (List.append_assoc _ _ _).symm, ?_, hstop, ?_⟩
    · intro c hc
      exact (List.mem_append.mp hc).elim (hmod c) (hmod' c)
    · rw [show q + (pre ++ pre').length = q + pre.length + pre'.length by
        rw [List.length_append, Nat.add_assoc]]
      exact hreach.trans (hrest.mono (Nat.le_add_right _ _) hhi)

/-- One flag in front of a run over flags makes a longer run. -/
theorem FlagsRun.of_step {out : List Char} {res : Option (FmtLocals × List Char × List ℕ)}
    (hch : Modifier ch) (hread : s.readAt = q) (hstep : scanStep str errorString mem s = .inl s')
    (h : FlagsRun str errorString mem out (q + 1) fmt s' res) :
    FlagsRun str errorString mem out q (ch :: fmt) s res := by
  have hone : Reaches str errorString mem q (q + ([ch] ++ fmt).length) s s' :=
    .step hstep hread.ge (hread.le.trans (Nat.le_add_right _ _)) (.refl _)
  exact @FlagsRun.of_reaches str errorString mem q s s' fmt out [ch] res (by simpa using hch) hone h

/-- **The scanner reads the flags** of a directive. -/
theorem flagsRun_flagLoop (str : ℕ → List Char) (errorString : List ℕ) (out : List Char)
    (st : FmtLocals) (fmt : List Char) (ap : List ℕ) : ∀ q, Spells mem q fmt →
      FlagsRun str errorString mem out q fmt ⟨.switch st, q, ap, out⟩ (flagLoop st fmt ap) := by
  fun_induction flagLoop st fmt ap with
  | case1 st ap =>
    rintro q -
    exact ⟨[], rfl, by simp, by simp, .refl _⟩
  | case2 st ap fmt ih =>
    rintro q ⟨hch, -, hsp⟩
    refine .of_step (by decide) rfl ?_ (ih (q + 1) hsp)
    simp [scanStep, hch]
  | case3 st ap fmt h ih =>
    rintro q ⟨hch, -, hsp⟩
    refine .of_step (by decide) rfl ?_ (ih (q + 1) hsp)
    simp [scanStep, hch]
  | case4 st ap ch fmt h1 h2 hdigit ih =>
    rintro q ⟨hch, hne, hsp⟩
    obtain ⟨pre, hpre, hmod, hreach⟩ := reaches_digits str errorString out ap fmt
      { st with precision := 0 } ch (q + 1) hsp
    have hrest : Spells mem (q + 1 + pre.length) (widthLoop 0 ch fmt).2 :=
      spells_drop (hpre ▸ hsp)
    have hstep : scanStep str errorString mem ⟨.switch st, q, ap, out⟩
        = .inl ⟨.digits { st with precision := 0 } ch, q + 1, ap, out⟩ := by
      simp only [scanStep, hch, if_neg h1, if_neg h2, if_pos hdigit]
    dsimp only at hpre hreach
    rw [show fmt.length = (pre ++ (widthLoop 0 ch fmt).2).length from congrArg List.length hpre]
      at hreach
    have hrun := FlagsRun.of_reaches hmod hreach (ih (q + 1 + pre.length) hrest)
    rw [← hpre] at hrun
    exact .of_step (Or.inr (Or.inr (Or.inl hdigit))) rfl hstep hrun
  | case5 st fmt =>
    rintro q ⟨hch, -, -⟩
    exact ⟨_, .refl _, le_rfl, Nat.le_add_right _ _, by simp [scanStep, hch]⟩
  | case6 st fmt arg ap h1 h2 h3 ih =>
    rintro q ⟨hch, -, hsp⟩
    refine .of_step (by decide) rfl ?_ (ih (q + 1) hsp)
    simp [scanStep, hch]
  | case7 st ap fmt h1 h2 h3 h4 ih =>
    rintro q ⟨hch, -, hsp⟩
    refine .of_step (by decide) rfl ?_ (ih (q + 1) hsp)
    simp [scanStep, hch]
  | case8 st ap fmt h1 h2 h3 h4 h5 ih =>
    rintro q ⟨hch, -, hsp⟩
    refine .of_step (by decide) rfl ?_ (ih (q + 1) hsp)
    simp [scanStep, hch]
  | case9 st ap fmt h1 h2 h3 h4 h5 h6 ih =>
    rintro q ⟨hch, -, hsp⟩
    refine .of_step (by decide) rfl ?_ (ih (q + 1) hsp)
    simp [scanStep, hch]
  | case10 st ap ch fmt h1 h2 h3 h4 h5 h6 h7 =>
    rintro q -
    refine ⟨[], rfl, by simp, fun c hc => ?_, .refl _⟩
    obtain rfl : ch = c := by simpa using hc
    simp only [Modifier, h1, h2, h3, h4, h5, h6, h7, or_self, not_false_eq_true]

/-! ### The format -/

/-- Behind an unknown directive the pointer goes back to its `%`. -/
theorem reaches_back (str : ℕ → List Char) (errorString : List ℕ) (out : List Char) (ap : List ℕ)
    (hpercent : mem p = '%') : ∀ pre fmt : List Char,
    Spells mem (p + 1) (pre ++ fmt) → (∀ c ∈ pre, Modifier c) →
    Reaches str errorString mem p (p + 1 + pre.length) ⟨.back, p + 1 + pre.length, ap, out⟩
      ⟨.text, p + 1, ap, out⟩ := by
  intro pre
  induction pre using List.reverseRecOn with
  | nil =>
    intro fmt _ _
    refine .step ?_ ?_ ?_ (.refl _)
    · simp [scanStep, hpercent]
    · simp [ScanState.readAt]
    · simp [ScanState.readAt]
  | append_singleton pre c ih =>
    intro fmt hsp hmod
    have hlen : p + 1 + (pre ++ [c]).length = p + 1 + pre.length + 1 := by simp [Nat.add_assoc]
    rw [List.append_assoc] at hsp
    have hlast : mem (p + 1 + pre.length) = c := (spells_drop hsp).1
    have hne : c ≠ '%' := (hmod c (by simp)).ne_percent
    rw [hlen]
    have hstep : scanStep str errorString mem ⟨.back, p + 1 + pre.length + 1, ap, out⟩
        = .inl ⟨.back, p + 1 + pre.length, ap, out⟩ := by
      simp [scanStep, hlast, hne]
    refine .step hstep ?_ ?_ ((ih _ hsp fun d hd => hmod d (by simp [hd])).mono le_rfl (Nat.le_succ _))
    · simp only [ScanState.readAt]
      omega
    · simp only [ScanState.readAt]
      omega

/-- What the step at the character of the conversion does, by the argument and the character. -/
theorem scanStep_conversion (str : ℕ → List Char) (errorString : List ℕ) (st : FmtLocals) (ap : List ℕ)
    (out : List Char) (hch : ¬ Modifier (mem q)) :
    scanStep str errorString mem ⟨.switch st, q, ap, out⟩ =
      if mem q ∈ ['c', 'e', 's', 'd', 'u', 'o', 'p', 'x'] then
        match ap with
        | [] => .inr none
        | arg :: ap =>
          match convertArg str errorString st (mem q) arg with
          | none => .inr none
          | some text => .inl ⟨.text, q + 1, ap, out ++ text⟩
      else if mem q = '%' then .inl ⟨.text, q + 1, ap, out ++ ['%']⟩
      else .inl ⟨.back, q, ap, out ++ ['%']⟩ := by
  simp only [Modifier, not_or] at hch
  obtain ⟨h1, h2, h3, h4, h5, h6, h7⟩ := hch
  simp only [scanStep, if_neg h1, if_neg h2, if_neg h3, if_neg h4, if_neg h5, if_neg h6, if_neg h7,
    Nat.add_sub_cancel]

/-- The scanner ends on formats shorter than `n`, within them, with the text of `vprintfmt`. -/
def ScansBelow (str : ℕ → List Char) (errorString : List ℕ) (mem : ℕ → Char) (n : ℕ) : Prop :=
  ∀ (fmt : List Char) (p : ℕ) (ap : List ℕ) (out : List Char), fmt.length < n → Spells mem p fmt →
    Ends str errorString mem p (p + fmt.length) ⟨.text, p, ap, out⟩
      ((vprintfmt str errorString fmt ap).map (out ++ ·))

/-- An unknown directive starts over behind its `%`. -/
theorem ends_back {n : ℕ} (ih : ScansBelow str errorString mem n) (st : FmtLocals) (out : List Char)
    (ap : List ℕ)
    (hpercent : mem p = '%') {pre : List Char} (hn : (pre ++ fmt).length < n)
    (hsp : Spells mem (p + 1) (pre ++ fmt)) (hmod : ∀ c ∈ pre, Modifier c)
    (hstep : scanStep str errorString mem ⟨.switch st, p + 1 + pre.length, ap, out⟩
      = .inl ⟨.back, p + 1 + pre.length, ap, out ++ ['%']⟩) :
    Ends str errorString mem p (p + (pre.length + fmt.length + 1))
      ⟨.switch st, p + 1 + pre.length, ap, out⟩
        ((vprintfmt str errorString (pre ++ fmt) ap).map (out ++ ['%'] ++ ·)) := by
  have hagain := ih (pre ++ fmt) (p + 1) ap (out ++ ['%']) hn hsp
  have hreach := reaches_back str errorString (out ++ ['%']) ap hpercent pre fmt hsp hmod
  rw [List.length_append] at hagain
  refine .of_reaches (.step hstep ?_ ?_ (hreach.mono le_rfl ?_)) (hagain.mono (Nat.le_succ p) ?_)
  · simp only [ScanState.readAt]
    omega
  · simp only [ScanState.readAt]
    omega
  · omega
  · omega

/-- The conversion of a directive, and the format behind it. -/
theorem ends_conversion {n : ℕ} (ih : ScansBelow str errorString mem n) (st : FmtLocals)
    (out : List Char) (ap : List ℕ) (hpercent : mem p = '%') {pre : List Char} (hn : (pre ++ fmt).length < n)
    (hsp : Spells mem (p + 1) (pre ++ fmt)) (hmod : ∀ c ∈ pre, Modifier c)
    (hstop : ∀ c ∈ fmt.head?, ¬ Modifier c) :
    Ends str errorString mem p (p + (pre.length + fmt.length + 1))
      ⟨.switch st, p + 1 + pre.length, ap, out⟩
        (((conversion str errorString (pre ++ fmt) (st, fmt, ap)).bind fun (text, rest, ap) =>
          (vprintfmt str errorString rest ap).map (text ++ ·)).map (out ++ ·)) := by
  have hback := ends_back ih st out ap hpercent hn hsp hmod
  cases fmt with
  | nil =>
    have hnul : mem (p + 1 + pre.length) = nul := spells_drop hsp
    have hstep := scanStep_conversion str errorString st ap out
      (show ¬ Modifier (mem (p + 1 + pre.length)) by rw [hnul]; decide)
    rw [hnul, if_neg (by decide), if_neg (by decide)] at hstep
    simpa [conversion, Option.map_map, Function.comp_def] using hback hstep
  | cons c fmt =>
    obtain ⟨hc, -, hrest⟩ := spells_drop hsp
    have hstep := scanStep_conversion str errorString st ap out
      (show ¬ Modifier (mem (p + 1 + pre.length)) by rw [hc]; exact hstop c rfl)
    rw [hc] at hstep
    rw [List.length_append] at hn
    rw [List.length_cons] at hn ⊢
    -- a known directive goes on behind its conversion
    have hgo : ∀ ap' text, scanStep str errorString mem ⟨.switch st, p + 1 + pre.length, ap, out⟩
        = .inl ⟨.text, p + 1 + pre.length + 1, ap', out ++ text⟩ →
        Ends str errorString mem p (p + (pre.length + (fmt.length + 1) + 1))
          ⟨.switch st, p + 1 + pre.length, ap, out⟩
            ((vprintfmt str errorString fmt ap').map (out ++ text ++ ·)) := by
      intro ap' text hs
      have hafter := ih fmt _ ap' (out ++ text) (by omega) hrest
      refine .of_reaches (.step hs ?_ ?_ (.refl _)) (hafter.mono ?_ ?_)
      · simp only [ScanState.readAt]
        omega
      · simp only [ScanState.readAt]
        omega
      · omega
      · omega
    have hstay : scanStep str errorString mem ⟨.switch st, p + 1 + pre.length, ap, out⟩ = .inr none →
        Ends str errorString mem p (p + (pre.length + (fmt.length + 1) + 1))
          ⟨.switch st, p + 1 + pre.length, ap, out⟩ none := by
      intro hs
      refine ⟨_, .refl _, ?_, ?_, hs⟩
      · simp only [ScanState.readAt]
        omega
      · simp only [ScanState.readAt]
        omega
    rw [conversion, convert.eq_def]
    by_cases hconv : c ∈ ['c', 'e', 's', 'd', 'u', 'o', 'p', 'x']
    · rw [if_pos hconv] at hstep ⊢
      cases ap with
      | nil => exact hstay hstep
      | cons arg ap =>
        dsimp only at hstep ⊢
        cases hval : convertArg str errorString st c arg with
        | none =>
          rw [hval] at hstep
          exact hstay hstep
        | some text =>
          rw [hval] at hstep
          simpa [Option.map_map, Function.comp_def] using hgo _ _ hstep
    · rw [if_neg hconv] at hstep ⊢
      by_cases hpc : c = '%'
      · rw [if_pos hpc] at hstep ⊢
        simpa [Option.map_map, Function.comp_def] using hgo _ _ hstep
      · rw [if_neg hpc] at hstep ⊢
        simpa [Option.map_map, Function.comp_def] using hback hstep

/-- **The scanner ends, stays in the format, and prints what `vprintfmt` does.** -/
theorem scans_text (str : ℕ → List Char) (errorString : List ℕ) (mem : ℕ → Char) :
    ∀ n, ScansBelow str errorString mem n := by
  intro n
  induction n with
  | zero => exact fun _ _ _ _ hn => absurd hn (Nat.not_lt_zero _)
  | succ n ih =>
    intro fmt p ap out hn hsp
    cases fmt with
    | nil =>
      have hmem : mem p = nul := hsp
      refine ⟨_, .refl _, le_rfl, Nat.le_add_right _ _, ?_⟩
      rw [vprintfmt_nil, Option.map_some, List.append_nil]
      simp only [scanStep, hmem, if_neg (show nul ≠ '%' by decide), if_true]
    | cons ch fmt =>
      obtain ⟨hmem, hne, hsp⟩ := hsp
      rw [List.length_cons] at hn ⊢
      by_cases hch : ch = '%'
      · subst hch
        have hfirst : scanStep str errorString mem ⟨.text, p, ap, out⟩
            = .inl ⟨.switch .init, p + 1, ap, out⟩ := by
          simp only [scanStep, hmem, if_true]
        have hflags := flagsRun_flagLoop str errorString out .init fmt ap (p + 1) hsp
        rw [vprintfmt_percent]
        refine .of_reaches (.step hfirst le_rfl (Nat.le_add_right _ _) (.refl _)) ?_
        match hres : flagLoop .init fmt ap with
        | none =>
          rw [hres] at hflags
          exact Ends.mono hflags (Nat.le_succ p) (by omega)
        | some (st, fmt', ap') =>
          rw [hres] at hflags
          obtain ⟨pre, rfl, hmod, hstop, hreach⟩ := hflags
          have hends := ends_conversion ih st out ap' hmem (by omega) hsp hmod hstop
          rw [List.length_append] at hreach ⊢
          exact hends.of_reaches (hreach.mono (Nat.le_succ p) (by omega))
      · have hstep : scanStep str errorString mem ⟨.text, p, ap, out⟩
            = .inl ⟨.text, p + 1, ap, out ++ [ch]⟩ := by
          simp only [scanStep, hmem, if_neg hch, if_neg hne]
        have hrest := (ih fmt (p + 1) ap (out ++ [ch]) (by omega) hsp).mono (Nat.le_succ p)
          (show p + 1 + fmt.length ≤ p + (fmt.length + 1) by omega)
        rw [vprintfmt_char _ _ hch, Option.map_map]
        refine .of_reaches (.step hstep le_rfl (Nat.le_add_right _ _) (.refl _)) ?_
        simpa [Function.comp_def] using hrest

/-! ### Unknown directives -/

theorem not_digit_of_not_modifier (h : ¬ Modifier ch) : ch < '0' ∨ ch > '9' := by
  by_contra hdigit
  exact h (modifier_of_digit hdigit)

/-- The digits of a width are the first of the modifiers. -/
theorem widthLoop_modifiers {rest : List Char} (hrest : ∀ c ∈ rest.head?, ¬ Modifier c) :
    ∀ (mods : List Char) (precision : ℤ) (ch : Char), ∃ ds mods', mods = ds ++ mods' ∧ '*' ∉ ds ∧
      (widthLoop precision ch (mods ++ rest)).2 = mods' ++ rest := by
  intro mods
  induction mods with
  | nil =>
    intro precision ch
    refine ⟨[], [], rfl, List.not_mem_nil, ?_⟩
    cases rest with
    | nil => rfl
    | cons c rest =>
      rw [List.nil_append, widthLoop]
      exact congrArg Prod.snd (if_pos (not_digit_of_not_modifier (hrest c rfl)))
  | cons c mods ih =>
    intro precision ch
    rw [List.cons_append, widthLoop]
    by_cases hdigit : c < '0' ∨ c > '9'
    · exact ⟨[], c :: mods, rfl, List.not_mem_nil, congrArg Prod.snd (if_pos hdigit)⟩
    · obtain ⟨ds, mods', hmods, hstar, hloop⟩ := ih (wrapInt (precision * 10 + ch.toNat - 48)) c
      refine ⟨c :: ds, mods', by rw [hmods, List.cons_append], ?_, ?_⟩
      · rintro hmem
        rcases List.mem_cons.mp hmem with rfl | hmem
        · exact hdigit (Or.inl (by decide))
        · exact hstar hmem
      · rw [if_neg hdigit]
        exact hloop

/-- The modifiers of a directive are read to their end. -/
theorem flagLoop_modifiers (rest : List Char) (hrest : ∀ c ∈ rest.head?, ¬ Modifier c) :
    ∀ (n : ℕ) (mods : List Char) (st : FmtLocals) (ap : List ℕ), mods.length < n →
      (∀ c ∈ mods, Modifier c) → mods.count '*' ≤ ap.length →
      ∃ st', flagLoop st (mods ++ rest) ap = some (st', rest, ap.drop (mods.count '*')) := by
  intro n
  induction n with
  | zero => exact fun _ _ _ hn => absurd hn (Nat.not_lt_zero _)
  | succ n ih =>
    intro mods st ap hn hmod hargs
    cases mods with
    | nil =>
      refine ⟨st, ?_⟩
      rw [List.nil_append, List.count_nil, List.drop_zero]
      cases rest with
      | nil => rw [flagLoop.eq_def]
      | cons c rest =>
        have hc := hrest c rfl
        simp only [Modifier, not_or] at hc
        obtain ⟨h1, h2, h3, h4, h5, h6, h7⟩ := hc
        rw [flagLoop.eq_def]
        simp only [h1, h2, h3, h4, h5, h6, h7, if_false]
    | cons c mods =>
      have hmod' : ∀ d ∈ mods, Modifier d := fun d hd => hmod d (List.mem_cons_of_mem _ hd)
      have hlen : mods.length < n := Nat.lt_of_succ_lt_succ hn
      rcases hmod c List.mem_cons_self with rfl | rfl | hdigit | rfl | rfl | rfl | rfl
      · rw [List.count_cons_of_ne (by decide)] at hargs ⊢
        rw [List.cons_append, flagLoop.eq_def]
        exact ih mods _ ap hlen hmod' hargs
      · rw [List.count_cons_of_ne (by decide)] at hargs ⊢
        rw [List.cons_append, flagLoop.eq_def]
        exact ih mods _ ap hlen hmod' hargs
      · have hne : c ≠ '-' ∧ c ≠ '0' ∧ c ≠ '*' := by
          refine ⟨?_, ?_, ?_⟩
          all_goals
            rintro rfl
            exact absurd hdigit (by decide)
        obtain ⟨ds, mods', rfl, hstar, hloop⟩ := widthLoop_modifiers hrest mods 0 c
        have hcount : (c :: (ds ++ mods')).count '*' = mods'.count '*' := by
          rw [List.count_cons_of_ne hne.2.2, List.count_append, List.count_eq_zero.mpr hstar,
            Nat.zero_add]
        rw [hcount] at hargs ⊢
        rw [List.cons_append, flagLoop.eq_def]
        dsimp only
        rw [if_neg hne.1, if_neg hne.2.1, if_pos hdigit, hloop]
        rw [List.length_append] at hlen
        exact ih mods' _ ap (by omega) (fun d hd => hmod' d (List.mem_append_right _ hd)) hargs
      · rw [List.count_cons_self] at hargs ⊢
        obtain ⟨arg, ap, rfl⟩ : ∃ arg ap', ap = arg :: ap' :=
          List.exists_cons_of_length_pos (by omega)
        rw [List.cons_append, flagLoop.eq_def, List.drop_succ_cons]
        rw [List.length_cons] at hargs
        exact ih mods _ ap hlen hmod' (by omega)
      · rw [List.count_cons_of_ne (by decide)] at hargs ⊢
        rw [List.cons_append, flagLoop.eq_def]
        exact ih mods _ ap hlen hmod' hargs
      · rw [List.count_cons_of_ne (by decide)] at hargs ⊢
        rw [List.cons_append, flagLoop.eq_def]
        exact ih mods _ ap hlen hmod' hargs
      · rw [List.count_cons_of_ne (by decide)] at hargs ⊢
        rw [List.cons_append, flagLoop.eq_def]
        exact ih mods _ ap hlen hmod' hargs

/-- Characters without a `%` are printed as they are. -/
theorem vprintfmt_append (str : ℕ → List Char) (errorString : List ℕ) {l : List Char}
    (hl : ∀ c ∈ l, c ≠ '%') (rest : List Char) (ap : List ℕ) :
    vprintfmt str errorString (l ++ rest) ap = (vprintfmt str errorString rest ap).map (l ++ ·) := by
  induction l with
  | nil => simp
  | cons c l ih =>
    rw [List.cons_append, vprintfmt_char _ _ (hl c List.mem_cons_self),
      ih fun d hd => hl d (List.mem_cons_of_mem _ hd), Option.map_map]
    rfl

/-- A directive that is cut off by the end of the format is printed as it stands. -/
theorem vprintfmt_cut {mods : List Char} (hmod : ∀ c ∈ mods, Modifier c)
    (hargs : mods.count '*' ≤ ap.length) :
    vprintfmt str errorString ('%' :: mods) ap = some ('%' :: mods) := by
  obtain ⟨st, hflags⟩ := flagLoop_modifiers [] (by simp) _ mods .init ap (Nat.lt_succ_self _)
    hmod hargs
  rw [List.append_nil] at hflags
  rw [vprintfmt_percent, hflags, Option.bind_some, conversion, Option.bind_some]
  dsimp only
  have hrest := vprintfmt_append str errorString
    (fun c hc => (hmod c hc).ne_percent) [] (ap.drop (mods.count '*'))
  rw [List.append_nil, vprintfmt_nil, Option.map_some, List.append_nil] at hrest
  rw [hrest]
  rfl

/-- **A directive that is not known is printed as it stands**, and the format goes on behind it. -/
theorem vprintfmt_unknown {mods : List Char} (hmod : ∀ c ∈ mods, Modifier c) (hch : Unknown ch)
    (hargs : mods.count '*' ≤ ap.length) (rest : List Char) :
    vprintfmt str errorString ('%' :: mods ++ ch :: rest) ap
      = (vprintfmt str errorString rest (ap.drop (mods.count '*'))).map ('%' :: mods ++ ch :: ·) := by
  obtain ⟨st, hflags⟩ := flagLoop_modifiers (ch :: rest) (by simpa using hch.1) _ mods .init ap
    (Nat.lt_succ_self _) hmod hargs
  rw [List.cons_append, vprintfmt_percent, hflags, Option.bind_some, conversion, convert.eq_def,
    if_neg hch.2.1, if_neg hch.2.2, Option.bind_some]
  dsimp only
  rw [vprintfmt_append _ _ fun c hc => (hmod c hc).ne_percent, vprintfmt_char _ _ hch.2.2, Option.map_map,
    Option.map_map]
  rfl

/-- **Scanning a format is safe**: it ends, within the format and the zero behind it, with the text of
`vprintfmt`, in which a directive that is not known stands as it is. -/
theorem scan_safe (str : ℕ → List Char) (errorString : List ℕ) (hsp : Spells mem p fmt) (ap : List ℕ) :
    Ends str errorString mem p (p + fmt.length) ⟨.text, p, ap, []⟩
        (vprintfmt str errorString fmt ap) ∧
      ∀ (mods : List Char) (ap : List ℕ), (∀ c ∈ mods, Modifier c) → mods.count '*' ≤ ap.length →
        vprintfmt str errorString ('%' :: mods) ap = some ('%' :: mods) ∧
        ∀ (ch : Char) (rest : List Char), Unknown ch →
          vprintfmt str errorString ('%' :: mods ++ ch :: rest) ap
            = (vprintfmt str errorString rest (ap.drop (mods.count '*'))).map
                ('%' :: mods ++ ch :: ·) := by
  refine ⟨?_, fun mods ap hmod hargs => ⟨vprintfmt_cut hmod hargs, fun ch rest hch =>
    vprintfmt_unknown hmod hch hargs rest⟩⟩
  have hscan := scans_text str errorString mem _ fmt p ap [] (Nat.lt_succ_self _) hsp
  simpa using hscan

/-- `%5q` at 8, where `q` is no conversion, is printed as it stands. -/
theorem scan_safe_unknownLetter :
    Ends (fun _ => []) [] (fun i => ['%', '5', 'q'].getD (i - 8) nul) 8 11 ⟨.text, 8, [], []⟩
      (some ['%', '5', 'q']) := by
  have hsp : Spells (fun i => ['%', '5', 'q'].getD (i - 8) nul) 8 ['%', '5', 'q'] :=
    ⟨rfl, by decide, rfl, by decide, rfl, by decide, rfl⟩
  obtain ⟨hends, hunknown⟩ := scan_safe (fun _ => []) [] hsp []
  have htext : vprintfmt (fun _ => []) [] ['%', '5', 'q'] [] = some ['%', '5', 'q'] := by
    have h := (hunknown ['5'] [] (by simp [Modifier]) (by simp)).2 'q' [] (by decide)
    rwa [vprintfmt_nil] at h
  rwa [htext] at hends

end Runs

end GeekToyOS
