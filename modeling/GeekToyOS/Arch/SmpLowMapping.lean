import GeekToyOS.Arch.SmpBoot

/-!
# How long the low mappings are needed

An AP runs at low addresses from the start-up message it heeds until `boot_ap` has jumped to `ap_start`:
first in the trampoline at `MP_BASE`, then in `boot_ap`, which is linked into `.init.text`. When the
BSP has gone through all processors it takes both mappings away.

What the BSP waits for is `smp_ap_started_flag`, which `boot_ap` sets with its first statement, while it
still has to run on. And it waits for a while only. So the last AP may be cut off between the two
statements of `boot_ap`, and an AP that answers late anywhere before.

## Main definitions

* `ApPc.Low` — the next instruction is at a low address
* `OutOfLow s id` — the AP is out of low code and heeds no start-up message any more
* `KeepsLowMapped` — the BSP takes a low mapping away only when every AP is out of low code
* `WaitsOut` — the BSP stops waiting for an AP only when that AP is out of low code

## Main results

* `lowMapped_of_waitsOut` — the mappings outlive low code in every run whose steps are all `WaitsOut`
-/

namespace GeekToyOS

/-- The next instruction is in the trampoline or in `boot_ap`. -/
def ApPc.Low : ApPc → Prop
  | .halted | .waiting | .running _ => False
  | .trampoline | .loaded _ | .bootAp _ | .flagged _ => True

instance ApPc.Low.instDecidable (pc : ApPc) : Decidable pc.Low := by
  cases pc <;> rw [ApPc.Low] <;> infer_instance

/-- With these messages on their way, an AP will heed a start-up message. -/
def mayStart : ApPc → List Ipi → Bool
  | _, [] => false
  | _, .init :: rest => mayStart .waiting rest
  | pc, .startUp :: rest => pc = .waiting || mayStart pc rest

/-- **The AP is out of low code** and will not get there again. -/
def OutOfLow (s : Smp) (id : ℕ) : Prop :=
  ¬ (s.ap id).Low ∧ mayStart (s.ap id) (s.inFlight id) = false

instance OutOfLow.instDecidable (s : Smp) (id : ℕ) : Decidable (OutOfLow s id) :=
  inferInstanceAs (Decidable (_ ∧ _))

/-- **The BSP takes a low mapping away only when every AP is out of low code.** -/
def KeepsLowMapped (s : Smp) (e : SmpEvent) : Prop :=
  e = .bsp → s.bsp = .unmapLow ∨ s.bsp = .clearLow → ∀ id, OutOfLow s id

/-- The BSP stops waiting for an AP, because it saw the flag or because it gives up. -/
def BspPc.StopsWaiting (pc : BspPc) (started : Bool) (id : ℕ) : Prop :=
  pc = .testFlag id ∧ started = true ∨ pc = .retestFlag id

/-- The BSP stops waiting for an AP only when that AP is out of low code. -/
def WaitsOut (s : Smp) : SmpEvent → Prop
  | .bsp => ∀ id, s.bsp.StopsWaiting s.started id → OutOfLow s id
  | .deliver _ | .ap _ => True

instance WaitsOut.instDecidable (s : Smp) (e : SmpEvent) : Decidable (WaitsOut s e) :=
  match e with
  | .ap _ | .deliver _ => inferInstanceAs (Decidable True)
  | .bsp =>
    match h : s.bsp with
    | .testFlag id =>
      decidable_of_iff (s.started = true → OutOfLow s id) (by simp [WaitsOut, BspPc.StopsWaiting, h])
    | .retestFlag id => decidable_of_iff (OutOfLow s id) (by simp [WaitsOut, BspPc.StopsWaiting, h])
    | .mapLow | .loop _ | .clearFlag _ | .sendInit _ | .sendSipi _ | .resendSipi _
    | .clearStack _ | .unmapLow | .clearLow | .done => isTrue (by simp [WaitsOut, BspPc.StopsWaiting, h])

/-- The processor that may have start-up messages on their way or be on its way up. -/
def BspPc.awaited : BspPc → Option ℕ
  | .sendSipi id | .testFlag id | .resendSipi id | .retestFlag id => some id
  | _ => none

variable {cpunum : ℕ} {stack : ℕ → ℕ} {s s' : Smp} {e : SmpEvent} {id : ℕ}

/-! ### Messages -/

theorem mayStart_append_init (pc : ApPc) (ms : List Ipi) :
    mayStart pc (ms ++ [.init]) = mayStart pc ms := by
  induction ms generalizing pc with
  | nil => rfl
  | cons m ms ih => cases m <;> simp [mayStart, ih]

theorem OutOfLow.congr (h : OutOfLow s id) (hap : s'.ap id = s.ap id)
    (hmsg : s'.inFlight id = s.inFlight id) : OutOfLow s' id := by
  rwa [OutOfLow, hap, hmsg]

/-- An AP that is out of low code takes no step there. -/
theorem OutOfLow.apStep_ne (h : OutOfLow s id) (hstep : apStep s id = some s') : False := by
  have hlow := h.1
  rw [apStep] at hstep
  split at hstep <;> rename_i hap
  · exact Option.some_ne_none _ hstep.symm
  · exact Option.some_ne_none _ hstep.symm
  · exact hlow (by rw [hap]; trivial)
  · exact hlow (by rw [hap]; trivial)
  · exact hlow (by rw [hap]; trivial)
  · exact hlow (by rw [hap]; trivial)
  · exact Option.some_ne_none _ hstep.symm

/-- A message that arrives changes its receiver, and nothing else. -/
theorem deliverStep_frame (hstep : deliverStep s id = some s') : s'.bsp = s.bsp ∧
    ∀ i ≠ id, s'.ap i = s.ap i ∧ s'.inFlight i = s.inFlight i := by
  rw [deliverStep] at hstep
  split at hstep
  · exact absurd hstep.symm (Option.some_ne_none _)
  · dsimp only at hstep
    split at hstep
    · obtain rfl := Option.some.inj hstep
      exact ⟨rfl, fun i hi => ⟨Function.update_of_ne hi _ _, Function.update_of_ne hi _ _⟩⟩
    · obtain rfl := Option.some.inj hstep
      split
      · exact ⟨rfl, fun i hi => ⟨Function.update_of_ne hi _ _, Function.update_of_ne hi _ _⟩⟩
      · exact ⟨rfl, fun i hi => ⟨rfl, Function.update_of_ne hi _ _⟩⟩

/-- A step of an AP changes that AP, and besides it only the flag that it is up. -/
theorem apStep_frame (hstep : apStep s id = some s') : s'.bsp = s.bsp ∧ s'.inFlight = s.inFlight ∧
    ∀ i ≠ id, s'.ap i = s.ap i := by
  rw [apStep] at hstep
  split at hstep
  · exact absurd hstep.symm (Option.some_ne_none _)
  · exact absurd hstep.symm (Option.some_ne_none _)
  · obtain rfl := Option.some.inj hstep
    exact ⟨rfl, rfl, fun i hi => Function.update_of_ne hi _ _⟩
  · obtain rfl := Option.some.inj hstep
    exact ⟨rfl, rfl, fun i hi => Function.update_of_ne hi _ _⟩
  · obtain rfl := Option.some.inj hstep
    exact ⟨rfl, rfl, fun i hi => Function.update_of_ne hi _ _⟩
  · obtain rfl := Option.some.inj hstep
    exact ⟨rfl, rfl, fun i hi => Function.update_of_ne hi _ _⟩
  · exact absurd hstep.symm (Option.some_ne_none _)

/-- A message that reaches an AP out of low code leaves it there. -/
theorem OutOfLow.deliver (h : OutOfLow s id) (hstep : deliverStep s id = some s') : OutOfLow s' id := by
  obtain ⟨hlow, hmay⟩ := h
  rw [deliverStep] at hstep
  split at hstep <;> rename_i hmsg
  · exact absurd hstep.symm (Option.some_ne_none _)
  · rename_i m rest
    rw [hmsg] at hmay
    cases m with
    | init =>
      obtain rfl := Option.some.inj hstep
      refine ⟨by simp [Smp.setAp, ApPc.Low], ?_⟩
      simpa [Smp.setAp, mayStart] using hmay
    | startUp =>
      rw [mayStart, Bool.or_eq_false_iff, decide_eq_false_iff_not] at hmay
      obtain rfl := Option.some.inj hstep
      rw [if_neg hmay.1]
      exact ⟨hlow, by simpa using hmay.2⟩

/-! ### Runs -/

/-- **The invariant**: every AP but the one that is awaited is out of low code. -/
def AllOut (s : Smp) : Prop := ∀ id, s.bsp.awaited ≠ some id → OutOfLow s id

theorem AllOut.start : AllOut smpStart := fun _ _ => ⟨fun h => h, rfl⟩

/-- A step of the BSP that sends no message keeps the invariant, if it stops waiting only for an AP that is
out of low code. -/
theorem AllOut.goto (hI : AllOut s) (hap : s'.ap = s.ap) (hmsg : s'.inFlight = s.inFlight)
    (hpc : ∀ id, s.bsp.awaited = some id → s'.bsp.awaited = some id ∨ OutOfLow s id) : AllOut s' := by
  intro id hid
  refine OutOfLow.congr ?_ (congrFun hap id) (congrFun hmsg id)
  by_cases hold : s.bsp.awaited = some id
  · exact (hpc id hold).resolve_left hid
  · exact hI id hold

/-- A start-up message goes to the AP that is awaited. -/
theorem AllOut.send (hI : AllOut s) {pc : BspPc} (hold : s.bsp.awaited = some id)
    (hnew : pc.awaited = some id) : AllOut { s.send id .startUp with bsp := pc } := by
  intro i hi
  have hne : i ≠ id := fun he => hi (he ▸ hnew)
  refine (hI i fun he => hne (Option.some.inj (he.symm.trans hold))).congr rfl ?_
  exact Function.update_of_ne hne _ _

theorem AllOut.bspStep (hI : AllOut s) (hok : WaitsOut s .bsp)
    (hstep : bspStep cpunum stack s = some s') : AllOut s' := by
  rw [GeekToyOS.bspStep] at hstep
  split at hstep <;> rename_i hbsp
  case h_2 =>
    split at hstep
    · split at hstep
      all_goals
        obtain rfl := Option.some.inj hstep
        exact hI.goto rfl rfl fun i hi => by simp [hbsp, BspPc.awaited] at hi
    · obtain rfl := Option.some.inj hstep
      exact hI.goto rfl rfl fun i hi => by simp [hbsp, BspPc.awaited] at hi
  case h_4 id =>
    -- INIT alone starts nothing
    obtain rfl := Option.some.inj hstep
    intro i hi
    have hout : OutOfLow s i := hI i (by simp [hbsp, BspPc.awaited])
    refine ⟨hout.1, ?_⟩
    by_cases hid : i = id
    · subst hid
      simpa [Smp.send, mayStart_append_init] using hout.2
    · simpa [Smp.send, hid] using hout.2
  case h_5 id =>
    obtain rfl := Option.some.inj hstep
    exact hI.send (by rw [hbsp]; rfl) rfl
  case h_6 id =>
    obtain rfl := Option.some.inj hstep
    refine hI.goto rfl rfl fun i hi => ?_
    obtain rfl : id = i := by simpa [hbsp, BspPc.awaited] using hi
    by_cases hflag : s.started = true
    · exact Or.inr (hok id (Or.inl ⟨hbsp, hflag⟩))
    · exact Or.inl (by simp [hflag, BspPc.awaited])
  case h_7 id =>
    obtain rfl := Option.some.inj hstep
    exact hI.send (by rw [hbsp]; rfl) rfl
  case h_8 id =>
    have hout : ∀ i, s.bsp.awaited = some i → OutOfLow s i := fun i hi => by
      obtain rfl : id = i := by simpa [hbsp, BspPc.awaited] using hi
      exact hok id (Or.inr hbsp)
    split at hstep
    all_goals
      obtain rfl := Option.some.inj hstep
      exact hI.goto rfl rfl fun i hi => Or.inr (hout i hi)
  case h_12 => exact absurd hstep.symm (Option.some_ne_none _)
  all_goals
    obtain rfl := Option.some.inj hstep
    exact hI.goto rfl rfl fun i hi => by simp [hbsp, BspPc.awaited] at hi

/-- **One step keeps the invariant**, if the BSP waits for the APs to leave low code. -/
theorem AllOut.step (hI : AllOut s) (hok : WaitsOut s e) (hstep : SmpStep cpunum stack s e s') :
    AllOut s' := by
  cases e with
  | bsp => exact hI.bspStep hok hstep
  | deliver id =>
    obtain ⟨hbsp, hother⟩ := deliverStep_frame hstep
    intro i hi
    by_cases hid : i = id
    · subst hid
      exact (hI i (hbsp ▸ hi)).deliver hstep
    · exact (hI i (hbsp ▸ hi)).congr (hother i hid).1 (hother i hid).2
  | ap id =>
    obtain ⟨hbsp, hmsg, hother⟩ := apStep_frame hstep
    intro i hi
    have hout := hI i (hbsp ▸ hi)
    by_cases hid : i = id
    · subst hid
      exact (hout.apStep_ne hstep).elim
    · exact hout.congr (hother i hid) (congrFun hmsg i)

/-- **The low mappings outlive low code in every run whose steps are all `WaitsOut`**, for any number of
processors. -/
theorem lowMapped_of_waitsOut {l : List (SmpEvent × Smp)}
    (hrun : Trace.Run (SmpStep cpunum stack) smpStart l) (hok : Trace.StepsOk WaitsOut smpStart l) :
    Trace.StepsOk KeepsLowMapped smpStart l := by
  refine Trace.steps (I := AllOut) (fun hI hok hstep => hI.step hok hstep) ?_ hrun AllOut.start hok
  intro s e hI _ hpc id
  refine hI id ?_
  rcases hpc with hpc | hpc <;> simp [hpc, BspPc.awaited]

/-! ### Two runs -/

/-- Two processors; the AP is in high code before the BSP looks at the flag. -/
def settledEvents : List SmpEvent :=
  [.bsp, .bsp, .bsp, .bsp, .bsp, .deliver 1, .deliver 1, .ap 1, .ap 1, .ap 1, .ap 1, .bsp, .bsp,
    .bsp, .bsp, .bsp]

/-- Two processors; the BSP sees the flag and goes on while the AP is still in `boot_ap`. -/
def hastyEvents : List SmpEvent :=
  [.bsp, .bsp, .bsp, .bsp, .bsp, .deliver 1, .deliver 1, .ap 1, .ap 1, .ap 1, .bsp, .bsp, .bsp,
    .bsp, .bsp]

theorem lowMapped_of_waitsOut_settledEvents :
    ∃ l t, Trace.Run (SmpStep 2 (· + 1)) smpStart l ∧ t ∈ Trace.states smpStart l ∧
      t.bsp = .done ∧ t.ap 1 = .running 1 ∧ Trace.StepsOk KeepsLowMapped smpStart l := by
  have hexec : (Trace.exec (smpStep 2 (· + 1)) smpStart settledEvents).any fun l =>
      decide (Trace.StepsOk WaitsOut smpStart l) && (Trace.states smpStart l).any fun t =>
        decide (t.bsp = .done) && decide (t.ap 1 = .running 1) := by
    decide +kernel
  obtain ⟨l, hl, hok⟩ := (Option.any_eq_true _ _).mp hexec
  rw [Bool.and_eq_true, decide_eq_true_eq, List.any_eq_true] at hok
  obtain ⟨hok, t, ht, hend⟩ := hok
  rw [Bool.and_eq_true, decide_eq_true_eq, decide_eq_true_eq] at hend
  have hrun : Trace.Run (SmpStep 2 (· + 1)) smpStart l := Trace.run_of_exec hl
  exact ⟨l, t, hrun, ht, hend.1, hend.2, lowMapped_of_waitsOut hrun hok⟩

/-- Both mappings go while the AP is between the two statements of `boot_ap`. -/
theorem not_lowMapped_hastyEvents :
    ¬ ∀ l, Trace.Run (SmpStep 2 (· + 1)) smpStart l → Trace.StepsOk KeepsLowMapped smpStart l := by
  intro hall
  have hexec : (Trace.exec (smpStep 2 (· + 1)) smpStart hastyEvents).any fun l =>
      !decide (Trace.StepsOk (fun s e => e = .bsp → s.bsp = .unmapLow ∨ s.bsp = .clearLow →
        OutOfLow s 1) smpStart l) := by
    decide +kernel
  obtain ⟨l, hl, hbad⟩ := (Option.any_eq_true _ _).mp hexec
  rw [Bool.not_eq_true', decide_eq_false_iff_not] at hbad
  exact hbad ((hall l (Trace.run_of_exec hl)).mono fun _ _ hkeeps he hpc => hkeeps he hpc 1)

end GeekToyOS
