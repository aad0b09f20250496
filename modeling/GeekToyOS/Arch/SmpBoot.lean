import Mathlib.Logic.Function.Basic
import GeekToyOS.Data.Trace

/-!
# Starting the other processors

`arch_smp_init` and `smp_boot` of `src/arch/x86_64/smp.c`, the trampoline of `boot_mp.S` and `boot_ap` of
`init.c`, as a transition system: one processor, the BSP, starts the others one after the other; each
of them takes its messages whenever it likes, and then starts at its own pace.

The BSP waits for an AP for a while only. When it gives up, the stack it had put into `mp_stacktop`
stays there for the next AP, and so does the start-up message of the one that did not answer.

Messages to one processor arrive in the order they were sent. What the trampoline does before it loads
`mp_stacktop` is one position, as is what follows in high memory. `stack k` is the top of the stack that
the `k`-th allocation returns.

## Main definitions

* `smpStep` — one step of the BSP, the delivery of a message, or one step of an AP
* `StacksExclusive` — no two APs have the same stack, and none has `NULL`
* `InTime` — an AP loads the stack while the BSP waits for it, and the BSP gives up only on APs that
  did not

## Main results

* `stacks_exclusive` — stacks are exclusive in every run whose steps are all `InTime`
-/

namespace GeekToyOS

/-- Where the BSP is in `arch_smp_init`, and in `smp_boot(id)`. -/
inductive BspPc
  /-- before `arch_map_region(NULL, MP_BASE, MP_BASE, ..)` -/
  | mapLow
  /-- at the test of the loop -/
  | loop (id : ℕ)
  /-- before `smp_ap_started_flag = 0` -/
  | clearFlag (id : ℕ)
  | sendInit (id : ℕ)
  | sendSipi (id : ℕ)
  /-- before the first test of the flag -/
  | testFlag (id : ℕ)
  | resendSipi (id : ℕ)
  /-- before the second test of the flag -/
  | retestFlag (id : ℕ)
  /-- before `mp_stacktop = NULL` -/
  | clearStack (id : ℕ)
  /-- before `arch_map_region(NULL, MP_BASE, 0, .., PG_CLEAR)` -/
  | unmapLow
  /-- before `arch_clear_low_page()` -/
  | clearLow
  | done
deriving DecidableEq, Repr

/-- The processor that the BSP is in `smp_boot` for. -/
def BspPc.booting : BspPc → Option ℕ
  | .clearFlag id | .sendInit id | .sendSipi id | .testFlag id | .resendSipi id | .retestFlag id
  | .clearStack id => some id
  | _ => none

/-- A message to an AP. -/
inductive Ipi
  | init
  | startUp
deriving DecidableEq, Repr

/-- Where an AP is. -/
inductive ApPc
  /-- before the first message -/
  | halted
  /-- after INIT -/
  | waiting
  /-- after SIPI, before the load of `mp_stacktop` -/
  | trampoline
  /-- after the load, still in the trampoline -/
  | loaded (sp : ℕ)
  /-- in `boot_ap`, before `smp_ap_started_flag = 1` -/
  | bootAp (sp : ℕ)
  /-- in `boot_ap`, after it -/
  | flagged (sp : ℕ)
  /-- in `ap_start` -/
  | running (sp : ℕ)
deriving DecidableEq, Repr

/-- The stack top that an AP loaded. -/
def ApPc.sp : ApPc → Option ℕ
  | .loaded sp | .bootAp sp | .flagged sp | .running sp => some sp
  | _ => none

/-- The processors and what they share. -/
structure Smp where
  bsp : BspPc
  /-- `mp_stacktop`; zero is `NULL` -/
  stacktop : ℕ
  /-- `smp_ap_started_flag` -/
  started : Bool
  /-- how many stacks were allocated -/
  allocated : ℕ
  /-- messages not yet delivered, oldest first -/
  inFlight : ℕ → List Ipi
  ap : ℕ → ApPc
  /-- `lapic->present` -/
  present : ℕ → Bool
  /-- `MP_BASE` is mapped -/
  mpMapped : Bool
  /-- the low window is mapped -/
  lowMapped : Bool

/-- Something happens. -/
inductive SmpEvent
  | bsp
  | deliver (id : ℕ)
  | ap (id : ℕ)
deriving DecidableEq, Repr

namespace Smp

/-- `lapic_send_ipi`. -/
def send (s : Smp) (id : ℕ) (m : Ipi) : Smp :=
  { s with inFlight := Function.update s.inFlight id (s.inFlight id ++ [m]) }

/-- An AP moves. -/
def setAp (s : Smp) (id : ℕ) (pc : ApPc) : Smp := { s with ap := Function.update s.ap id pc }

end Smp

/-- A step of the BSP; `cpunum` is `smp_cpunum()`. -/
def bspStep (cpunum : ℕ) (stack : ℕ → ℕ) (s : Smp) : Option Smp :=
  match s.bsp with
  | .mapLow => some { s with bsp := .loop 1, mpMapped := true }
  | .loop id =>
    if id < cpunum then
      -- `if (mp_stacktop == NULL)`
      if s.stacktop = 0 then
        some { s with bsp := .clearFlag id, stacktop := stack s.allocated, allocated := s.allocated + 1 }
      else some { s with bsp := .clearFlag id }
    else some { s with bsp := .unmapLow }
  | .clearFlag id => some { s with bsp := .sendInit id, started := false }
  | .sendInit id => some { s.send id .init with bsp := .sendSipi id }
  | .sendSipi id => some { s.send id .startUp with bsp := .testFlag id }
  | .testFlag id => some { s with bsp := if s.started then .clearStack id else .resendSipi id }
  | .resendSipi id => some { s.send id .startUp with bsp := .retestFlag id }
  | .retestFlag id =>
    if s.started then some { s with bsp := .clearStack id }
    else some { s with bsp := .loop (id + 1), present := Function.update s.present id false }
  | .clearStack id => some { s with bsp := .loop (id + 1), stacktop := 0 }
  | .unmapLow => some { s with bsp := .clearLow, mpMapped := false }
  | .clearLow => some { s with bsp := .done, lowMapped := false }
  | .done => none

/-- The oldest message to an AP arrives. INIT resets it; a start-up message is heeded by an AP that waits
for one. -/
def deliverStep (s : Smp) (id : ℕ) : Option Smp :=
  match s.inFlight id with
  | [] => none
  | m :: rest =>
    let s := { s with inFlight := Function.update s.inFlight id rest }
    match m with
    | .init => some (s.setAp id .waiting)
    | .startUp => some (if s.ap id = .waiting then s.setAp id .trampoline else s)

/-- A step of an AP. -/
def apStep (s : Smp) (id : ℕ) : Option Smp :=
  match s.ap id with
  | .halted | .waiting => none
  | .trampoline => some (s.setAp id (.loaded s.stacktop))
  | .loaded sp => some (s.setAp id (.bootAp sp))
  | .bootAp sp => some { s.setAp id (.flagged sp) with started := true }
  | .flagged sp => some (s.setAp id (.running sp))
  | .running _ => none

/-- One step of the system. -/
def smpStep (cpunum : ℕ) (stack : ℕ → ℕ) (s : Smp) : SmpEvent → Option Smp
  | .bsp => bspStep cpunum stack s
  | .deliver id => deliverStep s id
  | .ap id => apStep s id

/-- Before `arch_smp_init`. -/
def smpStart : Smp where
  bsp := .mapLow
  stacktop := 0
  started := false
  allocated := 0
  inFlight := fun _ => []
  ap := fun _ => .halted
  present := fun _ => true
  mpMapped := false
  lowMapped := true

/-- The steps as a relation. -/
def SmpStep (cpunum : ℕ) (stack : ℕ → ℕ) (s : Smp) (e : SmpEvent) (s' : Smp) : Prop :=
  smpStep cpunum stack s e = some s'

/-- **No two APs have loaded the same stack, and none has loaded `NULL`.** -/
structure StacksExclusive (s : Smp) : Prop where
  not_null : ∀ i, (s.ap i).sp ≠ some 0
  distinct : ∀ i j sp, (s.ap i).sp = some sp → (s.ap j).sp = some sp → i = j

/-- An AP loads `mp_stacktop` only while the BSP is in `smp_boot` for it, and the BSP does not give up on
an AP that loaded it. -/
def InTime (s : Smp) : SmpEvent → Prop
  | .ap id => s.ap id = .trampoline → s.bsp.booting = some id
  | .bsp => ∀ id, s.bsp = .retestFlag id → s.started = false → (s.ap id).sp = none
  | .deliver _ => True

instance InTime.instDecidable (s : Smp) (e : SmpEvent) : Decidable (InTime s e) :=
  match e with
  | .ap id => inferInstanceAs (Decidable (s.ap id = .trampoline → s.bsp.booting = some id))
  | .deliver _ => inferInstanceAs (Decidable True)
  | .bsp =>
    match h : s.bsp with
    | .retestFlag id =>
      decidable_of_iff (s.started = false → (s.ap id).sp = none) (by simp [InTime, h])
    | .mapLow | .loop _ | .clearFlag _ | .sendInit _ | .sendSipi _ | .testFlag _ | .resendSipi _
    | .clearStack _ | .unmapLow | .clearLow | .done => isTrue (by simp [InTime, h])

/-! ### Safety -/

section Safety

variable {cpunum : ℕ} {stack : ℕ → ℕ} {s s' : Smp} {e : SmpEvent}

/-- **The invariant of runs whose steps are in time.** -/
structure SmpInv (stack : ℕ → ℕ) (s : Smp) : Prop where
  /-- Stacks that were loaded were allocated. -/
  loaded : ∀ i sp, (s.ap i).sp = some sp → ∃ k < s.allocated, sp = stack k
  distinct : ∀ i j sp, (s.ap i).sp = some sp → (s.ap j).sp = some sp → i = j
  pending : s.stacktop ≠ 0 → ∃ k < s.allocated, s.stacktop = stack k
  /-- Only the AP that is being booted may have loaded the pending stack. -/
  own : ∀ i, (s.ap i).sp = some s.stacktop → s.bsp.booting = some i
  /-- There is a pending stack for it. -/
  booting : ∀ i, s.bsp.booting = some i → s.stacktop ≠ 0

namespace SmpInv

theorem start (stack : ℕ → ℕ) : SmpInv stack smpStart where
  loaded := fun _ _ h => (Option.some_ne_none _ h.symm).elim
  distinct := fun _ _ _ h => (Option.some_ne_none _ h.symm).elim
  pending := fun h => absurd rfl h
  own := fun _ h => (Option.some_ne_none _ h.symm).elim
  booting := fun _ h => (Option.some_ne_none _ h.symm).elim

/-- The BSP goes on in `smp_boot`, or leaves it for an AP that did not load the stack. -/
theorem goto (hI : SmpInv stack s) {pc : BspPc} (hsame : s'.stacktop = s.stacktop)
    (hap : s'.ap = s.ap) (halloc : s'.allocated = s.allocated) (hpc : s'.bsp = pc)
    (hboot : pc.booting = s.bsp.booting ∨
      pc.booting = none ∧ ∀ i, s.bsp.booting = some i → (s.ap i).sp = none) :
    SmpInv stack s' := by
  subst hpc
  refine ⟨?_, ?_, ?_, fun i hi => ?_, fun i hi => ?_⟩
  · rw [hap, halloc]
    exact hI.loaded
  · rw [hap]
    exact hI.distinct
  · rw [hsame, halloc]
    exact hI.pending
  · rw [hap, hsame] at hi
    have hbi := hI.own i hi
    rcases hboot with hb | ⟨-, hnone⟩
    · rw [hb, hbi]
    · exact absurd (hi.symm.trans (hnone i hbi)) (by simp)
  · rw [hsame]
    rcases hboot with hb | ⟨hb, -⟩
    · exact hI.booting i (hb ▸ hi)
    · rw [hb] at hi
      exact (Option.some_ne_none _ hi.symm).elim

/-- An AP moves on without loading a stack: nothing is to be shown but where it is. -/
theorem moveAp (hI : SmpInv stack s) {id : ℕ} {pc : ApPc}
    (hpc : pc.sp = none ∨ pc.sp = (s.ap id).sp) (hs' : s'.ap = Function.update s.ap id pc)
    (hrest : s'.stacktop = s.stacktop ∧ s'.allocated = s.allocated ∧ s'.bsp = s.bsp) :
    SmpInv stack s' := by
  obtain ⟨htop, halloc, hbsp⟩ := hrest
  have hold : ∀ i sp, (s'.ap i).sp = some sp → (s.ap i).sp = some sp := by
    intro i sp hi
    rw [hs'] at hi
    by_cases hid : i = id
    · subst hid
      rw [Function.update_self] at hi
      rcases hpc with hpc | hpc
      · exact absurd (hpc.symm.trans hi) (by simp)
      · exact hpc ▸ hi
    · rwa [Function.update_of_ne hid] at hi
  refine ⟨fun i sp hi => ?_, fun i j sp hi hj => hI.distinct i j sp (hold i sp hi) (hold j sp hj), ?_,
    fun i hi => ?_, ?_⟩
  · rw [halloc]
    exact hI.loaded i sp (hold i sp hi)
  · rw [htop, halloc]
    exact hI.pending
  · rw [hbsp]
    exact hI.own i (htop ▸ hold i _ hi)
  · rw [hbsp, htop]
    exact hI.booting

/-- **A step of the BSP** keeps the invariant, if it does not give up on an AP. -/
theorem bspStep (hinj : Function.Injective stack) (hne : ∀ k, stack k ≠ 0) (hI : SmpInv stack s)
    (hok : InTime s .bsp) (hstep : bspStep cpunum stack s = some s') : SmpInv stack s' := by
  rw [GeekToyOS.bspStep] at hstep
  split at hstep <;> rename_i hbsp
  case h_2 id =>
    -- outside of `smp_boot` no AP has loaded the pending stack
    have hnone : ∀ i, (s.ap i).sp ≠ some s.stacktop := fun i hi => by
      have := hI.own i hi
      rw [hbsp] at this
      exact (Option.some_ne_none _ this.symm).elim
    split at hstep
    · split at hstep
      · obtain rfl := Option.some.inj hstep
        refine ⟨fun i sp hi => ?_, hI.distinct, fun _ => ⟨_, Nat.lt_succ_self _, rfl⟩, fun i hi => ?_,
          fun _ _ => hne _⟩
        · obtain ⟨k, hk, rfl⟩ := hI.loaded i sp hi
          exact ⟨k, Nat.lt_succ_of_lt hk, rfl⟩
        · obtain ⟨k, hk, he⟩ := hI.loaded i _ hi
          exact absurd (hinj he) (Nat.ne_of_gt hk)
      · rename_i htop
        obtain rfl := Option.some.inj hstep
        exact ⟨hI.loaded, hI.distinct, hI.pending, fun i hi => absurd hi (hnone i), fun _ _ => htop⟩
    · obtain rfl := Option.some.inj hstep
      exact hI.goto rfl rfl rfl rfl (Or.inl (by rw [hbsp]; rfl))
  case h_8 id =>
    split at hstep
    · obtain rfl := Option.some.inj hstep
      exact hI.goto rfl rfl rfl rfl (Or.inl (by rw [hbsp]; rfl))
    · rename_i hflag
      obtain rfl := Option.some.inj hstep
      refine hI.goto rfl rfl rfl rfl (Or.inr ⟨rfl, fun i hi => ?_⟩)
      rw [hbsp] at hi
      obtain rfl := Option.some.inj hi
      exact hok id hbsp (by simpa using hflag)
  case h_9 id =>
    obtain rfl := Option.some.inj hstep
    refine ⟨hI.loaded, hI.distinct, fun h => absurd rfl h, fun i hi => ?_,
      fun _ h => (Option.some_ne_none _ h.symm).elim⟩
    obtain ⟨k, -, he⟩ := hI.loaded i _ hi
    exact absurd he.symm (hne k)
  case h_6 id =>
    obtain rfl := Option.some.inj hstep
    refine hI.goto rfl rfl rfl rfl (Or.inl ?_)
    rw [hbsp]
    by_cases hflag : s.started = true <;> simp [hflag, BspPc.booting]
  case h_12 => exact (Option.some_ne_none _ hstep.symm).elim
  all_goals
    obtain rfl := Option.some.inj hstep
    exact hI.goto rfl rfl rfl rfl (Or.inl (by rw [hbsp]; rfl))

/-- A message arrives, and an AP starts, or nothing happens. -/
theorem deliverStep {id : ℕ} (hI : SmpInv stack s) (hstep : deliverStep s id = some s') :
    SmpInv stack s' := by
  rw [GeekToyOS.deliverStep] at hstep
  split at hstep
  · exact (Option.some_ne_none _ hstep.symm).elim
  · dsimp only at hstep
    split at hstep
    · obtain rfl := Option.some.inj hstep
      exact @moveAp stack _ _ hI id .waiting (Or.inl rfl) rfl ⟨rfl, rfl, rfl⟩
    · obtain rfl := Option.some.inj hstep
      split
      · exact @moveAp stack _ _ hI id .trampoline (Or.inl rfl) rfl ⟨rfl, rfl, rfl⟩
      · exact hI.moveAp (Or.inr rfl) (Function.update_eq_self id s.ap).symm ⟨rfl, rfl, rfl⟩

/-- **A step of an AP** keeps the invariant, if it loads its stack in time. -/
theorem apStep {id : ℕ} (hI : SmpInv stack s) (hok : InTime s (.ap id))
    (hstep : apStep s id = some s') : SmpInv stack s' := by
  rw [GeekToyOS.apStep] at hstep
  split at hstep <;> rename_i hap
  case h_3 =>
    -- the load of `mp_stacktop`
    obtain rfl := Option.some.inj hstep
    have hboot := hok hap
    have htop := hI.booting id hboot
    have hfresh : ∀ i, (s.ap i).sp ≠ some s.stacktop := by
      intro i hi
      obtain rfl : id = i := Option.some.inj (hboot.symm.trans (hI.own i hi))
      rw [hap] at hi
      exact (Option.some_ne_none _ hi.symm).elim
    have hself : (s.setAp id (.loaded s.stacktop)).ap id = .loaded s.stacktop :=
      Function.update_self _ _ _
    have hother : ∀ i, i ≠ id → (s.setAp id (.loaded s.stacktop)).ap i = s.ap i := fun i hi =>
      Function.update_of_ne hi _ _
    have hsp : ∀ i sp, ((s.setAp id (.loaded s.stacktop)).ap i).sp = some sp →
        (i = id ∧ sp = s.stacktop) ∨ (i ≠ id ∧ (s.ap i).sp = some sp) := by
      intro i sp hi
      by_cases hid : i = id
      · subst hid
        rw [hself] at hi
        exact Or.inl ⟨rfl, (Option.some.inj hi).symm⟩
      · have hi' : (s.ap i).sp = some sp := by rw [← hother i hid]; exact hi
        exact Or.inr ⟨hid, hi'⟩
    refine ⟨fun i sp hi => ?_, fun i j sp hi hj => ?_, hI.pending, fun i hi => ?_, hI.booting⟩
    · rcases hsp i sp hi with ⟨-, rfl⟩ | ⟨-, hi⟩
      · exact hI.pending htop
      · exact hI.loaded i sp hi
    · rcases hsp i sp hi with ⟨hid, rfl⟩ | ⟨-, hi'⟩ <;> rcases hsp j _ hj with ⟨hjd, hjs⟩ | ⟨-, hj'⟩
      · rw [hid, hjd]
      · exact absurd hj' (hfresh j)
      · exact absurd (hjs ▸ hi') (hfresh i)
      · exact hI.distinct i j sp hi' hj'
    · rcases hsp i _ hi with ⟨rfl, -⟩ | ⟨-, hi⟩
      · exact hboot
      · exact absurd hi (hfresh i)
  all_goals first
    | exact (Option.some_ne_none _ hstep.symm).elim
    | (obtain rfl := Option.some.inj hstep
       exact hI.moveAp (Or.inr (by rw [hap]; rfl)) rfl ⟨rfl, rfl, rfl⟩)

theorem step (hinj : Function.Injective stack) (hne : ∀ k, stack k ≠ 0) (hI : SmpInv stack s)
    (hok : InTime s e) (hstep : SmpStep cpunum stack s e s') : SmpInv stack s' := by
  cases e with
  | bsp => exact hI.bspStep hinj hne hok hstep
  | deliver id => exact hI.deliverStep hstep
  | ap id => exact hI.apStep hok hstep

theorem stacksExclusive (hne : ∀ k, stack k ≠ 0) (hI : SmpInv stack s) : StacksExclusive s where
  not_null := fun i hi => by
    obtain ⟨k, -, he⟩ := hI.loaded i 0 hi
    exact hne k he.symm
  distinct := hI.distinct

end SmpInv

/-- **Stacks are exclusive in every run whose steps are all `InTime`**, for any number of processors. -/
theorem stacks_exclusive (hinj : Function.Injective stack) (hne : ∀ k, stack k ≠ 0)
    {l : List (SmpEvent × Smp)} (hrun : Trace.Run (SmpStep cpunum stack) smpStart l)
    (hok : Trace.StepsOk InTime smpStart l) :
    ∀ t ∈ Trace.states smpStart l, StacksExclusive t := by
  intro t ht
  have hinv : SmpInv stack t := Trace.invariant (I := SmpInv stack)
    (fun hI hok hstep => hI.step hinj hne hok hstep) hrun (SmpInv.start stack) hok t ht
  exact hinv.stacksExclusive hne

end Safety

/-! ### Two runs -/

/-- Three processors; both APs answer in time. -/
def promptEvents : List SmpEvent :=
  [.bsp, .bsp, .bsp, .bsp, .bsp, .deliver 1, .deliver 1, .ap 1, .ap 1, .ap 1, .bsp, .bsp,
    .bsp, .bsp, .bsp, .bsp, .deliver 2, .deliver 2, .ap 2, .bsp, .bsp, .ap 2, .ap 2, .bsp, .bsp]

/-- Three processors; the first AP takes its messages when the BSP has given up on it. -/
def lateEvents : List SmpEvent :=
  [.bsp, .bsp, .bsp, .bsp, .bsp, .bsp, .bsp, .bsp, .bsp, .bsp, .bsp, .bsp,
    .deliver 1, .deliver 1, .ap 1, .deliver 2, .deliver 2, .ap 2]

theorem stacks_exclusive_promptEvents :
    ∃ l t, Trace.Run (SmpStep 3 (· + 1)) smpStart l ∧ t ∈ Trace.states smpStart l ∧
      (t.ap 1).sp = some 1 ∧ (t.ap 2).sp = some 2 ∧ StacksExclusive t := by
  have hexec : (Trace.exec (smpStep 3 (· + 1)) smpStart promptEvents).any fun l =>
      decide (Trace.StepsOk InTime smpStart l) && (Trace.states smpStart l).any fun t =>
        (t.ap 1).sp == some 1 && (t.ap 2).sp == some 2 := by
    decide +kernel
  obtain ⟨l, hl, hok⟩ := (Option.any_eq_true _ _).mp hexec
  rw [Bool.and_eq_true, decide_eq_true_eq, List.any_eq_true] at hok
  obtain ⟨hok, t, ht, hsp⟩ := hok
  rw [Bool.and_eq_true, beq_iff_eq, beq_iff_eq] at hsp
  have hrun : Trace.Run (SmpStep 3 (· + 1)) smpStart l := Trace.run_of_exec hl
  exact ⟨l, t, hrun, ht, hsp.1, hsp.2,
    stacks_exclusive (fun _ _ => Nat.succ.inj) Nat.succ_ne_zero hrun hok t ht⟩

/-- Both APs load the stack that was allocated for the first. -/
theorem not_stacksExclusive_lateEvents :
    ¬ ∀ l, Trace.Run (SmpStep 3 (· + 1)) smpStart l →
      ∀ t ∈ Trace.states smpStart l, StacksExclusive t := by
  intro hall
  have hexec : (Trace.exec (smpStep 3 (· + 1)) smpStart lateEvents).any fun l =>
      (Trace.states smpStart l).any fun t => (t.ap 1).sp == some 1 && (t.ap 2).sp == some 1 := by
    decide +kernel
  obtain ⟨l, hl, hany⟩ := (Option.any_eq_true _ _).mp hexec
  obtain ⟨t, ht, hsp⟩ := List.any_eq_true.mp hany
  rw [Bool.and_eq_true, beq_iff_eq, beq_iff_eq] at hsp
  exact absurd ((hall l (Trace.run_of_exec hl) t ht).distinct 1 2 1 hsp.1 hsp.2) (by decide)

end GeekToyOS
