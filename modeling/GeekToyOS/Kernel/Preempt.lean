import GeekToyOS.Data.Trace
import GeekToyOS.Kernel.Spinlock

/-!
# Preemption

`preempt_disable` and `preempt_enable` of `src/kernel/proc/sched.c` on one processor, from
`smp_percpu_init` on, under interrupts.

The processor runs a stack of contexts, a handler above what it interrupted. Every context runs pairs of
`preempt_disable` and `preempt_enable` as it likes, as long as they are well nested; a handler returns
when its pairs are closed. An interrupt may come between any two of the steps below. The counter is an
`int` and wraps.

A pair is under way from the increment of its `preempt_disable` to the last step of its `preempt_enable`.

## Main definitions

* `smpPercpuInit` — the block that `smp_percpu_init` leaves
* `preemptStep` — one step of the processor
* `PreemptOk` — the lock is held exactly inside the outermost pair, and nothing spins forever
* `Undisturbed` — `preempt_disable` reads zero only where no pair is under way

## Main results

* `spinsForever_of_held` — a context that finds the lock taken never gets it
* `preemptOk_of_undisturbed` — nesting is right in every run whose steps are all `Undisturbed`, if the
  lock is free to begin with
* `not_preemptOk_gapEvents` — a handler in the gap of `preempt_enable` spins forever
-/

namespace GeekToyOS

/-- `struct percpu`, but for the run queue. -/
structure Percpu where
  id : ℕ
  preemptLock : Spinlock
  atomicPreemptCount : BitVec 32
deriving DecidableEq, Repr

/-- `smp_percpu_init` fills in the block that `kmalloc` returns; the lock keeps what the memory holds. -/
def smpPercpuInit (id : ℕ) (block : Percpu) : Percpu := { block with id := id, atomicPreemptCount := 0 }

/-- Where a context is in `preempt_disable` and `preempt_enable`. -/
inductive PreemptPc
  /-- in neither -/
  | out
  /-- in `atomic_inc`, with the `origin` that was read -/
  | inc (origin : BitVec 32)
  /-- in the loop of `acquire` -/
  | acquire
  /-- before `release` -/
  | release
deriving DecidableEq, Repr

/-- The interrupted code or a handler. -/
structure Context where
  /-- the pairs it is inside of -/
  depth : ℕ
  pc : PreemptPc
deriving DecidableEq, Repr

/-- The processor, with the context that runs on top of the stack. -/
structure Cpu where
  percpu : Percpu
  stack : List Context
deriving DecidableEq, Repr

inductive PreemptEvent
  /-- `preempt_disable` is called and reads the counter -/
  | disable
  /-- `preempt_enable` is called and decrements the counter -/
  | enable
  /-- the next step of either -/
  | step
  | interrupt
  | iret
deriving DecidableEq, Repr

/-- The step of the top context. -/
def contextStep (p : Percpu) (c : Context) : PreemptPc → Option (Percpu × Context)
  | .out => none
  | .inc origin =>
    some ({ p with atomicPreemptCount := p.atomicPreemptCount + 1 },
      if origin ≠ 0 then ⟨c.depth + 1, .out⟩ else ⟨c.depth, .acquire⟩)
  | .acquire =>
    some ({ p with preemptLock := p.preemptLock.exchange.2 },
      if p.preemptLock.exchange.1 ≠ 0 then c else ⟨c.depth + 1, .out⟩)
  | .release => some ({ p with preemptLock := p.preemptLock.release }, ⟨c.depth - 1, .out⟩)

/-- One step of the processor. -/
def preemptStep (s : Cpu) (e : PreemptEvent) : Option Cpu :=
  match s.stack with
  | [] => none
  | c :: rest =>
    match e with
    | .disable =>
      if c.pc = .out then some { s with stack := ⟨c.depth, .inc s.percpu.atomicPreemptCount⟩ :: rest }
      else none
    | .enable =>
      if c.pc = .out ∧ 0 < c.depth then
        let count := s.percpu.atomicPreemptCount - 1
        some ⟨{ s.percpu with atomicPreemptCount := count },
          (if count = 0 then ⟨c.depth, .release⟩ else ⟨c.depth - 1, .out⟩) :: rest⟩
      else none
    | .step => (contextStep s.percpu c c.pc).map fun r => ⟨r.1, r.2 :: rest⟩
    | .interrupt => some { s with stack := ⟨0, .out⟩ :: c :: rest }
    | .iret => if c = ⟨0, .out⟩ ∧ rest ≠ [] then some { s with stack := rest } else none

def PreemptStep (s : Cpu) (e : PreemptEvent) (s' : Cpu) : Prop := preemptStep s e = some s'

/-- The processor after `smp_percpu_init`. -/
def preemptStart (id : ℕ) (block : Percpu) : Cpu := ⟨smpPercpuInit id block, [⟨0, .out⟩]⟩

/-! ### What is to hold -/

/-- A pair of the context is under way. -/
def Context.Open (c : Context) : Prop := c.depth ≠ 0 ∨ c.pc = .acquire

instance (c : Context) : Decidable c.Open := inferInstanceAs (Decidable (_ ∨ _))

/-- The context of the outermost pair: the lowest one of the stack that has a pair under way. -/
def outermost : List Context → Option Context
  | [] => none
  | c :: rest => (outermost rest).or (if c.Open then some c else none)

/-- The outermost `preempt_disable` has completed, and its `preempt_enable` has not. -/
def Disabled (stack : List Context) : Prop := ∃ c, outermost stack = some c ∧ c.depth ≠ 0

/-- The context on top is in `acquire`, and there it stays in all that may follow. -/
def SpinsForever (s : Cpu) : Prop :=
  ∃ c rest, s.stack = c :: rest ∧ c.pc = .acquire ∧
    ∀ l, Trace.Run PreemptStep s l → ∀ t ∈ Trace.states s l, ∃ above, t.stack = above ++ c :: rest

/-- **Nesting is right**: the lock is held exactly inside the outermost pair, and nothing spins
forever. -/
def PreemptOk (s : Cpu) : Prop :=
  (s.percpu.preemptLock.Held ↔ Disabled s.stack) ∧ ¬ SpinsForever s

/-- `preempt_disable` reads zero only where no pair is under way: not in a handler that came between the
two steps of the outermost `preempt_enable`, and not after `2 ^ 32` others. -/
def Undisturbed (s : Cpu) (e : PreemptEvent) : Prop :=
  e = .disable → s.percpu.atomicPreemptCount = 0 → outermost s.stack = none

instance (s : Cpu) (e : PreemptEvent) : Decidable (Undisturbed s e) :=
  inferInstanceAs (Decidable (_ → _ → _))

section Step

variable {p : Percpu} {c : Context} {rest : List Context} {s' : Cpu} {e : PreemptEvent}

theorem contextStep_of_free (h : ¬ p.preemptLock.Held) : contextStep p c .acquire =
    some ({ p with preemptLock := p.preemptLock.exchange.2 }, ⟨c.depth + 1, .out⟩) := by
  rw [contextStep, if_neg (show ¬ p.preemptLock.exchange.1 ≠ 0 from h)]

theorem contextStep_of_held (h : p.preemptLock.Held) : contextStep p c .acquire =
    some ({ p with preemptLock := p.preemptLock.exchange.2 }, c) := by
  rw [contextStep, if_pos (show p.preemptLock.exchange.1 ≠ 0 from h)]

/-- What a step can do: every other lemma about a step is a case analysis by this one. -/
theorem preemptStep_cases (hstep : PreemptStep ⟨p, c :: rest⟩ e s') :
    (e = .disable ∧ c.pc = .out ∧ s' = ⟨p, ⟨c.depth, .inc p.atomicPreemptCount⟩ :: rest⟩) ∨
    (e = .enable ∧ c.pc = .out ∧ 0 < c.depth ∧
      s' = ⟨{ p with atomicPreemptCount := p.atomicPreemptCount - 1 },
        (if p.atomicPreemptCount - 1 = 0 then ⟨c.depth, .release⟩ else ⟨c.depth - 1, .out⟩) :: rest⟩) ∨
    (e = .step ∧ ∃ r, contextStep p c c.pc = some r ∧ s' = ⟨r.1, r.2 :: rest⟩) ∨
    (e = .interrupt ∧ s' = ⟨p, ⟨0, .out⟩ :: c :: rest⟩) ∨
    (e = .iret ∧ c = ⟨0, .out⟩ ∧ s' = ⟨p, rest⟩) := by
  rw [PreemptStep, preemptStep] at hstep
  dsimp only at hstep
  cases e with
  | disable =>
    dsimp only at hstep
    split at hstep
    · exact Or.inl ⟨rfl, ‹_›, (Option.some.inj hstep).symm⟩
    · exact absurd hstep.symm (Option.some_ne_none _)
  | enable =>
    dsimp only at hstep
    split at hstep
    · rename_i hc
      exact Or.inr (Or.inl ⟨rfl, hc.1, hc.2, (Option.some.inj hstep).symm⟩)
    · exact absurd hstep.symm (Option.some_ne_none _)
  | step =>
    obtain ⟨r, hr, rfl⟩ := Option.map_eq_some_iff.mp hstep
    exact Or.inr (Or.inr (Or.inl ⟨rfl, r, hr, rfl⟩))
  | interrupt => exact Or.inr (Or.inr (Or.inr (Or.inl ⟨rfl, (Option.some.inj hstep).symm⟩)))
  | iret =>
    dsimp only at hstep
    split at hstep
    · rename_i hc
      exact Or.inr (Or.inr (Or.inr (Or.inr ⟨rfl, hc.1, (Option.some.inj hstep).symm⟩)))
    · exact absurd hstep.symm (Option.some_ne_none _)

end Step

/-! ### The counter -/

/-- What the context contributes to the counter. -/
def Context.opens (c : Context) : ℕ :=
  match c.pc with
  | .acquire => c.depth + 1
  | .release => c.depth - 1
  | .out | .inc _ => c.depth

/-- What the contexts of a stack contribute. -/
def opens : List Context → ℕ
  | [] => 0
  | c :: rest => c.opens + opens rest

/-- None of the pairs that a context is inside of, above `base` others, but the very first found the
counter at zero. -/
def Context.FoundNonzero (base : ℕ) (c : Context) : Prop :=
  ∀ n, base ≤ n → n < base + c.depth → n ≠ 0 → BitVec.ofNat 32 n ≠ 0

variable {base : ℕ} {c : Context} {s s' : Cpu} {e : PreemptEvent} {stack rest : List Context}

theorem Context.FoundNonzero.disable (h : c.FoundNonzero base) {d : ℕ} (hd : d = c.depth + 1)
    (pc : PreemptPc) (hzero : base + c.depth ≠ 0 → BitVec.ofNat 32 (base + c.depth) ≠ 0) :
    Context.FoundNonzero base ⟨d, pc⟩ := by
  intro n hn hlt hne
  subst hd
  dsimp only at hlt
  rcases Nat.lt_or_ge n (base + c.depth) with hold | hnew
  · exact h n hn hold hne
  · obtain rfl : n = base + c.depth := by omega
    exact hzero hne

theorem Context.FoundNonzero.anti (h : c.FoundNonzero base) {d : ℕ} (hd : d ≤ c.depth)
    (pc : PreemptPc) : Context.FoundNonzero base ⟨d, pc⟩ :=
  fun n hn hlt hne => h n hn (hlt.trans_le (Nat.add_le_add_left hd base)) hne

/-- The decrement gives zero in the very first pair alone. -/
theorem Context.FoundNonzero.enable (h : c.FoundNonzero base) (hd : 0 < c.depth)
    (hzero : BitVec.ofNat 32 (base + c.depth) - 1 = 0) : base = 0 ∧ c.depth = 1 := by
  have hsub : BitVec.ofNat 32 (base + c.depth) - 1 = BitVec.ofNat 32 (base + c.depth - 1) := by
    have hsucc : base + c.depth = base + c.depth - 1 + 1 := by omega
    rw [hsucc, BitVec.ofNat_add, Nat.add_sub_cancel]
    exact BitVec.add_sub_cancel _ _
  rw [hsub] at hzero
  by_contra hne
  exact h (base + c.depth - 1) (by omega) (by omega) (by omega) hzero

/-! ### The outermost pair -/

theorem outermost_cons_of_some {r : Context} (h : outermost rest = some r) :
    outermost (c :: rest) = some r := by
  rw [outermost, h, Option.some_or]

theorem outermost_cons_of_none (h : outermost rest = none) :
    outermost (c :: rest) = if c.Open then some c else none := by
  rw [outermost, h, Option.none_or]

theorem outermost_cons_eq_none :
    outermost (c :: rest) = none ↔ outermost rest = none ∧ ¬ c.Open := by
  cases h : outermost rest with
  | none => simp [outermost_cons_of_none h]
  | some r => simp [outermost_cons_of_some h]

theorem disabled_cons :
    Disabled (c :: rest) ↔ Disabled rest ∨ (outermost rest = none ∧ c.depth ≠ 0) := by
  rw [Disabled, Disabled]
  cases h : outermost rest with
  | none =>
    rw [outermost_cons_of_none h]
    by_cases hd : c.depth = 0
    · by_cases ho : c.Open <;> simp [ho, hd]
    · simp [show c.Open from Or.inl hd, hd]
  | some r => simp [outermost_cons_of_some h]

theorem not_disabled_of_outermost (h : outermost stack = none) : ¬ Disabled stack := by
  rintro ⟨c, hc, -⟩
  exact Option.some_ne_none c (hc.symm.trans h)

/-- The contexts of a stack fit together. -/
def Nested : List Context → Prop
  | [] => True
  | c :: rest => Nested rest ∧ c.FoundNonzero (opens rest) ∧
      ((∃ r ∈ rest, r.pc = .release) → c = ⟨0, .out⟩) ∧
      match c.pc with
      | .out => True
      | .inc origin => origin = BitVec.ofNat 32 (opens rest + c.depth) ∧
          (origin = 0 → outermost (c :: rest) = none)
      | .acquire => outermost rest = none ∧ c.depth = 0
      | .release => outermost rest = none ∧ c.depth = 1

/-- Where no context is inside of a pair, none contributes to the count. -/
theorem Nested.opens_eq_zero (h : Nested stack) (hnone : outermost stack = none) :
    opens stack = 0 := by
  induction stack with
  | nil => rfl
  | cons c rest ih =>
    obtain ⟨hrest, hopen⟩ := outermost_cons_eq_none.mp hnone
    obtain ⟨hn, -, -, hpc⟩ := h
    have hdepth : c.depth = 0 := by
      by_contra hd
      exact hopen (Or.inl hd)
    rw [opens, ih hn hrest, Context.opens]
    cases hc : c.pc with
    | out => exact hdepth
    | inc o => exact hdepth
    | acquire => exact absurd (Or.inr hc) hopen
    | release =>
      rw [hc] at hpc
      have := hpc.2
      omega

/-- In the gap of the outermost `preempt_enable` the counter is zero, but the pair is under way. -/
theorem Nested.of_release (h : Nested stack) (hr : ∃ r ∈ stack, r.pc = .release) :
    opens stack = 0 ∧ outermost stack ≠ none := by
  induction stack with
  | nil => simp at hr
  | cons c rest ih =>
    obtain ⟨hn, -, hquiet, hpc⟩ := h
    by_cases hrest : ∃ r ∈ rest, r.pc = .release
    · obtain ⟨hzero, hsome⟩ := ih hn hrest
      refine ⟨?_, fun hnone => hsome (outermost_cons_eq_none.mp hnone).1⟩
      rw [opens, hzero, hquiet hrest]
      rfl
    · have hc : c.pc = .release := by
        obtain ⟨r, hr, hrpc⟩ := hr
        rcases List.mem_cons.mp hr with rfl | hr
        · exact hrpc
        · exact absurd ⟨r, hr, hrpc⟩ hrest
      rw [hc] at hpc
      obtain ⟨hnone, hd⟩ := hpc
      constructor
      · rw [opens, hn.opens_eq_zero hnone, Context.opens, hc, hd]
      · intro hout
        exact (outermost_cons_eq_none.mp hout).2 (Or.inl (by omega))

/-- Where a context is inside of a pair the count is positive, but for the gap in which the lock is yet to
be released. -/
theorem Nested.opens_pos (h : Nested stack) (hsome : outermost stack ≠ none)
    (hr : ¬ ∃ r ∈ stack, r.pc = .release) : 0 < opens stack := by
  induction stack with
  | nil => exact absurd rfl hsome
  | cons c rest ih =>
    have hrest : ¬ ∃ r ∈ rest, r.pc = .release :=
      fun ⟨r, hm, hpc⟩ => hr ⟨r, List.mem_cons_of_mem _ hm, hpc⟩
    rw [opens]
    by_cases hout : outermost rest = none
    · have hopen : c.Open := by
        by_contra hclosed
        exact hsome (outermost_cons_eq_none.mpr ⟨hout, hclosed⟩)
      have hc : c.pc ≠ .release := fun hc => hr ⟨c, List.mem_cons_self, hc⟩
      have : 0 < c.opens := by
        rw [Context.opens]
        cases hpc : c.pc with
        | release => exact absurd hpc hc
        | acquire => exact Nat.succ_pos _
        | out => exact Nat.pos_of_ne_zero (hopen.resolve_right (by simp [hpc]))
        | inc o => exact Nat.pos_of_ne_zero (hopen.resolve_right (by simp [hpc]))
      omega
    · have := ih h.1 hout hrest
      omega

/-! ### Runs without disturbance -/

/-- **The invariant.** -/
structure PreemptInv (s : Cpu) : Prop where
  nested : Nested s.stack
  count : s.percpu.atomicPreemptCount = BitVec.ofNat 32 (opens s.stack)
  held : s.percpu.preemptLock.Held ↔ Disabled s.stack

theorem PreemptInv.start (id : ℕ) {block : Percpu} (hfree : block.preemptLock.lock = 0) :
    PreemptInv (preemptStart id block) where
  nested := by
    refine ⟨trivial, fun n _ hlt => ?_, fun _ => rfl, trivial⟩
    exact absurd hlt (by simp [opens])
  count := rfl
  held := by
    constructor
    · exact fun h => absurd hfree h
    · exact fun h => absurd h (not_disabled_of_outermost rfl)

section Steps

variable {p : Percpu}

/-- Where `preempt_enable` is between its two steps, a handler above it does nothing. -/
theorem PreemptInv.not_release (h : PreemptInv ⟨p, c :: rest⟩) (hc : c ≠ ⟨0, .out⟩) :
    ¬ ∃ r ∈ rest, r.pc = .release := fun hr => hc (h.nested.2.2.1 hr)

theorem PreemptInv.disable (h : PreemptInv ⟨p, c :: rest⟩) (hc : c.pc = .out)
    (hok : p.atomicPreemptCount = 0 → outermost (c :: rest) = none) :
    PreemptInv ⟨p, ⟨c.depth, .inc p.atomicPreemptCount⟩ :: rest⟩ := by
  have hnested := h.nested
  obtain ⟨⟨hn, hfound, -, -⟩, hcount, hheld⟩ := h
  have hopens : opens (c :: rest) = opens rest + c.depth := by
    rw [opens, Context.opens, hc, Nat.add_comm]
  have hopen : Context.Open ⟨c.depth, .inc p.atomicPreemptCount⟩ ↔ c.Open := by
    simp [Context.Open, hc]
  refine ⟨⟨hn, hfound.anti le_rfl _, fun ⟨r, hr, hpc⟩ => ?_, ?_, fun hzero => ?_⟩, ?_, ?_⟩
  · -- such a handler would find the counter at zero
    obtain ⟨hzero, hsome⟩ := hnested.of_release ⟨r, List.mem_cons_of_mem _ hr, hpc⟩
    dsimp only at hcount
    rw [hzero] at hcount
    exact absurd (hok hcount) hsome
  · rw [← hopens]
    exact hcount
  · rw [outermost_cons_eq_none, hopen, ← outermost_cons_eq_none]
    exact hok hzero
  · dsimp only
    rw [hcount, opens, opens, Context.opens, Context.opens, hc]
  · dsimp only
    rw [disabled_cons, ← disabled_cons (c := c)]
    exact hheld

theorem PreemptInv.inc (h : PreemptInv ⟨p, c :: rest⟩) {origin : BitVec 32}
    (hc : c.pc = .inc origin) :
    PreemptInv ⟨{ p with atomicPreemptCount := p.atomicPreemptCount + 1 },
      (if origin ≠ 0 then ⟨c.depth + 1, .out⟩ else ⟨c.depth, .acquire⟩) :: rest⟩ := by
  have hquiet := h.not_release fun hq => by rw [hq] at hc; exact PreemptPc.noConfusion hc
  obtain ⟨⟨hn, hfound, -, hpc⟩, hcount, hheld⟩ := h
  rw [hc] at hpc
  obtain ⟨horigin, hzero⟩ := hpc
  have hopens : opens (c :: rest) = opens rest + c.depth := by
    rw [opens, Context.opens, hc, Nat.add_comm]
  have hsucc : p.atomicPreemptCount + 1 = BitVec.ofNat 32 (opens rest + c.depth + 1) := by
    rw [BitVec.ofNat_add, ← hopens, ← hcount]
    rfl
  by_cases ho : origin = 0
  · -- the outermost pair of all
    obtain ⟨hnone, hclosed⟩ := outermost_cons_eq_none.mp (hzero ho)
    have hd : c.depth = 0 := by
      by_contra hd
      exact hclosed (Or.inl hd)
    rw [if_neg (by simpa using ho), hd]
    refine ⟨⟨hn, hfound.anti (Nat.zero_le _) _, fun hr => absurd hr hquiet, hnone, rfl⟩, ?_, ?_⟩
    · dsimp only
      rw [hsucc, opens, Context.opens, hd, Nat.add_comm (opens rest), Nat.add_right_comm]
    · dsimp only at hheld ⊢
      rw [hheld, disabled_cons, disabled_cons, hd]
  · rw [if_pos ho]
    have hne : BitVec.ofNat 32 (opens rest + c.depth) ≠ 0 := horigin ▸ ho
    refine ⟨⟨hn, hfound.disable rfl _ fun _ => hne, fun hr => absurd hr hquiet, trivial⟩, ?_, ?_⟩
    · dsimp only
      rw [hsucc, opens, Context.opens, Nat.add_assoc, Nat.add_comm (opens rest)]
    · dsimp only at hheld ⊢
      rw [hheld, disabled_cons, disabled_cons]
      refine or_congr_right (and_congr_right fun hnone => ?_)
      have hd : c.depth ≠ 0 := by
        intro hd
        rw [hn.opens_eq_zero hnone, hd] at hne
        exact hne rfl
      simp [hd]

theorem PreemptInv.acquire (h : PreemptInv ⟨p, c :: rest⟩) (hc : c.pc = .acquire) :
    ¬ p.preemptLock.Held ∧
      PreemptInv ⟨{ p with preemptLock := p.preemptLock.exchange.2 }, ⟨c.depth + 1, .out⟩ :: rest⟩ := by
  have hquiet := h.not_release fun hq => by rw [hq] at hc; exact PreemptPc.noConfusion hc
  obtain ⟨⟨hn, hfound, -, hpc⟩, hcount, hheld⟩ := h
  rw [hc] at hpc
  obtain ⟨hnone, hd⟩ := hpc
  have hzero := hn.opens_eq_zero hnone
  constructor
  · dsimp only at hheld
    rw [hheld, disabled_cons]
    rintro (hrest | ⟨-, hne⟩)
    · exact not_disabled_of_outermost hnone hrest
    · exact hne hd
  · refine ⟨⟨hn, hfound.disable rfl _ fun hne => ?_, fun hr => absurd hr hquiet, trivial⟩, ?_, ?_⟩
    · exact absurd (by rw [hzero, hd]) hne
    · dsimp only at hcount ⊢
      rw [hcount, opens, opens, Context.opens, Context.opens, hc]
    · refine iff_of_true (Spinlock.held_exchange p.preemptLock) (disabled_cons.mpr (Or.inr ⟨hnone, ?_⟩))
      exact Nat.succ_ne_zero _

theorem PreemptInv.enable (h : PreemptInv ⟨p, c :: rest⟩) (hc : c.pc = .out) (hd : 0 < c.depth) :
    PreemptInv ⟨{ p with atomicPreemptCount := p.atomicPreemptCount - 1 },
      (if p.atomicPreemptCount - 1 = 0 then ⟨c.depth, .release⟩ else ⟨c.depth - 1, .out⟩) :: rest⟩ := by
  have hquiet := h.not_release fun hq => by rw [hq] at hd; exact Nat.lt_irrefl 0 hd
  obtain ⟨⟨hn, hfound, -, -⟩, hcount, hheld⟩ := h
  have hopens : opens (c :: rest) = opens rest + c.depth := by
    rw [opens, Context.opens, hc, Nat.add_comm]
  dsimp only at hcount hheld
  rw [hopens] at hcount
  have hpred : p.atomicPreemptCount - 1 = BitVec.ofNat 32 (opens rest + (c.depth - 1)) := by
    have hsucc : opens rest + c.depth = opens rest + (c.depth - 1) + 1 := by omega
    rw [hcount, hsucc, BitVec.ofNat_add]
    exact BitVec.add_sub_cancel _ _
  split
  · rename_i hzero
    rw [hcount] at hzero
    obtain ⟨hbase, hone⟩ := hfound.enable hd hzero
    have hnone : outermost rest = none := by
      by_contra hsome
      have := hn.opens_pos hsome hquiet
      omega
    refine ⟨⟨hn, hfound.anti le_rfl _, fun hr => absurd hr hquiet, hnone, hone⟩, ?_, ?_⟩
    · dsimp only
      rw [hpred, opens, Context.opens, Nat.add_comm]
    · dsimp only
      rw [hheld, disabled_cons, disabled_cons]
  · rename_i hzero
    refine ⟨⟨hn, hfound.anti (Nat.sub_le _ _) _, fun hr => absurd hr hquiet, trivial⟩, ?_, ?_⟩
    · dsimp only
      rw [hpred, opens, Context.opens, Nat.add_comm]
    · dsimp only
      rw [hheld, disabled_cons, disabled_cons]
      refine or_congr_right (and_congr_right fun hnone => ?_)
      have hne : c.depth - 1 ≠ 0 := by
        intro hd1
        rw [hpred, hn.opens_eq_zero hnone, hd1] at hzero
        exact hzero rfl
      exact iff_of_true (by omega) hne

theorem PreemptInv.release (h : PreemptInv ⟨p, c :: rest⟩) (hc : c.pc = .release) :
    PreemptInv ⟨{ p with preemptLock := p.preemptLock.release }, ⟨c.depth - 1, .out⟩ :: rest⟩ := by
  have hquiet := h.not_release fun hq => by rw [hq] at hc; exact PreemptPc.noConfusion hc
  obtain ⟨⟨hn, hfound, -, hpc⟩, hcount, hheld⟩ := h
  rw [hc] at hpc
  obtain ⟨hnone, hd⟩ := hpc
  refine ⟨⟨hn, hfound.anti (Nat.sub_le _ _) _, fun hr => absurd hr hquiet, trivial⟩, ?_, ?_⟩
  · dsimp only at hcount ⊢
    rw [hcount, opens, opens, Context.opens, Context.opens, hc]
  · refine iff_of_false (Spinlock.not_held_release p.preemptLock) ?_
    rw [disabled_cons, hd]
    rintro (hrest | ⟨-, hne⟩)
    · exact not_disabled_of_outermost hnone hrest
    · exact hne rfl

theorem PreemptInv.interrupt (h : PreemptInv ⟨p, c :: rest⟩) :
    PreemptInv ⟨p, ⟨0, .out⟩ :: c :: rest⟩ := by
  obtain ⟨hn, hcount, hheld⟩ := h
  refine ⟨⟨hn, fun n hle hlt => ?_, fun _ => rfl, trivial⟩, ?_, ?_⟩
  · exact absurd hlt (by simpa using hle)
  · dsimp only at hcount ⊢
    rw [hcount, opens.eq_2 ⟨0, .out⟩, Context.opens, Nat.zero_add]
  · dsimp only at hheld ⊢
    rw [hheld, disabled_cons (c := ⟨0, .out⟩)]
    simp

theorem PreemptInv.iret (h : PreemptInv ⟨p, ⟨0, .out⟩ :: rest⟩) : PreemptInv ⟨p, rest⟩ := by
  obtain ⟨⟨hn, -, -, -⟩, hcount, hheld⟩ := h
  refine ⟨hn, ?_, ?_⟩
  · dsimp only at hcount ⊢
    rw [hcount, opens, Context.opens, Nat.zero_add]
  · dsimp only at hheld ⊢
    rw [hheld, disabled_cons]
    simp

end Steps

/-- **One step keeps the invariant**, as long as `preempt_disable` reads zero only where no pair is under
way. -/
theorem PreemptInv.step (h : PreemptInv s) (hok : Undisturbed s e) (hstep : PreemptStep s e s') :
    PreemptInv s' := by
  obtain ⟨p, stack⟩ := s
  cases stack with
  | nil => exact absurd hstep.symm (Option.some_ne_none _)
  | cons c rest =>
    obtain ⟨rfl, hc, rfl⟩ | ⟨rfl, hc, hd, rfl⟩ | ⟨rfl, r, hr, rfl⟩ | ⟨rfl, rfl⟩ | ⟨rfl, rfl, rfl⟩ :=
      preemptStep_cases hstep
    · exact h.disable hc (hok rfl)
    · exact h.enable hc hd
    · cases hc : c.pc with
      | out =>
        rw [hc] at hr
        exact absurd hr.symm (Option.some_ne_none _)
      | inc origin =>
        rw [hc] at hr
        obtain rfl := Option.some.inj hr
        exact h.inc hc
      | acquire =>
        obtain ⟨hfree, hnext⟩ := h.acquire hc
        rw [hc, contextStep_of_free hfree] at hr
        obtain rfl := Option.some.inj hr
        exact hnext
      | release =>
        rw [hc] at hr
        obtain rfl := Option.some.inj hr
        exact h.release hc
    · exact h.interrupt
    · exact h.iret

/-- A context that is about to take the lock takes it in its next step: it finds it free. -/
theorem PreemptInv.not_spinsForever (h : PreemptInv s) : ¬ SpinsForever s := by
  rintro ⟨c, rest, hstack, hc, hspin⟩
  obtain ⟨p, stack⟩ := s
  obtain rfl : stack = c :: rest := hstack
  have hfree := (h.acquire hc).1
  have hstep : PreemptStep ⟨p, c :: rest⟩ .step
      ⟨{ p with preemptLock := p.preemptLock.exchange.2 }, ⟨c.depth + 1, .out⟩ :: rest⟩ := by
    rw [PreemptStep, preemptStep]
    dsimp only
    rw [hc, contextStep_of_free hfree]
    rfl
  obtain ⟨above, habove⟩ := hspin _ (.cons hstep (.nil _)) _
    (Trace.mem_states_cons.mpr (Or.inr (Trace.self_mem_states _ _)))
  have hlen := congrArg List.length habove
  simp only [List.length_append, List.length_cons] at hlen
  obtain rfl : above = [] := List.length_eq_zero_iff.mp (by omega)
  rw [List.nil_append, List.cons.injEq] at habove
  rw [← habove.1] at hc
  exact PreemptPc.noConfusion hc

/-- **Nesting is right in every run whose steps are all `Undisturbed`**, if `kmalloc` finds the block where
the word of the lock is zero. -/
theorem preemptOk_of_undisturbed {id : ℕ} {block : Percpu} (hfree : block.preemptLock.lock = 0)
    {l : List (PreemptEvent × Cpu)} (hrun : Trace.Run PreemptStep (preemptStart id block) l)
    (hok : Trace.StepsOk Undisturbed (preemptStart id block) l) :
    ∀ t ∈ Trace.states (preemptStart id block) l, PreemptOk t := by
  intro t ht
  have hinv : PreemptInv t :=
    Trace.invariant (fun hI hok hstep => hI.step hok hstep) hrun (.start id hfree) hok t ht
  exact ⟨hinv.held, hinv.not_spinsForever⟩

/-! ### A context that finds the lock taken -/

/-- The contexts above one that spins: none of them is between the two steps of `preempt_enable`, and
none gets there. -/
def NeverReleases (base : ℕ) : List Context → Prop
  | [] => True
  | c :: rest => NeverReleases base rest ∧ c.FoundNonzero (base + opens rest) ∧
      match c.pc with
      | .out | .acquire => True
      | .inc origin => origin = BitVec.ofNat 32 (base + opens rest + c.depth)
      | .release => False

/-- What holds while `below` spins. -/
structure SpinInv (base : ℕ) (below : List Context) (s : Cpu) : Prop where
  stack : ∃ above, s.stack = above ++ below ∧ NeverReleases base above ∧
    s.percpu.atomicPreemptCount = BitVec.ofNat 32 (base + opens above)
  held : s.percpu.preemptLock.Held

/-- The step of a context above the one that spins. -/
theorem SpinInv.step_above {p : Percpu} {above below : List Context} (hbase : 0 < base)
    (hb : NeverReleases base (c :: above))
    (hcount : p.atomicPreemptCount = BitVec.ofNat 32 (base + opens (c :: above)))
    (hheld : p.preemptLock.Held) (hstep : PreemptStep ⟨p, c :: above ++ below⟩ e s') :
    SpinInv base below s' := by
  obtain ⟨hn, hfound, hpc⟩ := hb
  rw [List.cons_append] at hstep
  obtain ⟨rfl, hc, rfl⟩ | ⟨rfl, hc, hd, rfl⟩ | ⟨rfl, r, hr, rfl⟩ | ⟨rfl, rfl⟩ | ⟨rfl, rfl, rfl⟩ :=
    preemptStep_cases hstep
  · have hopens : opens (⟨c.depth, .inc p.atomicPreemptCount⟩ :: above) = opens (c :: above) := by
      rw [opens, opens, Context.opens, Context.opens, hc]
    have horigin : p.atomicPreemptCount = BitVec.ofNat 32 (base + opens above + c.depth) := by
      rw [hcount, opens, Context.opens, hc, Nat.add_comm c.depth, Nat.add_assoc]
    refine ⟨⟨⟨c.depth, .inc p.atomicPreemptCount⟩ :: above, rfl,
      ⟨hn, hfound.anti le_rfl _, horigin⟩, ?_⟩, hheld⟩
    rw [hopens]
    exact hcount
  · -- the decrement does not give zero
    have hopens : base + opens (c :: above) = base + opens above + c.depth := by
      rw [opens, Context.opens, hc, Nat.add_comm c.depth, Nat.add_assoc]
    rw [hopens] at hcount
    have hne : p.atomicPreemptCount - 1 ≠ 0 := by
      intro hzero
      rw [hcount] at hzero
      have := (hfound.enable hd hzero).1
      omega
    rw [if_neg hne]
    refine ⟨⟨⟨c.depth - 1, .out⟩ :: above, rfl, ⟨hn, hfound.anti (Nat.sub_le _ _) _, trivial⟩, ?_⟩,
      hheld⟩
    have hsucc : base + opens above + c.depth = base + (c.depth - 1 + opens above) + 1 := by omega
    dsimp only
    rw [hcount, hsucc, BitVec.ofNat_add, opens, Context.opens]
    exact BitVec.add_sub_cancel _ _
  · cases hc : c.pc with
    | out =>
      rw [hc] at hr
      exact absurd hr.symm (Option.some_ne_none _)
    | inc origin =>
      rw [hc] at hr hpc
      obtain rfl := Option.some.inj hr
      have hsucc : p.atomicPreemptCount + 1 = BitVec.ofNat 32 (base + (c.depth + 1 + opens above)) := by
        rw [hcount, opens, Context.opens, hc,
          show base + (c.depth + 1 + opens above) = base + (c.depth + opens above) + 1 by omega,
          BitVec.ofNat_add _ 1]
        rfl
      by_cases ho : origin = 0
      · rw [if_neg (by simpa using ho)]
        exact ⟨⟨⟨c.depth, .acquire⟩ :: above, rfl, ⟨hn, hfound.anti le_rfl _, trivial⟩, hsucc⟩, hheld⟩
      · rw [if_pos ho]
        have hne := hpc ▸ ho
        exact ⟨⟨⟨c.depth + 1, .out⟩ :: above, rfl, ⟨hn, hfound.disable rfl _ fun _ => hne, trivial⟩,
          hsucc⟩, hheld⟩
    | acquire =>
      rw [hc, contextStep_of_held hheld] at hr
      obtain rfl := Option.some.inj hr
      exact ⟨⟨c :: above, rfl, ⟨hn, hfound, hpc⟩, hcount⟩, Spinlock.held_exchange p.preemptLock⟩
    | release =>
      rw [hc] at hpc
      exact hpc.elim
  · refine ⟨⟨⟨0, .out⟩ :: c :: above, rfl, ⟨⟨hn, hfound, hpc⟩, ?_, trivial⟩, ?_⟩, hheld⟩
    · exact fun n hle hlt => absurd hlt (by simpa using hle)
    · rw [opens.eq_2 ⟨0, .out⟩, Context.opens, Nat.zero_add]
      exact hcount
  · refine ⟨⟨above, rfl, hn, ?_⟩, hheld⟩
    rwa [opens, Context.opens, Nat.zero_add] at hcount

theorem SpinInv.step {below : List Context} (hbase : 0 < base) (hc : c.pc = .acquire)
    (h : SpinInv base (c :: below) s) (hstep : PreemptStep s e s') : SpinInv base (c :: below) s' := by
  obtain ⟨p, stack⟩ := s
  obtain ⟨⟨above, hstack, hb, hcount⟩, hheld⟩ := h
  dsimp only at hstack hcount hheld
  subst hstack
  cases above with
  | cons a above => exact step_above hbase hb hcount hheld hstep
  | nil =>
    rw [List.nil_append] at hstep
    obtain ⟨-, hout, -⟩ | ⟨-, hout, -⟩ | ⟨rfl, r, hr, rfl⟩ | ⟨rfl, rfl⟩ | ⟨-, rfl, -⟩ :=
      preemptStep_cases hstep
    · exact absurd (hc.symm.trans hout) PreemptPc.noConfusion
    · exact absurd (hc.symm.trans hout) PreemptPc.noConfusion
    · -- one more round of the loop
      rw [hc, contextStep_of_held hheld] at hr
      obtain rfl := Option.some.inj hr
      exact ⟨⟨[], rfl, trivial, hcount⟩, Spinlock.held_exchange p.preemptLock⟩
    · refine ⟨⟨[⟨0, .out⟩], rfl, ⟨trivial, ?_, trivial⟩, hcount⟩, hheld⟩
      exact fun n hle hlt => absurd hlt (by simpa using hle)
    · exact absurd hc PreemptPc.noConfusion

/-- **A context that finds the lock taken never gets it.** -/
theorem spinsForever_of_held (hstack : s.stack = c :: rest) (hc : c.pc = .acquire)
    (hheld : s.percpu.preemptLock.Held) : SpinsForever s := by
  refine ⟨c, rest, hstack, hc, fun l hrun t ht => ?_⟩
  have hcount : s.percpu.atomicPreemptCount
      = BitVec.ofNat 32 (s.percpu.atomicPreemptCount.toNat + 2 ^ 32 + opens []) := by
    rw [opens, Nat.add_zero, BitVec.ofNat_add, BitVec.ofNat_toNat, BitVec.setWidth_eq]
    exact (BitVec.add_zero _).symm
  have hinv : SpinInv (s.percpu.atomicPreemptCount.toNat + 2 ^ 32) (c :: rest) s :=
    ⟨⟨[], hstack, trivial, hcount⟩, hheld⟩
  obtain ⟨above, habove, -, -⟩ :=
    (Trace.always (fun hI hstep => hI.step (by omega) hc hstep) hrun hinv t ht).stack
  exact ⟨above, habove⟩

/-! ### Two runs -/

/-- A handler in the gap of `preempt_disable`. -/
def nestedEvents : List PreemptEvent :=
  [.disable, .step, .interrupt, .disable, .step, .enable, .iret, .step, .enable, .step]

/-- A handler in the gap of `preempt_enable`. -/
def gapEvents : List PreemptEvent :=
  [.disable, .step, .step, .enable, .interrupt, .disable, .step]

theorem preemptOk_of_undisturbed_nestedEvents :
    ∃ l, Trace.Run PreemptStep (preemptStart 1 ⟨0, ⟨0⟩, 7⟩) l ∧ l.map Prod.fst = nestedEvents ∧
      ∀ t ∈ Trace.states (preemptStart 1 ⟨0, ⟨0⟩, 7⟩) l, PreemptOk t := by
  have hexec : (Trace.exec preemptStep (preemptStart 1 ⟨0, ⟨0⟩, 7⟩) nestedEvents).any fun l =>
      decide (l.map Prod.fst = nestedEvents) &&
        decide (Trace.StepsOk Undisturbed (preemptStart 1 ⟨0, ⟨0⟩, 7⟩) l) := by
    decide +kernel
  obtain ⟨l, hl, hok⟩ := (Option.any_eq_true _ _).mp hexec
  rw [Bool.and_eq_true, decide_eq_true_eq, decide_eq_true_eq] at hok
  have hrun : Trace.Run PreemptStep (preemptStart 1 ⟨0, ⟨0⟩, 7⟩) l := Trace.run_of_exec hl
  exact ⟨l, hrun, hok.1, preemptOk_of_undisturbed rfl hrun hok.2⟩

/-- **A handler in the gap of `preempt_enable` spins forever**, even where the lock is free to begin
with. -/
theorem not_preemptOk_gapEvents :
    ¬ ∀ (id : ℕ) (block : Percpu) (l : List (PreemptEvent × Cpu)),
      Trace.Run PreemptStep (preemptStart id block) l →
        ∀ t ∈ Trace.states (preemptStart id block) l, PreemptOk t := by
  intro hall
  have hexec : (Trace.exec preemptStep (preemptStart 1 ⟨0, ⟨0⟩, 7⟩) gapEvents).any fun l =>
      (Trace.states (preemptStart 1 ⟨0, ⟨0⟩, 7⟩) l).any fun t =>
        decide (t.percpu.preemptLock.Held ∧ t.stack = [⟨0, .acquire⟩, ⟨1, .release⟩]) := by
    decide +kernel
  obtain ⟨l, hl, hany⟩ := (Option.any_eq_true _ _).mp hexec
  obtain ⟨t, ht, hspin⟩ := List.any_eq_true.mp hany
  obtain ⟨hheld, hstack⟩ := of_decide_eq_true hspin
  exact (hall 1 _ l (Trace.run_of_exec hl) t ht).2 (spinsForever_of_held hstack rfl hheld)

end GeekToyOS
