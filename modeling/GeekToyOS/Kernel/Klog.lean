import GeekToyOS.Data.Trace
import GeekToyOS.Kernel.Clock
import GeekToyOS.Kernel.Spinlock
import GeekToyOS.Lib.Time

/-!
# Logging under interrupts

One processor that logs and prints: `_klog` of `src/kernel/main.c` (behind `info`, `klog`, `warning` and
`error`), `vcprintf` and `vkprintf` of `src/kernel/console.c` (behind `cprintf` and `kprintf`), with the
interrupts of the clock and of the local timer, whose handlers `clock_handler` and `sched_handler` log
themselves.

The processor has a stack of activations. The lowest one is the interrupted code, which calls what it
likes with interrupts enabled; handlers run with interrupts disabled. Characters are left out: a call of
`vprintfmt` passes any number of them to `putch`. While it draws one, `screen_put_pixel` may raise an
error.

## Main definitions

* `logStep` — one step of the processor
* `SpinsOnOwn` — `acquire` finds a lock taken that an activation below holds
* `Calm` — no handler logs while a lock is held, and drawing raises no error

## Main results

* `not_spinsOnOwn_of_calm` — there is no self-deadlock in a run whose steps are all `Calm`
* `spinsOnOwn_tickEvents` — there is one when the clock logs inside of `klog`
-/

namespace GeekToyOS

inductive LogLevel
  | info
  | debug
  | warning
  | error
deriving DecidableEq, Repr

/-- The two locks: `klog_lock` and `console_lock`. -/
inductive LogLock
  | klog
  | console
deriving DecidableEq, Repr

/-- Where `_klog` is. -/
inductive KlogPc
  | acquire
  /-- `if(level != LOG_INFO) kprintf("%s:%d:", file, line)` -/
  | place
  /-- `vcprintf(fmt, ap)` or `vkprintf(fmt, ap)` -/
  | message
  | release
deriving DecidableEq, Repr

/-- Where `vcprintf` or `vkprintf` is. -/
inductive PrintPc
  | acquire
  /-- in `vprintfmt` -/
  | put
  | release
deriving DecidableEq, Repr

/-- What `vprintfmt` is called with. -/
inductive Putch
  | cputch
  | kputch
deriving DecidableEq, Repr

/-- The two handlers, and what follows their logging. -/
inductive Handler
  | clock
  | sched
  | done
deriving DecidableEq, Repr

/-- An activation. -/
inductive LogFrame
  /-- the code that is interrupted, outside of all of this -/
  | task
  | klog (level : LogLevel) (pc : KlogPc)
  | print (putch : Putch) (pc : PrintPc)
  | handler (h : Handler)
deriving DecidableEq, Repr

/-- The processor, with the activation that runs on top of the stack. -/
structure LogCpu where
  locks : LogLock → Spinlock
  ticks : ℕ
  currentTimestamp : ℕ
  stack : List LogFrame

inductive LogEvent
  /-- the code calls `info`, `klog`, `warning` or `error` -/
  | log (level : LogLevel)
  /-- the code calls `cprintf` or `kprintf` -/
  | printf (putch : Putch)
  /-- the next step of the activation on top -/
  | step
  /-- `vprintfmt` comes to the end of the format -/
  | finish
  /-- `screen_put_pixel` calls `error` -/
  | drawError
  | clockInterrupt
  | timerInterrupt
deriving DecidableEq, Repr

/-- The local variables of `clock_handler`; `localtime` sets all that is read. -/
def tmUnset : Tm := ⟨0, 0, 0, 0, 0, 0, 0, 0, 0⟩

/-- `tm_time.tm_sec % 5 == 0` -/
def logsSecond (timestamp : ℕ) : Bool := (localtime timestamp tmUnset).any fun tm => tm.tmSec % 5 = 0

/-- The handler is about to log: the clock when its tick ends a second, and every fifth one at that; the
local timer while the clock stands at a full second. -/
def Handler.logs (s : LogCpu) : Handler → Bool
  | .clock => (s.ticks + 1) % 2 ^ 64 % hz = 0 ∧ logsSecond ((s.currentTimestamp + 1) % 2 ^ 32)
  | .sched => s.ticks % hz = 0
  | .done => false

/-- One round of the loop of `acquire`: `f` waits, and `f'` follows. -/
def acquireStep (s : LogCpu) (lock : LogLock) (f f' : LogFrame) (rest : List LogFrame) : LogCpu :=
  { s with
    locks := Function.update s.locks lock (s.locks lock).exchange.2
    stack := (if (s.locks lock).exchange.1 ≠ 0 then f else f') :: rest }

/-- `release` -/
def releaseStep (s : LogCpu) (lock : LogLock) (rest : List LogFrame) : LogCpu :=
  { s with
    locks := Function.update s.locks lock (s.locks lock).release
    stack := rest }

/-- The step of the activation `f` on top of `rest`. -/
def frameStep (s : LogCpu) (rest : List LogFrame) (f : LogFrame) : Option LogCpu :=
  match f with
  | .task => none
  | .klog level .acquire => some (acquireStep s .klog f (.klog level .place) rest)
  | .klog level .place =>
    some { s with
      stack := if level ≠ .info then .print .kputch .acquire :: .klog level .message :: rest
        else .klog level .message :: rest }
  | .klog level .message =>
    some { s with
      stack := .print (if level = .info then .cputch else .kputch) .acquire ::
        .klog level .release :: rest }
  | .klog _ .release => some (releaseStep s .klog rest)
  | .print putch .acquire => some (acquireStep s .console f (.print putch .put) rest)
  -- one more character
  | .print _ .put => some s
  | .print _ .release => some (releaseStep s .console rest)
  | .handler .clock =>
    let ticks := (s.ticks + 1) % 2 ^ 64
    some { s with
      ticks := ticks
      currentTimestamp :=
        if ticks % hz = 0 then (s.currentTimestamp + 1) % 2 ^ 32 else s.currentTimestamp
      stack := if Handler.logs s .clock then .klog .info .acquire :: .handler .done :: rest
        else .handler .done :: rest }
  | .handler .sched =>
    some { s with
      stack := if Handler.logs s .sched then .klog .info .acquire :: .handler .done :: rest
        else .handler .done :: rest }
  | .handler .done => some { s with stack := rest }

/-- A handler runs, so interrupts are disabled. -/
def InHandler (stack : List LogFrame) : Prop := ∃ h, LogFrame.handler h ∈ stack

instance (stack : List LogFrame) : Decidable (InHandler stack) :=
  decidable_of_iff (∃ f ∈ stack, ∃ h ∈ [Handler.clock, .sched, .done], f = .handler h) <| by
    constructor
    · rintro ⟨f, hf, h, -, rfl⟩
      exact ⟨h, hf⟩
    · rintro ⟨h, hf⟩
      exact ⟨_, hf, h, by cases h <;> decide, rfl⟩

/-- One step of the processor. -/
def logStep (s : LogCpu) (e : LogEvent) : Option LogCpu :=
  match s.stack with
  | [] => none
  | f :: rest =>
    match e with
    | .log level =>
      if f = .task then some { s with stack := .klog level .acquire :: f :: rest } else none
    | .printf putch =>
      if f = .task then some { s with stack := .print putch .acquire :: f :: rest } else none
    | .step => frameStep s rest f
    | .finish =>
      match f with
      | .print putch .put => some { s with stack := .print putch .release :: rest }
      | _ => none
    | .drawError =>
      if f = .print .cputch .put then some { s with stack := .klog .error .acquire :: f :: rest }
      else none
    | .clockInterrupt =>
      if InHandler (f :: rest) then none else some { s with stack := .handler .clock :: f :: rest }
    | .timerInterrupt =>
      if InHandler (f :: rest) then none else some { s with stack := .handler .sched :: f :: rest }

def LogStep (s : LogCpu) (e : LogEvent) (s' : LogCpu) : Prop := logStep s e = some s'

/-- The processor outside of all of this, with the locks free. -/
def logStart (ticks currentTimestamp : ℕ) : LogCpu := ⟨fun _ => ⟨0⟩, ticks, currentTimestamp, [.task]⟩

/-! ### What is to hold -/

/-- The lock that an activation is about to acquire. -/
def LogFrame.acquires : LogFrame → Option LogLock
  | .klog _ .acquire => some .klog
  | .print _ .acquire => some .console
  | _ => none

/-- The lock that an activation has acquired and not released. -/
def LogFrame.holds : LogFrame → Option LogLock
  | .klog _ .place | .klog _ .message | .klog _ .release => some .klog
  | .print _ .put | .print _ .release => some .console
  | _ => none

/-- **The processor spins on a lock of its own**: it finds the lock taken, by an activation that it will
not get back to. -/
def SpinsOnOwn (s : LogCpu) : Prop :=
  ∃ f rest lock, s.stack = f :: rest ∧ f.acquires = some lock ∧ (s.locks lock).Held ∧
    ∃ g ∈ rest, g.holds = some lock

/-- The next step is that of a handler, and it logs. -/
def LogCpu.aboutToLog (s : LogCpu) : Bool :=
  match s.stack with
  | .handler h :: _ => h.logs s
  | _ => false

/-- The processor holds no lock. -/
def LogCpu.Unlocked (s : LogCpu) : Prop := ¬ (s.locks .klog).Held ∧ ¬ (s.locks .console).Held

instance (s : LogCpu) : Decidable s.Unlocked := inferInstanceAs (Decidable (_ ∧ _))

theorem LogCpu.Unlocked.not_held {s : LogCpu} (h : s.Unlocked) (lock : LogLock) :
    ¬ (s.locks lock).Held := by
  cases lock with
  | klog => exact h.1
  | console => exact h.2

/-- No handler logs while a lock is held, and drawing raises no error. -/
def Calm (s : LogCpu) (e : LogEvent) : Prop :=
  e ≠ .drawError ∧ (e = .step → s.aboutToLog = true → s.Unlocked)

instance (s : LogCpu) (e : LogEvent) : Decidable (Calm s e) :=
  inferInstanceAs (Decidable (_ ∧ (_ → _ → _)))

/-! ### The invariant -/

/-- An activation of the stack holds the lock. -/
def Holds (lock : LogLock) (stack : List LogFrame) : Prop := ∃ f ∈ stack, f.holds = some lock

/-- The locks that an activation takes before it returns, itself or through what it calls. -/
def LogFrame.Needs (lock : LogLock) : LogFrame → Prop
  | .klog _ _ => True
  | .print _ _ => lock = .console
  | .task | .handler _ => False

variable {lock : LogLock} {f f' : LogFrame} {s s' : LogCpu} {e : LogEvent}
  {stack rest : List LogFrame}

theorem holds_cons : Holds lock (f :: rest) ↔ f.holds = some lock ∨ Holds lock rest := by
  simp [Holds]

theorem LogFrame.Needs.of_holds (h : f.holds = some lock) : f.Needs lock := by
  cases f with
  | task => exact absurd h.symm (Option.some_ne_none _)
  | handler _ => exact absurd h.symm (Option.some_ne_none _)
  | klog level pc => trivial
  | print putch pc =>
    cases pc with
    | acquire => exact absurd h.symm (Option.some_ne_none _)
    | put => exact (Option.some.inj h).symm
    | release => exact (Option.some.inj h).symm

theorem LogFrame.holds_of_acquires (h : f.acquires = some lock) : f.holds = none := by
  cases f with
  | task => rfl
  | handler _ => rfl
  | klog level pc =>
    cases pc with
    | acquire => rfl
    | place => exact absurd h.symm (Option.some_ne_none _)
    | message => exact absurd h.symm (Option.some_ne_none _)
    | release => exact absurd h.symm (Option.some_ne_none _)
  | print putch pc =>
    cases pc with
    | acquire => rfl
    | put => exact absurd h.symm (Option.some_ne_none _)
    | release => exact absurd h.symm (Option.some_ne_none _)

theorem LogFrame.Needs.of_acquires (h : f.acquires = some lock) : f.Needs lock := by
  cases f with
  | task => exact absurd h.symm (Option.some_ne_none _)
  | handler _ => exact absurd h.symm (Option.some_ne_none _)
  | klog level pc => trivial
  | print putch pc =>
    cases pc with
    | acquire => exact (Option.some.inj h).symm
    | put => exact absurd h.symm (Option.some_ne_none _)
    | release => exact absurd h.symm (Option.some_ne_none _)

/-- No activation needs a lock that one below it holds, and the interrupted code is at the bottom. -/
def Orderly : List LogFrame → Prop
  | [] => True
  | f :: rest => Orderly rest ∧ (f = .task → rest = []) ∧
      ∀ lock, f.Needs lock → ¬ Holds lock rest

/-- **The invariant.** -/
structure LogInv (s : LogCpu) : Prop where
  orderly : Orderly s.stack
  held : ∀ lock, (s.locks lock).Held ↔ Holds lock s.stack

theorem LogInv.start (ticks currentTimestamp : ℕ) : LogInv (logStart ticks currentTimestamp) where
  orderly := ⟨trivial, fun _ => rfl, fun _ h => h.elim⟩
  held := by
    intro lock
    refine iff_of_false (fun h => h rfl) ?_
    rw [logStart, holds_cons]
    rintro (h | ⟨g, hg, -⟩)
    · exact absurd h.symm (Option.some_ne_none _)
    · exact absurd hg List.not_mem_nil

/-- An activation that calls another one keeps the invariant, if nothing that is held is needed there. -/
theorem LogInv.call (h : LogInv s) (hstack : s.stack = f :: rest) (hf' : f'.holds = none)
    (hkeep : s'.locks = s.locks) {g : LogFrame} (hstack' : s'.stack = f' :: g :: rest)
    (hg : g.holds = f.holds) (htask : g = .task → f = .task) (htask' : f' ≠ .task)
    (hneeds : ∀ lock, g.Needs lock → f.Needs lock)
    (hfree : ∀ lock, f'.Needs lock → ¬ Holds lock (f :: rest)) : LogInv s' := by
  obtain ⟨hord, hheld⟩ := h
  rw [hstack] at hord hheld
  have hsame : ∀ lock, Holds lock (g :: rest) ↔ Holds lock (f :: rest) := fun lock => by
    rw [holds_cons, holds_cons, hg]
  refine ⟨?_, fun lock => ?_⟩
  · rw [hstack']
    refine ⟨⟨hord.1, fun ht => hord.2.1 (htask ht), fun lock hn => hord.2.2 lock (hneeds lock hn)⟩,
      fun ht => absurd ht htask', fun lock hn => ?_⟩
    rw [hsame]
    exact hfree lock hn
  · rw [hkeep, hheld, hstack', holds_cons (f := f'), hsame, hf']
    simp

/-- An activation that goes on, with the locks as they are. -/
theorem LogInv.goto (h : LogInv s) (hstack : s.stack = f :: rest) (hkeep : s'.locks = s.locks)
    (hstack' : s'.stack = f' :: rest) (hholds : f'.holds = f.holds) (htask : f' ≠ .task)
    (hneeds : ∀ lock, f'.Needs lock → f.Needs lock) : LogInv s' := by
  obtain ⟨hord, hheld⟩ := h
  rw [hstack] at hord hheld
  refine ⟨?_, fun lock => ?_⟩
  · rw [hstack']
    exact ⟨hord.1, fun ht => absurd ht htask, fun lock hn => hord.2.2 lock (hneeds lock hn)⟩
  · rw [hkeep, hheld, hstack', holds_cons, holds_cons, hholds]

/-- The lock that an activation is about to acquire is free. -/
theorem LogInv.not_held (h : LogInv s) (hstack : s.stack = f :: rest) (hf : f.acquires = some lock) :
    ¬ (s.locks lock).Held := by
  rw [h.held, hstack, holds_cons, LogFrame.holds_of_acquires hf]
  rintro (hself | hrest)
  · exact absurd hself.symm (Option.some_ne_none _)
  · have hord := h.orderly
    rw [hstack] at hord
    exact hord.2.2 lock (.of_acquires hf) hrest

theorem LogInv.acquire (h : LogInv s) (hstack : s.stack = f :: rest) (hf : f.acquires = some lock)
    (hf' : f'.holds = some lock) (hneeds : ∀ lock, f'.Needs lock → f.Needs lock) :
    LogInv (acquireStep s lock f f' rest) := by
  have hfree := h.not_held hstack hf
  obtain ⟨hord, hheld⟩ := h
  rw [hstack] at hord hheld
  have hnone := LogFrame.holds_of_acquires hf
  rw [acquireStep, if_neg (show ¬ (s.locks lock).exchange.1 ≠ 0 from hfree)]
  refine ⟨⟨hord.1, fun ht => ?_, fun l hn => hord.2.2 l (hneeds l hn)⟩, fun l => ?_⟩
  · rw [ht] at hf'
    exact absurd hf'.symm (Option.some_ne_none _)
  · dsimp only
    by_cases hl : l = lock
    · subst hl
      rw [Function.update_self, holds_cons]
      exact iff_of_true (Spinlock.held_exchange (s.locks l)) (Or.inl hf')
    · rw [Function.update_of_ne hl, hheld, holds_cons, holds_cons, hf', hnone]
      simp [Ne.symm hl]

theorem LogInv.release (h : LogInv s) (hstack : s.stack = f :: rest) (hf : f.holds = some lock) :
    LogInv (releaseStep s lock rest) := by
  obtain ⟨hord, hheld⟩ := h
  rw [hstack] at hord hheld
  refine ⟨hord.1, fun l => ?_⟩
  rw [releaseStep]
  dsimp only
  by_cases hl : l = lock
  · subst hl
    rw [Function.update_self]
    exact iff_of_false (Spinlock.not_held_release (s.locks l)) (hord.2.2 l (.of_holds hf))
  · rw [Function.update_of_ne hl, hheld, holds_cons, hf]
    simp [Ne.symm hl]

/-- An activation that returns without a lock of its own. -/
theorem LogInv.ret (h : LogInv s) (hstack : s.stack = f :: rest) (hkeep : s'.locks = s.locks)
    (hstack' : s'.stack = rest) (hholds : f.holds = none) : LogInv s' := by
  obtain ⟨hord, hheld⟩ := h
  rw [hstack] at hord hheld
  refine ⟨hstack' ▸ hord.1, fun lock => ?_⟩
  rw [hkeep, hheld, hstack', holds_cons, hholds]
  simp

/-- Where the interrupted code runs, no lock is held. -/
theorem LogInv.task (h : LogInv s) (hstack : s.stack = .task :: rest) :
    ¬ Holds lock (.task :: rest) := by
  have hord := h.orderly
  rw [hstack] at hord
  rw [hord.2.1 rfl, holds_cons]
  rintro (hself | ⟨g, hg, -⟩)
  · exact absurd hself.symm (Option.some_ne_none _)
  · exact absurd hg List.not_mem_nil

/-- `_klog` may print: it does not hold what printing needs. -/
theorem LogInv.klog_console (h : LogInv s) {level : LogLevel} {pc pc' : KlogPc}
    (hstack : s.stack = .klog level pc :: rest) {putch : Putch} :
    ∀ lock, LogFrame.Needs lock (.print putch .acquire) → ¬ Holds lock (.klog level pc' :: rest) := by
  intro lock hn
  have hord := h.orderly
  rw [hstack] at hord
  rw [holds_cons]
  rintro (hself | hrest)
  · obtain rfl : lock = .console := hn
    cases pc' <;> simp [LogFrame.holds] at hself
  · exact hord.2.2 lock trivial hrest

/-- What happens below a handler that has done its work. -/
theorem LogInv.handler (h : LogInv s) {k : Handler} (hstack : s.stack = .handler k :: rest)
    (hkeep : s'.locks = s.locks) (hok : Calm s .step)
    (hstack' : s'.stack = if k.logs s then .klog .info .acquire :: .handler .done :: rest
      else .handler .done :: rest) : LogInv s' := by
  split at hstack'
  · rename_i hlogs
    have habout : s.aboutToLog = true := by
      rw [LogCpu.aboutToLog, hstack]
      exact hlogs
    refine h.call hstack rfl hkeep hstack' rfl (fun ht => LogFrame.noConfusion ht)
      LogFrame.noConfusion (fun _ hn => hn) fun lock _ => ?_
    rw [← hstack, ← h.held]
    exact (hok.2 rfl habout).not_held lock
  · exact h.goto hstack hkeep hstack' rfl LogFrame.noConfusion fun _ hn => hn

theorem LogInv.frameStep (h : LogInv s) (hstack : s.stack = f :: rest) (hok : Calm s .step)
    (hstep : frameStep s rest f = some s') : LogInv s' := by
  rw [GeekToyOS.frameStep.eq_def] at hstep
  split at hstep
  · exact absurd hstep.symm (Option.some_ne_none _)
  · obtain rfl := Option.some.inj hstep
    exact h.acquire hstack rfl rfl fun _ hn => hn
  · rename_i level
    obtain rfl := Option.some.inj hstep
    by_cases hlevel : level ≠ .info
    · rw [if_pos hlevel]
      exact h.call hstack rfl rfl rfl rfl (fun ht => LogFrame.noConfusion ht) LogFrame.noConfusion
        (fun _ hn => hn) (h.klog_console hstack)
    · rw [if_neg hlevel]
      exact h.goto hstack rfl rfl rfl LogFrame.noConfusion fun _ hn => hn
  · obtain rfl := Option.some.inj hstep
    exact h.call hstack rfl rfl rfl rfl (fun ht => LogFrame.noConfusion ht) LogFrame.noConfusion
      (fun _ hn => hn) (h.klog_console hstack)
  · obtain rfl := Option.some.inj hstep
    exact h.release hstack rfl
  · obtain rfl := Option.some.inj hstep
    exact h.acquire hstack rfl rfl fun _ hn => hn
  · obtain rfl := Option.some.inj hstep
    exact h
  · obtain rfl := Option.some.inj hstep
    exact h.release hstack rfl
  · obtain rfl := Option.some.inj hstep
    exact h.handler hstack rfl hok rfl
  · obtain rfl := Option.some.inj hstep
    exact h.handler hstack rfl hok rfl
  · obtain rfl := Option.some.inj hstep
    exact h.ret hstack rfl rfl rfl

/-- **One step keeps the invariant**, if the handlers are calm. -/
theorem LogInv.step (h : LogInv s) (hok : Calm s e) (hstep : LogStep s e s') : LogInv s' := by
  rw [LogStep, logStep] at hstep
  cases hstack : s.stack with
  | nil =>
    rw [hstack] at hstep
    exact absurd hstep.symm (Option.some_ne_none _)
  | cons f rest =>
    rw [hstack] at hstep
    cases e with
    | log level =>
      dsimp only at hstep
      split at hstep
      · rename_i hf
        subst hf
        obtain rfl := Option.some.inj hstep
        exact h.call hstack rfl rfl rfl rfl id LogFrame.noConfusion (fun _ hn => hn)
          fun _ _ => h.task hstack
      · exact absurd hstep.symm (Option.some_ne_none _)
    | printf putch =>
      dsimp only at hstep
      split at hstep
      · rename_i hf
        subst hf
        obtain rfl := Option.some.inj hstep
        exact h.call hstack rfl rfl rfl rfl id LogFrame.noConfusion (fun _ hn => hn)
          fun _ _ => h.task hstack
      · exact absurd hstep.symm (Option.some_ne_none _)
    | step => exact h.frameStep hstack hok hstep
    | finish =>
      dsimp only at hstep
      split at hstep
      · obtain rfl := Option.some.inj hstep
        exact h.goto hstack rfl rfl rfl LogFrame.noConfusion fun _ hn => hn
      · exact absurd hstep.symm (Option.some_ne_none _)
    | drawError => exact absurd rfl hok.1
    | clockInterrupt =>
      dsimp only at hstep
      split at hstep
      · exact absurd hstep.symm (Option.some_ne_none _)
      · obtain rfl := Option.some.inj hstep
        exact h.call hstack rfl rfl rfl rfl id LogFrame.noConfusion (fun _ hn => hn)
          fun _ hn => hn.elim
    | timerInterrupt =>
      dsimp only at hstep
      split at hstep
      · exact absurd hstep.symm (Option.some_ne_none _)
      · obtain rfl := Option.some.inj hstep
        exact h.call hstack rfl rfl rfl rfl id LogFrame.noConfusion (fun _ hn => hn)
          fun _ hn => hn.elim

theorem LogInv.not_spinsOnOwn (h : LogInv s) : ¬ SpinsOnOwn s := by
  rintro ⟨f, rest, lock, hstack, hf, hheld, -⟩
  exact h.not_held hstack hf hheld

/-- **There is no self-deadlock in a run whose steps are all `Calm`**, whatever is called and whenever the
interrupts come. -/
theorem not_spinsOnOwn_of_calm {ticks currentTimestamp : ℕ} {l : List (LogEvent × LogCpu)}
    (hrun : Trace.Run LogStep (logStart ticks currentTimestamp) l)
    (hok : Trace.StepsOk Calm (logStart ticks currentTimestamp) l) :
    ∀ t ∈ Trace.states (logStart ticks currentTimestamp) l, ¬ SpinsOnOwn t := fun t ht =>
  LogInv.not_spinsOnOwn
    (Trace.invariant (fun hI hok hstep => hI.step hok hstep) hrun (.start _ _) hok t ht)

/-! ### Two runs -/

/-- `klog` prints while the clock ticks in silence; then the local timer logs. -/
def calmEvents : List LogEvent :=
  [.log .debug, .step, .clockInterrupt, .step, .step, .step, .step, .step, .finish, .step, .step,
    .step, .finish, .step, .step, .timerInterrupt, .step, .step]

/-- The clock ends a fifth second inside of `klog`. -/
def tickEvents : List LogEvent := [.log .debug, .step, .clockInterrupt, .step]

theorem not_spinsOnOwn_of_calm_calmEvents :
    ∃ l, Trace.Run LogStep (logStart 99 8) l ∧ l.map Prod.fst = calmEvents ∧
      ∀ t ∈ Trace.states (logStart 99 8) l, ¬ SpinsOnOwn t := by
  have hexec : (Trace.exec logStep (logStart 99 8) calmEvents).any fun l =>
      decide (l.map Prod.fst = calmEvents) && decide (Trace.StepsOk Calm (logStart 99 8) l) := by
    decide +kernel
  obtain ⟨l, hl, hok⟩ := (Option.any_eq_true _ _).mp hexec
  rw [Bool.and_eq_true, decide_eq_true_eq, decide_eq_true_eq] at hok
  have hrun : Trace.Run LogStep (logStart 99 8) l := Trace.run_of_exec hl
  exact ⟨l, hrun, hok.1, not_spinsOnOwn_of_calm hrun hok.2⟩

/-- **`info` of the clock waits for the `klog` that it interrupted.** -/
theorem spinsOnOwn_tickEvents :
    ¬ ∀ (ticks currentTimestamp : ℕ) (l : List (LogEvent × LogCpu)),
      Trace.Run LogStep (logStart ticks currentTimestamp) l →
        ∀ t ∈ Trace.states (logStart ticks currentTimestamp) l, ¬ SpinsOnOwn t := by
  intro hall
  have hexec : (Trace.exec logStep (logStart 99 4) tickEvents).any fun l =>
      (Trace.states (logStart 99 4) l).any fun t =>
        decide ((t.locks .klog).Held ∧
          t.stack = [.klog .info .acquire, .handler .done, .klog .debug .place, .task]) := by
    decide +kernel
  obtain ⟨l, hl, hany⟩ := (Option.any_eq_true _ _).mp hexec
  obtain ⟨t, ht, hspin⟩ := List.any_eq_true.mp hany
  obtain ⟨hheld, hstack⟩ := of_decide_eq_true hspin
  refine hall 99 4 l (Trace.run_of_exec hl) t ht ⟨_, _, .klog, hstack, rfl, hheld, ?_⟩
  exact ⟨.klog .debug .place, by simp, rfl⟩

end GeekToyOS
