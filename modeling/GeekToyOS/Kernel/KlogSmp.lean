import GeekToyOS.Data.Sections
import GeekToyOS.Kernel.Klog
import GeekToyOS.Lib.Printfmt

/-!
# Logging on many processors

`_klog` and `_panic` of `src/kernel/main.c`, `vcprintf` and `vkprintf` of `src/kernel/console.c`, on any
number of processors that run them at the same time and are interrupted in the middle of them. The
processors share the two locks, and their steps come in any order.

`console_lock` is for the characters of one call, `klog_lock` for the calls of one record. So the output is
made of sections twice over: the characters in sections that are calls, and the calls that `_klog` makes in
sections that are records. Code that calls `cprintf` or `kprintf` by itself takes `console_lock` only, and
gets between the calls of a record.

## Main definitions

* `SmpLog` — the locks, the stacks of the processors, and what they have put out
* `SmpLog.step` — one step of one processor

## Main results

* `SmpLogInv.step` — both kinds of sections stay in order
* `prints_contiguous` — the characters of a call come one after the other
* `records_contiguous` — so do the calls of a record, among those of records
* `panic_silences` — after `_panic` has the lock no record begins, on any processor
-/

namespace GeekToyOS

/-- A call of `vcprintf` or `vkprintf`. `logged` tells whether it comes from `_klog` or `_panic`. -/
structure Print where
  putch : Putch
  fmt : List Char
  ap : List ℕ
  logged : Bool
deriving DecidableEq, Repr

/-- The arguments of `_klog` and `_panic`; the second one has no level. -/
structure LogRecord where
  file : ℕ
  line : ℕ
  level : LogLevel
  fmt : List Char
  ap : List ℕ
deriving DecidableEq, Repr

/-- Where `_panic` is. -/
inductive PanicPc
  | acquire
  /-- `interrupt_disable()` -/
  | disable
  /-- `cprintf("%s:%d:", file, line)` -/
  | place
  /-- `vcprintf(fmt, ap)` -/
  | message
  | halt
deriving DecidableEq, Repr

/-- Where `vcprintf` or `vkprintf` is, with the characters that `vprintfmt` has still to put out. -/
inductive PutPc
  | acquire
  | put (rest : List Char)
  | release
deriving DecidableEq, Repr

/-- An activation. -/
inductive SmpFrame
  /-- the code that is interrupted, outside of all of this -/
  | task
  /-- a handler, outside of all of this -/
  | handler
  | klog (r : LogRecord) (pc : KlogPc)
  | panic (r : LogRecord) (pc : PanicPc)
  | print (p : Print) (pc : PutPc)
deriving DecidableEq, Repr

/-- A processor. -/
structure SmpCpu where
  stack : List SmpFrame
  interrupts : Bool

/-- What `klog_lock` is taken for. -/
inductive Logged
  | klog (r : LogRecord)
  | panic (r : LogRecord)
deriving DecidableEq, Repr

/-- The machine. The last two keep account of the run: the calls that have taken `console_lock`, and what
`klog_lock` has been taken for. -/
structure SmpLog (ι : Type*) where
  locks : LogLock → Spinlock
  cpus : ι → SmpCpu
  out : List (Putch × Char)
  begun : List Print
  records : List Logged

inductive SmpLogEvent
  /-- the code calls `info`, `klog`, `warning` or `error` -/
  | log (r : LogRecord)
  /-- the code calls `panic` -/
  | panic (r : LogRecord)
  /-- the code calls `cprintf` or `kprintf` -/
  | printf (putch : Putch) (fmt : List Char) (ap : List ℕ)
  /-- `interrupt_enable` or `interrupt_disable` -/
  | setInterrupts (b : Bool)
  /-- the next step of the activation on top -/
  | step
  /-- `screen_put_pixel` calls `error` -/
  | drawError (r : LogRecord)
  | interrupt
  | iret
deriving DecidableEq, Repr

/-! ### What is printed -/

/-- `"%s:%d:"` -/
def placeFormat : List Char := ['%', 's', ':', '%', 'd', ':']

/-- `kprintf("%s:%d:", file, line)` of `_klog`, unless the level is `LOG_INFO`. -/
def LogRecord.klogPlace (r : LogRecord) : Option Print :=
  if r.level ≠ .info then some ⟨.kputch, placeFormat, [r.file, r.line], true⟩ else none

/-- `vcprintf(fmt, ap)` or `vkprintf(fmt, ap)` of `_klog`. -/
def LogRecord.klogMessage (r : LogRecord) : Print :=
  ⟨if r.level = .info then .cputch else .kputch, r.fmt, r.ap, true⟩

/-- `cprintf("%s:%d:", file, line)` of `_panic`. -/
def LogRecord.panicPlace (r : LogRecord) : Print := ⟨.cputch, placeFormat, [r.file, r.line], true⟩

/-- `vcprintf(fmt, ap)` of `_panic`. -/
def LogRecord.panicMessage (r : LogRecord) : Print := ⟨.cputch, r.fmt, r.ap, true⟩

/-- The calls of one `_klog`. -/
def LogRecord.klogPrints (r : LogRecord) : List Print := r.klogPlace.toList ++ [r.klogMessage]

/-- The calls of one `_panic`. -/
def LogRecord.panicPrints (r : LogRecord) : List Print := [r.panicPlace, r.panicMessage]

def Logged.prints : Logged → List Print
  | .klog r => r.klogPrints
  | .panic r => r.panicPrints

section Machine

variable {ι : Type*} [DecidableEq ι] (str : ℕ → List Char) (errorString : List ℕ)

/-- What `vprintfmt` passes to `putch`. -/
def Print.text (p : Print) : Option (List Char) := vprintfmt str errorString p.fmt p.ap

/-- The characters of a call, with where they go. -/
def Print.chars (p : Print) : List (Putch × Char) := ((p.text str errorString).getD []).map (p.putch, ·)

/-! ### Steps -/

/-- The stack of one processor changes. -/
def SmpLog.setStack (s : SmpLog ι) (i : ι) (stack : List SmpFrame) : SmpLog ι :=
  { s with cpus := Function.update s.cpus i { s.cpus i with stack := stack } }

/-- `interrupt_enable` and `interrupt_disable`. -/
def SmpLog.setInterrupts (s : SmpLog ι) (i : ι) (b : Bool) : SmpLog ι :=
  { s with cpus := Function.update s.cpus i { s.cpus i with interrupts := b } }

/-- The lock after `atomic_exchange(&lock->lock, 1)`. -/
def SmpLog.lock (s : SmpLog ι) (lock : LogLock) : SmpLog ι :=
  { s with locks := Function.update s.locks lock (s.locks lock).exchange.2 }

/-- `release` -/
def SmpLog.unlock (s : SmpLog ι) (lock : LogLock) : SmpLog ι :=
  { s with locks := Function.update s.locks lock (s.locks lock).release }

/-- One round of the loop of `acquire(&klog_lock)`. -/
def SmpLog.acquireKlog (s : SmpLog ι) (i : ι) (r : Logged) (stack stack' : List SmpFrame) : SmpLog ι :=
  if (s.locks .klog).exchange.1 ≠ 0 then (s.lock .klog).setStack i stack
  else { (s.lock .klog).setStack i stack' with records := s.records ++ [r] }

/-- One round of the loop of `acquire(&console_lock)`. -/
def SmpLog.acquireConsole (s : SmpLog ι) (i : ι) (p : Print) (stack stack' : List SmpFrame) : SmpLog ι :=
  if (s.locks .console).exchange.1 ≠ 0 then (s.lock .console).setStack i stack
  else { (s.lock .console).setStack i stack' with begun := s.begun ++ [p] }

/-- The step of the activation `f` on top of `rest`. -/
def SmpLog.frameStep (s : SmpLog ι) (i : ι) (rest : List SmpFrame) (f : SmpFrame) : Option (SmpLog ι) :=
  match f with
  | .task | .handler => none
  | .klog r .acquire => some (s.acquireKlog i (.klog r) (f :: rest) (.klog r .place :: rest))
  | .klog r .place =>
    some <| s.setStack i <|
      match r.klogPlace with
      | some p => .print p .acquire :: .klog r .message :: rest
      | none => .klog r .message :: rest
  | .klog r .message => some (s.setStack i (.print r.klogMessage .acquire :: .klog r .release :: rest))
  | .klog _ .release => some ((s.unlock .klog).setStack i rest)
  | .panic r .acquire => some (s.acquireKlog i (.panic r) (f :: rest) (.panic r .disable :: rest))
  | .panic r .disable => some ((s.setInterrupts i false).setStack i (.panic r .place :: rest))
  | .panic r .place => some (s.setStack i (.print r.panicPlace .acquire :: .panic r .message :: rest))
  | .panic r .message => some (s.setStack i (.print r.panicMessage .acquire :: .panic r .halt :: rest))
  | .panic _ .halt => none
  | .print p .acquire =>
    (p.text str errorString).map fun text => s.acquireConsole i p (f :: rest) (.print p (.put text) :: rest)
  | .print p (.put (ch :: text)) =>
    some { s.setStack i (.print p (.put text) :: rest) with out := s.out ++ [(p.putch, ch)] }
  | .print p (.put []) => some (s.setStack i (.print p .release :: rest))
  | .print _ .release => some ((s.unlock .console).setStack i rest)

/-- The code calls what it likes. -/
def SmpFrame.calls : SmpFrame → Bool
  | .task | .handler => true
  | _ => false

/-- One step of processor `i`. -/
def SmpLog.step (s : SmpLog ι) (e : ι × SmpLogEvent) : Option (SmpLog ι) :=
  let i := e.1
  match (s.cpus i).stack with
  | [] => none
  | f :: rest =>
    match e.2 with
    | .log r => if f.calls then some (s.setStack i (.klog r .acquire :: f :: rest)) else none
    | .panic r => if f.calls then some (s.setStack i (.panic r .acquire :: f :: rest)) else none
    | .printf putch fmt ap =>
      if f.calls then some (s.setStack i (.print ⟨putch, fmt, ap, false⟩ .acquire :: f :: rest)) else none
    | .setInterrupts b => if f = .task then some (s.setInterrupts i b) else none
    | .step => s.frameStep str errorString i rest f
    | .drawError r =>
      match f with
      | .print p (.put _) =>
        if p.putch = .cputch ∧ r.level = .error then
          some (s.setStack i (.klog r .acquire :: f :: rest))
        else none
      | _ => none
    | .interrupt =>
      if (s.cpus i).interrupts = true then
        some ((s.setInterrupts i false).setStack i (.handler :: f :: rest))
      else none
    | .iret => if f = .handler then some ((s.setInterrupts i true).setStack i rest) else none

/-- Every processor is in its own code, and the locks are free. -/
def SmpLog.start (interrupts : ι → Bool) : SmpLog ι :=
  ⟨fun _ => ⟨0⟩, fun i => ⟨[.task], interrupts i⟩, [], [], []⟩

/-! ### The two kinds of sections -/

/-- The lock that an activation has acquired and not released. -/
def SmpFrame.holds : SmpFrame → Option LogLock
  | .task | .handler | .klog _ .acquire | .panic _ .acquire | .print _ .acquire => none
  | .klog _ _ | .panic _ _ => some .klog
  | .print _ _ => some .console

/-- The characters that an activation has still to put out. -/
def SmpFrame.charsLeft : SmpFrame → List (Putch × Char)
  | .print p (.put text) => text.map (p.putch, ·)
  | _ => []

/-- The calls of a record that an activation has still to make, or that it is and has yet to begin. -/
def SmpFrame.printsLeft : SmpFrame → List Print
  | .klog r .place => r.klogPrints
  | .klog r .message => [r.klogMessage]
  | .panic r .disable | .panic r .place => r.panicPrints
  | .panic r .message => [r.panicMessage]
  | .print p .acquire => if p.logged then [p] else []
  | _ => []

/-- The number of activations that hold the lock. -/
def holdCount (lock : LogLock) (stack : List SmpFrame) : ℕ := stack.countP fun f => f.holds = some lock

def charsLeft (stack : List SmpFrame) : List (Putch × Char) := stack.flatMap SmpFrame.charsLeft

def printsLeft (stack : List SmpFrame) : List Print := stack.flatMap SmpFrame.printsLeft

/-- The call comes from `_klog` or `_panic`. -/
def SmpFrame.logged : SmpFrame → Bool
  | .print p _ => p.logged
  | _ => false

/-- What `_klog` and `_panic` call is right above them on the stack. -/
def CallsNested : List SmpFrame → Prop
  | [] => True
  | f :: rest => CallsNested rest ∧ (f.logged = true → ∃ g rest', rest = g :: rest' ∧ g.holds = some .klog)

variable {str errorString}

/-- **The invariant.** -/
structure SmpLogInv (str : ℕ → List Char) (errorString : List ℕ) (s : SmpLog ι) : Prop where
  nested : ∀ i, CallsNested (s.cpus i).stack
  console : Sections.Orderly (s.locks .console).Held (fun i => holdCount .console (s.cpus i).stack)
    (fun i => charsLeft (s.cpus i).stack) (s.begun.map (Print.chars str errorString)) s.out
  klog : Sections.Orderly (s.locks .klog).Held (fun i => holdCount .klog (s.cpus i).stack)
    (fun i => printsLeft (s.cpus i).stack) (s.records.map Logged.prints) (s.begun.filter (·.logged))

variable {s s' : SmpLog ι} {i j : ι} {f f' : SmpFrame} {rest stack stack' : List SmpFrame} {lock : LogLock}

theorem holdCount_cons (lock : LogLock) (f : SmpFrame) (rest : List SmpFrame) :
    holdCount lock (f :: rest) = holdCount lock rest + if f.holds = some lock then 1 else 0 := by
  rw [holdCount, List.countP_cons]
  simp only [decide_eq_true_eq]
  rfl

theorem charsLeft_cons (f : SmpFrame) (rest : List SmpFrame) :
    charsLeft (f :: rest) = f.charsLeft ++ charsLeft rest := List.flatMap_cons

theorem printsLeft_cons (f : SmpFrame) (rest : List SmpFrame) :
    printsLeft (f :: rest) = f.printsLeft ++ printsLeft rest := List.flatMap_cons

theorem SmpFrame.printsLeft_eq_nil (hf : f.holds ≠ some .klog) (hlogged : f.logged = false) :
    f.printsLeft = [] := by
  cases f with
  | task => rfl
  | handler => rfl
  | klog r pc => cases pc <;> first | rfl | exact absurd rfl hf
  | panic r pc => cases pc <;> first | rfl | exact absurd rfl hf
  | print p pc =>
    cases pc with
    | acquire => exact if_neg (by rw [show p.logged = false from hlogged]; exact Bool.false_ne_true)
    | put text => rfl
    | release => rfl

/-- Without `klog_lock` nothing is left of a record. -/
theorem CallsNested.printsLeft_eq_nil (h : CallsNested stack) (h0 : holdCount .klog stack = 0) :
    printsLeft stack = [] := by
  induction stack with
  | nil => rfl
  | cons f rest ih =>
    obtain ⟨hrest, hcall⟩ := h
    rw [holdCount_cons] at h0
    have hf : f.holds ≠ some .klog := fun heq => by rw [if_pos heq] at h0; omega
    have hlogged : f.logged = false := by
      by_contra hne
      obtain ⟨g, rest', rfl, hg⟩ := hcall (Bool.eq_true_of_not_eq_false hne)
      rw [holdCount_cons, if_pos hg] at h0
      omega
    rw [printsLeft_cons, SmpFrame.printsLeft_eq_nil hf hlogged, ih hrest (by omega), List.append_nil]

theorem SmpFrame.charsLeft_eq_nil (hf : f.holds ≠ some .console) : f.charsLeft = [] := by
  cases f with
  | print p pc =>
    cases pc with
    | acquire => rfl
    | put text => exact absurd rfl hf
    | release => rfl
  | _ => rfl

/-- Outside of `console_lock` no character is left. -/
theorem charsLeft_eq_nil (h0 : holdCount .console stack = 0) : charsLeft stack = [] := by
  induction stack with
  | nil => rfl
  | cons f rest ih =>
    rw [holdCount_cons] at h0
    have hf : f.holds ≠ some .console := fun heq => by rw [if_pos heq] at h0; omega
    rw [charsLeft_cons, SmpFrame.charsLeft_eq_nil hf, ih (by omega), List.append_nil]

/-! ### Steps of the invariant -/

/-- The stack of processor `i` becomes `stack'`, and those of the others stay. -/
structure SmpLog.Moves (s : SmpLog ι) (i : ι) (stack' : List SmpFrame) (s' : SmpLog ι) : Prop where
  self : (s'.cpus i).stack = stack'
  other : ∀ j ≠ i, (s'.cpus j).stack = (s.cpus j).stack

theorem SmpLog.moves_setStack (s : SmpLog ι) (i : ι) (stack' : List SmpFrame) :
    s.Moves i stack' (s.setStack i stack') where
  self := congrArg SmpCpu.stack (Function.update_self i _ s.cpus)
  other := fun _ hj => congrArg SmpCpu.stack (Function.update_of_ne hj _ s.cpus)

theorem SmpLog.moves_interrupts (s : SmpLog ι) (i : ι) (b : Bool) :
    s.Moves i (s.cpus i).stack (s.setInterrupts i b) where
  self := by
    change (Function.update s.cpus i { s.cpus i with interrupts := b } i).stack = _
    rw [Function.update_self]
  other := fun _ hj => congrArg SmpCpu.stack (Function.update_of_ne hj _ s.cpus)

theorem SmpLog.moves_lock (s : SmpLog ι) (i : ι) (lock : LogLock) (stack' : List SmpFrame) :
    s.Moves i stack' ((s.lock lock).setStack i stack') :=
  ⟨((s.lock lock).moves_setStack i stack').self, ((s.lock lock).moves_setStack i stack').other⟩

theorem SmpLog.moves_unlock (s : SmpLog ι) (i : ι) (lock : LogLock) (stack' : List SmpFrame) :
    s.Moves i stack' ((s.unlock lock).setStack i stack') :=
  ⟨((s.unlock lock).moves_setStack i stack').self, ((s.unlock lock).moves_setStack i stack').other⟩

theorem SmpLog.moves_setInterrupts (s : SmpLog ι) (i : ι) (b : Bool) (stack' : List SmpFrame) :
    s.Moves i stack' ((s.setInterrupts i b).setStack i stack') where
  self := ((s.setInterrupts i b).moves_setStack i stack').self
  other := fun j hj => (((s.setInterrupts i b).moves_setStack i stack').other j hj).trans
    ((s.moves_interrupts i b).other j hj)

/-- The locks are taken or free as before, and nothing is put out or begun. -/
structure SmpLog.Quiet (s s' : SmpLog ι) : Prop where
  held : ∀ lock, (s'.locks lock).Held ↔ (s.locks lock).Held
  out : s'.out = s.out
  begun : s'.begun = s.begun
  records : s'.records = s.records

omit [DecidableEq ι] in
theorem SmpLog.Quiet.of_eq (hlocks : s'.locks = s.locks) (hout : s'.out = s.out)
    (hbegun : s'.begun = s.begun) (hrecords : s'.records = s.records) : s.Quiet s' :=
  ⟨fun lock => by rw [hlocks], hout, hbegun, hrecords⟩

section Kinds

variable (hm : s.Moves i stack' s') (hstack : (s.cpus i).stack = stack)
include hm

theorem SmpLog.Moves.nested (hnested : ∀ j, CallsNested (s.cpus j).stack) (hn : CallsNested stack') (j : ι) :
    CallsNested (s'.cpus j).stack := by
  by_cases hj : j = i
  · rw [hj, hm.self]
    exact hn
  · rw [hm.other j hj]
    exact hnested j

omit [DecidableEq ι] in
/-- What is measured of the stacks of the other processors stays. -/
theorem SmpLog.Moves.same {β : Type*} (g : List SmpFrame → β) :
    ∀ j ≠ i, g (s'.cpus j).stack = g (s.cpus j).stack := fun j hj => congrArg g (hm.other j hj)

omit [DecidableEq ι] in
theorem SmpLog.Moves.same_both {β γ : Type*} (g : List SmpFrame → β) (g' : List SmpFrame → γ) :
    ∀ j ≠ i, g (s'.cpus j).stack = g (s.cpus j).stack ∧ g' (s'.cpus j).stack = g' (s.cpus j).stack :=
  fun j hj => ⟨hm.same g j hj, hm.same g' j hj⟩

include hstack in
/-- What is the same for the old and the new stack of the processor is the same for all stacks. -/
theorem SmpLog.Moves.same_all {β : Type*} {g : List SmpFrame → β} (hg : g stack' = g stack) (j : ι) :
    g (s'.cpus j).stack = g (s.cpus j).stack := by
  by_cases hj : j = i
  · rw [hj, hm.self, hstack, hg]
  · exact hm.same g j hj

include hstack

/-- A step that takes no lock, releases none and puts nothing out. -/
theorem SmpLogInv.quiet (h : SmpLogInv str errorString s) (hq : s.Quiet s') (hn : CallsNested stack')
    (hcount : ∀ lock, holdCount lock stack' = holdCount lock stack)
    (hchars : charsLeft stack' = charsLeft stack) (hprints : printsLeft stack' = printsLeft stack) :
    SmpLogInv str errorString s' where
  nested := hm.nested h.nested hn
  console := by
    rw [hq.out, hq.begun]
    exact h.console.congr (hq.held .console) (hm.same_all hstack (hcount .console))
      (hm.same_all hstack hchars)
  klog := by
    rw [hq.records, hq.begun]
    exact h.klog.congr (hq.held .klog) (hm.same_all hstack (hcount .klog)) (hm.same_all hstack hprints)

/-- `klog_lock` is taken when it is free, and a record begins with all its calls to be made. -/
theorem SmpLogInv.enterKlog (h : SmpLogInv str errorString s) (hfree : ¬(s.locks .klog).Held)
    {r : Logged} (hheld : (s'.locks .klog).Held) (hconsole : s'.locks .console = s.locks .console)
    (hout : s'.out = s.out) (hbegun : s'.begun = s.begun) (hrecords : s'.records = s.records ++ [r])
    (hr : printsLeft stack' = r.prints)
    (hn : CallsNested stack') (hklog : holdCount .klog stack' = holdCount .klog stack + 1)
    (hcount : holdCount .console stack' = holdCount .console stack)
    (hchars : charsLeft stack' = charsLeft stack) : SmpLogInv str errorString s' where
  nested := hm.nested h.nested hn
  console := by
    rw [hout, hbegun, hconsole]
    exact h.console.congr Iff.rfl (hm.same_all hstack hcount) (hm.same_all hstack hchars)
  klog := by
    have henter : Sections.Orderly True (fun j => holdCount .klog (s'.cpus j).stack)
        (fun j => printsLeft (s'.cpus j).stack) _ _ :=
      h.klog.enter hfree (hm.same_both _ _) (by rw [hm.self, hstack, hklog])
    rw [hm.self, hr] at henter
    rw [hbegun, hrecords, List.map_append, List.map_singleton]
    exact henter.congr (iff_of_true hheld trivial) (fun _ => rfl) fun _ => rfl

/-- `klog_lock` is released when no call of the record is left. -/
theorem SmpLogInv.leaveKlog (h : SmpLogInv str errorString s) (hheld : ¬(s'.locks .klog).Held)
    (hconsole : s'.locks .console = s.locks .console) (hout : s'.out = s.out) (hbegun : s'.begun = s.begun)
    (hrecords : s'.records = s.records) (hn : CallsNested stack')
    (hklog : holdCount .klog stack = holdCount .klog stack' + 1)
    (hcount : holdCount .console stack' = holdCount .console stack)
    (hchars : charsLeft stack' = charsLeft stack) (hprints : printsLeft stack = printsLeft stack') :
    SmpLogInv str errorString s' where
  nested := hm.nested h.nested hn
  console := by
    rw [hout, hbegun, hconsole]
    exact h.console.congr Iff.rfl (hm.same_all hstack hcount) (hm.same_all hstack hchars)
  klog := by
    -- the lock was held once, so nothing below holds it, and nothing is left below
    have hone := (h.klog.eq_of_holds (i := i) (by rw [hstack, hklog]; exact Nat.succ_ne_zero _)).1
    rw [hstack, hklog] at hone
    have hnil := hn.printsLeft_eq_nil (by omega)
    have hleave : Sections.Orderly False (fun j => holdCount .klog (s'.cpus j).stack)
        (fun j => printsLeft (s'.cpus j).stack) _ _ :=
      h.klog.leave (hm.same_both _ _) (by rw [hm.self, hstack, hklog]) (by rw [hstack, hprints, hnil])
        (by rw [hm.self, hnil])
    rw [hbegun, hrecords]
    exact hleave.congr (iff_of_false hheld id) (fun _ => rfl) fun _ => rfl

/-- `console_lock` is taken for a call. When the call is one of a record, it begins with it. -/
theorem SmpLogInv.enterConsole (h : SmpLogInv str errorString s) {p : Print}
    (hfree : ¬(s.locks .console).Held) (hheld : (s'.locks .console).Held)
    (hlock : s'.locks .klog = s.locks .klog)
    (hout : s'.out = s.out) (hbegun : s'.begun = s.begun ++ [p]) (hrecords : s'.records = s.records)
    (hn : CallsNested stack') (hcount : holdCount .console stack' = holdCount .console stack + 1)
    (hklog : holdCount .klog stack' = holdCount .klog stack)
    (hchars : charsLeft stack' = p.chars str errorString)
    (hprints : printsLeft stack = (if p.logged then [p] else []) ++ printsLeft stack') :
    SmpLogInv str errorString s' where
  nested := hm.nested h.nested hn
  console := by
    have henter : Sections.Orderly True (fun j => holdCount .console (s'.cpus j).stack)
        (fun j => charsLeft (s'.cpus j).stack) _ _ :=
      h.console.enter hfree (hm.same_both _ _) (by rw [hm.self, hstack, hcount])
    rw [hm.self, hchars] at henter
    rw [hout, hbegun, List.map_append, List.map_singleton]
    exact henter.congr (iff_of_true hheld trivial) (fun _ => rfl) fun _ => rfl
  klog := by
    rw [hrecords, hbegun, hlock, List.filter_append]
    by_cases hp : p.logged = true
    · rw [List.filter_singleton, hp]
      exact h.klog.write (hm.same_both _ _) (by rw [hm.self, hstack, hklog])
        (by rw [hstack, hm.self, hprints, if_pos hp]; rfl)
    · rw [if_neg hp, List.nil_append] at hprints
      rw [List.filter_singleton, Bool.eq_false_of_not_eq_true hp]
      exact (List.append_nil _).symm ▸
        h.klog.congr Iff.rfl (hm.same_all hstack hklog) (hm.same_all hstack hprints.symm)

/-- The next character of the call that has `console_lock` is put out. -/
theorem SmpLogInv.put (h : SmpLogInv str errorString s) {c : Putch × Char} (hlocks : s'.locks = s.locks)
    (hout : s'.out = s.out ++ [c]) (hbegun : s'.begun = s.begun) (hrecords : s'.records = s.records)
    (hn : CallsNested stack') (hcount : ∀ lock, holdCount lock stack' = holdCount lock stack)
    (hchars : charsLeft stack = c :: charsLeft stack') (hprints : printsLeft stack' = printsLeft stack) :
    SmpLogInv str errorString s' where
  nested := hm.nested h.nested hn
  console := by
    rw [hout, hbegun, hlocks]
    exact h.console.write (hm.same_both _ _) (by rw [hm.self, hstack, hcount])
      (by rw [hstack, hm.self, hchars])
  klog := by
    rw [hrecords, hbegun, hlocks]
    exact h.klog.congr Iff.rfl (hm.same_all hstack (hcount .klog)) (hm.same_all hstack hprints)

/-- `console_lock` is released when no character of the call is left. -/
theorem SmpLogInv.leaveConsole (h : SmpLogInv str errorString s) (hheld : ¬(s'.locks .console).Held)
    (hlock : s'.locks .klog = s.locks .klog) (hout : s'.out = s.out) (hbegun : s'.begun = s.begun)
    (hrecords : s'.records = s.records) (hn : CallsNested stack')
    (hcount : holdCount .console stack = holdCount .console stack' + 1)
    (hklog : holdCount .klog stack' = holdCount .klog stack) (hchars : charsLeft stack = charsLeft stack')
    (hprints : printsLeft stack' = printsLeft stack) :
    SmpLogInv str errorString s' where
  nested := hm.nested h.nested hn
  console := by
    have hone := (h.console.eq_of_holds (i := i) (by rw [hstack, hcount]; exact Nat.succ_ne_zero _)).1
    rw [hstack, hcount] at hone
    have hnil : charsLeft stack' = [] := charsLeft_eq_nil (by omega)
    have hleave : Sections.Orderly False (fun j => holdCount .console (s'.cpus j).stack)
        (fun j => charsLeft (s'.cpus j).stack) _ _ :=
      h.console.leave (hm.same_both _ _) (by rw [hm.self, hstack, hcount]) (by rw [hstack, hchars, hnil])
        (by rw [hm.self, hnil])
    rw [hout, hbegun]
    exact hleave.congr (iff_of_false hheld id) (fun _ => rfl) fun _ => rfl
  klog := by
    rw [hrecords, hbegun, hlock]
    exact h.klog.congr Iff.rfl (hm.same_all hstack hklog) (hm.same_all hstack hprints)

end Kinds

theorem CallsNested.cons (hrest : CallsNested rest) (hlogged : f.logged = false) : CallsNested (f :: rest) :=
  ⟨hrest, fun h => absurd (hlogged.symm.trans h) Bool.false_ne_true⟩

theorem holdCount_cons_self (hf : f.holds = some lock) (rest : List SmpFrame) :
    holdCount lock (f :: rest) = holdCount lock rest + 1 := by
  rw [holdCount_cons, if_pos hf]

theorem holdCount_cons_of_ne (hf : f.holds ≠ some lock) (rest : List SmpFrame) :
    holdCount lock (f :: rest) = holdCount lock rest := by
  rw [holdCount_cons, if_neg hf, Nat.add_zero]

theorem holdCount_cons_of_none (hf : f.holds = none) (lock : LogLock) (rest : List SmpFrame) :
    holdCount lock (f :: rest) = holdCount lock rest := by
  rw [holdCount_cons, hf, if_neg (Option.some_ne_none _).symm, Nat.add_zero]

theorem charsLeft_cons_of_none (hf : f.holds ≠ some .console) (rest : List SmpFrame) :
    charsLeft (f :: rest) = charsLeft rest := by
  rw [charsLeft_cons, SmpFrame.charsLeft_eq_nil hf, List.nil_append]

theorem printsLeft_cons_of_none (hf : f.holds ≠ some .klog) (hlogged : f.logged = false)
    (rest : List SmpFrame) : printsLeft (f :: rest) = printsLeft rest := by
  rw [printsLeft_cons, SmpFrame.printsLeft_eq_nil hf hlogged, List.nil_append]

/-- A call is pushed onto a stack, and holds nothing yet. -/
theorem SmpLogInv.call (h : SmpLogInv str errorString s) (hm : s.Moves i (f' :: stack) s')
    (hstack : (s.cpus i).stack = stack) (hq : s.Quiet s') (hholds : f'.holds = none)
    (hlogged : f'.logged = false) : SmpLogInv str errorString s' := by
  have hnone : ∀ lock, f'.holds ≠ some lock := fun lock => by rw [hholds]; exact (Option.some_ne_none _).symm
  exact h.quiet hm hstack hq (.cons (hstack ▸ h.nested i) hlogged)
    (fun lock => holdCount_cons_of_none hholds lock stack) (charsLeft_cons_of_none (hnone _) stack)
    (printsLeft_cons_of_none (hnone _) hlogged stack)

omit [DecidableEq ι] in
@[simp] theorem SmpLog.lock_self (s : SmpLog ι) (lock : LogLock) : ((s.lock lock).locks lock).Held := by
  have hself : (s.lock lock).locks lock = (s.locks lock).exchange.2 := Function.update_self ..
  rw [hself]
  exact Spinlock.held_exchange _

omit [DecidableEq ι] in
@[simp] theorem SmpLog.lock_of_ne (s : SmpLog ι) {lock' : LogLock} (h : lock' ≠ lock) :
    (s.lock lock).locks lock' = s.locks lock' := Function.update_of_ne h ..

omit [DecidableEq ι] in
@[simp] theorem SmpLog.unlock_self (s : SmpLog ι) (lock : LogLock) : ¬((s.unlock lock).locks lock).Held := by
  have hself : (s.unlock lock).locks lock = (s.locks lock).release := Function.update_self ..
  rw [hself]
  exact Spinlock.not_held_release _

omit [DecidableEq ι] in
@[simp] theorem SmpLog.unlock_of_ne (s : SmpLog ι) {lock' : LogLock} (h : lock' ≠ lock) :
    (s.unlock lock).locks lock' = s.locks lock' := Function.update_of_ne h ..

omit [DecidableEq ι] in
theorem SmpLog.lock_held (s : SmpLog ι) (h : (s.locks lock).Held) (lock' : LogLock) :
    ((s.lock lock).locks lock').Held ↔ (s.locks lock').Held := by
  by_cases hl : lock' = lock
  · rw [hl]
    exact iff_of_true (s.lock_self lock) h
  · rw [s.lock_of_ne hl]

theorem LogLock.console_ne_klog : LogLock.console ≠ .klog := by decide

theorem some_console_ne : some LogLock.console ≠ some .klog := by decide

/-- **One round of `acquire(&klog_lock)`** waits, or takes the lock and begins the record. -/
theorem SmpLogInv.acquireKlog (h : SmpLogInv str errorString s) (hstack : (s.cpus i).stack = f :: rest)
    (hf : f.holds = none) (hf' : f'.holds = some .klog) (hlogged' : f'.logged = false) {r : Logged}
    (hr : f'.printsLeft = r.prints) :
    SmpLogInv str errorString (s.acquireKlog i r (f :: rest) (f' :: rest)) := by
  have hnested : CallsNested (f :: rest) := hstack ▸ h.nested i
  have hfchars : charsLeft (f :: rest) = charsLeft rest :=
    charsLeft_cons_of_none (by rw [hf]; exact (Option.some_ne_none _).symm) rest
  rw [SmpLog.acquireKlog]
  split
  case isTrue hheld =>
    exact h.quiet (s.moves_lock i .klog _) hstack ⟨s.lock_held hheld, rfl, rfl, rfl⟩ hnested (fun _ => rfl)
      rfl rfl
  case isFalse hfree =>
    have hzero := (h.klog.free hfree).1 i
    rw [hstack, holdCount_cons_of_none hf] at hzero
    have hsection : printsLeft (f' :: rest) = r.prints := by
      rw [printsLeft_cons, hnested.1.printsLeft_eq_nil hzero, List.append_nil, hr]
    have hne : f'.holds ≠ some .console := by rw [hf']; exact some_console_ne.symm
    have hm := s.moves_lock i .klog (f' :: rest)
    refine h.enterKlog ⟨hm.self, hm.other⟩ hstack hfree (s.lock_self .klog)
      (s.lock_of_ne LogLock.console_ne_klog) rfl rfl rfl hsection (.cons hnested.1 hlogged') ?_ ?_ ?_
    · rw [holdCount_cons_self hf', holdCount_cons_of_none hf]
    · rw [holdCount_cons_of_ne hne, holdCount_cons_of_none hf]
    · rw [hfchars, charsLeft_cons_of_none hne]

/-- **One round of `acquire(&console_lock)`** waits, or takes the lock and begins the call. -/
theorem SmpLogInv.acquireConsole (h : SmpLogInv str errorString s) {p : Print} {text : List Char}
    (hstack : (s.cpus i).stack = .print p .acquire :: rest) (htext : p.text str errorString = some text) :
    SmpLogInv str errorString
      (s.acquireConsole i p (.print p .acquire :: rest) (.print p (.put text) :: rest)) := by
  have hnested : CallsNested (.print p .acquire :: rest) := hstack ▸ h.nested i
  rw [SmpLog.acquireConsole]
  split
  case isTrue hheld =>
    exact h.quiet (s.moves_lock i .console _) hstack ⟨s.lock_held hheld, rfl, rfl, rfl⟩ hnested
      (fun _ => rfl) rfl rfl
  case isFalse hfree =>
    have hzero := (h.console.free hfree).1 i
    rw [hstack, holdCount_cons_of_none rfl] at hzero
    have hm := s.moves_lock i .console (.print p (.put text) :: rest)
    refine h.enterConsole ⟨hm.self, hm.other⟩ hstack hfree (s.lock_self .console)
      (s.lock_of_ne LogLock.console_ne_klog.symm) rfl rfl rfl ⟨hnested.1, hnested.2⟩ ?_ ?_ ?_ ?_
    · rw [holdCount_cons_self rfl, holdCount_cons_of_none rfl]
    · exact (holdCount_cons_of_ne (by exact some_console_ne) rest).trans
        (holdCount_cons_of_none rfl .klog rest).symm
    · rw [charsLeft_cons, charsLeft_eq_nil hzero, List.append_nil, Print.chars, htext]
      rfl
    · rw [printsLeft_cons, printsLeft_cons]
      rfl

section Within

variable (h : SmpLogInv str errorString s) (hstack : (s.cpus i).stack = f :: rest)
  (hf : f.holds = some .klog) (hf' : f'.holds = some .klog) (hlogged' : f'.logged = false)
include h hstack hf hf' hlogged'

/-- `_klog` or `_panic` goes on to its next place, with the same calls still to be made. -/
theorem SmpLogInv.advance (hm : s.Moves i (f' :: rest) s') (hq : s.Quiet s')
    (hprints : f'.printsLeft = f.printsLeft) : SmpLogInv str errorString s' := by
  have hnested : CallsNested (f :: rest) := hstack ▸ h.nested i
  have hne : ∀ {g : SmpFrame}, g.holds = some .klog → g.holds ≠ some .console := fun hg => by
    rw [hg]
    exact some_console_ne.symm
  refine h.quiet hm hstack hq (.cons hnested.1 hlogged') (fun lock => ?_) ?_ ?_
  · rw [holdCount_cons, holdCount_cons, hf, hf']
  · rw [charsLeft_cons_of_none (hne hf), charsLeft_cons_of_none (hne hf')]
  · rw [printsLeft_cons, printsLeft_cons, hprints]

/-- `_klog` or `_panic` calls `vcprintf` or `vkprintf`. -/
theorem SmpLogInv.callPrint {p : Print} (hm : s.Moves i (.print p .acquire :: f' :: rest) s')
    (hq : s.Quiet s') (hp : p.logged = true) (hprints : f.printsLeft = p :: f'.printsLeft) :
    SmpLogInv str errorString s' := by
  have hnested : CallsNested (f :: rest) := hstack ▸ h.nested i
  have hne : ∀ {g : SmpFrame}, g.holds = some .klog → g.holds ≠ some .console := fun hg => by
    rw [hg]
    exact some_console_ne.symm
  refine h.quiet hm hstack hq ⟨.cons hnested.1 hlogged', fun _ => ⟨f', rest, rfl, hf'⟩⟩ (fun lock => ?_)
    ?_ ?_
  · rw [holdCount_cons_of_none rfl, holdCount_cons, holdCount_cons, hf, hf']
  · rw [charsLeft_cons_of_none (by exact (Option.some_ne_none _).symm), charsLeft_cons_of_none (hne hf),
      charsLeft_cons_of_none (hne hf')]
  · have hcall : (SmpFrame.print p .acquire).printsLeft = [p] := if_pos hp
    rw [printsLeft_cons, printsLeft_cons, printsLeft_cons, hprints, hcall]
    rfl

end Within

/-- **One step of an activation** keeps the invariant. -/
theorem SmpLogInv.frameStep (h : SmpLogInv str errorString s) (hstack : (s.cpus i).stack = f :: rest)
    (hstep : s.frameStep str errorString i rest f = some s') : SmpLogInv str errorString s' := by
  have hnested : CallsNested (f :: rest) := hstack ▸ h.nested i
  cases f with
  | task => exact absurd hstep.symm (Option.some_ne_none _)
  | handler => exact absurd hstep.symm (Option.some_ne_none _)
  | klog r pc =>
    cases pc with
    | acquire =>
      obtain rfl := Option.some.inj hstep
      exact h.acquireKlog hstack rfl rfl rfl rfl
    | place =>
      obtain rfl := Option.some.inj hstep
      by_cases hlevel : r.level ≠ .info
      · have hplace : r.klogPlace = some ⟨.kputch, placeFormat, [r.file, r.line], true⟩ := if_pos hlevel
        have hprints : r.klogPrints = ⟨.kputch, placeFormat, [r.file, r.line], true⟩ :: [r.klogMessage] := by
          rw [LogRecord.klogPrints, hplace]
          rfl
        rw [hplace]
        exact h.callPrint hstack rfl rfl rfl (s.moves_setStack i _) (.of_eq rfl rfl rfl rfl) rfl hprints
      · have hplace : r.klogPlace = none := if_neg hlevel
        have hprints : r.klogPrints = [r.klogMessage] := by
          rw [LogRecord.klogPrints, hplace]
          rfl
        rw [hplace]
        exact h.advance hstack rfl rfl rfl (s.moves_setStack i _) (.of_eq rfl rfl rfl rfl) hprints.symm
    | message =>
      obtain rfl := Option.some.inj hstep
      exact h.callPrint hstack rfl rfl rfl (s.moves_setStack i _) (.of_eq rfl rfl rfl rfl) rfl rfl
    | release =>
      obtain rfl := Option.some.inj hstep
      exact h.leaveKlog (s.moves_unlock i .klog rest) hstack (s.unlock_self .klog)
        (s.unlock_of_ne LogLock.console_ne_klog) rfl rfl rfl hnested.1 (holdCount_cons_self rfl rest)
        (holdCount_cons_of_ne (by exact some_console_ne.symm) rest).symm
        (charsLeft_cons_of_none (by exact some_console_ne.symm) rest).symm (printsLeft_cons _ _)
  | panic r pc =>
    cases pc with
    | acquire =>
      obtain rfl := Option.some.inj hstep
      exact h.acquireKlog hstack rfl rfl rfl rfl
    | disable =>
      obtain rfl := Option.some.inj hstep
      exact h.advance hstack rfl rfl rfl (s.moves_setInterrupts i false _) (.of_eq rfl rfl rfl rfl) rfl
    | place =>
      obtain rfl := Option.some.inj hstep
      exact h.callPrint hstack rfl rfl rfl (s.moves_setStack i _) (.of_eq rfl rfl rfl rfl) rfl rfl
    | message =>
      obtain rfl := Option.some.inj hstep
      exact h.callPrint hstack rfl rfl rfl (s.moves_setStack i _) (.of_eq rfl rfl rfl rfl) rfl rfl
    | halt => exact absurd hstep.symm (Option.some_ne_none _)
  | print p pc =>
    cases pc with
    | acquire =>
      obtain ⟨text, htext, rfl⟩ := Option.map_eq_some_iff.mp hstep
      exact h.acquireConsole hstack htext
    | put text =>
      cases text with
      | nil =>
        obtain rfl := Option.some.inj hstep
        exact h.quiet (s.moves_setStack i _) hstack (.of_eq rfl rfl rfl rfl) ⟨hnested.1, hnested.2⟩
          (fun lock => by rw [holdCount_cons, holdCount_cons]; rfl) rfl rfl
      | cons ch text =>
        obtain rfl := Option.some.inj hstep
        have hm := s.moves_setStack i (.print p (.put text) :: rest)
        exact h.put ⟨hm.self, hm.other⟩ hstack rfl rfl rfl rfl ⟨hnested.1, hnested.2⟩
          (fun lock => by rw [holdCount_cons, holdCount_cons]; rfl) rfl rfl
    | release =>
      obtain rfl := Option.some.inj hstep
      exact h.leaveConsole (s.moves_unlock i .console rest) hstack (s.unlock_self .console)
        (s.unlock_of_ne LogLock.console_ne_klog.symm) rfl rfl rfl hnested.1 (holdCount_cons_self rfl rest)
        (holdCount_cons_of_ne (by exact some_console_ne) rest).symm (charsLeft_cons _ _)
        (printsLeft_cons (.print p .release) rest).symm

/-- A handler comes or goes, and holds nothing. -/
theorem SmpLogInv.handler (h : SmpLogInv str errorString s) (hm : s.Moves i stack' s')
    (hstack : stack' = .handler :: (s.cpus i).stack ∨ (s.cpus i).stack = .handler :: stack')
    (hq : s.Quiet s') : SmpLogInv str errorString s' := by
  have hnested := h.nested i
  have hne : ∀ lock, SmpFrame.handler.holds ≠ some lock := fun lock => (Option.some_ne_none lock).symm
  rcases hstack with rfl | hpop
  · exact h.call hm rfl hq rfl rfl
  · rw [hpop] at hnested
    exact h.quiet hm hpop hq hnested.1
      (fun lock => (holdCount_cons_of_ne (hne lock) stack').symm) (charsLeft_cons_of_none (hne _) stack').symm
      (printsLeft_cons_of_none (hne _) rfl stack').symm

/-- **One step of the machine**, on any processor, keeps the invariant. -/
theorem SmpLogInv.step (h : SmpLogInv str errorString s) {e : ι × SmpLogEvent}
    (hstep : s.step str errorString e = some s') : SmpLogInv str errorString s' := by
  obtain ⟨i, e⟩ := e
  cases hstack : (s.cpus i).stack with
  | nil =>
    rw [SmpLog.step, hstack] at hstep
    exact absurd hstep.symm (Option.some_ne_none _)
  | cons f rest =>
    cases e with
    | log r =>
      simp only [SmpLog.step, hstack] at hstep
      obtain ⟨-, hs'⟩ := Option.ite_none_right_eq_some.mp hstep
      obtain rfl := Option.some.inj hs'
      exact h.call (s.moves_setStack i _) hstack (.of_eq rfl rfl rfl rfl) rfl rfl
    | panic r =>
      simp only [SmpLog.step, hstack] at hstep
      obtain ⟨-, hs'⟩ := Option.ite_none_right_eq_some.mp hstep
      obtain rfl := Option.some.inj hs'
      exact h.call (s.moves_setStack i _) hstack (.of_eq rfl rfl rfl rfl) rfl rfl
    | printf putch fmt ap =>
      simp only [SmpLog.step, hstack] at hstep
      obtain ⟨-, hs'⟩ := Option.ite_none_right_eq_some.mp hstep
      obtain rfl := Option.some.inj hs'
      exact h.call (s.moves_setStack i _) hstack (.of_eq rfl rfl rfl rfl) rfl rfl
    | setInterrupts b =>
      simp only [SmpLog.step, hstack] at hstep
      obtain ⟨-, hs'⟩ := Option.ite_none_right_eq_some.mp hstep
      obtain rfl := Option.some.inj hs'
      exact h.quiet (s.moves_interrupts i b) rfl (.of_eq rfl rfl rfl rfl) (h.nested i) (fun _ => rfl) rfl rfl
    | step =>
      simp only [SmpLog.step, hstack] at hstep
      exact h.frameStep hstack hstep
    | drawError r =>
      simp only [SmpLog.step, hstack] at hstep
      split at hstep
      · obtain ⟨-, hs'⟩ := Option.ite_none_right_eq_some.mp hstep
        obtain rfl := Option.some.inj hs'
        exact h.call (s.moves_setStack i _) hstack (.of_eq rfl rfl rfl rfl) rfl rfl
      · exact absurd hstep.symm (Option.some_ne_none _)
    | interrupt =>
      simp only [SmpLog.step, hstack] at hstep
      obtain ⟨-, hs'⟩ := Option.ite_none_right_eq_some.mp hstep
      obtain rfl := Option.some.inj hs'
      exact h.handler (s.moves_setInterrupts i false _) (.inl (by rw [hstack])) (.of_eq rfl rfl rfl rfl)
    | iret =>
      simp only [SmpLog.step, hstack] at hstep
      obtain ⟨hf, hs'⟩ := Option.ite_none_right_eq_some.mp hstep
      obtain rfl := Option.some.inj hs'
      exact h.handler (s.moves_setInterrupts i true _) (.inr (by rw [hstack, hf]))
        (.of_eq rfl rfl rfl rfl)

/-! ### Runs -/

/-- A step, as a relation. -/
def SmpLogStep (str : ℕ → List Char) (errorString : List ℕ) (s : SmpLog ι) (e : ι × SmpLogEvent)
    (s' : SmpLog ι) : Prop := s.step str errorString e = some s'

omit [DecidableEq ι] in
theorem SmpLogInv.start (interrupts : ι → Bool) : SmpLogInv str errorString (SmpLog.start interrupts) where
  nested := fun _ => .cons trivial rfl
  console := Sections.Orderly.start.congr (iff_of_false (fun h => h rfl) id) (fun _ => rfl) fun _ => rfl
  klog := Sections.Orderly.start.congr (iff_of_false (fun h => h rfl) id) (fun _ => rfl) fun _ => rfl

variable {interrupts : ι → Bool} {l : List ((ι × SmpLogEvent) × SmpLog ι)}

theorem SmpLogInv.of_run (hrun : Trace.Run (SmpLogStep str errorString) (.start interrupts) l) :
    ∀ t ∈ Trace.states (.start interrupts) l, SmpLogInv str errorString t :=
  Trace.always (fun h hstep => h.step hstep) hrun (.start interrupts)

/-- **The characters of a call come one after the other.** In any run, on any processors, what is put out
is the texts of the calls, one after the other in the order in which these took `console_lock`, up to a rest
of the last one; and no two activations are in a call at once. -/
theorem prints_contiguous (hrun : Trace.Run (SmpLogStep str errorString) (.start interrupts) l) {t : SmpLog ι}
    (ht : t ∈ Trace.states (.start interrupts) l) :
    (∃ rest, t.out ++ rest = (t.begun.map (Print.chars str errorString)).flatten ∧
      (rest ≠ [] → ∃ p, t.begun.getLast? = some p ∧ rest <:+ p.chars str errorString)) ∧
    ∀ i, holdCount .console (t.cpus i).stack ≠ 0 → holdCount .console (t.cpus i).stack = 1 ∧
      ∀ j, holdCount .console (t.cpus j).stack ≠ 0 → j = i := by
  have h := SmpLogInv.of_run hrun t ht
  exact ⟨h.console.exists_rest_map, fun i hi => h.console.eq_of_holds hi⟩

/-- **The calls of a record come one after the other**, among the calls that come from records. -/
theorem records_contiguous (hrun : Trace.Run (SmpLogStep str errorString) (.start interrupts) l)
    {t : SmpLog ι} (ht : t ∈ Trace.states (.start interrupts) l) :
    (∃ rest, t.begun.filter (·.logged) ++ rest = (t.records.map Logged.prints).flatten ∧
      (rest ≠ [] → ∃ r, t.records.getLast? = some r ∧ rest <:+ r.prints)) ∧
    ∀ i, holdCount .klog (t.cpus i).stack ≠ 0 → holdCount .klog (t.cpus i).stack = 1 ∧
      ∀ j, holdCount .klog (t.cpus j).stack ≠ 0 → j = i := by
  have h := SmpLogInv.of_run hrun t ht
  exact ⟨h.klog.exists_rest_map, fun i hi => h.klog.eq_of_holds hi⟩

/-! ### Panic -/

/-- `_panic` has `klog_lock`. -/
def SmpFrame.panicking : SmpFrame → Bool
  | .panic _ .acquire => false
  | .panic _ _ => true
  | _ => false

/-- Some processor is in `_panic` and has the lock. -/
def SmpLog.Panicked (s : SmpLog ι) : Prop := ∃ i, ∃ f ∈ (s.cpus i).stack, f.panicking = true

theorem SmpFrame.holds_of_panicking (h : f.panicking = true) : f.holds = some .klog := by
  cases f with
  | panic r pc => cases pc <;> first | rfl | exact absurd h Bool.false_ne_true
  | _ => exact absurd h Bool.false_ne_true

omit [DecidableEq ι] in
theorem SmpLogInv.held_of_panicked (h : SmpLogInv str errorString s) (hp : s.Panicked) :
    (s.locks .klog).Held := by
  obtain ⟨i, f, hf, hpanic⟩ := hp
  refine h.klog.locked_of_holds (i := i) (Nat.pos_iff_ne_zero.mp (List.countP_pos_iff.mpr ⟨f, hf, ?_⟩))
  exact decide_eq_true (SmpFrame.holds_of_panicking hpanic)

/-- What a step must not do while `_panic` has the lock: take it off the stack, or let a record begin. -/
structure SmpLog.Keeps (s : SmpLog ι) (i : ι) (s' : SmpLog ι) : Prop where
  panicking : (∃ f ∈ (s.cpus i).stack, f.panicking = true) → ∃ f ∈ (s'.cpus i).stack, f.panicking = true
  other : ∀ j ≠ i, (s'.cpus j).stack = (s.cpus j).stack
  records : (s.locks .klog).Held → s'.records = s.records

omit [DecidableEq ι] in
theorem SmpLog.Moves.keeps (hm : s.Moves i stack' s') (hstack : (s.cpus i).stack = f :: rest)
    (hrest : ∀ g ∈ rest, g ∈ stack') (hf : f.panicking = true → ∃ g ∈ stack', g.panicking = true)
    (hrecords : (s.locks .klog).Held → s'.records = s.records) : s.Keeps i s' where
  panicking := by
    rw [hstack, hm.self]
    rintro ⟨g, hg, hpanic⟩
    rcases List.mem_cons.mp hg with rfl | hg
    · exact hf hpanic
    · exact ⟨g, hrest g hg, hpanic⟩
  other := hm.other
  records := hrecords

theorem SmpLog.acquireKlog_keeps {r : Logged} (hstack : (s.cpus i).stack = f :: rest)
    (hf : f.panicking = false) : s.Keeps i (s.acquireKlog i r (f :: rest) (f' :: rest)) := by
  have hnot : ∀ {stack' : List SmpFrame}, f.panicking = true → ∃ g ∈ stack', g.panicking = true :=
    fun h => absurd (hf.symm.trans h) Bool.false_ne_true
  rw [SmpLog.acquireKlog]
  split
  case isTrue =>
    exact (s.moves_lock i .klog _).keeps hstack (fun g hg => List.mem_cons_of_mem _ hg) hnot fun _ => rfl
  case isFalse hfree =>
    have hm := s.moves_lock i .klog (f' :: rest)
    exact SmpLog.Moves.keeps ⟨hm.self, hm.other⟩ hstack (fun g hg => List.mem_cons_of_mem _ hg) hnot
      fun hheld => absurd hheld hfree

theorem SmpLog.acquireConsole_keeps {p : Print} (hstack : (s.cpus i).stack = f :: rest)
    (hf : f.panicking = false) : s.Keeps i (s.acquireConsole i p (f :: rest) (f' :: rest)) := by
  have hnot : ∀ {stack' : List SmpFrame}, f.panicking = true → ∃ g ∈ stack', g.panicking = true :=
    fun h => absurd (hf.symm.trans h) Bool.false_ne_true
  have hm := fun stack' => s.moves_lock i .console stack'
  rw [SmpLog.acquireConsole]
  split
  case isTrue => exact (hm _).keeps hstack (fun g hg => List.mem_cons_of_mem _ hg) hnot fun _ => rfl
  case isFalse =>
    exact SmpLog.Moves.keeps ⟨(hm _).self, (hm _).other⟩ hstack (fun g hg => List.mem_cons_of_mem _ hg) hnot
      fun _ => rfl

theorem SmpLog.frameStep_keeps (hstack : (s.cpus i).stack = f :: rest)
    (hstep : s.frameStep str errorString i rest f = some s') : s.Keeps i s' := by
  have hcons : ∀ {g' : SmpFrame}, ∀ g ∈ rest, g ∈ g' :: rest := fun g hg => List.mem_cons_of_mem _ hg
  have hcons2 : ∀ {g' g'' : SmpFrame}, ∀ g ∈ rest, g ∈ g' :: g'' :: rest :=
    fun g hg => List.mem_cons_of_mem _ (hcons g hg)
  cases f with
  | task => exact absurd hstep.symm (Option.some_ne_none _)
  | handler => exact absurd hstep.symm (Option.some_ne_none _)
  | klog r pc =>
    have hnot : ∀ {pc' : KlogPc} {stack' : List SmpFrame}, (SmpFrame.klog r pc').panicking = true →
        ∃ g ∈ stack', g.panicking = true := fun h => absurd h Bool.false_ne_true
    cases pc with
    | acquire =>
      obtain rfl := Option.some.inj hstep
      exact s.acquireKlog_keeps hstack rfl
    | place =>
      obtain rfl := Option.some.inj hstep
      cases r.klogPlace with
      | none => exact (s.moves_setStack i _).keeps hstack hcons hnot fun _ => rfl
      | some p => exact (s.moves_setStack i _).keeps hstack hcons2 hnot fun _ => rfl
    | message =>
      obtain rfl := Option.some.inj hstep
      exact (s.moves_setStack i _).keeps hstack hcons2 hnot fun _ => rfl
    | release =>
      obtain rfl := Option.some.inj hstep
      exact (s.moves_unlock i .klog rest).keeps hstack (fun g hg => hg) hnot fun _ => rfl
  | panic r pc =>
    cases pc with
    | acquire =>
      obtain rfl := Option.some.inj hstep
      exact s.acquireKlog_keeps hstack rfl
    | disable =>
      obtain rfl := Option.some.inj hstep
      exact (s.moves_setInterrupts i false _).keeps hstack hcons
        (fun _ => ⟨.panic r .place, List.mem_cons_self, rfl⟩) fun _ => rfl
    | place =>
      obtain rfl := Option.some.inj hstep
      exact (s.moves_setStack i _).keeps hstack hcons2
        (fun _ => ⟨.panic r .message, List.mem_cons_of_mem _ List.mem_cons_self, rfl⟩) fun _ => rfl
    | message =>
      obtain rfl := Option.some.inj hstep
      exact (s.moves_setStack i _).keeps hstack hcons2
        (fun _ => ⟨.panic r .halt, List.mem_cons_of_mem _ List.mem_cons_self, rfl⟩) fun _ => rfl
    | halt => exact absurd hstep.symm (Option.some_ne_none _)
  | print p pc =>
    have hnot : ∀ {pc' : PutPc} {stack' : List SmpFrame}, (SmpFrame.print p pc').panicking = true →
        ∃ g ∈ stack', g.panicking = true := fun h => absurd h Bool.false_ne_true
    cases pc with
    | acquire =>
      obtain ⟨text, -, rfl⟩ := Option.map_eq_some_iff.mp hstep
      exact s.acquireConsole_keeps hstack rfl
    | put text =>
      cases text with
      | nil =>
        obtain rfl := Option.some.inj hstep
        exact (s.moves_setStack i _).keeps hstack hcons hnot fun _ => rfl
      | cons ch text =>
        obtain rfl := Option.some.inj hstep
        have hm := s.moves_setStack i (.print p (.put text) :: rest)
        exact SmpLog.Moves.keeps ⟨hm.self, hm.other⟩ hstack hcons hnot fun _ => rfl
    | release =>
      obtain rfl := Option.some.inj hstep
      exact (s.moves_unlock i .console rest).keeps hstack (fun g hg => hg) hnot fun _ => rfl

theorem SmpLog.step_keeps {e : ι × SmpLogEvent} (hstep : s.step str errorString e = some s') :
    s.Keeps e.1 s' := by
  obtain ⟨i, e⟩ := e
  cases hstack : (s.cpus i).stack with
  | nil =>
    rw [SmpLog.step, hstack] at hstep
    exact absurd hstep.symm (Option.some_ne_none _)
  | cons f rest =>
    have hpush : ∀ {g' : SmpFrame}, ∀ g ∈ rest, g ∈ g' :: f :: rest :=
      fun g hg => List.mem_cons_of_mem _ (List.mem_cons_of_mem _ hg)
    have hkeep : ∀ {g' : SmpFrame}, f.panicking = true → ∃ g ∈ g' :: f :: rest, g.panicking = true :=
      fun h => ⟨f, List.mem_cons_of_mem _ List.mem_cons_self, h⟩
    cases e with
    | step =>
      simp only [SmpLog.step, hstack] at hstep
      exact s.frameStep_keeps hstack hstep
    | setInterrupts b =>
      simp only [SmpLog.step, hstack] at hstep
      obtain ⟨-, hs'⟩ := Option.ite_none_right_eq_some.mp hstep
      obtain rfl := Option.some.inj hs'
      refine (s.moves_interrupts i b).keeps hstack (fun g hg => ?_) (fun h => ⟨f, ?_, h⟩) fun _ => rfl
      · exact hstack ▸ List.mem_cons_of_mem _ hg
      · exact hstack ▸ List.mem_cons_self
    | drawError r =>
      simp only [SmpLog.step, hstack] at hstep
      split at hstep
      · obtain ⟨-, hs'⟩ := Option.ite_none_right_eq_some.mp hstep
        obtain rfl := Option.some.inj hs'
        exact (s.moves_setStack i _).keeps hstack hpush hkeep fun _ => rfl
      · exact absurd hstep.symm (Option.some_ne_none _)
    | interrupt =>
      simp only [SmpLog.step, hstack] at hstep
      obtain ⟨-, hs'⟩ := Option.ite_none_right_eq_some.mp hstep
      obtain rfl := Option.some.inj hs'
      exact (s.moves_setInterrupts i false _).keeps hstack hpush hkeep fun _ => rfl
    | iret =>
      simp only [SmpLog.step, hstack] at hstep
      obtain ⟨hf, hs'⟩ := Option.ite_none_right_eq_some.mp hstep
      obtain rfl := Option.some.inj hs'
      exact (s.moves_setInterrupts i true _).keeps hstack (fun g hg => hg)
        (fun h => by rw [hf] at h; exact absurd h Bool.false_ne_true) fun _ => rfl
    | _ =>
      simp only [SmpLog.step, hstack] at hstep
      obtain ⟨-, hs'⟩ := Option.ite_none_right_eq_some.mp hstep
      obtain rfl := Option.some.inj hs'
      exact (s.moves_setStack i _).keeps hstack hpush hkeep fun _ => rfl

omit [DecidableEq ι] in
theorem SmpLog.Keeps.panicked (hk : s.Keeps i s') (hp : s.Panicked) : s'.Panicked := by
  obtain ⟨j, f, hf, hpanic⟩ := hp
  by_cases hj : j = i
  · rw [hj] at hf
    exact ⟨i, hk.panicking ⟨f, hf, hpanic⟩⟩
  · exact ⟨j, f, (hk.other j hj).symm ▸ hf, hpanic⟩

/-- **After `_panic` has the lock no record begins**, on any processor, for as long as the machine runs. -/
theorem panic_silences (hrun : Trace.Run (SmpLogStep str errorString) (.start interrupts) l) {s : SmpLog ι}
    (hs : s ∈ Trace.states (.start interrupts) l) (hp : s.Panicked) {l' : List ((ι × SmpLogEvent) × SmpLog ι)}
    (hrun' : Trace.Run (SmpLogStep str errorString) s l') :
    ∀ t ∈ Trace.states s l', t.records = s.records ∧ (t.locks .klog).Held := by
  have hinv : ∀ t ∈ Trace.states s l', SmpLogInv str errorString t ∧ t.Panicked ∧ t.records = s.records :=
    Trace.always (I := fun t => SmpLogInv str errorString t ∧ t.Panicked ∧ t.records = s.records)
      (fun h hstep =>
        have hkeeps := SmpLog.step_keeps hstep
        ⟨h.1.step hstep, hkeeps.panicked h.2.1, (hkeeps.records (h.1.held_of_panicked h.2.1)).trans h.2.2⟩)
      hrun' ⟨SmpLogInv.of_run hrun s hs, hp, rfl⟩
  exact fun t ht => ⟨(hinv t ht).2.2, (hinv t ht).1.held_of_panicked (hinv t ht).2.1⟩

end Machine

/-! ### Two processors -/

/-- No strings are printed but the formats. -/
def twoStep (s : SmpLog Bool) (e : Bool × SmpLogEvent) : Option (SmpLog Bool) := s.step (fun _ => []) [] e

def twoCpus : SmpLog Bool := .start fun _ => true

/-- The events can happen one after the other, and some state on the way is as wanted. -/
def reaches (s : SmpLog Bool) (es : List (Bool × SmpLogEvent)) (P : SmpLog Bool → Bool) : Bool :=
  (Trace.exec twoStep s es).any fun l => (Trace.states s l).any P

theorem exists_run {s : SmpLog Bool} {es : List (Bool × SmpLogEvent)} {P : SmpLog Bool → Bool}
    (h : reaches s es P = true) : ∃ l, l.map Prod.fst = es ∧
      Trace.Run (SmpLogStep (fun _ => []) []) s l ∧ ∃ t ∈ Trace.states s l, P t = true := by
  obtain ⟨l, hl, hany⟩ := (Option.any_eq_true _ _).mp h
  obtain ⟨t, ht, hP⟩ := List.any_eq_true.mp hany
  exact ⟨l, Trace.map_fst_of_exec hl, Trace.run_of_exec hl, t, ht, hP⟩

/-- One processor prints two characters while the other one waits to print its own. -/
def printEvents : List (Bool × SmpLogEvent) :=
  [(true, .printf .kputch ['o', 'k'] []), (false, .printf .cputch ['!'] []), (true, .step), (false, .step),
    (true, .step), (false, .step), (true, .step), (true, .step), (true, .step), (false, .step),
    (false, .step)]

theorem prints_contiguous_printEvents : ∃ t : SmpLog Bool,
    t.out = [(.kputch, 'o'), (.kputch, 'k'), (.cputch, '!')] ∧
    (∃ rest, t.out ++ rest = (t.begun.map (Print.chars (fun _ => []) [])).flatten ∧
      (rest ≠ [] → ∃ p, t.begun.getLast? = some p ∧ rest <:+ p.chars (fun _ => []) [])) ∧
    ∀ i, holdCount .console (t.cpus i).stack ≠ 0 → holdCount .console (t.cpus i).stack = 1 ∧
      ∀ j, holdCount .console (t.cpus j).stack ≠ 0 → j = i := by
  have hreach : reaches twoCpus printEvents
      (fun t => t.out = [(.kputch, 'o'), (.kputch, 'k'), (.cputch, '!')]) = true := by decide +kernel
  obtain ⟨l, -, hrun, t, ht, hout⟩ := exists_run hreach
  exact ⟨t, of_decide_eq_true hout, prints_contiguous hrun ht⟩

/-- One processor logs; the other one gets its own text in before the first call of the record. -/
def recordEvents : List (Bool × SmpLogEvent) :=
  [(true, .log ⟨0, 7, .debug, ['x'], []⟩), (true, .step), (true, .step), (false, .printf .cputch ['!'] []),
    (false, .step), (false, .step)]

theorem records_contiguous_recordEvents : ∃ t : SmpLog Bool,
    t.out = [(.cputch, '!')] ∧ t.records = [.klog ⟨0, 7, .debug, ['x'], []⟩] ∧
    (∃ rest, t.begun.filter (·.logged) ++ rest = (t.records.map Logged.prints).flatten ∧
      (rest ≠ [] → ∃ r, t.records.getLast? = some r ∧ rest <:+ r.prints)) ∧
    ∀ i, holdCount .klog (t.cpus i).stack ≠ 0 → holdCount .klog (t.cpus i).stack = 1 ∧
      ∀ j, holdCount .klog (t.cpus j).stack ≠ 0 → j = i := by
  have hreach : reaches twoCpus recordEvents (fun t =>
      t.out = [(.cputch, '!')] ∧ t.records = [.klog ⟨0, 7, .debug, ['x'], []⟩]) = true := by decide +kernel
  obtain ⟨l, -, hrun, t, ht, h⟩ := exists_run hreach
  obtain ⟨hout, hrecords⟩ := of_decide_eq_true h
  exact ⟨t, hout, hrecords, records_contiguous hrun ht⟩

/-- One processor panics, up to where it has `klog_lock`. -/
def panicEvents : List (Bool × SmpLogEvent) :=
  [(true, .panic ⟨0, 7, .error, ['x'], []⟩), (true, .step)]

/-- The other one logs and waits for the lock; a handler prints there in the meantime. -/
def afterPanicEvents : List (Bool × SmpLogEvent) :=
  [(false, .log ⟨0, 8, .debug, [], []⟩), (false, .step), (false, .interrupt),
    (false, .printf .cputch ['!'] []), (false, .step), (false, .step), (false, .step), (false, .step),
    (false, .iret), (true, .step), (false, .step)]

theorem panic_silences_panicEvents : ∃ (s t : SmpLog Bool) (l' : List ((Bool × SmpLogEvent) × SmpLog Bool)),
    s.Panicked ∧ s.records = [.panic ⟨0, 7, .error, ['x'], []⟩] ∧ l'.map Prod.fst = afterPanicEvents ∧
      Trace.Run (SmpLogStep (fun _ => []) []) s l' ∧ t ∈ Trace.states s l' ∧ t.out = [(.cputch, '!')] ∧
      (t.cpus false).stack = [.klog ⟨0, 8, .debug, [], []⟩ .acquire, .task] ∧
      t.records = s.records ∧ (t.locks .klog).Held := by
  have hreach : reaches twoCpus panicEvents (fun s =>
      (s.cpus true).stack = [.panic ⟨0, 7, .error, ['x'], []⟩ .disable, .task] ∧
        s.records = [.panic ⟨0, 7, .error, ['x'], []⟩] ∧
        reaches s afterPanicEvents (fun t => t.out = [(.cputch, '!')] ∧
          (t.cpus false).stack = [.klog ⟨0, 8, .debug, [], []⟩ .acquire, .task]) = true) = true := by
    decide +kernel
  obtain ⟨l, -, hrun, s, hs, h⟩ := exists_run hreach
  obtain ⟨hpanic, hrecords, hreach'⟩ := of_decide_eq_true h
  obtain ⟨l', hevents, hrun', t, ht, h'⟩ := exists_run hreach'
  obtain ⟨hout, hwait⟩ := of_decide_eq_true h'
  have hp : s.Panicked := ⟨true, _, hpanic ▸ List.mem_cons_self, rfl⟩
  exact ⟨s, t, l', hp, hrecords, hevents, hrun', ht, hout, hwait, panic_silences hrun hs hp hrun' t ht⟩

end GeekToyOS
