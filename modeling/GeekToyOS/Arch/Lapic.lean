import GeekToyOS.Data.Trace
import Mathlib

/-!
# Interrupts and their end

What happens to an interrupt between the local APIC and its handler: `interrupt_handler` of
`src/kernel/interrupt.c`, `interrupt_eoi`, `exception_init` and `exception_handler` of
`src/arch/x86/interrupt.c`, and `lapic_eoi` of `src/arch/x86/apic.c`, when there is an APIC.

The local APIC has a bit for each vector that is requested, and one for each vector that is in service. It
holds back what is not of a higher class than what is in service. Writing to the EOI register ends the highest
vector in service, whichever the writer means. So an end too many, one too few, or one at the wrong time
would be for another interrupt.

Interrupts come at any time when they are enabled. Exceptions come at any time. A handler may enable
interrupts, disable them and raise interrupts by itself, and other processors may register handlers meanwhile.

## Main definitions

* `Lapic`, `Lapic.accept`, `Lapic.writeEoi` — the device
* `Dispatch.step` — a step of the processor or of the device

## Main results

* `lapicEoi_reads` — `lapic_eoi` finds out whether the vector is in service
* `DispatchInv.step` — at most one vector is in service, and only before its handler is called
* `interrupts_ended` — where interrupts are enabled none is in service, and none is held back
-/

namespace GeekToyOS

/-- `enum isr_type` -/
inductive IsrType
  | irq
  | exception
  | nop
deriving DecidableEq, Repr

/-- What is registered as a handler. -/
inductive IsrHandler
  | exceptionHandler
  | other
deriving DecidableEq, Repr

/-- `struct isr_info` -/
structure IsrSlot where
  type : IsrType
  handler : Option IsrHandler
deriving DecidableEq, Repr

/-- `register_interrupt_handler` -/
def registerInterruptHandler (table : ℕ → IsrSlot) (vec : ℕ) (type : IsrType) (h : IsrHandler) :
    ℕ → IsrSlot :=
  Function.update table vec ⟨type, some h⟩

section Register

variable (table : ℕ → IsrSlot) {vec : ℕ} (type : IsrType) (h : IsrHandler)

@[simp] theorem registerInterruptHandler_self :
    registerInterruptHandler table vec type h vec = ⟨type, some h⟩ := by
  simp [registerInterruptHandler]

@[simp] theorem registerInterruptHandler_of_ne {w : ℕ} (hne : w ≠ vec) :
    registerInterruptHandler table vec type h w = table w := by
  simp [registerInterruptHandler, hne]

end Register

/-- `IRQ_NMI` -/
def irqNmi : ℕ := 251

/-- `exception_init` -/
def exceptionInit (table : ℕ → IsrSlot) : ℕ → IsrSlot :=
  registerInterruptHandler
    ((List.range 32).foldl (fun t i => registerInterruptHandler t i .exception .exceptionHandler) table)
    irqNmi .exception .exceptionHandler

/-- What `exception_init` registers. -/
def ExceptionVec (vec : ℕ) : Prop := vec < 32 ∨ vec = irqNmi

instance (vec : ℕ) : Decidable (ExceptionVec vec) := inferInstanceAs (Decidable (_ ∨ _))

/-! ### The local APIC -/

/-- The requests, and what is in service. -/
structure Lapic where
  irr : ℕ → Bool
  isr : ℕ → Bool

namespace Lapic

/-- The highest vector that is set. -/
def highest (bits : ℕ → Bool) : Option ℕ := (List.range 256).reverse.find? bits

/-- `lapic_read`, of one of the registers from `APIC_REG_ISR_BASE` on -/
def read (a : Lapic) (reg : ℕ) : ℕ := Nat.ofBits fun i : Fin 32 => a.isr (32 * ((reg - 0x100) / 0x10) + i)

/-- `lapic_write(APIC_REG_EOI, 0)` -/
def writeEoi (a : Lapic) : Lapic :=
  { a with isr := (highest a.isr).elim a.isr fun vec => Function.update a.isr vec false }

/-- The processor takes the highest request, if it is of a higher class than what is in service. -/
def accept (a : Lapic) : Option (ℕ × Lapic) :=
  (highest a.irr).bind fun vec =>
    if (highest a.isr).all (fun served => served / 16 < vec / 16) then
      some (vec, ⟨Function.update a.irr vec false, Function.update a.isr vec true⟩)
    else none

/-- The test in `lapic_eoi`. -/
def inService (a : Lapic) (vec : ℕ) : Prop := a.read (0x100 + 0x10 * (vec / 32)) &&& 1 <<< (vec % 32) ≠ 0

instance (a : Lapic) (vec : ℕ) : Decidable (a.inService vec) := inferInstanceAs (Decidable (_ ≠ _))

end Lapic

/-! ### The processor -/

/-- Where the handling of an interrupt is. -/
inductive DispatchPc
  /-- up to `info->type == ISR_IRQ` -/
  | enter
  /-- `lapic_read(reg) & (1 << (vec % 32))` -/
  | readIsr
  /-- `lapic_write(APIC_REG_EOI, 0)` -/
  | writeEoi
  /-- `info->handler(frame)` -/
  | call
  | body
  /-- in `panic`, which does not return, or past `__builtin_unreachable` -/
  | panic
deriving DecidableEq, Repr

/-- An interrupt that is being handled. -/
structure DispatchFrame where
  vec : ℕ
  pc : DispatchPc
  /-- whether interrupts were enabled -/
  saved : Bool
deriving DecidableEq, Repr

/-- A processor and its local APIC. -/
structure Dispatch where
  lapic : Lapic
  /-- interrupts are enabled -/
  ifFlag : Bool
  frames : List DispatchFrame
  interruptHandlers : ℕ → IsrSlot
  /-- the vectors that the local APIC has put in service -/
  delivered : List ℕ
  /-- the vectors that have been ended -/
  ended : List ℕ

/-- What happens next. -/
inductive DispatchEvent
  /-- the local APIC gets a request -/
  | request (vec : ℕ)
  /-- the processor takes it -/
  | accept
  /-- the request is gone when the processor wants to take it -/
  | spurious
  /-- an exception, or an `int` instruction -/
  | trap (vec : ℕ)
  /-- `interrupt_handler` goes on -/
  | run
  | sti
  | cli
  /-- the handler returns -/
  | ret
  | register (vec : ℕ) (type : IsrType) (h : IsrHandler)
deriving DecidableEq, Repr

namespace Dispatch

/-- The processor is not in `interrupt_handler` itself. -/
def inCode (s : Dispatch) : Bool := s.frames.head?.all fun f => f.pc = .body

/-- A gate disables interrupts. -/
def enter (s : Dispatch) (vec : ℕ) : Dispatch :=
  { s with ifFlag := false, frames := ⟨vec, .enter, s.ifFlag⟩ :: s.frames }

section Enter

variable (s : Dispatch) (vec : ℕ)

@[simp] theorem enter_lapic : (s.enter vec).lapic = s.lapic := rfl

@[simp] theorem enter_ifFlag : (s.enter vec).ifFlag = false := rfl

@[simp] theorem enter_frames : (s.enter vec).frames = ⟨vec, .enter, s.ifFlag⟩ :: s.frames := rfl

@[simp] theorem enter_interruptHandlers : (s.enter vec).interruptHandlers = s.interruptHandlers := rfl

@[simp] theorem enter_delivered : (s.enter vec).delivered = s.delivered := rfl

@[simp] theorem enter_ended : (s.enter vec).ended = s.ended := rfl

end Enter

/-- `interrupt_handler` and what it calls, up to the handler. -/
def runFrame (s : Dispatch) (f : DispatchFrame) (rest : List DispatchFrame) : Option Dispatch :=
  let at' := fun pc => { f with pc := pc } :: rest
  match f.pc with
  | .enter =>
    some { s with frames := at' (if (s.interruptHandlers f.vec).type = .irq then .readIsr else .call) }
  | .readIsr => some { s with frames := at' (if s.lapic.inService f.vec then .writeEoi else .call) }
  | .writeEoi =>
    some { s with
      lapic := s.lapic.writeEoi
      frames := at' .call
      ended := s.ended ++ (Lapic.highest s.lapic.isr).toList }
  | .call =>
    match (s.interruptHandlers f.vec).handler with
    | none => some { s with ifFlag := f.saved, frames := rest }
    | some .exceptionHandler => some { s with frames := at' .panic }
    | some .other => some { s with frames := at' .body }
  | .body | .panic => none

/-- One step of the processor or of the device. -/
def step (s : Dispatch) : DispatchEvent → Option Dispatch
  | .request vec =>
    if 16 ≤ vec ∧ vec < 256 then
      some { s with lapic := { s.lapic with irr := Function.update s.lapic.irr vec true } }
    else none
  | .accept =>
    if s.ifFlag then
      s.lapic.accept.map fun p => { s.enter p.1 with lapic := p.2, delivered := s.delivered ++ [p.1] }
    else none
  | .spurious => if s.ifFlag then some (s.enter 0xFF) else none
  | .trap vec => if vec < 32 ∨ vec < 256 ∧ s.inCode then some (s.enter vec) else none
  | .run =>
    match s.frames with
    | [] => none
    | f :: rest => s.runFrame f rest
  | .sti => if s.inCode then some { s with ifFlag := true } else none
  | .cli => if s.inCode then some { s with ifFlag := false } else none
  | .ret =>
    match s.frames with
    | ⟨_, .body, saved⟩ :: rest => some { s with ifFlag := saved, frames := rest }
    | _ => none
  | .register vec type h =>
    some { s with interruptHandlers := registerInterruptHandler s.interruptHandlers vec type h }

/-- The steps as a relation. -/
def Step (s : Dispatch) (e : DispatchEvent) (s' : Dispatch) : Prop := s.step e = some s'

/-- After `interrupt_init`. -/
def start (irr : ℕ → Bool) : Dispatch where
  lapic := ⟨irr, fun _ => false⟩
  ifFlag := false
  frames := []
  interruptHandlers := exceptionInit fun _ => ⟨.irq, none⟩
  delivered := []
  ended := []

/-- After `exception_init`, handlers are registered for interrupts. -/
def RegisterOk (_ : Dispatch) : DispatchEvent → Prop
  | .register vec type h => ¬ExceptionVec vec ∧ type = .irq ∧ h = .other
  | _ => True

instance (s : Dispatch) (e : DispatchEvent) : Decidable (s.RegisterOk e) := by
  cases e <;> unfold RegisterOk <;> infer_instance

end Dispatch

/-! ### The device -/

namespace Lapic

variable {a : Lapic} {vec : ℕ}

theorem highest_eq_none {bits : ℕ → Bool} (h : highest bits = none) (hvec : vec < 256) :
    bits vec = false := by
  have := List.find?_eq_none.mp h vec (by simpa using hvec)
  simpa using this

theorem highest_eq_some {bits : ℕ → Bool} (h : highest bits = some vec) : bits vec = true ∧ vec < 256 := by
  have hmem := List.mem_of_find?_eq_some h
  exact ⟨List.find?_some h, by simpa using hmem⟩

theorem le_highest {bits : ℕ → Bool} {top : ℕ} (h : highest bits = some top) (hvec : vec < 256)
    (hbit : bits vec = true) : vec ≤ top := by
  obtain ⟨-, before, after, hsplit, hbefore⟩ := List.find?_eq_some_iff_append.mp h
  have hmem : vec ∈ (List.range 256).reverse := by simpa using hvec
  have hsorted : ((List.range 256).reverse).Pairwise (· > ·) :=
    List.pairwise_reverse.mpr List.pairwise_lt_range
  rw [hsplit] at hmem hsorted
  rcases List.mem_append.mp hmem with hmem | hmem
  · have := hbefore vec hmem
    simp [hbit] at this
  · rcases List.mem_cons.mp hmem with rfl | hmem
    · exact le_rfl
    · exact le_of_lt ((List.pairwise_cons.mp (List.pairwise_append.mp hsorted).2.1).1 vec hmem)

/-- One vector is in service, or none. -/
def Serves (a : Lapic) (served : Option ℕ) : Prop := ∀ vec, a.isr vec = decide (vec ∈ served)

theorem Serves.highest {served : Option ℕ} (h : a.Serves served) (hlt : ∀ vec ∈ served, vec < 256) :
    highest a.isr = served := by
  cases hhigh : Lapic.highest a.isr with
  | none =>
    cases served with
    | none => rfl
    | some vec =>
      have hvec := highest_eq_none hhigh (hlt vec rfl)
      rw [h vec] at hvec
      simp at hvec
  | some vec =>
    have hvec := (highest_eq_some hhigh).1
    rw [h vec] at hvec
    exact (of_decide_eq_true hvec).symm

/-- **`lapic_eoi` finds out whether the vector is in service.** -/
theorem inService_iff : a.inService vec ↔ a.isr vec = true := by
  have hreg : (0x100 + 0x10 * (vec / 32) - 0x100) / 0x10 = vec / 32 := by omega
  have hvec' : 32 * (vec / 32) + vec % 32 = vec := by omega
  have hbit : (a.read (0x100 + 0x10 * (vec / 32))).testBit (vec % 32) = a.isr vec := by
    rw [read, hreg, Nat.testBit_ofBits_lt _ _ (by omega)]
    exact congrArg a.isr hvec'
  rw [inService, Nat.one_shiftLeft, Nat.and_two_pow, hbit]
  cases a.isr vec <;> simp

theorem Serves.writeEoi {served : Option ℕ} (h : a.Serves served) (hlt : ∀ vec ∈ served, vec < 256) :
    a.writeEoi.Serves none := by
  intro w
  cases served with
  | none => simp [Lapic.writeEoi, h.highest hlt, h w]
  | some vec =>
    by_cases hw : w = vec
    · simp [Lapic.writeEoi, h.highest hlt, hw]
    · have hne : ¬vec = w := fun heq => hw heq.symm
      simp [Lapic.writeEoi, h.highest hlt, hw, h w, hne]

/-- What the processor takes is the highest request, and it is in service from then on. -/
theorem accept_eq_some {p : ℕ × Lapic} (h : a.accept = some p) :
    highest a.irr = some p.1 ∧ p.2.isr = Function.update a.isr p.1 true := by
  obtain ⟨vec, hvec, hif⟩ := Option.bind_eq_some_iff.mp h
  split at hif
  · obtain rfl := Option.some.inj hif
    exact ⟨hvec, rfl⟩
  · cases hif

theorem Serves.accept {p : ℕ × Lapic} (h : a.Serves none) (haccept : a.accept = some p) :
    p.2.Serves (some p.1) ∧ p.1 < 256 := by
  obtain ⟨hhigh, hisr⟩ := accept_eq_some haccept
  refine ⟨fun w => ?_, (highest_eq_some hhigh).2⟩
  by_cases hw : w = p.1
  · simp [hisr, hw]
  · have hne : ¬p.1 = w := fun heq => hw heq.symm
    simp [hisr, hw, h w, hne]

/-- Nothing is held back when nothing is in service: the highest request is taken. -/
theorem Serves.exists_accept (h : a.Serves none) (hvec : vec < 256) (hirr : a.irr vec = true) :
    ∃ p, a.accept = some p ∧ vec ≤ p.1 := by
  cases hhigh : Lapic.highest a.irr with
  | none => simp [highest_eq_none hhigh hvec] at hirr
  | some top =>
    exact ⟨(top, ⟨Function.update a.irr top false, Function.update a.isr top true⟩),
      by simp [Lapic.accept, hhigh, h.highest (by simp)], le_highest hhigh hvec hirr⟩

end Lapic

/-! ### Handling -/

/-- What `exception_init` has registered is still there, and the rest is for interrupts. -/
structure DispatchTable (table : ℕ → IsrSlot) : Prop where
  exception : ∀ vec, ExceptionVec vec → table vec = ⟨.exception, some .exceptionHandler⟩
  irq : ∀ vec, ¬ExceptionVec vec → (table vec).type = .irq ∧ (table vec).handler ≠ some .exceptionHandler

namespace Dispatch

variable {s s' : Dispatch} {e : DispatchEvent}

/-- The vector `served` is in service, if any, and only this one has not been ended. -/
structure Serving (s : Dispatch) (served : Option ℕ) : Prop where
  lapic : s.lapic.Serves served
  lt : ∀ vec ∈ served, vec < 256
  delivered : s.delivered = s.ended ++ served.toList

/-- What is in service, by how far the handling of the last interrupt is. -/
def TopOk (s : Dispatch) : List DispatchFrame → Prop
  | [] => s.Serving none
  | f :: _ =>
    match f.pc with
    | .body => s.Serving none
    | .call => s.ifFlag = false ∧ s.Serving none
    | .writeEoi => s.ifFlag = false ∧ s.Serving (some f.vec)
    | .enter | .readIsr => s.ifFlag = false ∧ (s.Serving none ∨ s.Serving (some f.vec))
    | .panic => False

/-- Nothing is wrong: below the last interrupt there are handlers that have been interrupted. -/
structure Alive (s : Dispatch) : Prop where
  irq : ∀ f ∈ s.frames, ¬ExceptionVec f.vec
  body : ∀ f ∈ s.frames.tail, f.pc = .body
  top : s.TopOk s.frames

/-- There was an exception, and `panic` has been called or is about to be. -/
def Dead (s : Dispatch) : Prop :=
  s.ifFlag = false ∧ ∃ f rest, s.frames = f :: rest ∧ ExceptionVec f.vec ∧
    (f.pc = .enter ∨ f.pc = .call ∨ f.pc = .panic)

end Dispatch

/-- **The invariant.** -/
structure DispatchInv (s : Dispatch) : Prop where
  table : DispatchTable s.interruptHandlers
  state : s.Alive ∨ s.Dead

/-- Registering a handler for an interrupt keeps the table as it should be. -/
theorem DispatchTable.register {table : ℕ → IsrSlot} (h : DispatchTable table) {vec : ℕ}
    (hvec : ¬ExceptionVec vec) : DispatchTable (registerInterruptHandler table vec .irq .other) := by
  refine ⟨fun w hw => ?_, fun w hw => ?_⟩
  · have hne : w ≠ vec := fun heq => hvec (heq ▸ hw)
    rw [registerInterruptHandler_of_ne table _ _ hne]
    exact h.exception w hw
  · by_cases heq : w = vec
    · simp [heq]
    · rw [registerInterruptHandler_of_ne table _ _ heq]
      exact h.irq w hw

/-- **`exception_init`** makes the table as it should be. -/
theorem dispatchTable_exceptionInit : DispatchTable (exceptionInit fun _ => ⟨.irq, none⟩) := by
  have hfold : ∀ n vec, (List.range n).foldl (fun t i => registerInterruptHandler t i .exception
      .exceptionHandler) (fun _ => ⟨.irq, none⟩) vec =
        if vec < n then ⟨.exception, some .exceptionHandler⟩ else ⟨.irq, none⟩ := by
    intro n vec
    induction n with
    | zero => simp
    | succ n ih =>
      rw [List.range_succ, List.foldl_append, List.foldl_cons, List.foldl_nil]
      by_cases heq : vec = n
      · simp [heq]
      · rw [registerInterruptHandler_of_ne _ _ _ heq, ih]
        have hiff : vec < n ↔ vec < n + 1 := by omega
        simp only [hiff]
  refine ⟨fun vec hvec => ?_, fun vec hvec => ?_⟩
  · by_cases heq : vec = irqNmi
    · simp [exceptionInit, heq]
    · rw [exceptionInit, registerInterruptHandler_of_ne _ _ _ heq, hfold, if_pos (hvec.resolve_right heq)]
  · have heq : vec ≠ irqNmi := fun h => hvec (Or.inr h)
    have hlt : ¬vec < 32 := fun h => hvec (Or.inl h)
    rw [exceptionInit, registerInterruptHandler_of_ne _ _ _ heq, hfold, if_neg hlt]
    simp

namespace Dispatch

variable {s s' : Dispatch} {e : DispatchEvent}

/-- What is in service depends on the local APIC and on the two lists of vectors only. -/
theorem Serving.congr {served : Option ℕ} (h : s.Serving served) (hisr : s'.lapic.isr = s.lapic.isr)
    (hdelivered : s'.delivered = s.delivered) (hended : s'.ended = s.ended) : s'.Serving served :=
  ⟨fun vec => by rw [hisr]; exact h.lapic vec, h.lt, by rw [hdelivered, hended]; exact h.delivered⟩

/-- Where the processor is not in `interrupt_handler` nothing is in service. -/
theorem Alive.serving (h : s.Alive) (hcode : s.inCode = true) : s.Serving none := by
  have htop := h.top
  cases hframes : s.frames with
  | nil => simpa [hframes, TopOk] using htop
  | cons f rest =>
    have hpc : f.pc = .body := by simpa [inCode, hframes] using hcode
    simpa [hframes, TopOk, hpc] using htop

/-- Where interrupts are enabled the processor is not in `interrupt_handler` itself. -/
theorem Alive.inCode (h : s.Alive) (hif : s.ifFlag = true) : s.inCode = true := by
  have htop := h.top
  cases hframes : s.frames with
  | nil => simp [Dispatch.inCode, hframes]
  | cons f rest =>
    cases hpc : f.pc <;> simp_all [Dispatch.inCode, TopOk]

/-- Where the processor is not in `interrupt_handler` itself, all handlers on the stack have been called. -/
theorem Alive.all_body (h : s.Alive) (hcode : s.inCode = true) : ∀ f ∈ s.frames, f.pc = .body := by
  intro f hf
  have hbody := h.body
  cases hframes : s.frames with
  | nil => simp [hframes] at hf
  | cons g rest =>
    rw [hframes] at hf hbody
    rcases List.mem_cons.mp hf with rfl | hf
    · simpa [Dispatch.inCode, hframes] using hcode
    · exact hbody f hf

/-- After an exception nothing is ever handled again: `panic` does not return. -/
theorem dead_enter {vec : ℕ} (hvec : ExceptionVec vec) : (s.enter vec).Dead :=
  ⟨rfl, _, _, rfl, hvec, Or.inl rfl⟩

/-- An interrupt comes, whether it is in service or is raised by an instruction. -/
theorem Alive.enter (h : s.Alive) (hcode : s.inCode = true) {vec : ℕ} (hvec : ¬ExceptionVec vec)
    (hs' : s'.frames = (s.enter vec).frames) (hif : s'.ifFlag = false)
    (hserving : s'.Serving none ∨ s'.Serving (some vec)) : s'.Alive := by
  refine ⟨fun f hf => ?_, fun f hf => ?_, ?_⟩
  · rw [hs'] at hf
    rcases List.mem_cons.mp hf with rfl | hf
    · exact hvec
    · exact h.irq f hf
  · rw [hs'] at hf
    exact h.all_body hcode f hf
  · rw [hs']
    exact ⟨hif, hserving⟩

/-- The processor takes an interrupt: it is in service before its handling begins. -/
theorem Alive.accept (h : s.Alive) (hif : s.ifFlag = true) {p : ℕ × Lapic} (hp : s.lapic.accept = some p) :
    { s.enter p.1 with lapic := p.2, delivered := s.delivered ++ [p.1] : Dispatch }.Alive ∨
      { s.enter p.1 with lapic := p.2, delivered := s.delivered ++ [p.1] : Dispatch }.Dead := by
  have hcode := h.inCode hif
  have hserving := h.serving hcode
  by_cases hvec : ExceptionVec p.1
  · exact Or.inr (dead_enter hvec)
  · obtain ⟨hlapic, hlt⟩ := hserving.lapic.accept hp
    refine Or.inl (h.enter hcode hvec rfl rfl (Or.inr ⟨hlapic, by simpa using hlt, ?_⟩))
    simp [hserving.delivered]

/-- `interrupt_handler` leaves the table of handlers as it is. -/
theorem runFrame_interruptHandlers {f : DispatchFrame} {rest : List DispatchFrame}
    (hstep : s.runFrame f rest = some s') : s'.interruptHandlers = s.interruptHandlers := by
  unfold Dispatch.runFrame at hstep
  cases hpc : f.pc with
  | enter | readIsr | writeEoi =>
    simp only [hpc, Option.some.injEq] at hstep
    rw [← hstep]
  | call =>
    simp only [hpc] at hstep
    split at hstep <;> (obtain rfl := Option.some.inj hstep; rfl)
  | body | panic => simp [hpc] at hstep

/-- **What `interrupt_handler` does**: it ends the interrupt before it calls the handler, once. -/
theorem Alive.runFrame {f : DispatchFrame} {rest : List DispatchFrame} (h : s.Alive)
    (htable : DispatchTable s.interruptHandlers) (hframes : s.frames = f :: rest)
    (hstep : s.runFrame f rest = some s') : s'.Alive := by
  obtain ⟨hirq, hbody, htop⟩ := h
  rw [hframes] at hirq hbody htop
  have hvec := hirq f List.mem_cons_self
  have hrest : ∀ g ∈ rest, ¬ExceptionVec g.vec := fun g hg => hirq g (List.mem_cons_of_mem f hg)
  -- the frame stays, and the handling goes on
  have hsame : ∀ pc {t : Dispatch}, t.frames = { f with pc := pc } :: rest →
      t.TopOk ({ f with pc := pc } :: rest) → t.Alive := by
    intro pc t ht htop
    refine ⟨fun g hg => ?_, fun g hg => ?_, ht ▸ htop⟩
    · rw [ht] at hg
      rcases List.mem_cons.mp hg with rfl | hg
      · exact hvec
      · exact hrest g hg
    · rw [ht] at hg
      exact hbody g hg
  unfold Dispatch.runFrame at hstep
  cases hpc : f.pc with
  | enter =>
    simp only [hpc, (htable.irq f.vec hvec).1, if_true, Option.some.injEq] at hstep
    subst hstep
    simp only [TopOk, hpc] at htop
    exact hsame _ rfl ⟨htop.1, htop.2.imp (·.congr rfl rfl rfl) (·.congr rfl rfl rfl)⟩
  | readIsr =>
    simp only [TopOk, hpc] at htop
    simp only [hpc, Lapic.inService_iff, Option.some.injEq] at hstep
    subst hstep
    rcases htop.2 with hserving | hserving
    · have hbit : s.lapic.isr f.vec = false := by simp [hserving.lapic f.vec]
      exact hsame .call (by simp [hbit]) ⟨htop.1, hserving.congr rfl rfl rfl⟩
    · have hbit : s.lapic.isr f.vec = true := by simp [hserving.lapic f.vec]
      exact hsame .writeEoi (by simp [hbit]) ⟨htop.1, hserving.congr rfl rfl rfl⟩
  | writeEoi =>
    simp only [TopOk, hpc] at htop
    simp only [hpc, Option.some.injEq] at hstep
    subst hstep
    obtain ⟨hif, hserving⟩ := htop
    refine hsame _ rfl ⟨hif, hserving.lapic.writeEoi hserving.lt, by simp, ?_⟩
    simp [hserving.lapic.highest hserving.lt, hserving.delivered]
  | call =>
    simp only [TopOk, hpc] at htop
    simp only [hpc] at hstep
    cases hhandler : (s.interruptHandlers f.vec).handler with
    | none =>
      simp only [hhandler, Option.some.injEq] at hstep
      subst hstep
      refine ⟨hrest, fun g hg => hbody g (List.mem_of_mem_tail hg), ?_⟩
      cases rest with
      | nil => exact htop.2.congr rfl rfl rfl
      | cons g rest =>
        have hg : g.pc = .body := hbody g List.mem_cons_self
        simp only [TopOk, hg]
        exact htop.2.congr rfl rfl rfl
    | some hnd =>
      cases hnd with
      | exceptionHandler => exact absurd hhandler (htable.irq f.vec hvec).2
      | other =>
        simp only [hhandler, Option.some.injEq] at hstep
        subst hstep
        exact hsame _ rfl (htop.2.congr rfl rfl rfl)
  | body | panic => simp [hpc] at hstep

/-- An exception is not ended, and its handler does not return. -/
theorem Dead.runFrame {f : DispatchFrame} {rest : List DispatchFrame} (h : s.Dead)
    (htable : DispatchTable s.interruptHandlers) (hframes : s.frames = f :: rest)
    (hstep : s.runFrame f rest = some s') : s'.Dead := by
  obtain ⟨hif, g, rest', hg, hvec, hpc⟩ := h
  obtain ⟨rfl, rfl⟩ := List.cons.inj (hframes.symm.trans hg)
  have hslot := htable.exception f.vec hvec
  unfold Dispatch.runFrame at hstep
  rcases hpc with hpc | hpc | hpc
  · simp only [hpc, hslot, Option.some.injEq] at hstep
    subst hstep
    exact ⟨hif, _, _, rfl, hvec, by simp⟩
  · simp only [hpc, hslot, Option.some.injEq] at hstep
    subst hstep
    exact ⟨hif, _, _, rfl, hvec, by simp⟩
  · simp [hpc] at hstep

/-- Requests and registrations do not matter either: what counts are the frames, the flag, and what is in
service. -/
theorem Alive.congr (h : s.Alive) (hframes : s'.frames = s.frames) (hif : s'.ifFlag = s.ifFlag)
    (hisr : s'.lapic.isr = s.lapic.isr) (hdelivered : s'.delivered = s.delivered)
    (hended : s'.ended = s.ended) : s'.Alive := by
  refine ⟨hframes ▸ h.irq, hframes ▸ h.body, ?_⟩
  have htop := h.top
  rw [hframes]
  have hserving : ∀ {served}, s.Serving served → s'.Serving served :=
    fun h => h.congr hisr hdelivered hended
  cases hl : s.frames with
  | nil =>
    rw [hl] at htop
    exact hserving htop
  | cons f rest =>
    rw [hl] at htop
    unfold TopOk at htop ⊢
    cases hpc : f.pc <;> simp only [hpc] at htop ⊢
    case body => exact hserving htop
    case call | writeEoi => exact ⟨hif.trans htop.1, hserving htop.2⟩
    case enter | readIsr => exact ⟨hif.trans htop.1, htop.2.imp hserving hserving⟩

/-- Outside of `interrupt_handler` interrupts may be enabled or not. -/
theorem Alive.setIf (h : s.Alive) (hcode : s.inCode = true) (b : Bool) :
    { s with ifFlag := b : Dispatch }.Alive := by
  refine ⟨h.irq, h.body, ?_⟩
  have hserving := h.serving hcode
  cases hframes : s.frames with
  | nil => exact hserving.congr rfl rfl rfl
  | cons f rest =>
    have hpc : f.pc = .body := h.all_body hcode f (by simp [hframes])
    simp only [TopOk, hpc]
    exact hserving.congr rfl rfl rfl

/-- A handler returns to what it has interrupted. -/
theorem Alive.pop (h : s.Alive) (hcode : s.inCode = true) {f : DispatchFrame} {rest : List DispatchFrame}
    (hframes : s.frames = f :: rest) (b : Bool) :
    { s with ifFlag := b, frames := rest : Dispatch }.Alive := by
  have hbody := h.all_body hcode
  have hserving := h.serving hcode
  have hirq := h.irq
  rw [hframes] at hbody hirq
  refine ⟨fun g hg => hirq g (List.mem_cons_of_mem f hg),
    fun g hg => hbody g (List.mem_cons_of_mem f (List.mem_of_mem_tail hg)), ?_⟩
  cases rest with
  | nil => exact hserving.congr rfl rfl rfl
  | cons g rest =>
    have hg : g.pc = .body := hbody g (by simp)
    simp only [TopOk, hg]
    exact hserving.congr rfl rfl rfl

theorem Dead.inCode (h : s.Dead) : s.inCode = false := by
  obtain ⟨-, f, rest, hframes, -, hpc⟩ := h
  rcases hpc with hpc | hpc | hpc <;> simp [Dispatch.inCode, hframes, hpc]

end Dispatch

/-- **A step of the processor or of the device** keeps the invariant. -/
theorem DispatchInv.step {s s' : Dispatch} {e : DispatchEvent} (h : DispatchInv s) (hok : s.RegisterOk e)
    (hstep : s.Step e s') : DispatchInv s' := by
  obtain ⟨htable, hstate⟩ := h
  -- only the code of a handler, or what it interrupts, does the following
  have halive : s.inCode = true → s.Alive := fun hcode =>
    hstate.resolve_right fun hdead => by simp [hdead.inCode] at hcode
  cases e with
  | request vec =>
    simp only [Dispatch.Step, Dispatch.step] at hstep
    split at hstep
    · obtain rfl := Option.some.inj hstep
      exact ⟨htable, hstate.imp (fun h => h.congr rfl rfl rfl rfl rfl) fun h => h⟩
    · cases hstep
  | accept =>
    simp only [Dispatch.Step, Dispatch.step] at hstep
    split at hstep
    · next hif =>
      obtain ⟨p, hp, rfl⟩ := Option.map_eq_some_iff.mp hstep
      have halive := hstate.resolve_right fun hdead => by simp [hdead.1] at hif
      exact ⟨htable, halive.accept hif hp⟩
    · cases hstep
  | spurious =>
    simp only [Dispatch.Step, Dispatch.step] at hstep
    split at hstep
    · next hif =>
      obtain rfl := Option.some.inj hstep
      have halive := hstate.resolve_right fun hdead => by simp [hdead.1] at hif
      have hcode := halive.inCode hif
      exact ⟨htable, Or.inl (halive.enter hcode (by decide) rfl rfl
        (Or.inl ((halive.serving hcode).congr rfl rfl rfl)))⟩
    · cases hstep
  | trap vec =>
    simp only [Dispatch.Step, Dispatch.step] at hstep
    split at hstep
    · next hvec =>
      obtain rfl := Option.some.inj hstep
      refine ⟨htable, ?_⟩
      by_cases hexc : ExceptionVec vec
      · exact Or.inr (Dispatch.dead_enter hexc)
      · have hcode := (hvec.resolve_left fun hlt => hexc (Or.inl hlt)).2
        exact Or.inl ((halive hcode).enter hcode hexc rfl rfl
          (Or.inl (((halive hcode).serving hcode).congr rfl rfl rfl)))
    · cases hstep
  | run =>
    simp only [Dispatch.Step, Dispatch.step] at hstep
    split at hstep
    · cases hstep
    · next f rest hframes =>
      exact ⟨Dispatch.runFrame_interruptHandlers hstep ▸ htable,
        hstate.imp (fun h => h.runFrame htable hframes hstep) fun h => h.runFrame htable hframes hstep⟩
  | sti | cli =>
    simp only [Dispatch.Step, Dispatch.step] at hstep
    split at hstep
    · next hcode =>
      obtain rfl := Option.some.inj hstep
      exact ⟨htable, Or.inl ((halive hcode).setIf hcode _)⟩
    · cases hstep
  | ret =>
    simp only [Dispatch.Step, Dispatch.step] at hstep
    split at hstep
    · next vec saved rest hframes =>
      obtain rfl := Option.some.inj hstep
      have hcode : s.inCode = true := by simp [Dispatch.inCode, hframes]
      exact ⟨htable, Or.inl ((halive hcode).pop hcode hframes saved)⟩
    · cases hstep
  | register vec type hnd =>
    obtain rfl := Option.some.inj hstep
    obtain ⟨hvec, rfl, rfl⟩ := hok
    exact ⟨htable.register hvec, hstate.imp (fun h => h.congr rfl rfl rfl rfl rfl) fun h => h⟩

theorem dispatchInv_start (irr : ℕ → Bool) : DispatchInv (Dispatch.start irr) :=
  ⟨dispatchTable_exceptionInit, Or.inl ⟨by simp [Dispatch.start], by simp [Dispatch.start],
    ⟨fun vec => by simp [Dispatch.start], by simp, by simp [Dispatch.start]⟩⟩⟩

section Run

open Dispatch Trace

/-- **Every interrupt is ended once, before its handler runs, and none is held back.** In every state of every
run, where the processor is in a handler, or in what is interrupted, no vector is in service, and those that
have been ended are those that have been delivered. Where interrupts are enabled this is so, and of the
requests the processor can take the highest at once. -/
theorem interrupts_ended {irr : ℕ → Bool} {l : List (DispatchEvent × Dispatch)}
    (hrun : Run Dispatch.Step (Dispatch.start irr) l) (hok : StepsOk RegisterOk (Dispatch.start irr) l) :
    ∀ t ∈ states (Dispatch.start irr) l,
      (t.inCode = true → (∀ vec, t.lapic.isr vec = false) ∧ t.ended = t.delivered) ∧
      (t.ifFlag = true → t.inCode = true ∧ ∀ vec < 256, t.lapic.irr vec = true →
        ∃ top ≥ vec, ∃ t', t.step .accept = some t' ∧ t'.delivered = t.delivered ++ [top] ∧
          t'.frames = ⟨top, .enter, true⟩ :: t.frames) := by
  intro t ht
  obtain ⟨-, hstate⟩ := invariant (I := DispatchInv) DispatchInv.step hrun (dispatchInv_start irr) hok t ht
  refine ⟨fun hcode => ?_, fun hif => ?_⟩
  · have halive := hstate.resolve_right fun hdead => by simp [hdead.inCode] at hcode
    obtain ⟨hlapic, -, hdelivered⟩ := halive.serving hcode
    exact ⟨fun vec => by simp [hlapic vec], by simpa using hdelivered.symm⟩
  · have halive := hstate.resolve_right fun hdead => by simp [hdead.1] at hif
    have hcode := halive.inCode hif
    refine ⟨hcode, fun vec hvec hirr => ?_⟩
    obtain ⟨p, hp, hle⟩ := (halive.serving hcode).lapic.exists_accept hvec hirr
    have haccept : t.step .accept =
        some { t.enter p.1 with lapic := p.2, delivered := t.delivered ++ [p.1] } := by
      simp [Dispatch.step, hif, hp]
    exact ⟨p.1, hle, _, haccept, rfl, by simp [hif]⟩

/-- A handler that is interrupted by a higher vector, for which there is no handler, and by nothing; then it
raises its own vector, and in the middle of this there is an exception. -/
def dispatchEvents : List DispatchEvent :=
  [.register 34 .irq .other, .sti, .request 34, .accept, .run, .request 254, .run, .run, .run, .sti, .accept,
    .run, .run, .run, .run, .spurious, .run, .run, .run, .trap 34, .run, .run, .trap 2, .run, .run]

theorem interrupts_ended_dispatchEvents :
    ∃ l, Trace.exec Dispatch.step (Dispatch.start fun _ => false) dispatchEvents = some l ∧
      ∀ t ∈ states (Dispatch.start fun _ => false) l,
        (t.inCode = true → (∀ vec, t.lapic.isr vec = false) ∧ t.ended = t.delivered) ∧
        (t.ifFlag = true → t.inCode = true ∧ ∀ vec < 256, t.lapic.irr vec = true →
          ∃ top ≥ vec, ∃ t', t.step .accept = some t' ∧ t'.delivered = t.delivered ++ [top] ∧
            t'.frames = ⟨top, .enter, true⟩ :: t.frames) := by
  have hsome : (Trace.exec Dispatch.step (Dispatch.start fun _ => false) dispatchEvents).isSome = true := by
    decide +kernel
  exact ⟨_, (Option.some_get hsome).symm,
    interrupts_ended (run_of_exec (Option.some_get hsome).symm) (by decide +kernel +revert)⟩

end Run

end GeekToyOS
