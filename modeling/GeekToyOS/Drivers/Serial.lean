import GeekToyOS.Data.Trace
import Mathlib.Data.Nat.Bitwise
import Mathlib.Tactic.Common

/-!
# The serial port

`src/drivers/serial.c`, on a 16550 that works at the same time. The device has a queue, from which it takes a
character into the shift register, and then puts it on the line. It may do so between any two steps of the
processor, and before `serial_init` it may be in any state.

Two registers stand for two things each: with bit 7 of the line control register, ports 0 and 1 are the
divisor. `serial_init` writes port 1 before it knows which one it is.

The receiver is left out, and with it all bits of the line status register but two.

## Main definitions

* `Uart`, `Uart.outb`, `Uart.lineStatus` — the device
* `Serial.step` — a step of the processor or of the device

## Main results

* `outbs_serialInitWrites` — what the writes of `serial_init` make of the registers
* `configured_of_run` — they do so whatever the device does meanwhile
* `line_of_run` — nothing that is written is lost, doubled, or out of order
* `poll_ends` — nor does the processor wait forever
-/

namespace GeekToyOS

/-- The registers that are only written. -/
structure UartRegs where
  dll : ℕ
  dlm : ℕ
  ier : ℕ
  fifoEnable : Bool
  lcr : ℕ
  mcr : ℕ
deriving DecidableEq, Repr

/-- A 16550. -/
structure Uart where
  regs : UartRegs
  /-- the queue, or the holding register when there is no queue -/
  fifo : List ℕ
  /-- the shift register -/
  shift : Option ℕ
  /-- what has been put on the line -/
  line : List ℕ
deriving DecidableEq, Repr

namespace UartRegs

/-- Ports 0 and 1 are the divisor. -/
def dlab (r : UartRegs) : Bool := r.lcr.testBit 7

/-- How many characters the queue holds. -/
def capacity (r : UartRegs) : ℕ := if r.fifoEnable then 16 else 1

/-- The line transmits this much of a character. -/
def word (r : UartRegs) (ch : ℕ) : ℕ := ch % 2 ^ (5 + r.lcr % 4)

/-- What a write does to the registers. -/
def outb (r : UartRegs) (reg value : ℕ) : UartRegs :=
  match reg with
  | 0 => if r.dlab then { r with dll := value } else r
  | 1 => if r.dlab then { r with dlm := value } else { r with ier := value % 16 }
  | 2 => { r with fifoEnable := value.testBit 0 }
  | 3 => { r with lcr := value }
  | 4 => { r with mcr := value % 32 }
  | _ => r

end UartRegs

namespace Uart

/-- The transmitter has room. -/
def thre (u : Uart) : Bool := u.fifo.isEmpty

/-- What a write does to the queue. A full one drops the character. Turning the queue on or off empties
it, and so does bit 2. -/
def outbFifo (u : Uart) (reg value : ℕ) : List ℕ :=
  match reg with
  | 0 => if u.regs.dlab then u.fifo else if u.fifo.length < u.regs.capacity then u.fifo ++ [value] else u.fifo
  | 2 => if value.testBit 2 || value.testBit 0 != u.regs.fifoEnable then [] else u.fifo
  | _ => u.fifo

/-- `outb`, by the distance from `COM1_PORT` -/
def outb (u : Uart) (reg value : ℕ) : Uart :=
  { u with regs := u.regs.outb reg value, fifo := u.outbFifo reg value }

section Outb

variable (u : Uart) (reg value : ℕ)

@[simp] theorem outb_regs : (u.outb reg value).regs = u.regs.outb reg value := rfl

@[simp] theorem outb_fifo : (u.outb reg value).fifo = u.outbFifo reg value := rfl

@[simp] theorem outb_shift : (u.outb reg value).shift = u.shift := rfl

@[simp] theorem outb_line : (u.outb reg value).line = u.line := rfl

end Outb

/-- `inb(COM1_PORT + 5)` -/
def lineStatus (u : Uart) : ℕ :=
  (if u.thre then 0x20 else 0) + (if u.thre && u.shift.isNone then 0x40 else 0)

/-- The next character goes to the shift register. -/
def load (u : Uart) : Option Uart :=
  match u.shift, u.fifo with
  | none, ch :: rest => some { u with shift := some ch, fifo := rest }
  | _, _ => none

/-- The shift register goes to the line. -/
def transmit (u : Uart) : Option Uart :=
  u.shift.map fun ch => { u with shift := none, line := u.line ++ [u.regs.word ch] }

/-- What is on the line, and what is still to come if nothing is set otherwise. -/
def output (u : Uart) : List ℕ := u.line ++ (u.shift.toList ++ u.fifo).map u.regs.word

end Uart

/-- The writes of `serial_init`. -/
def serialInitWrites : List (ℕ × ℕ) :=
  [(1, 0x00), (3, 0x80), (0, 0x03), (1, 0x00), (3, 0x02), (2, 0xC7), (4, 0x0B)]

/-- Where the processor is. -/
inductive SerialPc
  /-- in `serial_init`, with the writes that are left -/
  | init (rest : List (ℕ × ℕ))
  | idle
  /-- `while (serial_transmit_empty(port) == 0)` -/
  | poll (data : ℕ)
  /-- `outb(port, data)` -/
  | out (data : ℕ)
deriving DecidableEq, Repr

/-- What is not written yet. -/
def SerialPc.pending : SerialPc → List ℕ
  | .poll data | .out data => [data]
  | _ => []

/-- The processor, and the device on `COM1_PORT` if there is one. -/
structure Serial where
  uart : Option Uart
  pc : SerialPc
  /-- `serial_ok`, and `CON_SERIAL` in `console_flag` -/
  serialOk : Bool
  /-- what `kputchar` has been called with -/
  asked : List ℕ
deriving DecidableEq, Repr

/-- What happens next. -/
inductive SerialEvent
  /-- the processor goes on with `serial_init` or `serial_write_com` -/
  | run
  /-- `kputchar` is called -/
  | putchar (ch : ℕ)
  | load
  | transmit
deriving DecidableEq, Repr

namespace Serial

/-- `inb(COM1_PORT + 5)`; where there is no device all bits are set. -/
def inb (s : Serial) : ℕ := (s.uart.map Uart.lineStatus).getD 0xFF

/-- `serial_transmit_empty` -/
def transmitEmpty (s : Serial) : ℕ := s.inb &&& 0x20

/-- The call of `serial_write_com`. -/
def serialWriteCom (s : Serial) (com data : ℕ) : Serial :=
  match com with
  | 1 => { s with pc := .poll (data % 256) }
  | _ => s

/-- The call of `kputchar`. -/
def kputchar (s : Serial) (ch : ℕ) : Serial := if s.serialOk then s.serialWriteCom 1 ch else s

section Kputchar

variable (s : Serial) (ch : ℕ)

@[simp] theorem kputchar_uart : (s.kputchar ch).uart = s.uart := by
  unfold kputchar serialWriteCom
  split <;> rfl

@[simp] theorem kputchar_serialOk : (s.kputchar ch).serialOk = s.serialOk := by
  unfold kputchar serialWriteCom
  split <;> rfl

@[simp] theorem kputchar_pc : (s.kputchar ch).pc = if s.serialOk then .poll (ch % 256) else s.pc := by
  unfold kputchar serialWriteCom
  split <;> rfl

end Kputchar

/-- One step of the processor or of the device. -/
def step (s : Serial) : SerialEvent → Option Serial
  | .run =>
    match s.pc with
    | .init ((reg, value) :: rest) =>
      some { s with uart := s.uart.map (·.outb reg value), pc := .init rest }
    | .init [] => some { s with serialOk := s.inb ≠ 0xFF, pc := .idle }
    | .idle => none
    | .poll data => some { s with pc := if s.transmitEmpty = 0 then .poll data else .out data }
    | .out data => some { s with uart := s.uart.map (·.outb 0 data), pc := .idle }
  | .putchar ch =>
    match s.pc with
    | .idle => some { s.kputchar ch with asked := s.asked ++ [ch] }
    | _ => none
  | .load => (s.uart.bind Uart.load).map fun u => { s with uart := some u }
  | .transmit => (s.uart.bind Uart.transmit).map fun u => { s with uart := some u }

/-- The steps as a relation. -/
def Step (s : Serial) (e : SerialEvent) (s' : Serial) : Prop := s.step e = some s'

/-- What the processor can do next: a write of `serial_init` or its last test, and then a poll or a write of
`serial_write_com`. -/
theorem Step.run_cases {s s' : Serial} (hstep : Step s .run s') :
    (∃ reg value rest, s.pc = .init ((reg, value) :: rest) ∧
      s' = { s with uart := s.uart.map (·.outb reg value), pc := .init rest }) ∨
    (s.pc = .init [] ∧ s' = { s with serialOk := s.inb ≠ 0xFF, pc := .idle }) ∨
    (∃ data, s.pc = .poll data ∧
      s' = { s with pc := if s.transmitEmpty = 0 then .poll data else .out data }) ∨
    (∃ data, s.pc = .out data ∧ s' = { s with uart := s.uart.map (·.outb 0 data), pc := .idle }) := by
  rw [Step, Serial.step] at hstep
  split at hstep
  · next reg value rest hpc => exact .inl ⟨reg, value, rest, hpc, (Option.some.inj hstep).symm⟩
  · next hpc => exact .inr (.inl ⟨hpc, (Option.some.inj hstep).symm⟩)
  · cases hstep
  · next data hpc => exact .inr (.inr (.inl ⟨data, hpc, (Option.some.inj hstep).symm⟩))
  · next data hpc => exact .inr (.inr (.inr ⟨data, hpc, (Option.some.inj hstep).symm⟩))

/-- `kputchar` is called when the processor does nothing else. -/
theorem Step.putchar_eq {s s' : Serial} {ch : ℕ} (hstep : Step s (.putchar ch) s') :
    s.pc = .idle ∧ s' = { s.kputchar ch with asked := s.asked ++ [ch] } := by
  rw [Step, Serial.step] at hstep
  split at hstep
  · next hpc => exact ⟨hpc, (Option.some.inj hstep).symm⟩
  · cases hstep

end Serial

/-! ### The device -/

namespace Uart

theorem load_eq_some {u u' : Uart} (h : u.load = some u') :
    ∃ ch rest, u.shift = none ∧ u.fifo = ch :: rest ∧
      u' = { u with shift := some ch, fifo := rest } := by
  unfold load at h
  split at h
  · next ch rest hshift hfifo => exact ⟨ch, rest, hshift, hfifo, (Option.some.inj h).symm⟩
  · cases h

theorem transmit_eq_some {u u' : Uart} (h : u.transmit = some u') :
    ∃ ch, u.shift = some ch ∧
      u' = { u with shift := none, line := u.line ++ [u.regs.word ch] } := by
  obtain ⟨ch, hshift, rfl⟩ := Option.map_eq_some_iff.mp h
  exact ⟨ch, hshift, rfl⟩

theorem load_regs {u u' : Uart} (h : u.load = some u') : u'.regs = u.regs := by
  obtain ⟨ch, rest, -, -, rfl⟩ := load_eq_some h
  rfl

theorem transmit_regs {u u' : Uart} (h : u.transmit = some u') : u'.regs = u.regs := by
  obtain ⟨ch, -, rfl⟩ := transmit_eq_some h
  rfl

/-- The device by itself leaves its output as it is. -/
theorem output_load {u u' : Uart} (h : u.load = some u') : u'.output = u.output := by
  obtain ⟨ch, rest, hshift, hfifo, rfl⟩ := load_eq_some h
  simp [output, hshift, hfifo]

theorem output_transmit {u u' : Uart} (h : u.transmit = some u') : u'.output = u.output := by
  obtain ⟨ch, hshift, rfl⟩ := transmit_eq_some h
  simp [output, hshift]

theorem lineStatus_lt (u : Uart) : u.lineStatus < 0x80 := by
  unfold lineStatus
  split <;> split <;> omega

theorem lineStatus_and (u : Uart) : u.lineStatus &&& 0x20 = 0 ↔ u.fifo ≠ [] := by
  cases hfifo : u.fifo with
  | nil => cases hshift : u.shift <;> simp [lineStatus, thre, hfifo, hshift]
  | cons ch rest => simp [lineStatus, thre, hfifo]

/-- A character that is written when the queue is empty is the last one of the output. -/
theorem output_outb {u : Uart} (hdlab : u.regs.dlab = false) (hfifo : u.fifo = []) (data : ℕ) :
    (u.outb 0 data).output = u.output ++ [u.regs.word data] := by
  have hroom : (0 : ℕ) < u.regs.capacity := by
    unfold UartRegs.capacity
    split <;> omega
  simp [output, outbFifo, UartRegs.outb, hdlab, hfifo, hroom]

end Uart

/-! ### `serial_init` -/

/-- The registers after some writes. -/
def UartRegs.outbs (regs : UartRegs) (writes : List (ℕ × ℕ)) : UartRegs :=
  writes.foldl (fun r w => r.outb w.1 w.2) regs

/-- **The registers as `serial_init` leaves them:** 38400 baud, 7 bits, with a queue. The first write is for
the interrupts, if port 1 is not the divisor. -/
theorem outbs_serialInitWrites (regs : UartRegs) :
    regs.outbs serialInitWrites =
      { dll := 3
        dlm := 0
        ier := if regs.dlab then regs.ier else 0
        fifoEnable := true
        lcr := 2
        mcr := 0x0B } := by
  have h80 : Nat.testBit 0x80 7 = true := by decide
  by_cases hdlab : regs.lcr.testBit 7 = true <;>
    simp [UartRegs.outbs, serialInitWrites, UartRegs.outb, UartRegs.dlab, hdlab, h80]

namespace Serial

variable {s s' : Serial} {e : SerialEvent} {regs : UartRegs}

/-- In `serial_init` that found the registers `regs`: they are what the writes so far have made of them, and
the queue is empty once it has been emptied. -/
def InInit (regs : UartRegs) (s : Serial) : Prop :=
  ∃ done rest, done ++ rest = serialInitWrites ∧ s.pc = .init rest ∧
    ∀ u ∈ s.uart, u.regs = regs.outbs done ∧ (6 ≤ done.length → u.fifo = [])

/-- After it: the queue holds at most one character, and none when the next one is written. -/
structure Ready (regs : UartRegs) (s : Serial) : Prop where
  pc : ∀ rest, s.pc ≠ .init rest
  ok : s.serialOk = s.uart.isSome
  configured : ∀ u ∈ s.uart, u.regs = regs.outbs serialInitWrites
  length_le : ∀ u ∈ s.uart, u.fifo.length ≤ 1
  empty : ∀ u ∈ s.uart, ∀ data, s.pc = .out data → u.fifo = []

/-- A step of the device by itself: registers and output stay, and the queue does not grow. -/
theorem step_device (he : e = .load ∨ e = .transmit) (hstep : Step s e s') :
    ∃ u u', s.uart = some u ∧ s' = { s with uart := some u' } ∧ u'.regs = u.regs ∧
      u'.output = u.output ∧ u'.fifo.length ≤ u.fifo.length := by
  rcases he with rfl | rfl
  · obtain ⟨u', hu', rfl⟩ := Option.map_eq_some_iff.mp hstep
    obtain ⟨u, hu, hload⟩ := Option.bind_eq_some_iff.mp hu'
    refine ⟨u, u', hu, rfl, Uart.load_regs hload, Uart.output_load hload, ?_⟩
    obtain ⟨ch, rest, -, hfifo, rfl⟩ := Uart.load_eq_some hload
    simp [hfifo]
  · obtain ⟨u', hu', rfl⟩ := Option.map_eq_some_iff.mp hstep
    obtain ⟨u, hu, htransmit⟩ := Option.bind_eq_some_iff.mp hu'
    refine ⟨u, u', hu, rfl, Uart.transmit_regs htransmit, Uart.output_transmit htransmit, ?_⟩
    obtain ⟨ch, -, rfl⟩ := Uart.transmit_eq_some htransmit
    exact le_rfl

theorem inb_eq_iff (s : Serial) : s.inb ≠ 0xFF ↔ s.uart.isSome = true := by
  cases huart : s.uart with
  | none => simp [inb, huart]
  | some u =>
    have hlt := u.lineStatus_lt
    simp only [inb, huart, Option.map_some, Option.getD_some, Option.isSome_some, iff_true]
    omega

/-- One write of `serial_init`. The sixth one empties the queue. -/
theorem InInit.outb {done rest : List (ℕ × ℕ)} {reg value : ℕ} {u : Uart}
    (hwrites : done ++ (reg, value) :: rest = serialInitWrites) (hregs : u.regs = regs.outbs done)
    (hfifo : 6 ≤ done.length → u.fifo = []) :
    (u.outb reg value).regs = regs.outbs (done ++ [(reg, value)]) ∧
      (6 ≤ (done ++ [(reg, value)]).length → (u.outb reg value).fifo = []) := by
  refine ⟨by simp [UartRegs.outbs, hregs], fun hlength => ?_⟩
  have hget : serialInitWrites[done.length]? = some (reg, value) := by simp [← hwrites]
  have hlt : done.length < 7 := (List.getElem?_eq_some_iff.mp hget).1
  rw [List.length_append, List.length_singleton] at hlength
  obtain hfive | hsix : done.length = 5 ∨ done.length = 6 := by omega
  · rw [hfive] at hget
    obtain ⟨rfl, rfl⟩ := Prod.mk.inj (Option.some.inj hget)
    have hclear : Nat.testBit 0xC7 2 = true := by decide
    simp [Uart.outbFifo, hclear]
  · rw [hsix] at hget
    obtain ⟨rfl, rfl⟩ := Prod.mk.inj (Option.some.inj hget)
    exact hfifo (by omega)

/-- **A step of `serial_init`,** or of the device in the middle of it. -/
theorem InInit.step (h : InInit regs s) (hstep : Step s e s') :
    (InInit regs s' ∨ Ready regs s') ∧ s'.asked = s.asked ∧ (Ready regs s' → s'.pc = .idle) := by
  obtain ⟨done, rest, hwrites, hpc, huart⟩ := h
  cases e with
  | run =>
    rcases hstep.run_cases with
      ⟨reg, value, rest, hpc', rfl⟩ | ⟨hpc', rfl⟩ | ⟨data, hpc', -⟩ | ⟨data, hpc', -⟩
    · obtain rfl := SerialPc.init.inj (hpc.symm.trans hpc')
      refine ⟨Or.inl ⟨done ++ [(reg, value)], rest, by simpa using hwrites, rfl, ?_⟩, rfl,
        fun hready => absurd rfl (hready.pc rest)⟩
      intro u' hu'
      obtain ⟨u, hu, rfl⟩ := Option.map_eq_some_iff.mp hu'
      exact InInit.outb hwrites (huart u hu).1 (huart u hu).2
    · obtain rfl := SerialPc.init.inj (hpc.symm.trans hpc')
      rw [List.append_nil] at hwrites
      subst hwrites
      have hempty : ∀ u ∈ s.uart, u.fifo = [] := fun u hu => (huart u hu).2 (by decide)
      refine ⟨Or.inr ⟨by simp, ?_, fun u hu => (huart u hu).1, ?_, by simp⟩, rfl, fun _ => rfl⟩
      · have hinb := inb_eq_iff s
        cases hsome : s.uart.isSome <;> simp_all
      · intro u hu
        simp [hempty u hu]
    · cases hpc.symm.trans hpc'
    · cases hpc.symm.trans hpc'
  | putchar ch => cases hpc.symm.trans hstep.putchar_eq.1
  | load | transmit =>
    obtain ⟨u, u', hu, rfl, hregs, -, hlength⟩ := step_device (by simp) hstep
    refine ⟨Or.inl ⟨done, rest, hwrites, hpc, ?_⟩, rfl, fun hready => absurd hpc (hready.pc rest)⟩
    rintro v hv
    obtain rfl := Option.some.inj hv
    refine ⟨hregs.trans (huart u hu).1, fun hsix => ?_⟩
    have hfifo := (huart u hu).2 hsix
    rw [hfifo] at hlength
    exact List.length_eq_zero_iff.mp (Nat.le_zero.mp hlength)

/-! ### Output -/

/-- What the line shows of some characters. -/
def shown (text : List ℕ) : List ℕ := text.map (· % 128)

theorem Ready.dlab (h : Ready regs s) {u : Uart} (hu : u ∈ s.uart) : u.regs.dlab = false := by
  rw [h.configured u hu, outbs_serialInitWrites]
  change Nat.testBit 2 7 = false
  decide

theorem Ready.word (h : Ready regs s) {u : Uart} (hu : u ∈ s.uart) (ch : ℕ) :
    u.regs.word ch = ch % 128 := by
  rw [h.configured u hu, outbs_serialInitWrites]
  rfl

/-- The poll of a device that is there ends only when the queue is empty. -/
theorem transmitEmpty_ne_zero {u : Uart} (hu : u ∈ s.uart) (hempty : s.transmitEmpty ≠ 0) : u.fifo = [] := by
  by_contra hne
  have hstatus : s.inb = u.lineStatus := by
    rw [inb, Option.mem_def.mp hu]
    rfl
  exact hempty (by rw [transmitEmpty, hstatus, (Uart.lineStatus_and u).mpr hne])

/-- **A step after `serial_init`**, of the processor or the device, leaves the port ready. -/
theorem Ready.step (h : Ready regs s) (hstep : Step s e s') : Ready regs s' := by
  cases e with
  | run =>
    rcases hstep.run_cases with ⟨_, _, rest, hpc, -⟩ | ⟨hpc, -⟩ | ⟨data, hpc, rfl⟩ | ⟨data, hpc, rfl⟩
    · exact absurd hpc (h.pc _)
    · exact absurd hpc (h.pc _)
    · refine ⟨fun rest => ?_, h.ok, h.configured, h.length_le, fun u hu data' hout => ?_⟩
      · dsimp only
        split <;> simp
      · dsimp only at hout
        split at hout
        · cases hout
        · next hempty => exact transmitEmpty_ne_zero hu hempty
    · refine ⟨by simp, by simpa using h.ok, ?_, ?_, by simp⟩
      · intro u' hu'
        obtain ⟨u, hu, rfl⟩ := Option.map_eq_some_iff.mp hu'
        simpa [UartRegs.outb, h.dlab hu] using h.configured u hu
      · intro u' hu'
        obtain ⟨u, hu, rfl⟩ := Option.map_eq_some_iff.mp hu'
        have hfifo := h.empty u hu data hpc
        simp only [Uart.outb_fifo, Uart.outbFifo, h.dlab hu, hfifo]
        grind
  | putchar ch =>
    obtain ⟨hpc, rfl⟩ := hstep.putchar_eq
    refine ⟨fun rest => ?_, by simpa using h.ok, by simpa using h.configured, by simpa using h.length_le,
      fun u hu data hout => ?_⟩
    · rw [kputchar_pc, hpc]
      split <;> simp
    · rw [kputchar_pc, hpc] at hout
      split at hout <;> cases hout
  | load | transmit =>
    obtain ⟨u, u', hu, rfl, hregs, -, hlength⟩ := step_device (by simp) hstep
    refine ⟨h.pc, by simpa [hu] using h.ok, ?_, ?_, ?_⟩
    · rintro v hv
      obtain rfl := Option.some.inj hv
      exact hregs.trans (h.configured u hu)
    · rintro v hv
      obtain rfl := Option.some.inj hv
      exact hlength.trans (h.length_le u hu)
    · rintro v hv data hout
      obtain rfl := Option.some.inj hv
      rw [h.empty u hu data hout] at hlength
      exact List.length_eq_zero_iff.mp (Nat.le_zero.mp hlength)

/-- Everything that `kputchar` has been called with is on its way, or has arrived. -/
def Accounted (old : List ℕ) (s : Serial) : Prop :=
  ∀ u ∈ s.uart, u.output ++ shown s.pc.pending = old ++ shown s.asked

/-- **What is accounted for stays so**: a step loses no character, and doubles none. -/
theorem Ready.accounted_step {old : List ℕ} (h : Ready regs s) (hold : Accounted old s)
    (hstep : Step s e s') : Accounted old s' := by
  cases e with
  | run =>
    rcases hstep.run_cases with ⟨_, _, rest, hpc, -⟩ | ⟨hpc, -⟩ | ⟨data, hpc, rfl⟩ | ⟨data, hpc, rfl⟩
    · exact absurd hpc (h.pc _)
    · exact absurd hpc (h.pc _)
    · have hpending : (if s.transmitEmpty = 0 then SerialPc.poll data else .out data).pending = [data] := by
        split <;> rfl
      have hpoll : s.pc.pending = [data] := by rw [hpc]; rfl
      unfold Accounted at hold ⊢
      simpa only [hpending, hpoll] using hold
    · intro u' hu'
      obtain ⟨u, hu, rfl⟩ := Option.map_eq_some_iff.mp hu'
      have hout := Uart.output_outb (h.dlab hu) (h.empty u hu data hpc) data
      rw [h.word hu] at hout
      have hsum := hold u hu
      rw [hpc] at hsum
      simpa [hout, SerialPc.pending, shown] using hsum
  | putchar ch =>
    obtain ⟨hpc, rfl⟩ := hstep.putchar_eq
    intro u hu
    have hu : u ∈ s.uart := by simpa using hu
    have hok : s.serialOk = true := by rw [h.ok, Option.mem_def.mp hu, Option.isSome_some]
    have hmod : ch % 256 % 128 = ch % 128 := by omega
    have hsum := hold u hu
    rw [hpc] at hsum
    simp only [SerialPc.pending, shown, List.map_nil, List.append_nil] at hsum
    simp [hok, SerialPc.pending, shown, hmod, hsum]
  | load | transmit =>
    obtain ⟨u, u', hu, rfl, -, hout, -⟩ := step_device (by simp) hstep
    rintro v hv
    obtain rfl := Option.some.inj hv
    rw [hout]
    exact hold u hu

/-! ### The device keeps going -/

/-- How many steps the device has to do. -/
def left (s : Serial) : ℕ := (s.uart.map fun u => 2 * u.fifo.length + u.shift.toList.length).getD 0

theorem left_device (he : e = .load ∨ e = .transmit) (hstep : Step s e s') : s'.left + 1 = s.left := by
  rcases he with rfl | rfl
  · obtain ⟨u', hu', rfl⟩ := Option.map_eq_some_iff.mp hstep
    obtain ⟨u, hu, hload⟩ := Option.bind_eq_some_iff.mp hu'
    obtain ⟨ch, rest, hshift, hfifo, rfl⟩ := Uart.load_eq_some hload
    simp [left, hu, hshift, hfifo]
    omega
  · obtain ⟨u', hu', rfl⟩ := Option.map_eq_some_iff.mp hstep
    obtain ⟨u, hu, htransmit⟩ := Option.bind_eq_some_iff.mp hu'
    obtain ⟨ch, hshift, rfl⟩ := Uart.transmit_eq_some htransmit
    simp [left, hu, hshift]

theorem Ready.left_le (h : Ready regs s) : s.left ≤ 3 := by
  cases huart : s.uart with
  | none => simp [left, huart]
  | some u =>
    have hfifo := h.length_le u huart
    have hshift : u.shift.toList.length ≤ 1 := by cases u.shift <;> simp
    simp only [left, huart, Option.map_some, Option.getD_some]
    omega

/-- While a poll fails the device has something to do. -/
theorem device_of_transmitEmpty (hempty : s.transmitEmpty = 0) :
    (s.step .load).isSome = true ∨ (s.step .transmit).isSome = true := by
  cases huart : s.uart with
  | none => simp [transmitEmpty, inb, huart] at hempty
  | some u =>
    simp only [transmitEmpty, inb, huart, Option.map_some, Option.getD_some] at hempty
    have hfifo := (Uart.lineStatus_and u).mp hempty
    cases hshift : u.shift with
    | some ch => exact Or.inr (by simp [Serial.step, huart, Uart.transmit, hshift])
    | none =>
      obtain ⟨ch, rest, hcons⟩ := List.exists_cons_of_ne_nil hfifo
      exact Or.inl (by simp [Serial.step, huart, Uart.load, hshift, hcons])

theorem isSome_step (hstep : Step s e s') : s'.uart.isSome = s.uart.isSome := by
  cases e with
  | run =>
    rcases hstep.run_cases with ⟨_, _, _, -, rfl⟩ | ⟨-, rfl⟩ | ⟨_, -, rfl⟩ | ⟨_, -, rfl⟩ <;> simp
  | putchar ch =>
    obtain ⟨-, rfl⟩ := hstep.putchar_eq
    simp
  | load | transmit =>
    obtain ⟨u, u', hu, rfl, -⟩ := step_device (by simp) hstep
    simp [hu]

end Serial

/-! ### Runs -/

section Run

open Serial Trace

variable {s t : Serial} {l : List (SerialEvent × Serial)} {regs : UartRegs}

/-- In every run from `serial_init` on, the port is ready where `serial_init` is over. -/
theorem ready_of_run (hrun : Run Serial.Step s l) (hinit : InInit regs s) (ht : t ∈ states s l)
    (hpc : ∀ rest, t.pc ≠ .init rest) : Ready regs t := by
  have hinv := always (I := fun t => InInit regs t ∨ Ready regs t)
    (fun hinv hstep => hinv.elim (fun h => (h.step hstep).1) (fun h => Or.inr (h.step hstep)))
    hrun (Or.inl hinit) t ht
  refine hinv.resolve_left ?_
  rintro ⟨_, rest, -, hrest, -⟩
  exact hpc rest hrest

/-- At the start of `serial_init` the registers are those that it finds. -/
theorem inInit_start (hpc : s.pc = .init serialInitWrites) :
    ∃ regs, InInit regs s ∧ ∀ u ∈ s.uart, u.regs = regs := by
  cases huart : s.uart with
  | none => exact ⟨⟨0, 0, 0, false, 0, 0⟩, ⟨[], _, rfl, hpc, by simp [huart]⟩, by simp⟩
  | some u => exact ⟨u.regs, ⟨[], _, rfl, hpc, by simp [huart, UartRegs.outbs]⟩, by simp⟩

/-- **What `serial_init` does,** in whatever state it finds the device and whatever that does meanwhile. It
finds out whether there is a device. The divisor, the word and the queue are as they should be. The device's
interrupts are off, unless port 1 was the divisor when it wrote there to turn them off: then they stay as
they were. -/
theorem configured_of_run (hrun : Run Serial.Step s l) (hpc : s.pc = .init serialInitWrites) :
    ∀ t ∈ states s l, (∀ rest, t.pc ≠ .init rest) →
      t.serialOk = s.uart.isSome ∧ ∀ u₀ ∈ s.uart, ∀ u ∈ t.uart,
        u.regs = { dll := 3, dlm := 0, ier := if u₀.regs.dlab then u₀.regs.ier else 0, fifoEnable := true,
                   lcr := 2, mcr := 0x0B } := by
  intro t ht hdone
  obtain ⟨regs, hinit, hregs⟩ := inInit_start hpc
  have hready := ready_of_run hrun hinit ht hdone
  have hsome := always (I := fun t => t.uart.isSome = s.uart.isSome)
    (fun h hstep => (isSome_step hstep).trans h) hrun rfl t ht
  refine ⟨hready.ok.trans hsome, fun u₀ hu₀ u hu => ?_⟩
  rw [hready.configured u hu, hregs u₀ hu₀, outbs_serialInitWrites]

/-- The device before `serial_init`, in the middle of a character, with another one behind it, and with port 1
as the divisor. -/
def serialStart : Serial :=
  { uart := some ⟨⟨12, 0, 5, true, 0x83, 0⟩, [66], some 65, []⟩
    pc := .init serialInitWrites
    serialOk := false
    asked := [] }

/-- `serial_init` while the device goes on, a character, and a second one that has to wait. -/
def serialEvents : List SerialEvent :=
  [.run, .run, .transmit, .run, .load, .run, .run, .run, .run, .run, .putchar 0x148, .run, .run,
    .putchar 0x69]

/-- The device sends what is in its shift register, and takes the first character. -/
def waitEvents : List SerialEvent := [.run, .transmit, .run, .load]

theorem configured_of_run_serialEvents :
    ∃ l, Trace.exec Serial.step serialStart serialEvents = some l ∧
      ∀ t ∈ states serialStart l, (∀ rest, t.pc ≠ .init rest) →
        t.serialOk = serialStart.uart.isSome ∧ ∀ u₀ ∈ serialStart.uart, ∀ u ∈ t.uart,
          u.regs = { dll := 3, dlm := 0, ier := if u₀.regs.dlab then u₀.regs.ier else 0,
                     fifoEnable := true, lcr := 2, mcr := 0x0B } := by
  obtain ⟨l, hl⟩ := Option.isSome_iff_exists.mp
    (by decide +kernel : (Trace.exec Serial.step serialStart serialEvents).isSome = true)
  exact ⟨l, hl, configured_of_run (run_of_exec hl) rfl⟩

/-- **The serial port loses nothing.** After `serial_init` there are fixed characters, from before, and in
every state after them there are those that `kputchar` has been called with, 7 bits of each, in this order:
first what is on the line, then what is in the device, then what is not written yet. -/
theorem line_of_run (hrun : Run Serial.Step s l) (hpc : s.pc = .init serialInitWrites)
    (hasked : s.asked = []) :
    ∃ old, ∀ t ∈ states s l, (∀ rest, t.pc ≠ .init rest) → ∀ u ∈ t.uart,
      u.line ++ shown (u.shift.toList ++ u.fifo ++ t.pc.pending) = old ++ shown t.asked := by
  obtain ⟨regs, hinit, -⟩ := inInit_start hpc
  clear hpc
  suffices hsuff : ∃ old, ∀ t ∈ states s l, (∀ rest, t.pc ≠ .init rest) → Accounted old t by
    obtain ⟨old, hold⟩ := hsuff
    refine ⟨old, fun t ht hdone u hu => ?_⟩
    have hready := ready_of_run hrun hinit ht hdone
    have hword : u.regs.word = (· % 128) := funext fun ch => hready.word hu ch
    have hsum := hold t ht hdone u hu
    rw [Uart.output, hword] at hsum
    simpa [shown] using hsum
  induction hrun with
  | nil s =>
    refine ⟨[], fun t ht hdone => ?_⟩
    obtain rfl := List.mem_singleton.mp ht
    obtain ⟨_, rest, -, hrest, -⟩ := hinit
    exact absurd hrest (hdone rest)
  | @cons s s' e l hstep hrest ih =>
    obtain ⟨hor, hasked', hidle⟩ := hinit.step hstep
    have hstart : ∀ {P : Prop}, (∀ rest, s.pc ≠ .init rest) → P := by
      obtain ⟨_, rest, -, hrest, -⟩ := hinit
      exact fun hdone => absurd hrest (hdone rest)
    rcases hor with hinit' | hready
    · obtain ⟨old, hold⟩ := ih (hasked'.trans hasked) hinit'
      refine ⟨old, fun t ht hdone => ?_⟩
      rcases mem_states_cons.mp ht with rfl | ht
      · exact hstart hdone
      · exact hold t ht hdone
    · -- `serial_init` ends here: what is in the device now is from before
      refine ⟨(s'.uart.map Uart.output).getD [], fun t ht hdone => ?_⟩
      rcases mem_states_cons.mp ht with rfl | ht
      · exact hstart hdone
      · refine (always (I := fun t => Ready regs t ∧ Accounted ((s'.uart.map Uart.output).getD []) t)
          (fun h hstep => ⟨h.1.step hstep, h.1.accounted_step h.2 hstep⟩) hrest ⟨hready, ?_⟩ t ht).2
        intro u hu
        simp [hasked', hasked, hidle hready, Option.mem_def.mp hu, SerialPc.pending, shown]

theorem line_of_run_serialEvents :
    ∃ l, Trace.exec Serial.step serialStart serialEvents = some l ∧
      ∃ old, ∀ t ∈ states serialStart l, (∀ rest, t.pc ≠ .init rest) → ∀ u ∈ t.uart,
        u.line ++ shown (u.shift.toList ++ u.fifo ++ t.pc.pending) = old ++ shown t.asked := by
  obtain ⟨l, hl⟩ := Option.isSome_iff_exists.mp
    (by decide +kernel : (Trace.exec Serial.step serialStart serialEvents).isSome = true)
  exact ⟨l, hl, line_of_run (run_of_exec hl) rfl rfl⟩

/-- **`serial_write_com` does not wait forever.** While it waits, the device takes three steps at most; and it
can take one, as long as the poll fails. -/
theorem poll_ends {s₀ : Serial} {l₀ : List (SerialEvent × Serial)} {data : ℕ}
    (hrun₀ : Run Serial.Step s₀ l₀) (hpc₀ : s₀.pc = .init serialInitWrites) (hs : s ∈ states s₀ l₀)
    (hrun : Run Serial.Step s l) (hwait : ∀ t ∈ states s l, t.pc = .poll data) :
    (l.filter fun p => p.1 ≠ .run).length ≤ 3 ∧
      ∀ t ∈ states s l, t.transmitEmpty = 0 →
        (t.step .load).isSome = true ∨ (t.step .transmit).isSome = true := by
  refine ⟨?_, fun t _ hempty => device_of_transmitEmpty hempty⟩
  obtain ⟨regs, hinit, -⟩ := inInit_start hpc₀
  have hpc := hwait s (self_mem_states s l)
  have hready := ready_of_run hrun₀ hinit hs (by simp [hpc])
  refine le_trans ?_ hready.left_le
  clear hrun₀ hinit hs hready hpc
  induction hrun with
  | nil s => simp
  | @cons s s' e l hstep hrest ih =>
    have hpc := hwait s (self_mem_states _ _)
    have ih := ih fun t ht => hwait t (mem_states_cons.mpr (Or.inr ht))
    cases e with
    | run =>
      have hleft : s'.left = s.left := by
        rcases hstep.run_cases with ⟨_, _, _, hpc', -⟩ | ⟨hpc', -⟩ | ⟨_, -, rfl⟩ | ⟨_, hpc', -⟩
        · cases hpc.symm.trans hpc'
        · cases hpc.symm.trans hpc'
        · rfl
        · cases hpc.symm.trans hpc'
      simpa [hleft] using ih
    | putchar ch => cases hpc.symm.trans hstep.putchar_eq.1
    | load | transmit =>
      have hleft := left_device (by simp) hstep
      rw [List.filter_cons_of_pos (by simp), List.length_cons]
      omega

theorem poll_ends_waitEvents :
    ∃ l₀ l t, Trace.exec Serial.step serialStart serialEvents = some l₀ ∧ t ∈ states serialStart l₀ ∧
      Trace.exec Serial.step t waitEvents = some l ∧
      (l.filter fun p => p.1 ≠ .run).length ≤ 3 ∧
        ∀ t' ∈ states t l, t'.transmitEmpty = 0 →
          (t'.step .load).isSome = true ∨ (t'.step .transmit).isSome = true := by
  obtain ⟨l₀, hl₀, t, ht, l, hl, hwait⟩ : ∃ l₀, Trace.exec Serial.step serialStart serialEvents = some l₀ ∧
      ∃ t ∈ states serialStart l₀, ∃ l, Trace.exec Serial.step t waitEvents = some l ∧
        ∀ t' ∈ states t l, t'.pc = .poll 0x69 :=
    ⟨(Trace.exec Serial.step serialStart serialEvents).getD [], by decide +kernel,
      ((Trace.exec Serial.step serialStart serialEvents).getD []).getLastD (.run, serialStart) |>.2,
      by decide +kernel,
      (Trace.exec Serial.step
        (((Trace.exec Serial.step serialStart serialEvents).getD []).getLastD (.run, serialStart)).2
        waitEvents).getD [],
      by decide +kernel, by decide +kernel⟩
  exact ⟨l₀, l, t, hl₀, ht, hl, poll_ends (run_of_exec hl₀) rfl ht (run_of_exec hl) hwait⟩

end Run

end GeekToyOS
