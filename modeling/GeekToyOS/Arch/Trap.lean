import Mathlib

/-!
# Interrupt entry and exit

`trap.S` on `x86_64`: the stubs `isr_*`, `interrupt_common`, and `interrupt_handler` of
`src/kernel/interrupt.c` in between, with `struct cpu_context` as the handler sees it.

There are three kinds of stubs. `isr_err` and `isr_noerr` leave an error code under the number of the
vector, pushed by the processor or by the stub; `isr_irq` leaves none. All go on with `interrupt_common`,
which drops one word before `iretq`.

Memory is the word at each address, since the stack is aligned. A handler is what it makes of the machine
from the `call` to the return; it may be interrupted itself, as long as it returns with its frame as it
was.

## Main definitions

* `Machine`, `Insn`, `run` — the registers, the stack, and the few instructions that `trap.S` uses
* `deliver` — what the processor does with an interrupt
* `CpuContext.ofStack` — `struct cpu_context`
* `InterruptTransparent` — the handler sees the interrupted state, and it is restored
* `Coincide` — some words on the stack happen to be equal

## Main results

* `word_pushAll` — the stack holds what was pushed, the last word first
* `shows_exception`, `context_irq` — what the handler sees: the state, or the state one word off
* `resumed_eq` — what `iretq` restores: the state one word off, or the state
* `interruptTransparent_iff` — entry and exit are transparent exactly by coincidence
* `not_coincide_of_high` — and never in the upper half of the address space
-/

namespace GeekToyOS

/-- The general registers, but for the stack pointer. -/
inductive Reg
  | rax | rbx | rcx | rdx | rsi | rdi | rbp
  | r8 | r9 | r10 | r11 | r12 | r13 | r14 | r15
deriving DecidableEq, Repr

structure Machine where
  reg : Reg → BitVec 64
  rsp : BitVec 64
  rip : BitVec 64
  cs : BitVec 64
  rflags : BitVec 64
  ss : BitVec 64
  mem : BitVec 64 → BitVec 64

namespace Machine

/-- The word on the stack, with `i` others on top of it. -/
def word (s : Machine) (i : ℕ) : BitVec 64 := s.mem (s.rsp + BitVec.ofNat 64 (8 * i))

def push (s : Machine) (w : BitVec 64) : Machine :=
  { s with rsp := s.rsp - 8, mem := Function.update s.mem (s.rsp - 8) w }

def pushAll (s : Machine) (ws : List (BitVec 64)) : Machine := ws.foldl push s

def setReg (s : Machine) (r : Reg) (w : BitVec 64) : Machine :=
  { s with reg := Function.update s.reg r w }

/-- `addq $8, %rsp`, `n` times. -/
def drop (s : Machine) (n : ℕ) : Machine := { s with rsp := s.rsp + BitVec.ofNat 64 (8 * n) }

end Machine

/-- The instructions of `trap.S`, but for the `call`. -/
inductive Insn
  | pushImm (no : ℕ)
  | push (r : Reg)
  | pop (r : Reg)
  /-- `mov %rsp, %rdi` -/
  | movRspRdi
  /-- `addq $8, %rsp` -/
  | addRsp
  | iretq
deriving DecidableEq, Repr

def exec (s : Machine) : Insn → Machine
  | .pushImm no => s.push (BitVec.ofNat 64 no)
  | .push r => s.push (s.reg r)
  | .pop r => (s.setReg r (s.word 0)).drop 1
  | .movRspRdi => s.setReg .rdi s.rsp
  | .addRsp => s.drop 1
  | .iretq =>
    { s with rip := s.word 0, cs := s.word 1, rflags := s.word 2, rsp := s.word 3, ss := s.word 4 }

def run (s : Machine) (l : List Insn) : Machine := l.foldl exec s

/-! ### `trap.S` -/

def isrErr (no : ℕ) : List Insn := [.pushImm no]

def isrNoerr (no : ℕ) : List Insn := [.pushImm 0, .pushImm no]

def isrIrq (no : ℕ) : List Insn := [.pushImm no]

/-- The table `isr_func`, a stub for each vector. -/
def isrFunc (no : ℕ) : List Insn :=
  if 32 ≤ no then isrIrq no
  else if no ∈ [8, 10, 11, 12, 13, 14, 17] then isrErr no
  else isrNoerr no

/-- The registers in the order of the `pushq`s. -/
def pushOrder : List Reg :=
  [.rdi, .rsi, .rdx, .rcx, .rax, .r8, .r9, .r10, .r11, .rbx, .rbp, .r12, .r13, .r14, .r15]

/-- The registers in the order of the `popq`s. -/
def popOrder : List Reg :=
  [.r15, .r14, .r13, .r12, .rbp, .rbx, .r11, .r10, .r9, .r8, .rax, .rcx, .rdx, .rsi, .rdi]

/-- `interrupt_common` up to the `call`. -/
def commonEntry : List Insn := pushOrder.map .push ++ [.movRspRdi]

/-- `interrupt_common` from the `call` on. -/
def commonExit : List Insn := popOrder.map .pop ++ [.addRsp, .iretq]

/-! ### The processor -/

/-- The exceptions with an error code. -/
def HasErrorCode (no : ℕ) : Prop := no ∈ [8, 10, 11, 12, 13, 14, 17]

instance (no : ℕ) : Decidable (HasErrorCode no) := inferInstanceAs (Decidable (_ ∈ _))

/-- The stack of an interrupt: its own, if the gate names one, else the one in use, aligned. -/
def stackTop (ist : ℕ → Option (BitVec 64)) (no : ℕ) (s : Machine) : BitVec 64 :=
  ((ist no).getD s.rsp) &&& ~~~ 15

/-- An interrupt comes: the processor pushes the state, and for some exceptions an error code. -/
def deliver (ist : ℕ → Option (BitVec 64)) (no : ℕ) (err : BitVec 64) (s : Machine) : Machine :=
  { s with rsp := stackTop ist no s }.pushAll
    ([s.ss, s.rsp, s.rflags, s.cs, s.rip] ++ if HasErrorCode no then [err] else [])

/-! ### The handlers -/

/-- `struct cpu_context`. -/
structure CpuContext where
  r15 : BitVec 64
  r14 : BitVec 64
  r13 : BitVec 64
  r12 : BitVec 64
  rbp : BitVec 64
  rbx : BitVec 64
  r11 : BitVec 64
  r10 : BitVec 64
  r9 : BitVec 64
  r8 : BitVec 64
  rax : BitVec 64
  rcx : BitVec 64
  rdx : BitVec 64
  rsi : BitVec 64
  rdi : BitVec 64
  intNo : BitVec 64
  errCode : BitVec 64
  ip : BitVec 64
  cs : BitVec 64
  rflags : BitVec 64
  sp : BitVec 64
  ss : BitVec 64
deriving DecidableEq, Repr

namespace CpuContext

/-- The context at the top of the stack, which is what `%rdi` points to. -/
def ofStack (s : Machine) : CpuContext :=
  ⟨s.word 0, s.word 1, s.word 2, s.word 3, s.word 4, s.word 5, s.word 6, s.word 7, s.word 8, s.word 9,
    s.word 10, s.word 11, s.word 12, s.word 13, s.word 14, s.word 15, s.word 16, s.word 17, s.word 18,
    s.word 19, s.word 20, s.word 21⟩

/-- The field of a register. -/
def general (c : CpuContext) : Reg → BitVec 64
  | .rax => c.rax
  | .rbx => c.rbx
  | .rcx => c.rcx
  | .rdx => c.rdx
  | .rsi => c.rsi
  | .rdi => c.rdi
  | .rbp => c.rbp
  | .r8 => c.r8
  | .r9 => c.r9
  | .r10 => c.r10
  | .r11 => c.r11
  | .r12 => c.r12
  | .r13 => c.r13
  | .r14 => c.r14
  | .r15 => c.r15

end CpuContext

/-- A function that is called with the frame at the top of the stack, and returns with it unchanged. -/
structure TrapHandler where
  call : Machine → Machine
  rsp_call : ∀ s, (call s).rsp = s.rsp
  word_call : ∀ s, ∀ i < 22, (call s).word i = s.word i

/-- `struct isr_info`. -/
structure IsrInfo where
  /-- the type is `ISR_IRQ` -/
  irq : Bool
  handler : Option TrapHandler

namespace TrapHandler

/-- Nothing to do. -/
def skip : TrapHandler := ⟨id, fun _ => rfl, fun _ _ _ => rfl⟩

/-- One function after the other. -/
def andThen (g h : TrapHandler) : TrapHandler where
  call s := h.call (g.call s)
  rsp_call s := (h.rsp_call _).trans (g.rsp_call s)
  word_call s i hi := (h.word_call _ i hi).trans (g.word_call s i hi)

end TrapHandler

/-- `interrupt_handler`. -/
def interruptHandler (interruptEoi : BitVec 64 → TrapHandler) (interruptHandlers : BitVec 64 → IsrInfo) :
    TrapHandler where
  call s :=
    let intNo := (CpuContext.ofStack s).intNo
    let info := interruptHandlers intNo
    ((if info.irq then interruptEoi intNo else .skip).andThen (info.handler.getD .skip)).call s
  rsp_call s := TrapHandler.rsp_call _ s
  word_call s := TrapHandler.word_call _ s

section Interrupt

variable (ist : ℕ → Option (BitVec 64)) (no : ℕ) (err : BitVec 64) (s : Machine)

/-- The machine when `interrupt_handler` is called. -/
def atCall : Machine := run (run (deliver ist no err s) (isrFunc no)) commonEntry

/-- The machine behind `iretq`. -/
def resumed (h : TrapHandler) : Machine := run (h.call (atCall ist no err s)) commonExit

/-! ### What is to hold -/

/-- The context shows the interrupted state. -/
structure Shows (c : CpuContext) : Prop where
  intNo : c.intNo = BitVec.ofNat 64 no
  general : ∀ r, c.general r = s.reg r
  ip : c.ip = s.rip
  cs : c.cs = s.cs
  rflags : c.rflags = s.rflags
  sp : c.sp = s.rsp
  ss : c.ss = s.ss

/-- The interrupted computation goes on as it was. -/
structure Restores (s' : Machine) : Prop where
  reg : s'.reg = s.reg
  rip : s'.rip = s.rip
  rsp : s'.rsp = s.rsp
  rflags : s'.rflags = s.rflags

/-- **Entry and exit are transparent**: the handler sees the interrupted state, and whatever it does
apart from its frame, that state is restored. -/
def InterruptTransparent : Prop :=
  Shows no s (CpuContext.ofStack (atCall ist no err s)) ∧
    ∀ interruptEoi interruptHandlers,
      Restores s (resumed ist no err s (interruptHandler interruptEoi interruptHandlers))

/-- The error code that lies on the stack. -/
def errorCode : BitVec 64 := if HasErrorCode no then err else 0

/-- **Words on the stack happen to be equal**: the two words that an exception restores in the place of
each other, or the ones that an interrupt shows so. -/
def Coincide : Prop :=
  if no < 32 then errorCode no err = s.rip ∧ s.cs = s.rflags ∧ s.rflags = s.rsp
  else s.cs = s.rip ∧ s.rflags = s.cs ∧ s.rsp = s.rflags ∧ s.ss = s.rsp ∧
    s.mem (stackTop ist no s) = s.ss

end Interrupt

/-! ### The stack -/

namespace Machine

variable {s : Machine} {w : BitVec 64} {i : ℕ}

theorem word_push_zero : (s.push w).word 0 = w := by
  rw [word, push, Nat.mul_zero, BitVec.ofNat_eq_ofNat]
  simp

theorem word_push_succ (hi : i < 2 ^ 32) : (s.push w).word (i + 1) = s.word i := by
  have haddr : s.rsp - 8 + BitVec.ofNat 64 (8 * (i + 1)) = s.rsp + BitVec.ofNat 64 (8 * i) := by
    rw [Nat.mul_add, BitVec.ofNat_add]
    bv_omega
  have hne : s.rsp + BitVec.ofNat 64 (8 * i) ≠ s.rsp - 8 := by
    bv_omega
  rw [word, push, word]
  dsimp only
  rw [haddr, Function.update_of_ne hne]

theorem word_drop (n : ℕ) : (s.drop n).word i = s.word (n + i) := by
  rw [word, drop, word, Nat.mul_add, BitVec.ofNat_add, BitVec.add_assoc]

@[simp] theorem word_setReg (r : Reg) : (s.setReg r w).word i = s.word i := rfl

/-- **The stack holds what was pushed**, the last word first. -/
theorem word_pushAll (ws : List (BitVec 64)) (hi : i < 2 ^ 31) (hlen : ws.length < 2 ^ 31) :
    (s.pushAll ws).word i =
      if i < ws.length then ws.reverse.getD i 0 else s.word (i - ws.length) := by
  induction ws generalizing s with
  | nil => rw [pushAll, List.foldl_nil, List.length_nil, if_neg (by omega), Nat.sub_zero]
  | cons w ws ih =>
    rw [List.length_cons] at hlen
    have hrest := ih (s := s.push w) (by omega)
    rw [pushAll] at hrest
    rw [pushAll, List.foldl_cons, hrest, List.length_cons, List.reverse_cons]
    rcases Nat.lt_trichotomy i ws.length with h | h | h
    · rw [if_pos h, if_pos (by omega), List.getD_append _ _ _ _ (by simpa using h)]
    · rw [if_neg (by omega), if_pos (by omega), List.getD_append_right _ _ _ _ (by simp [h])]
      simp [h, word_push_zero]
    · obtain ⟨k, hk⟩ : ∃ k, i - ws.length = k + 1 := ⟨i - ws.length - 1, by omega⟩
      rw [if_neg (by omega), if_neg (by omega), hk, word_push_succ (by omega)]
      congr 1
      omega

/-- Pushing changes the stack pointer and memory, and nothing else. -/
theorem pushAll_eq (ws : List (BitVec 64)) : ∃ rsp mem, s.pushAll ws = { s with rsp := rsp, mem := mem } := by
  induction ws generalizing s with
  | nil => exact ⟨s.rsp, s.mem, rfl⟩
  | cons w ws ih =>
    obtain ⟨rsp, mem, h⟩ := ih (s := s.push w)
    exact ⟨rsp, mem, h⟩

theorem reg_pushAll (ws : List (BitVec 64)) : (s.pushAll ws).reg = s.reg := by
  obtain ⟨rsp, mem, h⟩ := s.pushAll_eq ws
  rw [h]

theorem pushAll_append (ws ws' : List (BitVec 64)) :
    s.pushAll (ws ++ ws') = (s.pushAll ws).pushAll ws' := List.foldl_append ..

end Machine

section Run

variable {s : Machine}

theorem run_append (l l' : List Insn) : run s (l ++ l') = run (run s l) l' := List.foldl_append ..

theorem run_push (L : List Reg) : run s (L.map .push) = s.pushAll (L.map s.reg) := by
  induction L generalizing s with
  | nil => rfl
  | cons r L ih =>
    rw [List.map_cons, List.map_cons, run, List.foldl_cons, ← run, ih]
    rfl

/-- Popping registers in the opposite order undoes pushing them. -/
theorem run_pop (L : List Reg) (hL : L.Nodup) :
    (∀ i, (run s (L.map .pop)).word i = s.word (L.length + i)) ∧
      (∀ r ∈ L, (run s (L.map .pop)).reg r = s.word (L.idxOf r)) ∧
      ∀ r ∉ L, (run s (L.map .pop)).reg r = s.reg r := by
  induction L generalizing s with
  | nil => exact ⟨fun i => by rw [List.length_nil, Nat.zero_add]; rfl, by simp, fun _ _ => rfl⟩
  | cons r L ih =>
    obtain ⟨hr, hL⟩ := List.nodup_cons.mp hL
    obtain ⟨hword, hmem, hnot⟩ := ih (s := (s.setReg r (s.word 0)).drop 1) hL
    have hrun : run s ((r :: L).map .pop) = run ((s.setReg r (s.word 0)).drop 1) (L.map .pop) := rfl
    refine ⟨fun i => ?_, fun r' hr' => ?_, fun r' hr' => ?_⟩
    · rw [hrun, hword, Machine.word_drop, Machine.word_setReg, List.length_cons]
      congr 1
      omega
    · rw [hrun]
      by_cases heq : r' = r
      · subst heq
        rw [hnot r' hr, List.idxOf_cons_self]
        exact Function.update_self ..
      · rw [hmem r' ((List.mem_cons.mp hr').resolve_left heq), Machine.word_drop,
          Machine.word_setReg, List.idxOf_cons_ne _ (Ne.symm heq), Nat.add_comm]
    · obtain ⟨hne, hr'⟩ := not_or.mp (mt List.mem_cons.mpr hr')
      rw [hrun, hnot r' hr']
      exact Function.update_of_ne hne ..

end Run

/-! ### Entry -/

section Entry

variable (ist : ℕ → Option (BitVec 64)) (no : ℕ) (err : BitVec 64) (s : Machine)

/-- The words that processor, stub and `interrupt_common` push. -/
def pushed (no : ℕ) (err : BitVec 64) (s : Machine) : List (BitVec 64) :=
  [s.ss, s.rsp, s.rflags, s.cs, s.rip] ++
    ((if no < 32 then [errorCode no err] else []) ++ ([BitVec.ofNat 64 no] ++ pushOrder.map s.reg))

theorem atCall_eq :
    ∃ t, atCall ist no err s = t.setReg .rdi t.rsp ∧
      t = { s with rsp := stackTop ist no s }.pushAll (pushed no err s) := by
  refine ⟨_, ?_, rfl⟩
  have hstub : run (deliver ist no err s) (isrFunc no) =
      { s with rsp := stackTop ist no s }.pushAll ([s.ss, s.rsp, s.rflags, s.cs, s.rip] ++
        ((if no < 32 then [errorCode no err] else []) ++ [BitVec.ofNat 64 no])) := by
    rw [deliver, isrFunc, Machine.pushAll_append, Machine.pushAll_append]
    rcases Nat.lt_or_ge no 32 with hno | hno
    · by_cases hc : HasErrorCode no
      · rw [if_pos hc, if_neg (show ¬ 32 ≤ no by omega),
          if_pos (show no ∈ [8, 10, 11, 12, 13, 14, 17] from hc), if_pos hno, errorCode, if_pos hc]
        rfl
      · rw [if_neg hc, if_neg (show ¬ 32 ≤ no by omega),
          if_neg (show ¬ no ∈ [8, 10, 11, 12, 13, 14, 17] from hc), if_pos hno, errorCode, if_neg hc]
        rfl
    · have hc : ¬ HasErrorCode no := by
        intro hc
        simp only [HasErrorCode, List.mem_cons, List.not_mem_nil, or_false] at hc
        omega
      rw [if_neg hc, if_pos hno, if_neg (show ¬ no < 32 by omega)]
      rfl
  rw [atCall, commonEntry, run_append, run_push, hstub, Machine.reg_pushAll]
  rw [← Machine.pushAll_append, List.append_assoc, List.append_assoc]
  rfl

theorem length_pushed : (pushed no err s).length = if no < 32 then 22 else 21 := by
  rw [pushed]
  split <;> rfl

/-- The words of the stack when `interrupt_handler` is called. -/
theorem word_atCall {i : ℕ} (hi : i < 22) : (atCall ist no err s).word i =
    ((pushed no err s).reverse ++ [s.mem (stackTop ist no s)]).getD i 0 := by
  obtain ⟨t, ht, rfl⟩ := atCall_eq ist no err s
  have hlen := length_pushed no err s
  rw [ht, Machine.word_setReg, Machine.word_pushAll _ (by omega) (by split at hlen <;> omega)]
  split
  · rename_i h
    rw [List.getD_append _ _ _ _ (by simpa using h)]
  · rename_i h
    have hend : i - (pushed no err s).length = 0 := by
      split at hlen <;> omega
    rw [List.getD_append_right _ _ _ _ (by simpa using h), List.length_reverse, hend, Machine.word]
    simp

/-- **An exception shows the interrupted state** in `struct cpu_context`, field by field. -/
theorem shows_exception (hno : no < 32) : Shows no s (CpuContext.ofStack (atCall ist no err s)) := by
  have hword := fun i hi => @word_atCall ist no err s i hi
  simp only [pushed, if_pos hno] at hword
  generalize atCall ist no err s = t at hword
  constructor
  · exact hword 15 (by decide)
  · intro r
    cases r <;> exact hword _ (by decide)
  · exact hword 17 (by decide)
  · exact hword 18 (by decide)
  · exact hword 19 (by decide)
  · exact hword 20 (by decide)
  · exact hword 21 (by decide)

/-- What a device interrupt shows: from the error code on, every word in the place of the one before
it. -/
theorem context_irq (hno : ¬ no < 32) : ∃ c, CpuContext.ofStack (atCall ist no err s) = c ∧
    c.intNo = BitVec.ofNat 64 no ∧ (∀ r, c.general r = s.reg r) ∧ c.errCode = s.rip ∧ c.ip = s.cs ∧
    c.cs = s.rflags ∧ c.rflags = s.rsp ∧ c.sp = s.ss ∧ c.ss = s.mem (stackTop ist no s) := by
  have hword := fun i hi => @word_atCall ist no err s i hi
  simp only [pushed, if_neg hno] at hword
  generalize atCall ist no err s = t at hword
  refine ⟨_, rfl, hword 15 (by decide), fun r => ?_, hword 16 (by decide), hword 17 (by decide),
    hword 18 (by decide), hword 19 (by decide), hword 20 (by decide), hword 21 (by decide)⟩
  cases r <;> exact hword _ (by decide)

end Entry

/-! ### Exit -/

section Exit

variable (ist : ℕ → Option (BitVec 64)) (no : ℕ) (err : BitVec 64) (s : Machine)

/-- **What the exit makes of the frame**: the registers, and five words behind the number of the
vector. -/
theorem run_commonExit (t : Machine) :
    (∀ r, (run t commonExit).reg r = t.word (popOrder.idxOf r)) ∧
      (run t commonExit).rip = t.word 16 ∧ (run t commonExit).rflags = t.word 18 ∧
      (run t commonExit).rsp = t.word 19 := by
  obtain ⟨hword, hmem, -⟩ := run_pop (s := t) popOrder (by decide)
  have hrun : run t commonExit = exec ((run t (popOrder.map .pop)).drop 1) .iretq := by
    rw [commonExit, run_append]
    rfl
  have hdrop : ∀ i, ((run t (popOrder.map .pop)).drop 1).word i = t.word (15 + (1 + i)) := fun i => by
    rw [Machine.word_drop, hword]
    rfl
  rw [hrun]
  refine ⟨fun r => ?_, hdrop 0, hdrop 2, hdrop 3⟩
  exact hmem r (by cases r <;> decide)

/-- **What `iretq` restores**, whatever the handler does: the interrupted state behind a device interrupt,
and behind an exception every word in the place of the next one. -/
theorem resumed_eq (h : TrapHandler) :
    (resumed ist no err s h).reg = s.reg ∧
      (resumed ist no err s h).rip = (if no < 32 then errorCode no err else s.rip) ∧
      (resumed ist no err s h).rflags = (if no < 32 then s.cs else s.rflags) ∧
      (resumed ist no err s h).rsp = (if no < 32 then s.rflags else s.rsp) := by
  obtain ⟨hreg, hrip, hrflags, hrsp⟩ := run_commonExit (h.call (atCall ist no err s))
  have hword : ∀ i < 22, (h.call (atCall ist no err s)).word i =
      ((pushed no err s).reverse ++ [s.mem (stackTop ist no s)]).getD i 0 := fun i hi =>
    (h.word_call _ i hi).trans (word_atCall ist no err s hi)
  rw [resumed]
  refine ⟨funext fun r => ?_, ?_, ?_, ?_⟩
  · rw [hreg, hword _ (by cases r <;> decide), pushed]
    split <;> cases r <;> rfl
  · rw [hrip, hword _ (by decide), pushed]
    split <;> rfl
  · rw [hrflags, hword _ (by decide), pushed]
    split <;> rfl
  · rw [hrsp, hword _ (by decide), pushed]
    split <;> rfl

/-- A device interrupt is undone, whatever the handler does. -/
theorem restores_irq (h : TrapHandler) (hno : ¬ no < 32) : Restores s (resumed ist no err s h) := by
  obtain ⟨hreg, hrip, hrflags, hrsp⟩ := resumed_eq ist no err s h
  rw [if_neg hno] at hrip hrflags hrsp
  exact ⟨hreg, hrip, hrsp, hrflags⟩

end Exit

/-! ### Transparency -/

section Transparency

variable {ist : ℕ → Option (BitVec 64)} {no : ℕ} {err : BitVec 64} {s : Machine}

/-- **Entry and exit are transparent exactly by coincidence**: an exception is shown as it should be and
not restored, a device interrupt is restored and not shown. -/
theorem interruptTransparent_iff : InterruptTransparent ist no err s ↔ Coincide ist no err s := by
  rw [Coincide]
  by_cases hno : no < 32
  · rw [if_pos hno]
    constructor
    · rintro ⟨-, hrestores⟩
      have hres := hrestores (fun _ => .skip) fun _ => ⟨false, none⟩
      obtain ⟨-, hrip, hrflags, hrsp⟩ := resumed_eq ist no err s
        (interruptHandler (fun _ => .skip) fun _ => ⟨false, none⟩)
      rw [if_pos hno] at hrip hrflags hrsp
      exact ⟨hrip.symm.trans hres.rip, hrflags.symm.trans hres.rflags, hrsp.symm.trans hres.rsp⟩
    · rintro ⟨herr, hcs, hflags⟩
      refine ⟨shows_exception ist no err s hno, fun eoi handlers => ?_⟩
      obtain ⟨hreg, hrip, hrflags, hrsp⟩ := resumed_eq ist no err s
        (interruptHandler eoi handlers)
      rw [if_pos hno] at hrip hrflags hrsp
      exact ⟨hreg, hrip.trans herr, hrsp.trans hflags, hrflags.trans hcs⟩
  · rw [if_neg hno]
    obtain ⟨c, hc, hintNo, hgeneral, -, hip, hcs, hrflags, hsp, hss⟩ :=
      context_irq ist no err s hno
    rw [InterruptTransparent, hc]
    constructor
    · rintro ⟨hshows, -⟩
      exact ⟨hip.symm.trans hshows.ip, hcs.symm.trans hshows.cs, hrflags.symm.trans hshows.rflags,
        hsp.symm.trans hshows.sp, hss.symm.trans hshows.ss⟩
    · rintro ⟨h1, h2, h3, h4, h5⟩
      exact ⟨⟨hintNo, hgeneral, hip.trans h1, hcs.trans h2, hrflags.trans h3, hsp.trans h4,
        hss.trans h5⟩, fun eoi handlers => restores_irq ist no err s _ hno⟩

/-- A device interrupt in the kernel's code. -/
def kernelMachine : Machine where
  reg _ := 0
  rsp := 0xffff800000200000
  rip := 0xffff800000100000
  cs := 8
  rflags := 0x202
  ss := 16
  mem _ := 0

/-- **A device interrupt shows `cs` as `ip`**: it has no error code, and the fields are off by one word. -/
theorem not_interruptTransparent_kernelMachine :
    ¬ ∀ (ist : ℕ → Option (BitVec 64)) (no : ℕ) (err : BitVec 64) (s : Machine), no < 256 →
      InterruptTransparent ist no err s := by
  intro hall
  obtain ⟨hshows, -⟩ := hall (fun _ => none) 32 0 kernelMachine (by decide)
  obtain ⟨c, hc, -, -, -, hip, -⟩ :=
    context_irq (fun _ => none) 32 0 kernelMachine (by decide)
  rw [hc] at hshows
  exact absurd (hip.symm.trans hshows.ip) (by decide)

/-- No coincidence in the upper half of the address space, where the kernel runs: a selector has 16 bits,
an error code 32. -/
theorem not_coincide_of_high (hrip : 2 ^ 32 ≤ s.rip.toNat) (hcs : s.cs.toNat < 2 ^ 16)
    (herr : err.toNat < 2 ^ 32) : ¬ Coincide ist no err s := by
  rw [Coincide]
  split
  · rintro ⟨h, -⟩
    have hcode : (errorCode no err).toNat < 2 ^ 32 := by
      rw [errorCode]
      split
      · exact herr
      · decide
    rw [h] at hcode
    omega
  · rintro ⟨h, -⟩
    rw [h] at hcs
    omega

end Transparency

end GeekToyOS
