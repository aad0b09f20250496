import GeekToyOS.Arch.Trap
import GeekToyOS.Data.Dword

/-!
# Interrupt entry and exit on i386

`trap.S` on `i386`: the stubs `isr_*`, `interrupt_common`, and `interrupt_handler` of
`src/kernel/interrupt.c` in between, with `struct cpu_context` as the handler sees it.

The stubs are those of `x86_64`, so behind the number of a device interrupt there is no error code. The exit
takes both words off the stack with `add 8, %esp`. This is no constant: it adds the word at the address 8.

The interrupted code is the kernel's, and its stack is mapped. A handler is what it makes of the machine from
the `call` to the return.

## Main definitions

* `Machine`, `Insn`, `run` — the registers, the stack, and the instructions that `trap.S` uses
* `resumed` — the machine behind `iret`
* `Restores`, `Shows` — the interrupted computation goes on, and the handler sees it

## Main results

* `word_afterCall` — the frame when the handler returns
* `run_frameExit` — what the exit makes of a frame
* `resumes_iff` — when the interrupted computation goes on
* `shows_atCall_iff` — when the handler sees it
-/

namespace GeekToyOS.I386

open Dword (Stack load)

/-- The general registers, but for the stack pointer. -/
inductive Reg
  | eax | ecx | edx | ebx | ebp | esi | edi
deriving DecidableEq, Repr

/-- The segment registers, but for `cs`. -/
inductive Seg
  | ds | es | fs | gs | ss
deriving DecidableEq, Repr

structure Machine where
  reg : Reg → BitVec 32
  seg : Seg → BitVec 16
  cs : BitVec 16
  eip : BitVec 32
  eflags : BitVec 32
  stack : Stack
  /-- the page tables map the address -/
  mapped : BitVec 32 → Bool

namespace Machine

def setReg (s : Machine) (r : Reg) (w : BitVec 32) : Machine :=
  { s with reg := Function.update s.reg r w }

def setSeg (s : Machine) (r : Seg) (w : BitVec 16) : Machine :=
  { s with seg := Function.update s.seg r w }

def push (s : Machine) (w : BitVec 32) : Machine := { s with stack := s.stack.push w }

/-- A register is popped. -/
def pop (s : Machine) (r : Reg) : Machine :=
  { s.setReg r (s.stack.word 0) with stack := s.stack.drop 1 }

end Machine

/-- The instructions of `trap.S`, but for the `call`. -/
inductive Insn
  | pushImm (no : ℕ)
  | push (r : Reg)
  | pushEsp
  | pusha
  | pop (r : Reg)
  | popa
  /-- `mov %ds, %ax` -/
  | movDsAx
  /-- `mov $0x10, %ax` -/
  | movImmAx (v : BitVec 16)
  /-- `mov %ax, %es` -/
  | movSeg (r : Seg) (a : Reg)
  /-- `add $4, %esp` -/
  | addEspImm (v : BitVec 32)
  /-- `add 8, %esp` -/
  | addEspMem (a : BitVec 32)
  | iret
deriving DecidableEq, Repr

/-- The registers in the order of `pusha`, with the stack pointer between the first four and the others. -/
def pushaFirst : List Reg := [.eax, .ecx, .edx, .ebx]

@[inherit_doc pushaFirst]
def pushaLast : List Reg := [.ebp, .esi, .edi]

/-- An instruction; `none` is a page fault. -/
def exec (s : Machine) : Insn → Option Machine
  | .pushImm no => some (s.push (BitVec.ofNat 32 no))
  | .push r => some (s.push (s.reg r))
  | .pushEsp => some (s.push s.stack.top)
  | .pusha => some { s with
      stack := s.stack.pushAll (pushaFirst.map s.reg ++ [s.stack.top] ++ pushaLast.map s.reg) }
  | .pop r => some (s.pop r)
  | .popa =>
    -- the stack pointer that was pushed is skipped
    let s := pushaLast.reverse.foldl Machine.pop s
    some (pushaFirst.reverse.foldl Machine.pop { s with stack := s.stack.drop 1 })
  | .movDsAx => some (s.setReg .eax ((s.reg .eax).extractLsb' 16 16 ++ s.seg .ds))
  | .movImmAx v => some (s.setReg .eax ((s.reg .eax).extractLsb' 16 16 ++ v))
  | .movSeg r a => some (s.setSeg r ((s.reg a).setWidth 16))
  | .addEspImm v => some { s with stack := { s.stack with top := s.stack.top + v } }
  | .addEspMem a =>
    if s.mapped a then some { s with stack := { s.stack with top := s.stack.top + load s.stack.mem a } }
    else none
  | .iret =>
    let cs := (s.stack.word 1).setWidth 16
    let s' := { s with eip := s.stack.word 0, cs := cs, eflags := s.stack.word 2 }
    -- a return to a less privileged ring takes the stack from the frame, too
    if cs &&& 3 = 0 then some { s' with stack := s.stack.drop 3 }
    else some { s'.setSeg .ss ((s.stack.word 4).setWidth 16) with
      stack := { s.stack with top := s.stack.word 3 } }

def run (s : Machine) (l : List Insn) : Option Machine := l.foldlM exec s

/-! ### `trap.S` -/

def isrErr (no : ℕ) : List Insn := [.pushImm no]

def isrNoerr (no : ℕ) : List Insn := [.pushImm 0, .pushImm no]

def isrIrq (no : ℕ) : List Insn := [.pushImm no]

/-- The table `isr_func`, a stub for each vector. -/
def isrFunc (no : ℕ) : List Insn :=
  if 32 ≤ no then isrIrq no
  else if no ∈ [8, 10, 11, 12, 13, 14, 17] then isrErr no
  else isrNoerr no

/-- `interrupt_common` up to the `call`. -/
def commonEntry : List Insn :=
  [.pusha, .movDsAx, .push .eax, .movImmAx 0x10, .movSeg .ds .eax, .movSeg .es .eax, .movSeg .fs .eax,
    .movSeg .gs .eax, .movSeg .ss .eax, .pushEsp]

/-- `interrupt_common` from the `call` on. -/
def commonExit : List Insn :=
  [.addEspImm 4, .pop .ebx, .movSeg .ds .ebx, .movSeg .es .ebx, .movSeg .fs .ebx, .movSeg .gs .ebx,
    .movSeg .ss .ebx, .popa, .addEspMem 8, .iret]

/-- An interrupt comes while the kernel runs: the processor pushes the state, and for some exceptions an error
code. -/
def deliver (no : ℕ) (err : BitVec 32) (s : Machine) : Machine :=
  { s with
    stack := s.stack.pushAll
      ([s.eflags, s.cs.setWidth 32, s.eip] ++ if HasErrorCode no then [err] else []) }

/-! ### The handlers -/

/-- `struct cpu_context`, up to what the processor pushes. -/
structure CpuContext where
  ds : BitVec 16
  edi : BitVec 32
  esi : BitVec 32
  ebp : BitVec 32
  oesp : BitVec 32
  ebx : BitVec 32
  edx : BitVec 32
  ecx : BitVec 32
  eax : BitVec 32
  intNo : BitVec 32
  errCode : BitVec 32
  ip : BitVec 32
  cs : BitVec 16
  eflags : BitVec 32
deriving DecidableEq, Repr

namespace CpuContext

/-- The context that the argument of the handler points to. -/
def ofArgument (s : Machine) : CpuContext :=
  let w := fun i => load s.stack.mem (s.stack.word 0 + BitVec.ofNat 32 (4 * i))
  ⟨(w 0).setWidth 16, w 1, w 2, w 3, w 4, w 5, w 6, w 7, w 8, w 9, w 10, w 11, (w 12).setWidth 16, w 13⟩

/-- The field of a register. -/
def general (c : CpuContext) : Reg → BitVec 32
  | .eax => c.eax
  | .ecx => c.ecx
  | .edx => c.edx
  | .ebx => c.ebx
  | .ebp => c.ebp
  | .esi => c.esi
  | .edi => c.edi

end CpuContext

/-- A function that is called with an argument on the stack, and returns with what lies behind it unchanged,
up to the words that the processor pushed. -/
structure TrapHandler where
  call : Machine → Machine
  top_call : ∀ s, (call s).stack.top = s.stack.top
  word_call : ∀ s i, 1 ≤ i → i < 15 → (call s).stack.word i = s.stack.word i

/-- `struct isr_info`. -/
structure IsrInfo where
  /-- the type is `ISR_IRQ` -/
  irq : Bool
  handler : Option TrapHandler

namespace TrapHandler

/-- Nothing to do. -/
def skip : TrapHandler := ⟨id, fun _ => rfl, fun _ _ _ _ => rfl⟩

/-- One function after the other. -/
def andThen (g h : TrapHandler) : TrapHandler where
  call s := h.call (g.call s)
  top_call s := (h.top_call _).trans (g.top_call s)
  word_call s i hi hi' := (h.word_call _ i hi hi').trans (g.word_call s i hi hi')

end TrapHandler

/-- `interrupt_handler`. -/
def interruptHandler (interruptEoi : BitVec 32 → TrapHandler) (interruptHandlers : BitVec 32 → IsrInfo) :
    TrapHandler where
  call s :=
    let intNo := (CpuContext.ofArgument s).intNo
    let info := interruptHandlers intNo
    ((if info.irq then interruptEoi intNo else .skip).andThen (info.handler.getD .skip)).call s
  top_call s := TrapHandler.top_call _ s
  word_call s := TrapHandler.word_call _ s

section Interrupt

variable (no : ℕ) (err : BitVec 32) (s : Machine)

/-- The machine when `interrupt_handler` is called. -/
def atCall : Option Machine := (run (deliver no err s) (isrFunc no)).bind (run · commonEntry)

/-- The machine when `interrupt_handler` has returned. -/
def afterCall (h : TrapHandler) : Option Machine := (atCall no err s).map h.call

/-- The machine behind `iret`. -/
def resumed (h : TrapHandler) : Option Machine := (afterCall no err s h).bind (run · commonExit)

/-- The interrupted computation goes on as it was. -/
structure Restores (s' : Machine) : Prop where
  reg : s'.reg = s.reg
  seg : s'.seg = s.seg
  cs : s'.cs = s.cs
  eip : s'.eip = s.eip
  eflags : s'.eflags = s.eflags
  esp : s'.stack.top = s.stack.top

/-- The context shows the interrupted state. -/
structure Shows (c : CpuContext) : Prop where
  intNo : c.intNo = BitVec.ofNat 32 no
  general : ∀ r, c.general r = s.reg r
  ds : c.ds = s.seg .ds
  ip : c.ip = s.eip
  cs : c.cs = s.cs
  eflags : c.eflags = s.eflags

/-- The words that the processor leaves out at times, and the stub pushes. -/
def stubWords : List (BitVec 32) :=
  (if no < 32 then [if HasErrorCode no then err else 0] else []) ++ [BitVec.ofNat 32 no]

/-- The words of the frame below the registers, the first one first. -/
def stateWords : List (BitVec 32) := [s.eflags, s.cs.setWidth 32, s.eip] ++ stubWords no err

/-- All words that are pushed up to the `call`. -/
def pushed : List (BitVec 32) :=
  let top := fun n => s.stack.top - BitVec.ofNat 32 (4 * n)
  let n := (stateWords no err s).length
  stateWords no err s ++ (pushaFirst.map s.reg ++ [top n] ++ pushaLast.map s.reg ++
    [(s.reg .eax).extractLsb' 16 16 ++ s.seg .ds, top (n + 9)])

end Interrupt

/-! ### Entry -/

section Entry

variable (no : ℕ) (err : BitVec 32) (s : Machine)

theorem run_append (t : Machine) (l l' : List Insn) : run t (l ++ l') = (run t l).bind (run · l') :=
  List.foldlM_append ..

/-- The processor and the stub of the vector push the interrupted state word by word, in the order of the
frame. -/
theorem run_isrFunc : run (deliver no err s) (isrFunc no) =
    some { s with stack := s.stack.pushAll (stateWords no err s) } := by
  rw [deliver, stateWords, stubWords, Stack.pushAll_append, Stack.pushAll_append]
  rcases Nat.lt_or_ge no 32 with hno | hno
  · rw [isrFunc, if_neg (show ¬ 32 ≤ no by omega), if_pos hno]
    by_cases hc : HasErrorCode no
    · rw [if_pos hc, if_pos hc, if_pos (show no ∈ [8, 10, 11, 12, 13, 14, 17] from hc)]
      rfl
    · rw [if_neg hc, if_neg hc, if_neg (show ¬ no ∈ [8, 10, 11, 12, 13, 14, 17] from hc)]
      rfl
  · have hc : ¬ HasErrorCode no := by
      intro hc
      simp only [HasErrorCode, List.mem_cons, List.not_mem_nil, or_false] at hc
      omega
    rw [isrFunc, if_pos hno, if_neg hc, if_neg (show ¬ no < 32 by omega)]
    rfl

/-- What `interrupt_common` pushes up to the argument. -/
theorem run_commonEntry (t : Machine) : ∃ u, run t commonEntry = some u ∧
    ∀ frame, frame = pushaFirst.map t.reg ++ [t.stack.top] ++ pushaLast.map t.reg ++
      [(t.reg .eax).extractLsb' 16 16 ++ t.seg .ds] →
    u.stack = t.stack.pushAll (frame ++ [(t.stack.pushAll frame).top]) := by
  refine ⟨_, rfl, ?_⟩
  rintro frame rfl
  rfl

theorem length_stateWords : (stateWords no err s).length = if no < 32 then 5 else 4 := by
  rw [stateWords, stubWords]
  split <;> rfl

theorem length_pushed : (pushed no err s).length = (stateWords no err s).length + 10 := by
  rw [pushed, List.length_append]
  rfl

/-- **The entry**: nothing stops it, and the stack holds the frame. -/
theorem atCall_eq : ∃ u, atCall no err s = some u ∧ u.stack = s.stack.pushAll (pushed no err s) := by
  obtain ⟨u, hu, hstack⟩ := run_commonEntry { s with stack := s.stack.pushAll (stateWords no err s) }
  refine ⟨u, by rw [atCall, run_isrFunc, Option.bind_some, hu], ?_⟩
  rw [hstack _ rfl, ← Stack.pushAll_append, ← Stack.pushAll_append, Stack.top_pushAll, Stack.top_pushAll,
    pushed, List.length_append]
  simp only [List.append_assoc]
  rfl

/-- The words of the stack at the `call` are those that were pushed, the last one first. -/
theorem word_pushed {i : ℕ} (hi : i < 15) : (s.stack.pushAll (pushed no err s)).word i =
    ((pushed no err s).reverse ++ [s.stack.word 0]).getD i 0 := by
  have hlen := length_pushed no err s
  have hstate := length_stateWords no err s
  rw [Stack.word_pushAll _ (by omega) (by split at hstate <;> omega)]
  split
  · next hin => rw [List.getD_append _ _ _ _ (by simpa using hin)]
  · next hout =>
    have hend : i - (pushed no err s).length = 0 := by
      split at hstate <;> omega
    rw [List.getD_append_right _ _ _ _ (by simpa using hout), List.length_reverse, hend]
    rfl

/-- The argument of the handler points to the word behind itself, so the frame is read there. -/
theorem ofArgument_word {u : Machine} (hu : u.stack = s.stack.pushAll (pushed no err s)) (i : ℕ) :
    load u.stack.mem (u.stack.word 0 + BitVec.ofNat 32 (4 * i)) = u.stack.word (1 + i) := by
  have harg : u.stack.word 0 = u.stack.top + 4 := by
    rw [hu, word_pushed no err s (by decide), Stack.top_pushAll, length_pushed]
    have hfirst : ((pushed no err s).reverse ++ [s.stack.word 0]).getD 0 0 =
        s.stack.top - BitVec.ofNat 32 (4 * ((stateWords no err s).length + 9)) := by
      rw [pushed]
      simp
    rw [hfirst, Nat.mul_add, Nat.mul_add, BitVec.ofNat_add, BitVec.ofNat_add]
    bv_omega
  rw [harg, Stack.word, Nat.mul_add, BitVec.ofNat_add, ← BitVec.add_assoc]
  rfl

end Entry

/-! ### Exit -/

section Exit

/-- Popping several registers takes as many words from the stack, one for each of them, and changes nothing
else. -/
theorem foldl_pop (L : List Reg) (hL : L.Nodup) (t : Machine) :
    (L.foldl Machine.pop t).stack = t.stack.drop L.length ∧ (L.foldl Machine.pop t).seg = t.seg ∧
      (L.foldl Machine.pop t).mapped = t.mapped ∧
      ∀ r, (L.foldl Machine.pop t).reg r = if r ∈ L then t.stack.word (L.idxOf r) else t.reg r := by
  induction L generalizing t with
  | nil => exact ⟨t.stack.drop_zero.symm, rfl, rfl, fun r => rfl⟩
  | cons r L ih =>
    obtain ⟨hr, hL⟩ := List.nodup_cons.mp hL
    obtain ⟨hstack, hseg, hmapped, hreg⟩ := ih hL (t.pop r)
    rw [List.foldl_cons]
    refine ⟨?_, hseg, hmapped, fun q => ?_⟩
    · rw [hstack, Machine.pop, Stack.drop_drop, List.length_cons, Nat.add_comm]
    · rw [hreg]
      by_cases heq : q = r
      · subst heq
        rw [if_neg hr, if_pos List.mem_cons_self, List.idxOf_cons_self]
        exact Function.update_self ..
      · by_cases hq : q ∈ L
        · rw [if_pos hq, if_pos (List.mem_cons_of_mem _ hq), List.idxOf_cons_ne _ (Ne.symm heq), Machine.pop,
            Stack.word_drop, Nat.add_comm]
        · rw [if_neg hq, if_neg (by simp [heq, hq])]
          exact Function.update_of_ne heq ..

/-- The word of the frame that holds a register when the handler returns; the first one was the argument. -/
def Reg.slot : Reg → ℕ
  | .edi => 2
  | .esi => 3
  | .ebp => 4
  | .ebx => 6
  | .edx => 7
  | .ecx => 8
  | .eax => 9

/-- `interrupt_common` from the `call` to the end of `popa`. -/
def frameExit : List Insn := commonExit.take 8

/-- **What the exit makes of a frame**: the segments get the word on top, the registers theirs, and the
stack is left at the vector. -/
theorem run_frameExit (t : Machine) : ∃ u, run t frameExit = some u ∧
    (∀ r, u.seg r = (t.stack.word 1).setWidth 16) ∧ (∀ r, u.reg r = t.stack.word r.slot) ∧
    u.stack = t.stack.drop 10 ∧ u.mapped = t.mapped := by
  -- the segment registers are set, and then all general registers
  obtain ⟨v, hv, hseg, hstack, hmapped⟩ : ∃ v, run t (commonExit.take 7) = some v ∧
      (∀ r, v.seg r = (t.stack.word 1).setWidth 16) ∧ v.stack = t.stack.drop 2 ∧ v.mapped = t.mapped := by
    refine ⟨_, rfl, fun r => ?_, t.stack.drop_drop 1 1, rfl⟩
    have hword : ((t.stack.drop 1).word 0).setWidth 16 = (t.stack.word 1).setWidth 16 := by
      rw [Stack.word_drop]
    cases r <;> exact hword
  obtain ⟨hstack₁, hseg₁, hmapped₁, hreg₁⟩ := foldl_pop pushaLast.reverse (by decide) v
  obtain ⟨hstack₂, hseg₂, hmapped₂, hreg₂⟩ := foldl_pop pushaFirst.reverse (by decide)
    { pushaLast.reverse.foldl Machine.pop v with
      stack := (pushaLast.reverse.foldl Machine.pop v).stack.drop 1 }
  refine ⟨_, ?_, fun r => ?_, fun r => ?_, hstack₂.trans ?_, hmapped₂.trans (hmapped₁.trans hmapped)⟩
  · rw [show frameExit = commonExit.take 7 ++ [.popa] from rfl, run_append, hv]
    rfl
  · rw [hseg₂, hseg₁, hseg]
  · rw [hreg₂, hreg₁]
    dsimp only
    rw [hstack₁, hstack]
    simp only [Stack.drop_drop, Stack.word_drop]
    cases r <;> rfl
  · dsimp only
    rw [hstack₁, hstack, Stack.drop_drop, Stack.drop_drop, Stack.drop_drop]
    rfl

/-- `iret` to code of the kernel takes three words from the stack, not five. -/
theorem exec_iret {u : Machine} (hcs : (u.stack.word 1).setWidth 16 &&& (3 : BitVec 16) = 0) :
    exec u .iret = some { u with
      eip := u.stack.word 0, cs := (u.stack.word 1).setWidth 16, eflags := u.stack.word 2,
      stack := u.stack.drop 3 } := if_pos hcs

theorem cs_iret {u s' : Machine} (h : exec u .iret = some s') :
    s'.cs = (u.stack.word 1).setWidth 16 := by
  rw [exec] at h
  dsimp only at h
  split at h <;> exact Option.some.inj h ▸ rfl

/-- `add 8, %esp` and `iret`: how far off the state is read is what the word at the address 8 says. -/
theorem run_dropIret (u : Machine) : run u [.addEspMem 8, .iret] =
    if u.mapped 8 then exec { u with stack := ⟨u.stack.top + load u.stack.mem 8, u.stack.mem⟩ } .iret
    else none := by
  have hrun : run u [.addEspMem 8, .iret] = (exec u (.addEspMem 8)).bind fun v => exec v .iret := by
    simp [run]
  rw [hrun, exec]
  split <;> rfl

end Exit

/-! ### The interrupted computation -/

/-- How many words lie between the registers and what the processor pushes always. -/
def skipped (no : ℕ) : ℕ := if no < 32 then 2 else 1

section Resume

variable (no : ℕ) (err : BitVec 32) (s : Machine)

/-- **The frame when the handler returns**: the stack is where it was at the call, and the handler has
changed no word of the frame. -/
theorem afterCall_eq (h : TrapHandler) : ∃ t, afterCall no err s h = some t ∧
    t.stack.top = s.stack.top - BitVec.ofNat 32 (4 * (pushed no err s).length) ∧
    ∀ i, 1 ≤ i → i < 15 →
      t.stack.word i = ((pushed no err s).reverse ++ [s.stack.word 0]).getD i 0 := by
  obtain ⟨u, hu, hstack⟩ := atCall_eq no err s
  refine ⟨h.call u, by rw [afterCall, hu, Option.map_some], ?_, fun i hi hlt => ?_⟩
  · rw [h.top_call, hstack, Stack.top_pushAll]
  · rw [h.word_call u i hi hlt, hstack, word_pushed no err s hlt]

/-- The frame when the handler returns, word by word: the segments, the registers, and what the processor
pushed. -/
theorem word_afterCall (h : TrapHandler) : ∃ t, afterCall no err s h = some t ∧
    t.stack.top + BitVec.ofNat 32 (4 * (13 + skipped no)) = s.stack.top ∧
    (t.stack.word 1).setWidth 16 = s.seg .ds ∧ (∀ r, t.stack.word r.slot = s.reg r) ∧
    t.stack.word (10 + skipped no) = s.eip ∧ t.stack.word (11 + skipped no) = s.cs.setWidth 32 ∧
    t.stack.word (12 + skipped no) = s.eflags := by
  obtain ⟨t, ht, htop, hword⟩ := afterCall_eq no err s h
  refine ⟨t, ht, ?_, ?_, fun r => ?_, ?_⟩
  · rw [htop, length_pushed, length_stateWords, skipped]
    split <;> bv_omega
  · have hslot : t.stack.word 1 = (s.reg .eax).extractLsb' 16 16 ++ s.seg .ds := by
      rw [hword 1 (by decide) (by decide), pushed]
      simp
    rw [hslot, BitVec.setWidth_append_eq_right]
  · rw [hword r.slot (by cases r <;> decide) (by cases r <;> decide), pushed]
    cases r <;> simp [Reg.slot, pushaFirst, pushaLast]
  · have hstate : ∀ i < 3,
        t.stack.word (10 + skipped no + i) = [s.eip, s.cs.setWidth 32, s.eflags].getD i 0 := by
      intro i hi
      rw [hword _ (by omega) (by rw [skipped]; split <;> omega), pushed, stateWords, stubWords, skipped]
      interval_cases i <;> split <;> rfl
    refine ⟨hstate 0 (by decide), ?_, ?_⟩
    · have := hstate 1 (by decide)
      rwa [show 10 + skipped no + 1 = 11 + skipped no by omega] at this
    · have := hstate 2 (by decide)
      rwa [show 10 + skipped no + 2 = 12 + skipped no by omega] at this

/-- **When the interrupted computation goes on**: if the page of the address 8 is mapped, the word there is
the size of what `add 8, %esp` is to skip, and the segment registers were all the same. -/
theorem resumes_iff (hcs : s.cs &&& 3 = 0) (interruptEoi : BitVec 32 → TrapHandler)
    (interruptHandlers : BitVec 32 → IsrInfo) :
    ∃ t, afterCall no err s (interruptHandler interruptEoi interruptHandlers) = some t ∧
      ((∃ s', resumed no err s (interruptHandler interruptEoi interruptHandlers) = some s' ∧
          Restores s s') ↔
        t.mapped 8 = true ∧ load t.stack.mem 8 = BitVec.ofNat 32 (4 * skipped no) ∧
          ∀ r, s.seg r = s.seg .ds) := by
  obtain ⟨t, ht, htop, hds, hregs, heip, hcsw, heflags⟩ :=
    word_afterCall no err s (interruptHandler interruptEoi interruptHandlers)
  obtain ⟨u, hu, hseg, hreg, hstack, hmapped⟩ := run_frameExit t
  have hrun : resumed no err s (interruptHandler interruptEoi interruptHandlers) =
      run u [.addEspMem 8, .iret] := by
    rw [resumed, ht, Option.bind_some, show commonExit = frameExit ++ [.addEspMem 8, .iret] from rfl,
      run_append, hu, Option.bind_some]
  refine ⟨t, ht, ?_⟩
  rw [hrun, run_dropIret, hmapped]
  by_cases hmap : t.mapped 8 = true
  · rw [if_pos hmap]
    rw [hstack, show (t.stack.drop 10).mem = t.stack.mem from rfl,
      show (t.stack.drop 10).top = t.stack.top + 40 from rfl]
    constructor
    · rintro ⟨s', hs', hres⟩
      -- the return is to the kernel, since the interrupted code is in the kernel
      rw [exec_iret (by rw [← cs_iret hs', hres.cs, hcs])] at hs'
      obtain rfl := Option.some.inj hs'
      have hesp : t.stack.top + 40 + load t.stack.mem 8 + 12 = s.stack.top := hres.esp
      have hsegs := fun r => (hseg r).symm.trans (congrFun hres.seg r)
      refine ⟨hmap, ?_, fun r => (hsegs r).symm.trans (hsegs .ds)⟩
      rw [skipped] at htop ⊢
      split at htop
      · rw [if_pos ‹_›]
        bv_omega
      · rw [if_neg ‹_›]
        bv_omega
    · rintro ⟨-, hload, hsegs⟩
      have hskip : (⟨t.stack.top + 40 + load t.stack.mem 8, t.stack.mem⟩ : Stack) =
          t.stack.drop (10 + skipped no) := by
        rw [hload, Stack.drop, Nat.mul_add, BitVec.ofNat_add, ← BitVec.add_assoc]
        rfl
      have hword : ∀ i, (t.stack.drop (10 + skipped no)).word i = t.stack.word (i + 10 + skipped no) := by
        intro i
        rw [Stack.word_drop, Nat.add_comm, Nat.add_assoc]
      have hcs' : ((t.stack.drop (10 + skipped no)).word 1).setWidth 16 = s.cs := by
        rw [hword, hcsw]
        simp
      rw [hskip, exec_iret (by rw [hcs', hcs])]
      refine ⟨_, rfl, ?_, ?_, hcs', ?_, ?_, ?_⟩
      · exact funext fun r => (hreg r).trans (hregs r)
      · exact funext fun r => (hseg r).trans (hds.trans (hsegs r).symm)
      · exact (hword 0).trans ((congrArg t.stack.word (by omega)).trans heip)
      · exact (hword 2).trans heflags
      · rw [Stack.drop_drop]
        refine Eq.trans ?_ htop
        rw [show 10 + skipped no + 3 = 13 + skipped no by omega]
        rfl
  · rw [if_neg hmap]
    constructor
    · rintro ⟨s', hs', -⟩
      cases hs'
    · rintro ⟨h, -⟩
      exact absurd h hmap

/-- The kernel's code behind `clear_low_page`, which has left nothing at the address 8. -/
def kernelMachine : Machine where
  reg _ := 0
  seg _ := 16
  cs := 8
  eip := 0xC0100000
  eflags := 0x202
  stack := ⟨0xC0200000, fun _ => 0⟩
  mapped a := 0xC0000000 ≤ a

theorem resumes_iff_kernelMachine :
    ∃ t, afterCall 32 0 kernelMachine (interruptHandler (fun _ => .skip) fun _ => ⟨false, none⟩) = some t ∧
      ((∃ s', resumed 32 0 kernelMachine (interruptHandler (fun _ => .skip) fun _ => ⟨false, none⟩) =
          some s' ∧ Restores kernelMachine s') ↔
        t.mapped 8 = true ∧ load t.stack.mem 8 = BitVec.ofNat 32 (4 * skipped 32) ∧
          ∀ r, kernelMachine.seg r = kernelMachine.seg .ds) :=
  resumes_iff 32 0 kernelMachine (by decide) (fun _ => .skip) fun _ => ⟨false, none⟩

end Resume

/-! ### The context -/

section Context

variable {no : ℕ} {err : BitVec 32} {s : Machine}

/-- **When the handler sees the interrupted state**: always behind an exception, and else if some words
happen to be equal. -/
theorem shows_atCall_iff : ∃ u, atCall no err s = some u ∧ (Shows no s (CpuContext.ofArgument u) ↔
    no < 32 ∨ s.cs.setWidth 32 = s.eip ∧ s.eflags.setWidth 16 = s.cs ∧ s.stack.word 0 = s.eflags) := by
  obtain ⟨u, hu, hstack⟩ := atCall_eq no err s
  refine ⟨u, hu, ?_⟩
  have hword : ∀ i < 14, load u.stack.mem (u.stack.word 0 + BitVec.ofNat 32 (4 * i)) =
      ((pushed no err s).reverse ++ [s.stack.word 0]).getD (1 + i) 0 := fun i hi => by
    rw [ofArgument_word no err s hstack, hstack, word_pushed no err s (by omega)]
  have hds : (CpuContext.ofArgument u).ds = s.seg .ds := by
    have hslot : load u.stack.mem (u.stack.word 0 + BitVec.ofNat 32 (4 * 0)) =
        (s.reg .eax).extractLsb' 16 16 ++ s.seg .ds := by
      rw [hword 0 (by decide), pushed]
      simp
    exact (congrArg (BitVec.setWidth 16) hslot).trans BitVec.setWidth_append_eq_right
  have hgeneral : ∀ r, (CpuContext.ofArgument u).general r = s.reg r := by
    intro r
    cases r <;> exact (hword _ (by decide)).trans (by simp [pushed, pushaFirst, pushaLast])
  have hintNo : (CpuContext.ofArgument u).intNo = BitVec.ofNat 32 no := by
    refine (hword 9 (by decide)).trans ?_
    rw [pushed, stateWords, stubWords]
    split <;> simp [pushaFirst, pushaLast]
  have hip := hword 11 (by decide)
  have hcs := congrArg (BitVec.setWidth 16) (hword 12 (by decide))
  have heflags := hword 13 (by decide)
  rw [pushed, stateWords, stubWords] at hip hcs heflags
  by_cases hno : no < 32
  · rw [if_pos hno] at hip hcs heflags
    have hcs' : ((s.cs.setWidth 32).setWidth 16 : BitVec 16) = s.cs := by simp
    exact ⟨fun _ => Or.inl hno, fun _ => ⟨hintNo, hgeneral, hds, hip, hcs.trans hcs', heflags⟩⟩
  · -- every word is in the place of the one before it
    rw [if_neg hno] at hip hcs heflags
    constructor
    · intro h
      exact Or.inr ⟨hip.symm.trans h.ip, hcs.symm.trans h.cs, heflags.symm.trans h.eflags⟩
    · rintro (h | ⟨h1, h2, h3⟩)
      · exact absurd h hno
      · exact ⟨hintNo, hgeneral, hds, hip.trans h1, hcs.trans h2, heflags.trans h3⟩

end Context

end GeekToyOS.I386
