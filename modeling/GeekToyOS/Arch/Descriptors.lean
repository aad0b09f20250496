import GeekToyOS.Data.Bits
import GeekToyOS.Data.Packed

/-!
# Descriptor tables

`src/arch/x86_64/idt.c`, `src/arch/i386/idt.c` and `src/arch/i386/gdt.c`: the tables that tell the processor
where the handlers and the segments are. An address goes into a descriptor in two or three pieces, which are
not next to each other. Here are the code, which writes the pieces, and the processor, which puts them
together.

The handlers, the places of the tables and what was there before are arbitrary.

## Main definitions

* `idtSetGate`, `idtInit` — the table of gates on `x86_64`
* `Gate.read` — the gate that the processor finds
* `I386.idtInit`, `I386.gdtSetGate`, `I386.gdtInit` — the tables on i386
* `I386.Gate.read`, `I386.Segment.read` — what the processor finds there

## Main results

* `gate_read_idtInit`, `I386.i386Gate_read_idtInit` — each vector leads to its handler
* `I386.segment_read_gdtSetGates` — each segment is what was set last
-/

namespace GeekToyOS

open Raster Packed

/-- The register of the interrupt descriptor table, or of the global one. -/
structure TablePtr where
  limit : ℕ
  base : ℕ
deriving DecidableEq, Repr

/-- `DA_386IGate` -/
def da386IGate : ℕ := 0x8E

/-- `INT_NMI` -/
def intNmi : ℕ := 2

/-- `INT_DOUBLE_FAULT` -/
def intDoubleFault : ℕ := 8

/-- `IST_NONE`, `IST_NMI` and `IST_DOUBLE_FAULT` -/
def istNone : ℕ := 0

@[inherit_doc istNone]
def istNmi : ℕ := 1

@[inherit_doc istNone]
def istDoubleFault : ℕ := 2

/-- `GD_SEL(SEG_KTEXT)` -/
def gdSelKtext : ℕ := 1 <<< 3

/-! ### `x86_64` -/

/-- The assignments of `idt_set_gate`, in their order. -/
def idtGateFields (base flags : ℕ) : List Field :=
  [⟨0, 2, base &&& 0xFFFF⟩, ⟨6, 2, (base >>> 16) &&& 0xFFFF⟩, ⟨8, 4, (base >>> 32) &&& 0xFFFFFFFF⟩,
    ⟨2, 2, gdSelKtext⟩, ⟨4, 1, istNone⟩, ⟨5, 1, flags⟩]

/-- `idt_set_gate` -/
def idtSetGate (idtEntries : ℕ) (m : Mem) (num base flags : ℕ) : Mem :=
  storeFields m (idtEntries + 16 * num) (idtGateFields base flags)

/-- `idt_init`; the register is that of `lidt`. -/
def idtInit (isrFunc : ℕ → ℕ) (idtEntries : ℕ) (m : Mem) : Mem × TablePtr :=
  let m := (List.range 256).foldl (fun m vec => idtSetGate idtEntries m vec (isrFunc vec) da386IGate) m
  let m := storeBytes m (idtEntries + 16 * intDoubleFault + 4) 1 istDoubleFault
  let m := storeBytes m (idtEntries + 16 * intNmi + 4) 1 istNmi
  (m, ⟨16 * 256 - 1, idtEntries⟩)

/-- What a gate says. -/
structure Gate where
  offset : ℕ
  selector : ℕ
  ist : ℕ
  type : ℕ
  dpl : ℕ
  present : Bool
deriving DecidableEq, Repr

/-- The gate that the processor finds for a vector, if it is within the table. -/
def Gate.read (m : Mem) (ptr : TablePtr) (vec : ℕ) : Option Gate :=
  if 16 * vec + 15 ≤ ptr.limit then
    let p := ptr.base + 16 * vec
    let flags := loadBytes m (p + 5) 1
    some
      { offset := loadBytes m (p + 0) 2 + loadBytes m (p + 6) 2 * 2 ^ 16 + loadBytes m (p + 8) 4 * 2 ^ 32
        selector := loadBytes m (p + 2) 2
        ist := loadBytes m (p + 4) 1 % 8
        type := flags % 16
        dpl := flags / 32 % 4
        present := flags.testBit 7 }
  else none

section X64

variable {isrFunc : ℕ → ℕ} {idtEntries vec base flags : ℕ} {m : Mem}

theorem idtGateFields_apart (base flags : ℕ) : (idtGateFields base flags).Pairwise Field.Apart := by
  simp [idtGateFields, Field.Apart]

theorem idtGateFields_le (base flags : ℕ) : ∀ f ∈ idtGateFields base flags, f.offset + f.size ≤ 16 := by
  simp [idtGateFields]

/-- An address is made up of the three pieces that a gate keeps of it. -/
theorem pieces_eq (h : base < 2 ^ 64) :
    (base &&& 0xFFFF) % 256 ^ 2 + (((base >>> 16) &&& 0xFFFF) % 256 ^ 2) * 2 ^ 16 +
      (((base >>> 32) &&& 0xFFFFFFFF) % 256 ^ 4) * 2 ^ 32 = base := by
  have h16 : ∀ x : ℕ, x &&& 0xFFFF = x % 2 ^ 16 := fun x => Nat.and_two_pow_sub_one_eq_mod x 16
  have h32 : ∀ x : ℕ, x &&& 0xFFFFFFFF = x % 2 ^ 32 := fun x => Nat.and_two_pow_sub_one_eq_mod x 32
  rw [h16, h16, h32, Nat.shiftRight_eq_div_pow, Nat.shiftRight_eq_div_pow]
  omega

/-- Behind the loop of `idt_init` every field of every gate reads as `idt_set_gate` wrote it: the writes for
other vectors leave it alone. -/
theorem loadBytes_idtLoop (hvec : vec < 256) {f : Field} (hf : f ∈ idtGateFields (isrFunc vec) da386IGate) :
    loadBytes ((List.range 256).foldl
      (fun m vec => idtSetGate idtEntries m vec (isrFunc vec) da386IGate) m)
        (idtEntries + 16 * vec + f.offset) f.size = f.value % 256 ^ f.size :=
  loadBytes_storeTable (fun vec => idtGateFields (isrFunc vec) da386IGate)
    (fun _ _ => idtGateFields_le _ _) (fun _ _ => idtGateFields_apart _ _) hvec hf

/-- Setting an `ist` leaves the other fields alone. -/
theorem loadBytes_idtInit_of_ne {offset size : ℕ} (h : offset + size ≤ 4 ∨ 5 ≤ offset ∧ offset + size ≤ 16) :
    loadBytes (idtInit isrFunc idtEntries m).1 (idtEntries + 16 * vec + offset) size =
      loadBytes ((List.range 256).foldl
        (fun m vec => idtSetGate idtEntries m vec (isrFunc vec) da386IGate) m)
          (idtEntries + 16 * vec + offset) size := by
  rw [idtInit, loadBytes_storeBytes_of_apart (by unfold intNmi; omega),
    loadBytes_storeBytes_of_apart (by unfold intDoubleFault; omega)]

/-- After `idt_init` the NMI and the double fault have stacks of their own, and no other vector has one. -/
theorem loadBytes_idtInit_ist (hvec : vec < 256) :
    loadBytes (idtInit isrFunc idtEntries m).1 (idtEntries + 16 * vec + 4) 1 =
      if vec = intNmi then istNmi else if vec = intDoubleFault then istDoubleFault else istNone := by
  rw [idtInit]
  dsimp only
  by_cases hnmi : vec = intNmi
  · rw [if_pos hnmi, hnmi, loadBytes_storeBytes]
    rfl
  · rw [if_neg hnmi, loadBytes_storeBytes_of_apart (by omega)]
    by_cases hdouble : vec = intDoubleFault
    · rw [if_pos hdouble, hdouble, loadBytes_storeBytes]
      rfl
    · rw [if_neg hdouble, loadBytes_storeBytes_of_apart (by omega)]
      exact loadBytes_idtLoop (f := ⟨4, 1, istNone⟩) hvec (by simp [idtGateFields])

/-- **Every vector leads to its handler**, with interrupts disabled and, for two vectors, on a stack of its
own. There are no other vectors, and nothing else is written. -/
theorem gate_read_idtInit (isrFunc : ℕ → ℕ) (hisr : ∀ vec < 256, isrFunc vec < 2 ^ 64) (idtEntries : ℕ)
    (m : Mem) :
    (∀ vec < 256, Gate.read (idtInit isrFunc idtEntries m).1 (idtInit isrFunc idtEntries m).2 vec = some
      { offset := isrFunc vec
        selector := 8
        ist := if vec = 2 then 1 else if vec = 8 then 2 else 0
        type := 0xE
        dpl := 0
        present := true }) ∧
    (∀ vec ≥ 256, Gate.read (idtInit isrFunc idtEntries m).1 (idtInit isrFunc idtEntries m).2 vec = none) ∧
    ∀ a, a < idtEntries ∨ idtEntries + 4096 ≤ a → (idtInit isrFunc idtEntries m).1 a = m a := by
  refine ⟨fun vec hvec => ?_, fun vec hvec => ?_, fun a ha => ?_⟩
  · have hread : ∀ f ∈ idtGateFields (isrFunc vec) da386IGate, f.offset + f.size ≤ 4 ∨ 5 ≤ f.offset →
        loadBytes (idtInit isrFunc idtEntries m).1 (idtEntries + 16 * vec + f.offset) f.size =
          f.value % 256 ^ f.size := by
      intro f hf hne
      have hle := idtGateFields_le _ _ f hf
      rw [loadBytes_idtInit_of_ne (by omega), loadBytes_idtLoop hvec hf]
    have hptr : (idtInit isrFunc idtEntries m).2 = ⟨4095, idtEntries⟩ := rfl
    rw [Gate.read, hptr, if_pos (by dsimp only; omega)]
    dsimp only
    rw [hread ⟨0, 2, _⟩ (by simp [idtGateFields]; rfl) (by simp),
      hread ⟨6, 2, _⟩ (by simp [idtGateFields]; rfl) (by simp),
      hread ⟨8, 4, _⟩ (by simp [idtGateFields]; rfl) (by simp),
      hread ⟨2, 2, _⟩ (by simp [idtGateFields]; rfl) (by simp),
      hread ⟨5, 1, _⟩ (by simp [idtGateFields]; rfl) (by simp), loadBytes_idtInit_ist hvec,
      pieces_eq (hisr vec hvec)]
    congr 2
    unfold intNmi intDoubleFault
    split
    · rfl
    · split <;> rfl
  · rw [Gate.read, if_neg]
    simp only [idtInit]
    omega
  · rw [idtInit]
    dsimp only
    rw [storeBytes_outside (by unfold intNmi; omega), storeBytes_outside (by unfold intDoubleFault; omega)]
    exact storeTable_outside (fun vec => idtGateFields (isrFunc vec) da386IGate)
      (fun _ _ => idtGateFields_le _ _) (by omega)

/-- The stubs one after the other in the upper half, and a table below them. -/
theorem gate_read_idtInit_doubleFault :
    Gate.read (idtInit (fun vec => 0xFFFF800000100000 + 16 * vec) 0xFFFF800000004000 fun _ => 0xFF).1
      (idtInit (fun vec => 0xFFFF800000100000 + 16 * vec) 0xFFFF800000004000 fun _ => 0xFF).2 8 =
        some ⟨0xFFFF800000100080, 8, 2, 0xE, 0, true⟩ :=
  (gate_read_idtInit (fun vec => 0xFFFF800000100000 + 16 * vec) (fun vec hvec => by omega)
    0xFFFF800000004000 fun _ => 0xFF).1 8 (by decide)

end X64

/-! ### i386 -/

namespace I386

/-- `DA_DPL3` -/
def daDpl3 : ℕ := 0x60

/-- `INT_SYSCALL` -/
def intSyscall : ℕ := 128

/-- `GD_KTEXT` -/
def gdKtext : ℕ := 1 <<< 3

/-- The assignments of `idt_set_gate`. -/
def idtGateFields (base flags : ℕ) : List Field :=
  [⟨0, 2, base &&& 0xFFFF⟩, ⟨6, 2, (base >>> 16) &&& 0xFFFF⟩, ⟨2, 2, gdKtext⟩, ⟨4, 1, 0⟩, ⟨5, 1, flags⟩]

/-- `idt_set_gate` -/
def idtSetGate (idtEntries : ℕ) (m : Mem) (num base flags : ℕ) : Mem :=
  storeFields m (idtEntries + 8 * num) (idtGateFields base flags)

/-- `idt_init` -/
def idtInit (isrFunc : ℕ → ℕ) (idtEntries : ℕ) (m : Mem) : Mem × TablePtr :=
  ((List.range 256).foldl (fun m vec =>
      let dpl := if vec = intSyscall then daDpl3 else 0
      idtSetGate idtEntries m vec (isrFunc vec) (da386IGate ||| dpl)) m,
    ⟨8 * 256 - 1, idtEntries⟩)

/-- What a gate says. -/
structure Gate where
  offset : ℕ
  selector : ℕ
  type : ℕ
  dpl : ℕ
  present : Bool
deriving DecidableEq, Repr

/-- The gate that the processor finds for a vector. -/
def Gate.read (m : Mem) (ptr : TablePtr) (vec : ℕ) : Option Gate :=
  if 8 * vec + 7 ≤ ptr.limit then
    let p := ptr.base + 8 * vec
    let flags := loadBytes m (p + 5) 1
    some
      { offset := loadBytes m (p + 0) 2 + loadBytes m (p + 6) 2 * 2 ^ 16
        selector := loadBytes m (p + 2) 2
        type := flags % 16
        dpl := flags / 32 % 4
        present := flags.testBit 7 }
  else none

/-- `gdt_set_gate`. The fourth assignment is to the lower half of `limit_high_attr2`, and the one behind it
to the upper half. -/
def gdtFields (base limit attr : ℕ) : List Field :=
  [⟨2, 2, base &&& 0xFFFF⟩, ⟨4, 1, (base >>> 16) &&& 0xFF⟩, ⟨7, 1, (base >>> 24) &&& 0xFF⟩,
    ⟨0, 2, limit &&& 0xFFFF⟩, ⟨6, 1, ((limit >>> 16) &&& 0x0F) ||| ((attr >>> 8) &&& 0xF0)⟩,
    ⟨5, 1, attr &&& 0xFF⟩]

/-- The arguments of `gdt_set_gate`. -/
structure GdtCall where
  num : ℕ
  base : ℕ
  limit : ℕ
  attr : ℕ
deriving DecidableEq, Repr

@[inherit_doc gdtFields]
def gdtSetGate (gdt : ℕ) (m : Mem) (c : GdtCall) : Mem :=
  storeFields m (gdt + 8 * c.num) (gdtFields c.base c.limit c.attr)

/-- The calls of `gdt_init`, with the address and the size of `tss`. -/
def gdtInitCalls (tss size : ℕ) : List GdtCall :=
  [⟨0, 0, 0, 0⟩, ⟨1, 0, 0xFFFFF, 0x9A ||| 0x4000 ||| 0x8000 ||| 0x00⟩,
    ⟨2, 0, 0xFFFFF, 0x92 ||| 0x4000 ||| 0x8000 ||| 0x00⟩,
    ⟨3, 0, 0xFFFFF, 0x9A ||| 0x4000 ||| 0x8000 ||| 0x60⟩,
    ⟨4, 0, 0xFFFFF, 0x92 ||| 0x4000 ||| 0x8000 ||| 0x60⟩, ⟨5, tss, size - 1, 0x89⟩]

/-- `gdt_init` -/
def gdtInit (gdt tss : ℕ) (m : Mem) : Mem := (gdtInitCalls tss 104).foldl (gdtSetGate gdt) m

/-- What a descriptor says. -/
structure Segment where
  base : ℕ
  limit : ℕ
  /-- type, privilege level and presence -/
  access : ℕ
  /-- granularity and size -/
  flags : ℕ
deriving DecidableEq, Repr

/-- The descriptor that the processor finds for a selector. -/
def Segment.read (m : Mem) (gdt num : ℕ) : Segment :=
  let p := gdt + 8 * num
  { base := loadBytes m (p + 2) 2 + loadBytes m (p + 4) 1 * 2 ^ 16 + loadBytes m (p + 7) 1 * 2 ^ 24
    limit := loadBytes m (p + 0) 2 + loadBytes m (p + 6) 1 % 16 * 2 ^ 16
    access := loadBytes m (p + 5) 1
    flags := loadBytes m (p + 6) 1 / 16 }

/-- What a call asks for. -/
def GdtCall.segment (c : GdtCall) : Segment := ⟨c.base, c.limit, c.attr % 2 ^ 8, c.attr / 2 ^ 12⟩

/-- The arguments fit: 32 bits for the base, 20 for the limit, and 16 for the attributes. -/
structure GdtCall.Fits (c : GdtCall) : Prop where
  base : c.base < 2 ^ 32
  limit : c.limit < 2 ^ 20
  attr : c.attr < 2 ^ 16

section I386

variable {isrFunc : ℕ → ℕ} {idtEntries gdt vec base flags : ℕ} {m : Mem}

theorem idtGateFields_apart (base flags : ℕ) : (idtGateFields base flags).Pairwise Field.Apart := by
  simp [idtGateFields, Field.Apart]

theorem idtGateFields_le (base flags : ℕ) : ∀ f ∈ idtGateFields base flags, f.offset + f.size ≤ 8 := by
  simp [idtGateFields]

/-- The flags of a vector. -/
def gateFlags (vec : ℕ) : ℕ := da386IGate ||| if vec = intSyscall then daDpl3 else 0

/-- The loop of `idt_init` writes a table of gates, vector by vector; only the gate of `int 0x80` may be
used by programs. -/
theorem idtLoop_eq (n : ℕ) : (List.range n).foldl (fun m vec =>
      let dpl := if vec = intSyscall then daDpl3 else 0
      idtSetGate idtEntries m vec (isrFunc vec) (da386IGate ||| dpl)) m =
    storeTable m idtEntries 8 (fun vec => idtGateFields (isrFunc vec) (gateFlags vec)) n := rfl

theorem idtInit_fst : (idtInit isrFunc idtEntries m).1 =
    storeTable m idtEntries 8 (fun vec => idtGateFields (isrFunc vec) (gateFlags vec)) 256 := by
  rw [idtInit, idtLoop_eq]

/-- **Every vector leads to its handler**, with interrupts disabled; the one for system calls may be raised
by user code. -/
theorem i386Gate_read_idtInit (isrFunc : ℕ → ℕ) (hisr : ∀ vec < 256, isrFunc vec < 2 ^ 32) (idtEntries : ℕ)
    (m : Mem) :
    (∀ vec < 256, Gate.read (idtInit isrFunc idtEntries m).1 (idtInit isrFunc idtEntries m).2 vec = some
      { offset := isrFunc vec
        selector := 8
        type := 0xE
        dpl := if vec = 128 then 3 else 0
        present := true }) ∧
    (∀ vec ≥ 256, Gate.read (idtInit isrFunc idtEntries m).1 (idtInit isrFunc idtEntries m).2 vec = none) ∧
    ∀ a, a < idtEntries ∨ idtEntries + 2048 ≤ a → (idtInit isrFunc idtEntries m).1 a = m a := by
  refine ⟨fun vec hvec => ?_, fun vec hvec => ?_, fun a ha => ?_⟩
  · have hread : ∀ f ∈ idtGateFields (isrFunc vec) (gateFlags vec),
        loadBytes (idtInit isrFunc idtEntries m).1 (idtEntries + 8 * vec + f.offset) f.size =
          f.value % 256 ^ f.size := by
      intro f hf
      rw [idtInit_fst]
      exact loadBytes_storeTable _ (fun _ _ => idtGateFields_le _ _) (fun _ _ => idtGateFields_apart _ _)
        hvec hf
    have hptr : (idtInit isrFunc idtEntries m).2 = ⟨2047, idtEntries⟩ := rfl
    have hoffset := pieces_eq ((hisr vec hvec).trans (by norm_num))
    have hhigh : isrFunc vec >>> 32 = 0 := by
      rw [Nat.shiftRight_eq_div_pow, Nat.div_eq_of_lt (hisr vec hvec)]
    rw [hhigh, Nat.zero_and, Nat.zero_mod, Nat.zero_mul, Nat.add_zero] at hoffset
    rw [Gate.read, hptr, if_pos (by dsimp only; omega)]
    dsimp only
    rw [hread ⟨0, 2, _⟩ (by simp [idtGateFields]; rfl), hread ⟨6, 2, _⟩ (by simp [idtGateFields]; rfl),
      hread ⟨2, 2, _⟩ (by simp [idtGateFields]; rfl), hread ⟨5, 1, _⟩ (by simp [idtGateFields]; rfl), hoffset]
    unfold gateFlags intSyscall
    split <;> rfl
  · rw [Gate.read, if_neg]
    simp only [idtInit]
    omega
  · rw [idtInit_fst]
    exact storeTable_outside _ (fun _ _ => idtGateFields_le _ _) (by omega)

theorem i386Gate_read_idtInit_syscall :
    Gate.read (idtInit (fun vec => 0xC0100000 + 16 * vec) 0xC0004000 fun _ => 0xFF).1
      (idtInit (fun vec => 0xC0100000 + 16 * vec) 0xC0004000 fun _ => 0xFF).2 128 =
        some ⟨0xC0100800, 8, 0xE, 3, true⟩ :=
  (i386Gate_read_idtInit (fun vec => 0xC0100000 + 16 * vec) (fun vec hvec => by omega) 0xC0004000
    fun _ => 0xFF).1 128 (by decide)

theorem gdtFields_apart (base limit attr : ℕ) : (gdtFields base limit attr).Pairwise Field.Apart := by
  simp [gdtFields, Field.Apart]

theorem gdtFields_le (base limit attr : ℕ) : ∀ f ∈ gdtFields base limit attr, f.offset + f.size ≤ 8 := by
  simp [gdtFields]

/-- **A segment reads as it was set**: decoded by the processor, the entry has the base, the limit, the
access byte and the flags of the call. -/
theorem segment_read_self (c : GdtCall) (hc : c.Fits) :
    Segment.read (gdtSetGate gdt m c) gdt c.num = c.segment := by
  obtain ⟨hbase, hlimit, hattr⟩ := hc
  have hread : ∀ f ∈ gdtFields c.base c.limit c.attr,
      loadBytes (gdtSetGate gdt m c) (gdt + 8 * c.num + f.offset) f.size = f.value % 256 ^ f.size :=
    fun f hf => loadBytes_storeFields (gdtFields_apart _ _ _) hf
  have h16 : ∀ x : ℕ, x &&& 0xFFFF = x % 2 ^ 16 := fun x => Nat.and_two_pow_sub_one_eq_mod x 16
  have h8 : ∀ x : ℕ, x &&& 0xFF = x % 2 ^ 8 := fun x => Nat.and_two_pow_sub_one_eq_mod x 8
  have h4 : ∀ x : ℕ, x &&& 0x0F = x % 2 ^ 4 := fun x => Nat.and_two_pow_sub_one_eq_mod x 4
  have hhigh : (c.attr >>> 8) &&& 0xF0 = c.attr / 2 ^ 12 * 2 ^ 4 := by
    rw [show (0xF0 : ℕ) = Bits.highMask 8 4 from rfl, Nat.shiftRight_eq_div_pow,
      Bits.and_highMask (by omega) (by omega)]
    omega
  have hor : ((c.limit >>> 16) &&& 0x0F) ||| ((c.attr >>> 8) &&& 0xF0) =
      c.limit / 2 ^ 16 + c.attr / 2 ^ 12 * 2 ^ 4 := by
    rw [hhigh, h4, Nat.or_comm, Nat.shiftRight_eq_div_pow,
      Bits.or_eq_add_of_low (Dvd.intro_left _ rfl) (Nat.mod_lt _ (by decide))]
    omega
  rw [Segment.read]
  rw [hread ⟨2, 2, _⟩ (by simp [gdtFields]; rfl), hread ⟨4, 1, _⟩ (by simp [gdtFields]; rfl),
    hread ⟨7, 1, _⟩ (by simp [gdtFields]; rfl), hread ⟨0, 2, _⟩ (by simp [gdtFields]; rfl),
    hread ⟨6, 1, _⟩ (by simp [gdtFields]; rfl), hread ⟨5, 1, _⟩ (by simp [gdtFields]; rfl), hor]
  dsimp only
  rw [h16, h16, h8, h8, h8, Nat.shiftRight_eq_div_pow, Nat.shiftRight_eq_div_pow, GdtCall.segment]
  congr 1 <;> omega

/-- Setting one segment leaves the others as they were. -/
theorem segment_read_of_ne {n : ℕ} (c : GdtCall) (hn : n ≠ c.num) :
    Segment.read (gdtSetGate gdt m c) gdt n = Segment.read m gdt n := by
  have hload : ∀ o k, o + k ≤ 8 → loadBytes (gdtSetGate gdt m c) (gdt + 8 * n + o) k =
      loadBytes m (gdt + 8 * n + o) k := by
    intro o k hk
    refine loadBytes_storeFields_of_apart fun f hf => ?_
    have := gdtFields_le _ _ _ f hf
    omega
  rw [Segment.read, Segment.read]
  rw [hload 2 2 (by omega), hload 4 1 (by omega), hload 7 1 (by omega), hload 0 2 (by omega),
    hload 6 1 (by omega), hload 5 1 (by omega)]

/-- **Whatever calls of `gdt_set_gate` there are, a segment is what the last one for it has set,** and without
one it is what it was. -/
theorem segment_read_gdtSetGates (gdt : ℕ) (m : Mem) (calls : List GdtCall) (hcalls : ∀ c ∈ calls, c.Fits)
    (n : ℕ) :
    Segment.read (calls.foldl (gdtSetGate gdt) m) gdt n =
      ((calls.reverse.find? fun c => c.num = n).map GdtCall.segment).getD (Segment.read m gdt n) := by
  induction calls using List.reverseRecOn with
  | nil => rfl
  | append_singleton calls c ih =>
    rw [List.foldl_append, List.foldl_cons, List.foldl_nil, List.reverse_append, List.reverse_singleton,
      List.singleton_append]
    by_cases hn : c.num = n
    · subst hn
      rw [segment_read_self c (hcalls c (by simp)), List.find?_cons_of_pos (by simp)]
      rfl
    · rw [segment_read_of_ne c (Ne.symm hn), List.find?_cons_of_neg (by simpa using hn)]
      exact ih fun c hc => hcalls c (by simp [hc])

/-- `gdt_init` sets a code segment from 0 on that is 4 GiB long, wherever the tables are. -/
theorem segment_read_gdtInit :
    Segment.read (gdtInit 0xC0005000 0xC0006000 fun _ => 0xFF) 0xC0005000 1 = ⟨0, 0xFFFFF, 0x9A, 0xC⟩ :=
  segment_read_gdtSetGates 0xC0005000 (fun _ => 0xFF) (gdtInitCalls 0xC0006000 104)
    (fun c hc => by
      simp only [gdtInitCalls, List.mem_cons, List.not_mem_nil, or_false] at hc
      rcases hc with rfl | rfl | rfl | rfl | rfl | rfl <;> exact ⟨by decide, by decide, by decide⟩) 1

end I386

end I386

end GeekToyOS
