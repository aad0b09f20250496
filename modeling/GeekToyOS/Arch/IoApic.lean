import GeekToyOS.Data.Bits
import GeekToyOS.Data.Search

/-!
# I/O APICs

The part of `src/arch/x86/apic.c` that programs I/O APICs. The registers of one are reached through a pair:
the index goes to one address, the data to another. A redirection entry is two registers, and the index
has eight bits, so that an I/O APIC has at most 120 entries.

`panic` does not return: a call that would is `none`.

## Main definitions

* `IoApic`, `IoApics` — the registers, and `ioapic_list`
* `gsiToIoapic`, `ioapicRedirect`, `ioapicMask`, `ioapicUnmask`, `ioapicInit`
* `IoApics.slot` — the entry that belongs to a GSI, by the test of `gsi_to_ioapic`
* `Programs` — one entry was written, and no other register

## Main results

* `gsiToIoapic_eq`, `ioapicRedirect_eq`, `ioapicChange_eq` — what the calls do
-/

namespace GeekToyOS

/-- `IRQ_BASE` -/
def irqBase : BitVec 32 := 32

/-- `APIC_IRQ_MASK` -/
def apicIrqMask : BitVec 64 := 0x10000

/-- `IOAPIC_REG_VER` -/
def ioapicRegVer : BitVec 8 := 1

/-- `IOAPIC_REG_REDTBL` -/
def ioapicRegRedtbl : BitVec 32 := 16

/-- The index of the last redirection entry, from the version register. -/
def maxRedirs (version : BitVec 32) : BitVec 32 := (version &&& 0xFF0000) >>> 16

/-- `struct ioapic_info` with the registers of the I/O APIC. -/
structure IoApic where
  gsiBase : BitVec 32
  /-- the version register, which is read-only -/
  version : BitVec 32
  /-- the index of the register to be accessed -/
  regsel : BitVec 8
  /-- the other registers -/
  reg : BitVec 8 → BitVec 32
  /-- the last redirection entry has registers -/
  fits : maxRedirs version < 120

/-- `ioapic_list`, with `ioapic_list_size` entries. -/
structure IoApics where
  size : ℕ
  apic : ℕ → IoApic

/-- `struct madt_entry_override` -/
structure Override where
  source : BitVec 8
  gsi : BitVec 32
  flags : BitVec 16
deriving DecidableEq, Repr

/-! ### Registers -/

/-- `ioapic_read` -/
def ioapicRead (a : IoApic) (reg : BitVec 8) : BitVec 32 × IoApic :=
  (if reg = ioapicRegVer then a.version else a.reg reg, { a with regsel := reg })

/-- `ioapic_write` -/
def ioapicWrite (a : IoApic) (reg : BitVec 8) (data : BitVec 32) : IoApic :=
  { a with
    regsel := reg
    reg := if reg = ioapicRegVer then a.reg else Function.update a.reg reg data }

section Registers

variable (a : IoApic) (r : BitVec 8) (data : BitVec 32)

@[simp] theorem ioapicRead_gsiBase : (ioapicRead a r).2.gsiBase = a.gsiBase := rfl

@[simp] theorem ioapicRead_version : (ioapicRead a r).2.version = a.version := rfl

@[simp] theorem ioapicRead_reg : (ioapicRead a r).2.reg = a.reg := rfl

@[simp] theorem ioapicRead_ver : (ioapicRead a ioapicRegVer).1 = a.version := rfl

variable {r}

@[simp] theorem ioapicRead_fst (h : r ≠ ioapicRegVer) : (ioapicRead a r).1 = a.reg r := if_neg h

@[simp] theorem ioapicWrite_gsiBase : (ioapicWrite a r data).gsiBase = a.gsiBase := rfl

@[simp] theorem ioapicWrite_version : (ioapicWrite a r data).version = a.version := rfl

@[simp] theorem ioapicWrite_reg (h : r ≠ ioapicRegVer) :
    (ioapicWrite a r data).reg = Function.update a.reg r data := if_neg h

end Registers

/-- `ioapic_redtbl_read` -/
def ioapicRedtblRead (a : IoApic) (irqLine : BitVec 8) : BitVec 64 × IoApic :=
  let ioredtbl := irqLine.setWidth 32 * 2 + ioapicRegRedtbl
  let low := ioapicRead a (ioredtbl.setWidth 8)
  let high := ioapicRead low.2 ((ioredtbl + 1).setWidth 8)
  (low.1.setWidth 64 ||| high.1.setWidth 64 <<< 32, high.2)

/-- `ioapic_redtbl_write` -/
def ioapicRedtblWrite (a : IoApic) (irqLine : BitVec 8) (value : BitVec 64) : IoApic :=
  let ioredtbl := irqLine.setWidth 32 * 2 + ioapicRegRedtbl
  let a := ioapicWrite a ((ioredtbl + 0).setWidth 8) (value.setWidth 32)
  ioapicWrite a ((ioredtbl + 1).setWidth 8) ((value >>> 32).setWidth 32)

/-! ### Finding the I/O APIC -/

namespace IoApics

/-- The I/O APIC at `i` after a call. -/
def set (s : IoApics) (i : ℕ) (a : IoApic) : IoApics := { s with apic := Function.update s.apic i a }

@[simp] theorem set_size (s : IoApics) (i : ℕ) (a : IoApic) : (s.set i a).size = s.size := rfl

@[simp] theorem set_apic_self (s : IoApics) (i : ℕ) (a : IoApic) : (s.set i a).apic i = a := by
  simp [set]

@[simp] theorem set_apic_of_ne (s : IoApics) {i j : ℕ} (h : j ≠ i) (a : IoApic) :
    (s.set i a).apic j = s.apic j := by
  simp [set, h]

end IoApics

/-- `get_max_redirs` -/
def getMaxRedirs (s : IoApics) (i : ℕ) : BitVec 32 × IoApics :=
  let r := ioapicRead (s.apic i) ioapicRegVer
  (maxRedirs r.1, s.set i r.2)

@[simp] theorem getMaxRedirs_fst (s : IoApics) (i : ℕ) :
    (getMaxRedirs s i).1 = maxRedirs (s.apic i).version := rfl

@[simp] theorem getMaxRedirs_snd (s : IoApics) (i : ℕ) :
    (getMaxRedirs s i).2 = s.set i (ioapicRead (s.apic i) ioapicRegVer).2 := rfl

/-- The loop of `gsi_to_ioapic`, with `n` I/O APICs left. -/
def gsiLoop (gsi : BitVec 32) : ℕ → ℕ → IoApics → Option (ℕ × IoApics)
  -- `panic("I/O APIC not found for GSI %u", gsi)`
  | 0, _, _ => none
  | n + 1, i, s =>
    let r := getMaxRedirs s i
    let s := r.2
    if (s.apic i).gsiBase ≤ gsi ∧ (s.apic i).gsiBase + r.1 > gsi then some (i, s)
    else gsiLoop gsi n (i + 1) s

/-- `gsi_to_ioapic` -/
def gsiToIoapic (s : IoApics) (gsi : BitVec 32) : Option (ℕ × IoApics) := gsiLoop gsi s.size 0 s

/-! ### The calls -/

/-- The entry that `ioapic_redirect` makes. -/
def redirection (gsi : BitVec 32) (flags : BitVec 16) (targetApicId : BitVec 8) : BitVec 64 :=
  let redirection := (gsi + irqBase).setWidth 64
  let redirection := if flags &&& 2 ≠ 0 then redirection ||| (1 : BitVec 64) <<< 13 else redirection
  let redirection := if flags &&& 8 ≠ 0 then redirection ||| (1 : BitVec 64) <<< 15 else redirection
  redirection ||| targetApicId.setWidth 64 <<< 56

/-- `ioapic_redirect`; `lapicId` are the `id`s of `lapic_list`. -/
def ioapicRedirect (lapicId : ℕ → BitVec 8) (s : IoApics) (gsi : BitVec 32) (_source : BitVec 8)
    (flags : BitVec 16) (targetApic : BitVec 8) : Option IoApics :=
  (gsiToIoapic s gsi).map fun (i, s) =>
    let ioapic := s.apic i
    s.set i (ioapicRedtblWrite ioapic ((gsi - ioapic.gsiBase).setWidth 8)
      (redirection gsi flags (lapicId targetApic.toNat)))

/-- `ioapic_mask` and `ioapic_unmask`: `change` is what happens to the entry. -/
def ioapicChange (change : BitVec 64 → BitVec 64) (s : IoApics) (gsi : BitVec 32) : Option IoApics :=
  (gsiToIoapic s gsi).map fun (i, s) =>
    let ioapic := s.apic i
    let irqLine := (gsi - ioapic.gsiBase).setWidth 8
    let prev := ioapicRedtblRead ioapic irqLine
    s.set i (ioapicRedtblWrite prev.2 irqLine (change prev.1))

/-- `ioapic_mask` -/
def ioapicMask (s : IoApics) (gsi : BitVec 32) : Option IoApics := ioapicChange (· ||| apicIrqMask) s gsi

/-- `ioapic_unmask` -/
def ioapicUnmask (s : IoApics) (gsi : BitVec 32) : Option IoApics := ioapicChange (· &&& ~~~apicIrqMask) s gsi

/-- One turn of the loops of `ioapic_init`. -/
def ioapicInitStep (lapicId : ℕ → BitVec 8) (s : IoApics) (o : Override) : Option IoApics :=
  (ioapicRedirect lapicId s o.gsi o.source o.flags 0).bind fun s => ioapicMask s o.gsi

/-- The wirings of the legacy interrupts. -/
def legacyWirings : List Override := (List.range 16).map fun i => ⟨BitVec.ofNat 8 i, BitVec.ofNat 32 i, 0⟩

/-- `ioapic_init` -/
def ioapicInit (lapicId : ℕ → BitVec 8) (s : IoApics) (overrides : List Override) : Option IoApics :=
  (legacyWirings.foldlM (ioapicInitStep lapicId) s).bind fun s =>
    overrides.foldlM (ioapicInitStep lapicId) s

/-! ### Redirection entries -/

namespace IoApic

/-- The register with the low half of an entry. -/
def lowReg (n : Fin 120) : BitVec 8 := BitVec.ofNat 8 (16 + 2 * n)

/-- The register with the high half. -/
def highReg (n : Fin 120) : BitVec 8 := BitVec.ofNat 8 (17 + 2 * n)

/-- **A redirection entry.** -/
def entry (a : IoApic) (n : Fin 120) : BitVec 64 := a.reg (highReg n) ++ a.reg (lowReg n)

/-- The registers are the same, whichever is selected. -/
structure Same (a a' : IoApic) : Prop where
  gsiBase : a'.gsiBase = a.gsiBase
  version : a'.version = a.version
  reg : a'.reg = a.reg

theorem Same.refl (a : IoApic) : a.Same a := ⟨rfl, rfl, rfl⟩

theorem Same.trans {a a' a'' : IoApic} (h : a.Same a') (h' : a'.Same a'') : a.Same a'' :=
  ⟨h'.gsiBase.trans h.gsiBase, h'.version.trans h.version, h'.reg.trans h.reg⟩

theorem Same.entry {a a' : IoApic} (h : a.Same a') (n : Fin 120) : a'.entry n = a.entry n := by
  rw [IoApic.entry, IoApic.entry, h.reg]

theorem lowReg_toNat (n : Fin 120) : (lowReg n).toNat = 16 + 2 * n := by
  rw [lowReg, BitVec.toNat_ofNat]
  omega

theorem highReg_toNat (n : Fin 120) : (highReg n).toNat = 17 + 2 * n := by
  rw [highReg, BitVec.toNat_ofNat]
  omega

/-- The code's arithmetic finds the registers of an entry. -/
theorem lowReg_eq (n : Fin 120) :
    ((BitVec.ofNat 8 n).setWidth 32 * 2 + ioapicRegRedtbl).setWidth 8 = lowReg n := by
  apply BitVec.eq_of_toNat_eq
  rw [lowReg_toNat]
  simp [ioapicRegRedtbl]
  omega

theorem highReg_eq (n : Fin 120) :
    ((BitVec.ofNat 8 n).setWidth 32 * 2 + ioapicRegRedtbl + 1).setWidth 8 = highReg n := by
  apply BitVec.eq_of_toNat_eq
  rw [highReg_toNat]
  simp [ioapicRegRedtbl]
  omega

theorem lowReg_ne_ver (n : Fin 120) : lowReg n ≠ ioapicRegVer := fun h => by
  have := congrArg BitVec.toNat h
  rw [lowReg_toNat, ioapicRegVer] at this
  simp at this
  omega

theorem highReg_ne_ver (n : Fin 120) : highReg n ≠ ioapicRegVer := fun h => by
  have := congrArg BitVec.toNat h
  rw [highReg_toNat, ioapicRegVer] at this
  simp at this
  omega

theorem lowReg_inj {n m : Fin 120} : lowReg m = lowReg n ↔ m = n := by
  rw [← BitVec.toNat_inj, lowReg_toNat, lowReg_toNat]
  omega

theorem highReg_inj {n m : Fin 120} : highReg m = highReg n ↔ m = n := by
  rw [← BitVec.toNat_inj, highReg_toNat, highReg_toNat]
  omega

theorem lowReg_ne_highReg (n m : Fin 120) : lowReg m ≠ highReg n := fun h => by
  have := congrArg BitVec.toNat h
  rw [lowReg_toNat, highReg_toNat] at this
  omega

/-- **The entry is read**, both of its halves, and no register but the selection changes. -/
theorem ioapicRedtblRead_eq (a : IoApic) (n : Fin 120) :
    (ioapicRedtblRead a (BitVec.ofNat 8 n)).1 = a.entry n ∧
      a.Same (ioapicRedtblRead a (BitVec.ofNat 8 n)).2 := by
  rw [ioapicRedtblRead, lowReg_eq, highReg_eq, ioapicRead_fst a (lowReg_ne_ver n),
    ioapicRead_fst _ (highReg_ne_ver n), ioapicRead_reg]
  refine ⟨BitVec.eq_of_getLsbD_eq fun i hi => ?_, by simp, by simp, by simp⟩
  rw [IoApic.entry, BitVec.getLsbD_append, BitVec.getLsbD_or, BitVec.getLsbD_setWidth,
    BitVec.getLsbD_shiftLeft, BitVec.getLsbD_setWidth]
  by_cases h : i < 32
  · simp [h, hi]
  · rw [BitVec.getLsbD_of_ge (a.reg (lowReg n)) i (by omega)]
    simp [h, hi, show i - 32 < 64 by omega]

/-- **The entry is written**, and no other register. -/
structure Sets (a a' : IoApic) (n : Fin 120) (v : BitVec 64) : Prop where
  gsiBase : a'.gsiBase = a.gsiBase
  version : a'.version = a.version
  entry : ∀ m, a'.entry m = if m = n then v else a.entry m
  others : ∀ r, r.toNat < 16 → a'.reg r = a.reg r

theorem Sets.of_same {a a' a'' : IoApic} {n : Fin 120} {v : BitVec 64} (h' : a'.Sets a'' n v)
    (h : a.Same a') : a.Sets a'' n v where
  gsiBase := h'.gsiBase.trans h.gsiBase
  version := h'.version.trans h.version
  entry m := by rw [h'.entry, h.entry]
  others r hr := by rw [h'.others r hr, h.reg]

@[simp] theorem ioapicRedtblWrite_gsiBase (a : IoApic) (irqLine : BitVec 8) (v : BitVec 64) :
    (ioapicRedtblWrite a irqLine v).gsiBase = a.gsiBase := rfl

@[simp] theorem ioapicRedtblWrite_version (a : IoApic) (irqLine : BitVec 8) (v : BitVec 64) :
    (ioapicRedtblWrite a irqLine v).version = a.version := rfl

@[simp] theorem ioapicRedtblWrite_reg (a : IoApic) (n : Fin 120) (v : BitVec 64) :
    (ioapicRedtblWrite a (BitVec.ofNat 8 n) v).reg =
      Function.update (Function.update a.reg (lowReg n) (v.setWidth 32)) (highReg n)
        ((v >>> 32).setWidth 32) := by
  have hzero : ∀ x : BitVec 32, x + 0 = x := fun x => BitVec.add_zero x
  rw [ioapicRedtblWrite, hzero, lowReg_eq, highReg_eq, ioapicWrite_reg _ _ (highReg_ne_ver n),
    ioapicWrite_reg _ _ (lowReg_ne_ver n)]

theorem ioapicRedtblWrite_sets (a : IoApic) (n : Fin 120) (v : BitVec 64) :
    a.Sets (ioapicRedtblWrite a (BitVec.ofNat 8 n) v) n v := by
  refine ⟨by simp, by simp, fun m => ?_, fun r hr => ?_⟩
  · rw [IoApic.entry, IoApic.entry, ioapicRedtblWrite_reg]
    by_cases h : m = n
    · subst h
      rw [if_pos rfl, Function.update_self, Function.update_of_ne (lowReg_ne_highReg m m),
        Function.update_self]
      refine BitVec.eq_of_getLsbD_eq fun i hi => ?_
      rw [BitVec.getLsbD_append]
      by_cases hlow : i < 32
      · simp [hlow]
      · simp [hlow, show i - 32 < 32 by omega, show 32 + (i - 32) = i by omega]
    · rw [if_neg h, Function.update_of_ne (mt highReg_inj.mp h),
        Function.update_of_ne (lowReg_ne_highReg m n).symm,
        Function.update_of_ne (lowReg_ne_highReg n m), Function.update_of_ne (mt lowReg_inj.mp h)]
  · have hlow : r ≠ lowReg n := fun h => by
      rw [h, lowReg_toNat] at hr
      omega
    have hhigh : r ≠ highReg n := fun h => by
      rw [h, highReg_toNat] at hr
      omega
    rw [ioapicRedtblWrite_reg, Function.update_of_ne hhigh, Function.update_of_ne hlow]

/-- The test of `gsi_to_ioapic`. -/
def covers (gsi : BitVec 32) (a : IoApic) : Bool :=
  a.gsiBase ≤ gsi ∧ a.gsiBase + maxRedirs a.version > gsi

/-- The entry of a GSI. -/
def line (a : IoApic) (gsi : BitVec 32) : Fin 120 := Fin.ofNat 120 (gsi - a.gsiBase).toNat

theorem Same.covers {a a' : IoApic} (h : a.Same a') (gsi : BitVec 32) : a'.covers gsi = a.covers gsi := by
  rw [IoApic.covers, IoApic.covers, h.gsiBase, h.version]

theorem Same.line {a a' : IoApic} (h : a.Same a') (gsi : BitVec 32) : a'.line gsi = a.line gsi := by
  rw [IoApic.line, IoApic.line, h.gsiBase]

end IoApic

/-! ### The calls on the entries -/

namespace IoApics

variable {s s' s'' : IoApics} {gsi : BitVec 32} {k : ℕ × Fin 120} {v : BitVec 64}

/-- All redirection entries. -/
def entries (s : IoApics) (k : ℕ × Fin 120) : BitVec 64 := (s.apic k.1).entry k.2

/-- Where `gsi_to_ioapic` stops. -/
def find (s : IoApics) (gsi : BitVec 32) : Option ℕ :=
  (List.range s.size).find? fun i => (s.apic i).covers gsi

theorem covers_of_find {i : ℕ} (h : s.find gsi = some i) : (s.apic i).covers gsi = true :=
  List.find?_some (p := fun i => (s.apic i).covers gsi) h

/-- **The entry that belongs to a GSI**, if there is an I/O APIC for it. -/
def slot (s : IoApics) (gsi : BitVec 32) : Option (ℕ × Fin 120) :=
  (s.find gsi).map fun i => (i, (s.apic i).line gsi)

/-- All but the redirection entries is the same. -/
structure SameBut (s s' : IoApics) : Prop where
  size : s'.size = s.size
  gsiBase : ∀ i, (s'.apic i).gsiBase = (s.apic i).gsiBase
  version : ∀ i, (s'.apic i).version = (s.apic i).version
  others : ∀ i r, r.toNat < 16 → (s'.apic i).reg r = (s.apic i).reg r

theorem SameBut.refl (s : IoApics) : s.SameBut s := ⟨rfl, fun _ => rfl, fun _ => rfl, fun _ _ _ => rfl⟩

theorem SameBut.trans (h : s.SameBut s') (h' : s'.SameBut s'') : s.SameBut s'' where
  size := h'.size.trans h.size
  gsiBase i := (h'.gsiBase i).trans (h.gsiBase i)
  version i := (h'.version i).trans (h.version i)
  others i r hr := (h'.others i r hr).trans (h.others i r hr)

theorem SameBut.slot (h : s.SameBut s') (gsi : BitVec 32) : s'.slot gsi = s.slot gsi := by
  rw [IoApics.slot, IoApics.slot, IoApics.find, IoApics.find, h.size]
  simp only [IoApic.covers, IoApic.line, h.gsiBase, h.version]

/-- **One entry was written**, and no other register. -/
structure Programs (s s' : IoApics) (k : ℕ × Fin 120) (v : BitVec 64) : Prop where
  sameBut : s.SameBut s'
  entries : s'.entries = Function.update s.entries k v

end IoApics

open IoApics

section Calls

variable {s s' : IoApics} {gsi : BitVec 32} {k : ℕ × Fin 120}

/-- Asking for the number of entries leaves the registers of every I/O APIC as they are. -/
theorem getMaxRedirs_eq (s : IoApics) (i : ℕ) : (getMaxRedirs s i).1 = maxRedirs (s.apic i).version ∧
    (getMaxRedirs s i).2.size = s.size ∧ ∀ j, (s.apic j).Same ((getMaxRedirs s i).2.apic j) := by
  refine ⟨getMaxRedirs_fst s i, by simp, fun j => ?_⟩
  by_cases h : j = i
  · subst h
    exact ⟨by simp, by simp, by simp⟩
  · rw [getMaxRedirs_snd, set_apic_of_ne s h]
    exact .refl _

theorem gsiLoop_eq (gsi : BitVec 32) (n i : ℕ) (s : IoApics) :
    ∃ s', gsiLoop gsi n i s =
      ((List.range' i n).find? fun j => (s.apic j).covers gsi).map (·, s') ∧
      s'.size = s.size ∧ ∀ j, (s.apic j).Same (s'.apic j) := by
  induction n generalizing i s with
  | zero => exact ⟨s, rfl, rfl, fun j => .refl _⟩
  | succ n ih =>
    obtain ⟨hmax, hsize, hsame⟩ := getMaxRedirs_eq s i
    rw [gsiLoop, List.range'_succ, hmax, (hsame i).gsiBase]
    by_cases h : (s.apic i).covers gsi
    · refine ⟨_, ?_, hsize, hsame⟩
      rw [List.find?_cons, h, if_pos (of_decide_eq_true h)]
      rfl
    · obtain ⟨s', hs', hsize', hsame'⟩ := ih (i + 1) (getMaxRedirs s i).2
      refine ⟨s', ?_, hsize'.trans hsize, fun j => ?_⟩
      · rw [List.find?_cons, Bool.eq_false_iff.mpr h, if_neg (mt (decide_eq_true ·) h), hs']
        simp only [(hsame _).covers]
      · exact (hsame j).trans (hsame' j)

/-- **`gsi_to_ioapic` finds the first I/O APIC that passes its test.** -/
theorem gsiToIoapic_eq (s : IoApics) (gsi : BitVec 32) :
    ∃ s', gsiToIoapic s gsi = (s.find gsi).map (·, s') ∧ s'.size = s.size ∧
      ∀ j, (s.apic j).Same (s'.apic j) := by
  obtain ⟨s', h⟩ := gsiLoop_eq gsi s.size 0 s
  rw [← List.range_eq_range'] at h
  exact ⟨s', h⟩

/-- What one I/O APIC had before it was set, and all the others still have, is as it was. -/
theorem apply_set_apic {β : Type*} (f : IoApic → β) {i : ℕ} {a : IoApic} (h : f a = f (s.apic i))
    (hsame : ∀ j, f (s'.apic j) = f (s.apic j)) (j : ℕ) : f ((s'.set i a).apic j) = f (s.apic j) := by
  by_cases hj : j = i
  · rw [hj, set_apic_self, h]
  · rw [set_apic_of_ne s' hj, hsame]

/-- An entry of the I/O APIC that was found is written. -/
theorem programs_set {i : ℕ} {a : IoApic} {n : Fin 120} {v : BitVec 64} (hsize : s'.size = s.size)
    (hsame : ∀ j, (s.apic j).Same (s'.apic j)) (h : (s.apic i).Sets a n v) :
    s.Programs (s'.set i a) (i, n) v := by
  have hgsi := apply_set_apic (·.gsiBase) h.gsiBase fun j => (hsame j).gsiBase
  have hversion := apply_set_apic (·.version) h.version fun j => (hsame j).version
  have hothers : ∀ j r, r.toNat < 16 → ((s'.set i a).apic j).reg r = (s.apic j).reg r := fun j r hr =>
    apply_set_apic (·.reg r) (h.others r hr) (fun j => congrFun (hsame j).reg r) j
  refine ⟨⟨hsize, hgsi, hversion, hothers⟩, funext fun ⟨j, m⟩ => ?_⟩
  change ((s'.set i a).apic j).entry m = _
  by_cases hj : j = i
  · subst hj
    rw [set_apic_self, h.entry]
    by_cases hm : m = n
    · rw [hm, if_pos rfl, Function.update_self]
    · rw [if_neg hm, Function.update_of_ne fun hc => hm (Prod.mk.inj hc).2]
      rfl
  · rw [set_apic_of_ne s' hj, Function.update_of_ne fun hc => hj (Prod.mk.inj hc).1]
    exact (hsame j).entry m

/-- An I/O APIC that passes the test has the line, and the index that the code computes for it is its
number. -/
theorem line_eq {a : IoApic} (h : a.covers gsi) :
    (a.line gsi : ℕ) = gsi.toNat - a.gsiBase.toNat ∧ a.gsiBase.toNat ≤ gsi.toNat ∧
      (gsi - a.gsiBase).setWidth 8 = BitVec.ofNat 8 (a.line gsi) := by
  obtain ⟨hlo, hhi⟩ := of_decide_eq_true h
  have hfits := a.fits
  rw [BitVec.le_def] at hlo
  rw [gt_iff_lt, BitVec.lt_def, BitVec.toNat_add] at hhi
  rw [BitVec.lt_def] at hfits
  have hsub : (gsi - a.gsiBase).toNat = gsi.toNat - a.gsiBase.toNat := BitVec.toNat_sub_of_le hlo
  have hlt := gsi.isLt
  have hmax : (maxRedirs a.version).toNat < 120 := hfits
  have hline : (a.line gsi : ℕ) = gsi.toNat - a.gsiBase.toNat := by
    rw [IoApic.line, hsub, Fin.val_ofNat]
    omega
  refine ⟨hline, hlo, BitVec.eq_of_toNat_eq ?_⟩
  rw [BitVec.toNat_setWidth, hsub, BitVec.toNat_ofNat, hline]

theorem slot_eq_some {i : ℕ} {n : Fin 120} : s.slot gsi = some (i, n) ↔
    s.find gsi = some i ∧ (s.apic i).line gsi = n := by
  rw [IoApics.slot, Option.map_eq_some_iff]
  constructor
  · rintro ⟨j, hj, heq⟩
    obtain ⟨rfl, rfl⟩ := Prod.mk.inj heq
    exact ⟨hj, rfl⟩
  · rintro ⟨hi, rfl⟩
    exact ⟨i, hi, rfl⟩

/-- Two GSIs do not share an entry: an entry has one line. -/
theorem slot_inj {g : BitVec 32} (h : s.slot gsi = some k) (h' : s.slot g = some k) : g = gsi := by
  obtain ⟨i, n⟩ := k
  obtain ⟨hi, hn⟩ := slot_eq_some.mp h
  obtain ⟨hi', hn'⟩ := slot_eq_some.mp h'
  obtain ⟨hline, hle, -⟩ := line_eq (covers_of_find hi)
  obtain ⟨hline', hle', -⟩ := line_eq (covers_of_find hi')
  apply BitVec.eq_of_toNat_eq
  have := congrArg Fin.val (hn.trans hn'.symm)
  omega

/-- **`ioapic_redirect` writes the entry of the GSI.** -/
theorem ioapicRedirect_eq (lapicId : ℕ → BitVec 8) (source : BitVec 8) (flags : BitVec 16)
    (target : BitVec 8) (hk : s.slot gsi = some k) :
    ∃ s', ioapicRedirect lapicId s gsi source flags target = some s' ∧
      s.Programs s' k (redirection gsi flags (lapicId target.toNat)) := by
  obtain ⟨i, n⟩ := k
  obtain ⟨hi, rfl⟩ := slot_eq_some.mp hk
  obtain ⟨t, ht, hsize, hsame⟩ := gsiToIoapic_eq s gsi
  rw [hi] at ht
  refine ⟨_, by rw [ioapicRedirect, ht, Option.map_some, Option.map_some], ?_⟩
  refine programs_set hsize hsame ?_
  have hline := (line_eq (covers_of_find hi)).2.2
  rw [(hsame i).gsiBase, hline]
  exact IoApic.ioapicRedtblWrite_sets _ _ _ |>.of_same (hsame i)

/-- **`ioapic_mask` and `ioapic_unmask` change the entry of the GSI.** -/
theorem ioapicChange_eq (change : BitVec 64 → BitVec 64) (hk : s.slot gsi = some k) :
    ∃ s', ioapicChange change s gsi = some s' ∧ s.Programs s' k (change (s.entries k)) := by
  obtain ⟨i, n⟩ := k
  obtain ⟨hi, rfl⟩ := slot_eq_some.mp hk
  obtain ⟨t, ht, hsize, hsame⟩ := gsiToIoapic_eq s gsi
  rw [hi] at ht
  refine ⟨_, by rw [ioapicChange, ht, Option.map_some, Option.map_some], ?_⟩
  refine programs_set hsize hsame ?_
  have hline := (line_eq (covers_of_find hi)).2.2
  obtain ⟨hprev, hread⟩ := IoApic.ioapicRedtblRead_eq (t.apic i) ((s.apic i).line gsi)
  rw [(hsame i).gsiBase, hline, hprev, (hsame i).entry]
  exact (IoApic.ioapicRedtblWrite_sets _ _ _).of_same ((hsame i).trans hread)

end Calls

end GeekToyOS
