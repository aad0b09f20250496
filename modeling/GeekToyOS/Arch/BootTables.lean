import GeekToyOS.Arch.I386Kmap
import GeekToyOS.Arch.PageTree
import GeekToyOS.Data.Dword

/-!
# The boot page tables

The part of `boot.S` that sets up the page tables, on `x86_64` and on i386, instruction by instruction, and
what the processor makes of the tables.

The tables are in `.init.bss`, which the boot loader clears. The code relies on that for the entries that it
does not write.

## Main definitions

* `BootInsn`, `BootState.run` — the instructions that the code uses
* `startTables`, `I386.startTables` — the code
* `memPaging`, `I386.memPaging` — tables in memory

## Main results

* `makepage_eq` — the loop `.loop_makepage` writes every entry of a table
* `translate_startTables`, `I386.translate_i386StartTables` — the low addresses are mapped twice, and no
  others
-/

namespace GeekToyOS

open Dword (load store Apart)

/-- The registers that the code uses. -/
inductive BootReg
  | eax | ebx | ecx
deriving DecidableEq, Repr

inductive BootInsn
  | movImm (r : BootReg) (v : BitVec 32)
  /-- `mov %q, %r` -/
  | mov (r q : BootReg)
  | or (r : BootReg) (v : BitVec 32)
  | sal (r : BootReg) (n : ℕ)
  /-- `xor %r, %r` -/
  | clear (r : BootReg)
  | inc (r : BootReg)
  /-- `mov %r, a` -/
  | store (a : BitVec 32) (r : BootReg)
  /-- `mov %r, (%b, %i, scale)` -/
  | storeAt (b i : BootReg) (scale : BitVec 32) (r : BootReg)
  /-- `movl $v, disp(%b, %i, scale)` -/
  | storeImm (v disp : BitVec 32) (b i : BootReg) (scale : BitVec 32)
deriving DecidableEq, Repr

structure BootState where
  reg : BootReg → BitVec 32
  mem : Dword.Mem

namespace BootState

def setReg (s : BootState) (r : BootReg) (v : BitVec 32) : BootState :=
  { s with reg := Function.update s.reg r v }

def exec (s : BootState) : BootInsn → BootState
  | .movImm r v => s.setReg r v
  | .mov r q => s.setReg r (s.reg q)
  | .or r v => s.setReg r (s.reg r ||| v)
  | .sal r n => s.setReg r (s.reg r <<< n)
  | .clear r => s.setReg r (s.reg r ^^^ s.reg r)
  | .inc r => s.setReg r (s.reg r + 1)
  | .store a r => { s with mem := store s.mem a (s.reg r) }
  | .storeAt b i scale r => { s with mem := store s.mem (s.reg b + s.reg i * scale) (s.reg r) }
  | .storeImm v disp b i scale => { s with mem := store s.mem (s.reg b + s.reg i * scale + disp) v }

def run (s : BootState) (l : List BootInsn) : BootState := l.foldl exec s

/-- The loop `.loop_makepage`, which ends with `cmp $n, %ecx` and `jl`. -/
def makepage (body : List BootInsn) (n : BitVec 32) : ℕ → BootState → Option BootState
  | 0, _ => none
  | fuel + 1, s =>
    let s := s.run body
    if (s.reg .ecx).slt n then makepage body n fuel s else some s

end BootState

/-- The entries of the tables up to the loop: the address of a table, and where it is written. -/
def bootEntries (pgd pud pmd : BitVec 32) : List BootInsn :=
  [.movImm .eax pud, .or .eax 3, .store pgd .eax, .movImm .ecx 256, .movImm .ebx pgd,
    .storeAt .ebx .ecx 8 .eax, .movImm .eax pmd, .or .eax 3, .store pud .eax, .clear .ecx,
    .movImm .ebx pmd]

/-- The body of the loop. -/
def bootPage : List BootInsn :=
  [.mov .eax .ecx, .sal .eax 21, .or .eax 0x83, .storeAt .ebx .ecx 8 .eax, .storeImm 0 4 .ebx .ecx 8,
    .inc .ecx]

/-- The code of `start`, from `mov $pud, %eax` to the write of `cr3`. -/
def startTables (pgd pud pmd : BitVec 32) (fuel : ℕ) (s : BootState) : Option BootState :=
  ((s.run (bootEntries pgd pud pmd)).makepage bootPage 512 fuel).map fun s =>
    s.run [.clear .eax, .store (pgd + 4) .eax, .store (pud + 4) .eax, .movImm .eax pgd]

/-- The tables in a memory. -/
def memPaging (m : Dword.Mem) : Paging Unit where
  entry t i := (load m (BitVec.ofNat 32 (t + 8 * i))).toNat +
    2 ^ 32 * (load m (BitVec.ofNat 32 (t + 8 * i + 4))).toNat
  kernelPgd := 0
  pages := ()

namespace I386

/-- The entries up to the loop. -/
def bootEntries (pagedir pagetable : BitVec 32) : List BootInsn :=
  [.movImm .eax pagetable, .or .eax 3, .store pagedir .eax, .movImm .ecx 768, .movImm .ebx pagedir,
    .storeAt .ebx .ecx 4 .eax, .clear .ecx, .movImm .ebx pagetable]

/-- The body of the loop. -/
def bootPage : List BootInsn :=
  [.mov .eax .ecx, .sal .eax 12, .or .eax 3, .storeAt .ebx .ecx 4 .eax, .inc .ecx]

/-- The code of `start`, from `mov $pagetable, %eax` to the write of `cr3`. The move of the last line is
`leal`. -/
def startTables (pagedir pagetable : BitVec 32) (fuel : ℕ) (s : BootState) : Option BootState :=
  ((s.run (bootEntries pagedir pagetable)).makepage bootPage 1024 fuel).map fun s =>
    s.run [.movImm .eax pagedir]

/-- The tables in a memory. -/
def memPaging (m : Dword.Mem) : Paging Unit where
  entry t i := (load m (BitVec.ofNat 32 (t + 4 * i))).toNat
  kernelPgd := 0
  pages := ()

end I386

/-! ### The loop -/

section Loop

variable {body : List BootInsn} {base : BitVec 32} {write : ℕ → Dword.Mem → Dword.Mem}

/-- **The loop writes every entry**: if one turn writes the entry of its counter and counts on, the loop
writes the entries from the counter's value on up to the last one. -/
theorem makepage_eq (hbody : ∀ (s : BootState) (i : ℕ), s.reg .ecx = BitVec.ofNat 32 i → s.reg .ebx = base →
      (s.run body).mem = write i s.mem ∧ (s.run body).reg .ecx = BitVec.ofNat 32 (i + 1) ∧
        (s.run body).reg .ebx = base) {n : ℕ} (hn : n < 2 ^ 31) :
    ∀ k i : ℕ, i + k + 1 = n → ∀ s : BootState, s.reg .ecx = BitVec.ofNat 32 i → s.reg .ebx = base →
      ∀ fuel, k < fuel → ∃ s', s.makepage body (BitVec.ofNat 32 n) fuel = some s' ∧
        s'.mem = (List.range' i (k + 1)).foldl (fun m j => write j m) s.mem := by
  intro k
  induction k with
  | zero =>
    intro i hik s hecx hebx fuel hfuel
    obtain ⟨fuel, rfl⟩ := Nat.exists_eq_succ_of_ne_zero (by omega : fuel ≠ 0)
    obtain ⟨hmem, hecx', -⟩ := hbody s i hecx hebx
    refine ⟨s.run body, ?_, hmem⟩
    rw [BootState.makepage, hecx', show i + 1 = n by omega, if_neg (by simp [BitVec.slt])]
  | succ k ih =>
    intro i hik s hecx hebx fuel hfuel
    obtain ⟨fuel, rfl⟩ := Nat.exists_eq_succ_of_ne_zero (by omega : fuel ≠ 0)
    obtain ⟨hmem, hecx', hebx'⟩ := hbody s i hecx hebx
    obtain ⟨s', hs', hmem'⟩ := ih (i + 1) (by omega) (s.run body) hecx' hebx' fuel (by omega)
    refine ⟨s', ?_, ?_⟩
    · have hlt : (BitVec.ofNat 32 (i + 1)).slt (BitVec.ofNat 32 n) = true := by
        rw [BitVec.slt_eq_ult_of_msb_eq (by simp [BitVec.msb_eq_decide]; omega)]
        simp [BitVec.ult]
        omega
      rw [BootState.makepage, hecx', if_pos hlt]
      exact hs'
    · rw [hmem', hmem, List.range'_succ]
      rfl

end Loop

/-! ### Entries -/

/-- The address of a table below four gigabytes, with the attributes of a link. -/
theorem toNat_link {p : ℕ} (hp : p < 2 ^ 32) : (BitVec.ofNat 32 p ||| 3).toNat = p ||| 3 := by
  rw [BitVec.toNat_or, BitVec.toNat_ofNat, Nat.mod_eq_of_lt hp]
  rfl

/-- The entry that one turn of the loop makes is the address of its page plus the attributes: the two have
no bit in common. -/
theorem toNat_page {i k c : ℕ} (hi : i < 2 ^ 32) (hpage : 2 ^ k * i < 2 ^ 32) (hc : c < 2 ^ k)
    (hc' : c < 2 ^ 32) : (BitVec.ofNat 32 i <<< k ||| BitVec.ofNat 32 c).toNat = 2 ^ k * i + c := by
  rw [BitVec.toNat_or, BitVec.toNat_shiftLeft, BitVec.toNat_ofNat, BitVec.toNat_ofNat, Nat.mod_eq_of_lt hi,
    Nat.mod_eq_of_lt hc', Nat.shiftLeft_eq, Nat.mul_comm i, Nat.mod_eq_of_lt hpage]
  exact Bits.or_eq_add_of_low (Dvd.intro _ rfl) hc

theorem memPaging_entry {m : Dword.Mem} {t : ℕ} {i : Fin 512} {w : BitVec 32}
    (hlow : load m (BitVec.ofNat 32 (t + 8 * i)) = w) (hhigh : load m (BitVec.ofNat 32 (t + 8 * i + 4)) = 0) :
    (memPaging m).entry t i = w.toNat := by
  rw [memPaging]
  dsimp only
  rw [hlow, hhigh]
  rfl

/-! ### The tables on `x86_64` -/

section Tables

variable {pgd pud pmd : ℕ} {s : BootState}

/-- The pages of the three tables. -/
structure BootLayout (pgd pud pmd : ℕ) : Prop where
  pgd_dvd : 4096 ∣ pgd
  pud_dvd : 4096 ∣ pud
  pmd_dvd : 4096 ∣ pmd
  pgd_lt : pgd < 2 ^ 32
  pud_lt : pud < 2 ^ 32
  pmd_lt : pmd < 2 ^ 32
  pgd_ne_pud : pgd ≠ pud
  pgd_ne_pmd : pgd ≠ pmd
  pud_ne_pmd : pud ≠ pmd

/-- A page that the boot loader has cleared. -/
def Cleared (m : Dword.Mem) (t : ℕ) : Prop := ∀ x < 4096, 4 ∣ x → load m (BitVec.ofNat 32 (t + x)) = 0

/-- What one turn of the loop writes. -/
def pmdWrite (pmd i : ℕ) (m : Dword.Mem) : Dword.Mem :=
  store (store m (BitVec.ofNat 32 (pmd + 8 * i)) (BitVec.ofNat 32 i <<< 21 ||| 0x83))
    (BitVec.ofNat 32 (pmd + 8 * i + 4)) 0

/-- The memory at the loop. -/
def linkedMem (pgd pud pmd : ℕ) (m : Dword.Mem) : Dword.Mem :=
  store (store (store m (BitVec.ofNat 32 pgd) (BitVec.ofNat 32 pud ||| 3))
    (BitVec.ofNat 32 (pgd + 2048)) (BitVec.ofNat 32 pud ||| 3))
      (BitVec.ofNat 32 pud) (BitVec.ofNat 32 pmd ||| 3)

/-- The memory behind the code. -/
def startMem (pgd pud pmd : ℕ) (m : Dword.Mem) : Dword.Mem :=
  store (store ((List.range' 0 512).foldl (fun m i => pmdWrite pmd i m) (linkedMem pgd pud pmd m))
    (BitVec.ofNat 32 (pgd + 4)) 0) (BitVec.ofNat 32 (pud + 4)) 0

theorem run_bootPage (pmd i : ℕ) (hecx : s.reg .ecx = BitVec.ofNat 32 i)
    (hebx : s.reg .ebx = BitVec.ofNat 32 pmd) :
    (s.run bootPage).mem = pmdWrite pmd i s.mem ∧ (s.run bootPage).reg .ecx = BitVec.ofNat 32 (i + 1) ∧
      (s.run bootPage).reg .ebx = BitVec.ofNat 32 pmd := by
  have haddr : BitVec.ofNat 32 pmd + BitVec.ofNat 32 i * 8 = BitVec.ofNat 32 (pmd + 8 * i) := by
    rw [BitVec.ofNat_add, BitVec.ofNat_mul, BitVec.mul_comm]
    rfl
  have hnext : BitVec.ofNat 32 (pmd + 8 * i) + 4 = BitVec.ofNat 32 (pmd + 8 * i + 4) := by
    rw [BitVec.ofNat_add _ 4]
    rfl
  refine ⟨?_, ?_, ?_⟩
  · have hrun : (s.run bootPage).mem =
        store (store s.mem (s.reg .ebx + s.reg .ecx * 8) (s.reg .ecx <<< 21 ||| 0x83))
          (s.reg .ebx + s.reg .ecx * 8 + 4) 0 := rfl
    rw [hrun, hecx, hebx, haddr, hnext, pmdWrite]
  · have hrun : (s.run bootPage).reg .ecx = s.reg .ecx + 1 := rfl
    rw [hrun, hecx, BitVec.ofNat_add]
    rfl
  · exact hebx

variable (pgd pud pmd s) in
theorem startTables_mem {fuel : ℕ} (hfuel : 512 ≤ fuel) :
    ∃ s', startTables (BitVec.ofNat 32 pgd) (BitVec.ofNat 32 pud) (BitVec.ofNat 32 pmd) fuel s = some s' ∧
      s'.mem = startMem pgd pud pmd s.mem := by
  have hmem : (s.run (bootEntries (BitVec.ofNat 32 pgd) (BitVec.ofNat 32 pud) (BitVec.ofNat 32 pmd))).mem =
      linkedMem pgd pud pmd s.mem := by
    have haddr : BitVec.ofNat 32 pgd + 256 * 8 = BitVec.ofNat 32 (pgd + 2048) := by
      rw [BitVec.ofNat_add]
      rfl
    rw [linkedMem, ← haddr]
    rfl
  obtain ⟨s', hs', hmem'⟩ := makepage_eq (fun s i => run_bootPage (s := s) pmd i)
    (by norm_num : 512 < 2 ^ 31) 511 0 rfl
    (s.run (bootEntries (BitVec.ofNat 32 pgd) (BitVec.ofNat 32 pud) (BitVec.ofNat 32 pmd)))
    (BitVec.xor_self ..) rfl fuel (by omega)
  refine ⟨_, by rw [startTables, show (512 : BitVec 32) = BitVec.ofNat 32 512 from rfl, hs']; rfl, ?_⟩
  have hlast : (s'.run [.clear .eax, .store (BitVec.ofNat 32 pgd + 4) .eax,
      .store (BitVec.ofNat 32 pud + 4) .eax, .movImm .eax (BitVec.ofNat 32 pgd)]).mem =
        store (store s'.mem (BitVec.ofNat 32 pgd + 4) (s'.reg .eax ^^^ s'.reg .eax))
          (BitVec.ofNat 32 pud + 4) (s'.reg .eax ^^^ s'.reg .eax) := rfl
  rw [hlast, hmem', hmem, BitVec.xor_self, startMem, BitVec.ofNat_add, BitVec.ofNat_add]
  rfl

theorem load_pmdWrite_of_apart {a i : ℕ} (hl : BootLayout pgd pud pmd) (ha : a < 2 ^ 32) (ha4 : 4 ∣ a)
    (hi : i < 512) (hne : a ≠ pmd + 8 * i ∧ a ≠ pmd + 8 * i + 4) (m : Dword.Mem) :
    load (pmdWrite pmd i m) (BitVec.ofNat 32 a) = load m (BitVec.ofNat 32 a) := by
  have hdvd := hl.pmd_dvd
  have hlt := hl.pmd_lt
  rw [pmdWrite, Dword.load_store_ofNat ha (by omega) ha4 (by omega), if_neg hne.2,
    Dword.load_store_ofNat ha (by omega) ha4 (by omega), if_neg hne.1]

/-- The words outside of `pmd` before the loop runs: the links between the tables, the words that are
cleared, and what was there. -/
theorem load_startMem_of_outer {a : ℕ} (hl : BootLayout pgd pud pmd) (ha : a < 2 ^ 32) (ha4 : 4 ∣ a)
    (houter : a < pmd ∨ pmd + 4096 ≤ a) (m : Dword.Mem) :
    load (startMem pgd pud pmd m) (BitVec.ofNat 32 a) = if a = pud + 4 ∨ a = pgd + 4 then 0
      else if a = pud then BitVec.ofNat 32 pmd ||| 3
      else if a = pgd + 2048 ∨ a = pgd then BitVec.ofNat 32 pud ||| 3
      else load m (BitVec.ofNat 32 a) := by
  have hloop : load ((List.range' 0 512).foldl (fun m i => pmdWrite pmd i m) (linkedMem pgd pud pmd m))
      (BitVec.ofNat 32 a) = load (linkedMem pgd pud pmd m) (BitVec.ofNat 32 a) :=
    Dword.load_foldl_of_apart fun j hj m => by
      have hj : j < 512 := by simpa using hj
      exact load_pmdWrite_of_apart hl ha ha4 hj (by omega) m
  obtain ⟨hd1, hd2, hd3, hlt1, hlt2, hlt3, -, -, -⟩ := hl
  rw [startMem, Dword.load_store_ofNat ha (by omega) ha4 (by omega),
    Dword.load_store_ofNat ha (by omega) ha4 (by omega), hloop, linkedMem,
    Dword.load_store_ofNat ha (by omega) ha4 (by omega),
    Dword.load_store_ofNat ha (by omega) ha4 (by omega),
    Dword.load_store_ofNat ha (by omega) ha4 (by omega)]
  split_ifs <;> first | rfl | omega

/-- The words of `pmd` are those that the loop writes. -/
theorem load_startMem_pmd {a i : ℕ} {v : BitVec 32} (hl : BootLayout pgd pud pmd) (hi : i < 512)
    (ha : a = pmd + 8 * i ∨ a = pmd + 8 * i + 4)
    (hself : ∀ m, load (pmdWrite pmd i m) (BitVec.ofNat 32 a) = v) (m : Dword.Mem) :
    load (startMem pgd pud pmd m) (BitVec.ofNat 32 a) = v := by
  obtain ⟨hd1, hd2, hd3, hlt1, hlt2, hlt3, -, hne2, hne3⟩ := id hl
  have ha' : a < 2 ^ 32 := by omega
  have ha4 : 4 ∣ a := by omega
  rw [startMem, Dword.load_store_ofNat ha' (by omega) ha4 (by omega), if_neg (by omega),
    Dword.load_store_ofNat ha' (by omega) ha4 (by omega), if_neg (by omega)]
  refine Dword.load_foldl (by simpa using hi) hself fun j hj hne m => ?_
  have hj : j < 512 := by simpa using hj
  exact load_pmdWrite_of_apart hl ha' ha4 hj (by omega) m

theorem startMem_entry_pgd {m : Dword.Mem} (hl : BootLayout pgd pud pmd) (hclear : Cleared m pgd)
    (i : Fin 512) : (memPaging (startMem pgd pud pmd m)).entry pgd i =
      if (i : ℕ) = 0 ∨ (i : ℕ) = 256 then pud ||| (pteP ||| pteW) else 0 := by
  have hi := i.isLt
  obtain ⟨hd1, hd2, hd3, hlt1, hlt2, hlt3, hne1, hne2, -⟩ := id hl
  have hhigh : load (startMem pgd pud pmd m) (BitVec.ofNat 32 (pgd + 8 * i + 4)) = 0 := by
    rw [load_startMem_of_outer hl (by omega) (by omega) (by omega), Nat.add_assoc,
      hclear (8 * i + 4) (by omega) (by omega)]
    split_ifs <;> first | rfl | omega
  rw [memPaging_entry (load_startMem_of_outer hl (by omega) (by omega) (by omega) m) hhigh,
    hclear (8 * i) (by omega) (by omega), if_neg (by omega), if_neg (by omega)]
  by_cases h : (i : ℕ) = 0 ∨ (i : ℕ) = 256
  · rw [if_pos (by omega), if_pos h]
    exact toNat_link hlt2
  · rw [if_neg (by omega), if_neg h]
    rfl

theorem startMem_entry_pud {m : Dword.Mem} (hl : BootLayout pgd pud pmd) (hclear : Cleared m pud)
    (i : Fin 512) : (memPaging (startMem pgd pud pmd m)).entry pud i =
      if (i : ℕ) = 0 then pmd ||| (pteP ||| pteW) else 0 := by
  have hi := i.isLt
  obtain ⟨hd1, hd2, hd3, hlt1, hlt2, hlt3, hne1, -, hne3⟩ := id hl
  have hhigh : load (startMem pgd pud pmd m) (BitVec.ofNat 32 (pud + 8 * i + 4)) = 0 := by
    rw [load_startMem_of_outer hl (by omega) (by omega) (by omega), Nat.add_assoc,
      hclear (8 * i + 4) (by omega) (by omega)]
    split_ifs <;> first | rfl | omega
  rw [memPaging_entry (load_startMem_of_outer hl (by omega) (by omega) (by omega) m) hhigh,
    hclear (8 * i) (by omega) (by omega), if_neg (by omega)]
  by_cases h : (i : ℕ) = 0
  · rw [if_pos (by omega), if_pos h]
    exact toNat_link hlt3
  · rw [if_neg (by omega), if_neg (by omega), if_neg h]
    rfl

theorem startMem_entry_pmd (hl : BootLayout pgd pud pmd) (m : Dword.Mem) (i : Fin 512) :
    (memPaging (startMem pgd pud pmd m)).entry pmd i = 2 ^ 21 * i + 0x83 := by
  have hi := i.isLt
  obtain ⟨-, -, hd3, -, -, hlt3, -, -, -⟩ := id hl
  have hlow : load (startMem pgd pud pmd m) (BitVec.ofNat 32 (pmd + 8 * i)) =
      BitVec.ofNat 32 i <<< 21 ||| 0x83 :=
    load_startMem_pmd hl hi (Or.inl rfl) (fun m => by
      rw [pmdWrite, Dword.load_store_ofNat (by omega) (by omega) (by omega) (by omega), if_neg (by omega),
        Dword.load_store]) m
  have hhigh : load (startMem pgd pud pmd m) (BitVec.ofNat 32 (pmd + 8 * i + 4)) = 0 :=
    load_startMem_pmd hl hi (Or.inr rfl) (fun m => by rw [pmdWrite, Dword.load_store]) m
  rw [memPaging_entry hlow hhigh]
  exact toNat_page (by omega) (by omega) (by decide) (by decide)

end Tables

/-! ### The walk -/

section Walk

variable {entry : ℕ → Fin 512 → ℕ} {pgd pud pmd va : ℕ}

/-- **The walk through the tables**, given their entries. -/
theorem hwWalk_boot (hpud : 4096 ∣ pud) (hpud' : pud < 2 ^ 32) (hpmd : 4096 ∣ pmd) (hpmd' : pmd < 2 ^ 32)
    (htop : ∀ i, entry pgd i = if (i : ℕ) = 0 ∨ (i : ℕ) = 256 then pud ||| (pteP ||| pteW) else 0)
    (hupper : ∀ i, entry pud i = if (i : ℕ) = 0 then pmd ||| (pteP ||| pteW) else 0)
    (hdir : ∀ i, entry pmd i = 2 ^ 21 * i + 0x83) :
    hwWalk entry 3 pgd va =
      if (va / 2 ^ 39 % 512 = 0 ∨ va / 2 ^ 39 % 512 = 256) ∧ va / 2 ^ 30 % 512 = 0 then
        some (1, 2 ^ 21 * (va / 2 ^ 21 % 512) + 0x83)
      else none := by
  have hlink : ∀ p : ℕ, 4096 ∣ p → p < 2 ^ 32 → hwTable (p ||| (pteP ||| pteW)) = p := fun p hp hp' => by
    have h := ptaddr_link hp (by omega)
    rw [hwTable_eq (by omega), h]
  by_cases h3 : va / 2 ^ 39 % 512 = 0 ∨ va / 2 ^ 39 % 512 = 256
  · have he3 : entry pgd (pdIndexer (levelShift 3) va) = pud ||| (pteP ||| pteW) := by
      rw [htop, pdIndexer_val]
      exact if_pos h3
    rw [hwWalk, he3, if_neg (not_not.mpr (present_link hpud)), if_neg (not_large_link hpud),
      hlink pud hpud hpud']
    by_cases h2 : va / 2 ^ 30 % 512 = 0
    · have he2 : entry pud (pdIndexer (levelShift 2) va) = pmd ||| (pteP ||| pteW) := by
        rw [hupper, pdIndexer_val]
        exact if_pos h2
      have he1 : entry pmd (pdIndexer (levelShift 1) va) = 2 ^ 21 * (va / 2 ^ 21 % 512) + 0x83 := by
        rw [hdir, pdIndexer_val]
        rfl
      have hpresent : Present (2 ^ 21 * (va / 2 ^ 21 % 512) + 0x83) := by
        rw [present_iff, Nat.testBit_zero]
        simp
        omega
      have hlarge : Large (2 ^ 21 * (va / 2 ^ 21 % 512) + 0x83) := by
        rw [large_iff, Nat.testBit_eq_decide_div_mod_eq]
        simp
        omega
      rw [hwWalk, he2, if_neg (not_not.mpr (present_link hpmd)), if_neg (not_large_link hpmd),
        hlink pmd hpmd hpmd', hwWalk, he1, if_neg (not_not.mpr hpresent), if_pos hlarge,
        if_neg (by decide), if_pos ⟨h3, h2⟩]
    · have he2 : entry pud (pdIndexer (levelShift 2) va) = 0 := by
        rw [hupper, pdIndexer_val]
        exact if_neg h2
      rw [hwWalk, he2, if_pos not_present_zero, if_neg fun h => h2 h.2]
  · have he3 : entry pgd (pdIndexer (levelShift 3) va) = 0 := by
      rw [htop, pdIndexer_val]
      exact if_neg h3
    rw [hwWalk, he3, if_pos not_present_zero, if_neg fun h => h3 h.1]

/-- A page of the boot tables translates an address to its offset in the gigabyte, present and writable. -/
theorem leafTranslation_boot (va : ℕ) :
    leafTranslation va (1, 2 ^ 21 * (va / 2 ^ 21 % 512) + 0x83) = ⟨va % 2 ^ 30, 3, 0⟩ := by
  have hphys : hwPhys 1 (2 ^ 21 * (va / 2 ^ 21 % 512) + 0x83) va = va % 2 ^ 30 := by
    rw [hwPhys, show levelShift 1 = 21 from rfl]
    omega
  have hattr : (2 ^ 21 * (va / 2 ^ 21 % 512) + 0x83) &&& (0xFFF - ptePS) = 3 := by
    have hlow : (2 ^ 21 * (va / 2 ^ 21 % 512) + 0x83) &&& 0xFFF = 0x83 := by
      rw [show (0xFFF : ℕ) = 2 ^ 12 - 1 from rfl, Nat.and_two_pow_sub_one_eq_mod]
      omega
    rw [show 0xFFF - ptePS = 0xFFF &&& (0xFFF - ptePS) by decide, ← Nat.and_assoc, hlow]
    decide
  rw [leafTranslation, hphys, hattr]
  simp only [Translation.mk.injEq, true_and]
  omega

end Walk

/-- **What the boot tables map**: the first gigabyte, at the bottom and at `KERN_BASE`, and nothing else. The
register `%eax`, which goes to `cr3`, holds the top table. -/
theorem translate_startTables {pgd pud pmd fuel : ℕ} {s : BootState} (hl : BootLayout pgd pud pmd)
    (hpgd : Cleared s.mem pgd) (hpud : Cleared s.mem pud) (hfuel : 512 ≤ fuel) :
    ∃ s', startTables (BitVec.ofNat 32 pgd) (BitVec.ofNat 32 pud) (BitVec.ofNat 32 pmd) fuel s = some s' ∧
      s'.reg .eax = BitVec.ofNat 32 pgd ∧
      ∀ va, translate (memPaging s'.mem) pgd va =
        if va < 2 ^ 30 ∨ kernBase ≤ va ∧ va < kernBase + 2 ^ 30 then some ⟨va % 2 ^ 30, 3, 0⟩ else none := by
  obtain ⟨s', hs', hmem⟩ := startTables_mem pgd pud pmd s hfuel
  refine ⟨s', hs', ?_, fun va => ?_⟩
  · rw [startTables] at hs'
    obtain ⟨u, -, rfl⟩ := Option.map_eq_some_iff.mp hs'
    rfl
  · have hkern : kernBase = 2 ^ 64 - 2 ^ 47 := rfl
    rw [translate, hkern, hmem]
    by_cases hc : Canonical va
    · rw [if_pos hc, hwWalk_boot hl.pud_dvd hl.pud_lt hl.pmd_dvd hl.pmd_lt (startMem_entry_pgd hl hpgd)
        (startMem_entry_pud hl hpud) (startMem_entry_pmd hl s.mem)]
      unfold Canonical at hc
      split
      · rw [if_pos (by omega), Option.map_some, leafTranslation_boot]
      · rw [if_neg (by omega), Option.map_none]
    · rw [if_neg hc]
      unfold Canonical at hc
      rw [if_neg (by omega)]

/-- The state at `mov $pud, %eax`, in a memory that is cleared. -/
def bootStart : BootState := ⟨fun _ => 0, fun _ => 0⟩

theorem cleared_bootStart (t : ℕ) : Cleared bootStart.mem t := by
  intro x _ _
  change (0 ++ 0 ++ 0 ++ 0 : BitVec (8 + 8 + 8 + 8)) = 0
  decide

theorem translate_startTables_oneMegabyte :
    ∃ s', startTables (BitVec.ofNat 32 0x10b000) (BitVec.ofNat 32 0x10c000) (BitVec.ofNat 32 0x10d000) 512
        bootStart = some s' ∧ s'.reg .eax = BitVec.ofNat 32 0x10b000 ∧
      ∀ va, translate (memPaging s'.mem) 0x10b000 va =
        if va < 2 ^ 30 ∨ kernBase ≤ va ∧ va < kernBase + 2 ^ 30 then some ⟨va % 2 ^ 30, 3, 0⟩ else none :=
  translate_startTables (by constructor <;> decide) (cleared_bootStart _) (cleared_bootStart _) le_rfl

/-! ### The tables on i386 -/

namespace I386

section Tables

variable {pagedir pagetable : ℕ} {s : BootState}

/-- The pages of the two tables. -/
structure BootLayout (pagedir pagetable : ℕ) : Prop where
  pagedir_dvd : 4096 ∣ pagedir
  pagetable_dvd : 4096 ∣ pagetable
  pagedir_lt : pagedir < 2 ^ 32
  pagetable_lt : pagetable < 2 ^ 32
  ne : pagedir ≠ pagetable

/-- What one turn of the loop writes. -/
def pageWrite (pagetable i : ℕ) (m : Dword.Mem) : Dword.Mem :=
  store m (BitVec.ofNat 32 (pagetable + 4 * i)) (BitVec.ofNat 32 i <<< 12 ||| 3)

/-- The memory at the loop. -/
def linkedMem (pagedir pagetable : ℕ) (m : Dword.Mem) : Dword.Mem :=
  store (store m (BitVec.ofNat 32 pagedir) (BitVec.ofNat 32 pagetable ||| 3))
    (BitVec.ofNat 32 (pagedir + 3072)) (BitVec.ofNat 32 pagetable ||| 3)

theorem run_i386BootPage (i : ℕ) (hecx : s.reg .ecx = BitVec.ofNat 32 i)
    (hebx : s.reg .ebx = BitVec.ofNat 32 pagetable) :
    (s.run bootPage).mem = pageWrite pagetable i s.mem ∧
      (s.run bootPage).reg .ecx = BitVec.ofNat 32 (i + 1) ∧
      (s.run bootPage).reg .ebx = BitVec.ofNat 32 pagetable := by
  have haddr : BitVec.ofNat 32 pagetable + BitVec.ofNat 32 i * 4 = BitVec.ofNat 32 (pagetable + 4 * i) := by
    rw [BitVec.ofNat_add, BitVec.ofNat_mul, BitVec.mul_comm]
    rfl
  refine ⟨?_, ?_, ?_⟩
  · have hrun : (s.run bootPage).mem =
        store s.mem (s.reg .ebx + s.reg .ecx * 4) (s.reg .ecx <<< 12 ||| 3) := rfl
    rw [hrun, hecx, hebx, haddr, pageWrite]
  · have hrun : (s.run bootPage).reg .ecx = s.reg .ecx + 1 := rfl
    rw [hrun, hecx, BitVec.ofNat_add]
    rfl
  · exact hebx

variable (pagedir pagetable s) in
/-- The code ends, and the memory behind it has the links and the 1024 entries of the page table. -/
theorem i386StartTables_mem {fuel : ℕ} (hfuel : 1024 ≤ fuel) :
    ∃ s', startTables (BitVec.ofNat 32 pagedir) (BitVec.ofNat 32 pagetable) fuel s = some s' ∧
      s'.mem = (List.range' 0 1024).foldl (fun m i => pageWrite pagetable i m)
        (linkedMem pagedir pagetable s.mem) := by
  have hmem : (s.run (bootEntries (BitVec.ofNat 32 pagedir) (BitVec.ofNat 32 pagetable))).mem =
      linkedMem pagedir pagetable s.mem := by
    have haddr : BitVec.ofNat 32 pagedir + 768 * 4 = BitVec.ofNat 32 (pagedir + 3072) := by
      rw [BitVec.ofNat_add]
      rfl
    rw [linkedMem, ← haddr]
    rfl
  obtain ⟨s', hs', hmem'⟩ := makepage_eq (fun s i => run_i386BootPage (s := s) i)
    (by norm_num : 1024 < 2 ^ 31) 1023 0 rfl
    (s.run (bootEntries (BitVec.ofNat 32 pagedir) (BitVec.ofNat 32 pagetable)))
    (BitVec.xor_self ..) rfl fuel (by omega)
  refine ⟨_, by rw [startTables, show (1024 : BitVec 32) = BitVec.ofNat 32 1024 from rfl, hs']; rfl, ?_⟩
  rw [← hmem, ← hmem']
  rfl

/-- The entries of the two tables behind the code: the directory has the page table in its slots 0 and 768
and nothing else, and the page table maps the first 4 MiB to themselves. -/
theorem i386StartTables_entries (hl : BootLayout pagedir pagetable) (hclear : Cleared s.mem pagedir)
    {fuel : ℕ} (hfuel : 1024 ≤ fuel) :
    ∃ s', startTables (BitVec.ofNat 32 pagedir) (BitVec.ofNat 32 pagetable) fuel s = some s' ∧
      (∀ i, (memPaging s'.mem).entry pagedir i =
        if (i : ℕ) = 0 ∨ (i : ℕ) = 768 then pagetable ||| (pteP ||| pteW) else 0) ∧
      ∀ i, (memPaging s'.mem).entry pagetable i = 2 ^ 12 * i + 3 := by
  obtain ⟨s', hs', hmem⟩ := i386StartTables_mem pagedir pagetable s hfuel
  obtain ⟨hd1, hd2, hlt1, hlt2, hne⟩ := hl
  have hother : ∀ a < 2 ^ 32, 4 ∣ a → ∀ j < 1024, a ≠ pagetable + 4 * j → ∀ m,
      load (pageWrite pagetable j m) (BitVec.ofNat 32 a) = load m (BitVec.ofNat 32 a) := by
    intro a ha ha4 j hj hne m
    rw [pageWrite, Dword.load_store_ofNat ha (by omega) ha4 (by omega), if_neg hne]
  refine ⟨s', hs', fun i => ?_, fun i => ?_⟩
  · have hi := i.isLt
    have hloop : load s'.mem (BitVec.ofNat 32 (pagedir + 4 * i)) =
        load (linkedMem pagedir pagetable s.mem) (BitVec.ofNat 32 (pagedir + 4 * i)) := by
      rw [hmem]
      refine Dword.load_foldl_of_apart fun j hj m => ?_
      have hj : j < 1024 := by simpa using hj
      exact hother _ (by omega) (by omega) j hj (by omega) m
    have hlink : (BitVec.ofNat 32 pagetable ||| 3).toNat = pagetable ||| (pteP ||| pteW) := toNat_link hlt2
    rw [memPaging]
    dsimp only
    rw [hloop, linkedMem, Dword.load_store_ofNat (by omega) (by omega) (by omega) (by omega),
      Dword.load_store_ofNat (by omega) (by omega) (by omega) (by omega),
      hclear (4 * i) (by omega) (by omega)]
    by_cases h : (i : ℕ) = 0 ∨ (i : ℕ) = 768
    · rw [if_pos h, ← hlink]
      split_ifs <;> first | rfl | omega
    · rw [if_neg (by omega), if_neg (by omega), if_neg h]
      rfl
  · have hi := i.isLt
    have hmemi : (i : ℕ) ∈ List.range' 0 1024 := by simp
    have hload : load s'.mem (BitVec.ofNat 32 (pagetable + 4 * i)) = BitVec.ofNat 32 i <<< 12 ||| 3 := by
      rw [hmem]
      refine Dword.load_foldl hmemi (fun m => by rw [pageWrite, Dword.load_store]) fun j hj hji m => ?_
      have hj : j < 1024 := by simpa using hj
      exact hother _ (by omega) (by omega) j hj (by omega) m
    rw [memPaging]
    dsimp only
    rw [hload]
    exact toNat_page (by omega) (by omega) (by decide) (by decide)

end Tables

/-- **What the boot tables map**: the first four megabytes, at the bottom and at `KERN_BASE`, and nothing
else. -/
theorem translate_i386StartTables {pagedir pagetable fuel : ℕ} {s : BootState}
    (hl : BootLayout pagedir pagetable) (hclear : Cleared s.mem pagedir) (hfuel : 1024 ≤ fuel) :
    ∃ s', startTables (BitVec.ofNat 32 pagedir) (BitVec.ofNat 32 pagetable) fuel s = some s' ∧
      s'.reg .eax = BitVec.ofNat 32 pagedir ∧
      ∀ va < 2 ^ 32, translate (memPaging s'.mem) pagedir va =
        if va < 2 ^ 22 ∨ kernBase ≤ va ∧ va < kernBase + 2 ^ 22 then some (va % 2 ^ 22) else none := by
  obtain ⟨s', hs', hdir, htable⟩ := i386StartTables_entries hl hclear hfuel
  refine ⟨s', hs', ?_, fun va hva => ?_⟩
  · rw [startTables] at hs'
    obtain ⟨u, -, rfl⟩ := Option.map_eq_some_iff.mp hs'
    rfl
  · have hkern : kernBase = 0xC0000000 := rfl
    rw [translate, hdir, pdx_val, hkern]
    by_cases h : va / 2 ^ 22 % 1024 = 0 ∨ va / 2 ^ 22 % 1024 = 768
    · rw [if_pos h, ptaddr_link hl.pagetable_dvd hl.pagetable_lt, htable, ptx_val,
        if_pos ⟨present_link hl.pagetable_dvd, present_iff.mpr (by omega)⟩, if_pos (by omega), ptaddr_eq]
      congr 1
      omega
    · rw [if_neg h, if_neg fun h => absurd h.1 (by decide), if_neg (by omega)]

theorem translate_i386StartTables_oneMegabyte :
    ∃ s', startTables (BitVec.ofNat 32 0x106000) (BitVec.ofNat 32 0x107000) 1024 bootStart = some s' ∧
      s'.reg .eax = BitVec.ofNat 32 0x106000 ∧
      ∀ va < 2 ^ 32, translate (memPaging s'.mem) 0x106000 va =
        if va < 2 ^ 22 ∨ kernBase ≤ va ∧ va < kernBase + 2 ^ 22 then some (va % 2 ^ 22) else none :=
  translate_i386StartTables (by constructor <;> decide) (cleared_bootStart _) le_rfl

end I386

end GeekToyOS
