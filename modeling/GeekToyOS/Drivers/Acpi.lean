import GeekToyOS.Arch.BootTables
import GeekToyOS.Arch.Kmap
import GeekToyOS.Arch.SmpDirectMap
import GeekToyOS.Kernel.Multiboot

/-!
# ACPI tables

`src/drivers/acpi.c`, with `memcmp` of `src/lib/string.c`: where the boot information has the root pointer,
what the root table says, and the search for a table. The root table is a header of 36 bytes with addresses
behind it, of 8 bytes or, in the first revision, of 4.

A table is at a physical address and is read at a virtual one, which `acpi_remap` gets from `arch_kmap`. What
is read there depends on the page tables; an address without a translation is a page fault, and the code does
not come back. `arch_kunmap`, which returns at once on x86_64, is left out.

## Main definitions

* `loadVirt` — what is read at a virtual address
* `acpiInit`, `acpiIter`, `acpiFindTable` — the code
* `RootTable`, `RootTable.tables` — the root table, and the tables in it
* `InDirectMap` — the pages of a range are in the direct map

## Main results

* `acpiRemapAt_of_inDirectMap` — a table in the direct map is found there
* `acpiIter_eq` — the loop goes through the tables, and stops at the first that the handler takes
* `acpiFindTable_finds` — from the boot information to a table
-/

namespace GeekToyOS

open Raster (Mem loadBytes)

variable {π : Type*}

/-- `MULTIBOOT_TAG_TYPE_ACPI_OLD` -/
def multibootTagTypeAcpiOld : ℕ := 14

/-- `MULTIBOOT_TAG_TYPE_ACPI_NEW` -/
def multibootTagTypeAcpiNew : ℕ := 15

/-! ### Reading at virtual addresses -/

section Virtual

variable (phys : Mem) (m : Paging π)

/-- The byte at a virtual address, or a page fault. -/
def virtByte (va : ℕ) : Option (BitVec 8) := (translate m m.kernelPgd va).map fun tr => phys tr.phys

/-- The word of so many bytes at a virtual address, or a page fault. -/
def loadVirt (va : ℕ) : ℕ → Option ℕ
  | 0 => some 0
  | k + 1 => (virtByte phys m va).bind fun b => (loadVirt (va + 1) k).map fun rest => b.toNat + 256 * rest

end Virtual

/-- The loop of `memcmp`, with `size` bytes left from the `i`-th on. -/
def memcmpLoop (p1 p2 : ℕ → Option (BitVec 8)) : ℕ → ℕ → Option ℤ
  | 0, _ => some 0
  | size + 1, i => (p1 i).bind fun c1 => (p2 i).bind fun c2 =>
    if c1 ≠ c2 then some (c1.toInt - c2.toInt) else memcmpLoop p1 p2 size (i + 1)

/-- `memcmp`, on the bytes at two places; a byte that cannot be read is a page fault. -/
def memcmp (p1 p2 : ℕ → Option (BitVec 8)) (size : ℕ) : Option ℤ := memcmpLoop p1 p2 size 0

/-! ### `acpi.c` -/

/-- `acpi_revision`, and the address in `acpi_sdt_header`, which is zero at the start. -/
structure Acpi where
  acpiRevision : ℕ
  acpiSdtHeader : ℕ
deriving DecidableEq, Repr

/-- What a root pointer says: its revision, and the physical address of the root table. -/
structure RootTable where
  revision : ℕ
  sdt : ℕ
deriving DecidableEq, Repr

/-- `rsdp->revision`, and one of the two addresses of `rsdp`. -/
def rootOfRsdp (boot : Mem) (rsdp : ℕ) : RootTable :=
  let revision := loadBytes boot (rsdp + 15) 1
  { revision := revision
    sdt := if revision = 0 then loadBytes boot (rsdp + 16) 4 else loadBytes boot (rsdp + 24) 8 }

/-- The root pointer that `acpi_init` takes; the inner `none` is `error("no acpi\n")`. -/
def acpiRoot (boot : Mem) (fuel : ℕ) : Option (Option RootTable) :=
  (mbootGetMbootInfo boot multibootTagTypeAcpiNew fuel).bind fun new =>
    match new.1 with
    | some tag => some (some (rootOfRsdp boot (tag + 8)))
    | none =>
      (mbootGetMbootInfo boot multibootTagTypeAcpiOld fuel).map fun old =>
        old.1.map fun tag => rootOfRsdp boot (tag + 8)

section Acpi

variable (P : TablePages π) (page1GB : Bool) (phys : Mem)

/-- `acpi_remap`, with what it reads of `header->length`. -/
def acpiRemapAt (phy : ℕ) (m : Paging π) : Option (ℕ × Paging π) :=
  (archKmap P page1GB phy acpiHeaderSize m).bind fun header =>
    (loadVirt phys header.2 (wadd header.1 4) 4).bind fun sz => archKmap P page1GB phy sz header.2

/-- `acpi_init`: its result, the variables, and the page tables. -/
def acpiInit (boot : Mem) (fuel : ℕ) (m : Paging π) : Option (ℕ × Acpi × Paging π) :=
  (acpiRoot boot fuel).bind fun root =>
    match root with
    | none => some (0, ⟨0, 0⟩, m)
    | some root => (acpiRemapAt P page1GB phys root.sdt m).map fun r => (1, ⟨root.revision, r.1⟩, r.2)

/-- A loop of `acpi_iter` over addresses of `size` bytes: the table that the handler took, and the page
tables. -/
def acpiIterLoop (handler : Paging π → ℕ → Option Bool) (size tableEnd : ℕ) :
    ℕ → ℕ → Paging π → Option (Option ℕ × Paging π)
  | 0, _, _ => none
  | fuel + 1, entry, m =>
    if entry < tableEnd then
      (loadVirt phys m entry size).bind fun phy =>
        (acpiRemapAt P page1GB phys phy m).bind fun table =>
          (handler table.2 table.1).bind fun taken =>
            if taken then some (some table.1, table.2)
            else acpiIterLoop handler size tableEnd fuel (wadd entry size) table.2
    else some (none, m)

/-- `acpi_iter`. One of its loops is for `u64`, the other one for `u32`. -/
def acpiIter (a : Acpi) (handler : Paging π → ℕ → Option Bool) (fuel : ℕ) (m : Paging π) :
    Option (Option ℕ × Paging π) :=
  let tableStart := wadd a.acpiSdtHeader acpiHeaderSize
  (loadVirt phys m (wadd a.acpiSdtHeader 4) 4).bind fun length =>
    let tableEnd := wadd a.acpiSdtHeader length
    acpiIterLoop P page1GB phys handler (if a.acpiRevision ≠ 0 then 8 else 4) tableEnd fuel tableStart m

/-- `__acpi_check_signature` -/
def acpiCheckSignature (signature : ℕ → BitVec 8) (m : Paging π) (header : ℕ) : Option Bool :=
  (memcmp (fun i => virtByte phys m (wadd header i)) (fun i => some (signature i)) 4).map
    fun r => decide (r = 0)

/-- `acpi_find_table` -/
def acpiFindTable (a : Acpi) (signature : ℕ → BitVec 8) (fuel : ℕ) (m : Paging π) :
    Option (Option ℕ × Paging π) :=
  if a.acpiSdtHeader = 0 then some (none, m)
  else acpiIter P page1GB phys a (acpiCheckSignature phys signature) fuel m

end Acpi

/-! ### What they are for -/

/-- The root table that the tags of the boot information lead to: the newer root pointer counts. -/
def bootRoot (boot : Mem) (tags : List ℕ) : Option RootTable :=
  ((tags.find? fun tag => tagType boot tag = multibootTagTypeAcpiNew).or
    (tags.find? fun tag => tagType boot tag = multibootTagTypeAcpiOld)).map
      fun tag => rootOfRsdp boot (tag + 8)

namespace RootTable

variable (phys : Mem) (R : RootTable)

/-- The size of an address in the root table. -/
def entrySize : ℕ := if R.revision ≠ 0 then 8 else 4

/-- The length that the root table declares. -/
def length : ℕ := loadBytes phys (R.sdt + 4) 4

/-- How many addresses begin in the root table. -/
def count : ℕ := (R.length phys - acpiHeaderSize + (R.entrySize - 1)) / R.entrySize

/-- Where the last address that begins in the root table ends, from its start. -/
def reach : ℕ := acpiHeaderSize + R.entrySize * R.count phys

/-- The address of a table, by its number. -/
def tableAt (i : ℕ) : ℕ := loadBytes phys (R.sdt + acpiHeaderSize + R.entrySize * i) R.entrySize

/-- **The tables of the root table**, by their physical addresses. -/
def tables : List ℕ := (List.range (R.count phys)).map (R.tableAt phys)

end RootTable

/-- The signature of a table. -/
def HasSignature (phys : Mem) (signature : ℕ → BitVec 8) (table : ℕ) : Prop :=
  ∀ i < 4, phys (table + i) = signature i

instance (phys : Mem) (signature : ℕ → BitVec 8) : DecidablePred (HasSignature phys signature) :=
  fun _ => inferInstanceAs (Decidable (∀ i < 4, _))

/-- **The range is in the direct map**, from the start of its first page on. -/
def InDirectMap (m : Paging π) (phy n : ℕ) : Prop :=
  ∀ a, phy / 4096 * 4096 ≤ a → a < phy + n →
    ∃ attr, translate m m.kernelPgd (kernBase + a) = some ⟨a, attr, 0⟩

/-- What of the tables has to be in the direct map: the root table up to its last address, and the signature
and the length of every other table. -/
structure RootTable.Mapped (phys : Mem) (m : Paging π) (R : RootTable) : Prop where
  root : InDirectMap m R.sdt (R.reach phys)
  tables : ∀ table ∈ R.tables phys, InDirectMap m table 8
  /-- It does not end with the address space. -/
  window : R.sdt + R.reach phys < 2 ^ 47

section Search

variable {P : TablePages π} {page1GB : Bool} {held : π → Set ℕ} {S : Set (Fin 512)} {m : Paging π}
  {boot phys : Mem} {R : RootTable} {phy n i : ℕ}

/-! ### Tables in the direct map -/

/-- The length that `acpi_remap` maps is the one it reads. -/
theorem acpiRemap_of_acpiRemapAt {r : ℕ × Paging π} (h : acpiRemapAt P page1GB phys phy m = some r) :
    ∃ header length, archKmap P page1GB phy acpiHeaderSize m = some header ∧
      loadVirt phys header.2 (wadd header.1 4) 4 = some length ∧
      acpiRemap P page1GB phy length m = some r := by
  obtain ⟨header, hheader, h⟩ := Option.bind_eq_some_iff.mp h
  obtain ⟨length, hlength, h⟩ := Option.bind_eq_some_iff.mp h
  refine ⟨header, length, hheader, hlength, ?_⟩
  rw [acpiRemap, hheader]
  exact h

theorem InDirectMap.mono {k : ℕ} (h : InDirectMap m phy n) (hk : k ≤ n) : InDirectMap m phy k :=
  fun a hlo hhi => h a hlo (by omega)

/-- The window of the direct map ends with the address space. -/
theorem InDirectMap.lt (h : InDirectMap m phy n) (hi : i < n) : phy + i < 2 ^ 47 := by
  obtain ⟨attr, htr⟩ := h (phy + i) (by omega) (by omega)
  have hc : Canonical (kernBase + (phy + i)) := by
    by_contra hne
    rw [translate, if_neg hne] at htr
    exact absurd htr.symm (Option.some_ne_none _)
  unfold Canonical at hc
  rw [kernBase] at hc
  omega

theorem InDirectMap.virtByte (h : InDirectMap m phy n) (hi : i < n) :
    virtByte phys m (kernBase + phy + i) = some (phys (phy + i)) := by
  obtain ⟨attr, htr⟩ := h (phy + i) (by omega) (by omega)
  rw [GeekToyOS.virtByte, Nat.add_assoc, htr]
  rfl

/-- **Words in the direct map** are those in memory. -/
theorem InDirectMap.loadVirt (h : InDirectMap m phy n) {k : ℕ} (hk : i + k ≤ n) :
    loadVirt phys m (kernBase + phy + i) k = some (loadBytes phys (phy + i) k) := by
  induction k generalizing i with
  | zero => rfl
  | succ k ih =>
    have hrest : GeekToyOS.loadVirt phys m (kernBase + phy + i + 1) k =
        some (loadBytes phys (phy + i + 1) k) :=
      ih (i := i + 1) (by omega)
    rw [GeekToyOS.loadVirt, h.virtByte (i := i) (by omega), Option.bind_some, hrest, Option.map_some,
      loadBytes]

variable (page1GB) in
/-- **`arch_kmap` of a range in the direct map** changes nothing. -/
theorem archKmap_of_inDirectMap (hP : TablePageLaws P held) (hl : LinkedTables held S m m.kernelPgd)
    (h : InDirectMap m phy n) (hn : 0 < n) (sz : ℕ) :
    archKmap P page1GB phy sz m = some (kernBase + phy, m) := by
  have hlt := h.lt hn
  have hpt : ptaddr phy = phy / 4096 * 4096 := ptaddr_of_lt hlt
  have hkaddr : kaddr (phy / 4096 * 4096) = kernBase + phy / 4096 * 4096 := kaddr_of_lt (by omega)
  have hva : wadd (kernBase + phy / 4096 * 4096) (pgoff phy) = kernBase + phy := by
    rw [pgoff_eq, wadd_of_lt (by rw [kernBase]; omega), Nat.add_assoc, page_add_offset]
  obtain ⟨attr, htr⟩ := h (phy / 4096 * 4096) le_rfl (by omega)
  rw [archKmap, hpt, hkaddr, checkPgtable_of_translate hP hl htr rfl, if_neg (not_not.mpr rfl),
    Option.map_some, hva]

variable (page1GB) in
/-- **A table in the direct map is found there**, and the page tables stay as they are. -/
theorem acpiRemapAt_of_inDirectMap (hP : TablePageLaws P held) (hl : LinkedTables held S m m.kernelPgd)
    (h : InDirectMap m phy 8) : acpiRemapAt P page1GB phys phy m = some (kernBase + phy, m) := by
  have hlt := h.lt (i := 7) (by norm_num)
  have hkmap := archKmap_of_inDirectMap page1GB hP hl h (by norm_num)
  rw [acpiRemapAt, hkmap, Option.bind_some]
  dsimp only
  rw [wadd_of_lt (by rw [kernBase]; omega), h.loadVirt (by norm_num), Option.bind_some, hkmap]

/-! ### Signatures -/

/-- `memcmp` ends where all bytes can be read, with zero iff they are the same. -/
theorem memcmpLoop_eq (b1 b2 : ℕ → BitVec 8) {size : ℕ} {p1 p2 : ℕ → Option (BitVec 8)}
    (h1 : ∀ j < size, p1 (i + j) = some (b1 (i + j))) (h2 : ∀ j < size, p2 (i + j) = some (b2 (i + j))) :
    ∃ r, memcmpLoop p1 p2 size i = some r ∧ (r = 0 ↔ ∀ j < size, b1 (i + j) = b2 (i + j)) := by
  induction size generalizing i with
  | zero => exact ⟨0, rfl, by simp⟩
  | succ size ih =>
    have hshift : ∀ j, i + 1 + j = i + (j + 1) := fun j => by omega
    have hb1 : p1 i = some (b1 i) := h1 0 size.succ_pos
    have hb2 : p2 i = some (b2 i) := h2 0 size.succ_pos
    rw [memcmpLoop, hb1, hb2, Option.bind_some, Option.bind_some]
    by_cases hne : b1 i ≠ b2 i
    · have hint : (b1 i).toInt ≠ (b2 i).toInt := fun h => hne (BitVec.eq_of_toInt_eq h)
      rw [if_pos hne]
      exact ⟨_, rfl, fun h => absurd (by omega) hint, fun h => absurd (h 0 size.succ_pos) hne⟩
    · obtain ⟨r, hr, hiff⟩ := ih (i := i + 1)
        (fun j hj => by rw [hshift]; exact h1 (j + 1) (by omega))
        (fun j hj => by rw [hshift]; exact h2 (j + 1) (by omega))
      rw [if_neg hne]
      refine ⟨r, hr, hiff.trans ⟨fun h j hj => ?_, fun h j hj => ?_⟩⟩
      · cases j with
        | zero => exact not_not.mp hne
        | succ j =>
          have := h j (by omega)
          rwa [hshift] at this
      · rw [hshift]
        exact h (j + 1) (by omega)

/-- The signature of a table in the direct map is compared with the bytes in memory. -/
theorem acpiCheckSignature_eq (signature : ℕ → BitVec 8) (h : InDirectMap m phy 8) :
    acpiCheckSignature phys signature m (kernBase + phy) =
      some (decide (HasSignature phys signature phy)) := by
  have hlt := h.lt (i := 7) (by norm_num)
  have hheader : ∀ j < 4, virtByte phys m (wadd (kernBase + phy) (0 + j)) = some (phys (phy + (0 + j))) := by
    intro j hj
    rw [Nat.zero_add, wadd_of_lt (by rw [kernBase]; omega)]
    exact h.virtByte (by omega)
  have hcmp : ∃ r, memcmpLoop (fun i => virtByte phys m (wadd (kernBase + phy) i))
      (fun i => some (signature i)) 4 0 = some r ∧
        (r = 0 ↔ ∀ j < 4, phys (phy + (0 + j)) = signature (0 + j)) :=
    memcmpLoop_eq (fun i => phys (phy + i)) signature hheader fun _ _ => rfl
  obtain ⟨r, hr, hiff⟩ := hcmp
  rw [acpiCheckSignature, memcmp, hr, Option.map_some, Option.some.injEq, decide_eq_decide, hiff]
  simp only [Nat.zero_add]
  rfl

/-! ### The loop -/

theorem RootTable.entrySize_pos (R : RootTable) : 0 < R.entrySize := by
  unfold RootTable.entrySize
  split <;> omega

/-- The entry is in the table as long as its number is small enough. -/
theorem RootTable.entry_lt_iff (phys : Mem) (R : RootTable) (i : ℕ) :
    acpiHeaderSize + R.entrySize * i < R.length phys ↔ i < R.count phys := by
  have hpos := R.entrySize_pos
  have hdiv : i + 1 ≤ (R.length phys - acpiHeaderSize + (R.entrySize - 1)) / R.entrySize ↔
      (i + 1) * R.entrySize ≤ R.length phys - acpiHeaderSize + (R.entrySize - 1) :=
    Nat.le_div_iff_mul_le hpos
  rw [Nat.succ_mul, Nat.mul_comm i] at hdiv
  rw [RootTable.count]
  omega

theorem RootTable.length_le_reach (phys : Mem) (R : RootTable) : R.length phys ≤ R.reach phys :=
  Nat.le_of_not_lt fun h => Nat.lt_irrefl _ ((R.entry_lt_iff phys (R.count phys)).mp h)

/-- If the addresses fill the root table, the search needs no more of it than its declared length. -/
theorem RootTable.reach_eq_length (hle : acpiHeaderSize ≤ R.length phys)
    (hdvd : R.entrySize ∣ R.length phys - acpiHeaderSize) : R.reach phys = R.length phys := by
  have hpos := R.entrySize_pos
  have hcount : R.count phys = (R.length phys - acpiHeaderSize) / R.entrySize := by
    obtain ⟨c, hc⟩ := hdvd
    rw [RootTable.count, hc, Nat.mul_add_div hpos, Nat.mul_div_cancel_left _ hpos,
      Nat.div_eq_of_lt (Nat.sub_lt hpos Nat.one_pos), Nat.add_zero]
  rw [RootTable.reach, hcount, Nat.mul_div_cancel' hdvd]
  omega

variable (page1GB) in
/-- **The loop goes through the tables** and stops at the first that the handler takes; `k` of them are
left. -/
theorem acpiIterLoop_eq (hP : TablePageLaws P held) (hl : LinkedTables held S m m.kernelPgd)
    (hR : R.Mapped phys m) {handler : Paging π → ℕ → Option Bool} {good : ℕ → Bool}
    (hgood : ∀ table ∈ R.tables phys, handler m (kernBase + table) = some (good table)) (k : ℕ) :
    ∀ i, i + k = R.count phys → ∀ fuel, k < fuel →
      acpiIterLoop P page1GB phys handler R.entrySize (kernBase + R.sdt + R.length phys) fuel
          (kernBase + R.sdt + (acpiHeaderSize + R.entrySize * i)) m =
        some ((((List.range' i k).map (R.tableAt phys)).find? good).map (kernBase + ·), m) := by
  have hwindow := hR.window
  induction k with
  | zero =>
    intro i hik fuel hfuel
    obtain ⟨fuel, rfl⟩ := Nat.exists_eq_succ_of_ne_zero (by omega : fuel ≠ 0)
    have hend := mt (R.entry_lt_iff phys i).mp (by omega)
    rw [acpiIterLoop, if_neg (by omega)]
    rfl
  | succ k ih =>
    intro i hik fuel hfuel
    obtain ⟨fuel, rfl⟩ := Nat.exists_eq_succ_of_ne_zero (by omega : fuel ≠ 0)
    have hlt := (R.entry_lt_iff phys i).mpr (by omega)
    have hmul : R.entrySize * (i + 1) ≤ R.entrySize * R.count phys := Nat.mul_le_mul_left _ (by omega)
    rw [Nat.mul_succ] at hmul
    have hreach : R.reach phys = acpiHeaderSize + R.entrySize * R.count phys := rfl
    have hmem : R.tableAt phys i ∈ R.tables phys :=
      List.mem_map_of_mem (List.mem_range.mpr (by omega))
    have hload : loadVirt phys m (kernBase + R.sdt + (acpiHeaderSize + R.entrySize * i)) R.entrySize =
        some (R.tableAt phys i) := by
      rw [hR.root.loadVirt (by omega), RootTable.tableAt, Nat.add_assoc R.sdt]
    have hnext : wadd (kernBase + R.sdt + (acpiHeaderSize + R.entrySize * i)) R.entrySize =
        kernBase + R.sdt + (acpiHeaderSize + R.entrySize * (i + 1)) := by
      rw [wadd_of_lt (by rw [kernBase]; omega), Nat.mul_succ]
      omega
    rw [acpiIterLoop, if_pos (by omega), hload, Option.bind_some,
      acpiRemapAt_of_inDirectMap page1GB hP hl (hR.tables _ hmem), Option.bind_some]
    dsimp only
    rw [hgood _ hmem, Option.bind_some, List.range'_succ, List.map_cons, List.find?_cons]
    cases good (R.tableAt phys i) with
    | true => rfl
    | false =>
      rw [if_neg Bool.false_ne_true, hnext, ih (i + 1) (by omega) fuel (by omega)]

variable (page1GB) in
/-- **`acpi_iter` returns the first table that the handler takes.** -/
theorem acpiIter_eq (hP : TablePageLaws P held) (hl : LinkedTables held S m m.kernelPgd)
    (hR : R.Mapped phys m) {handler : Paging π → ℕ → Option Bool} {good : ℕ → Bool}
    (hgood : ∀ table ∈ R.tables phys, handler m (kernBase + table) = some (good table)) :
    ∃ fuel, acpiIter P page1GB phys ⟨R.revision, kernBase + R.sdt⟩ handler fuel m =
      some (((R.tables phys).find? good).map (kernBase + ·), m) := by
  have hwindow := hR.window
  have hreach : R.reach phys = acpiHeaderSize + R.entrySize * R.count phys := rfl
  have hheader : acpiHeaderSize = 36 := rfl
  have hlength := R.length_le_reach phys
  refine ⟨R.count phys + 1, ?_⟩
  have hloop := acpiIterLoop_eq page1GB hP hl hR hgood (R.count phys) 0 (Nat.zero_add _)
    (R.count phys + 1) (Nat.lt_succ_self _)
  rw [Nat.mul_zero, Nat.add_zero, ← List.range_eq_range'] at hloop
  have hload : loadVirt phys m (kernBase + R.sdt + 4) 4 = some (R.length phys) :=
    hR.root.loadVirt (by omega)
  rw [acpiIter]
  dsimp only
  rw [wadd_of_lt (a := kernBase + R.sdt) (b := 4) (by rw [kernBase]; omega), hload, Option.bind_some,
    wadd_of_lt (by rw [kernBase]; omega), wadd_of_lt (by rw [kernBase]; omega)]
  exact hloop

/-! ### From the boot information -/

/-- The search for a tag ends, with the first tag of the type or with none. -/
theorem mbootGetMbootInfo_eq {tags : List ℕ} (htags : TagSequence boot 8 tags) (type : ℕ) :
    ∃ k, ∀ fuel > k, ∃ reads, mbootGetMbootInfo boot type fuel =
      some (tags.find? fun tag => tagType boot tag = type, reads) := by
  obtain ⟨k, hk, hfind⟩ := htags.finds type
  refine ⟨k, fun fuel hfuel =>
    ⟨(List.range (k + 1)).flatMap fun i => tagReads boot type ((nextTag boot)^[i] 8), ?_⟩⟩
  rw [mbootGetMbootInfo, Walk.run_eq_of_stopsAfter hk hfuel, Option.map_some]
  dsimp only
  rw [hfind]

/-- The search for the root pointer ends with the one that counts. -/
theorem acpiRoot_eq {tags : List ℕ} (htags : TagSequence boot 8 tags) :
    ∃ fuel, acpiRoot boot fuel = some (bootRoot boot tags) := by
  obtain ⟨k, hnew⟩ := mbootGetMbootInfo_eq htags multibootTagTypeAcpiNew
  obtain ⟨k', hold⟩ := mbootGetMbootInfo_eq htags multibootTagTypeAcpiOld
  refine ⟨k + k' + 1, ?_⟩
  obtain ⟨reads, hnew⟩ := hnew (k + k' + 1) (by omega)
  obtain ⟨reads', hold⟩ := hold (k + k' + 1) (by omega)
  rw [acpiRoot, hnew, Option.bind_some, bootRoot]
  cases tags.find? fun tag => tagType boot tag = multibootTagTypeAcpiNew with
  | some tag => rfl
  | none =>
    rw [hold]
    rfl

variable (page1GB) in
/-- **From the boot information to a table.** With any tags, any root pointers and any root table, if the
tables are in the direct map, `acpi_init` ends with the root table, if there is one, and the search for a
signature ends with the first table that has it, or with none. Neither changes the page tables. -/
theorem acpiFindTable_finds {tags : List ℕ} (hP : TablePageLaws P held)
    (hl : LinkedTables held S m m.kernelPgd) (htags : TagSequence boot 8 tags)
    (hmapped : ∀ R ∈ bootRoot boot tags, R.Mapped phys m) (signature : ℕ → BitVec 8) :
    ∃ fuel a, acpiInit P page1GB phys boot fuel m = some ((bootRoot boot tags).toList.length, a, m) ∧
      (∀ R ∈ bootRoot boot tags, a = ⟨R.revision, kernBase + R.sdt⟩) ∧
      ∃ fuel', acpiFindTable P page1GB phys a signature fuel' m =
        some ((((bootRoot boot tags).toList.flatMap (RootTable.tables phys)).find?
          (HasSignature phys signature ·)).map (kernBase + ·), m) := by
  obtain ⟨fuel, hroot⟩ := acpiRoot_eq htags
  refine ⟨fuel, ?_⟩
  rw [acpiInit, hroot, Option.bind_some]
  cases hR : bootRoot boot tags with
  | none => exact ⟨⟨0, 0⟩, rfl, by simp, 0, rfl⟩
  | some R =>
    have hR := hmapped R hR
    have hreach : R.reach phys = acpiHeaderSize + R.entrySize * R.count phys := rfl
    have hheader : acpiHeaderSize = 36 := rfl
    refine ⟨⟨R.revision, kernBase + R.sdt⟩, ?_, by simp, ?_⟩
    · dsimp only
      rw [acpiRemapAt_of_inDirectMap page1GB hP hl (hR.root.mono (k := 8) (by omega))]
      rfl
    · obtain ⟨fuel', hiter⟩ := acpiIter_eq page1GB hP hl hR fun table ht =>
        acpiCheckSignature_eq signature (hR.tables table ht)
      refine ⟨fuel', ?_⟩
      have hne : kernBase + R.sdt ≠ 0 := by
        rw [kernBase]
        omega
      rw [acpiFindTable, if_neg hne, hiter]
      simp

end Search

/-! ### At boot -/

/-- The tables of `boot.S` have the first gigabyte in the direct map. -/
theorem BootPages.inDirectMap {P : TablePages π} {held : π → Set ℕ} {mem : ℕ → Fin 512 → ℕ}
    {pages : π} {pgd pud pmd phy n : ℕ} (hP : TablePageLaws P held)
    (hpages : BootPages held pages pgd pud pmd) (hn : phy + n ≤ 2 ^ 30) :
    InDirectMap (bootTables mem pgd pud pmd pages) phy n := by
  intro a _ hhi
  have hlo : kernBase ≤ kernBase + a := Nat.le_add_right _ _
  have hlt : kernBase + a < 2 ^ 64 := by
    rw [kernBase]
    omega
  have hpgx : pgx (kernBase + a) = 256 := pgx_kernBase_add (by omega)
  have hpux : pux (kernBase + a) = 0 := by
    refine Fin.ext ?_
    rw [pux, pdIndexer_val, kernBase, puxShift]
    change _ = 0
    omega
  have hne := pgx_ne_zero_of_kernBase hlo hlt
  have hentry : (pdx (kernBase + a)).val <<< 21 ||| (pteP ||| pteW ||| ptePS) =
      2 ^ 21 * ((kernBase + a) / 2 ^ 21 % 512) + 0x83 := by
    rw [pdx, pdIndexer_val, pdxShift, Nat.shiftLeft_eq, Nat.mul_comm]
    exact Bits.or_eq_add_of_low (Dvd.intro _ rfl) (by decide)
  have hpresent : Present (2 ^ 21 * ((kernBase + a) / 2 ^ 21 % 512) + 0x83) := by
    rw [present_iff, Nat.testBit_zero]
    simp
    omega
  have hphys : (kernBase + a) % 2 ^ 30 = a := by
    rw [kernBase]
    omega
  have hshared : SharedTop held (bootTables mem pgd pud pmd pages) := hpages.sharedTop hP
  have hpgd : (bootTables mem pgd pud pmd pages).kernelPgd = pgd := rfl
  have htr := hshared.translate_eq hP hne
  rw [hpgd, hpages.walkEnd hP hne, if_pos hpgx, if_pos hpux, hentry,
    if_pos ⟨canonical_of_kernBase hlo hlt, hpresent⟩, leafTranslation_boot, hphys] at htr
  exact ⟨3, htr⟩

/-- A block with a root pointer of the second revision, which says `0x5000`. -/
def acpiBoot : Mem := fun o =>
  [(0, 64), (8, 15), (12, 44), (31, 2), (41, 0x50), (60, 8)].lookup o |>.getD 0

/-- A root table with the addresses `0x6000` and `0x7000`, and what begins as `FACP` and `APIC` there. -/
def acpiPhys : Mem := fun o =>
  [(0x5004, 52), (0x5025, 0x60), (0x502D, 0x70), (0x6000, 70), (0x6001, 65), (0x6002, 67), (0x6003, 80),
    (0x7000, 65), (0x7001, 80), (0x7002, 73), (0x7003, 67)].lookup o |>.getD 0

/-- `"APIC"` -/
def apicSignature : ℕ → BitVec 8 := fun i => [65, 80, 73, 67].getD i 0

theorem tagSequence_acpiBoot : TagSequence acpiBoot 8 [8] :=
  .cons (by decide) (by decide) (by decide) (.nil (by decide) (by decide))

theorem acpiFindTable_finds_apic :
    ∃ fuel a, acpiInit listPages true acpiPhys acpiBoot fuel lowBootTables = some (1, a, lowBootTables) ∧
      ∃ fuel', acpiFindTable listPages true acpiPhys a apicSignature fuel' lowBootTables =
        some (some (kernBase + 0x7000), lowBootTables) := by
  have hlinked : LinkedTables listHeld upperSlots lowBootTables 0x1000 :=
    (lowBootTables_pages.sharedTop listPages_laws).linked
  have hroot : bootRoot acpiBoot [8] = some ⟨2, 0x5000⟩ := by decide +kernel
  have htables : RootTable.tables acpiPhys ⟨2, 0x5000⟩ = [0x6000, 0x7000] := by decide +kernel
  have hreach : RootTable.reach acpiPhys ⟨2, 0x5000⟩ = 52 := by decide +kernel
  have hboot : ∀ phy n, phy + n ≤ 2 ^ 30 → InDirectMap lowBootTables phy n := fun _ _ =>
    lowBootTables_pages.inDirectMap listPages_laws
  have hmapped : ∀ R ∈ bootRoot acpiBoot [8], R.Mapped acpiPhys lowBootTables := by
    intro R hR
    rw [hroot] at hR
    obtain rfl := Option.some.inj hR
    refine ⟨hboot _ _ (by rw [hreach]; norm_num), fun table ht => hboot _ _ ?_, by rw [hreach]; norm_num⟩
    rw [htables] at ht
    fin_cases ht <;> norm_num
  obtain ⟨fuel, a, hinit, -, fuel', hfind⟩ := acpiFindTable_finds true listPages_laws hlinked
    tagSequence_acpiBoot hmapped apicSignature
  have hfound : (((bootRoot acpiBoot [8]).toList.flatMap (RootTable.tables acpiPhys)).find?
      (HasSignature acpiPhys apicSignature ·)) = some 0x7000 := by decide +kernel
  rw [hfound] at hfind
  exact ⟨fuel, a, hinit, fuel', hfind⟩

/-- A root pointer that says `0x1FDC`. -/
def acpiBootHigh : Mem := fun o =>
  [(0, 64), (8, 15), (12, 44), (31, 2), (40, 0xDC), (41, 0x1F), (60, 8)].lookup o |>.getD 0

/-- A root table of 44 bytes at `0x1FDC`. -/
def acpiPhysHigh : Mem := fun o => if o = 0x1FE0 then 44 else 0

/-- Outside the direct map, with the header in one page and the only address in the next one: `arch_kmap`
maps the page of the header alone, and the search runs into a page fault. -/
example : (acpiInit listPages true acpiPhysHigh acpiBootHigh 3 emptyTables).any (fun r =>
    r.1 = 1 ∧ r.2.1 = ⟨2, kernBase + 0x1FDC⟩ ∧ virtByte acpiPhysHigh r.2.2 (kernBase + 0x2000) = none ∧
      acpiFindTable listPages true acpiPhysHigh r.2.1 apicSignature 3 r.2.2 = none) = true := by
  decide +kernel

end GeekToyOS
