import GeekToyOS.Data.Raster
import GeekToyOS.Data.Walk
import GeekToyOS.Kernel.PageSource

/-!
# Parsing the MADT

`parse_madt` of `src/arch/x86/apic.c`: the table is a sequence of entries, each with its type and its
length, from byte 44 on. The loop goes on by the length. An entry is read as its type says, and a list that
is full takes no more; from then on only type and length of its entries are read.

Addresses are those in the table. A read is its place and its size. The lists of overrides and NMIs hold
the addresses of entries. `arch_kmap` is a function on states `κ`.

## Main definitions

* `Apic` — the lists
* `addLapic`, `addIoapic`, `addOverride`, `addNmi`, `parseMadt`
* `MadtTiles` — the entries tile the table
* `MadtParses` — the loop ends, reads inside of the table only, and fills the lists
* `MadtFits` — the entries lead to the end of the table, and what is read of them is in it

## Main results

* `MadtTiles.lists` — the lists after the entries
* `madtParses_iff`
-/

namespace GeekToyOS

open Raster (Mem loadBytes)

/-- `MAX_LAPICS`. -/
def maxLapics : ℕ := 32

/-- `MAX_IOAPICS`. -/
def maxIoapics : ℕ := 16

/-- `MAX_OVERRIDES`. -/
def maxOverrides : ℕ := 48

/-- `MAX_NMIS`. -/
def maxNmis : ℕ := 2 * maxLapics

/-- `struct lapic_info` -/
structure LapicInfo where
  present : Bool
  id : BitVec 8
  acpiId : BitVec 8
deriving DecidableEq, Repr

/-- `struct ioapic_info` -/
structure IoapicInfo where
  id : BitVec 8
  gsiBase : ℕ
  base : ℕ
deriving DecidableEq, Repr

/-- `lapic_list`, `ioapic_list`, `override_list`, `nmi_list` and `lapic_base`, with the state of
`arch_kmap`. -/
structure Apic (κ : Type*) where
  lapicList : List LapicInfo
  ioapicList : List IoapicInfo
  overrideList : List ℕ
  nmiList : List ℕ
  lapicBase : ℕ
  kmap : κ

/-- Before `parse_madt`. -/
def apicUnset {κ : Type*} (kmap : κ) : Apic κ := ⟨[], [], [], [], 0, kmap⟩

/-! ### The parser -/

section Parser

variable {κ : Type*} (archKmap : κ → ℕ → ℕ → κ × ℕ) (m : Mem)

/-- The fields of a LAPIC entry. -/
def lapicAt (entry : ℕ) : LapicInfo := ⟨loadBytes m (entry + 4) 4 = 1, m (entry + 3), m (entry + 2)⟩

/-- `add_lapic`, and what it reads. -/
def addLapic (entry : ℕ) (s : Apic κ) : Apic κ × List (ℕ × ℕ) :=
  if loadBytes m (entry + 4) 4 = 0 then (s, [(entry + 4, 4)])
  else if s.lapicList.length ≥ maxLapics then (s, [(entry + 4, 4)])
  else ({ s with lapicList := s.lapicList ++ [lapicAt m entry] },
    [(entry + 4, 4), (entry + 3, 1), (entry + 2, 1)])

/-- `add_ioapic` -/
def addIoapic (entry : ℕ) (s : Apic κ) : Apic κ × List (ℕ × ℕ) :=
  if s.ioapicList.length ≥ maxIoapics then (s, [])
  else
    let r := archKmap s.kmap (loadBytes m (entry + 4) 4) pgSize
    ({ s with
      ioapicList := s.ioapicList ++ [⟨m (entry + 2), loadBytes m (entry + 8) 4, r.2⟩]
      kmap := r.1 }, [(entry + 2, 1), (entry + 8, 4), (entry + 4, 4)])

/-- `add_override`; its log reads the fields. -/
def addOverride (entry : ℕ) (s : Apic κ) : Apic κ × List (ℕ × ℕ) :=
  if s.overrideList.length ≥ maxOverrides then (s, [])
  else ({ s with overrideList := s.overrideList ++ [entry] },
    [(entry + 4, 4), (entry + 3, 1), (entry + 8, 2)])

/-- `add_nmi` -/
def addNmi (entry : ℕ) (s : Apic κ) : Apic κ × List (ℕ × ℕ) :=
  if s.nmiList.length ≥ maxNmis then (s, []) else ({ s with nmiList := s.nmiList ++ [entry] }, [])

/-- The variables of `parse_madt`. -/
structure MadtState (κ : Type*) where
  hd : ℕ
  tmpLapicBase : ℕ
  apic : Apic κ

/-- The `switch` of `parse_madt`. -/
def madtSwitch (t : MadtState κ) : MadtState κ × List (ℕ × ℕ) :=
  match (m t.hd).toNat with
  | 0 => ({ t with apic := (addLapic m t.hd t.apic).1 }, (addLapic m t.hd t.apic).2)
  | 1 => ({ t with apic := (addIoapic archKmap m t.hd t.apic).1 }, (addIoapic archKmap m t.hd t.apic).2)
  | 2 => ({ t with apic := (addOverride t.hd t.apic).1 }, (addOverride t.hd t.apic).2)
  | 4 => ({ t with apic := (addNmi t.hd t.apic).1 }, (addNmi t.hd t.apic).2)
  | 5 => ({ t with tmpLapicBase := loadBytes m (t.hd + 4) 8 }, [(t.hd + 4, 8)])
  | _ => (t, [])

/-- `madt->header.length`. -/
def madtLength : ℕ := loadBytes m 4 4

/-- `hd + hd->length`. -/
def madtAdvance (hd : ℕ) : ℕ := hd + (m (hd + 1)).toNat

/-- A turn of the loop. -/
def madtNext (t : MadtState κ) : MadtState κ :=
  { (madtSwitch archKmap m t).1 with hd := madtAdvance m t.hd }

/-- It ends behind the table. -/
def madtStop (t : MadtState κ) : Prop := ¬ t.hd < madtLength m

instance : DecidablePred (madtStop (κ := κ) m) := fun _ => inferInstanceAs (Decidable (¬ _))

/-- The reads of a turn: the type, what is read for it, and the length. -/
def madtReads (t : MadtState κ) : List (ℕ × ℕ) :=
  if madtStop m t then [] else (t.hd, 1) :: (madtSwitch archKmap m t).2 ++ [(t.hd + 1, 1)]

/-- `parse_madt` -/
def parseMadt (s : Apic κ) (fuel : ℕ) : Option (Apic κ × List (ℕ × ℕ)) :=
  (Walk.run (madtNext archKmap m) (madtStop m) (madtReads archKmap m) fuel
    ⟨44, loadBytes m 36 4, s⟩).map fun (t, reads) =>
      let r := archKmap t.apic.kmap t.tmpLapicBase pgSize
      ({ t.apic with lapicBase := r.2, kmap := r.1 }, (36, 4) :: (4, 4) :: reads)

/-! ### What the parser should do -/

/-- The entry has the length that its type prescribes. -/
def MadtSized (hd : ℕ) : Prop :=
  match (m hd).toNat with
  | 0 => (m (hd + 1)).toNat = 8
  | 1 => (m (hd + 1)).toNat = 12
  | 2 => (m (hd + 1)).toNat = 10
  | 4 => (m (hd + 1)).toNat = 6
  | 5 => (m (hd + 1)).toNat = 12
  | _ => 2 ≤ (m (hd + 1)).toNat

/-- **The entries tile the table** from `hd` on. -/
inductive MadtTiles : ℕ → List ℕ → Prop
  | nil : MadtTiles (madtLength m) []
  | cons {hd : ℕ} {entries : List ℕ} (hsized : MadtSized m hd)
      (hrest : MadtTiles (madtAdvance m hd) entries) : MadtTiles hd (hd :: entries)

/-- The entries of a type. -/
def entriesOf (type : ℕ) (entries : List ℕ) : List ℕ := entries.filter fun hd => (m hd).toNat = type

/-- The LAPIC entries with flags. -/
def lapicEntries (entries : List ℕ) : List ℕ :=
  (entriesOf m 0 entries).filter fun hd => loadBytes m (hd + 4) 4 ≠ 0

/-- I/O APICs are mapped one after the other. -/
def ioapicsAt : κ → List ℕ → List IoapicInfo × κ
  | kmap, [] => ([], kmap)
  | kmap, hd :: entries =>
    let r := archKmap kmap (loadBytes m (hd + 4) 4) pgSize
    (⟨m (hd + 2), loadBytes m (hd + 8) 4, r.2⟩ :: (ioapicsAt r.1 entries).1, (ioapicsAt r.1 entries).2)

/-- **The lists hold the first entries of the table**, as many as there is room for, and the LAPIC is mapped
from the last address that the table gives. -/
structure MadtListed (entries : List ℕ) (kmap : κ) (s : Apic κ) : Prop where
  lapics : s.lapicList = ((lapicEntries m entries).map (lapicAt m)).take maxLapics
  ioapics : s.ioapicList = (ioapicsAt archKmap m kmap ((entriesOf m 1 entries).take maxIoapics)).1
  overrides : s.overrideList = (entriesOf m 2 entries).take maxOverrides
  nmis : s.nmiList = (entriesOf m 4 entries).take maxNmis
  lapicBase : s.lapicBase = (archKmap (ioapicsAt archKmap m kmap ((entriesOf m 1 entries).take maxIoapics)).2
    (((entriesOf m 5 entries).getLast?.map fun hd => loadBytes m (hd + 4) 8).getD (loadBytes m 36 4))
    pgSize).2

/-- **`parse_madt` ends and stays in the table**, and fills the lists from one that is tiled. -/
structure MadtParses (kmap : κ) : Prop where
  ends : ∃ fuel r, parseMadt archKmap m (apicUnset kmap) fuel = some r ∧ ∀ a ∈ r.2, a.1 + a.2 ≤ madtLength m
  lists : ∀ entries, MadtTiles m 44 entries → ∃ fuel r,
    parseMadt archKmap m (apicUnset kmap) fuel = some r ∧ MadtListed archKmap m entries kmap r.1

/-- The place of the `i`-th entry. -/
def madtEntry (i : ℕ) : ℕ := (madtAdvance m)^[i] 44

/-- How many entries of the type come before the `i`-th. -/
def entriesBefore (type i : ℕ) : ℕ := ((List.range i).filter fun j => (m (madtEntry m j)).toNat = type).length

/-- How much of the `i`-th entry is read. -/
def madtExtent (i : ℕ) : ℕ :=
  match (m (madtEntry m i)).toNat with
  | 0 => 8
  | 1 => if entriesBefore m 1 i < maxIoapics then 12 else 2
  | 2 => if entriesBefore m 2 i < maxOverrides then 10 else 2
  | 5 => 12
  | _ => 2

/-- The entries lead to the end of the table, and what is read of each is in it. -/
def MadtFits : Prop :=
  40 ≤ madtLength m ∧ ∃ k, madtLength m ≤ madtEntry m k ∧
    ∀ i < k, madtEntry m i < madtLength m ∧ madtEntry m i + madtExtent m i ≤ madtLength m

/-! ### The reads -/

variable {archKmap m} {t : MadtState κ}

theorem madtNext_iterate_hd (i : ℕ) : ((madtNext archKmap m)^[i] t).hd = (madtAdvance m)^[i] t.hd := by
  have hsemi : Function.Semiconj MadtState.hd (madtNext archKmap m) (madtAdvance m) := fun _ => rfl
  exact hsemi.iterate_right i t

/-- How much of the entry is read. -/
def readExtent (m : Mem) (t : MadtState κ) : ℕ :=
  match (m t.hd).toNat with
  | 0 => 8
  | 1 => if t.apic.ioapicList.length < maxIoapics then 12 else 2
  | 2 => if t.apic.overrideList.length < maxOverrides then 10 else 2
  | 5 => 12
  | _ => 2

theorem madtReads_within {size : ℕ} : (∀ a ∈ madtReads archKmap m t, a.1 + a.2 ≤ size) ↔
    (t.hd < madtLength m → t.hd + readExtent m t ≤ size) := by
  rw [madtReads]
  by_cases hin : t.hd < madtLength m
  · rw [if_neg (show ¬ madtStop m t from not_not_intro hin), madtSwitch, readExtent]
    generalize (m t.hd).toNat = type
    split
    · rw [addLapic]
      split
      · simp [hin]
        omega
      · split
        · simp [hin]
          omega
        · simp [hin]
          omega
    · rw [addIoapic]
      split
      · rename_i hfull
        simp [hin, not_lt.mpr hfull]
        omega
      · rename_i hroom
        simp [hin, not_le.mp hroom]
        omega
    · rw [addOverride]
      split
      · rename_i hfull
        simp [hin, not_lt.mpr hfull]
        omega
      · rename_i hroom
        simp [hin, not_le.mp hroom]
        omega
    · rw [addNmi]
      split
      · simp [hin]
        omega
      · simp [hin]
        omega
    · simp [hin]
      omega
    · simp [hin]
      omega
  · rw [if_pos (show madtStop m t from hin)]
    simp [hin]

/-! ### The lists -/

/-- What the entries do to the lists, and to the state of `arch_kmap`. -/
structure Lists (archKmap : κ → ℕ → ℕ → κ × ℕ) (m : Mem) (entries : List ℕ) (t t' : MadtState κ) :
    Prop where
  lapics : t'.apic.lapicList = t.apic.lapicList ++
    ((lapicEntries m entries).map (lapicAt m)).take (maxLapics - t.apic.lapicList.length)
  ioapics : (t'.apic.ioapicList, t'.apic.kmap) = (t.apic.ioapicList ++ (ioapicsAt archKmap m t.apic.kmap
      ((entriesOf m 1 entries).take (maxIoapics - t.apic.ioapicList.length))).1,
    (ioapicsAt archKmap m t.apic.kmap
      ((entriesOf m 1 entries).take (maxIoapics - t.apic.ioapicList.length))).2)
  overrides : t'.apic.overrideList = t.apic.overrideList ++
    (entriesOf m 2 entries).take (maxOverrides - t.apic.overrideList.length)
  nmis : t'.apic.nmiList = t.apic.nmiList ++
    (entriesOf m 4 entries).take (maxNmis - t.apic.nmiList.length)
  tmpLapicBase : t'.tmpLapicBase =
    ((entriesOf m 5 entries).getLast?.map fun hd => loadBytes m (hd + 4) 8).getD t.tmpLapicBase

theorem lists_nil (t : MadtState κ) : Lists archKmap m [] t t := by
  refine ⟨?_, ?_, ?_, ?_, rfl⟩ <;> simp [lapicEntries, entriesOf, ioapicsAt]

theorem addLapic_eq (entry : ℕ) (s : Apic κ) : (addLapic m entry s).1 = { s with
    lapicList := s.lapicList ++
      (((if loadBytes m (entry + 4) 4 = 0 then [] else [entry]).map (lapicAt m)).take
        (maxLapics - s.lapicList.length)) } := by
  rw [addLapic]
  split
  · simp
  · split
    · rename_i hfull
      simp [Nat.sub_eq_zero_of_le hfull]
    · rename_i hroom
      simp [List.take_of_length_le (show [lapicAt m entry].length ≤ maxLapics - s.lapicList.length by
        rw [List.length_singleton]; omega)]

theorem addIoapic_eq (entry : ℕ) (s : Apic κ) : (addIoapic archKmap m entry s).1 = { s with
    ioapicList := s.ioapicList ++
      (ioapicsAt archKmap m s.kmap ([entry].take (maxIoapics - s.ioapicList.length))).1
    kmap := (ioapicsAt archKmap m s.kmap ([entry].take (maxIoapics - s.ioapicList.length))).2 } := by
  rw [addIoapic]
  split
  · rename_i hfull
    rw [Nat.sub_eq_zero_of_le hfull, List.take_zero, ioapicsAt, List.append_nil]
  · rename_i hroom
    rw [List.take_of_length_le (by rw [List.length_singleton]; omega), ioapicsAt, ioapicsAt]

theorem addOverride_eq (entry : ℕ) (s : Apic κ) : (addOverride entry s).1 = { s with
    overrideList := s.overrideList ++ [entry].take (maxOverrides - s.overrideList.length) } := by
  rw [addOverride]
  split
  · rename_i hfull
    rw [Nat.sub_eq_zero_of_le hfull, List.take_zero, List.append_nil]
  · rename_i hroom
    rw [List.take_of_length_le (by rw [List.length_singleton]; omega)]

theorem addNmi_eq (entry : ℕ) (s : Apic κ) : (addNmi entry s).1 = { s with
    nmiList := s.nmiList ++ [entry].take (maxNmis - s.nmiList.length) } := by
  rw [addNmi]
  split
  · rename_i hfull
    rw [Nat.sub_eq_zero_of_le hfull, List.take_zero, List.append_nil]
  · rename_i hroom
    rw [List.take_of_length_le (by rw [List.length_singleton]; omega)]

/-- **An entry goes to the list of its type**, if there is room. -/
theorem lists_single (archKmap : κ → ℕ → ℕ → κ × ℕ) (m : Mem) (t : MadtState κ) :
    Lists archKmap m [t.hd] t (madtNext archKmap m t) := by
  rw [madtNext, madtSwitch]
  have hof : ∀ type, entriesOf m type [t.hd] = if (m t.hd).toNat = type then [t.hd] else [] := fun type => by
    simp [entriesOf, List.filter_singleton]
  have hlapic : lapicEntries m [t.hd] = if (m t.hd).toNat = 0 then
      (if loadBytes m (t.hd + 4) 4 = 0 then [] else [t.hd]) else [] := by
    rw [lapicEntries, hof]
    split <;> simp [List.filter_singleton]
  split
  · rename_i htype
    rw [addLapic_eq]
    refine ⟨?_, ?_, ?_, ?_, ?_⟩ <;> simp [hof, hlapic, htype, ioapicsAt]
  · rename_i htype
    rw [addIoapic_eq]
    refine ⟨?_, ?_, ?_, ?_, ?_⟩ <;> simp [hof, hlapic, htype]
  · rename_i htype
    rw [addOverride_eq]
    refine ⟨?_, ?_, ?_, ?_, ?_⟩ <;> simp [hof, hlapic, htype, ioapicsAt]
  · rename_i htype
    rw [addNmi_eq]
    refine ⟨?_, ?_, ?_, ?_, ?_⟩ <;> simp [hof, hlapic, htype, ioapicsAt]
  · rename_i htype
    refine ⟨?_, ?_, ?_, ?_, ?_⟩ <;> simp [hof, hlapic, htype, ioapicsAt]
  · rename_i h0 h1 h2 h4 h5
    rw [if_neg h0] at hlapic
    have hnone : ∀ type ∈ [1, 2, 4, 5], entriesOf m type [t.hd] = [] := fun type htype => by
      rw [hof, if_neg]
      rintro rfl
      simp only [List.mem_cons, List.not_mem_nil, or_false] at htype
      exact htype.elim h1 fun h => h.elim h2 fun h => h.elim h4 h5
    refine ⟨?_, ?_, ?_, ?_, ?_⟩ <;> simp [hlapic, hnone, ioapicsAt]

theorem ioapicsAt_append (kmap : κ) (a b : List ℕ) : ioapicsAt archKmap m kmap (a ++ b) =
    ((ioapicsAt archKmap m kmap a).1 ++ (ioapicsAt archKmap m (ioapicsAt archKmap m kmap a).2 b).1,
      (ioapicsAt archKmap m (ioapicsAt archKmap m kmap a).2 b).2) := by
  induction a generalizing kmap with
  | nil => rfl
  | cons hd a ih =>
    rw [List.cons_append, ioapicsAt, ih]
    rfl

theorem length_ioapicsAt (kmap : κ) (a : List ℕ) : (ioapicsAt archKmap m kmap a).1.length = a.length := by
  induction a generalizing kmap with
  | nil => rfl
  | cons hd a ih => rw [ioapicsAt, List.length_cons, List.length_cons, ih]

/-- Filling a list up to its capacity, in two steps. -/
theorem append_take_append {α : Type*} (l a b : List α) (cap : ℕ) :
    (l ++ a.take (cap - l.length)) ++ b.take (cap - (l ++ a.take (cap - l.length)).length) =
      l ++ (a ++ b).take (cap - l.length) := by
  rw [List.take_append, List.append_assoc, List.length_append, List.length_take]
  congr 3
  omega

theorem Lists.trans {a b : List ℕ} {t t' t'' : MadtState κ} (h : Lists archKmap m a t t')
    (h' : Lists archKmap m b t' t'') : Lists archKmap m (a ++ b) t t'' where
  lapics := by
    rw [h'.lapics, h.lapics, append_take_append]
    simp [lapicEntries, entriesOf]
  ioapics := by
    obtain ⟨hlist, hkmap⟩ := Prod.mk.inj h.ioapics
    have happend : entriesOf m 1 (a ++ b) = entriesOf m 1 a ++ entriesOf m 1 b := List.filter_append ..
    rw [h'.ioapics, hlist, hkmap, List.length_append, length_ioapicsAt, List.length_take, happend,
      List.take_append, ioapicsAt_append, List.append_assoc]
    have hroom : maxIoapics - (t.apic.ioapicList.length + min (maxIoapics - t.apic.ioapicList.length)
        (entriesOf m 1 a).length) = maxIoapics - t.apic.ioapicList.length - (entriesOf m 1 a).length := by
      omega
    rw [hroom]
  overrides := by
    rw [h'.overrides, h.overrides, append_take_append]
    simp [entriesOf]
  nmis := by
    rw [h'.nmis, h.nmis, append_take_append]
    simp [entriesOf]
  tmpLapicBase := by
    rw [h'.tmpLapicBase, h.tmpLapicBase, entriesOf, entriesOf, entriesOf, List.filter_append,
      List.getLast?_append]
    cases (b.filter fun hd => (m hd).toNat = 5).getLast? with
    | some hd => rfl
    | none => rfl

/-! ### The walk -/

/-- The start of `parse_madt`. -/
def madtStart (m : Mem) (kmap : κ) : MadtState κ := ⟨44, loadBytes m 36 4, apicUnset kmap⟩

theorem lists_iterate (archKmap : κ → ℕ → ℕ → κ × ℕ) (m : Mem) (kmap : κ) (k : ℕ) :
    Lists archKmap m ((List.range k).map (madtEntry m)) (madtStart m kmap)
      ((madtNext archKmap m)^[k] (madtStart m kmap)) := by
  induction k with
  | zero => exact lists_nil _
  | succ k ih =>
    have hsingle := lists_single archKmap m ((madtNext archKmap m)^[k] (madtStart m kmap))
    rw [madtNext_iterate_hd] at hsingle
    rw [List.range_succ, List.map_append, Function.iterate_succ_apply']
    exact ih.trans hsingle

/-- What is read of an entry, by the entries before it. -/
theorem readExtent_iterate (kmap : κ) (i : ℕ) :
    readExtent m ((madtNext archKmap m)^[i] (madtStart m kmap)) = madtExtent m i := by
  have hlists := lists_iterate archKmap m kmap i
  have hcount : ∀ type, (entriesOf m type ((List.range i).map (madtEntry m))).length =
      entriesBefore m type i := fun type => by
    rw [entriesOf, List.filter_map, List.length_map, entriesBefore]
    rfl
  have hio : ((madtNext archKmap m)^[i] (madtStart m kmap)).apic.ioapicList.length =
      min maxIoapics (entriesBefore m 1 i) := by
    rw [(Prod.mk.inj hlists.ioapics).1, List.length_append, length_ioapicsAt, List.length_take, hcount]
    simp [madtStart, apicUnset]
  have hov : ((madtNext archKmap m)^[i] (madtStart m kmap)).apic.overrideList.length =
      min maxOverrides (entriesBefore m 2 i) := by
    rw [hlists.overrides, List.length_append, List.length_take, hcount]
    simp [madtStart, apicUnset]
  have hhd : ((madtNext archKmap m)^[i] (madtStart m kmap)).hd = madtEntry m i := madtNext_iterate_hd i
  rw [readExtent, madtExtent, hio, hov, hhd]
  simp only [min_lt_iff, lt_self_iff_false, false_or]

theorem ends_iff_madtFits (kmap : κ) : (∃ fuel r, parseMadt archKmap m (apicUnset kmap) fuel = some r ∧
    ∀ a ∈ r.2, a.1 + a.2 ≤ madtLength m) ↔ MadtFits m := by
  have hrun := Walk.run_safe_iff (madtNext archKmap m) (madtStop m) (madtStart m kmap) (madtReads archKmap m)
    fun a => a.1 + a.2 ≤ madtLength m
  have hhd : ∀ i, ((madtNext archKmap m)^[i] (madtStart m kmap)).hd = madtEntry m i := fun i =>
    madtNext_iterate_hd i
  simp only [madtReads_within, readExtent_iterate, hhd] at hrun
  have hparse : (∃ fuel r, parseMadt archKmap m (apicUnset kmap) fuel = some r ∧
      ∀ a ∈ r.2, a.1 + a.2 ≤ madtLength m) ↔ 40 ≤ madtLength m ∧ ∃ fuel r, Walk.run (madtNext archKmap m)
        (madtStop m) (madtReads archKmap m) fuel (madtStart m kmap) = some r ∧
          ∀ a ∈ r.2, a.1 + a.2 ≤ madtLength m := by
    constructor
    · rintro ⟨fuel, r, hr, hreads⟩
      obtain ⟨r', hr', rfl⟩ := Option.map_eq_some_iff.mp hr
      exact ⟨hreads (36, 4) (by simp), fuel, r', hr', fun a ha => hreads a (by simp [ha])⟩
    · rintro ⟨hlen, fuel, r, hr, hreads⟩
      refine ⟨fuel, _, Option.map_eq_some_iff.mpr ⟨r, hr, rfl⟩, fun a ha => ?_⟩
      obtain rfl | rfl | ha : a = (36, 4) ∨ a = (4, 4) ∨ a ∈ r.2 := by simpa using ha
      · exact hlen
      · exact (show 8 ≤ 40 by omega).trans hlen
      · exact hreads a ha
  rw [hparse, hrun, MadtFits]
  refine and_congr_right fun _ => exists_congr fun k => ?_
  have hstop : ∀ i, madtStop m ((madtNext archKmap m)^[i] (madtStart m kmap)) ↔
      ¬ madtEntry m i < madtLength m := fun i => by rw [madtStop, hhd]
  constructor
  · rintro ⟨hstops, hreads⟩
    refine ⟨not_lt.mp ((hstop k).mp hstops.stops), fun i hi => ?_⟩
    have hlt : madtEntry m i < madtLength m := not_not.mp (mt (hstop i).mpr (hstops.goes i hi))
    exact ⟨hlt, hreads i hi.le hlt⟩
  · rintro ⟨hend, hfits⟩
    refine ⟨⟨fun i hi => mt (hstop i).mp (not_not_intro (hfits i hi).1), (hstop k).mpr (not_lt.mpr hend)⟩,
      fun i hi hlt => ?_⟩
    obtain hik | rfl := Nat.lt_or_eq_of_le hi
    · exact (hfits i hik).2
    · exact absurd hlt (not_lt.mpr hend)

theorem MadtSized.lt {hd : ℕ} (h : MadtSized m hd) : hd < madtAdvance m hd := by
  have hpos : 0 < (m (hd + 1)).toNat := by
    rw [MadtSized] at h
    split at h <;> omega
  rw [madtAdvance]
  omega

theorem MadtTiles.le {hd : ℕ} {entries : List ℕ} (h : MadtTiles m hd entries) : hd ≤ madtLength m := by
  induction h with
  | nil => exact le_rfl
  | cons hsized _ ih => exact hsized.lt.le.trans ih

/-- **Tiled entries are gone through**, and go to the lists. -/
theorem MadtTiles.lists {hd : ℕ} {entries : List ℕ} (h : MadtTiles m hd entries)
    (archKmap : κ → ℕ → ℕ → κ × ℕ) (ht : t.hd = hd) :
    ∃ k, Walk.StopsAfter (madtNext archKmap m) (madtStop m) t k ∧
      Lists archKmap m entries t ((madtNext archKmap m)^[k] t) := by
  induction h generalizing t with
  | nil => exact ⟨0, Walk.stopsAfter_zero.mpr (not_lt.mpr ht.ge), lists_nil t⟩
  | @cons hd entries hsized hrest ih =>
    subst ht
    obtain ⟨k, hk, hlists⟩ := ih (t := madtNext archKmap m t) rfl
    exact ⟨k + 1, Walk.stopsAfter_succ.mpr ⟨not_not_intro (hsized.lt.trans_le hrest.le), hk⟩,
      (lists_single archKmap m t).trans hlists⟩

/-- The lists after `parse_madt` are those of the entries of the table. -/
theorem Lists.listed {entries : List ℕ} {kmap : κ} (h : Lists archKmap m entries (madtStart m kmap) t) :
    MadtListed archKmap m entries kmap
      { t.apic with
        lapicBase := (archKmap t.apic.kmap t.tmpLapicBase pgSize).2
        kmap := (archKmap t.apic.kmap t.tmpLapicBase pgSize).1 } where
  lapics := h.lapics
  ioapics := (Prod.mk.inj h.ioapics).1
  overrides := h.overrides
  nmis := h.nmis
  lapicBase := by
    rw [(Prod.mk.inj h.ioapics).2, h.tmpLapicBase]
    rfl

end Parser

/-- **When `parse_madt` does what it should**: iff the entries lead to the end of the table, and what is
read of each is in it. -/
theorem madtParses_iff {κ : Type*} (archKmap : κ → ℕ → ℕ → κ × ℕ) (m : Mem) (kmap : κ) :
    MadtParses archKmap m kmap ↔ MadtFits m := by
  refine ⟨fun h => (ends_iff_madtFits kmap).mp h.ends, fun h => ⟨(ends_iff_madtFits kmap).mpr h, ?_⟩⟩
  intro entries htiles
  obtain ⟨k, hk, hlists⟩ := htiles.lists archKmap (t := madtStart m kmap) rfl
  refine ⟨k + 1, _, Option.map_eq_some_iff.mpr ⟨_, Walk.run_eq_of_stopsAfter hk k.lt_succ_self, rfl⟩, ?_⟩
  exact hlists.listed

/-- A table of 46 bytes with an entry of length 0. -/
def zeroEntry : Mem := fun o => if o = 4 then 46 else if o = 44 then 3 else 0

/-- At an entry of length 0 the parser does not end. -/
theorem not_madtParses_zeroEntry :
    ¬ ∀ m : Mem, MadtParses (fun (kmap : Unit) phyAddr _ => (kmap, phyAddr)) m () := by
  intro hall
  obtain ⟨fuel, r, hr, -⟩ := (hall zeroEntry).ends
  obtain ⟨r', hr', -⟩ := Option.map_eq_some_iff.mp hr
  obtain ⟨k, -, hstops, -⟩ := Walk.run_eq_some_iff.mp hr'
  have hlong : 44 < madtLength zeroEntry := by decide +kernel
  have hgoes : ¬ madtStop zeroEntry (madtStart zeroEntry ()) := not_not_intro hlong
  exact Walk.not_stopsAfter_of_fixed rfl hgoes hstops

end GeekToyOS
