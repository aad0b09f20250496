import GeekToyOS.Data.Raster
import GeekToyOS.Data.Walk
import GeekToyOS.Kernel.BootMap

/-!
# The boot information

`mboot_get_mboot_info` of `src/kernel/multiboot2.c` and the loops `for_mmap` of `src/kernel/mm/memory.c`.
The block of the boot loader is a sequence of tags, each with its size; the memory map is a tag with
entries, all of the size that it says. Both loops go on by what they read.

Addresses are those in the block. A read is its place and its size.

## Main definitions

* `mbootGetMbootInfo`, `forMmap` — the loops
* `TagSequence` — a well-formed block
* `MbootFinds`, `MmapStays` — the loops end, read inside of the block or tag only, and find the tag
* `TagChain`, `MmapFits` — the tags lead to the end, the entries fit

## Main results

* `nextTag_eq` — sizes are rounded up
* `bootInfo_iff` — when the loops do what they should
-/

namespace GeekToyOS

open Raster (Mem loadBytes loadBytes_lt)

/-- `MULTIBOOT_TAG_TYPE_END`. -/
def multibootTagTypeEnd : ℕ := 0

/-- `MULTIBOOT_TAG_TYPE_MMAP`. -/
def multibootTagTypeMmap : ℕ := 6

/-- The size of the block, from `mboot_info_init`. -/
def mbootInfoSize (m : Mem) : ℕ := loadBytes m 0 4

/-- `tag->type`. -/
def tagType (m : Mem) (tag : ℕ) : ℕ := loadBytes m tag 4

/-- `tag->size`. -/
def tagSize (m : Mem) (tag : ℕ) : ℕ := loadBytes m (tag + 4) 4

/-! ### The tags -/

/-- `tag + ((tag->size + 7) & ~7)`, where the sum has 32 bits. -/
def nextTag (m : Mem) (tag : ℕ) : ℕ :=
  tag + ((BitVec.ofNat 32 (tagSize m tag) + 7) &&& ~~~(7 : BitVec 32)).toNat

/-- The loop ends at the end tag and at a tag of the type. -/
def tagStop (m : Mem) (type tag : ℕ) : Prop := tagType m tag = multibootTagTypeEnd ∨ tagType m tag = type

instance (m : Mem) (type : ℕ) : DecidablePred (tagStop m type) := fun _ => inferInstanceAs (Decidable (_ ∨ _))

/-- The reads of a turn: `tag->type`, and `tag->size` where the loop goes on. -/
def tagReads (m : Mem) (type tag : ℕ) : List (ℕ × ℕ) :=
  if tagStop m type tag then [(tag, 4)] else [(tag, 4), (tag + 4, 4)]

/-- `mboot_get_mboot_info` -/
def mbootGetMbootInfo (m : Mem) (type fuel : ℕ) : Option (Option ℕ × List (ℕ × ℕ)) :=
  (Walk.run (nextTag m) (tagStop m type) (tagReads m type) fuel 8).map fun (tag, reads) =>
    (if tagType m tag ≠ multibootTagTypeEnd then some tag else none, reads)

/-- **A well-formed block**: from `tag` the tags follow each other, each where its predecessor, rounded up
to 8 bytes, ends. An end tag closes the block. -/
inductive TagSequence (m : Mem) : ℕ → List ℕ → Prop
  | nil {tag : ℕ} (hend : tagType m tag = multibootTagTypeEnd) (hfits : tag + 8 ≤ mbootInfoSize m) :
      TagSequence m tag []
  | cons {tag : ℕ} {tags : List ℕ} (htype : tagType m tag ≠ multibootTagTypeEnd) (hsize : 8 ≤ tagSize m tag)
      (hfits : tag + tagSize m tag ≤ mbootInfoSize m)
      (hrest : TagSequence m (tag + (tagSize m tag + 7) / 8 * 8) tags) : TagSequence m tag (tag :: tags)

/-- **The search for a tag** ends and stays in the block, and in a well-formed one it finds the first. -/
structure MbootFinds (m : Mem) (type : ℕ) : Prop where
  ends : ∃ fuel r, mbootGetMbootInfo m type fuel = some r ∧ ∀ a ∈ r.2, a.1 + a.2 ≤ mbootInfoSize m
  finds : ∀ tags, TagSequence m 8 tags → ∃ fuel reads,
    mbootGetMbootInfo m type fuel = some (tags.find? fun tag => tagType m tag = type, reads)

/-- The tags lead to the end tag, or to one of the type, inside of the block. -/
def TagChain (m : Mem) (type : ℕ) : Prop :=
  ∃ k, (∀ i < k, ¬ tagStop m type ((nextTag m)^[i] 8) ∧ (nextTag m)^[i] 8 + 8 ≤ mbootInfoSize m) ∧
    tagStop m type ((nextTag m)^[k] 8) ∧ (nextTag m)^[k] 8 + 4 ≤ mbootInfoSize m

/-! ### The memory map -/

/-- `entry_size` of a memory map. -/
def mmapEntrySize (m : Mem) (tag : ℕ) : ℕ := loadBytes m (tag + 8) 4

/-- The entry at an address. -/
def mmapEntry (m : Mem) (mmap : ℕ) : MmapEntry :=
  ⟨loadBytes m mmap 8, loadBytes m (mmap + 8) 8, loadBytes m (mmap + 16) 4⟩

/-- A turn of `for_mmap`, with the entries that it has come by. -/
def mmapNext (m : Mem) (tag : ℕ) (s : ℕ × List MmapEntry) : ℕ × List MmapEntry :=
  (s.1 + mmapEntrySize m tag, s.2 ++ [mmapEntry m s.1])

/-- It ends behind the tag. -/
def mmapStop (m : Mem) (tag : ℕ) (s : ℕ × List MmapEntry) : Prop := ¬ s.1 < tag + tagSize m tag

instance (m : Mem) (tag : ℕ) : DecidablePred (mmapStop m tag) := fun _ => inferInstanceAs (Decidable (¬ _))

/-- The reads of a turn: `tag->size`, `mmap->type`, address and length of available memory, and
`entry_size`. -/
def mmapReads (m : Mem) (tag : ℕ) (s : ℕ × List MmapEntry) : List (ℕ × ℕ) :=
  if mmapStop m tag s then [(tag + 4, 4)]
  else if (mmapEntry m s.1).Available then
    [(tag + 4, 4), (s.1 + 16, 4), (s.1, 8), (s.1 + 8, 8), (tag + 8, 4)]
  else [(tag + 4, 4), (s.1 + 16, 4), (tag + 8, 4)]

/-- `for_mmap` -/
def forMmap (m : Mem) (tag fuel : ℕ) : Option (List MmapEntry × List (ℕ × ℕ)) :=
  (Walk.run (mmapNext m tag) (mmapStop m tag) (mmapReads m tag) fuel (tag + 16, [])).map fun (s, reads) =>
    (s.2, reads)

/-- `mem_map_init` on a tag: both loops go through the entries. -/
def memMapInitTag (s : Memory) (storage : ℕ → BitVec 8) (m : Mem) (tag fuel : ℕ) :
    Option (Memory × List (ℕ × ℕ)) :=
  (forMmap m tag fuel).map fun (entries, reads) => (memMapInit s storage entries, reads ++ reads)

/-- **`mem_map_init` ends and stays in the tag.** -/
def MmapStays (s : Memory) (storage : ℕ → BitVec 8) (m : Mem) (tag : ℕ) : Prop :=
  ∃ fuel r, memMapInitTag s storage m tag fuel = some r ∧
    ∀ a ∈ r.2, tag ≤ a.1 ∧ a.1 + a.2 ≤ tag + tagSize m tag

/-- The tag has its size in it, and each entry that begins in it has its type there. -/
def MmapFits (m : Mem) (tag : ℕ) : Prop :=
  8 ≤ tagSize m tag ∧ (16 < tagSize m tag → 0 < mmapEntrySize m tag ∧
    ∀ i, 16 + i * mmapEntrySize m tag < tagSize m tag →
      16 + i * mmapEntrySize m tag + 20 ≤ tagSize m tag)

/-! ### What the loops do -/

section Tags

variable {m : Mem} {type tag : ℕ}

/-- **Sizes are rounded up** to a multiple of eight, on 32 bits. -/
theorem nextTag_eq (m : Mem) (tag : ℕ) :
    nextTag m tag = tag + (tagSize m tag + 7) % 2 ^ 32 / 8 * 8 := by
  have hsize : tagSize m tag < 2 ^ 32 := loadBytes_lt m (tag + 4) 4
  have hmask : (~~~(7 : BitVec 32)).toNat = Bits.highMask 32 3 := by decide
  rw [nextTag, BitVec.toNat_and, hmask, Bits.and_highMask (by norm_num) (BitVec.isLt _), BitVec.toNat_add,
    BitVec.toNat_ofNat, Nat.mod_eq_of_lt hsize]
  rfl

theorem tagReads_within {size : ℕ} : (∀ a ∈ tagReads m type tag, a.1 + a.2 ≤ size) ↔
    tag + 4 ≤ size ∧ (¬ tagStop m type tag → tag + 8 ≤ size) := by
  rw [tagReads]
  split
  · rename_i h
    simp [h]
  · rename_i h
    simp [h]

theorem ends_iff_tagChain : (∃ fuel r, mbootGetMbootInfo m type fuel = some r ∧
    ∀ a ∈ r.2, a.1 + a.2 ≤ mbootInfoSize m) ↔ TagChain m type := by
  have hrun := Walk.run_safe_iff (nextTag m) (tagStop m type) 8 (tagReads m type)
    fun a => a.1 + a.2 ≤ mbootInfoSize m
  simp only [tagReads_within] at hrun
  have hget : (∃ fuel r, mbootGetMbootInfo m type fuel = some r ∧
      ∀ a ∈ r.2, a.1 + a.2 ≤ mbootInfoSize m) ↔ ∃ fuel r, Walk.run (nextTag m) (tagStop m type)
        (tagReads m type) fuel 8 = some r ∧ ∀ a ∈ r.2, a.1 + a.2 ≤ mbootInfoSize m := by
    constructor
    · rintro ⟨fuel, r, hr, hreads⟩
      obtain ⟨r', hr', rfl⟩ := Option.map_eq_some_iff.mp hr
      exact ⟨fuel, r', hr', hreads⟩
    · rintro ⟨fuel, r, hr, hreads⟩
      exact ⟨fuel, _, Option.map_eq_some_iff.mpr ⟨r, hr, rfl⟩, hreads⟩
  rw [hget, hrun]
  constructor
  · rintro ⟨k, hstops, hreads⟩
    exact ⟨k, fun i hi => ⟨hstops.goes i hi, (hreads i hi.le).2 (hstops.goes i hi)⟩, hstops.stops,
      (hreads k le_rfl).1⟩
  · rintro ⟨k, hgoes, hstops, hfits⟩
    refine ⟨k, ⟨fun i hi => (hgoes i hi).1, hstops⟩, fun i hi => ?_⟩
    obtain hlt | rfl := Nat.lt_or_eq_of_le hi
    · have := (hgoes i hlt).2
      exact ⟨by omega, fun _ => this⟩
    · exact ⟨hfits, fun hgo => absurd hstops hgo⟩

/-- In a well-formed block the loop goes from tag to tag. -/
theorem TagSequence.finds {tags : List ℕ} (h : TagSequence m tag tags) (type : ℕ) : ∃ k,
    Walk.StopsAfter (nextTag m) (tagStop m type) tag k ∧
      (if tagType m ((nextTag m)^[k] tag) ≠ multibootTagTypeEnd then some ((nextTag m)^[k] tag) else none) =
        tags.find? fun tag => tagType m tag = type := by
  have hblock : mbootInfoSize m < 2 ^ 32 := loadBytes_lt m 0 4
  induction h with
  | nil hend hfits => exact ⟨0, Walk.stopsAfter_zero.mpr (.inl hend), if_neg (not_not_intro hend)⟩
  | @cons tag tags htype hsize hfits hrest ih =>
    by_cases hfound : tagType m tag = type
    · refine ⟨0, Walk.stopsAfter_zero.mpr (.inr hfound), ?_⟩
      rw [List.find?_cons_of_pos (by simpa using hfound)]
      exact if_pos htype
    · have hlt : tagSize m tag + 7 < 2 ^ 32 := by
        have hnext : tag + (tagSize m tag + 7) / 8 * 8 + 8 ≤ mbootInfoSize m := by
          cases hrest with
          | nil _ hfits' => exact hfits'
          | cons _ hsize' hfits' _ => omega
        omega
      have hnext : nextTag m tag = tag + (tagSize m tag + 7) / 8 * 8 := by
        rw [nextTag_eq, Nat.mod_eq_of_lt hlt]
      obtain ⟨k, hk, hfind⟩ := ih
      refine ⟨k + 1, Walk.stopsAfter_succ.mpr ⟨not_or.mpr ⟨htype, hfound⟩, by rwa [hnext]⟩, ?_⟩
      rw [List.find?_cons_of_neg (by simpa using hfound), Function.iterate_succ_apply, hnext]
      exact hfind

theorem mbootFinds_iff_tagChain : MbootFinds m type ↔ TagChain m type := by
  refine ⟨fun h => ends_iff_tagChain.mp h.ends, fun h => ⟨ends_iff_tagChain.mpr h, fun tags htags => ?_⟩⟩
  obtain ⟨k, hk, hfind⟩ := htags.finds type
  refine ⟨k + 1, (List.range (k + 1)).flatMap fun i => tagReads m type ((nextTag m)^[i] 8), ?_⟩
  rw [mbootGetMbootInfo, Walk.run_eq_of_stopsAfter hk k.lt_succ_self, Option.map_some]
  dsimp only
  rw [hfind]

end Tags

section Mmap

variable {m : Mem} {tag : ℕ} {s : ℕ × List MmapEntry}

theorem mmapNext_iterate (m : Mem) (tag k : ℕ) (s : ℕ × List MmapEntry) :
    ((mmapNext m tag)^[k] s).1 = s.1 + k * mmapEntrySize m tag := by
  induction k with
  | zero => simp
  | succ k ih =>
    rw [Function.iterate_succ_apply', mmapNext, ih]
    ring

theorem mmapReads_inside (hs : tag + 16 ≤ s.1) :
    (∀ a ∈ mmapReads m tag s, tag ≤ a.1 ∧ a.1 + a.2 ≤ tag + tagSize m tag) ↔
      8 ≤ tagSize m tag ∧ (¬ mmapStop m tag s → s.1 + 20 ≤ tag + tagSize m tag) := by
  rw [mmapReads]
  split
  · rename_i h
    simp [h]
    omega
  · rename_i h
    split
    · rename_i ha
      simp [h]
      omega
    · rename_i ha
      simp [h]
      omega

/-- **The memory map is gone through** inside of its tag exactly if the entries fit. -/
theorem mmapStays_iff_mmapFits {mem : Memory} {storage : ℕ → BitVec 8} :
    MmapStays mem storage m tag ↔ MmapFits m tag := by
  have hrun := Walk.run_safe_iff (mmapNext m tag) (mmapStop m tag) (tag + 16, []) (mmapReads m tag)
    fun a => tag ≤ a.1 ∧ a.1 + a.2 ≤ tag + tagSize m tag
  have hat := fun i => mmapNext_iterate m tag i (tag + 16, [])
  have hinside := fun i => mmapReads_inside (m := m) (s := (mmapNext m tag)^[i] (tag + 16, []))
    (show tag + 16 ≤ _ by rw [hat]; omega)
  simp only [hinside] at hrun
  have hstays : MmapStays mem storage m tag ↔ ∃ fuel r, Walk.run (mmapNext m tag) (mmapStop m tag)
      (mmapReads m tag) fuel (tag + 16, []) = some r ∧
        ∀ a ∈ r.2, tag ≤ a.1 ∧ a.1 + a.2 ≤ tag + tagSize m tag := by
    constructor
    · rintro ⟨fuel, r, hr, hreads⟩
      obtain ⟨r₁, hr₁, rfl⟩ := Option.map_eq_some_iff.mp hr
      obtain ⟨r₂, hr₂, rfl⟩ := Option.map_eq_some_iff.mp hr₁
      exact ⟨fuel, r₂, hr₂, fun a ha => hreads a (List.mem_append_left _ ha)⟩
    · rintro ⟨fuel, r, hr, hreads⟩
      refine ⟨fuel, _, Option.map_eq_some_iff.mpr ⟨_, Option.map_eq_some_iff.mpr ⟨r, hr, rfl⟩, rfl⟩,
        fun a ha => ?_⟩
      exact (List.mem_append.mp ha).elim (hreads a) (hreads a)
  have hstop : ∀ i, ¬ mmapStop m tag ((mmapNext m tag)^[i] (tag + 16, [])) ↔
      16 + i * mmapEntrySize m tag < tagSize m tag := fun i => by
    rw [mmapStop, not_not, hat]
    omega
  rw [hstays, hrun]
  constructor
  · rintro ⟨k, hstops, hreads⟩
    have hbehind : ¬ 16 + k * mmapEntrySize m tag < tagSize m tag := fun h => (hstop k).mpr h hstops.stops
    refine ⟨(hreads 0 k.zero_le).1, fun hlong => ⟨Nat.pos_of_ne_zero fun hzero => ?_, fun i hi => ?_⟩⟩
    · rw [hzero, Nat.mul_zero] at hbehind
      exact hbehind hlong
    · have hik : i < k := by
        by_contra hge
        have := Nat.mul_le_mul_right (mmapEntrySize m tag) (not_lt.mp hge)
        omega
      have hin := (hreads i hik.le).2 ((hstop i).mpr hi)
      rw [hat] at hin
      omega
  · rintro ⟨hsize, hfits⟩
    have hend : ∃ k, tagSize m tag ≤ 16 + k * mmapEntrySize m tag := by
      by_cases hlong : 16 < tagSize m tag
      · have := Nat.le_mul_of_pos_right (tagSize m tag) (hfits hlong).1
        exact ⟨tagSize m tag, by omega⟩
      · exact ⟨0, by omega⟩
    refine ⟨Nat.find hend, ⟨fun i hi => (hstop i).mpr (not_le.mp (Nat.find_min hend hi)), ?_⟩,
      fun i _ => ⟨hsize, fun hgo => ?_⟩⟩
    · by_contra hgo
      exact absurd (Nat.find_spec hend) (not_le.mpr ((hstop _).mp hgo))
    · have hi := (hstop i).mp hgo
      have := (hfits (by omega)).2 i hi
      rw [hat]
      omega

end Mmap

/-! ### The walk over the boot information -/

/-- **When the loops over the boot information do what they should.** -/
theorem bootInfo_iff (m : Mem) : (∀ type, MbootFinds m type ↔ TagChain m type) ∧
    ∀ (s : Memory) (storage : ℕ → BitVec 8) (tag : ℕ), MmapStays s storage m tag ↔ MmapFits m tag :=
  ⟨fun _ => mbootFinds_iff_tagChain, fun _ _ _ => mmapStays_iff_mmapFits⟩

/-- A block of 24 bytes with a tag of size 0. -/
def emptyTag : Mem := fun o => if o = 0 then 24 else if o = 8 then 1 else 0

/-- At a tag of size 0 that is not the one asked for the search stays where it is, and does not end. -/
theorem not_mbootFinds_emptyTag : ¬ ∀ (m : Mem) (type : ℕ), MbootFinds m type := by
  intro hall
  obtain ⟨fuel, r, hr, -⟩ := (hall emptyTag multibootTagTypeMmap).ends
  obtain ⟨r', hr', -⟩ := Option.map_eq_some_iff.mp hr
  obtain ⟨k, -, hstops, -⟩ := Walk.run_eq_some_iff.mp hr'
  exact Walk.not_stopsAfter_of_fixed (by decide +kernel) (by decide +kernel) hstops

end GeekToyOS
