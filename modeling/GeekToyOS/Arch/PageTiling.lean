import GeekToyOS.Arch.PageRegion

/-!
# The pages of a call tile its range

`arch_map_region` cuts `[vaddr, vaddr + size)`, rounded out to 4 KiB, into at most five chunks, and each
chunk into pages of one size. As long as nothing wraps around, the pages follow one another without gap
from the first address to the last, each aligned to its size; the large ones lie inside the range as it
was asked for.

## Main definitions

* `Tiles qs a b` — the pages of `qs`, in order, are exactly `[a, b)`
* `Fitting` — a page is aligned, and its entry is the one asked for
* `regionChunks` — the calls of `__map_region`, as chunks of the range
* `RegionTiling` — the chunks tile the range, none of them computed by an underflow

## Main results

* `regionChunks_tile` — the chunks of `arch_map_region` do
* `regionRequests_tiles` — the pages of a region tile it, each fitting its request
-/

namespace GeekToyOS

/-- The bytes of a page. -/
def PageRequest.size (q : PageRequest) : ℕ := 2 ^ levelShift q.level

/-- The address is in the page. -/
def PageRequest.Covers (q : PageRequest) (va : ℕ) : Prop := q.vaddr ≤ va ∧ va < q.vaddr + q.size

instance (q : PageRequest) (va : ℕ) : Decidable (q.Covers va) :=
  inferInstanceAs (Decidable (_ ∧ _))

/-- The pages of the list follow one another from `a` to `b`. -/
def Tiles : List PageRequest → ℕ → ℕ → Prop
  | [], a, b => a = b
  | q :: qs, a, b => q.vaddr = a ∧ Tiles qs (a + q.size) b

theorem PageRequest.size_pos (q : PageRequest) : 0 < q.size := Nat.two_pow_pos _

theorem Tiles.append {qs rs : List PageRequest} {a b c : ℕ} (h : Tiles qs a b)
    (h' : Tiles rs b c) : Tiles (qs ++ rs) a c := by
  induction qs generalizing a with
  | nil =>
    obtain rfl : a = b := h
    exact h'
  | cons q qs ih => exact ⟨h.1, ih h.2⟩

theorem Tiles.split {qs rs : List PageRequest} {a c : ℕ} (h : Tiles (qs ++ rs) a c) :
    ∃ b, Tiles qs a b ∧ Tiles rs b c := by
  induction qs generalizing a with
  | nil => exact ⟨a, rfl, h⟩
  | cons q qs ih =>
    obtain ⟨b, hqs, hrs⟩ := ih h.2
    exact ⟨b, ⟨h.1, hqs⟩, hrs⟩

theorem Tiles.le {qs : List PageRequest} {a b : ℕ} (h : Tiles qs a b) : a ≤ b := by
  induction qs generalizing a with
  | nil => exact le_of_eq h
  | cons q qs ih =>
    have := ih h.2
    omega

theorem Tiles.within {qs : List PageRequest} {a b : ℕ} (h : Tiles qs a b) {q : PageRequest}
    (hq : q ∈ qs) : a ≤ q.vaddr ∧ q.vaddr + q.size ≤ b := by
  induction qs generalizing a with
  | nil => cases hq
  | cons q' qs ih =>
    have hle := h.2.le
    have hfst := h.1
    rcases List.mem_cons.mp hq with rfl | hq
    · omega
    · have := ih h.2 hq
      omega

theorem Tiles.exists_covers {qs : List PageRequest} {a b : ℕ} (h : Tiles qs a b) (va : ℕ)
    (ha : a ≤ va) (hb : va < b) : ∃ q ∈ qs, q.Covers va := by
  induction qs generalizing a with
  | nil =>
    obtain rfl : a = b := h
    omega
  | cons q qs ih =>
    rcases Nat.lt_or_ge va (a + q.size) with hlt | hge
    · exact ⟨q, List.mem_cons_self, h.1 ▸ ha, h.1 ▸ hlt⟩
    · obtain ⟨q', hq', hcov⟩ := ih h.2 hge
      exact ⟨q', List.mem_cons_of_mem _ hq', hcov⟩

/-! ### The pages of a chunk -/

section Fitting

variable {delta perm : ℕ}

/-- The page is aligned, and its entry maps it `delta` bytes lower with the attributes `perm`. -/
structure Fitting (delta perm : ℕ) (q : PageRequest) : Prop where
  level_le : q.level ≤ 2
  dvd : 2 ^ levelShift q.level ∣ q.vaddr
  value : q.value = leafValue (wsub q.vaddr delta) perm q.level

theorem Fitting.leafFor {q : PageRequest} (h : Fitting delta perm q) : LeafFor q.level q.value := by
  rw [h.value]
  exact leafFor_leafValue h.level_le

/-- The pages of a chunk fit the request, also where addresses wrap around. -/
theorem fitting_of_mem_chunk {level n addr paddr : ℕ} {q : PageRequest} (hlevel : level ≤ 2)
    (hdvd : 2 ^ levelShift level ∣ addr) (hpa : paddr = wsub addr delta) (hdelta : delta < 2 ^ 64)
    (hq : q ∈ chunkRequests perm level n addr paddr) : Fitting delta perm q := by
  induction n generalizing addr paddr with
  | zero => cases hq
  | succ n ih =>
    rcases List.mem_cons.mp hq with rfl | hq
    · exact ⟨hlevel, hdvd, by rw [hpa]⟩
    · have hk : levelShift level ≤ 64 := by
        rw [levelShift]
        omega
      refine ih ?_ ?_ hq
      · rw [levelSize_eq hlevel, wadd]
        exact (Nat.dvd_mod_iff (pow_dvd_pow 2 hk)).mpr (Nat.dvd_add hdvd dvd_rfl)
      · rw [hpa, wadd, wadd, wsub, wsub]
        omega

theorem fitting_of_mem_mapRequests {level start size : ℕ} {q : PageRequest} (hlevel : level ≤ 2)
    (hdelta : delta < 2 ^ 64) (hq : q ∈ mapRequests start (wsub start delta) size perm level) :
    Fitting delta perm q := by
  rw [mapRequests] at hq
  split at hq
  · cases hq
  · have hk : levelShift level ≤ 64 := by
      rw [levelShift]
      omega
    have hle : alignDown start (2 ^ levelShift level) ≤ start % 2 ^ 64 := by
      rw [alignDown_eq start hk]
      exact Nat.div_mul_le_self _ _
    refine fitting_of_mem_chunk hlevel ?_ ?_ hdelta hq
    · rw [levelSize_eq hlevel, alignDown_eq start hk]
      exact Nat.dvd_mul_left _ _
    · rw [levelSize_eq hlevel]
      generalize alignDown start (2 ^ levelShift level) = base at *
      rw [wsub, wsub, wsub, wsub]
      omega

/-- **Every page of a call fits the request**: it keeps the distance between the addresses and has the
attributes asked for. -/
theorem fitting_of_mem {page1GB : Bool} {vaddr paddr size permFlag : ℕ} {q : PageRequest}
    (hq : q ∈ regionRequests page1GB vaddr paddr size permFlag) :
    Fitting (wsub vaddr paddr) (regionPerm permFlag) q := by
  obtain ⟨start, stop, level, hlevel, hq⟩ := exists_chunk_of_mem hq
  exact fitting_of_mem_mapRequests hlevel (Nat.mod_lt _ (by norm_num)) hq

variable (perm) in
theorem chunkRequests_tiles {level : ℕ} (addr paddr n : ℕ) (hlevel : level ≤ 2)
    (hend : addr + n * 2 ^ levelShift level < 2 ^ 64) :
    Tiles (chunkRequests perm level n addr paddr) addr (addr + n * 2 ^ levelShift level) := by
  induction n generalizing addr paddr with
  | zero => simp [chunkRequests, Tiles]
  | succ n ih =>
    have hpos := Nat.two_pow_pos (levelShift level)
    rw [Nat.succ_mul] at hend
    have hnext : wadd addr (levelSize level) = addr + 2 ^ levelShift level := by
      rw [levelSize_eq hlevel]
      exact wadd_of_lt (by omega)
    rw [chunkRequests, hnext, Nat.succ_mul]
    refine ⟨rfl, ?_⟩
    rw [show addr + (n * 2 ^ levelShift level + 2 ^ levelShift level) =
      addr + 2 ^ levelShift level + n * 2 ^ levelShift level by omega]
    exact ih _ _ (by omega)

variable (perm) in
/-- The pages of a chunk `[start, stop)` with ends that are aligned to the page size. -/
theorem mapRequests_tiles {level start stop : ℕ} (hlevel : level ≤ 2)
    (hstart : 2 ^ levelShift level ∣ start) (hstop : 2 ^ levelShift level ∣ stop)
    (hle : start ≤ stop) (hlt : stop < 2 ^ 64) (paddr : ℕ) :
    Tiles (mapRequests start paddr (wsub stop start) perm level) start stop := by
  have hk : levelShift level ≤ 64 := by
    rw [levelShift]
    omega
  have hpos := Nat.two_pow_pos (levelShift level)
  rw [mapRequests, wsub_of_le hle hlt]
  split
  · rename_i h
    exact show start = stop by omega
  · rename_i h
    have hsum : wadd start (stop - start) = stop := by
      rw [wadd_of_lt (by omega)]
      omega
    have hend : align stop (2 ^ levelShift level) = stop := by
      obtain ⟨c, rfl⟩ := hstop
      rw [align_eq _ hk]
      have : (2 ^ levelShift level * c + (2 ^ levelShift level - 1)) / 2 ^ levelShift level = c := by
        rw [Nat.mul_add_div hpos, Nat.div_eq_of_lt (by omega), Nat.add_zero]
      obtain ⟨d, hd⟩ : 2 ^ levelShift level ∣ 2 ^ 64 := pow_dvd_pow 2 hk
      rw [Nat.mod_eq_of_lt, this, Nat.mul_comm]
      rw [hd] at hlt ⊢
      have hcd : c + 1 ≤ d := Nat.lt_of_mul_lt_mul_left hlt
      have := Nat.mul_le_mul_left (2 ^ levelShift level) hcd
      rw [Nat.mul_succ] at this
      omega
    have hbegin : alignDown start (2 ^ levelShift level) = start := by
      rw [alignDown_eq _ hk, Nat.mod_eq_of_lt (by omega), Nat.div_mul_cancel hstart]
    rw [hsum, levelSize_eq hlevel, hend, hbegin]
    have hcount : (stop - start) / 2 ^ levelShift level * 2 ^ levelShift level = stop - start :=
      Nat.div_mul_cancel (Nat.dvd_sub hstop hstart)
    have htiles := chunkRequests_tiles perm start (wsub paddr (wsub start start))
      ((stop - start) / 2 ^ levelShift level) hlevel (by omega)
    rwa [hcount, Nat.add_sub_cancel' hle] at htiles

end Fitting

/-! ### The entry of a page -/

section LeafValue

variable {pa perm level : ℕ}

theorem regionPerm_lt (permFlag : ℕ) : regionPerm permFlag < 4096 := by
  have hmask : permFlag &&& pgAttrMask < 2 ^ 12 :=
    lt_of_le_of_lt Nat.and_le_right (by decide)
  rw [regionPerm]
  split
  · exact Nat.or_lt_two_pow (n := 12) hmask (by decide)
  · exact hmask

/-- The attributes that end up in an entry. -/
def leafAttr (perm level : ℕ) : ℕ := perm ||| (if level ≠ 0 then ptePS else 0)

variable (level) in
theorem leafAttr_lt (h : perm < 4096) : leafAttr perm level < 4096 := by
  refine Nat.or_lt_two_pow (n := 12) h ?_
  split <;> decide

theorem leafValue_eq (hpa : 4096 ∣ pa) (hperm : perm < 4096) :
    leafValue pa perm level = pa + leafAttr perm level := by
  rw [leafValue, Nat.or_assoc]
  exact Bits.or_eq_add_of_low (k := 12) hpa (leafAttr_lt level hperm)

theorem present_leafValue (hpa : 4096 ∣ pa) : Present (leafValue pa perm level) ↔ Present perm := by
  have hps : (if level ≠ 0 then ptePS else 0).testBit 0 = false := by
    split <;> decide
  rw [present_iff, present_iff, leafValue, Nat.testBit_or, Nat.testBit_or,
    testBit_of_dvd (k := 12) hpa (by norm_num), hps, Bool.false_or, Bool.or_false]

theorem ptaddr_leafValue (hpa : 4096 ∣ pa) (hlt : pa < 2 ^ 64) (hperm : perm < 4096) :
    ptaddr (leafValue pa perm level) = pa := by
  have := leafAttr_lt level hperm
  rw [leafValue_eq hpa hperm, ptaddr_eq]
  omega

end LeafValue

theorem two_pow_levelShift_dvd {j k : ℕ} (h : j ≤ k) : 2 ^ levelShift j ∣ 2 ^ levelShift k :=
  pow_dvd_pow 2 (by rw [levelShift, levelShift]; omega)

theorem wsub_dvd {a b k : ℕ} (hk : k ≤ 64) (ha : 2 ^ k ∣ a) (hb : 2 ^ k ∣ b) :
    2 ^ k ∣ wsub a b := by
  have h64 : 2 ^ k ∣ 2 ^ 64 := pow_dvd_pow 2 hk
  have h₁ : 2 ^ k ∣ a + 2 ^ 64 - b := Nat.dvd_sub (Nat.dvd_add ha h64) hb
  exact (Nat.dvd_mod_iff h64).mpr h₁

/-- A page that is moved by a multiple of its size stays aligned. -/
theorem Fitting.leafAligned {delta perm : ℕ} {q : PageRequest} (h : Fitting delta perm q)
    (hdelta : 2 ^ levelShift q.level ∣ delta) (hperm : perm < 4096) :
    2 ^ levelShift q.level ∣ wsub q.vaddr delta ∧ LeafAligned q.level q.value := by
  have hk : levelShift q.level ≤ 64 := by
    have := h.level_le
    rw [levelShift]
    omega
  have hdvd := wsub_dvd hk h.dvd hdelta
  have h4096 : 4096 ∣ wsub q.vaddr delta :=
    (two_pow_levelShift_dvd (Nat.zero_le q.level)).trans hdvd
  refine ⟨hdvd, fun _ => ?_⟩
  rw [h.value, ptaddr_leafValue h4096 (Nat.mod_lt _ (by norm_num)) hperm]
  exact hdvd

/-! ### The chunks of a call -/

/-- A call of `__map_region` by `arch_map_region`: the chunk `[start, stop)`, mapped `delta` bytes lower. -/
structure RegionChunk where
  start : ℕ
  stop : ℕ
  delta : ℕ
  level : ℕ

namespace RegionChunk

variable (c : RegionChunk)

/-- The size that is passed. -/
def size : ℕ := wsub c.stop c.start

/-- The physical address that is passed. -/
def paddr : ℕ := wsub c.start c.delta

/-- The pages of the chunk. -/
def requests (perm : ℕ) : List PageRequest := mapRequests c.start c.paddr c.size perm c.level

end RegionChunk

/-- The calls of `__map_region` that `arch_map_region` makes, in order. -/
def regionChunks (page1GB : Bool) (vaddr paddr size : ℕ) : List RegionChunk :=
  let delta := wsub vaddr paddr
  let vaS1 := align vaddr ptSize
  let vaE1 := alignDown (wadd vaddr size) ptSize
  let vaS2 := align vaddr (ptSize * npdEntries)
  let vaE2 := alignDown (wadd vaddr size) (ptSize * npdEntries)
  let vaEnd := align (wadd vaddr size) pgSize
  let va := alignDown vaddr pgSize
  if vaS1 < vaE1 then
    [⟨va, vaS1, delta, 0⟩] ++
    (if vaS2 < vaE2 ∧ page1GB then [⟨vaS1, vaS2, delta, 1⟩, ⟨vaS2, vaE2, delta, 2⟩, ⟨vaE2, vaE1, delta, 1⟩]
      else [⟨vaS1, vaE1, delta, 1⟩]) ++
    [⟨vaE1, vaEnd, delta, 0⟩]
  else [⟨va, vaEnd, delta, 0⟩]

theorem regionRequests_eq_chunks (page1GB : Bool) (vaddr paddr size permFlag : ℕ) :
    regionRequests page1GB vaddr paddr size permFlag =
      (regionChunks page1GB vaddr paddr size).flatMap fun c => c.requests (regionPerm permFlag) := by
  rw [regionRequests, regionChunks]
  dsimp only
  split
  · split
    · simp [RegionChunk.requests, RegionChunk.size, RegionChunk.paddr]
    · simp [RegionChunk.requests, RegionChunk.size, RegionChunk.paddr]
  · simp [RegionChunk.requests, RegionChunk.size, RegionChunk.paddr]

/-- **`arch_map_region` makes these calls**, and no others. -/
theorem archMapRegion_eq_chunks {π : Type*} (P : TablePages π) (page1GB : Bool) (pgdir : Option ℕ)
    (vaddr paddr size permFlag : ℕ) (m : Paging π) :
    archMapRegion P page1GB pgdir vaddr paddr size permFlag m =
      (regionChunks page1GB vaddr paddr size).foldlM (fun m' c => mapRegion P (pgdir.getD m.kernelPgd)
        c.start c.paddr c.size (regionPerm permFlag) c.level m') m := by
  rw [archMapRegion, regionChunks]
  dsimp only
  split
  · split
    all_goals
      simp only [List.cons_append, List.nil_append, List.foldlM_cons, List.foldlM_nil, Option.bind_eq_bind,
        Option.bind_assoc, Option.pure_def, Option.bind_fun_some]
      rfl
  · simp only [List.foldlM_cons, List.foldlM_nil, Option.bind_eq_bind, Option.pure_def,
      Option.bind_fun_some]
    rfl

/-- The chunks follow one another from `a` to `b`, none of them backwards. -/
def Consecutive : List RegionChunk → ℕ → ℕ → Prop
  | [], a, b => a = b
  | c :: cs, a, b => c.start = a ∧ c.start ≤ c.stop ∧ Consecutive cs c.stop b

theorem Consecutive.le {cs : List RegionChunk} {a b : ℕ} (h : Consecutive cs a b) : a ≤ b := by
  induction cs generalizing a with
  | nil => exact le_of_eq h
  | cons c cs ih => exact h.1 ▸ h.2.1.trans (ih h.2.2)

theorem Consecutive.within {cs : List RegionChunk} {a b : ℕ} (h : Consecutive cs a b) {c : RegionChunk}
    (hc : c ∈ cs) : a ≤ c.start ∧ c.start ≤ c.stop ∧ c.stop ≤ b := by
  induction cs generalizing a with
  | nil => cases hc
  | cons c' cs ih =>
    obtain ⟨hfst, hle, hrest⟩ := h
    rcases List.mem_cons.mp hc with rfl | hc
    · exact ⟨hfst.ge, hle, hrest.le⟩
    · have := ih hrest hc
      omega

theorem Consecutive.tiles_flatMap {cs : List RegionChunk} {a b perm : ℕ} (h : Consecutive cs a b)
    (hcs : ∀ c ∈ cs, Tiles (c.requests perm) c.start c.stop) :
    Tiles (cs.flatMap fun c => c.requests perm) a b := by
  induction cs generalizing a with
  | nil => exact h
  | cons c cs ih =>
    obtain ⟨rfl, -, hrest⟩ := h
    rw [List.flatMap_cons]
    exact (hcs c List.mem_cons_self).append (ih hrest fun d hd => hcs d (List.mem_cons_of_mem c hd))

/-- Empty chunks may be left out: what is left still follows one another. -/
theorem Consecutive.filter {cs : List RegionChunk} {a b : ℕ} (h : Consecutive cs a b)
    (hb : b < 2 ^ 64) : Consecutive (cs.filter fun c => c.size ≠ 0) a b := by
  induction cs generalizing a with
  | nil => exact h
  | cons c cs ih =>
    obtain ⟨hfst, hle, hrest⟩ := h
    have hstop := hrest.le
    have hsize : c.size = c.stop - c.start := wsub_of_le hle (hstop.trans_lt hb)
    by_cases hne : c.size = 0
    · rw [List.filter_cons_of_neg (by simpa using hne)]
      have heq : c.stop = a := by omega
      exact heq ▸ ih hrest
    · rw [List.filter_cons_of_pos (by simpa using hne)]
      exact ⟨hfst, hle, ih hrest⟩

theorem Consecutive.pairwise {cs : List RegionChunk} {a b : ℕ} (h : Consecutive cs a b) :
    cs.Pairwise fun c d => c.stop ≤ d.start := by
  induction cs generalizing a with
  | nil => exact List.Pairwise.nil
  | cons c cs ih =>
    obtain ⟨-, -, hrest⟩ := h
    exact List.Pairwise.cons (fun d hd => (hrest.within hd).1) (ih hrest)

theorem Consecutive.mem_iff {cs : List RegionChunk} {a b : ℕ} (h : Consecutive cs a b) (x : ℕ) :
    a ≤ x ∧ x < b ↔ ∃ c ∈ cs, c.start ≤ x ∧ x < c.stop := by
  constructor
  · rintro ⟨hlo, hhi⟩
    induction cs generalizing a with
    | nil =>
      obtain rfl : a = b := h
      omega
    | cons c cs ih =>
      obtain ⟨hfst, hle, hrest⟩ := h
      rcases Nat.lt_or_ge x c.stop with hlt | hge
      · exact ⟨c, List.mem_cons_self, hfst ▸ hlo, hlt⟩
      · obtain ⟨d, hd, hx⟩ := ih hrest hge
        exact ⟨d, List.mem_cons_of_mem _ hd, hx⟩
  · rintro ⟨c, hc, hlo, hhi⟩
    have := h.within hc
    omega

/-- A chunk begins and ends on a boundary of its pages, and large pages stay in the range asked for. -/
structure ChunkFitting (vaddr paddr size : ℕ) (c : RegionChunk) : Prop where
  level_le : c.level ≤ 2
  dvd_start : 2 ^ levelShift c.level ∣ c.start
  dvd_stop : 2 ^ levelShift c.level ∣ c.stop
  delta : c.delta = wsub vaddr paddr
  inside : c.level ≠ 0 → vaddr ≤ c.start ∧ c.stop ≤ vaddr + size

/-! ### The pages of a call -/

/-- Where the pages of a call begin. -/
def regionStart (vaddr : ℕ) : ℕ := alignDown vaddr pgSize

/-- Where they end. -/
def regionEnd (vaddr size : ℕ) : ℕ := align (wadd vaddr size) pgSize

/-- **Chunks that tile a range**: computed without underflow, one after another from the first page to the
last, large ones on the boundaries of large pages, at the distance that was asked for. -/
structure RegionTiling (vaddr paddr size : ℕ) (cs : List RegionChunk) : Prop where
  /-- No size is the result of an underflow. -/
  no_underflow : ∀ c ∈ cs, c.start ≤ c.stop ∧ c.size = c.stop - c.start
  /-- The chunks that are not empty follow one another. -/
  consecutive : Consecutive (cs.filter fun c => c.size ≠ 0) (alignDown vaddr 4096)
    (align (wadd vaddr size) 4096)
  /-- They do not overlap. -/
  disjoint : (cs.filter fun c => c.size ≠ 0).Pairwise fun c d => c.stop ≤ d.start
  /-- They cover the range, and nothing else. -/
  covers : ∀ a, alignDown vaddr 4096 ≤ a ∧ a < align (wadd vaddr size) 4096 ↔
    ∃ c ∈ cs.filter fun c => c.size ≠ 0, c.start ≤ a ∧ a < c.stop
  /-- Large pages stand on their boundaries. -/
  level_one : ∀ c ∈ cs, c.level = 1 → 2 ^ 21 ∣ c.start ∧ 2 ^ 21 ∣ c.stop
  level_two : ∀ c ∈ cs, c.level = 2 → 2 ^ 30 ∣ c.start ∧ 2 ^ 30 ∣ c.stop
  /-- The difference of the addresses that are passed is the one of the call. -/
  delta : ∀ c ∈ cs, wsub c.start c.paddr = wsub vaddr paddr

section Region

variable {vaddr paddr size permFlag : ℕ} {page1GB : Bool} (hend : vaddr + size + 2 ^ 30 ≤ 2 ^ 64)

include hend

theorem regionStart_eq : regionStart vaddr = vaddr / 4096 * 4096 := alignDown_pgSize (by omega)

theorem regionEnd_eq : regionEnd vaddr size = (vaddr + size + 4095) / 4096 * 4096 := by
  have h := align_eq (vaddr + size) (k := 12) (by norm_num)
  rw [regionEnd, wadd_of_lt (by omega), show pgSize = 2 ^ 12 from rfl, h]
  omega

variable (paddr page1GB) in
/-- The chunks follow one another, each with aligned ends. -/
theorem regionChunks_consecutive :
    Consecutive (regionChunks page1GB vaddr paddr size) (regionStart vaddr) (regionEnd vaddr size) ∧
      ∀ c ∈ regionChunks page1GB vaddr paddr size, ChunkFitting vaddr paddr size c := by
  have hsum : wadd vaddr size = vaddr + size := wadd_of_lt (by omega)
  obtain ⟨s₀, hs₀, hs₀'⟩ : ∃ s, alignDown vaddr pgSize = s ∧ s = vaddr / 4096 * 4096 :=
    ⟨_, rfl, regionStart_eq hend⟩
  obtain ⟨e₀, he₀, he₀'⟩ : ∃ e, align (vaddr + size) pgSize = e ∧
      e = (vaddr + size + 4095) / 4096 * 4096 := by
    have h := regionEnd_eq hend
    rw [regionEnd, hsum] at h
    exact ⟨_, rfl, h⟩
  obtain ⟨s₁, hs₁, hs₁'⟩ : ∃ s, align vaddr ptSize = s ∧
      s = (vaddr + (2 ^ 21 - 1)) / 2 ^ 21 * 2 ^ 21 :=
    ⟨_, rfl, (align_eq vaddr (k := 21) (by norm_num)).trans (by omega)⟩
  obtain ⟨e₁, he₁, he₁'⟩ : ∃ e, alignDown (vaddr + size) ptSize = e ∧
      e = (vaddr + size) / 2 ^ 21 * 2 ^ 21 :=
    ⟨_, rfl, (alignDown_eq (vaddr + size) (k := 21) (by norm_num)).trans (by omega)⟩
  obtain ⟨s₂, hs₂, hs₂'⟩ : ∃ s, align vaddr (ptSize * npdEntries) = s ∧
      s = (vaddr + (2 ^ 30 - 1)) / 2 ^ 30 * 2 ^ 30 :=
    ⟨_, rfl, (align_eq vaddr (k := 30) (by norm_num)).trans (by omega)⟩
  obtain ⟨e₂, he₂, he₂'⟩ : ∃ e, alignDown (vaddr + size) (ptSize * npdEntries) = e ∧
      e = (vaddr + size) / 2 ^ 30 * 2 ^ 30 :=
    ⟨_, rfl, (alignDown_eq (vaddr + size) (k := 30) (by norm_num)).trans (by omega)⟩
  simp only [regionChunks, regionStart, regionEnd, hsum, hs₀, he₀, hs₁, he₁, hs₂, he₂]
  clear hs₀ he₀ hs₁ he₁ hs₂ he₂ hsum
  have fit₀ : ∀ {start stop : ℕ}, 2 ^ 12 ∣ start → 2 ^ 12 ∣ stop →
      ChunkFitting vaddr paddr size ⟨start, stop, wsub vaddr paddr, 0⟩ := fun hstart hstop =>
    ⟨by norm_num, hstart, hstop, rfl, fun h => absurd rfl h⟩
  have fit₁ : ∀ {start stop : ℕ}, 2 ^ 21 ∣ start → 2 ^ 21 ∣ stop → vaddr ≤ start →
      stop ≤ vaddr + size → ChunkFitting vaddr paddr size ⟨start, stop, wsub vaddr paddr, 1⟩ :=
    fun hstart hstop hlo hhi => ⟨by norm_num, hstart, hstop, rfl, fun _ => ⟨hlo, hhi⟩⟩
  have fit₂ : ∀ {start stop : ℕ}, 2 ^ 30 ∣ start → 2 ^ 30 ∣ stop → vaddr ≤ start →
      stop ≤ vaddr + size → ChunkFitting vaddr paddr size ⟨start, stop, wsub vaddr paddr, 2⟩ :=
    fun hstart hstop hlo hhi => ⟨le_rfl, hstart, hstop, rfl, fun _ => ⟨hlo, hhi⟩⟩
  split
  · split
    · rename_i h₁ h₂
      have hlt := h₂.1
      refine ⟨⟨rfl, by dsimp only; omega, rfl, by dsimp only; omega, rfl, by dsimp only; omega, rfl,
        by dsimp only; omega, rfl, by dsimp only; omega, rfl⟩, ?_⟩
      simp only [List.cons_append, List.nil_append, List.forall_mem_cons]
      exact ⟨fit₀ (by omega) (by omega), fit₁ (by omega) (by omega) (by omega) (by omega),
        fit₂ (by omega) (by omega) (by omega) (by omega),
        fit₁ (by omega) (by omega) (by omega) (by omega), fit₀ (by omega) (by omega), by simp⟩
    · refine ⟨⟨rfl, by dsimp only; omega, rfl, by dsimp only; omega, rfl, by dsimp only; omega, rfl⟩, ?_⟩
      simp only [List.cons_append, List.nil_append, List.forall_mem_cons]
      exact ⟨fit₀ (by omega) (by omega), fit₁ (by omega) (by omega) (by omega) (by omega),
        fit₀ (by omega) (by omega), by simp⟩
  · refine ⟨⟨rfl, by dsimp only; omega, rfl⟩, ?_⟩
    simp only [List.forall_mem_cons]
    exact ⟨fit₀ (by omega) (by omega), by simp⟩

variable (paddr permFlag page1GB) in
/-- **The pages tile the range, each aligned, each with the entry asked for.** -/
theorem regionRequests_tiles :
    Tiles (regionRequests page1GB vaddr paddr size permFlag) (regionStart vaddr)
        (regionEnd vaddr size) ∧
      ∀ q ∈ regionRequests page1GB vaddr paddr size permFlag,
        Fitting (wsub vaddr paddr) (regionPerm permFlag) q ∧
          (q.level ≠ 0 → vaddr ≤ q.vaddr ∧ q.vaddr + q.size ≤ vaddr + size) := by
  obtain ⟨hcons, hfit⟩ := regionChunks_consecutive paddr page1GB hend
  have hlt : regionEnd vaddr size < 2 ^ 64 := by
    rw [regionEnd_eq hend]
    omega
  have hchunk : ∀ c ∈ regionChunks page1GB vaddr paddr size,
      Tiles (c.requests (regionPerm permFlag)) c.start c.stop := fun c hc => by
    have hc' := hfit c hc
    obtain ⟨-, hle, hstop⟩ := hcons.within hc
    rw [RegionChunk.requests, RegionChunk.size]
    exact mapRequests_tiles (regionPerm permFlag) hc'.level_le hc'.dvd_start hc'.dvd_stop hle
      (hstop.trans_lt hlt) _
  refine ⟨?_, fun q hq => ⟨fitting_of_mem hq, fun hne => ?_⟩⟩
  · rw [regionRequests_eq_chunks]
    exact hcons.tiles_flatMap hchunk
  · rw [regionRequests_eq_chunks] at hq
    obtain ⟨c, hc, hq⟩ := List.mem_flatMap.mp hq
    obtain ⟨hs, he⟩ := (hfit c hc).inside ((mem_mapRequests hq).1 ▸ hne)
    have := (hchunk c hc).within hq
    omega

variable (paddr page1GB) in
theorem regionTiling_regionChunks :
    RegionTiling vaddr paddr size (regionChunks page1GB vaddr paddr size) := by
  obtain ⟨hcons, hfit⟩ := regionChunks_consecutive paddr page1GB hend
  have hlt : regionEnd vaddr size < 2 ^ 64 := by
    rw [regionEnd_eq hend]
    omega
  have hfilter := hcons.filter hlt
  refine ⟨fun c hc => ?_, hfilter, hfilter.pairwise, hfilter.mem_iff, fun c hc h1 => ?_, fun c hc h2 => ?_,
    fun c hc => ?_⟩
  · obtain ⟨-, hle, hstop⟩ := hcons.within hc
    refine ⟨hle, ?_⟩
    rw [RegionChunk.size]
    exact wsub_of_le hle (hstop.trans_lt hlt)
  · have hc' := hfit c hc
    have hstart := hc'.dvd_start
    have hstop := hc'.dvd_stop
    rw [h1, show levelShift 1 = 21 from rfl] at hstart hstop
    exact ⟨hstart, hstop⟩
  · have hc' := hfit c hc
    have hstart := hc'.dvd_start
    have hstop := hc'.dvd_stop
    rw [h2, show levelShift 2 = 30 from rfl] at hstart hstop
    exact ⟨hstart, hstop⟩
  · obtain ⟨-, hle, hstop⟩ := hcons.within hc
    have hdelta : wsub vaddr paddr < 2 ^ 64 := Nat.mod_lt _ (by norm_num)
    rw [RegionChunk.paddr, (hfit c hc).delta]
    generalize wsub vaddr paddr = d at hdelta
    rw [wsub, wsub]
    omega

variable (paddr page1GB) in
/-- **The chunks of `arch_map_region` tile its range**: it calls `__map_region` with these chunks, one after
the other, whatever the tables are. -/
theorem regionChunks_tile :
    RegionTiling vaddr paddr size (regionChunks page1GB vaddr paddr size) ∧
      ∀ {π : Type*} (P : TablePages π) (pgdir : Option ℕ) (permFlag : ℕ) (m : Paging π),
        archMapRegion P page1GB pgdir vaddr paddr size permFlag m =
          (regionChunks page1GB vaddr paddr size).foldlM (fun m' c => mapRegion P (pgdir.getD m.kernelPgd)
            c.start c.paddr c.size (regionPerm permFlag) c.level m') m :=
  ⟨regionTiling_regionChunks paddr page1GB hend, fun P pgdir permFlag m =>
    archMapRegion_eq_chunks P page1GB pgdir vaddr paddr size permFlag m⟩

end Region

/-- A region of five chunks: from one page below a boundary of 2 MiB, over one of 1 GiB, into a page. -/
theorem regionChunks_tile_five :
    RegionTiling (2 ^ 30 - 2 ^ 21 - 4096) 0 (2 ^ 31 + 2 ^ 22 + 1)
        (regionChunks true (2 ^ 30 - 2 ^ 21 - 4096) 0 (2 ^ 31 + 2 ^ 22 + 1)) ∧
      archMapRegion listPages true none (2 ^ 30 - 2 ^ 21 - 4096) 0 (2 ^ 31 + 2 ^ 22 + 1) pteW emptyTables =
        (regionChunks true (2 ^ 30 - 2 ^ 21 - 4096) 0 (2 ^ 31 + 2 ^ 22 + 1)).foldlM (fun m' c =>
          mapRegion listPages 0x1000 c.start c.paddr c.size (regionPerm pteW) c.level m') emptyTables := by
  obtain ⟨htile, hmap⟩ := @regionChunks_tile (2 ^ 30 - 2 ^ 21 - 4096) 0 (2 ^ 31 + 2 ^ 22 + 1) true
    (by norm_num)
  exact ⟨htile, hmap listPages none pteW emptyTables⟩

end GeekToyOS
