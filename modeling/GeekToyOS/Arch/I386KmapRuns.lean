import GeekToyOS.Arch.I386Kmap
import GeekToyOS.Arch.I386Region
import GeekToyOS.Data.Lease
import GeekToyOS.Data.Trace

/-!
# Runs of `arch_kmap` and `arch_kunmap` on i386

A sequence of `arch_kmap` for memory beyond the direct map and `arch_kunmap`. Beside the kernel's state, a
run keeps the live mappings. Each one has a window, the pages that hold what was mapped, and the bitmap is
to say which pages are in a window.

It does as long as every range fills as many pages as its size, every window fits in, and what is given
back was one page. In a run with a call that does otherwise, the bitmap is wrong right behind it: the
windows are leases, and the bits do not change by what the lease covers.

## Main definitions

* `I386.KmapStep` — one call
* `I386.Accounted`, `I386.KmapLawful` — the property of a state, and of a run
* `I386.KmapOk` — the calls that keep it

## Main results

* `I386.KmapStep.keeps_iff` — one call
* `I386.kmapLawful_iff` — all runs
-/

namespace GeekToyOS.I386

/-- A live mapping: what was mapped, and the address of it. -/
structure Kmapping where
  range : HighRange
  va : ℕ

/-- The pages of its window. -/
def Kmapping.window (w : Kmapping) : Set ℕ := Set.Ico (w.va / 4096) (w.va / 4096 + w.range.pages)

/-- The state and the live mappings. -/
structure KmapRun (π : Type*) where
  kmaps : Kmaps π
  live : List Kmapping

/-- The calls. -/
inductive KmapCall
  | kmap (r : HighRange)
  | kunmap (va : ℕ)

variable {π : Type*} (P : TablePages π)

/-- One call. After a panic there is no state. -/
def kmapCall (s : KmapRun π) : KmapCall → Option (KmapRun π)
  | .kmap r => (archKmap P r.phy r.sz s.kmaps).bind fun
    | .address va k => some ⟨k, ⟨r, va⟩ :: s.live⟩
    | _ => none
  | .kunmap va =>
    if va < 2 ^ 32 then (archKunmap P va s.kmaps).map fun k => ⟨k, s.live.filter fun w => w.va ≠ va⟩
    else none

/-- A step of a run. -/
def KmapStep (s : KmapRun π) (c : KmapCall) (s' : KmapRun π) : Prop := kmapCall P s c = some s'

/-- The state at boot: no page is taken. -/
def bootKmaps (bytes : ℕ → BitVec 8) (mem : Paging π) : KmapRun π := ⟨⟨initHighKmap bytes, mem⟩, []⟩

/-- **The windows are accounted for**: they are disjoint and inside of the pages from `KMAPPING_BASE` on,
and a bit is set just if its page is in a window. -/
structure Accounted (s : KmapRun π) : Prop where
  disjoint : s.live.Pairwise fun w w' => Disjoint w.window w'.window
  inside : ∀ w ∈ s.live, windowPage ≤ w.va / 4096 ∧
    w.va / 4096 + w.range.pages ≤ windowPage + highMemBitmapSize
  bits : ∀ i < highMemBitmapSize, s.kmaps.highKmap.bit i = true ↔ ∃ w ∈ s.live, windowPage + i ∈ w.window

/-- Some `n` pages in a row are free. -/
def FreeWindow (map : Bitmap) (n : ℕ) : Prop :=
  ∃ l, l + n ≤ highMemBitmapSize ∧ ∀ i, l ≤ i → i < l + n → map.bit i = false

/-- A call of `arch_kmap` that returned had a free window. -/
def HadWindow (s : KmapRun π) : KmapCall → Prop
  | .kmap r => FreeWindow s.kmaps.highKmap r.pages
  | .kunmap _ => True

/-- **The run is as it should be**: in every state the windows are accounted for, and no call that did not
panic was without a free window. -/
structure KmapLawful (s : KmapRun π) (l : List (KmapCall × KmapRun π)) : Prop where
  accounted : ∀ t ∈ Trace.states s l, Accounted t
  panics : Trace.StepsOk HadWindow s l

/-- The call keeps the accounts: a range of as many pages as its size fills, for which there is a window;
an address in no window, or the one of a window of one page. -/
def KmapOk (s : KmapRun π) : KmapCall → Prop
  | .kmap r => r.bits = r.pages ∧ FreeWindow s.kmaps.highKmap r.pages
  | .kunmap va => ∀ w ∈ s.live, va / 4096 ∈ w.window → w.va = va ∧ w.range.pages = 1

/-! ### Windows as leases -/

/-- The pages whose bit is set. -/
def taken (map : Bitmap) : Set ℕ :=
  {p | windowPage ≤ p ∧ p < windowPage + highMemBitmapSize ∧ map.bit (p - windowPage) = true}

variable {P} {s s' : KmapRun π} {k : Kmaps π} {r : HighRange} {va : ℕ} {c : KmapCall}

theorem HighRange.pages_pos (r : HighRange) : 0 < r.pages := Nat.succ_pos _

theorem Kmapping.start_mem (w : Kmapping) : w.va / 4096 ∈ w.window :=
  ⟨le_rfl, Nat.lt_add_of_pos_right w.range.pages_pos⟩

theorem accounted_iff_accounts :
    Accounted s ↔ Lease.Accounts Kmapping.window (taken s.kmaps.highKmap) s.live := by
  constructor
  · rintro ⟨hdisj, hin, hbits⟩
    refine ⟨hdisj, fun p => ⟨?_, ?_⟩⟩
    · rintro ⟨hlo, hhi, hbit⟩
      obtain ⟨w, hw, hp⟩ := (hbits (p - windowPage) (by omega)).mp hbit
      exact ⟨w, hw, Nat.add_sub_cancel' hlo ▸ hp⟩
    · rintro ⟨w, hw, hp⟩
      obtain ⟨hlo, hhi⟩ := hin w hw
      obtain ⟨hp₁, hp₂⟩ := hp
      refine ⟨by omega, by omega, (hbits _ (by omega)).mpr ⟨w, hw, ?_⟩⟩
      rw [Nat.add_sub_cancel' (by omega)]
      exact ⟨hp₁, hp₂⟩
  · intro h
    refine ⟨h.disjoint, fun w hw => ?_, fun i hi => ⟨fun hbit => ?_, ?_⟩⟩
    · have hpos := w.range.pages_pos
      have hlast : w.va / 4096 + w.range.pages - 1 ∈ w.window := ⟨by omega, by omega⟩
      have hlo := (h.subset hw w.start_mem).1
      have hhi := (h.subset hw hlast).2.1
      omega
    · refine (h.mem_used _).mp ⟨Nat.le_add_right _ _, by omega, ?_⟩
      rwa [Nat.add_sub_cancel_left]
    · rintro ⟨w, hw, hp⟩
      have hbit := (h.subset hw hp).2.2
      rwa [Nat.add_sub_cancel_left] at hbit

/-! ### One call -/

/-- Where a window of free pages is in the map, a place that fits is found. -/
theorem FreeWindow.fits {map : Bitmap} {n : ℕ} (h : FreeWindow map n) (hn : 0 < n) :
    ∃ l, l + n ≤ highMemBitmapSize ∧ Fits map n l := by
  obtain ⟨l, hend, hfree⟩ := h
  exact ⟨l, hend, by omega, hfree l le_rfl (by omega), fun i hi hi' => hfree i hi (by omega)⟩

/-- The bits of `b` pages were set at the first place that fits. They are a window of `n` pages, just if
it was `n` pages that were asked for and there are as many in a row. -/
theorem taken_window_iff {map map' : Bitmap} {b n l : ℕ} (hfit : IsLeast {l | Fits map b l} l)
    (hn : 0 < n) (hle : b ≤ n) (hbits : ∀ i, map'.bit i =
      if l ≤ i ∧ i < min highMemBitmapSize (l + b) then true else map.bit i) :
    Disjoint (Set.Ico (windowPage + l) (windowPage + l + n)) (taken map) ∧
        taken map' = taken map ∪ Set.Ico (windowPage + l) (windowPage + l + n) ↔
      b = n ∧ FreeWindow map n := by
  obtain ⟨hfit, hleast⟩ := hfit
  have hlt := hfit.lt
  constructor
  · rintro ⟨hdisj, hused⟩
    -- the last page of the window was free, and is taken now
    have hlast : windowPage + l + n - 1 ∈ Set.Ico (windowPage + l) (windowPage + l + n) :=
      ⟨by omega, by omega⟩
    have hnew : windowPage + l + n - 1 ∈ taken map' := by
      rw [hused]
      exact Or.inr hlast
    have hold := Set.disjoint_left.mp hdisj hlast
    obtain ⟨hlo, hhi, hbit⟩ := hnew
    have hin : l + n - 1 < l + b := by
      rw [hbits] at hbit
      split at hbit
      · omega
      · exact absurd ⟨hlo, hhi, hbit⟩ hold
    exact ⟨by omega, l, by omega, fun i hi hi' => hfit.free i hi (by omega)⟩
  · rintro ⟨rfl, hfree⟩
    obtain ⟨l', hend, hfits⟩ := hfree.fits hn
    have hll : l ≤ l' := hleast hfits
    refine ⟨Set.disjoint_left.mpr fun p hp hused => ?_, Set.ext fun p => ?_⟩
    · obtain ⟨hp₁, hp₂⟩ := hp
      have hfalse := hfit.free (p - windowPage) (by omega) (by omega)
      rw [hused.2.2] at hfalse
      exact absurd hfalse (by decide)
    · change (_ ∧ _ ∧ map'.bit (p - windowPage) = true) ↔ (_ ∧ _ ∧ _) ∨ _ ∧ _
      by_cases hlo : windowPage ≤ p
      · rw [hbits]
        split
        · exact iff_of_true ⟨hlo, by omega, rfl⟩ (Or.inr (by omega))
        · exact (or_iff_left (by omega)).symm
      · exact iff_of_false (fun h' => hlo h'.1) fun h' => hlo (h'.elim And.left (by omega))

/-- **`arch_kmap` keeps the accounts** just if the range fills as many pages as its size, and there is a
window for it. -/
theorem kmap_accounted_iff (h : Accounted s) (hsize : s.kmaps.highKmap.size = highMemBitmapSize)
    (hk : archKmap P r.phy r.sz s.kmaps = some (.address va k)) :
    Accounted ⟨k, ⟨r, va⟩ :: s.live⟩ ↔ KmapOk s (.kmap r) := by
  obtain ⟨va', k', heq, -, hcases⟩ := archKmap_cases hsize r hk
  obtain ⟨rfl, rfl⟩ := KmapEnd.address.inj heq
  rcases hcases with ⟨hnone, hva, -⟩ | ⟨l, hleast, hva, hbits⟩
  · -- the page before the window
    refine iff_of_false (fun h' => ?_) fun ⟨hpages, hfree⟩ => ?_
    · have hlo := (h'.inside _ List.mem_cons_self).1
      change windowPage ≤ va / 4096 at hlo
      omega
    · obtain ⟨l, -, hfits⟩ := hfree.fits r.pages_pos
      exact hnone l (hpages ▸ hfits)
  · rw [accounted_iff_accounts, (accounted_iff_accounts.mp h).grant_iff]
    have hwindow : Kmapping.window ⟨r, va⟩ =
        Set.Ico (windowPage + l) (windowPage + l + r.pages) := by
      rw [← hva]
      rfl
    rw [hwindow]
    exact taken_window_iff hleast r.pages_pos r.bits_le_pages hbits

/-- **`arch_kunmap` keeps the accounts** just if its page is in no window, or is all of the window at the
address. -/
theorem kunmap_accounted_iff (h : Accounted s) (hsize : s.kmaps.highKmap.size = highMemBitmapSize)
    (hva : va < 2 ^ 32) (hk : archKunmap P va s.kmaps = some k) :
    Accounted ⟨k, s.live.filter fun w => w.va ≠ va⟩ ↔ KmapOk s (.kunmap va) := by
  have hacc := accounted_iff_accounts.mp h
  obtain ⟨-, hbits⟩ := archKunmap_cases hsize hva hk
  have htaken : ∀ p, p ∈ taken k.highKmap ↔ p ∈ taken s.kmaps.highKmap ∧ p ≠ va / 4096 := by
    intro p
    change (_ ∧ _ ∧ k.highKmap.bit (p - windowPage) = true) ↔ (_ ∧ _ ∧ _) ∧ _
    by_cases hin : windowPage ≤ p ∧ p < windowPage + highMemBitmapSize
    · rw [hbits _ (by omega), Nat.add_sub_cancel' hin.1]
      split
      · rename_i heq
        exact iff_of_false (fun h' => absurd h'.2.2 (by decide)) fun h' => h'.2 heq
      · rename_i hne
        exact (and_iff_left hne).symm
    · exact iff_of_false (fun h' => hin ⟨h'.1, h'.2.1⟩) fun h' => hin ⟨h'.1.1, h'.1.2.1⟩
  rw [accounted_iff_accounts, hacc.filter_iff]
  constructor
  · intro hused w hw hp
    -- the page is not taken any more, so a window that ended covered it
    have hne : va / 4096 ∉ taken k.highKmap := fun h' => ((htaken _).mp h').2 rfl
    have hwva : w.va = va := by
      by_contra hwva
      refine hne ((hused _).mpr ⟨hacc.subset hw hp, fun w' hw' hp' => ?_⟩)
      rw [hacc.unique hw' hw hp' hp]
      exact decide_eq_true hwva
    refine ⟨hwva, ?_⟩
    by_contra hpages
    have hpos := w.range.pages_pos
    have hnext : va / 4096 + 1 ∈ w.window := ⟨by omega, by omega⟩
    have hstill : va / 4096 + 1 ∈ taken k.highKmap :=
      (htaken _).mpr ⟨hacc.subset hw hnext, by omega⟩
    exact of_decide_eq_true (((hused _).mp hstill).2 w hw hnext) hwva
  · intro hok p
    rw [htaken]
    refine and_congr_right fun hp => ⟨fun hne w hw hpw => decide_eq_true fun hwva => ?_, ?_⟩
    · obtain ⟨-, hone⟩ := hok w hw (hwva ▸ w.start_mem)
      obtain ⟨h₁, h₂⟩ := hpw
      omega
    · rintro hkept rfl
      obtain ⟨w, hw, hpw⟩ := (hacc.mem_used _).mp hp
      exact of_decide_eq_true (hkept w hw hpw) (hok w hw hpw).1

/-- **One call** keeps the size of the map, and it keeps the map in step with the tables iff it is as
`KmapOk` says. -/
theorem KmapStep.keeps_iff (hstep : KmapStep P s c s') (h : Accounted s)
    (hsize : s.kmaps.highKmap.size = highMemBitmapSize) :
    s'.kmaps.highKmap.size = highMemBitmapSize ∧ (Accounted s' ↔ KmapOk s c) := by
  cases c with
  | kmap r =>
    obtain ⟨e, hk, hs⟩ := Option.bind_eq_some_iff.mp hstep
    obtain ⟨va, k, rfl, hsize', -⟩ := archKmap_cases hsize r hk
    obtain rfl := Option.some.inj hs
    exact ⟨hsize', kmap_accounted_iff h hsize hk⟩
  | kunmap va =>
    rw [KmapStep, kmapCall] at hstep
    split at hstep
    · rename_i hva
      obtain ⟨k, hk, rfl⟩ := Option.map_eq_some_iff.mp hstep
      exact ⟨(archKunmap_cases hsize hva hk).1, kunmap_accounted_iff h hsize hva hk⟩
    · cases hstep

/-! ### Runs -/

theorem bootKmaps_accounted (bytes : ℕ → BitVec 8) (mem : Paging π) :
    Accounted (bootKmaps bytes mem) ∧
      (bootKmaps bytes mem).kmaps.highKmap.size = highMemBitmapSize := by
  refine ⟨⟨List.Pairwise.nil, fun w hw => absurd hw List.not_mem_nil, fun i hi => ?_⟩, bitmapSet_size⟩
  refine iff_of_false (fun hbit => ?_) fun ⟨w, hw, _⟩ => absurd hw List.not_mem_nil
  exact absurd ((initHighKmap_bit bytes hi).symm.trans hbit) (by decide)

/-- **The windows are accounted for throughout a run**, and no call returns without one, exactly if every
call is one of those that keep the accounts. -/
theorem kmapLawful_iff {bytes : ℕ → BitVec 8} {mem : Paging π} {l : List (KmapCall × KmapRun π)}
    (hrun : Trace.Run (KmapStep P) (bootKmaps bytes mem) l) :
    KmapLawful (bootKmaps bytes mem) l ↔ Trace.StepsOk KmapOk (bootKmaps bytes mem) l := by
  have hall : (∀ t ∈ Trace.states (bootKmaps bytes mem) l, Accounted t) ↔
      Trace.StepsOk KmapOk (bootKmaps bytes mem) l := by
    refine Trace.invariant_iff
      (I := fun t => Accounted t ∧ t.kmaps.highKmap.size = highMemBitmapSize)
      ?_ (fun h => h.1) ?_ hrun (bootKmaps_accounted bytes mem)
    · rintro t c t' ⟨h, hsize⟩ hok hstep
      obtain ⟨hsize', hiff⟩ := hstep.keeps_iff h hsize
      exact ⟨hiff.mpr hok, hsize'⟩
    · rintro t c t' ⟨h, hsize⟩ hok hstep h'
      exact hok ((hstep.keeps_iff h hsize).2.mp h')
  refine ⟨fun h => hall.mp h.accounted, fun hok => ⟨hall.mpr hok, hok.mono fun t c hc => ?_⟩⟩
  cases c with
  | kmap r => exact hc.2
  | kunmap va => trivial

/-- One page at `0x30000000`. -/
def onePage : HighRange := ⟨0x30000000, 0x1000, by decide, by decide, by decide, by decide⟩

/-- Two pages there. -/
def twoPages : HighRange := ⟨0x30000000, 0x2000, by decide, by decide, by decide, by decide⟩

/-- At boot, behind an empty directory. -/
def emptyKmaps : KmapRun ℕ := bootKmaps (fun _ => 0) (emptyDirectory 0)

/-- A page that is mapped and given back, from boot on. -/
theorem kmapLawful_iff_onePage : ∃ s₁ s₂,
    Trace.Run (KmapStep countPages) emptyKmaps [(.kmap onePage, s₁), (.kunmap 0xE8000000, s₂)] ∧
      KmapLawful emptyKmaps [(.kmap onePage, s₁), (.kunmap 0xE8000000, s₂)] := by
  obtain ⟨s₁, h₁⟩ := Option.isSome_iff_exists.mp
    (show (kmapCall countPages emptyKmaps (.kmap onePage)).isSome by decide +kernel)
  have hlive : (kmapCall countPages emptyKmaps (.kmap onePage)).all fun s => s.live.all fun w =>
      decide (w.va = 0xE8000000 ∧ w.range.pages = 1) := by
    decide +kernel
  have hsome : ((kmapCall countPages emptyKmaps (.kmap onePage)).bind fun s =>
      kmapCall countPages s (.kunmap 0xE8000000)).isSome := by
    decide +kernel
  rw [h₁, Option.all_some, List.all_eq_true] at hlive
  rw [h₁, Option.bind_some] at hsome
  obtain ⟨s₂, h₂⟩ := Option.isSome_iff_exists.mp hsome
  have hrun : Trace.Run (KmapStep countPages) emptyKmaps
      [(.kmap onePage, s₁), (.kunmap 0xE8000000, s₂)] := .cons h₁ (.cons h₂ (.nil _))
  have hpages : onePage.bits = onePage.pages ∧ onePage.pages = 1 := by decide +kernel
  have hfree : FreeWindow (initHighKmap fun _ => 0) onePage.pages := by
    rw [hpages.2]
    exact ⟨0, by decide, fun i _ hi => initHighKmap_bit _ (lt_trans hi (by decide))⟩
  exact ⟨s₁, s₂, hrun, (kmapLawful_iff hrun).mpr
    ⟨⟨hpages.1, hfree⟩, fun w hw _ => of_decide_eq_true (hlive w hw), trivial⟩⟩

/-- Of two pages that are mapped and given back, the second stays taken. -/
theorem not_kmapLawful_twoPages :
    ¬ ∀ l, Trace.Run (KmapStep countPages) emptyKmaps l → KmapLawful emptyKmaps l := by
  intro hall
  obtain ⟨s₁, h₁⟩ := Option.isSome_iff_exists.mp
    (show (kmapCall countPages emptyKmaps (.kmap twoPages)).isSome by decide +kernel)
  have hafter : ((kmapCall countPages emptyKmaps (.kmap twoPages)).bind fun s =>
      kmapCall countPages s (.kunmap 0xE8000000)).any fun s =>
        s.kmaps.highKmap.bit 1 && s.live.isEmpty := by
    decide +kernel
  rw [h₁, Option.bind_some] at hafter
  obtain ⟨s₂, h₂, hs₂⟩ := (Option.any_eq_true _ _).mp hafter
  obtain ⟨hbit, hnone⟩ := Bool.and_eq_true_iff.mp hs₂
  have hlawful := hall _ (.cons h₁ (.cons h₂ (.nil _)))
  obtain ⟨w, hw, -⟩ := ((hlawful.accounted s₂ (by simp [Trace.states])).bits 1 (by decide)).mp hbit
  rw [List.isEmpty_iff.mp hnone] at hw
  cases hw

end GeekToyOS.I386
