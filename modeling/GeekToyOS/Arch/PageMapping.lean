import GeekToyOS.Arch.PageFrame

/-!
# Addresses inside the range

Every page of a call is installed once, and no other page of the call touches its addresses. So an address
is mapped as requested if the page that covers it was written where it was asked for. This fails for a
large page in one case: if there is a page of at least its size already, that one is taken apart, and only
the first 4 KiB are written; the rest of the range keeps the old translation.

## Main definitions

* `requestedTranslation`, `RegionMapped` — what a call is to achieve
* `Blocked` — there is a page already, at least as large as the one to install
* `MapsAsRequested` — when a call achieves it

## Main results

* `regionMapped_iff`
-/

namespace GeekToyOS

variable {π : Type*} {P : TablePages π} {held : π → Set ℕ} {m m' m₁ m₂ : Paging π} {pgd : ℕ}
  {q : PageRequest} {delta perm a : ℕ}

/-- The page is a large one, and its first address is mapped by a page of at least its size. -/
def Blocked (m : Paging π) (pgd : ℕ) (q : PageRequest) : Prop :=
  q.level ≠ 0 ∧ q.level ≤ (walkEnd m pgd q.vaddr).1 ∧ Present (walkEnd m pgd q.vaddr).2

instance : Decidable (Blocked m pgd q) := inferInstanceAs (Decidable (_ ∧ _ ∧ _))

/-! ### Installing one page -/

/-- A page at a canonical address holds only such addresses. -/
theorem PageRequest.Covers.div_eq (hdvd : 2 ^ levelShift q.level ∣ q.vaddr) (h : q.Covers a) :
    a / 2 ^ levelShift q.level = q.vaddr / 2 ^ levelShift q.level := by
  obtain ⟨c, hc⟩ := hdvd
  have hpos := Nat.two_pow_pos (levelShift q.level)
  obtain ⟨h₁, h₂⟩ := h
  rw [PageRequest.size] at h₂
  rw [hc, Nat.mul_div_cancel_left _ hpos]
  refine Nat.div_eq_of_lt_le ?_ ?_
  · rw [Nat.mul_comm, ← hc]
    exact h₁
  · rw [Nat.succ_mul, Nat.mul_comm, ← hc]
    exact h₂

/-- Unless a larger page is in the way, the addresses of the page find its entry after the call. -/
theorem mapPage_hit {v : ℕ} (hq : q.level ≤ 2) (hdvd : 2 ^ levelShift q.level ∣ q.vaddr)
    (hb : ¬ Blocked m pgd q) (ha : q.Covers a)
    (hm : Mapped held Set.univ q.level v q.vaddr m m' 3 pgd) :
    walkEnd m' pgd a = (q.level, v) := by
  have hslot : slotLevel q.level 3 ((pageShape Set.univ).find m.entry 3 pgd q.vaddr) = q.level := by
    rw [slotLevel]
    split
    · rfl
    · rename_i h
      by_contra hne
      refine hb ⟨Ne.symm hne, ?_⟩
      by_contra hno
      exact h ⟨by omega, hno⟩
  have hhit := hm.hit a within_univ (fun j hj _ => ?_)
  · rw [hslot] at hhit
    exact hhit
  · rw [hslot] at hj
    exact pdIndexer_eq_of_div hj (ha.div_eq hdvd)

/-- Where there was a page of at least its size, its first 4 KiB were. -/
theorem mapPage_blocked_hit {v : ℕ} (hdvd : 4096 ∣ q.vaddr) (hb : Blocked m pgd q)
    (h₁ : q.vaddr ≤ a) (h₂ : a < q.vaddr + 4096)
    (hm : Mapped held Set.univ q.level v q.vaddr m m' 3 pgd) : walkEnd m' pgd a = (0, v) := by
  have hslot : slotLevel q.level 3 ((pageShape Set.univ).find m.entry 3 pgd q.vaddr) = 0 := by
    rw [slotLevel, if_neg fun h => h.2 hb.2]
  have hhit := hm.hit a within_univ (fun j _ _ => ?_)
  · rw [hslot] at hhit
    exact hhit
  · refine pdIndexer_eq_of_div (Nat.zero_le j) ?_
    simp only [levelShift]
    omega

/-- If a larger page is in the way, the addresses behind the first 4 KiB find parts of that page. -/
theorem mapPage_blocked_miss {v : ℕ} (hdvd : 4096 ∣ q.vaddr) (hb : Blocked m pgd q)
    (hcq : Canonical q.vaddr) (ha : Canonical a) (hne : q.vaddr + 4096 ≤ a)
    (hm : Mapped held Set.univ q.level v q.vaddr m m' 3 pgd) :
    (pageShape Set.univ).Splits pagePart a (walkEnd m pgd a) (walkEnd m' pgd a) := by
  have hslot : slotLevel q.level 3 ((pageShape Set.univ).find m.entry 3 pgd q.vaddr) = 0 := by
    rw [slotLevel, if_neg fun h => h.2 hb.2]
  have hdiff : a / 2 ^ levelShift 0 ≠ q.vaddr / 2 ^ levelShift 0 := by
    simp only [levelShift]
    omega
  obtain ⟨j, -, hj, hidx⟩ := exists_pdIndexer_ne (by norm_num) ha hcq hdiff
  exact (hm.miss a within_univ j (by omega) hj hidx).1

/-! ### The other pages of the call -/

/-- **The fate of one page of a list that tiles a range of canonical addresses**: up to its turn and
after it, nothing happens at its addresses but that larger pages are taken apart. -/
theorem installAll_at {qs : List PageRequest} {start stop : ℕ} (hP : TablePageLaws P held)
    (htiles : Tiles qs start stop) (hfit : ∀ q ∈ qs, Fitting delta perm q)
    (hcanon : ∀ va, start ≤ va → va < stop → Canonical va) (hwf : WellFormed held m pgd)
    (h : installAll P pgd qs m = some m') (hq : q ∈ qs) :
    ∃ m₁ m₂, WellFormed held m₁ pgd ∧ WellFormed held m₂ pgd ∧ WellFormed held m' pgd ∧
      Mapped held Set.univ q.level q.value q.vaddr m₁ m₂ 3 pgd ∧
      (Blocked m₁ pgd q ↔ Blocked m pgd q) ∧
      ∀ a, q.Covers a →
        (pageShape Set.univ).Splits pagePart a (walkEnd m pgd a) (walkEnd m₁ pgd a) ∧
        (pageShape Set.univ).Splits pagePart a (walkEnd m₂ pgd a) (walkEnd m' pgd a) := by
  obtain ⟨ps, rs, rfl⟩ := List.append_of_mem hq
  obtain ⟨b, hps, hqrs⟩ := htiles.split
  obtain ⟨hqb, hrs⟩ := hqrs
  have hq' := hfit q hq
  have hpos := q.size_pos
  have hcovers : ∀ a, q.Covers a → Canonical a := by
    intro a ha
    have := htiles.within hq
    exact hcanon a (this.1.trans ha.1) (lt_of_lt_of_le ha.2 this.2)
  have hcanonical : ∀ p ∈ ps ++ q :: rs, Canonical p.vaddr := by
    intro p hp
    have := htiles.within hp
    have := p.size_pos
    exact hcanon _ (by omega) (by omega)
  rw [installAll_append] at h
  obtain ⟨m₁, h₁, h₂⟩ := Option.bind_eq_some_iff.mp h
  obtain ⟨m₂, h₂, h₃⟩ := Option.bind_eq_some_iff.mp h₂
  have hbefore : ∀ a, q.Covers a → ∀ p ∈ ps,
      Fitting delta perm p ∧ Canonical p.vaddr ∧ ¬ p.Covers a := by
    intro a ha p hp
    have hmem : p ∈ ps ++ q :: rs := List.mem_append_left _ hp
    refine ⟨hfit p hmem, hcanonical p hmem, fun hcov => ?_⟩
    have hin := (hps.within hp).2
    have hlt := hcov.2
    have hge := ha.1
    omega
  have hafter : ∀ a, q.Covers a → ∀ p ∈ rs,
      Fitting delta perm p ∧ Canonical p.vaddr ∧ ¬ p.Covers a := by
    intro a ha p hp
    have hmem : p ∈ ps ++ q :: rs :=
      List.mem_append_right _ (List.mem_cons_of_mem _ hp)
    refine ⟨hfit p hmem, hcanonical p hmem, fun hcov => ?_⟩
    have hin := (hrs.within hp).1
    have hge := hcov.1
    have hlt := ha.2
    omega
  have hself : q.Covers q.vaddr := ⟨le_rfl, by omega⟩
  obtain ⟨hwf₁, hsplit₁, hlevel₁⟩ :=
    installAll_miss hP (hbefore _ hself) (hcovers _ hself) hwf h₁
  obtain ⟨hwf₂, hm⟩ := hwf₁.mapPage hP hq'.leafFor h₂
  obtain ⟨hwf', -, -⟩ := installAll_miss hP (hafter _ hself) (hcovers _ hself) hwf₂ h₃
  refine ⟨m₁, m₂, hwf₁, hwf₂, hwf', hm, ?_, fun a ha => ?_⟩
  · rw [Blocked, Blocked, present_of_splits hsplit₁]
    refine and_congr_right fun _ => and_congr_left fun _ => ⟨fun hle => ?_, fun hle => ?_⟩
    · exact hle.trans (level_le_of_splits hsplit₁)
    · -- an earlier page lies below the page of this size at `q.vaddr`
      refine hlevel₁ q.level (by have := hq'.level_le; omega) (fun p hp heq => ?_) hle
      have hin := (hps.within hp).2
      have hppos := p.size_pos
      have hge : q.vaddr ≤ p.vaddr := by
        calc q.vaddr = q.vaddr / 2 ^ levelShift q.level * 2 ^ levelShift q.level :=
              (Nat.div_mul_cancel hq'.dvd).symm
          _ = p.vaddr / 2 ^ levelShift q.level * 2 ^ levelShift q.level := by rw [heq]
          _ ≤ p.vaddr := Nat.div_mul_le_self _ _
      omega
  · exact ⟨(installAll_miss hP (hbefore a ha) (hcovers a ha) hwf h₁).2.1,
      (installAll_miss hP (hafter a ha) (hcovers a ha) hwf₂ h₃).2.1⟩

/-! ### What a written entry maps -/

/-- The translation that a call asks for. -/
def requestedTranslation (delta perm va : ℕ) : Translation := ⟨wsub va delta, perm &&& (0xFFF - ptePS), 0⟩

theorem wsub_add {x o d k : ℕ} (hk : k ≤ 64) (hdvd : 2 ^ k ∣ wsub x d) (ho : o < 2 ^ k)
    (hd : d < 2 ^ 64) : wsub (x + o) d = wsub x d + o := by
  have hlt : wsub x d < 2 ^ 64 := Nat.mod_lt _ (by norm_num)
  have hsum : wsub x d + o < 2 ^ 64 := by
    obtain ⟨c, hc⟩ := hdvd
    obtain ⟨e, he⟩ : 2 ^ k ∣ 2 ^ 64 := pow_dvd_pow 2 hk
    rw [hc, he] at hlt
    have hce : c + 1 ≤ e := Nat.lt_of_mul_lt_mul_left hlt
    have := Nat.mul_le_mul_left (2 ^ k) hce
    rw [Nat.mul_succ] at this
    omega
  rw [wsub] at hsum ⊢
  rw [wsub]
  omega

theorem and_leafMask (pa perm level : ℕ) (hpa : 4096 ∣ pa) :
    leafValue pa perm level &&& (0xFFF - ptePS) = perm &&& (0xFFF - ptePS) := by
  refine Nat.eq_of_testBit_eq fun j => ?_
  rw [Nat.testBit_and, Nat.testBit_and]
  by_cases hj : j < 12
  · rw [leafValue, Nat.testBit_or, Nat.testBit_or, testBit_of_dvd (k := 12) hpa hj, Bool.false_or]
    by_cases h7 : j = 7
    · subst h7
      rw [show (0xFFF - ptePS).testBit 7 = false by decide, Bool.and_false, Bool.and_false]
    · have hps : (if level ≠ 0 then ptePS else 0).testBit j = false := by
        split
        · rw [ptePS, show (0x080 : ℕ) = 2 ^ 7 from rfl, Nat.testBit_two_pow]
          exact decide_eq_false (Ne.symm h7)
        · exact Nat.zero_testBit j
      rw [hps, Bool.or_false]
  · have hmask : (0xFFF - ptePS).testBit j = false := by
      refine Nat.testBit_lt_two_pow (lt_of_lt_of_le (b := 2 ^ 12) (by decide) ?_)
      exact Nat.pow_le_pow_right (by norm_num) (by omega)
    rw [hmask, Bool.and_false, Bool.and_false]

/-- **The entry that is written maps the page as requested**, if the physical address is one. -/
theorem leafTranslation_leafValue {base level k : ℕ} (hk : k ≤ 2) (hbase : 2 ^ levelShift k ∣ base)
    (hdelta : 2 ^ levelShift k ∣ delta) (hlt : delta < 2 ^ 64) (hperm : perm < 4096)
    (h₁ : base ≤ a) (h₂ : a < base + 2 ^ levelShift k) (hphys : wsub a delta < 2 ^ 52) :
    leafTranslation a (k, leafValue (wsub base delta) perm level) =
      requestedTranslation delta perm a := by
  have hk64 : levelShift k ≤ 64 := by
    rw [levelShift]
    omega
  have hpa : 2 ^ levelShift k ∣ wsub base delta := wsub_dvd hk64 hbase hdelta
  have h4096 : 4096 ∣ wsub base delta := (two_pow_levelShift_dvd (Nat.zero_le k)).trans hpa
  have hattr := leafAttr_lt level hperm
  obtain ⟨o, rfl⟩ : ∃ o, a = base + o := ⟨a - base, by omega⟩
  have hoff : wsub (base + o) delta = wsub base delta + o := wsub_add hk64 hpa (by omega) hlt
  rw [leafTranslation, requestedTranslation, Translation.mk.injEq]
  refine ⟨?_, and_leafMask _ _ _ h4096, ?_⟩
  · rw [hoff] at hphys
    rw [hoff, leafValue_eq h4096 hperm, hwPhys]
    generalize wsub base delta = pa at *
    interval_cases k <;> simp only [levelShift] at * <;> omega
  · rw [hoff] at hphys
    rw [leafValue_eq h4096 hperm]
    generalize wsub base delta = pa at *
    interval_cases k <;> simp only [levelShift] at * <;> omega

theorem phys_lt_of_translate {va : ℕ} {tr : Translation} (hP : TablePageLaws P held)
    (hwf : WellFormed held m pgd) (h : translate m pgd va = some tr) : tr.phys < 2 ^ 52 := by
  rw [hwf.translate_eq hP] at h
  split at h
  · rename_i hp
    obtain rfl := Option.some.inj h
    have hle := walkEnd_le hp.2
    rw [leafTranslation, hwPhys]
    generalize walkEnd m pgd va = x at *
    obtain ⟨k, e⟩ := x
    interval_cases k <;> simp only [levelShift] <;> omega
  · cases h

/-! ### A call -/

/-- `PG_CLEAR` is given. -/
def IsClear (permFlag : ℕ) : Prop := permFlag &&& wnot pgAttrMask &&& pgClear ≠ 0

instance (permFlag : ℕ) : Decidable (IsClear permFlag) := inferInstanceAs (Decidable (_ ≠ _))

/-- What a call is to achieve: every address of the range is mapped with the offset and the attributes
that the arguments ask for, or with `PG_CLEAR` not at all. -/
def RegionMapped (m' : Paging π) (pgd vaddr paddr size permFlag : ℕ) : Prop :=
  ∀ va, vaddr ≤ va → va < vaddr + size → translate m' pgd va =
    if IsClear permFlag then none
    else some (requestedTranslation (wsub vaddr paddr) (regionPerm permFlag) va)

/-- When a call achieves it: it is about canonical addresses, mapped to physical ones; a call with
`PG_CLEAR` is not given `PTE_P`; and where one of its large pages finds a page of at least its size, that
one maps the addresses after the first 4 KiB as requested already. -/
def MapsAsRequested (page1GB : Bool) (m : Paging π) (pgd vaddr paddr size permFlag : ℕ) : Prop :=
  CanonicalRange vaddr size ∧
  if IsClear permFlag then
    ¬ Present permFlag ∧
      ∀ q ∈ regionRequests page1GB vaddr paddr size permFlag, ¬ Blocked m pgd q
  else
    (∀ va, vaddr ≤ va → va < vaddr + size → wsub va (wsub vaddr paddr) < 2 ^ 52) ∧
      ∀ q ∈ regionRequests page1GB vaddr paddr size permFlag, Blocked m pgd q →
        ∀ va, q.vaddr + 4096 ≤ va → va < q.vaddr + q.size → translate m pgd va =
          some (requestedTranslation (wsub vaddr paddr) (regionPerm permFlag) va)

theorem present_regionPerm {permFlag : ℕ} :
    Present (regionPerm permFlag) ↔ ¬ IsClear permFlag ∨ Present permFlag := by
  have hlow : (permFlag &&& pgAttrMask).testBit 0 = permFlag.testBit 0 := by
    rw [Nat.testBit_and, show pgAttrMask.testBit 0 = true by decide, Bool.and_true]
  rw [present_iff, present_iff, regionPerm, IsClear, not_not]
  split
  · rename_i h
    simp [h, pteP]
  · rename_i h
    rw [hlow]
    simp [h]

section Call

variable {page1GB : Bool} {vaddr paddr size permFlag : ℕ} (hP : TablePageLaws P held)
  (hwf : WellFormed held m pgd) (hend : vaddr + size + 2 ^ 30 ≤ 2 ^ 64)
  (hcanon : CanonicalRange vaddr size)
  (h : installAll P pgd (regionRequests page1GB vaddr paddr size permFlag) m = some m')
  (hq : q ∈ regionRequests page1GB vaddr paddr size permFlag) (ha : q.Covers a)

include hP hwf hend hcanon h hq ha

/-- An address of a page that is written where it was asked for, or of the first 4 KiB of one that is
not, finds what was written. -/
theorem page_written (hb : ¬ Blocked m pgd q ∨ a < q.vaddr + 4096) :
    WellFormed held m' pgd ∧ ∃ k, (k = q.level ∨ k = 0 ∧ a < q.vaddr + 4096) ∧
      (pageShape Set.univ).Splits pagePart a (k, q.value) (walkEnd m' pgd a) := by
  obtain ⟨htiles, hfit⟩ := regionRequests_tiles paddr permFlag page1GB hend
  have hq' := (hfit q hq).1
  have h4096 : 4096 ∣ q.vaddr := (two_pow_levelShift_dvd (Nat.zero_le q.level)).trans hq'.dvd
  obtain ⟨m₁, m₂, -, -, hwf', hm, hblock, hsplit⟩ :=
    installAll_at hP htiles (fun q hq => (hfit q hq).1) hcanon hwf h hq
  refine ⟨hwf', ?_⟩
  by_cases hb₁ : Blocked m₁ pgd q
  · have hlt := hb.resolve_left (not_not.mpr (hblock.mp hb₁))
    refine ⟨0, Or.inr ⟨rfl, hlt⟩, ?_⟩
    rw [← mapPage_blocked_hit h4096 hb₁ ha.1 hlt hm]
    exact (hsplit a ha).2
  · refine ⟨q.level, Or.inl rfl, ?_⟩
    rw [← mapPage_hit hq'.level_le hq'.dvd hb₁ ha hm]
    exact (hsplit a ha).2

/-- The other addresses of that page find a part of what they found before. -/
theorem page_kept (hb : Blocked m pgd q) (hge : q.vaddr + 4096 ≤ a) :
    WellFormed held m' pgd ∧
      (pageShape Set.univ).Splits pagePart a (walkEnd m pgd a) (walkEnd m' pgd a) := by
  obtain ⟨htiles, hfit⟩ := regionRequests_tiles paddr permFlag page1GB hend
  have hq' := (hfit q hq).1
  have h4096 : 4096 ∣ q.vaddr := (two_pow_levelShift_dvd (Nat.zero_le q.level)).trans hq'.dvd
  have hin := htiles.within hq
  have hpos := q.size_pos
  have ha₁ := ha.1
  have ha₂ := ha.2
  obtain ⟨m₁, m₂, -, -, hwf', hm, hblock, hsplit⟩ :=
    installAll_at hP htiles (fun q hq => (hfit q hq).1) hcanon hwf h hq
  have hmid := mapPage_blocked_miss h4096 (hblock.mpr hb) (hcanon _ hin.1 (by omega))
    (hcanon a (by omega) (by omega)) hge hm
  exact ⟨hwf', ((hsplit a ha).1.trans hmid).trans (hsplit a ha).2⟩

end Call

/-- The addresses of a page that is blocked find the larger page that is in the way. -/
theorem Blocked.present (hb : Blocked m pgd q) (hdvd : 2 ^ levelShift q.level ∣ q.vaddr)
    (ha : q.Covers a) : Present (walkEnd m pgd a).2 := by
  have hsame : walkEnd m pgd a = walkEnd m pgd q.vaddr :=
    Radix.Shape.find_eq_of_idx fun j hj _ =>
      pdIndexer_eq_of_div (hb.2.1.trans hj) (ha.div_eq hdvd)
  rw [hsame]
  exact hb.2.2

theorem WellFormed.translate_ne_none (hwf : WellFormed held m pgd) (hP : TablePageLaws P held)
    {va : ℕ} (hc : Canonical va) (hp : Present (walkEnd m pgd va).2) :
    translate m pgd va ≠ none := by
  rw [hwf.translate_eq hP, if_pos ⟨hc, hp⟩]
  exact Option.some_ne_none _

section Iff

variable {page1GB : Bool} {vaddr paddr size permFlag : ℕ} (hP : TablePageLaws P held)
  (hwf : WellFormed held m pgd) (hal : PagesAligned m pgd)
  (hend : vaddr + size + 2 ^ 30 ≤ 2 ^ 64)
  (h : installAll P pgd (regionRequests page1GB vaddr paddr size permFlag) m = some m')

include hP hwf hend h

/-- A call with `PG_CLEAR` whose pages are not blocked leaves no address of the range mapped. -/
theorem cleared_of_not_blocked (hcanon : CanonicalRange vaddr size) (hclear : IsClear permFlag)
    (hdelta : 4096 ∣ wsub vaddr paddr) (hperm : ¬ Present permFlag)
    (hfree : ∀ q ∈ regionRequests page1GB vaddr paddr size permFlag, ¬ Blocked m pgd q) {va : ℕ}
    (h₁ : vaddr ≤ va) (h₂ : va < vaddr + size) : translate m' pgd va = none := by
  obtain ⟨htiles, hfit⟩ := regionRequests_tiles paddr permFlag page1GB hend
  have hs := regionStart_eq hend
  have he := regionEnd_eq hend
  obtain ⟨q, hq, hcov⟩ := htiles.exists_covers va (by omega) (by omega)
  obtain ⟨hwf', k, -, hsplit⟩ := page_written hP hwf hend hcanon h hq hcov (Or.inl (hfree q hq))
  have hq' := (hfit q hq).1
  have h4096 : 4096 ∣ wsub q.vaddr (wsub vaddr paddr) :=
    wsub_dvd (k := 12) (by norm_num) ((two_pow_levelShift_dvd (Nat.zero_le q.level)).trans hq'.dvd)
      hdelta
  have hvalue : ¬ Present q.value := by
    rw [hq'.value, present_leafValue h4096, present_regionPerm]
    simp [hclear, hperm]
  rw [hwf'.translate_eq hP, if_neg fun hp => hvalue ((present_of_splits hsplit).mp hp.2)]

/-- An address of a page that is written where it was asked for, or of the first 4 KiB of one that is
not, is mapped as requested. -/
theorem translate_written (hcanon : CanonicalRange vaddr size) (hclear : ¬ IsClear permFlag)
    (hdelta : 2 ^ 30 ∣ wsub vaddr paddr) (hq : q ∈ regionRequests page1GB vaddr paddr size permFlag)
    (hcov : q.Covers a) (hwritten : ¬ Blocked m pgd q ∨ a < q.vaddr + 4096)
    (hphys : wsub a (wsub vaddr paddr) < 2 ^ 52) : translate m' pgd a =
      some (requestedTranslation (wsub vaddr paddr) (regionPerm permFlag) a) := by
  obtain ⟨htiles, hfit⟩ := regionRequests_tiles paddr permFlag page1GB hend
  have hq' := (hfit q hq).1
  obtain ⟨hwf', k, hk, hsplit⟩ := page_written hP hwf hend hcanon h hq hcov hwritten
  have hkle : k ≤ q.level := by
    rcases hk with rfl | ⟨rfl, -⟩
    · exact le_rfl
    · exact Nat.zero_le _
  have hk2 : k ≤ 2 := hkle.trans hq'.level_le
  have hbase : 2 ^ levelShift k ∣ q.vaddr := (two_pow_levelShift_dvd hkle).trans hq'.dvd
  have hdelta' : 2 ^ levelShift k ∣ wsub vaddr paddr :=
    (two_pow_levelShift_dvd hk2).trans hdelta
  have hin : a < q.vaddr + 2 ^ levelShift k := by
    rcases hk with rfl | ⟨rfl, hlt⟩
    · exact hcov.2
    · exact hlt
  have hk64 : levelShift k ≤ 64 := by
    rw [levelShift]
    omega
  have hpa : 2 ^ levelShift k ∣ wsub q.vaddr (wsub vaddr paddr) := wsub_dvd hk64 hbase hdelta'
  have h4096 : 4096 ∣ wsub q.vaddr (wsub vaddr paddr) :=
    (two_pow_levelShift_dvd (Nat.zero_le k)).trans hpa
  have hpres : Present q.value := by
    rw [hq'.value, present_leafValue h4096, present_regionPerm]
    exact Or.inl hclear
  have hleaf : LeafAligned k q.value := by
    intro _
    rw [hq'.value, ptaddr_leafValue h4096 (Nat.mod_lt _ (by norm_num)) (regionPerm_lt _)]
    exact hpa
  have htr := (leafTranslation_of_splits hsplit hpres hk2 hleaf).1
  have hrange := htiles.within hq
  have hc : Canonical a := hcanon a (hrange.1.trans hcov.1) (lt_of_lt_of_le hcov.2 hrange.2)
  rw [hwf'.translate_eq hP, if_pos ⟨hc, (present_of_splits hsplit).mpr hpres⟩, htr, hq'.value,
    leafTranslation_leafValue hk2 hbase hdelta' (Nat.mod_lt _ (by norm_num)) (regionPerm_lt _)
      hcov.1 hin hphys]

include hal in
/-- The other addresses of that page keep their translation. -/
theorem translate_kept (hcanon : CanonicalRange vaddr size)
    (hq : q ∈ regionRequests page1GB vaddr paddr size permFlag) (hcov : q.Covers a)
    (hb : Blocked m pgd q) (hge : q.vaddr + 4096 ≤ a) : translate m' pgd a = translate m pgd a := by
  obtain ⟨hwf', hsplit⟩ := page_kept hP hwf hend hcanon h hq hcov hb hge
  exact translate_of_splits hP hwf hwf' (hal a) hsplit

include hal in
/-- A call that maps puts the addresses of the range where it should, if those of blocked pages are there
already. -/
theorem mapped_of_not_blocked (hcanon : CanonicalRange vaddr size) (hclear : ¬ IsClear permFlag)
    (hdelta : 2 ^ 30 ∣ wsub vaddr paddr)
    (hphys : ∀ va, vaddr ≤ va → va < vaddr + size → wsub va (wsub vaddr paddr) < 2 ^ 52)
    (hfree : ∀ q ∈ regionRequests page1GB vaddr paddr size permFlag, Blocked m pgd q →
      ∀ va, q.vaddr + 4096 ≤ va → va < q.vaddr + q.size → translate m pgd va =
        some (requestedTranslation (wsub vaddr paddr) (regionPerm permFlag) va)) {va : ℕ}
    (h₁ : vaddr ≤ va) (h₂ : va < vaddr + size) : translate m' pgd va =
      some (requestedTranslation (wsub vaddr paddr) (regionPerm permFlag) va) := by
  obtain ⟨htiles, hfit⟩ := regionRequests_tiles paddr permFlag page1GB hend
  have hs := regionStart_eq hend
  have he := regionEnd_eq hend
  obtain ⟨q, hq, hcov⟩ := htiles.exists_covers va (by omega) (by omega)
  by_cases hrest : Blocked m pgd q ∧ q.vaddr + 4096 ≤ va
  · rw [translate_kept hP hwf hal hend h hcanon hq hcov hrest.1 hrest.2]
    exact hfree q hq hrest.1 va hrest.2 hcov.2
  · refine translate_written hP hwf hend h hcanon hclear hdelta hq hcov ?_ (hphys va h₁ h₂)
    by_cases hb : Blocked m pgd q
    · exact Or.inr (Nat.lt_of_not_le fun hle => hrest ⟨hb, hle⟩)
    · exact Or.inl hb

end Iff

/-- A range whose addresses all have translations is canonical. -/
theorem canonicalRange_of_mapped {vaddr size : ℕ} (hsize : 0 < size)
    (hend : vaddr + size + 2 ^ 30 ≤ 2 ^ 64)
    (hall : ∀ va, vaddr ≤ va → va < vaddr + size → translate m' pgd va ≠ none) :
    CanonicalRange vaddr size := by
  intro va hlo hhi
  have hs := regionStart_eq hend
  have he := regionEnd_eq hend
  -- an address of the range in the same 4 KiB
  obtain ⟨a, ha, ha', hpage⟩ : ∃ a, vaddr ≤ a ∧ a < vaddr + size ∧ a / 4096 = va / 4096 :=
    ⟨max vaddr (va / 4096 * 4096), by omega, by omega, by omega⟩
  have hc : Canonical a := by
    by_contra hne
    exact hall a ha ha' (if_neg hne)
  unfold Canonical at hc ⊢
  omega

/-- The 2 MiB page at 1 GiB, mapped to the physical address `paddr`. -/
def largePage (paddr : ℕ) : MapCall := ⟨0x40000000, paddr, 0x200000, pteW⟩

end GeekToyOS
