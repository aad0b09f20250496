import GeekToyOS.Kernel.MemoryRuns

/-!
# `block_page_alloc` as a first fit

`block_page_alloc` searches the page map for the first available page, and from there for a used page among
as many as were asked for. Where it finds none it takes the run. The end of the map hides from it that a run
is too short, and so does an end of the search that wraps around: what it finds is the first run that looks
long enough.

## Main definitions

* `blockRound`, `BlockReturns` — a round of the loop, and a run of it that ends
* `RunAt` — as many available pages from here on
* `RunStart`, `LooksLong` — the first page of a run, and that no used page is seen from there
* `FirstFit` — the call returns, with the first run there is

## Main results

* `blockLoop_returns` — the loop ends, at the first run that looks long enough
* `firstFit_iff` — where it is a first fit
-/

namespace GeekToyOS

/-- A round of the loop of `block_page_alloc`: the result, or the next `r`. -/
def blockRound (s : Memory) (nrPages : ℕ) (r : ℤ) : ℕ ⊕ ℤ :=
  if toSize r < s.pfnMax then
    let l := bitmapFind s.memMap memPageAvail (toSize r) s.pfnMax
    let r := bitmapFind s.memMap memPageUsed (toSize l) nrPages
    if r = -1 then .inl (toSize l) else .inr r
  else .inl pfnNotfound

/-- **The loop ends**, with that result. -/
inductive BlockReturns (s : Memory) (n : ℕ) : ℤ → ℕ → Prop
  | done {r : ℤ} {v : ℕ} (h : blockRound s n r = .inl v) : BlockReturns s n r v
  | round {r r' : ℤ} {v : ℕ} (h : blockRound s n r = .inr r') (hrest : BlockReturns s n r' v) :
      BlockReturns s n r v

/-- `n` available pages of the map, from `a` on. -/
def RunAt (s : Memory) (n a : ℕ) : Prop :=
  a + n ≤ s.pfnMax ∧ ∀ j, a ≤ j → j < a + n → s.memMap.bit j = false

/-- The first page of a run. -/
def RunStart (s : Memory) (l : ℕ) : Prop :=
  l < s.pfnMax ∧ s.memMap.bit l = false ∧ (l = 0 ∨ s.memMap.bit (l - 1) = true)

/-- The search for a used page from `l` on finds none. -/
def LooksLong (s : Memory) (n l : ℕ) : Prop := ∀ p, s.memMap.Written l n p → s.memMap.bit p = false

/-- **`block_page_alloc` is a first fit**: it returns, with the first run, or says that there is none. -/
structure FirstFit (s : Memory) (n : ℕ) : Prop where
  returns : BlockReturns s n 0 (blockPageAlloc s n)
  notfound_iff : blockPageAlloc s n = pfnNotfound ↔ ∀ a, ¬ RunAt s n a
  least : ∀ a, IsLeast {a | RunAt s n a} a → blockPageAlloc s n = a

variable {s : Memory} {n k r l a v : ℕ}

theorem blockLoop_succ (r : ℤ) :
    blockLoop s n (k + 1) r = (blockRound s n r).elim id (blockLoop s n k) := by
  rw [blockLoop, blockRound]
  dsimp only
  split_ifs <;> rfl

/-! ### A round -/

/-- The bounds of the window of a page of the map. -/
theorem written_of_lt (hsize : s.memMap.size = s.pfnMax) (hl : l < s.pfnMax) (h : l + n < 2 ^ 64)
    (p : ℕ) : s.memMap.Written l n p ↔ l ≤ p ∧ p < min s.pfnMax (l + n) := by
  rw [Bitmap.Written, hsize, wadd_of_lt h, if_pos (by omega), Nat.min_eq_right (Nat.le_of_lt hl)]

/-- A bit found behind the map, in its last byte, ends the loop: it is no failure, and no page of the map.
-/
theorem behind_map (hmax : s.pfnMax ≤ 2 ^ 31) {p : ℕ} (hlo : s.pfnMax ≤ p) (hhi : p < s.pfnMax + 8) :
    toInt p ≠ -1 ∧ ¬ toSize (toInt p) < s.pfnMax := by
  rcases Nat.lt_or_ge p (2 ^ 31) with h31 | h31
  · rw [toInt_of_lt h31, toSize_of_lt (show p < 2 ^ 64 by omega)]
    omega
  · have hmod : toInt p % (2 ^ 32 : ℕ) = (p : ℤ) % (2 ^ 32 : ℕ) := Int.bmod_emod
    have hlt : toInt p < ((2 ^ 32 : ℕ) + 1) / 2 := Int.bmod_lt (by decide)
    have hle : -((2 ^ 32 : ℕ) / 2 : ℤ) ≤ toInt p := Int.le_bmod (by decide)
    norm_num at hmod hlt hle
    rw [toSize]
    omega

/-- **What a round does**, where the pages it sees have an `int`. -/
theorem blockRound_cases (hsize : s.memMap.size = s.pfnMax) (hmax : s.pfnMax ≤ 2 ^ 52)
    (hr : r < s.pfnMax) (hint : s.pfnMax ≤ 2 ^ 31 ∨ ∃ a < 2 ^ 31, r ≤ a ∧ 0 < n ∧ RunAt s n a) :
    (∀ j, r ≤ j → j < s.pfnMax → s.memMap.bit j = true) ∧
      (blockRound s n r = .inl pfnNotfound ∨
        ∃ r', blockRound s n r = .inr r' ∧ ¬ toSize r' < s.pfnMax) ∨
    ∃ l, r ≤ l ∧ l < s.pfnMax ∧ l < 2 ^ 31 ∧ s.memMap.bit l = false ∧
      (∀ j, r ≤ j → j < l → s.memMap.bit j = true) ∧
      (LooksLong s n l ∧ blockRound s n r = .inl l ∨
        ∃ u : ℕ, blockRound s n r = .inr (toInt u) ∧ s.memMap.Written l n u ∧ l < u ∧
          s.memMap.bit u = true ∧ (∀ j, l ≤ j → j < u → s.memMap.bit j = false) ∧
          (u < s.pfnMax ∧ u < 2 ^ 31 ∨ s.pfnMax ≤ u ∧ ¬ toSize (toInt u) < s.pfnMax)) := by
  have hrs : toSize (r : ℤ) = r := toSize_of_lt (by omega)
  rw [blockRound, hrs, if_pos hr]
  dsimp only
  rcases bitmapFind_avail hsize hmax hr with ⟨hl, hnone⟩ | ⟨l, hl, hrl, hlm, hbit, hleast⟩
  · have hall : ∀ j, r ≤ j → j < s.pfnMax → s.memMap.bit j = true := fun j hj hj' =>
      Bool.eq_true_of_not_eq_false (hnone j hj hj')
    refine Or.inl ⟨hall, ?_⟩
    have hsmall : s.pfnMax ≤ 2 ^ 31 := by
      rcases hint with h | ⟨a, -, hra, hn, hend, hrun⟩
      · exact h
      · have := hall a hra (by omega)
        rw [hrun a le_rfl (by omega)] at this
        exact absurd this (by decide)
    -- the search for a used page starts behind the map
    rw [hl, show toSize (-1) = pfnNotfound from rfl]
    rcases @bitmapFind_written s.memMap memPageUsed pfnNotfound n (by omega)
      with ⟨hu, -⟩ | ⟨p, hp, ⟨hlo, hhi⟩, -⟩
    · exact Or.inl (by rw [hu, if_pos rfl])
    · rw [hsize, Nat.min_eq_left (show s.pfnMax ≤ pfnNotfound by rw [pfnNotfound]; omega)] at hlo hhi
      have hp8 : p < s.pfnMax + 8 := by
        split at hhi <;> omega
      obtain ⟨hne, hout⟩ := behind_map hsmall hlo hp8
      exact Or.inr ⟨_, by rw [hp, if_neg hne], hout⟩
  · have hl31 : l < 2 ^ 31 ∧ (s.pfnMax ≤ 2 ^ 31 ∨ ∃ a < 2 ^ 31, l ≤ a ∧ RunAt s n a) := by
      rcases hint with h | ⟨a, ha, hra, hn, hrun⟩
      · exact ⟨by omega, Or.inl h⟩
      · have hla : l ≤ a := by
          by_contra hlt
          exact hleast a hra (by omega) (hrun.2 a le_rfl (by omega))
        exact ⟨by omega, Or.inr ⟨a, ha, hla, hrun⟩⟩
    refine Or.inr ⟨l, hrl, hlm, hl31.1, hbit,
      fun j hj hj' => Bool.eq_true_of_not_eq_false (hleast j hj hj'), ?_⟩
    rw [hl, toInt_of_lt hl31.1, toSize_of_lt (show l < 2 ^ 64 by omega)]
    have hval : decide (memPageUsed ≠ 0) = true := by decide
    have hmin : min s.memMap.size l = l := by omega
    rcases @bitmapFind_written s.memMap memPageUsed l n (by omega)
      with ⟨hu, hnone⟩ | ⟨u, hu, hw, hubit, hfirst⟩
    · rw [hval] at hnone
      exact Or.inl ⟨fun p hp => Bool.eq_false_of_not_eq_true (hnone p hp), by rw [hu, if_pos rfl]⟩
    · rw [hval] at hubit hfirst
      rw [hmin] at hfirst
      have hlu : l ≤ u := by
        have := hw.1
        omega
      have hne : l ≠ u := by
        rintro rfl
        rw [hbit] at hubit
        exact absurd hubit (by decide)
      have hbound : toInt u ≠ -1 ∧
          (u < s.pfnMax ∧ u < 2 ^ 31 ∨ s.pfnMax ≤ u ∧ ¬ toSize (toInt u) < s.pfnMax) := by
        rcases hl31.2 with h | ⟨a, ha, hla, hend, hrun⟩
        · rcases Nat.lt_or_ge u s.pfnMax with hum | hum
          · rw [toInt_of_lt (by omega)]
            exact ⟨by omega, Or.inl ⟨hum, by omega⟩⟩
          · have hu8 : u < s.pfnMax + 8 := by
              have hhi := hw.2
              split at hhi <;> omega
            obtain ⟨h1, h2⟩ := behind_map h hum hu8
            exact ⟨h1, Or.inr ⟨hum, h2⟩⟩
        · rw [written_of_lt hsize hlm (by omega)] at hw
          have hua : u < a := by
            by_contra hge
            have := hrun u (by omega) (by omega)
            rw [hubit] at this
            exact absurd this (by decide)
          rw [toInt_of_lt (by omega)]
          exact ⟨by omega, Or.inl ⟨by omega, by omega⟩⟩
      exact Or.inr ⟨u, by rw [hu, if_neg hbound.1], hw, by omega, hubit,
        fun j hj hj' => Bool.eq_false_of_not_eq_true (hfirst j hj hj'), hbound.2⟩

/-! ### The loop -/

/-- Where the search has left the map, the loop has nothing to look at, and no page is returned. -/
theorem returns_of_end {r : ℤ} (hr : ¬ toSize r < s.pfnMax) :
    BlockReturns s n r pfnNotfound ∧ blockLoop s n k r = pfnNotfound := by
  have hround : blockRound s n r = .inl pfnNotfound := if_neg hr
  refine ⟨.done hround, ?_⟩
  cases k with
  | zero => rfl
  | succ k => rw [blockLoop_succ, hround, Sum.elim_inl, id]

/-- The first page of a run, where the next available page is `l` and its run goes up to `u`. -/
theorem RunStart.eq_or_le {l' u : ℕ} (h : RunStart s l') (hr : r ≤ l')
    (hused : ∀ j, r ≤ j → j < l → s.memMap.bit j = true)
    (havail : ∀ j, l ≤ j → j < u → s.memMap.bit j = false) : l' = l ∨ u ≤ l' := by
  obtain ⟨-, hbit, hprev⟩ := h
  by_contra hne
  push Not at hne
  rcases Nat.lt_or_ge l' l with hlt | hge
  · rw [hused l' hr hlt] at hbit
    exact absurd hbit (by decide)
  · rcases hprev with h0 | hprev
    · omega
    · rw [havail (l' - 1) (by omega) (by omega)] at hprev
      exact absurd hprev (by decide)

/-- **The loop ends**, at the first run from `r` on that looks long enough. -/
theorem blockLoop_returns (hsize : s.memMap.size = s.pfnMax) (hmax : s.pfnMax ≤ 2 ^ 52) :
    ∀ (k r : ℕ), s.pfnMax < r + k → r ≤ s.pfnMax →
      (r < s.pfnMax → r = 0 ∨ s.memMap.bit r = true) →
      (s.pfnMax ≤ 2 ^ 31 ∨ ∃ a < 2 ^ 31, r ≤ a ∧ 0 < n ∧ RunAt s n a) →
      BlockReturns s n r (blockLoop s n k r) ∧
        (blockLoop s n k r = pfnNotfound ∧ (∀ l, r ≤ l → RunStart s l → ¬ LooksLong s n l) ∨
          IsLeast {l | r ≤ l ∧ RunStart s l ∧ LooksLong s n l} (blockLoop s n k r)) := by
  intro k
  induction k with
  | zero =>
    intro r hk hr
    omega
  | succ k ih =>
    intro r hk hr hstart hint
    by_cases hlt : r < s.pfnMax
    · rcases blockRound_cases hsize hmax hlt hint with
        ⟨hall, hround⟩ | ⟨l, hrl, hlm, hl31, hbit, hused, hround⟩
      · -- no available page is left
        have hnone : ∀ l, r ≤ l → RunStart s l → ¬ LooksLong s n l := by
          intro l hl hs
          have := hall l hl hs.1
          rw [hs.2.1] at this
          exact absurd this (by decide)
        rcases hround with hround | ⟨r', hround, hend⟩
        · rw [blockLoop_succ, hround]
          exact ⟨.done hround, Or.inl ⟨rfl, hnone⟩⟩
        · obtain ⟨hret, hloop⟩ := returns_of_end (n := n) (k := k) hend
          rw [blockLoop_succ, hround, Sum.elim_inr, hloop]
          exact ⟨.round hround hret, Or.inl ⟨rfl, hnone⟩⟩
      · have hls : RunStart s l := by
          refine ⟨hlm, hbit, ?_⟩
          rcases Nat.eq_or_lt_of_le hrl with rfl | hlt'
          · rcases hstart hlt with h0 | h1
            · exact Or.inl h0
            · rw [hbit] at h1
              exact absurd h1 (by decide)
          · exact Or.inr (hused _ (by omega) (by omega))
        rcases hround with ⟨hlong, hround⟩ | ⟨u, hround, hw, hlu, hubit, havail, hu⟩
        · rw [blockLoop_succ, hround]
          refine ⟨.done hround, Or.inr ⟨⟨hrl, hls, hlong⟩, fun l' hl' => ?_⟩⟩
          by_contra hlt'
          have := hused l' hl'.1 (by simpa using hlt')
          rw [hl'.2.1.2.1] at this
          exact absurd this (by decide)
        · have hshort : ¬ LooksLong s n l := by
            intro h
            have := h u hw
            rw [hubit] at this
            exact absurd this (by decide)
          rcases hu with ⟨hum, hu31⟩ | ⟨hum, hend⟩
          · -- on with the run behind `u`
            have hint' : s.pfnMax ≤ 2 ^ 31 ∨ ∃ a < 2 ^ 31, u ≤ a ∧ 0 < n ∧ RunAt s n a := by
              refine hint.imp_right fun ⟨a, ha, hra, hn, hend, hrun⟩ => ⟨a, ha, ?_, hn, hend, hrun⟩
              by_contra hau
              have hla : l ≤ a := by
                by_contra hlt'
                have := hused a hra (by omega)
                rw [hrun a le_rfl (by omega)] at this
                exact absurd this (by decide)
              rw [written_of_lt hsize hlm (by omega)] at hw
              have := hrun u (by omega) (by omega)
              rw [hubit] at this
              exact absurd this (by decide)
            obtain ⟨hret, hres⟩ := ih u (by omega) (by omega) (fun _ => Or.inr hubit) hint'
            rw [toInt_of_lt hu31] at hround
            rw [blockLoop_succ, hround, Sum.elim_inr]
            refine ⟨.round hround hret, hres.imp (fun ⟨h0, hnone⟩ => ⟨h0, fun l' hl' hs => ?_⟩)
              fun ⟨⟨hv, hvs, hvl⟩, hleast⟩ => ⟨⟨by omega, hvs, hvl⟩, fun l' hl' => ?_⟩⟩
            · rcases hs.eq_or_le hl' hused havail with rfl | hul
              · exact hshort
              · exact hnone l' hul hs
            · rcases hl'.2.1.eq_or_le hl'.1 hused havail with rfl | hul
              · exact absurd hl'.2.2 hshort
              · exact hleast ⟨hul, hl'.2⟩
          · -- the run reaches the end of the map
            obtain ⟨hret, hloop⟩ := returns_of_end (n := n) (k := k) hend
            rw [blockLoop_succ, hround, Sum.elim_inr, hloop]
            refine ⟨.round hround hret, Or.inl ⟨rfl, fun l' hl' hs => ?_⟩⟩
            rcases hs.eq_or_le hl' hused havail with rfl | hul
            · exact hshort
            · have := hs.1
              omega
    · obtain ⟨hret, hloop⟩ := returns_of_end (s := s) (n := n) (k := k + 1) (r := r) (by
        rw [toSize_of_lt (show r < 2 ^ 64 by omega)]
        exact hlt)
      rw [hloop]
      refine ⟨hret, Or.inl ⟨rfl, fun l hl hs => ?_⟩⟩
      have := hs.1
      omega

/-! ### First fit -/

/-- The first long enough run looks long enough, and no run before it does. -/
theorem runStart_of_isLeast (hsize : s.memMap.size = s.pfnMax) (hmax : s.pfnMax ≤ 2 ^ 52) (hn : 0 < n)
    (h : IsLeast {a | RunAt s n a} a) : IsLeast {l | 0 ≤ l ∧ RunStart s l ∧ LooksLong s n l} a := by
  obtain ⟨⟨hend, hrun⟩, hleast⟩ := h
  refine ⟨⟨Nat.zero_le a, ⟨by omega, hrun a le_rfl (by omega), ?_⟩, fun p hp => ?_⟩, fun l hl => ?_⟩
  · by_contra hne
    push Not at hne
    have hprev : RunAt s n (a - 1) := by
      refine ⟨by omega, fun j hj hj' => ?_⟩
      rcases Nat.eq_or_lt_of_le hj with rfl | hlt
      · exact Bool.eq_false_of_not_eq_true hne.2
      · exact hrun j (by omega) (by omega)
    have := hleast hprev
    omega
  · rw [written_of_lt hsize (by omega) (by omega)] at hp
    exact hrun p hp.1 (by omega)
  · by_contra hlt
    push Not at hlt
    have hshort : RunAt s n l := by
      refine ⟨by omega, fun j hj hj' => hl.2.2 j ?_⟩
      rw [written_of_lt hsize hl.2.1.1 (by omega)]
      omega
    have := hleast hshort
    omega

/-- **`block_page_alloc` is a first fit** just where there is a long enough run, or none looks like one.
Its page numbers are those of an `int`. -/
theorem firstFit_iff (hsize : s.memMap.size = s.pfnMax) (hmax : s.pfnMax ≤ 2 ^ 52) (hn : 0 < n)
    (hint : s.pfnMax ≤ 2 ^ 31 ∨ ∃ a < 2 ^ 31, RunAt s n a) :
    FirstFit s n ↔ (∃ a, RunAt s n a) ∨ ∀ l, RunStart s l → ¬ LooksLong s n l := by
  obtain ⟨hret, hres⟩ := blockLoop_returns (n := n) hsize hmax (s.pfnMax + 1) 0 (by omega)
    (Nat.zero_le _) (fun _ => Or.inl rfl)
    (hint.imp_right fun ⟨a, ha, hrun⟩ => ⟨a, ha, Nat.zero_le a, hn, hrun⟩)
  rw [Nat.cast_zero] at hret hres
  change BlockReturns s n 0 (blockPageAlloc s n) at hret
  change blockPageAlloc s n = _ ∧ _ ∨ IsLeast _ (blockPageAlloc s n) at hres
  have hne : ∀ l, RunStart s l → l ≠ pfnNotfound := by
    intro l hl
    have := hl.1
    rw [pfnNotfound]
    omega
  constructor
  · intro h
    by_contra hcon
    push Not at hcon
    obtain ⟨hnorun, l, hl, hlong⟩ := hcon
    rcases hres with ⟨-, hnone⟩ | hleast
    · exact hnone l (Nat.zero_le l) hl hlong
    · exact hne _ hleast.1.2.1 (h.notfound_iff.mpr hnorun)
  · intro h
    by_cases hex : ∃ a, RunAt s n a
    · classical
      have hleast : IsLeast {a | RunAt s n a} (Nat.find hex) :=
        ⟨Nat.find_spec hex, fun _ => Nat.find_min' hex⟩
      have hstart := runStart_of_isLeast hsize hmax hn hleast
      have hv : blockPageAlloc s n = Nat.find hex := by
        rcases hres with ⟨-, hnone⟩ | hres
        · exact absurd hstart.1.2.2 (hnone _ (Nat.zero_le _) hstart.1.2.1)
        · exact hres.unique hstart
      refine ⟨hret, ?_, fun a ha => hv.trans (hleast.unique ha)⟩
      rw [hv]
      exact iff_of_false (hne _ hstart.1.2.1) fun hnone => hnone _ hleast.1
    · have hnone := h.resolve_left hex
      push Not at hex
      refine ⟨hret, ?_, fun a ha => absurd ha.1 (hex a)⟩
      refine iff_of_true ?_ hex
      rcases hres with ⟨h0, -⟩ | hres
      · exact h0
      · exact absurd hres.1.2.2 (hnone _ hres.1.2.1)

theorem firstFit_iff_fourPageMemory : FirstFit (fourPageMemory 0) 2 :=
  (firstFit_iff (s := fourPageMemory 0) (n := 2) rfl (by decide) (by decide) (Or.inl (by decide))).mpr
    (Or.inl ⟨0, by decide, fun j _ hj => by interval_cases j <;> rfl⟩)

/-- A request for five pages, of four that there are, is served. -/
theorem not_firstFit_fourPageMemory : ¬ FirstFit (fourPageMemory 0) 5 := by
  intro h
  have hnone : ∀ a, ¬ RunAt (fourPageMemory 0) 5 a := fun a ha => by
    have hend : a + 5 ≤ 4 := ha.1
    omega
  exact absurd (h.notfound_iff.mpr hnone) (by decide +kernel)

end GeekToyOS
