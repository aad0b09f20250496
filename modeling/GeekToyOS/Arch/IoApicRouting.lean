import GeekToyOS.Arch.IoApic

/-!
# Interrupt lines and their entries

The calls of `apic.c` as writes to a table of redirection entries: every call writes the entry that belongs
to its GSI. So a sequence of calls writes each entry as its own calls say, one after the other, and nothing
else.

`gsi_to_ioapic` takes the index of the last redirection entry for the number of entries: the last line of
an I/O APIC belongs to none.

## Main definitions

* `IoApic.HasLine`, `DisjointLines` — the lines of the I/O APICs
* `RoutedTo` — a GSI leads to the I/O APIC that has the line, and to its entry
* `IsRouted` — what `ioapic_init` is to make of an entry

## Main results

* `routedTo_iff` — which lines are found
* `foldlM_programs` — what a sequence of calls does to the entries
* `ioapicInit_routes` — what `ioapic_init` does, and what masking does
-/

namespace GeekToyOS

open IoApics

/-! ### Lines -/

/-- The I/O APIC has the line: from its first to the last one. -/
def IoApic.HasLine (a : IoApic) (gsi : BitVec 32) : Prop :=
  a.gsiBase.toNat ≤ gsi.toNat ∧ gsi.toNat ≤ a.gsiBase.toNat + (maxRedirs a.version).toNat

/-- No two I/O APICs have the same line. -/
def DisjointLines (s : IoApics) : Prop :=
  ∀ i < s.size, ∀ j < s.size, ∀ gsi, (s.apic i).HasLine gsi → (s.apic j).HasLine gsi → i = j

/-- **The GSI leads to the I/O APIC `i`**, and the calls act on its entry `gsi - gsi_base`. -/
structure RoutedTo (s : IoApics) (gsi : BitVec 32) (i : ℕ) : Prop where
  finds : ∃ s', gsiToIoapic s gsi = some (i, s')
  acts : ∃ n : Fin 120, (n : ℕ) = gsi.toNat - (s.apic i).gsiBase.toNat ∧
    (∀ lapicId source flags target, ∃ s', ioapicRedirect lapicId s gsi source flags target = some s' ∧
      s.Programs s' (i, n) (redirection gsi flags (lapicId target.toNat))) ∧
    (∃ s', ioapicMask s gsi = some s' ∧ s.Programs s' (i, n) (s.entries (i, n) ||| apicIrqMask)) ∧
    ∃ s', ioapicUnmask s gsi = some s' ∧ s.Programs s' (i, n) (s.entries (i, n) &&& ~~~apicIrqMask)

variable {s s' : IoApics} {gsi : BitVec 32} {i : ℕ}

/-- The test of `gsi_to_ioapic` in numbers: the line is at or above the base, and below the sum of base and
last index, which may wrap around. -/
theorem IoApic.covers_iff {a : IoApic} : a.covers gsi ↔ a.gsiBase.toNat ≤ gsi.toNat ∧
    gsi.toNat < (a.gsiBase.toNat + (maxRedirs a.version).toNat) % 2 ^ 32 := by
  rw [IoApic.covers, decide_eq_true_eq, BitVec.le_def, gt_iff_lt, BitVec.lt_def, BitVec.toNat_add]

theorem IoApic.HasLine.of_covers {a : IoApic} (h : a.covers gsi) : a.HasLine gsi := by
  obtain ⟨hlo, hhi⟩ := IoApic.covers_iff.mp h
  have := Nat.mod_le (a.gsiBase.toNat + (maxRedirs a.version).toNat) (2 ^ 32)
  exact ⟨hlo, by omega⟩

theorem gsiToIoapic_ne_none : gsiToIoapic s gsi ≠ none ↔ s.slot gsi ≠ none := by
  obtain ⟨s', hs', -, -⟩ := gsiToIoapic_eq s gsi
  rw [hs', IoApics.slot]
  cases s.find gsi <;> simp

theorem find_of_gsiToIoapic (h : gsiToIoapic s gsi = some (i, s')) : s.find gsi = some i := by
  obtain ⟨t, ht, -, -⟩ := gsiToIoapic_eq s gsi
  rw [ht] at h
  obtain ⟨j, hj, heq⟩ := Option.map_eq_some_iff.mp h
  rw [hj, (Prod.mk.inj heq).1]

/-- **Which lines lead to their I/O APIC**: all but the last. -/
theorem routedTo_iff (hdis : DisjointLines s) (hi : i < s.size) (hline : (s.apic i).HasLine gsi) :
    RoutedTo s gsi i ↔ gsi.toNat ≠ (s.apic i).gsiBase.toNat + (maxRedirs (s.apic i).version).toNat ∧
      (s.apic i).gsiBase.toNat + (maxRedirs (s.apic i).version).toNat < 2 ^ 32 := by
  have hfits : (maxRedirs (s.apic i).version).toNat < 120 := (s.apic i).fits
  obtain ⟨hlo, hhi⟩ := hline
  have hlt := gsi.isLt
  constructor
  · rintro ⟨⟨s', hs'⟩, -⟩
    have hcov := (IoApic.covers_iff.mp (covers_of_find (find_of_gsiToIoapic hs'))).2
    omega
  · intro hcond
    have hcov : (s.apic i).covers gsi := IoApic.covers_iff.mpr ⟨hlo, by omega⟩
    have hfind : s.find gsi = some i :=
      Search.find?_eq_some_of_unique (List.mem_range.mpr hi) hcov fun j hj hcov' =>
        hdis j (List.mem_range.mp hj) i hi gsi (.of_covers hcov') (.of_covers hcov)
    have hslot : s.slot gsi = some (i, (s.apic i).line gsi) := slot_eq_some.mpr ⟨hfind, rfl⟩
    obtain ⟨t, ht, -, -⟩ := gsiToIoapic_eq s gsi
    rw [hfind] at ht
    exact ⟨⟨t, ht⟩, (s.apic i).line gsi, (line_eq hcov).1,
      fun lapicId source flags target => ioapicRedirect_eq lapicId source flags target hslot,
      ioapicChange_eq _ hslot, ioapicChange_eq _ hslot⟩

/-- An I/O APIC with 24 lines, from 0 on, and all registers zero. -/
def oneIoApic : IoApics where
  size := 1
  apic _ := ⟨0, 0x170020, 0, fun _ => 0, by decide⟩

theorem disjointLines_oneIoApic : DisjointLines oneIoApic := by
  intro i hi j hj _ _ _
  have : oneIoApic.size = 1 := rfl
  omega

theorem routedTo_iff_five : RoutedTo oneIoApic 5 0 :=
  (routedTo_iff disjointLines_oneIoApic (by decide) ⟨by decide, by decide⟩).mpr ⟨by decide, by decide⟩

/-- The last of 24 lines is not found by `gsi_to_ioapic`. -/
theorem not_routedTo_last : ¬ ∀ (s : IoApics) (gsi : BitVec 32) (i : ℕ), DisjointLines s → i < s.size →
    (s.apic i).HasLine gsi → RoutedTo s gsi i := by
  intro hall
  obtain ⟨⟨s', hs'⟩, -⟩ :=
    hall oneIoApic 23 0 disjointLines_oneIoApic (by decide) ⟨by decide, by decide⟩
  have hnone : (gsiToIoapic oneIoApic 23).isNone := by decide
  rw [hs'] at hnone
  cases hnone

/-! ### Sequences of calls -/

section Runs

variable {α : Type*} {step : IoApics → α → Option IoApics}

/-- **What a sequence of calls does to the entries**: each is written by the calls for its GSI. -/
theorem foldlM_programs (gsiOf : α → BitVec 32) {f : α → BitVec 64 → BitVec 64}
    (hstep : ∀ {s c k}, s.slot (gsiOf c) = some k →
      ∃ s', step s c = some s' ∧ s.Programs s' k (f c (s.entries k)))
    (cs : List α) (s : IoApics) (hfound : ∀ c ∈ cs, s.slot (gsiOf c) ≠ none) :
    ∃ s', cs.foldlM step s = some s' ∧ s.SameBut s' ∧ ∀ k, s'.entries k =
      (cs.filter fun c => s.slot (gsiOf c) = some k).foldl (fun v c => f c v) (s.entries k) := by
  -- the table of entries is written slot by slot
  have hrun : ∃ s', cs.foldlM step s = some s' ∧ s.SameBut s' ∧ s'.entries = cs.foldl (fun T c =>
      Function.update T ((s.slot (gsiOf c)).getD (0, 0))
        (f c (T ((s.slot (gsiOf c)).getD (0, 0))))) s.entries := by
    induction cs generalizing s with
    | nil => exact ⟨s, rfl, .refl s, rfl⟩
    | cons c cs ih =>
      obtain ⟨k, hk⟩ := Option.ne_none_iff_exists'.mp (hfound c List.mem_cons_self)
      obtain ⟨s₁, hs₁, hprog⟩ := hstep hk
      obtain ⟨s', hs', hsame, hentries⟩ := ih s₁ fun c hc => by
        rw [hprog.sameBut.slot]
        exact hfound c (List.mem_cons_of_mem _ hc)
      refine ⟨s', ?_, hprog.sameBut.trans hsame, ?_⟩
      · rw [List.foldlM_cons, hs₁]
        exact hs'
      · rw [List.foldl_cons, hk, Option.getD_some, hentries, hprog.entries]
        simp only [hprog.sameBut.slot]
  obtain ⟨s', hs', hsame, hentries⟩ := hrun
  refine ⟨s', hs', hsame, fun k => ?_⟩
  rw [hentries, Search.foldl_update_apply]
  refine congrArg (List.foldl _ _) (List.filter_congr fun c hc => ?_)
  obtain ⟨k', hk'⟩ := Option.ne_none_iff_exists'.mp (hfound c hc)
  rw [hk', Option.getD_some]
  simp only [Option.some.injEq]

end Runs

/-! ### Masking -/

/-- A call of `ioapic_mask`, or of `ioapic_unmask`. -/
def ioapicCall (s : IoApics) (c : Bool × BitVec 32) : Option IoApics :=
  if c.1 then ioapicMask s c.2 else ioapicUnmask s c.2

/-- What the call does to the entry. -/
def maskChange (c : Bool × BitVec 32) (e : BitVec 64) : BitVec 64 :=
  if c.1 then e ||| apicIrqMask else e &&& ~~~apicIrqMask

theorem ioapicCall_programs {c : Bool × BitVec 32} {k : ℕ × Fin 120} (hk : s.slot c.2 = some k) :
    ∃ s', ioapicCall s c = some s' ∧ s.Programs s' k (maskChange c (s.entries k)) := by
  rw [ioapicCall, maskChange]
  split
  · exact ioapicChange_eq (· ||| apicIrqMask) hk
  · exact ioapicChange_eq (· &&& ~~~apicIrqMask) hk

theorem apicIrqMask_getLsbD (b : ℕ) : apicIrqMask.getLsbD b = decide (b = 16) := by
  rw [show apicIrqMask = BitVec.twoPow 64 16 by decide, BitVec.getLsbD_twoPow]
  by_cases h : b = 16
  · subst h
    decide
  · simp [h, Ne.symm h]

theorem maskChange_getLsbD (c : Bool × BitVec 32) (e : BitVec 64) (b : ℕ) :
    (maskChange c e).getLsbD b = if b = 16 then c.1 else e.getLsbD b := by
  obtain ⟨mask, gsi⟩ := c
  by_cases hb : b < 64
  · cases mask with
    | true =>
      rw [maskChange, if_pos rfl, BitVec.getLsbD_or, apicIrqMask_getLsbD]
      split <;> simp_all
    | false =>
      rw [maskChange, if_neg Bool.false_ne_true, BitVec.getLsbD_and, BitVec.getLsbD_not,
        apicIrqMask_getLsbD]
      split <;> simp_all
  · rw [if_neg (by omega), BitVec.getLsbD_of_ge _ b (by omega), BitVec.getLsbD_of_ge _ b (by omega)]

/-- **Masking and unmasking**: bit 16 of the entries that are named ends as the last call for it says, and
nothing else changes. -/
theorem ioapicCalls_spec (cs : List (Bool × BitVec 32)) (hfound : ∀ c ∈ cs, s.slot c.2 ≠ none) :
    ∃ s', cs.foldlM ioapicCall s = some s' ∧ s.SameBut s' ∧ ∀ k b, (s'.entries k).getLsbD b =
      if b = 16 then ((cs.filter fun c => s.slot c.2 = some k).getLast?.map Prod.fst).getD
        ((s.entries k).getLsbD 16)
      else (s.entries k).getLsbD b := by
  obtain ⟨s', hs', hsame, hentries⟩ :=
    foldlM_programs Prod.snd (f := maskChange) ioapicCall_programs cs s hfound
  refine ⟨s', hs', hsame, fun k b => ?_⟩
  rw [hentries]
  generalize cs.filter (fun c => s.slot c.2 = some k) = ds
  generalize s.entries k = e
  induction ds using List.reverseRecOn with
  | nil => by_cases hb : b = 16 <;> simp [hb]
  | append_singleton ds c ih =>
    rw [List.foldl_append, List.foldl_cons, List.foldl_nil, maskChange_getLsbD]
    by_cases hb : b = 16
    · simp [hb]
    · rw [if_neg hb] at ih ⊢
      rw [if_neg hb, ih]

/-! ### Initialisation -/

/-- `ioapic_init` names the GSI. -/
def Involved (overrides : List Override) (gsi : BitVec 32) : Prop :=
  gsi.toNat < 16 ∨ ∃ o ∈ overrides, o.gsi = gsi

/-- The flags of the last override that names the GSI. -/
def overrideFlags (overrides : List Override) (gsi : BitVec 32) : BitVec 16 :=
  ((overrides.filter fun o => o.gsi = gsi).getLast?.map Override.flags).getD 0

/-- **What `ioapic_init` is to make of an entry.** -/
structure IsRouted (e : BitVec 64) (gsi : BitVec 32) (flags : BitVec 16) (apicId : BitVec 8) : Prop where
  masked : e.getLsbD 16
  vector : (e.extractLsb' 0 8).toNat = gsi.toNat + 32
  destination : e.extractLsb' 56 8 = apicId
  polarity : e.getLsbD 13 = flags.getLsbD 1
  trigger : e.getLsbD 15 = flags.getLsbD 3
  others : ∀ b, 8 ≤ b → b < 56 → b ≠ 13 → b ≠ 15 → b ≠ 16 → e.getLsbD b = false

variable {lapicId : ℕ → BitVec 8} {overrides : List Override}

theorem ioapicInitStep_programs {o : Override} {k : ℕ × Fin 120} (hk : s.slot o.gsi = some k) :
    ∃ s', ioapicInitStep lapicId s o = some s' ∧
      s.Programs s' k (redirection o.gsi o.flags (lapicId 0) ||| apicIrqMask) := by
  obtain ⟨s₁, hs₁, hprog₁⟩ := ioapicRedirect_eq lapicId o.source o.flags 0 hk
  obtain ⟨s₂, hs₂, hprog₂⟩ :=
    ioapicChange_eq (· ||| apicIrqMask) ((hprog₁.sameBut.slot o.gsi).trans hk)
  refine ⟨s₂, ?_, hprog₁.sameBut.trans hprog₂.sameBut, ?_⟩
  · rw [ioapicInitStep, hs₁]
    exact hs₂
  · rw [hprog₂.entries, hprog₁.entries, Function.update_self, Function.update_idem]
    rfl

theorem mem_legacyWirings {o : Override} (h : o ∈ legacyWirings) : o.gsi.toNat < 16 ∧ o.flags = 0 := by
  obtain ⟨i, hi, rfl⟩ := List.mem_map.mp h
  have := List.mem_range.mp hi
  exact ⟨by simp; omega, rfl⟩

theorem exists_legacyWiring (h : gsi.toNat < 16) : ∃ o ∈ legacyWirings, o.gsi = gsi :=
  ⟨_, List.mem_map.mpr ⟨gsi.toNat, List.mem_range.mpr h, rfl⟩, BitVec.eq_of_toNat_eq (by simp)⟩

theorem involved_iff : Involved overrides gsi ↔ ∃ o ∈ legacyWirings ++ overrides, o.gsi = gsi := by
  constructor
  · rintro (h | ⟨o, ho, hgsi⟩)
    · obtain ⟨o, ho, hgsi⟩ := exists_legacyWiring h
      exact ⟨o, List.mem_append_left _ ho, hgsi⟩
    · exact ⟨o, List.mem_append_right _ ho, hgsi⟩
  · rintro ⟨o, ho, rfl⟩
    obtain ho | ho := List.mem_append.mp ho
    · exact .inl (mem_legacyWirings ho).1
    · exact .inr ⟨o, ho, rfl⟩

/-- The last redirection that `ioapic_init` makes of a GSI has the flags of the last override for it. -/
theorem getLast?_redirections (h : Involved overrides gsi) :
    ∃ o, ((legacyWirings ++ overrides).filter fun o => o.gsi = gsi).getLast? = some o ∧ o.gsi = gsi ∧
      o.flags = overrideFlags overrides gsi := by
  obtain ⟨o, ho, hgsi⟩ := involved_iff.mp h
  have hne : ((legacyWirings ++ overrides).filter fun o => o.gsi = gsi) ≠ [] :=
    List.ne_nil_of_mem (List.mem_filter.mpr ⟨ho, decide_eq_true hgsi⟩)
  obtain ⟨last, hlast⟩ := Option.isSome_iff_exists.mp (List.getLast?_isSome.mpr hne)
  refine ⟨last, hlast, of_decide_eq_true (List.mem_filter.mp (List.mem_of_getLast? hlast)).2, ?_⟩
  rw [overrideFlags]
  rw [List.filter_append, List.getLast?_append] at hlast
  cases hover : (overrides.filter fun o => o.gsi = gsi).getLast? with
  | some o' =>
    rw [hover, Option.some_or] at hlast
    rw [Option.some.inj hlast]
    rfl
  | none =>
    rw [hover, Option.none_or] at hlast
    exact (mem_legacyWirings (List.mem_filter.mp (List.mem_of_getLast? hlast)).1).2

/-- The bits of the entry that `ioapic_redirect` makes. -/
theorem redirection_getLsbD (gsi : BitVec 32) (flags : BitVec 16) (apicId : BitVec 8) {b : ℕ} (hb : b < 64) :
    (redirection gsi flags apicId).getLsbD b = ((gsi + irqBase).getLsbD b ||
      (decide (b = 13) && flags.getLsbD 1) || (decide (b = 15) && flags.getLsbD 3) ||
      (decide (56 ≤ b) && apicId.getLsbD (b - 56))) := by
  have hpol : flags &&& 2 ≠ 0 ↔ flags.getLsbD 1 = true :=
    Bits.and_twoPow_ne_zero flags (i := 1) (by omega)
  have htrig : flags &&& 8 ≠ 0 ↔ flags.getLsbD 3 = true :=
    Bits.and_twoPow_ne_zero flags (i := 3) (by omega)
  rw [redirection, BitVec.getLsbD_or]
  rw [show (1 : BitVec 64) <<< 13 = BitVec.twoPow 64 13 by rfl,
    show (1 : BitVec 64) <<< 15 = BitVec.twoPow 64 15 by rfl, Bits.ite_or_twoPow_getLsbD _ _ htrig (by omega),
    Bits.ite_or_twoPow_getLsbD _ _ hpol (by omega), BitVec.getLsbD_setWidth, BitVec.getLsbD_shiftLeft,
    BitVec.getLsbD_setWidth]
  have hhigh : (!decide (b < 56)) = decide (56 ≤ b) := by simp [← decide_not]
  have hlow : decide (b - 56 < 64) = true := decide_eq_true (by omega)
  rw [decide_eq_true hb, Bool.true_and, Bool.true_and, hhigh, hlow, Bool.true_and]

/-- The vector of a GSI below 224 has eight bits. -/
theorem vector_getLsbD (hgsi : gsi.toNat < 224) {b : ℕ} (hb : 8 ≤ b) : (gsi + irqBase).getLsbD b = false := by
  have hadd : (gsi + irqBase).toNat = gsi.toNat + 32 := by
    rw [BitVec.toNat_add, irqBase]
    simp
    omega
  exact Nat.testBit_eq_false_of_lt (lt_of_lt_of_le (by omega) (Nat.pow_le_pow_right two_pos hb))

theorem isRouted_redirection (flags : BitVec 16) (apicId : BitVec 8) (hgsi : gsi.toNat < 224) :
    IsRouted (redirection gsi flags apicId ||| apicIrqMask) gsi flags apicId := by
  have hbit : ∀ b < 64, (redirection gsi flags apicId ||| apicIrqMask).getLsbD b =
      ((gsi + irqBase).getLsbD b || (decide (b = 13) && flags.getLsbD 1) ||
        (decide (b = 15) && flags.getLsbD 3) || (decide (56 ≤ b) && apicId.getLsbD (b - 56)) ||
        decide (b = 16)) := fun b hb => by
    rw [BitVec.getLsbD_or, redirection_getLsbD gsi flags apicId hb, apicIrqMask_getLsbD]
  have hvector := fun {b : ℕ} (hb : 8 ≤ b) => vector_getLsbD hgsi hb
  refine ⟨by rw [hbit 16 (by omega)]; simp, ?_, ?_, ?_, ?_, fun b hlo hhi h13 h15 h16 => ?_⟩
  · have hlow : (redirection gsi flags apicId ||| apicIrqMask).extractLsb' 0 8 =
        (gsi + irqBase).setWidth 8 := BitVec.eq_of_getLsbD_eq fun i hi => by
      rw [BitVec.getLsbD_extractLsb', BitVec.getLsbD_setWidth, Nat.zero_add, hbit i (by omega)]
      simp [hi, show i ≠ 13 by omega, show i ≠ 15 by omega, show i ≠ 16 by omega, show ¬ 56 ≤ i by omega]
    rw [hlow, BitVec.toNat_setWidth, BitVec.toNat_add, irqBase]
    simp
    omega
  · refine BitVec.eq_of_getLsbD_eq fun i hi => ?_
    rw [BitVec.getLsbD_extractLsb', hbit _ (by omega), hvector (by omega)]
    simp [hi, show 56 + i ≠ 13 by omega, show 56 + i ≠ 15 by omega, show 56 + i ≠ 16 by omega]
  · rw [hbit 13 (by omega), hvector (by omega)]
    simp
  · rw [hbit 15 (by omega), hvector (by omega)]
    simp
  · rw [hbit b (by omega), hvector hlo]
    simp [h13, h15, h16, hhi]

/-- **`ioapic_init`** masks and routes the entries of the GSIs it names, by the last override for each, and
changes no other. And masking and unmasking change bit 16 of the entries that are named, as the last call
for each says. -/
theorem ioapicInit_routes (lapicId : ℕ → BitVec 8) {s : IoApics} {overrides : List Override}
    (hgsi : ∀ gsi, Involved overrides gsi → gsi.toNat < 224)
    (hfound : ∀ gsi, Involved overrides gsi → gsiToIoapic s gsi ≠ none) :
    (∃ s', ioapicInit lapicId s overrides = some s' ∧ s.SameBut s' ∧ ∀ k,
      (∀ gsi, Involved overrides gsi → s.slot gsi = some k →
        IsRouted (s'.entries k) gsi (overrideFlags overrides gsi) (lapicId 0)) ∧
      ((∀ gsi, Involved overrides gsi → s.slot gsi ≠ some k) → s'.entries k = s.entries k)) ∧
    ∀ (t : IoApics) (cs : List (Bool × BitVec 32)), (∀ c ∈ cs, gsiToIoapic t c.2 ≠ none) →
      ∃ t', cs.foldlM ioapicCall t = some t' ∧ t.SameBut t' ∧ ∀ k b, (t'.entries k).getLsbD b =
        if b = 16 then ((cs.filter fun c => t.slot c.2 = some k).getLast?.map Prod.fst).getD
          ((t.entries k).getLsbD 16)
        else (t.entries k).getLsbD b := by
  refine ⟨?_, fun t cs h => ioapicCalls_spec cs fun c hc => gsiToIoapic_ne_none.mp (h c hc)⟩
  have hslot : ∀ o ∈ legacyWirings ++ overrides, s.slot o.gsi ≠ none := fun o ho =>
    gsiToIoapic_ne_none.mp (hfound o.gsi (involved_iff.mpr ⟨o, ho, rfl⟩))
  obtain ⟨s', hs', hsame, hentries⟩ := foldlM_programs Override.gsi
    (f := fun o _ => redirection o.gsi o.flags (lapicId 0) ||| apicIrqMask) ioapicInitStep_programs
    (legacyWirings ++ overrides) s hslot
  refine ⟨s', ?_, hsame, fun k => ⟨fun gsi hinv hk => ?_, fun hk => ?_⟩⟩
  · rw [ioapicInit, ← hs', List.foldlM_append]
    rfl
  · -- the redirections of the entry are those of its GSI
    have hfilter : ((legacyWirings ++ overrides).filter fun o => s.slot o.gsi = some k) =
        (legacyWirings ++ overrides).filter fun o => o.gsi = gsi := by
      refine List.filter_congr fun o _ => decide_eq_decide.mpr ⟨fun h => slot_inj hk h, fun h => ?_⟩
      rw [h, hk]
    obtain ⟨o, hlast, hogsi, hflags⟩ := getLast?_redirections hinv
    rw [hentries, hfilter, Search.foldl_const, hlast, Option.map_some, Option.getD_some, hogsi, hflags]
    exact isRouted_redirection _ _ (hgsi gsi hinv)
  · have hnone : ((legacyWirings ++ overrides).filter fun o => s.slot o.gsi = some k) = [] :=
      List.filter_eq_nil_iff.mpr fun o ho => by
        rw [decide_eq_true_eq]
        exact hk o.gsi (involved_iff.mpr ⟨o, ho, rfl⟩)
    rw [hentries, hnone, List.foldl_nil]

/-- An override for the timer, and one for an interrupt that is level triggered. -/
def twoOverrides : List Override := [⟨0, 2, 0⟩, ⟨9, 20, 0xD⟩]

theorem toNat_lt_of_involved (h : Involved twoOverrides gsi) : gsi.toNat < 23 := by
  obtain h | ⟨o, ho, rfl⟩ := h
  · omega
  · obtain rfl | rfl : o = ⟨0, 2, 0⟩ ∨ o = ⟨9, 20, 0xD⟩ := by simpa [twoOverrides] using ho
    all_goals decide

theorem slot_oneIoApic (h : gsi.toNat < 23) : oneIoApic.slot gsi = some (0, (oneIoApic.apic 0).line gsi) := by
  have hcov : (oneIoApic.apic 0).covers gsi := IoApic.covers_iff.mpr ⟨Nat.zero_le _, h⟩
  refine slot_eq_some.mpr ⟨?_, rfl⟩
  rw [IoApics.find, show oneIoApic.size = 1 from rfl, List.range_one]
  simp only [List.find?_cons, hcov]

theorem ioapicInit_routes_twoOverrides : ∃ s', ioapicInit (fun _ => 7) oneIoApic twoOverrides = some s' ∧
    IsRouted (s'.entries (0, 20)) 20 0xD 7 := by
  have hinv : Involved twoOverrides 20 := .inr ⟨⟨9, 20, 0xD⟩, by simp [twoOverrides], rfl⟩
  have hflags : overrideFlags twoOverrides 20 = 0xD := by decide +kernel
  have hfound : ∀ gsi, Involved twoOverrides gsi → gsiToIoapic oneIoApic gsi ≠ none := fun gsi h => by
    rw [gsiToIoapic_ne_none, slot_oneIoApic (toNat_lt_of_involved h)]
    exact Option.some_ne_none _
  obtain ⟨⟨s', hs', -, h⟩, -⟩ := ioapicInit_routes (fun _ => 7)
    (fun gsi h => (toNat_lt_of_involved h).trans (by omega)) hfound
  have hrouted := (h (0, 20)).1 20 hinv (slot_oneIoApic (by decide))
  rw [hflags] at hrouted
  exact ⟨s', hs', hrouted⟩

end GeekToyOS
