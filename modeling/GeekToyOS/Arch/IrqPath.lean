import GeekToyOS.Arch.IoApicRouting

/-!
# From an interrupt line to its vector

`ioapic_isa_to_gsi` of `src/arch/x86/apic.c` and `interrupt_enable_irq` and `interrupt_disable_irq` of
`src/arch/x86/interrupt.c`, after `ioapic_init`. A driver names its interrupt by the number it had on the
legacy controller: for the vector of its handler, and to enable and disable it. The device raises a line of
an I/O APIC. All of it has to come together.

Two legacy interrupts can have the same line: an override sends the timer to line 2, which is also where the
interrupt of the second legacy controller is. So what counts is the last call for the line.

## Main definitions

* `ioapicIsaToGsi`, `irqToInt`, `interruptEnableIrq`, `interruptDisableIrq`
* `IoApics.raise` — what the I/O APIC makes of a line that is raised

## Main results

* `raise_of_calls` — a line leads to the vector of its interrupt, or to nothing, after any calls
-/

namespace GeekToyOS

open IoApics

/-- `ioapic_isa_to_gsi` -/
def ioapicIsaToGsi (overrides : List Override) (isa : BitVec 8) : BitVec 8 :=
  match overrides.find? fun o => o.source = isa with
  | some o => o.gsi.setWidth 8
  | none => isa

/-- `IRQ_TO_INT` -/
def irqToInt (overrides : List Override) (irq : BitVec 8) : ℕ := (ioapicIsaToGsi overrides irq).toNat + 32

/-- `interrupt_enable_irq` -/
def interruptEnableIrq (apicInitOk : Bool) (overrides : List Override) (s : IoApics) (irq : BitVec 8) :
    Option IoApics :=
  if apicInitOk then ioapicUnmask s ((ioapicIsaToGsi overrides irq).setWidth 32) else some s

/-- `interrupt_disable_irq` -/
def interruptDisableIrq (apicInitOk : Bool) (overrides : List Override) (s : IoApics) (irq : BitVec 8) :
    Option IoApics :=
  if apicInitOk then ioapicMask s ((ioapicIsaToGsi overrides irq).setWidth 32) else some s

/-- A call of `interrupt_enable_irq`, or of `interrupt_disable_irq`. -/
def irqCall (overrides : List Override) (s : IoApics) (c : Bool × BitVec 8) : Option IoApics :=
  if c.1 then interruptEnableIrq true overrides s c.2 else interruptDisableIrq true overrides s c.2

/-- What an I/O APIC makes of a line that is raised: a vector, and the local APIC that gets it. -/
def IoApics.raise (s : IoApics) (i : ℕ) (n : Fin 120) : Option (ℕ × BitVec 8) :=
  let e := s.entries (i, n)
  if e.getLsbD 16 then none else some ((e.extractLsb' 0 8).toNat, e.extractLsb' 56 8)

/-- A legacy interrupt: it has a wiring by default, or an override. -/
def Wired (overrides : List Override) (irq : BitVec 8) : Prop :=
  irq.toNat < 16 ∨ ∃ o ∈ overrides, o.source = irq

instance (overrides : List Override) (irq : BitVec 8) : Decidable (Wired overrides irq) :=
  inferInstanceAs (Decidable (_ ∨ _))

/-- The call for the line that counts is one that enables it. -/
def LineEnabled (overrides : List Override) (calls : List (Bool × BitVec 8)) (irq : BitVec 8) : Prop :=
  ((calls.filter fun c => ioapicIsaToGsi overrides c.2 = ioapicIsaToGsi overrides irq).getLast?.map
    Prod.fst).getD false = true

instance (overrides : List Override) (calls : List (Bool × BitVec 8)) (irq : BitVec 8) :
    Decidable (LineEnabled overrides calls irq) := inferInstanceAs (Decidable (_ = _))

section Path

variable {s t : IoApics} {overrides : List Override} {lapicId : ℕ → BitVec 8} {irq : BitVec 8}

/-- The line of a legacy interrupt is one that `ioapic_init` programs. -/
theorem Wired.involved (h : Wired overrides irq)
    (hgsi : ∀ gsi, Involved overrides gsi → gsi.toNat < 224) :
    Involved overrides ((ioapicIsaToGsi overrides irq).setWidth 32) := by
  unfold ioapicIsaToGsi
  split
  · next o ho =>
    have hmem := List.mem_of_find?_eq_some ho
    have hlt := hgsi o.gsi (Or.inr ⟨o, hmem, rfl⟩)
    refine Or.inr ⟨o, hmem, BitVec.eq_of_toNat_eq ?_⟩
    simp only [BitVec.toNat_setWidth]
    omega
  · next hnone =>
    rcases h with h | ⟨o, ho, hsource⟩
    · refine Or.inl ?_
      simp only [BitVec.toNat_setWidth]
      omega
    · have := List.find?_eq_none.mp hnone o ho
      simp [hsource] at this

/-- **What `ioapic_init` makes of the entries** that it finds. -/
theorem ioapicInit_entries (lapicId : ℕ → BitVec 8)
    (hgsi : ∀ gsi, Involved overrides gsi → gsi.toNat < 224)
    (hslot : ∀ gsi, Involved overrides gsi → s.slot gsi ≠ none) :
    ∃ t, ioapicInit lapicId s overrides = some t ∧ s.SameBut t ∧ ∀ gsi k, Involved overrides gsi →
      s.slot gsi = some k → ∃ flags, IsRouted (t.entries k) gsi flags (lapicId 0) := by
  have hfound : ∀ o ∈ legacyWirings ++ overrides, s.slot o.gsi ≠ none := fun o ho =>
    hslot o.gsi (involved_iff.mpr ⟨o, ho, rfl⟩)
  obtain ⟨t, ht, hsame, hentries⟩ := foldlM_programs Override.gsi
    (f := fun o _ => redirection o.gsi o.flags (lapicId 0) ||| apicIrqMask) ioapicInitStep_programs
    (legacyWirings ++ overrides) s hfound
  refine ⟨t, ?_, hsame, fun gsi k hinv hk => ?_⟩
  · rw [ioapicInit, ← ht, List.foldlM_append]
    rfl
  · have hfilter : ((legacyWirings ++ overrides).filter fun o => s.slot o.gsi = some k) =
        (legacyWirings ++ overrides).filter fun o => o.gsi = gsi := by
      refine List.filter_congr fun o _ => decide_eq_decide.mpr ⟨fun h => slot_inj hk h, fun h => ?_⟩
      rw [h, hk]
    obtain ⟨o, hlast, hogsi, -⟩ := getLast?_redirections hinv
    rw [hentries, hfilter, Search.foldl_const, hlast, Option.map_some, Option.getD_some, hogsi]
    exact ⟨o.flags, isRouted_redirection _ _ (hgsi gsi hinv)⟩

/-- **The calls, as calls for lines**: bit 16 of an entry ends as the last call for its line says, and
nothing else changes. -/
theorem irqCalls_spec (calls : List (Bool × BitVec 8))
    (hfound : ∀ c ∈ calls, t.slot ((ioapicIsaToGsi overrides c.2).setWidth 32) ≠ none) :
    ∃ t', calls.foldlM (irqCall overrides) t = some t' ∧ t.SameBut t' ∧ ∀ gsi : BitVec 8, ∀ k,
      t.slot (gsi.setWidth 32) = some k → ∀ b, (t'.entries k).getLsbD b =
        if b = 16 then
          ((calls.filter fun c => ioapicIsaToGsi overrides c.2 = gsi).getLast?.map fun c => !c.1).getD
            ((t.entries k).getLsbD 16)
        else (t.entries k).getLsbD b := by
  have hcall : calls.foldlM (irqCall overrides) t = (calls.map fun c =>
      (!c.1, (ioapicIsaToGsi overrides c.2).setWidth 32)).foldlM ioapicCall t := by
    rw [List.foldlM_map]
    congr 1
    funext t c
    obtain ⟨enable, irq⟩ := c
    cases enable <;> rfl
  obtain ⟨t', ht', hsame, hbits⟩ := ioapicCalls_spec (s := t)
    (calls.map fun c => (!c.1, (ioapicIsaToGsi overrides c.2).setWidth 32)) (fun c hc => by
      obtain ⟨c', hc', rfl⟩ := List.mem_map.mp hc
      exact hfound c' hc')
  refine ⟨t', hcall.trans ht', hsame, fun gsi k hk b => ?_⟩
  have hfilter : (calls.filter fun c => t.slot ((ioapicIsaToGsi overrides c.2).setWidth 32) = some k) =
      calls.filter fun c => ioapicIsaToGsi overrides c.2 = gsi := by
    refine List.filter_congr fun c _ => decide_eq_decide.mpr ⟨fun h => ?_, fun h => by rw [h, hk]⟩
    have := congrArg BitVec.toNat (slot_inj hk h)
    simp only [BitVec.toNat_setWidth] at this
    exact BitVec.eq_of_toNat_eq (by omega)
  rw [hbits, List.filter_map, List.getLast?_map, Option.map_map]
  simp only [Function.comp_def, hfilter]

/-- The entry that belongs to a GSI is that of the line. -/
theorem slot_of_line (hdis : DisjointLines s) {gsi : BitVec 32} (hfound : s.slot gsi ≠ none) {i : ℕ}
    (hi : i < s.size) {n : Fin 120} (hn : (n : ℕ) ≤ (maxRedirs (s.apic i).version).toNat)
    (hline : (s.apic i).gsiBase.toNat + n = gsi.toNat) : s.slot gsi = some (i, n) := by
  obtain ⟨⟨j, m⟩, hjm⟩ := Option.ne_none_iff_exists'.mp hfound
  obtain ⟨hj, rfl⟩ := slot_eq_some.mp hjm
  have hcov := covers_of_find hj
  have hjlt : j < s.size := List.mem_range.mp (List.mem_of_find?_eq_some hj)
  obtain rfl : j = i := hdis j hjlt i hi gsi (.of_covers hcov) ⟨by omega, by omega⟩
  obtain ⟨hval, hle, -⟩ := line_eq hcov
  rw [hjm, Option.some.injEq, Prod.mk.injEq]
  exact ⟨rfl, Fin.ext (by omega)⟩

/-- **A line leads to the vector of its interrupt.** After `ioapic_init` and any calls of
`interrupt_enable_irq` and `interrupt_disable_irq`, a line that is raised leads to the first processor with
the vector for which the handler of the interrupt is registered, if the last call for the line has enabled
it, and to nothing else. -/
theorem raise_of_calls (lapicId : ℕ → BitVec 8) {s : IoApics} {overrides : List Override}
    (hdis : DisjointLines s) (hgsi : ∀ gsi, Involved overrides gsi → gsi.toNat < 224)
    (hfound : ∀ gsi, Involved overrides gsi → gsiToIoapic s gsi ≠ none) :
    ∃ t, ioapicInit lapicId s overrides = some t ∧ ∀ calls : List (Bool × BitVec 8),
      (∀ c ∈ calls, Wired overrides c.2) → ∃ t', calls.foldlM (irqCall overrides) t = some t' ∧
        ∀ irq, Wired overrides irq → ∀ i < s.size, ∀ n : Fin 120,
          (n : ℕ) ≤ (maxRedirs (s.apic i).version).toNat →
          (s.apic i).gsiBase.toNat + n = (ioapicIsaToGsi overrides irq).toNat →
          t'.raise i n =
            if LineEnabled overrides calls irq then some (irqToInt overrides irq, lapicId 0) else none := by
  have hslot : ∀ gsi, Involved overrides gsi → s.slot gsi ≠ none := fun gsi h =>
    gsiToIoapic_ne_none.mp (hfound gsi h)
  obtain ⟨t, ht, hsame, hrouted⟩ := ioapicInit_entries lapicId hgsi hslot
  refine ⟨t, ht, fun calls hcalls => ?_⟩
  have hcallslot : ∀ c ∈ calls, t.slot ((ioapicIsaToGsi overrides c.2).setWidth 32) ≠ none := fun c hc => by
    rw [hsame.slot]
    exact hslot _ ((hcalls c hc).involved hgsi)
  obtain ⟨t', ht', -, hbits⟩ := irqCalls_spec calls hcallslot
  refine ⟨t', ht', fun irq hirq i hi n hn hline => ?_⟩
  have hinv := hirq.involved hgsi
  have hval : ((ioapicIsaToGsi overrides irq).setWidth 32).toNat = (ioapicIsaToGsi overrides irq).toNat := by
    simp only [BitVec.toNat_setWidth]
    omega
  have hk := slot_of_line hdis (hslot _ hinv) hi hn (hline.trans hval.symm)
  obtain ⟨flags, hmasked, hvector, hdest, -⟩ := hrouted _ _ hinv hk
  have hbit := hbits (ioapicIsaToGsi overrides irq) (i, n) ((hsame.slot _).trans hk)
  -- the vector and the destination are as before
  have hsub : ∀ start len, start + len ≤ 16 ∨ 17 ≤ start →
      (t'.entries (i, n)).extractLsb' start len = (t.entries (i, n)).extractLsb' start len := by
    intro start len h
    refine BitVec.eq_of_getLsbD_eq fun j hj => ?_
    rw [BitVec.getLsbD_extractLsb', BitVec.getLsbD_extractLsb', hbit, if_neg (by omega)]
  have hmask := hbit 16
  rw [if_pos rfl, hmasked] at hmask
  rw [IoApics.raise, hsub 0 8 (by omega), hsub 56 8 (by omega), hvector, hdest, hval, hmask]
  cases hlast : (calls.filter fun c =>
    ioapicIsaToGsi overrides c.2 = ioapicIsaToGsi overrides irq).getLast? with
  | none => simp [LineEnabled, hlast]
  | some c => cases hc : c.1 <;> simp [LineEnabled, hlast, hc, irqToInt]

/-- The timer is enabled, and the interrupt of the second legacy controller too and not any more: it has the
same line. Another one stays enabled. -/
theorem raise_of_calls_twoOverrides : ∃ t t', ioapicInit (fun _ => 7) oneIoApic twoOverrides = some t ∧
    [(true, 0), (true, 9), (true, 2), (false, 2)].foldlM (irqCall twoOverrides) t = some t' ∧
      t'.raise 0 2 = none ∧ t'.raise 0 20 = some (52, 7) := by
  have hfound : ∀ gsi, Involved twoOverrides gsi → gsiToIoapic oneIoApic gsi ≠ none := fun gsi h => by
    rw [gsiToIoapic_ne_none, slot_oneIoApic (toNat_lt_of_involved h)]
    exact Option.some_ne_none _
  obtain ⟨t, ht, hcalls⟩ := raise_of_calls (fun _ => 7) disjointLines_oneIoApic
    (fun gsi h => (toNat_lt_of_involved h).trans (by omega)) hfound
  obtain ⟨t', ht', hraise⟩ := hcalls [(true, 0), (true, 9), (true, 2), (false, 2)] (by decide +kernel)
  exact ⟨t, t', ht, ht', hraise 0 (by decide +kernel) 0 (by decide) 2 (by decide) (by decide +kernel),
    hraise 9 (by decide +kernel) 0 (by decide) 20 (by decide) (by decide +kernel)⟩

end Path

end GeekToyOS
