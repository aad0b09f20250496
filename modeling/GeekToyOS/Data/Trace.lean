import Mathlib.Data.List.Basic

/-!
# Runs of a transition system

A run is recorded as the list of its events, each with the state it led to. The rules below turn
facts about one step into facts about every state of a run.

`invariant` is the usual rule, for runs whose steps all satisfy a side condition `ok`.
`invariant_iff` is its sharpening: when a step outside `ok` spoils the property at once, the runs that
keep the property throughout are exactly the runs whose steps all satisfy `ok`.

## Main definitions

* `Run step s l` — `l` is a run from `s`
* `states s l` — every state of a run, the first included
* `StepsOk ok s l` — every step of the run satisfies `ok`
* `exec next s es` — the run with given events, where the steps are computed
-/

namespace Trace

variable {σ ε : Type*} {step : σ → ε → σ → Prop} {ok : σ → ε → Prop} {I P : σ → Prop}

/-- `Run step s l`: from `s` the events of `l` happen one after the other. -/
inductive Run (step : σ → ε → σ → Prop) : σ → List (ε × σ) → Prop
  | nil (s : σ) : Run step s []
  | cons {s s' : σ} {e : ε} {l : List (ε × σ)} (hstep : step s e s') (hrest : Run step s' l) :
      Run step s ((e, s') :: l)

/-- Every state of the run, the first included. -/
def states (s : σ) (l : List (ε × σ)) : List σ := s :: l.map Prod.snd

/-- Every step of the run is taken where `ok` allows it. -/
def StepsOk (ok : σ → ε → Prop) : σ → List (ε × σ) → Prop
  | _, [] => True
  | s, (e, s') :: l => ok s e ∧ StepsOk ok s' l

theorem mem_states_cons {s s' : σ} {e : ε} {l : List (ε × σ)} {t : σ} :
    t ∈ states s ((e, s') :: l) ↔ t = s ∨ t ∈ states s' l := by
  simp [states]

theorem self_mem_states (s : σ) (l : List (ε × σ)) : s ∈ states s l := List.mem_cons_self

theorem StepsOk.mono {ok' : σ → ε → Prop} (hmono : ∀ s e, ok s e → ok' s e) {s : σ}
    {l : List (ε × σ)} (h : StepsOk ok s l) : StepsOk ok' s l := by
  induction l generalizing s with
  | nil => trivial
  | cons p l ih => exact ⟨hmono s p.1 h.1, ih h.2⟩

/-- **The invariant rule**: what holds at the start and is kept by the steps that are allowed holds in every
state of a run of them. -/
theorem invariant (hstep : ∀ {s e s'}, I s → ok s e → step s e s' → I s') {s : σ}
    {l : List (ε × σ)} (hrun : Run step s l) (hs : I s) (hok : StepsOk ok s l) :
    ∀ t ∈ states s l, I t := by
  induction hrun with
  | nil s =>
    intro t ht
    rw [List.mem_singleton.mp ht]
    exact hs
  | cons hst _ ih =>
    intro t ht
    rcases mem_states_cons.mp ht with rfl | ht
    · exact hs
    · exact ih (hstep hs hok.1 hst) hok.2 t ht

/-- The invariant rule where every step is allowed. -/
theorem always (hstep : ∀ {s e s'}, I s → step s e s' → I s') {s : σ} {l : List (ε × σ)}
    (hrun : Run step s l) (hs : I s) : ∀ t ∈ states s l, I t := by
  have hok : StepsOk (fun _ _ => True) s l := by
    clear hrun hs
    induction l generalizing s with
    | nil => trivial
    | cons e l ih => exact ⟨trivial, ih⟩
  exact invariant (fun hI _ hst => hstep hI hst) hrun hs hok

/-- The invariant rule for what is to hold whenever a step is taken. -/
theorem steps (hstep : ∀ {s e s'}, I s → ok s e → step s e s' → I s')
    {ok' : σ → ε → Prop} (himp : ∀ {s e}, I s → ok' s e) {s : σ} {l : List (ε × σ)}
    (hrun : Run step s l) (hs : I s) (hok : StepsOk ok s l) : StepsOk ok' s l := by
  induction hrun with
  | nil s => trivial
  | cons hst _ ih => exact ⟨himp hs, ih (hstep hs hok.1 hst) hok.2⟩

/-- **The invariant rule as an equivalence.** If allowed steps preserve an invariant that implies `P`,
and a step from an invariant state that is not allowed leads outside `P`, then `P` holds all along a
run exactly when all its steps are allowed. -/
theorem invariant_iff (hstep : ∀ {s e s'}, I s → ok s e → step s e s' → I s')
    (himp : ∀ {s}, I s → P s) (hbad : ∀ {s e s'}, I s → ¬ ok s e → step s e s' → ¬ P s') {s : σ}
    {l : List (ε × σ)} (hrun : Run step s l) (hs : I s) :
    (∀ t ∈ states s l, P t) ↔ StepsOk ok s l := by
  refine ⟨fun hP => ?_, fun hok t ht => himp (invariant (I := I) hstep hrun hs hok t ht)⟩
  induction hrun with
  | nil s => trivial
  | @cons s s' e l hst _ ih =>
    have hP' : ∀ t ∈ states s' l, P t := fun t ht => hP t (mem_states_cons.mpr (Or.inr ht))
    have hok : ok s e := by
      by_contra hne
      exact hbad hs hne hst (hP' s' (self_mem_states s' l))
    exact ⟨hok, ih (hstep hs hok hst) hP'⟩

/-! ### Runs of a function -/

section Exec

variable {next : σ → ε → Option σ}

instance StepsOk.instDecidable [∀ s e, Decidable (ok s e)] (s : σ) (l : List (ε × σ)) :
    Decidable (StepsOk ok s l) :=
  match l with
  | [] => inferInstanceAs (Decidable True)
  | (_, s') :: l => @instDecidableAnd _ _ inferInstance (instDecidable s' l)

/-- The run from `s` with the given events, if each can happen. -/
def exec (next : σ → ε → Option σ) : σ → List ε → Option (List (ε × σ))
  | _, [] => some []
  | s, e :: es => (next s e).bind fun s' => (exec next s' es).map ((e, s') :: ·)

theorem run_of_exec {s : σ} {es : List ε} {l : List (ε × σ)} (hexec : exec next s es = some l) :
    Run (fun s e s' => next s e = some s') s l := by
  induction es generalizing s l with
  | nil =>
    obtain rfl := Option.some.inj hexec
    exact .nil s
  | cons _ es ih =>
    obtain ⟨s', hs', hrest⟩ := Option.bind_eq_some_iff.mp hexec
    obtain ⟨l', hl', rfl⟩ := Option.map_eq_some_iff.mp hrest
    exact .cons hs' (ih hl')

theorem map_fst_of_exec {s : σ} {es : List ε} {l : List (ε × σ)} (hexec : exec next s es = some l) :
    l.map Prod.fst = es := by
  induction es generalizing s l with
  | nil =>
    obtain rfl := Option.some.inj hexec
    rfl
  | cons _ es ih =>
    obtain ⟨s', -, hrest⟩ := Option.bind_eq_some_iff.mp hexec
    obtain ⟨l', hl', rfl⟩ := Option.map_eq_some_iff.mp hrest
    rw [List.map_cons, ih hl']

end Exec

end Trace
