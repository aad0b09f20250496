import GeekToyOS.Data.Search
import GeekToyOS.Lib.Const

/-!
# Sleeping

`src/kernel/clock.c`: the clock interrupt counts `ticks`, and `clock_sleep` and `clock_sleep_watch_flag`
poll it. What they see is a list, one value a poll; between two polls the interrupt may have run any number
of times. So this is about every way of interleaving the two.

Both loops go on while `ticks` differs from the deadline. A poll that comes too late does not end them.

## Main definitions

* `clockHandler`, `clockSleep`, `clockSleepWatchFlag`
* `pollsAfter` — what the polls see, by the number of interrupts before each
* `SleepsUntil`, `WatchesUntil` — the loop ends at the first poll that it should end at

## Main results

* `sleepsUntil_iff` — when they do
* `clockSleep_pollsAfter` — they do if no two interrupts run between polls
-/

namespace GeekToyOS

/-- `HZ`. -/
def hz : ℕ := 100

/-- `ticks` and `current_timestamp`. -/
structure Clock where
  ticks : ℕ
  currentTimestamp : ℕ
deriving DecidableEq, Repr

/-- `clock_handler`, but for the log. -/
def clockHandler (c : Clock) : Clock :=
  let ticks := wadd c.ticks 1
  ⟨ticks, if ticks % hz = 0 then (c.currentTimestamp + 1) % 2 ^ 32 else c.currentTimestamp⟩

/-- The loop of `clock_sleep`: the poll at which it ends, counted from `n`, if it does. -/
def clockSleepLoop (deadline : ℕ) : List ℕ → ℕ → Option ℕ
  | [], _ => none
  | ticks :: polls, n => if ticks ≠ deadline then clockSleepLoop deadline polls (n + 1) else some n

/-- `clock_sleep`, where `ticks` is `start` at the call. -/
def clockSleep (start sleepTick : ℕ) (polls : List ℕ) : Option ℕ :=
  clockSleepLoop (wadd start sleepTick) polls 0

/-- The loop of `clock_sleep_watch_flag` polls `ticks` and the flag by turns. It ends at a poll, and returns
a value. -/
def clockWatchLoop (deadline : ℕ) (target change : ℤ) : List (ℕ × ℤ) → ℕ → Option (ℕ × ℕ)
  | [], _ => none
  | (ticks, flag) :: polls, n =>
    if ticks ≠ deadline then
      if change ≠ 0 then
        if flag ≠ target then some (n + 1, 1) else clockWatchLoop deadline target change polls (n + 2)
      else
        if flag = target then some (n + 1, 1) else clockWatchLoop deadline target change polls (n + 2)
    else some (n, 0)

/-- `clock_sleep_watch_flag`. -/
def clockSleepWatchFlag (start sleepTick : ℕ) (target change : ℤ) (polls : List (ℕ × ℤ)) :
    Option (ℕ × ℕ) :=
  clockWatchLoop (wadd start sleepTick) target change polls 0

/-! ### What the loops should do -/

/-- A poll of `ticks` or of the flag. -/
inductive Poll
  | ticks (t : ℕ)
  | flag (f : ℤ)
deriving DecidableEq, Repr

/-- The polls of a number of turns. -/
def pollsOf (polls : List (ℕ × ℤ)) : List Poll := polls.flatMap fun p => [.ticks p.1, .flag p.2]

/-- What `clock_sleep_watch_flag` waits for: the flag is not `target`, or it is. -/
def FlagHolds (target change flag : ℤ) : Prop :=
  if change ≠ 0 then flag ≠ target else flag = target

instance (target change flag : ℤ) : Decidable (FlagHolds target change flag) :=
  inferInstanceAs (Decidable (ite _ _ _))

/-- The deadline has passed, or the flag holds. -/
def Poll.ends (deadline : ℕ) (target change : ℤ) : Poll → Bool
  | .ticks t => deadline ≤ t
  | .flag f => FlagHolds target change f

/-- **`clock_sleep` ends at the first poll that sees at least the deadline.** -/
def SleepsUntil (start sleepTick : ℕ) (polls : List ℕ) : Prop :=
  clockSleep start sleepTick polls = polls.findIdx? fun t => start + sleepTick ≤ t

/-- **`clock_sleep_watch_flag` ends at the first poll at which the deadline has passed or the flag holds**,
and returns 1 exactly if the flag held at a poll up to then. -/
def WatchesUntil (start sleepTick : ℕ) (target change : ℤ) (polls : List (ℕ × ℤ)) : Prop :=
  (clockSleepWatchFlag start sleepTick target change polls).map Prod.fst =
      (pollsOf polls).findIdx? (Poll.ends (start + sleepTick) target change) ∧
    ∀ n r, clockSleepWatchFlag start sleepTick target change polls = some (n, r) →
      (r = 1 ↔ ∃ f, .flag f ∈ (pollsOf polls).take (n + 1) ∧ FlagHolds target change f)

/-! ### What they do -/

section Loops

variable {deadline start sleepTick : ℕ} {target change : ℤ}

theorem clockSleepLoop_eq (polls : List ℕ) (n : ℕ) :
    clockSleepLoop deadline polls n = (polls.findIdx? fun t => t = deadline).map (n + ·) := by
  induction polls generalizing n with
  | nil => rfl
  | cons t polls ih =>
    rw [clockSleepLoop, List.findIdx?_cons]
    by_cases h : t = deadline
    · simp [h]
    · rw [if_pos h, ih, if_neg (by simpa using h), Option.map_map]
      refine congrArg (Option.map · _) (funext fun k => ?_)
      exact Nat.add_right_comm n 1 k

/-- The loop ends at this poll. -/
def Poll.stops (deadline : ℕ) (target change : ℤ) : Poll → Bool
  | .ticks t => t = deadline
  | .flag f => FlagHolds target change f

/-- One turn of the loop: it ends at the deadline, ends where the flag is as wanted, or goes on with the
next poll. -/
theorem clockWatchLoop_cons (ticks : ℕ) (flag : ℤ) (polls : List (ℕ × ℤ)) (n : ℕ) :
    clockWatchLoop deadline target change ((ticks, flag) :: polls) n =
      if ticks = deadline then some (n, 0)
      else if FlagHolds target change flag then some (n + 1, 1)
      else clockWatchLoop deadline target change polls (n + 2) := by
  rw [clockWatchLoop]
  by_cases ht : ticks = deadline
  · rw [if_neg (not_not.mpr ht), if_pos ht]
  · rw [if_pos ht, if_neg ht]
    by_cases hc : change ≠ 0
    · simp only [FlagHolds, if_pos hc]
    · simp only [FlagHolds, if_neg hc]

@[simp] theorem pollsOf_cons (ticks : ℕ) (flag : ℤ) (polls : List (ℕ × ℤ)) :
    pollsOf ((ticks, flag) :: polls) = .ticks ticks :: .flag flag :: pollsOf polls := rfl

theorem clockWatchLoop_fst (polls : List (ℕ × ℤ)) (n : ℕ) :
    (clockWatchLoop deadline target change polls n).map Prod.fst =
      ((pollsOf polls).findIdx? (Poll.stops deadline target change)).map (n + ·) := by
  induction polls generalizing n with
  | nil => rfl
  | cons p polls ih =>
    obtain ⟨ticks, flag⟩ := p
    simp only [clockWatchLoop_cons, pollsOf_cons, List.findIdx?_cons, Poll.stops, decide_eq_true_eq]
    by_cases ht : ticks = deadline
    · rw [if_pos ht, if_pos ht]
      rfl
    · rw [if_neg ht, if_neg ht]
      by_cases hf : FlagHolds target change flag
      · rw [if_pos hf, if_pos hf]
        rfl
      · rw [if_neg hf, if_neg hf, ih, Option.map_map, Option.map_map]
        refine congrArg (Option.map · _) (funext fun k => ?_)
        simp only [Function.comp_apply]
        omega

/-- **The loop returns 1 exactly if it saw the flag hold.** -/
theorem clockWatchLoop_snd {polls : List (ℕ × ℤ)} {n m r : ℕ}
    (h : clockWatchLoop deadline target change polls n = some (m, r)) :
    n ≤ m ∧ (r = 1 ↔ ∃ f, .flag f ∈ (pollsOf polls).take (m - n + 1) ∧ FlagHolds target change f) := by
  induction polls generalizing n with
  | nil => cases h
  | cons p polls ih =>
    obtain ⟨ticks, flag⟩ := p
    rw [clockWatchLoop_cons] at h
    rw [pollsOf_cons]
    by_cases ht : ticks = deadline
    · rw [if_pos ht] at h
      obtain ⟨rfl, rfl⟩ := Prod.mk.inj (Option.some.inj h)
      simp
    · rw [if_neg ht] at h
      by_cases hf : FlagHolds target change flag
      · rw [if_pos hf] at h
        obtain ⟨rfl, rfl⟩ := Prod.mk.inj (Option.some.inj h)
        refine ⟨Nat.le_succ n, iff_of_true rfl ⟨flag, ?_, hf⟩⟩
        rw [Nat.add_sub_cancel_left]
        simp
      · rw [if_neg hf] at h
        obtain ⟨hle, hiff⟩ := ih h
        refine ⟨by omega, hiff.trans (exists_congr fun f => and_congr_left fun hf' => ?_)⟩
        rw [show m - n + 1 = m - (n + 2) + 1 + 2 by omega, List.take_succ_cons, List.take_succ_cons,
          List.mem_cons, List.mem_cons]
        refine ⟨fun hin => Or.inr (Or.inr hin), ?_⟩
        rintro (hfst | hsnd | hin)
        · cases hfst
        · obtain rfl := Poll.flag.inj hsnd
          exact absurd hf' hf
        · exact hin

/-! ### When they end where they should -/

/-- The test of the loops is narrower than it should be, and no poll is earlier than `start`. -/
theorem le_of_eq_wadd {t : ℕ} (hsleep : sleepTick < 2 ^ 64) (hle : start ≤ t)
    (h : t = wadd start sleepTick) : start + sleepTick ≤ t := by
  rw [wadd] at h
  omega

theorem eq_wadd_iff {t : ℕ} (ht : t < 2 ^ 64) (hle : start + sleepTick ≤ t) :
    t = wadd start sleepTick ↔ t = start + sleepTick := by
  rw [wadd_of_lt (by omega)]

theorem sleepsUntil_iff_find {polls : List ℕ} (hsleep : sleepTick < 2 ^ 64)
    (hpolls : ∀ t ∈ polls, start ≤ t ∧ t < 2 ^ 64) : SleepsUntil start sleepTick polls ↔
      ∀ t, polls.find? (fun t => start + sleepTick ≤ t) = some t → t = start + sleepTick := by
  rw [SleepsUntil, clockSleep, clockSleepLoop_eq]
  simp only [Nat.zero_add, Option.map_id']
  rw [Search.findIdx?_eq_iff fun t ht h =>
    decide_eq_true (le_of_eq_wadd hsleep (hpolls t ht).1 (of_decide_eq_true h))]
  refine forall₂_congr fun t ht => ?_
  have hle : start + sleepTick ≤ t := by simpa using List.find?_some ht
  rw [decide_eq_true_eq, eq_wadd_iff (hpolls t (List.mem_of_find?_eq_some ht)).2 hle]

theorem watchesUntil_iff_find {polls : List (ℕ × ℤ)} (hsleep : sleepTick < 2 ^ 64)
    (hpolls : ∀ p ∈ polls, start ≤ p.1 ∧ p.1 < 2 ^ 64) :
    WatchesUntil start sleepTick target change polls ↔
      ∀ t, (pollsOf polls).find? (Poll.ends (start + sleepTick) target change) = some (.ticks t) →
        t = start + sleepTick := by
  have hmem : ∀ t, .ticks t ∈ pollsOf polls → start ≤ t ∧ t < 2 ^ 64 := by
    intro t ht
    obtain ⟨p, hp, hpt⟩ := List.mem_flatMap.mp ht
    rcases List.mem_cons.mp hpt with heq | hpt
    · obtain rfl := Poll.ticks.inj heq
      exact hpolls p hp
    · cases List.mem_singleton.mp hpt
  have himp : ∀ p ∈ pollsOf polls, p.stops (wadd start sleepTick) target change →
      p.ends (start + sleepTick) target change := by
    intro p hp h
    cases p with
    | ticks t => exact decide_eq_true (le_of_eq_wadd hsleep (hmem t hp).1 (of_decide_eq_true h))
    | flag f => exact h
  have hreturns : ∀ n r, clockSleepWatchFlag start sleepTick target change polls = some (n, r) →
      (r = 1 ↔ ∃ f, .flag f ∈ (pollsOf polls).take (n + 1) ∧ FlagHolds target change f) :=
    fun n r h => (clockWatchLoop_snd h).2
  rw [WatchesUntil, and_iff_left hreturns, clockSleepWatchFlag, clockWatchLoop_fst]
  simp only [Nat.zero_add, Option.map_id']
  rw [Search.findIdx?_eq_iff himp]
  constructor
  · intro h t ht
    have hle : start + sleepTick ≤ t := by simpa [Poll.ends] using List.find?_some ht
    have hstop : t = wadd start sleepTick := of_decide_eq_true (h _ ht)
    exact (eq_wadd_iff (hmem t (List.mem_of_find?_eq_some ht)).2 hle).mp hstop
  · intro h p hp
    have hends := List.find?_some hp
    cases p with
    | ticks t => exact decide_eq_true ((eq_wadd_iff (hmem t (List.mem_of_find?_eq_some hp)).2
        (of_decide_eq_true hends)).mpr (h t hp))
    | flag f => exact hends

end Loops

/-- **When the loops end where they should**: the poll that ends them, if it is one of `ticks`, sees exactly
the deadline. -/
theorem sleepsUntil_iff {start sleepTick : ℕ} (hsleep : sleepTick < 2 ^ 64) :
    (∀ polls : List ℕ, (start :: polls).Pairwise (· ≤ ·) → (∀ t ∈ polls, t < 2 ^ 64) →
      (SleepsUntil start sleepTick polls ↔
        ∀ t, polls.find? (fun t => start + sleepTick ≤ t) = some t → t = start + sleepTick)) ∧
    ∀ (target change : ℤ) (polls : List (ℕ × ℤ)), (start :: polls.map Prod.fst).Pairwise (· ≤ ·) →
      (∀ p ∈ polls, p.1 < 2 ^ 64) → (WatchesUntil start sleepTick target change polls ↔
        ∀ t, (pollsOf polls).find? (Poll.ends (start + sleepTick) target change) = some (.ticks t) →
          t = start + sleepTick) := by
  refine ⟨fun polls hmono hlt => ?_, fun target change polls hmono hlt => ?_⟩
  · exact sleepsUntil_iff_find hsleep fun t ht => ⟨List.rel_of_pairwise_cons hmono ht, hlt t ht⟩
  · exact watchesUntil_iff_find hsleep fun p hp =>
      ⟨List.rel_of_pairwise_cons hmono (List.mem_map_of_mem hp), hlt p hp⟩

/-- Two ticks, seen one by one; and a flag that changes before. -/
theorem sleepsUntil_iff_twoTicks : SleepsUntil 5 2 [5, 6, 7] ∧
    WatchesUntil 5 2 0 1 [(5, 0), (6, 1)] := by
  obtain ⟨hsleep, hwatch⟩ := @sleepsUntil_iff 5 2 (by norm_num)
  refine ⟨(hsleep _ (by decide) (by decide)).mpr (by decide),
    (hwatch _ _ _ (by decide) (by decide)).mpr fun t ht => ?_⟩
  have hflag : (pollsOf [(5, 0), (6, 1)]).find? (Poll.ends (5 + 2) 0 1) = some (.flag 1) := by
    decide
  cases hflag.symm.trans ht

/-- Two interrupts run between two polls, and `clock_sleep` goes on. -/
theorem not_sleepsUntil_late : ¬ ∀ (start sleepTick : ℕ) (polls : List ℕ), start < 2 ^ 64 →
    sleepTick < 2 ^ 64 → (start :: polls).Pairwise (· ≤ ·) → (∀ t ∈ polls, t < 2 ^ 64) →
    SleepsUntil start sleepTick polls := by
  intro hall
  have h := hall 5 1 [5, 7] (by norm_num) (by norm_num) (by decide) (by decide)
  revert h
  rw [SleepsUntil]
  decide

/-! ### Interrupts between polls -/

/-- What the polls see, with so many interrupts before each. -/
def pollsAfter (c : Clock) : List ℕ → List ℕ
  | [] => []
  | n :: gaps => (clockHandler^[n] c).ticks :: pollsAfter (clockHandler^[n] c) gaps

theorem ticks_iterate_clockHandler (c : Clock) (n : ℕ) (h : c.ticks + n < 2 ^ 64) :
    (clockHandler^[n] c).ticks = c.ticks + n := by
  induction n with
  | zero => rfl
  | succ n ih =>
    rw [Function.iterate_succ_apply', clockHandler]
    dsimp only
    rw [ih (by omega), wadd_of_lt (by omega), Nat.add_assoc]

/-- What the polls see does not decrease, as long as the ticks do not wrap around. -/
theorem pollsAfter_pairwise (c : Clock) (gaps : List ℕ) (h : c.ticks + gaps.sum < 2 ^ 64) :
    (c.ticks :: pollsAfter c gaps).Pairwise (· ≤ ·) ∧ ∀ t ∈ pollsAfter c gaps, t < 2 ^ 64 := by
  induction gaps generalizing c with
  | nil => exact ⟨List.pairwise_singleton _ _, fun t ht => absurd ht List.not_mem_nil⟩
  | cons n gaps ih =>
    rw [List.sum_cons] at h
    have hn := ticks_iterate_clockHandler c n (by omega)
    obtain ⟨hmono, hlt⟩ := ih (clockHandler^[n] c) (by omega)
    rw [pollsAfter]
    refine ⟨List.pairwise_cons.mpr ⟨fun t ht => ?_, hmono⟩, fun t ht => ?_⟩
    · rcases List.mem_cons.mp ht with rfl | ht
      · omega
      · have := List.rel_of_pairwise_cons hmono ht
        omega
    · rcases List.mem_cons.mp ht with rfl | ht
      · omega
      · exact hlt t ht

/-- **`clock_sleep` ends in time if no two interrupts run between polls.** -/
theorem clockSleep_pollsAfter (c : Clock) (gaps : List ℕ) (sleepTick : ℕ)
    (h : c.ticks + gaps.sum < 2 ^ 64) (hgaps : ∀ n ∈ gaps, n ≤ 1) (hpos : 0 < sleepTick)
    (hsleep : sleepTick < 2 ^ 64) : SleepsUntil c.ticks sleepTick (pollsAfter c gaps) := by
  obtain ⟨hmono, hlt⟩ := pollsAfter_pairwise c gaps h
  refine (sleepsUntil_iff_find hsleep fun t ht =>
    ⟨List.rel_of_pairwise_cons hmono ht, hlt t ht⟩).mpr fun t ht => ?_
  clear hmono hlt
  -- up to the deadline, every poll sees at most one tick more than the one before
  have hexact : ∀ (gaps : List ℕ) (c : Clock) (d : ℕ), c.ticks + gaps.sum < 2 ^ 64 →
      (∀ n ∈ gaps, n ≤ 1) → c.ticks < d →
      (pollsAfter c gaps).find? (fun t => d ≤ t) = some t → t = d := by
    intro gaps
    induction gaps with
    | nil => exact fun c d _ _ _ ht => absurd ht (Option.some_ne_none t).symm
    | cons n gaps ih =>
      intro c d hsum hgaps hd ht
      rw [List.sum_cons] at hsum
      have hn := ticks_iterate_clockHandler c n (by omega)
      have hn1 := hgaps n List.mem_cons_self
      rw [pollsAfter] at ht
      by_cases hle : d ≤ (clockHandler^[n] c).ticks
      · rw [List.find?_cons_of_pos (by simpa using hle)] at ht
        obtain rfl := Option.some.inj ht
        omega
      · rw [List.find?_cons_of_neg (by simpa using hle)] at ht
        exact ih _ d (by omega) (fun n hn => hgaps n (List.mem_cons_of_mem _ hn)) (by omega) ht
  exact hexact gaps c _ h hgaps (Nat.lt_add_of_pos_right hpos) ht

end GeekToyOS
