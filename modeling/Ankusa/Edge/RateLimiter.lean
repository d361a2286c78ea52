import Ankusa.Lib.LeakyBucket
import Ankusa.Lib.Run
import Mathlib.Data.Rat.Floor

set_option autoImplicit false

/-! # A rate-limit bucket under concurrent hits

`RateLimiter.hit_bucket` of `edge/rate_limiter.ex`: one row of a shared table holds the arrival time
of a bucket, and every caller reads its clock, looks the row up and swaps it, each a step of its own
between which any other caller or the idle-row sweep may run. A lost swap starts over with a new
clock.

A sweep drops a row whose arrival time has passed, which no hit that reads its clock later can tell
(`sweep_verdict`). A caller that read its clock *before* is another matter: it charges the bucket at
a time that is over, so what it admits is not there any more when the next caller comes
(`staleCallers_overshoot`). `Current` asks of a swap that admits that its clock is the time of the
swap, or that the row is not behind that time anyway; then the bucket keeps its bound
(`window_le_of_current`). -/

namespace Ankusa.RateLimiter

open LeakyBucket List Run

/-! ## Limits -/

/-- A bucket that refills `rate` units a second with room for `burst` of them, in a clock of
    `unitsPerSecond`. -/
structure Limit where
  unitsPerSecond : Nat
  rate : ℚ
  burst : Nat

/-- The ticks one unit takes to refill. -/
def Limit.interval (l : Limit) : Int := max 1 ⌊(l.unitsPerSecond : ℚ) / l.rate + 1 / 2⌋

/-- `gcra`: what `cost` units move the arrival time by, never more than the whole bucket, and the
    bucket's capacity. -/
def gcra (l : Limit) (cost : Nat) : Int × Int :=
  (min (cost * l.interval) (l.interval * l.burst), l.interval * l.burst)

/-- What the bucket holds. -/
def Limit.capacity (l : Limit) : Int := (gcra l 1).2

/-- What a hit of a cost puts into the bucket. -/
def Limit.increment (l : Limit) (cost : Nat) : Int := (gcra l cost).1

theorem Limit.interval_pos (l : Limit) : 0 < l.interval := lt_of_lt_of_le one_pos (le_max_left 1 _)

theorem Limit.capacity_nonneg (l : Limit) : 0 ≤ l.capacity :=
  mul_nonneg l.interval_pos.le (Int.natCast_nonneg _)

theorem Limit.increment_nonneg (l : Limit) (cost : Nat) : 0 ≤ l.increment cost :=
  le_min (mul_nonneg (Int.natCast_nonneg _) l.interval_pos.le) l.capacity_nonneg

theorem Limit.increment_le (l : Limit) (cost : Nat) : l.increment cost ≤ l.capacity :=
  min_le_right _ _

/-- Ticks as milliseconds, rounded up and at least one. -/
def Limit.retryAfterMs (l : Limit) (ticks : Int) : Int :=
  max 1 ((ticks * 1000000 / l.unitsPerSecond + 999) / 1000)

/-- What a hit makes of the row it has looked up. -/
inductive Verdict where
  | allow (tat : Int)
  | deny (retryAfterMs : Int)

/-- The decision of `hit_bucket`. A missing row is a full bucket and always admits. -/
def verdict (l : Limit) (cost : Nat) (now : Int) : Option Int → Verdict
  | none => .allow (now + l.increment cost)
  | some tat =>
    let newTat := max tat now + l.increment cost
    let allowAt := newTat - l.capacity
    if now < allowAt then .deny (l.retryAfterMs (allowAt - now)) else .allow newTat

variable {now : Int} {row : Option Int} {cost i : Nat} {tat : Int}

/-- A hit that is admitted starts where the row stands, and leaves it within the capacity. -/
theorem admit_of_verdict {l : Limit} (h : verdict l cost now row = .allow tat) :
    tat = raise row now + l.increment cost ∧ tat ≤ now + l.capacity := by
  have hle := l.increment_le cost
  cases row with
  | none =>
    obtain rfl := Verdict.allow.inj h
    exact ⟨rfl, by omega⟩
  | some =>
    simp only [verdict] at h
    split_ifs at h with hlate
    obtain rfl := Verdict.allow.inj h
    exact ⟨rfl, by omega⟩

theorem verdict_of_passed (l : Limit) (cost : Nat) (h : tat ≤ now) :
    verdict l cost now (some tat) = verdict l cost now none := by
  have hle := l.increment_le cost
  simp only [verdict, max_eq_right h]
  rw [if_neg (by omega)]

/-! ## The bucket and its callers -/

/-- Where a caller of `hit_bucket` is: at its clock read, at its lookup, or at its swap. -/
inductive Phase where
  | started
  | clocked (now : Int)
  | looked (now : Int) (row : Option Int)

/-- A hit under way. -/
structure Call where
  cost : Nat
  phase : Phase

/-- The clock, the bucket's row, the callers in `hit_bucket`, the clocks of the sweeps that have not
    deleted yet, and the charges admitted so far, newest first. -/
structure State where
  time : Int
  row : Option Int
  calls : List Call
  sweeps : List Int
  admitted : List Charge

/-- The events of the table. -/
inductive Event where
  | tick (time : Int)
  | hit (cost : Nat)
  | clock (i : Nat)
  | lookup (i : Nat)
  | swap (i : Nat)
  | sweepClock
  | sweep (i : Nat)

/-- The caller goes on from `p`. -/
def State.setPhase (s : State) (i : Nat) (c : Call) (p : Phase) : State :=
  { s with calls := s.calls.set i { c with phase := p } }

/-- The caller decides: a denied hit writes nothing, an admitted one swaps the row it has looked up,
    and starts over when that row is not there any more. -/
def swap (l : Limit) (s : State) (i : Nat) (c : Call) (now : Int) (row : Option Int) : State :=
  match verdict l c.cost now row with
  | .deny _ => { s with calls := s.calls.eraseIdx i }
  | .allow tat =>
    if s.row = row then
      { s with
        row := some tat
        calls := s.calls.eraseIdx i
        admitted := ⟨s.time, l.increment c.cost⟩ :: s.admitted }
    else s.setPhase i c .started

/-- The sweep drops the row when its arrival time is not later than the sweep's clock. -/
def swept (now : Int) : Option Int → Option Int
  | some tat => if tat ≤ now then none else some tat
  | none => none

/-- Each read and each write of a hit, or of the sweep, is one step. -/
def step (l : Limit) (s : State) : Event → Option State
  | .tick time => if s.time ≤ time then some { s with time } else none
  | .hit cost => some { s with calls := s.calls ++ [⟨cost, .started⟩] }
  | .clock i =>
    match s.calls[i]? with
    | some ⟨cost, .started⟩ => some (s.setPhase i ⟨cost, .started⟩ (.clocked s.time))
    | _ => none
  | .lookup i =>
    match s.calls[i]? with
    | some ⟨cost, .clocked now⟩ => some (s.setPhase i ⟨cost, .clocked now⟩ (.looked now s.row))
    | _ => none
  | .swap i =>
    match s.calls[i]? with
    | some ⟨cost, .looked now row⟩ => some (swap l s i ⟨cost, .looked now row⟩ now row)
    | _ => none
  | .sweepClock => some { s with sweeps := s.sweeps ++ [s.time] }
  | .sweep i =>
    match s.sweeps[i]? with
    | some now => some { s with row := swept now s.row, sweeps := s.sweeps.eraseIdx i }
    | none => none

/-- No row and no hit. -/
def boot (time : Int) : State := ⟨time, none, [], [], []⟩

/-! ## What every step keeps -/

/-- The clock a caller has read. -/
def Phase.now? : Phase → Option Int
  | .started => none
  | .clocked now => some now
  | .looked now _ => some now

/-- The clocks read so far are not ahead of the time. -/
structure Clocks (s : State) : Prop where
  calls : ∀ c ∈ s.calls, ∀ now, c.phase.now? = some now → now ≤ s.time
  sweeps : ∀ now ∈ s.sweeps, now ≤ s.time
  admitted : ∀ c ∈ s.admitted, c.time ≤ s.time

variable {l : Limit} {s t : State} {e : Event}

theorem Clocks.setPhase (h : Clocks s) (i : Nat) (c : Call) {p : Phase}
    (hp : ∀ now, p.now? = some now → now ≤ s.time) : Clocks (s.setPhase i c p) :=
  { h with
    calls := by
      intro c' hc' now hnow
      rcases mem_or_eq_of_mem_set hc' with hold | rfl
      · exact h.calls c' hold now hnow
      · exact hp now hnow }

theorem Clocks.swap (h : Clocks s) (i : Nat) (c : Call) (now : Int) (row : Option Int) :
    Clocks (swap l s i c now row) := by
  have herase : ∀ c' ∈ s.calls.eraseIdx i, ∀ now, c'.phase.now? = some now → now ≤ s.time :=
    fun c' hc' => h.calls c' (mem_of_mem_eraseIdx hc')
  unfold RateLimiter.swap
  split
  · exact { h with calls := herase }
  · split_ifs
    · exact ⟨herase, h.sweeps, forall_mem_cons.2 ⟨le_rfl, h.admitted⟩⟩
    · exact h.setPhase i c nofun

theorem Clocks.step (h : Clocks s) (hstep : RateLimiter.step l s e = some t) : Clocks t := by
  cases e with
  | tick =>
    obtain ⟨hle, rfl⟩ := guarded hstep
    exact ⟨fun c hc now hnow => (h.calls c hc now hnow).trans hle,
      fun now hnow => (h.sweeps now hnow).trans hle, fun c hc => (h.admitted c hc).trans hle⟩
  | hit =>
    cases hstep
    exact { h with calls := forall_mem_append.2 ⟨h.calls, forall_mem_singleton.2 nofun⟩ }
  | clock i =>
    simp only [RateLimiter.step] at hstep
    split at hstep
    · cases hstep
      exact h.setPhase i _ fun now hnow => (Option.some.inj hnow).ge
    · cases hstep
  | lookup i =>
    simp only [RateLimiter.step] at hstep
    split at hstep
    next hget =>
      cases hstep
      refine h.setPhase i _ fun now' hnow => ?_
      exact h.calls _ (mem_of_getElem? hget) now' hnow
    · cases hstep
  | swap i =>
    simp only [RateLimiter.step] at hstep
    split at hstep
    · cases hstep
      exact h.swap i _ _ _
    · cases hstep
  | sweepClock =>
    cases hstep
    exact ⟨h.calls, forall_mem_append.2 ⟨h.sweeps, forall_mem_singleton.2 le_rfl⟩, h.admitted⟩
  | sweep =>
    simp only [RateLimiter.step] at hstep
    split at hstep
    · cases hstep
      exact ⟨h.calls, fun now hnow => h.sweeps now (mem_of_mem_eraseIdx hnow), h.admitted⟩
    · cases hstep

/-- A sweep changes no answer of a hit that reads its clock when the sweep deletes, or later. -/
theorem sweep_verdict (h : Clocks s) (hstep : step l s (.sweep i) = some t) (cost : Nat)
    (hnow : s.time ≤ now) : verdict l cost now t.row = verdict l cost now s.row := by
  simp only [step] at hstep
  split at hstep
  next clock hget =>
    cases hstep
    have hclock : clock ≤ now := (h.sweeps clock (mem_of_getElem? hget)).trans hnow
    cases hrow : s.row with
    | none => rfl
    | some =>
      simp only [swept]
      split_ifs with hpassed
      · exact (verdict_of_passed l cost (hpassed.trans hclock)).symm
      · rfl
  · cases hstep

/-! ## The bound -/

/-- A swap that admits is made at the time of its clock, or finds the row not behind the time. -/
def Current (l : Limit) (s : State) : Event → Prop
  | .swap i => ∀ cost now row, s.calls[i]? = some ⟨cost, .looked now row⟩ → s.row = row →
      (∃ tat, verdict l cost now row = .allow tat) → raise row s.time = raise row now
  | _ => True

/-- The row covers the admitted charges, each of which was within the capacity. -/
structure Metered (l : Limit) (s : State) : Prop where
  clocks : Clocks s
  covers : Covers s.time s.row s.admitted
  admitted : Admitted l.capacity s.admitted
  timed : Timed s.admitted

/-- A sweep drops only a row that covers nothing any more. -/
theorem covers_swept {clock : Int} {cs : List Charge} (h : Covers now row cs)
    (hclock : clock ≤ now) : Covers now (swept clock row) cs := by
  cases row with
  | none => exact h
  | some =>
    simp only [swept]
    split_ifs with hpassed
    · exact h.forget (hpassed.trans hclock)
    · exact h

theorem Metered.swap (h : Metered l s)
    (hget : s.calls[i]? = some ⟨cost, .looked now row⟩) (hok : Current l s (.swap i)) :
    Metered l (swap l s i ⟨cost, .looked now row⟩ now row) := by
  have hclocks := h.clocks.swap (l := l) i ⟨cost, .looked now row⟩ now row
  unfold RateLimiter.swap at hclocks ⊢
  cases hverdict : verdict l cost now row with
  | deny =>
    simp only [hverdict] at hclocks ⊢
    exact { h with clocks := hclocks }
  | allow tat =>
    simp only [hverdict] at hclocks ⊢
    split_ifs at hclocks ⊢ with hrow
    · obtain ⟨htat, hfits⟩ := admit_of_verdict hverdict
      have hle : now ≤ s.time := h.clocks.calls _ (mem_of_getElem? hget) now rfl
      -- The charge starts where it would start had the caller read its clock just now.
      have hraise := hok cost now row hget hrow ⟨tat, hverdict⟩
      rw [← hraise, ← hrow] at htat
      refine ⟨hclocks, ?_, h.admitted.charge h.covers ?_, h.timed.cons (l.increment_nonneg cost) ?_⟩
      · rw [htat]
        exact h.covers.charge
      · omega
      · exact h.clocks.admitted
    · exact { h with clocks := hclocks }

theorem Metered.step (h : Metered l s) (hok : Current l s e)
    (hstep : RateLimiter.step l s e = some t) : Metered l t := by
  have hclocks := h.clocks.step hstep
  cases e with
  | tick =>
    obtain ⟨hle, rfl⟩ := guarded hstep
    exact ⟨hclocks, h.covers.later hle, h.admitted, h.timed⟩
  | hit | sweepClock =>
    cases hstep
    exact { h with clocks := hclocks }
  | clock | lookup =>
    simp only [RateLimiter.step] at hstep
    split at hstep
    · cases hstep
      exact { h with clocks := hclocks }
    · cases hstep
  | swap =>
    simp only [RateLimiter.step] at hstep
    split at hstep
    next hget =>
      cases hstep
      exact h.swap hget hok
    · cases hstep
  | sweep =>
    simp only [RateLimiter.step] at hstep
    split at hstep
    next clock hget =>
      cases hstep
      have hclock : clock ≤ s.time := h.clocks.sweeps clock (mem_of_getElem? hget)
      exact ⟨hclocks, covers_swept h.covers hclock, h.admitted, h.timed⟩
    · cases hstep

theorem Metered.boot (l : Limit) (time : Int) : Metered l (boot time) where
  clocks := ⟨forall_mem_nil _, forall_mem_nil _, (forall_mem_nil _)⟩
  covers := .nil _ _
  admitted := trivial
  timed := .nil

/-- **What a bucket admits.** In a run whose admitting swaps are current, the hits admitted by steps
    of any window of length `T` cost at most the capacity and `T`; and a sweep of the state reached
    changes no answer a later hit gets. -/
theorem window_le_of_current {start : Int} {es : List Event}
    (hok : Run.Along (step l) (Current l) (boot start) es)
    (hs : Run.exec (step l) (boot start) es = some s) :
    (∀ a T, 0 ≤ T → spent a (a + T) s.admitted ≤ l.capacity + T) ∧
      ∀ i t, step l s (.sweep i) = some t → ∀ cost now, s.time ≤ now →
        verdict l cost now t.row = verdict l cost now s.row := by
  have hmetered : Metered l s := invariant_along
    (fun _ _ _ hi hp hstep => hi.step hp hstep) (Metered.boot l start) hok hs
  exact ⟨fun a T hT => hmetered.admitted.window_le hmetered.timed l.capacity_nonneg a hT,
    fun i t hstep cost now hnow => sweep_verdict hmetered.clocks hstep cost hnow⟩

/-! ## Two runs -/

instance Current.decidable (l : Limit) (s : State) (e : Event) : Decidable (Current l s e) := by
  unfold Current
  split
  next i =>
    match s.calls[i]? with
    | some ⟨cost, .looked now row⟩ =>
      have : Decidable (∃ tat, verdict l cost now row = .allow tat) :=
        match verdict l cost now row with
        | .allow tat => isTrue ⟨tat, rfl⟩
        | .deny _ => isFalse fun ⟨_, h⟩ => by cases h
      exact decidable_of_iff (s.row = row → (∃ tat, verdict l cost now row = .allow tat) →
        raise row s.time = raise row now)
        ⟨fun h _ _ _ heq => by cases heq; exact h, fun h => h cost now row rfl⟩
    | some ⟨_, .started⟩ | some ⟨_, .clocked _⟩ | none => exact isTrue fun _ _ _ heq => by cases heq
  · infer_instance

/-- One hook a second, two back to back, in a clock of ten ticks a second. -/
def onePerSecond : Limit := ⟨10, 1, 2⟩

/-- Two callers race for one bucket, the loser starts over, and a sweep comes long after. -/
def racingCallers : List Event :=
  [.hit 1, .hit 1, .clock 0, .clock 1, .lookup 0, .lookup 1, .swap 0, .swap 0, .clock 0,
    .lookup 0, .swap 0, .tick 50, .sweepClock]

theorem racingCallers_bounded : ∃ s t, Run.exec (step onePerSecond)
    (boot 0) racingCallers = some s ∧ s.admitted = [⟨0, 10⟩, ⟨0, 10⟩] ∧ s.row = some 20 ∧
    step onePerSecond s (.sweep 0) = some t ∧ t.row = none ∧
    spent 0 (0 + 0) s.admitted ≤ onePerSecond.capacity + 0 ∧
    verdict onePerSecond 1 50 t.row = verdict onePerSecond 1 50 s.row := by
  have hok : Along (step onePerSecond) (Current onePerSecond) (boot 0) racingCallers := by
    decide +kernel
  have hrun : ∃ s, exec (step onePerSecond) (boot 0) racingCallers = some s ∧
      (s.admitted = [⟨0, 10⟩, ⟨0, 10⟩] ∧ s.row = some 20 ∧ s.time = 50 ∧
        ((step onePerSecond s (.sweep 0)).any fun t => t.row = none) = true) :=
    of_exec (by decide +kernel)
  obtain ⟨s, hs, hadmitted, hrow, htime, hsweep⟩ := hrun
  obtain ⟨t, ht, hnone⟩ := (Option.any_eq_true _ _).1 hsweep
  obtain ⟨hwindow, hverdict⟩ := window_le_of_current hok hs
  exact ⟨s, t, hs, hadmitted, hrow, ht, of_decide_eq_true hnone, hwindow 0 0 le_rfl,
    hverdict 0 t ht 1 50 htime.le⟩

/-- Two callers read their clocks, and are held up until another two read theirs. -/
def staleCallers : List Event :=
  [.hit 1, .hit 1, .clock 0, .clock 1, .tick 100, .hit 1, .hit 1, .clock 2, .clock 3,
    .lookup 0, .swap 0, .lookup 0, .swap 0, .lookup 0, .swap 0, .lookup 0, .swap 0]

/-- All four are admitted at once, two of them into a bucket whose row says it is empty again. -/
theorem staleCallers_overshoot : ∃ s, Run.exec (step onePerSecond) (boot 0) staleCallers = some s ∧
    s.admitted = [⟨100, 10⟩, ⟨100, 10⟩, ⟨100, 10⟩, ⟨100, 10⟩] ∧
    ¬ spent 100 (100 + 0) s.admitted ≤ onePerSecond.capacity + 0 :=
  of_exec (by decide +kernel)

end Ankusa.RateLimiter
