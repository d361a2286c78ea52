import Ankusa.Edge.RateLimiter

set_option autoImplicit false

/-! # A source's quarantine bucket

`charge/3`, `refund/3` and the bucket sweep of `edge/quarantine.ex`. A put pays one token of its
source's bucket first; what refuses the hook afterwards (a full pen, too many waiting writes, a
failed write) gives the token back by moving the row's arrival time back by the token's increment,
whatever became of the row in the meantime. Each step here is made at the clock of that step.

A token the bucket has leaked already is given back all the same, so a source whose puts fail late
is owed twice (`lateRefund_overshoot`). `Prompt` asks of a refund that the other charges have leaked
by now, or that no other charge came after the bucket began to leak the refunded one; then the
charges that were not refunded keep the bucket's bound (`kept_window_le_of_prompt`). -/

namespace Ankusa.Quarantine.Bucket

open LeakyBucket List Run
open RateLimiter (Limit Verdict verdict admit_of_verdict swept onePerSecond)

/-- What became of the put that paid a charge: it waits for the pen, it keeps its token (the hook is
    on disk, or its caller gave up waiting), or it was refused and refunded. -/
inductive Outcome where
  | waiting
  | kept
  | refunded
  deriving DecidableEq, Repr

/-- A put: when it was charged and what became of it. -/
structure Put where
  time : Int
  outcome : Outcome
  deriving DecidableEq, Repr

/-- The clock, the source's row, and the puts that were charged, newest first. -/
structure State where
  time : Int
  row : Option Int
  puts : List Put

/-- What one token moves the arrival time by. -/
def token (l : Limit) : Int := l.increment 1

/-- The charges that were not refunded, newest first. -/
def charges (l : Limit) (puts : List Put) : List Charge :=
  (puts.filter fun p => p.outcome ≠ .refunded).map fun p => ⟨p.time, token l⟩

/-- The events of the bucket. -/
inductive Event where
  | tick (time : Int)
  | charge
  | keep (i : Nat)
  | refund (i : Nat)
  | sweep

/-- `refund/3`: a row that is gone has nothing to give back to. -/
def refund (increment : Int) (row : Option Int) : Option Int := row.map (· - increment)

/-- A put is charged, kept or refunded, or the row is swept. -/
def step (l : Limit) (s : State) : Event → Option State
  | .tick time => if s.time ≤ time then some { s with time } else none
  | .charge =>
    match verdict l 1 s.time s.row with
    | .allow tat => some { s with row := some tat, puts := ⟨s.time, .waiting⟩ :: s.puts }
    | .deny _ => some s
  | .keep i =>
    match s.puts[i]? with
    | some ⟨time, .waiting⟩ => some { s with puts := s.puts.set i ⟨time, .kept⟩ }
    | _ => none
  | .refund i =>
    match s.puts[i]? with
    | some ⟨time, .waiting⟩ =>
      some { s with
        row := refund (token l) s.row
        puts := s.puts.set i ⟨time, .refunded⟩ }
    | _ => none
  | .sweep => some { s with row := swept s.time s.row }

/-- No row and no put. -/
def boot (time : Int) : State := ⟨time, none, []⟩

/-! ## The charges of the puts -/

variable {l : Limit} {s t : State} {e : Event}

theorem charges_append (ps qs : List Put) :
    charges l (ps ++ qs) = charges l ps ++ charges l qs := by
  simp only [charges, filter_append, map_append]

theorem charges_cons_waiting (time : Int) (ps : List Put) :
    charges l (⟨time, .waiting⟩ :: ps) = ⟨time, token l⟩ :: charges l ps := rfl

theorem charges_cons_kept (time : Int) (ps : List Put) :
    charges l (⟨time, .kept⟩ :: ps) = ⟨time, token l⟩ :: charges l ps := rfl

theorem charges_cons_refunded (time : Int) (ps : List Put) :
    charges l (⟨time, .refunded⟩ :: ps) = charges l ps := rfl

variable {ps : List Put} {i : Nat} {p : Put} {time : Int}

/-- The puts around the `i`-th one. -/
theorem puts_eq (h : ps[i]? = some p) : ps = ps.take i ++ p :: ps.drop (i + 1) := by
  obtain ⟨hi, rfl⟩ := List.getElem?_eq_some_iff.1 h
  rw [getElem_cons_drop, take_append_drop]

theorem puts_set_eq (h : ps[i]? = some p) (q : Put) :
    ps.set i q = ps.take i ++ q :: ps.drop (i + 1) := by
  obtain ⟨hi, -⟩ := List.getElem?_eq_some_iff.1 h
  rw [set_eq_take_append_cons_drop, if_pos hi]

theorem charges_keep (h : ps[i]? = some ⟨time, .waiting⟩) :
    charges l (ps.set i ⟨time, .kept⟩) = charges l ps := by
  conv => rhs; rw [puts_eq h]
  rw [puts_set_eq h, charges_append, charges_append, charges_cons_kept, charges_cons_waiting]

/-! ## The bound -/

/-- A refund comes when the other charges have leaked, or when no charge has been made since the
    bucket began to leak the one it takes back. -/
def Prompt (l : Limit) (s : State) : Event → Prop
  | .refund i => ∀ p ∈ s.puts[i]?,
      raise (arrival (charges l (s.puts.take i) ++ charges l (s.puts.drop (i + 1)))) s.time ≤
      s.time ∨
      ∀ c ∈ charges l (s.puts.take i),
      c.time ≤ raise (arrival (charges l (s.puts.drop (i + 1)))) p.time
  | _ => True

instance Prompt.decidable (l : Limit) (s : State) (e : Event) : Decidable (Prompt l s e) := by
  unfold Prompt
  split <;> infer_instance

/-- The row covers the charges that were not refunded, and each of them was within the capacity. -/
structure Metered (l : Limit) (s : State) : Prop where
  past : ∀ c ∈ charges l s.puts, c.time ≤ s.time
  covers : Covers s.time s.row (charges l s.puts)
  admitted : Admitted l.capacity (charges l s.puts)
  timed : Timed (charges l s.puts)

theorem Metered.charge (h : Metered l s) {tat : Int}
    (hverdict : verdict l 1 s.time s.row = .allow tat) :
    Metered l { s with row := some tat, puts := ⟨s.time, .waiting⟩ :: s.puts } := by
  obtain ⟨rfl, hfits⟩ := admit_of_verdict hverdict
  refine ⟨?_, h.covers.charge, h.admitted.charge h.covers hfits,
    h.timed.cons (l.increment_nonneg 1) h.past⟩
  rw [charges_cons_waiting]
  exact forall_mem_cons.2 ⟨le_rfl, h.past⟩

theorem Metered.refund (h : Metered l s)
    (hget : s.puts[i]? = some ⟨time, .waiting⟩) (hok : Prompt l s (.refund i)) : Metered l { s with
      row := refund (token l) s.row
      puts := s.puts.set i ⟨time, .refunded⟩ } := by
  have hbefore : charges l s.puts =
      charges l (s.puts.take i) ++ ⟨time, token l⟩ :: charges l (s.puts.drop (i + 1)) := by
    conv => lhs; rw [puts_eq hget]
    rw [charges_append, charges_cons_waiting]
  have hafter : charges l (s.puts.set i ⟨time, .refunded⟩) =
      charges l (s.puts.take i) ++ charges l (s.puts.drop (i + 1)) := by
    rw [puts_set_eq hget, charges_append, charges_cons_refunded]
  have hsub : (charges l (s.puts.set i ⟨time, .refunded⟩)).Sublist (charges l s.puts) := by
    rw [hbefore, hafter]
    exact (Sublist.refl _).append (sublist_cons_self _ _)
  refine ⟨fun c hc => h.past c (hsub.subset hc), ?_, h.admitted.sublist hsub h.timed.cost_nonneg,
    h.timed.sublist hsub⟩
  have hcovers := h.covers
  have hcost := h.timed.cost_nonneg
  rw [hbefore] at hcovers hcost
  rw [hafter]
  exact hcovers.refund hcost (hok ⟨time, .waiting⟩ hget)

theorem Metered.step (h : Metered l s) (hok : Prompt l s e) (hstep : Bucket.step l s e = some t) :
    Metered l t := by
  cases e with
  | tick =>
    obtain ⟨hle, rfl⟩ := guarded hstep
    exact ⟨fun c hc => (h.past c hc).trans hle, h.covers.later hle, h.admitted, h.timed⟩
  | charge =>
    simp only [Bucket.step] at hstep
    split at hstep
    next hverdict =>
      cases hstep
      exact h.charge hverdict
    · cases hstep
      exact h
  | keep =>
    simp only [Bucket.step] at hstep
    split at hstep
    next hget =>
      cases hstep
      have hsame := charges_keep (l := l) hget
      exact ⟨hsame ▸ h.past, hsame ▸ h.covers, hsame ▸ h.admitted, hsame ▸ h.timed⟩
    · cases hstep
  | refund =>
    simp only [Bucket.step] at hstep
    split at hstep
    next hget =>
      cases hstep
      exact h.refund hget hok
    · cases hstep
  | sweep =>
    cases hstep
    exact { h with covers := RateLimiter.covers_swept h.covers le_rfl }

theorem Metered.boot (l : Limit) (time : Int) : Metered l (boot time) where
  past := forall_mem_nil _
  covers := .nil _ _
  admitted := trivial
  timed := .nil

/-- **What a source's bucket admits.** In a run whose refunds are prompt, the charges of any window
    of length `T` that were not refunded cost at most the capacity and `T`. -/
theorem kept_window_le_of_prompt {start : Int} {es : List Event}
    (hok : Run.Along (step l) (Prompt l) (boot start) es)
    (hs : Run.exec (step l) (boot start) es = some s) (a : Int) {T : Int} (hT : 0 ≤ T) :
    spent a (a + T) (charges l s.puts) ≤ l.capacity + T := by
  have hmetered : Metered l s := invariant_along
    (fun _ _ _ hi hp hstep => hi.step hp hstep) (Metered.boot l start) hok hs
  exact hmetered.admitted.window_le hmetered.timed l.capacity_nonneg a hT

/-! ## Two runs -/

/-- Two puts empty the bucket, a third is denied, and the first one's refund makes room for
    another. -/
def promptRefund : List Event :=
  [.charge, .charge, .charge, .refund 1, .charge, .keep 0, .tick 20, .sweep]

theorem promptRefund_bounded : ∃ s, Run.exec (step onePerSecond) (boot 0) promptRefund = some s ∧
    s.puts = [⟨0, .kept⟩, ⟨0, .waiting⟩, ⟨0, .refunded⟩] ∧ s.row = none ∧
    spent 0 (0 + 0) (charges onePerSecond s.puts) ≤ onePerSecond.capacity + 0 := by
  have hok : Along (step onePerSecond) (Prompt onePerSecond) (boot 0) promptRefund := by
    decide +kernel
  have hrun : ∃ s, exec (step onePerSecond) (boot 0) promptRefund = some s ∧
      (s.puts = [⟨0, .kept⟩, ⟨0, .waiting⟩, ⟨0, .refunded⟩] ∧ s.row = none) :=
    of_exec (by decide +kernel)
  obtain ⟨s, hs, hputs, hrow⟩ := hrun
  exact ⟨s, hs, hputs, hrow, kept_window_le_of_prompt hok hs 0 le_rfl⟩

/-- Two puts wait until the bucket has leaked both, two more empty it again, and the first two
    fail. -/
def lateRefund : List Event :=
  [.charge, .charge, .tick 20, .charge, .charge, .refund 3, .refund 2, .charge, .charge]

/-- Four tokens of one moment are kept out of a bucket of two. -/
theorem lateRefund_overshoot : ∃ s, Run.exec (step onePerSecond) (boot 0) lateRefund = some s ∧
    charges onePerSecond s.puts = [⟨20, 10⟩, ⟨20, 10⟩, ⟨20, 10⟩, ⟨20, 10⟩] ∧
    ¬ spent 20 (20 + 0) (charges onePerSecond s.puts) ≤ onePerSecond.capacity + 0 :=
  of_exec (by decide +kernel)

end Ankusa.Quarantine.Bucket
