import Mathlib.Algebra.BigOperators.Group.List.Basic
import Mathlib.Algebra.Order.Group.Int
import Mathlib.Algebra.Order.Monoid.Unbundled.MinMax
import Mathlib.Algebra.Ring.Int.Defs

set_option autoImplicit false

/-! # A leaky bucket kept as an arrival time

A bucket that leaks one unit per tick is described by the time at which it will be empty (its
*arrival time*), or by nothing when it was never charged. A charge starts at that time, or at the
clock when the clock is later (`raise`), and moves it forward by its cost.

What is proved is about a list of charges, newest first: when every charge left the arrival time at
most `cap` ahead of its own clock (`Admitted`), the charges of any window of length `T` cost at most
`cap + T` together (`Admitted.window_le`). `Covers` ties a stored arrival time to the charges it
stands for: it may be ahead of what they add up to, never behind. -/

namespace LeakyBucket

open List

/-- A charge: the clock it was made at, and its cost. -/
structure Charge where
  time : Int
  cost : Int
  deriving DecidableEq, Repr

/-- Where a charge made at `now` starts. -/
def raise (tat : Option Int) (now : Int) : Int :=
  match tat with
  | some t => max t now
  | none => now

@[simp] theorem raise_none (now : Int) : raise none now = now := rfl

@[simp] theorem raise_some (t now : Int) : raise (some t) now = max t now := rfl

theorem le_raise (tat : Option Int) (now : Int) : now ≤ raise tat now := by
  cases tat with
  | none => exact le_rfl
  | some t => exact le_max_right t now

variable {now : Int}

theorem raise_mono (tat : Option Int) {later : Int} (h : now ≤ later) :
    raise tat now ≤ raise tat later := by
  cases tat with
  | none => exact h
  | some t => exact max_le_max_left t h

theorem raise_later (tat : Option Int) {later : Int} (h : now ≤ later) :
    raise tat later = max (raise tat now) later := by
  cases tat with
  | none => exact (max_eq_right h).symm
  | some => rw [raise_some, raise_some, max_assoc, max_eq_right h]

/-- A charge that costs nothing changes nothing. -/
theorem raise_le_max (tat : Option Int) (time now : Int) :
    raise tat now ≤ max (raise tat time) now := by
  cases tat with
  | none => exact le_max_right time now
  | some t => exact max_le_max_right now (le_max_left t time)

/-- The arrival time the charges lead to, newest first. -/
def arrival : List Charge → Option Int
  | [] => none
  | c :: cs => some (raise (arrival cs) c.time + c.cost)

/-- Every charge left the arrival time at most `cap` ahead of its clock. -/
def Admitted (cap : Int) : List Charge → Prop
  | [] => True
  | c :: cs => raise (arrival cs) c.time + c.cost ≤ c.time + cap ∧ Admitted cap cs

/-- The cost of the charges made from `a` to `b`. -/
def spent (a b : Int) (cs : List Charge) : Int :=
  ((cs.filter fun c => a ≤ c.time ∧ c.time ≤ b).map Charge.cost).sum

/-- No charge was made later than the one before it in the list, and none is negative. -/
structure Timed (cs : List Charge) : Prop where
  sorted : cs.Pairwise fun newer older => older.time ≤ newer.time
  cost_nonneg : ∀ c ∈ cs, 0 ≤ c.cost

theorem Timed.nil : Timed [] := ⟨.nil, forall_mem_nil _⟩

variable {c : Charge} {cs : List Charge}

theorem Timed.cons (h : Timed cs) (hcost : 0 ≤ c.cost) (hlast : ∀ c' ∈ cs, c'.time ≤ c.time) :
    Timed (c :: cs) where
  sorted := .cons hlast h.sorted
  cost_nonneg := forall_mem_cons.2 ⟨hcost, h.cost_nonneg⟩

theorem Timed.tail (h : Timed (c :: cs)) : Timed cs where
  sorted := (pairwise_cons.1 h.sorted).2
  cost_nonneg := (forall_mem_cons.1 h.cost_nonneg).2

variable {cs' newer older : List Charge} {cap cost : Int}

theorem Timed.sublist (h : Timed cs) (hsub : cs'.Sublist cs) : Timed cs' where
  sorted := h.sorted.sublist hsub
  cost_nonneg := fun c hc => h.cost_nonneg c (hsub.subset hc)

/-! ## Windows -/

/-- The charges made at `a` or later fit between `a` and the arrival time. -/
theorem Timed.spent_since_le (h : Timed cs) (a b : Int)
    (hb : ∀ c ∈ cs, c.time ≤ b) : spent a b cs ≤ raise (arrival cs) a - a := by
  induction cs with
  | nil => simp [spent, arrival]
  | cons c cs ih =>
    have hcost : 0 ≤ c.cost := h.cost_nonneg c mem_cons_self
    obtain ⟨hcb, hrest⟩ := forall_mem_cons.1 hb
    have ih := ih h.tail hrest
    by_cases ha : a ≤ c.time
    · have hspent : spent a b (c :: cs) = c.cost + spent a b cs := by
        simp [spent, ha, hcb]
      have hstart : raise (arrival cs) a ≤ raise (arrival cs) c.time := raise_mono _ ha
      have hend : raise (arrival cs) c.time + c.cost ≤ raise (arrival (c :: cs)) a :=
        le_max_left _ _
      omega
    · have hspent : spent a b (c :: cs) = spent a b cs := by
        simp [spent, ha]
      have hstart : raise (arrival cs) a ≤ raise (arrival (c :: cs)) a := by
        refine (raise_le_max (arrival cs) c.time a).trans (max_le_max_right a ?_)
        omega
      omega

/-- **The charges of a window cost at most the bucket and the window's length.** -/
theorem Admitted.window_le (h : Admitted cap cs) (ht : Timed cs)
    (hcap : 0 ≤ cap) (a : Int) {T : Int} (hT : 0 ≤ T) : spent a (a + T) cs ≤ cap + T := by
  induction cs with
  | nil =>
    simp only [spent, filter_nil, map_nil, sum_nil]
    omega
  | cons c cs ih =>
    obtain ⟨hadmitted, hrest⟩ := h
    have ih := ih hrest ht.tail
    by_cases hin : a ≤ c.time ∧ c.time ≤ a + T
    · -- `c` is the last charge of the window, so its arrival time bounds the whole window.
      have hlast : ∀ c' ∈ c :: cs, c'.time ≤ a + T := by
        intro c' hc'
        rcases mem_cons.1 hc' with rfl | hc'
        · exact hin.2
        · exact ((pairwise_cons.1 ht.sorted).1 c' hc').trans hin.2
      have hsince := ht.spent_since_le a (a + T) hlast
      have harrival : raise (arrival (c :: cs)) a ≤ a + T + cap := by
        refine max_le ?_ (by omega)
        omega
      omega
    · have hspent : spent a (a + T) (c :: cs) = spent a (a + T) cs := by
        rw [spent, filter_cons_of_neg (by simpa using hin)]
        rfl
      rw [hspent]
      exact ih

/-! ## Fewer charges -/

/-- Without some of its charges a bucket is empty no later. -/
theorem raise_arrival_sublist (hsub : cs'.Sublist cs)
    (hcost : ∀ c ∈ cs, 0 ≤ c.cost) (now : Int) :
    raise (arrival cs') now ≤ raise (arrival cs) now := by
  induction hsub generalizing now with
  | slnil => exact le_rfl
  | @cons _ cs c hsub ih =>
    obtain ⟨hc, hrest⟩ := forall_mem_cons.1 hcost
    refine (ih hrest now).trans ((raise_le_max (arrival cs) c.time now).trans ?_)
    exact max_le_max_right now (by omega)
  | cons_cons c hsub ih =>
    obtain ⟨-, hrest⟩ := forall_mem_cons.1 hcost
    have hle := ih hrest c.time
    exact max_le_max_right now (by omega)

theorem Admitted.sublist (h : Admitted cap cs)
    (hsub : cs'.Sublist cs) (hcost : ∀ c ∈ cs, 0 ≤ c.cost) : Admitted cap cs' := by
  induction hsub with
  | slnil => trivial
  | cons c hsub ih => exact ih h.2 (forall_mem_cons.1 hcost).2
  | cons_cons c hsub ih =>
    obtain ⟨-, hrest⟩ := forall_mem_cons.1 hcost
    have hle := raise_arrival_sublist hsub hrest c.time
    exact ⟨by have := h.1; omega, ih h.2 hrest⟩

/-- A charge whose successors all came before the bucket began to leak it still costs the bucket all
    of its cost. -/
theorem raise_arrival_without (hcost : ∀ d ∈ newer ++ c :: older, 0 ≤ d.cost)
    (hnewer : ∀ d ∈ newer, d.time ≤ raise (arrival older) c.time)
    (hnow : now ≤ raise (arrival older) c.time) :
    raise (arrival (newer ++ older)) now + c.cost ≤ raise (arrival (newer ++ c :: older)) now := by
  induction newer generalizing now with
  | nil =>
    have hstart : raise (arrival older) now ≤ raise (arrival older) c.time := by
      refine (raise_le_max (arrival older) c.time now).trans ?_
      exact max_le le_rfl hnow
    exact le_max_of_le_left (Int.add_le_add_right hstart c.cost)
  | cons d newer ih =>
    obtain ⟨hd, hnewer⟩ := forall_mem_cons.1 hnewer
    obtain ⟨hdcost, hcost⟩ := forall_mem_cons.1 hcost
    have hwithout := ih hcost hnewer hd
    -- The arrival time with `c` is past the moment at which `c` itself is over.
    have hpast : raise (arrival older) c.time + c.cost ≤
        raise (arrival (newer ++ c :: older)) d.time :=
      (le_max_left _ _).trans (raise_arrival_sublist (sublist_append_right newer _) hcost d.time)
    simp only [cons_append, arrival, raise_some]
    refine le_max_of_le_left ?_
    rw [← max_add_add_right]
    exact max_le (by omega) (by omega)

/-! ## A stored arrival time -/

/-- From `now` on the stored arrival time is not behind what the charges add up to. -/
def Covers (now : Int) (tat : Option Int) (cs : List Charge) : Prop :=
  raise (arrival cs) now ≤ raise tat now

instance Covers.decidable (now : Int) (tat : Option Int) (cs : List Charge) :
    Decidable (Covers now tat cs) := inferInstanceAs (Decidable (_ ≤ _))

theorem Covers.nil (now : Int) (tat : Option Int) : Covers now tat [] := le_raise tat now

variable {tat : Option Int}

theorem Covers.later {later : Int} (h : Covers now tat cs) (hle : now ≤ later) :
    Covers later tat cs := by
  unfold Covers at h ⊢
  rw [raise_later _ hle, raise_later tat hle]
  exact max_le_max_right later h

/-- An arrival time that has passed may be forgotten. -/
theorem Covers.forget {t : Int} (h : Covers now (some t) cs) (ht : t ≤ now) :
    Covers now none cs := by
  unfold Covers at h
  rwa [raise_some, max_eq_right ht] at h

theorem Covers.charge (h : Covers now tat cs) :
    Covers now (some (raise tat now + cost)) (⟨now, cost⟩ :: cs) := by
  have hle : raise (arrival cs) now + cost ≤ raise tat now + cost := by
    unfold Covers at h
    omega
  exact max_le_max_right now hle

/-- A charge is taken back from the stored arrival time. The others are still covered when they have
    leaked by now, or when all of the charge is still in the bucket. -/
theorem Covers.refund (h : Covers now tat (newer ++ c :: older))
    (hcost : ∀ d ∈ newer ++ c :: older, 0 ≤ d.cost)
    (hwhole : raise (arrival (newer ++ older)) now ≤ now ∨
      ∀ d ∈ newer, d.time ≤ raise (arrival older) c.time) :
        Covers now (tat.map (· - c.cost)) (newer ++ older) := by
  have hsub : (newer ++ older).Sublist (newer ++ c :: older) :=
    (List.Sublist.refl newer).append (sublist_cons_self c older)
  rcases hwhole with hleaked | hnewer
  · exact hleaked.trans (le_raise _ now)
  unfold Covers at h ⊢
  cases tat with
  | none => exact (raise_arrival_sublist hsub hcost now).trans h
  | some =>
    -- Both arrival times are compared at a clock at which `c` has not begun to leak.
    have hc : 0 ≤ c.cost := hcost c (by simp)
    have hwithout :=
      raise_arrival_without hcost hnewer (min_le_right now (raise (arrival older) c.time))
    have hearlier := min_le_left now (raise (arrival older) c.time)
    rw [raise_later _ hearlier] at h ⊢
    rw [raise_some, max_le_iff] at h
    rw [Option.map_some, raise_some]
    refine max_le ?_ (le_max_right _ _)
    rcases le_max_iff.1 h.1 with hstored | hpassed
    · exact le_max_of_le_left (by omega)
    · exact le_max_of_le_right (by omega)

theorem Admitted.charge (h : Admitted cap cs)
    (hcovers : Covers now tat cs) (hfits : raise tat now + cost ≤ now + cap) :
    Admitted cap (⟨now, cost⟩ :: cs) := by
  unfold Covers at hcovers
  exact ⟨by dsimp only; omega, h⟩

end LeakyBucket
