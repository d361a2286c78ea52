import Ankusa.Lib.KV
import Mathlib.Order.Lattice

set_option autoImplicit false

/-! # A window of recent writes

A writer may answer from a read another process made earlier, as long as it remembers what it wrote
since. It keeps its recent writes in two generations; rotating drops the older one, and every write
after `since` is still there. A value is answered from the window, else from the reads, else from
the store (`Window.answer`); the answer is the stored value when every read that missed the write
began before it and after `since` (`Window.Knows.answer_eq`). The comparison with `since` is strict:
a generation may hold writes of the very time it was closed at. -/

namespace KV

variable {K V T : Type*} [DecidableEq K]

/-- Two generations of recent writes: `genAt` is when the newer one was opened, `since` when the
    older one was. -/
structure Window (K V T : Type*) where
  cur : Map K V
  old : Map K V
  genAt : T
  since : T

namespace Window

/-- What the window remembers of a key. -/
def get (w : Window K V T) (k : K) : Option V :=
  match w.cur.get k with
  | some v => some v
  | none => w.old.get k

/-- The window's value of a key, else the first read of it, else the stored one. -/
def answer (w : Window K V T) (reads : List (K × Option V)) (s : Map K V) (k : K) : Option V :=
  match w.get k with
  | some v => some v
  | none =>
    match reads.lookup k with
    | some result => result
    | none => s.get k

/-- Open a new generation at `now`. -/
def rotate (w : Window K V T) (now : T) : Window K V T := ⟨∅, w.cur, now, w.genAt⟩

/-- Forget every write, and every read before `now` with them. -/
def clear (now : T) : Window K V T := ⟨∅, ∅, now, now⟩

variable [Num V]

/-- Remember a batch of writes. -/
def record (w : Window K V T) (ops : List (Op K V)) : Window K V T :=
  { w with cur := w.cur.write ops }

/-- Apply a batch to all that is remembered. -/
def revise (w : Window K V T) (ops : List (Op K V)) : Window K V T :=
  { w with cur := w.cur.write ops, old := w.old.write ops }

omit [Num V]

variable [LinearOrder T]

/-- The times of a window that was last changed at `now` or before. -/
structure Timed (w : Window K V T) (now : T) : Prop where
  since_le : w.since ≤ w.genAt
  genAt_le : w.genAt ≤ now

/-- The window does not contradict that `v` was written under `k` at `wrote`, and it remembers the
    write unless that was at `since` or before. -/
structure Knows (w : Window K V T) (k : K) (v : V) (wrote : T) : Prop where
  agrees : ∀ v', w.get k = some v' → v' = v
  recalls : w.cur.get k ≠ none ∨ (w.old.get k ≠ none ∧ wrote ≤ w.genAt) ∨ wrote ≤ w.since

section

variable {w : Window K V T} {k : K} {v : V} {wrote now : T}

omit [LinearOrder T] in
theorem get_of_cur {v : V} (h : w.cur.get k = some v) : w.get k = some v := by
  simp only [get, h]

omit [LinearOrder T] in
theorem get_of_old (h : w.cur.get k = none) : w.get k = w.old.get k := by
  simp only [get, h]

omit [LinearOrder T] in
theorem get_ne_none (h : w.cur.get k ≠ none ∨ w.old.get k ≠ none) : w.get k ≠ none := by
  cases hcur : w.cur.get k with
  | some =>
    rw [get_of_cur hcur]
    simp
  | none =>
    rw [get_of_old hcur]
    exact h.resolve_left (by simp [hcur])

omit [DecidableEq K] in
theorem Timed.mono {later : T} (h : w.Timed now) (hle : now ≤ later) : w.Timed later :=
  ⟨h.since_le, h.genAt_le.trans hle⟩

omit [DecidableEq K] in
theorem Timed.rotate (h : w.Timed now) : (w.rotate now).Timed now := ⟨h.genAt_le, le_rfl⟩

omit [DecidableEq K] in
theorem timed_clear : (clear now : Window K V T).Timed now := ⟨le_rfl, le_rfl⟩

/-- A remembered write moves to the older generation, and a write only that one held was made before
    the newer one was opened. -/
theorem Knows.rotate (h : w.Knows k v wrote) (htimed : w.Timed now) (hwrote : wrote ≤ now) :
    (w.rotate now).Knows k v wrote where
  agrees := by
    intro v' hv'
    rw [get_of_old (Map.get_empty k)] at hv'
    exact h.agrees v' (get_of_cur hv')
  recalls := by
    rcases h.recalls with hcur | ⟨-, hle⟩ | hle
    · exact .inr (.inl ⟨hcur, hwrote⟩)
    · exact .inr (.inr hle)
    · exact .inr (.inr (hle.trans htimed.since_le))

theorem knows_clear (hwrote : wrote ≤ now) : (clear now : Window K V T).Knows k v wrote where
  agrees := by
    intro v' hv'
    simp [get, clear] at hv'
  recalls := .inr (.inr hwrote)

variable [Num V] {ops : List (Op K V)}

theorem Knows.revise (h : w.Knows k v wrote) (hops : ∀ op ∈ ops, op.key ≠ k) :
    (w.revise ops).Knows k v wrote := by
  obtain ⟨hagrees, hrecalls⟩ := h
  refine ⟨?_, ?_⟩
  · simpa only [get, Window.revise, Map.get_untouched _ hops] using hagrees
  · simpa only [Window.revise, Map.get_untouched _ hops] using hrecalls

theorem Knows.record (h : w.Knows k v wrote) (hops : ∀ op ∈ ops, op.key ≠ k) :
    (w.record ops).Knows k v wrote := by
  obtain ⟨hagrees, hrecalls⟩ := h
  refine ⟨?_, ?_⟩
  · simpa only [get, Window.record, Map.get_untouched _ hops] using hagrees
  · simpa only [Window.record, Map.get_untouched _ hops] using hrecalls

theorem knows_record (hmem : .put k v ∈ ops)
    (hops : ∀ op ∈ ops, op.key = k → op = .put k v) : (w.record ops).Knows k v wrote := by
  have hcur : (w.record ops).cur.get k = some v := Map.get_write_put _ hmem hops
  refine ⟨fun v' hv' => ?_, .inl (by simp [hcur])⟩
  rw [get_of_cur hcur] at hv'
  exact (Option.some.inj hv').symm

omit [Num V]

/-- **The answer is the stored value**: a read of something else began at the write or before, so
    when it also began after `since`, the window remembers the write. -/
theorem Knows.answer_eq {s : Map K V} {reads : List (K × Option V)} (h : w.Knows k v wrote)
    (hstored : s.get k = some v) (hreads : ∀ r, (k, r) ∈ reads → r = some v ∨ w.since < wrote) :
    w.answer reads s k = some v := by
  unfold answer
  cases hget : w.get k with
  | some v' =>
    obtain rfl := h.agrees v' hget
    rfl
  | none =>
    -- The window has lost the key, so the write is not after `since`.
    have hsince : ¬ w.since < wrote := by
      intro hlt
      rcases h.recalls with hcur | ⟨hold, -⟩ | hle
      · exact get_ne_none (.inl hcur) hget
      · exact get_ne_none (.inr hold) hget
      · exact absurd hlt (not_lt.2 hle)
    cases hread : reads.lookup k with
    | none => exact hstored
    | some r =>
      obtain ⟨front, back, heq, -⟩ := List.lookup_eq_some_iff.1 hread
      exact (hreads r (heq ▸ by simp)).resolve_right hsince

end

end Window

end KV
