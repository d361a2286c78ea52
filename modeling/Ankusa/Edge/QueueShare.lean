import Ankusa.Lib.Counter
import Ankusa.Lib.Run
import Ankusa.Lib.Slots

set_option autoImplicit false

/-! # A tenant's share of the batchers

`acquire_queue/3` and `release_queue/2` of `edge/rate_limiter.ex`. A row of a shared table counts
the hooks a tenant has in the batchers and their body bytes. A caller adds its hook to both counters
in one atomic update and compares what it gets back; when that is over the limit it undoes the
update in a second one. Giving back is an update with a floor at zero, and then a delete of the row
when both counters are zero.

The floor is a threshold of the counter update, and an update that takes nothing off counts as one
that goes up: giving back a hook with an empty body *empties* the byte counter of everybody else
(`emptyHook_overcommits`). `Weighty` excludes that step, and then the counters are the sums of what
is held and of what is about to be undone, and both limits hold (`share_bounded_of_weighty`). -/

namespace Ankusa.RateLimiter.Share

open List Option Run

/-- The limits of a tenant; a limit that is not set does not bound. -/
structure Limit where
  maxQueue : Option Nat
  maxQueueBytes : Option Nat

/-- The tenant's row, the leases that are held and the refused reservations that are not undone yet,
    each by its bytes, and the callers that have still to delete an empty row. -/
structure State where
  row : Option (Int × Int)
  leases : List Nat
  refused : List Nat
  deletes : Nat

/-- The hooks the row counts. -/
def State.count (s : State) : Int := (s.row.getD (0, 0)).1

/-- The bytes the row counts. -/
def State.held (s : State) : Int := (s.row.getD (0, 0)).2

/-- The events of a tenant's share. -/
inductive Event where
  | acquire (bytes : Nat)
  | undo (i : Nat)
  | release (i : Nat)
  | delete

/-- Whether the counters `reserve/4` reads back are over the limit. A hook that is alone is never
    too big. -/
def overLimit (l : Limit) (count held : Int) : Bool :=
  l.maxQueue.any (fun m => m < count) || (1 < count && l.maxQueueBytes.any fun m => m < held)

/-- `reserve/4`: the counters are raised, and only then compared. -/
def reserve (l : Limit) (s : State) (bytes : Nat) : State :=
  let count := s.count + 1
  let held := s.held + bytes
  if overLimit l count held then { s with row := some (count, held), refused := bytes :: s.refused }
  else { s with row := some (count, held), leases := bytes :: s.leases }

/-- `acquire_queue/3`: a tenant with no limit is not counted. -/
def acquireQueue (l : Limit) (s : State) (bytes : Nat) : State :=
  if l.maxQueue.isSome || l.maxQueueBytes.isSome then reserve l s bytes else s

/-- The first half of `unreserve/3`. Without a row nothing is counted, and there is nothing to
    delete. -/
def unreserve (s : State) (bytes : Nat) : State :=
  match s.row with
  | some (count, held) =>
    { s with
      row := some (Counter.floored 1 count, Counter.floored bytes held)
      deletes := s.deletes + 1 }
  | none => s

/-- A lease is taken, undone or given back, or an empty row is deleted. -/
def step (l : Limit) (s : State) : Event → Option State
  | .acquire bytes => some (acquireQueue l s bytes)
  | .undo i => s.refused[i]?.map fun bytes => { unreserve s bytes with
    refused := s.refused.eraseIdx i }
  | .release i =>
    s.leases[i]?.map fun bytes => { unreserve s bytes with leases := s.leases.eraseIdx i }
  | .delete =>
    if s.deletes = 0 then none
    else some { s with
      row := if s.row = some (0, 0) then none else s.row
      deletes := s.deletes - 1 }

/-- No row and no lease. -/
def boot : State := ⟨none, [], [], 0⟩

/-! ## The counters -/

/-- The counters are the sums of what is held and of what is about to be undone, and what is held is
    within the limits. -/
structure Counted (l : Limit) (s : State) : Prop where
  count : s.count = (s.leases.length + s.refused.length : Nat)
  held : s.held = (s.leases.sum + s.refused.sum : Nat)
  leases : ∀ m, l.maxQueue = some m → s.leases.length ≤ m
  bytes : ∀ m, l.maxQueueBytes = some m → s.leases.sum ≤ m ∨ s.leases.length = 1

variable {l : Limit} {s t : State} {e : Event}

/-- A reservation that is not over the limit. -/
theorem not_over {count held : Int} (h : overLimit l count held = false) :
    (∀ m, l.maxQueue = some m → count ≤ m) ∧
      ∀ m, l.maxQueueBytes = some m → count ≤ 1 ∨ held ≤ m := by
  obtain ⟨hcount, hheld⟩ := Bool.or_eq_false_iff.1 h
  constructor
  · intro m hm
    rw [hm] at hcount
    exact not_lt.1 (of_decide_eq_false hcount)
  · intro m hm
    rw [hm] at hheld
    rcases Bool.and_eq_false_iff.1 hheld with hone | hroom
    · exact .inl (not_lt.1 (of_decide_eq_false hone))
    · exact .inr (not_lt.1 (of_decide_eq_false hroom))

theorem Counted.reserve (h : Counted l s) (bytes : Nat) : Counted l (reserve l s bytes) := by
  have hcount := h.count
  have hheld := h.held
  unfold Share.reserve
  dsimp only
  cases hover : overLimit l (s.count + 1) (s.held + bytes) with
  | true =>
    rw [if_pos rfl]
    refine ⟨?_, ?_, h.leases, h.bytes⟩
    · simp only [State.count, getD_some, length_cons] at hcount ⊢
      omega
    · simp only [State.held, getD_some, sum_cons] at hheld ⊢
      omega
  | false =>
    obtain ⟨hqueue, hbytes⟩ := not_over hover
    rw [if_neg Bool.false_ne_true]
    refine ⟨?_, ?_, ?_, ?_⟩
    · simp only [State.count, getD_some, length_cons] at hcount ⊢
      omega
    · simp only [State.held, getD_some, sum_cons] at hheld ⊢
      omega
    · intro m hm
      have := hqueue m hm
      simp only [length_cons]
      omega
    · -- Alone, the hook counter reads one; otherwise the byte counter bounds all that is held.
      intro m hm
      simp only [sum_cons, length_cons]
      rcases hbytes m hm with hone | hroom
      · exact .inr (by omega)
      · exact .inl (by omega)

/-- What gives back no bytes finds none counted. -/
def Weighty (s : State) : Event → Prop
  | .undo i => s.refused[i]? = some 0 → s.held = 0
  | .release i => s.leases[i]? = some 0 → s.held = 0
  | _ => True

instance Weighty.decidable (s : State) (e : Event) : Decidable (Weighty s e) := by
  unfold Weighty
  split <;> infer_instance

/-- Giving back one hook that is counted takes exactly it off the counters. -/
theorem unreserve_counters (bytes : Nat) (hcount : 1 ≤ s.count) (hheld : (bytes : Int) ≤ s.held)
    (hzero : bytes = 0 → s.held = 0) :
    (unreserve s bytes).count = s.count - 1 ∧ (unreserve s bytes).held = s.held - bytes := by
  cases hrow : s.row with
  | none =>
    simp only [State.count, hrow, getD_none] at hcount
    omega
  | some =>
    simp only [State.count, State.held, hrow, getD_some] at hcount hheld hzero
    simp only [unreserve, State.count, State.held, hrow, getD_some]
    refine ⟨Counter.floored_of_le one_pos.le hcount (by omega), ?_⟩
    exact Counter.floored_of_le (Int.natCast_nonneg _) hheld fun h => hzero (by omega)

theorem counts_eraseIdx {held : List Nat} {i bytes : Nat} (hget : held[i]? = some bytes) :
    held.length = (held.eraseIdx i).length + 1 ∧ held.sum = bytes + (held.eraseIdx i).sum := by
  have hperm := Slots.perm_eraseIdx hget
  exact ⟨hperm.length_eq, hperm.sum_eq.trans sum_cons⟩

theorem unreserve_lists (bytes : Nat) :
    (unreserve s bytes).leases = s.leases ∧ (unreserve s bytes).refused = s.refused := by
  unfold unreserve
  split <;> exact ⟨rfl, rfl⟩

theorem Counted.undo (h : Counted l s) {i bytes : Nat} (hget : s.refused[i]? = some bytes)
    (hok : Weighty s (.undo i)) :
    Counted l { unreserve s bytes with refused := s.refused.eraseIdx i } := by
  obtain ⟨hlen, hsum⟩ := counts_eraseIdx hget
  have hcount := h.count
  have hheld := h.held
  obtain ⟨hc, hb⟩ := unreserve_counters bytes (by omega) (by omega) fun h0 => hok (h0 ▸ hget)
  refine ⟨?_, ?_, ?_, ?_⟩
  · refine hc.trans ?_
    simp only [unreserve_lists]
    omega
  · refine hb.trans ?_
    simp only [unreserve_lists]
    omega
  · simpa only [unreserve_lists] using h.leases
  · simpa only [unreserve_lists] using h.bytes

theorem Counted.release (h : Counted l s) {i bytes : Nat} (hget : s.leases[i]? = some bytes)
    (hok : Weighty s (.release i)) :
    Counted l { unreserve s bytes with leases := s.leases.eraseIdx i } := by
  obtain ⟨hlen, hsum⟩ := counts_eraseIdx hget
  have hcount := h.count
  have hheld := h.held
  obtain ⟨hc, hb⟩ := unreserve_counters bytes (by omega) (by omega) fun h0 => hok (h0 ▸ hget)
  refine ⟨?_, ?_, ?_, ?_⟩
  · refine hc.trans ?_
    simp only [unreserve_lists]
    omega
  · refine hb.trans ?_
    simp only [unreserve_lists]
    omega
  · intro m hm
    have := h.leases m hm
    dsimp only
    omega
  · intro m hm
    dsimp only
    rcases h.bytes m hm with hroom | hone
    · exact .inl (by omega)
    · -- The one lease that was held is gone.
      have hnil : s.leases.eraseIdx i = [] := length_eq_zero_iff.1 (by omega)
      exact .inl (by rw [hnil, sum_nil]; omega)

theorem Counted.step (h : Counted l s) (hok : Weighty s e)
    (hstep : Share.step l s e = some t) : Counted l t := by
  cases e with
  | acquire bytes =>
    cases hstep
    unfold acquireQueue
    split_ifs
    · exact h.reserve bytes
    · exact h
  | undo =>
    obtain ⟨bytes, hget, rfl⟩ := map_eq_some_iff.1 hstep
    exact h.undo hget hok
  | release =>
    obtain ⟨bytes, hget, rfl⟩ := map_eq_some_iff.1 hstep
    exact h.release hget hok
  | delete =>
    simp only [Share.step] at hstep
    split_ifs at hstep with hnone hzero
    · cases hstep
      have hcount := h.count
      have hheld := h.held
      simp only [State.count, State.held, hzero] at hcount hheld
      exact ⟨hcount, hheld, h.leases, h.bytes⟩
    · cases hstep
      exact { h with }

theorem Counted.boot (l : Limit) : Counted l boot :=
  ⟨rfl, rfl, fun m _ => Nat.zero_le m, fun m _ => .inl (Nat.zero_le m)⟩

/-- **A tenant's share.** In a run that never gives back an empty hook while bytes are counted, no
    more leases are held than `max_queue`, their bytes are within `max_queue_bytes` unless one lease
    holds them all, and the counters are zero once every lease is released and every refusal
    undone. -/
theorem share_bounded_of_weighty {es : List Event}
    (hok : Run.Along (step l) Weighty boot es) (hs : Run.exec (step l) boot es = some s) :
    (∀ m, l.maxQueue = some m → s.leases.length ≤ m) ∧
      (∀ m, l.maxQueueBytes = some m → s.leases.sum ≤ m ∨ s.leases.length = 1) ∧
      (s.leases = [] → s.refused = [] → s.count = 0 ∧ s.held = 0) := by
  have hcounted : Counted l s := invariant_along
    (fun _ _ _ hi hp hstep => hi.step hp hstep) (Counted.boot l) hok hs
  refine ⟨hcounted.leases, hcounted.bytes, fun hleases hrefused => ?_⟩
  have hcount := hcounted.count
  have hheld := hcounted.held
  rw [hleases, hrefused] at hcount hheld
  exact ⟨hcount, hheld⟩

/-! ## Two runs -/

/-- Two hooks or a hundred bytes. -/
def twoHooks : Limit := ⟨some 2, some 100⟩

/-- A refusal by bytes, two leases, a refusal by number, and everything given back. -/
def shared : List Event :=
  [.acquire 90, .acquire 20, .undo 0, .acquire 10, .acquire 5, .undo 0, .release 0,
    .delete, .release 0,
    .delete, .delete, .delete]

theorem shared_bounded : ∃ s, Run.exec (step twoHooks) boot shared = some s ∧
    s.leases = [] ∧ s.refused = [] ∧ s.row = none ∧ s.count = 0 ∧ s.held = 0 := by
  have hok : Along (step twoHooks) Weighty boot shared := by decide
  have hrun : ∃ s, exec (step twoHooks) boot shared = some s ∧
      (s.leases = [] ∧ s.refused = [] ∧ s.row = none) := of_exec (by decide)
  obtain ⟨s, hs, hleases, hrefused, hrow⟩ := hrun
  obtain ⟨-, -, hzero⟩ := share_bounded_of_weighty hok hs
  exact ⟨s, hs, hleases, hrefused, hrow, hzero hleases hrefused⟩

/-- A hook with an empty body is let go while another of ninety bytes is held. -/
def emptyHook : List Event := [.acquire 90, .acquire 0, .release 0, .acquire 90]

/-- Two leases hold more than the limit of bytes between them. -/
theorem emptyHook_overcommits : ∃ s, Run.exec (step twoHooks) boot emptyHook = some s ∧
    s.leases = [90, 90] ∧ ¬ (s.leases.sum ≤ 100 ∨ s.leases.length = 1) :=
  of_exec (by decide)

end Ankusa.RateLimiter.Share
