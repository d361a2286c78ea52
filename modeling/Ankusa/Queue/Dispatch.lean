import Ankusa.Queue.Effects

set_option autoImplicit false

/-! # What dispatch writes

Every batch of the dispatch pipeline moves rows of hooks it has read: beside those it touches only
the markers, lane heads and counters that belong to no hook (`Deals`). The hooks a batch deals with
are the claimed ones, the members a lane release reads and finds durable, or, after a restart, the
ones whose claims are stored. -/

namespace Ankusa

open List

/-- The operation creates no row of a hook without `P`, and touches nothing of the writer's own. -/
def Op.Dealt (P : Nat → Prop) (op : Op) : Prop :=
  match op.key.family with
  | .hook q => op.creates = true → P q
  | .shared | .extra => True
  | .dedupe | .marker | .tenant => False

/-- The batch moves rows of hooks with `P`. -/
def Deals (P : Nat → Prop) : List Op → Prop := Within (Op.Dealt P)

section

variable {P Q : Nat → Prop} {op : Op} {q : Nat}

theorem Op.Dealt.of_hook (hk : op.key.family = .hook q) (h : op.creates = true → P q) :
    op.Dealt P := by
  unfold Op.Dealt
  rw [hk]
  exact h

theorem Op.Dealt.of_shared (hk : op.key.family = .shared) : op.Dealt P := by
  unfold Op.Dealt
  rw [hk]
  trivial

theorem Op.Dealt.mono (h : op.Dealt P) (hPQ : ∀ q, P q → Q q) : op.Dealt Q := by
  unfold Op.Dealt at h ⊢
  split at h
  · exact fun hc => hPQ _ (h hc)
  all_goals trivial

/-- A hook the operation creates a row of. -/
theorem Op.Dealt.of_seq (h : op.Dealt P) (hc : op.creates = true) (hq : op.key.seq? = some q) :
    P q := by
  unfold Op.Dealt at h
  rw [Key.seq?_eq_some.1 hq] at h
  exact h hc

namespace Deals

variable {a : List Op} {k : Key}

theorem put {v : Val} (hk : k.family = .hook q) (h : P q) (ha : Deals P a) :
    Deals P (.put k v :: a) := .cons (.of_hook hk fun _ => h) ha

theorem delete (hk : k.family = .hook q) (ha : Deals P a) : Deals P (.delete k :: a) :=
  .cons (.of_hook hk nofun) ha

theorem shared (hk : op.key.family = .shared) (ha : Deals P a) : Deals P (op :: a) :=
  .cons (.of_shared hk) ha

theorem counters (ds : List Counters.Delta) : Deals P (Counters.ops ds) :=
  Counters.within (fun _ _ _ => .of_shared rfl) ds

end Deals

end

namespace Deliveries

variable {P : Nat → Prop}

theorem deals_coalesce {ops : List Op} (h : Deals P ops) : Deals P (coalesce ops) :=
  within_coalesce h fun _ _ _ => .of_shared rfl

theorem deals_dueOps {seq : Nat} (ord : Nat) (time : Ms) (sink size : Nat)
    (kind : Kind) (h : P seq) : Deals P (dueOps ord time seq sink size kind) :=
  .put rfl h (.shared rfl .nil)

theorem deals_claim {dues : List Due} (h : ∀ d ∈ dues, P d.seq) : Deals P (claim dues) := by
  refine deals_coalesce (Within.flatMap fun d hd => ?_)
  exact Within.append (Deals.delete rfl (.put rfl (h d hd) .nil)) (Deals.counters _)

end Deliveries

/-- The store operations of a dispatch batch. -/
def BatchOp.toOps (batch : List BatchOp) : List Op :=
  batch.filterMap fun
    | .op o => some o
    | .laneRelease _ _ => none

theorem BatchOp.toOps_append (a b : List BatchOp) : toOps (a ++ b) = toOps a ++ toOps b :=
  filterMap_append

theorem BatchOp.toOps_ofOps (ops : List Op) : toOps (ofOps ops) = ops := by
  induction ops with
  | nil => rfl
  | cons op ops ih => exact congrArg (op :: ·) ih

theorem BatchOp.toOps_releaseOp (ord : Nat) (row : Option Row) :
    toOps (Lanes.releaseOp ord row) = [] := by
  unfold Lanes.releaseOp
  split <;> rfl

open BatchOp

/-- The result of an attempt deals with the hook that was claimed. -/
theorem Node.Outcome.deals_batch {P : Nat → Prop} {j : Node.Job} (h : P j.due.seq)
    (o : Node.Outcome) : Deals P (BatchOp.toOps (o.batch j)) := by
  have horphan : ∀ row, Deals P (BatchOp.toOps
      (Deliveries.orphanOps .inflight j.due.ord j.due.seq j.due.sink j.due.size row)) := by
    intro row
    simp only [Deliveries.orphanOps, Deliveries.leave, Deliveries.release, toOps_append,
      toOps_ofOps, toOps_releaseOp, append_nil]
    exact Within.append (Deals.delete rfl (.delete rfl .nil)) (Deals.counters _)
  cases o with
  | delivered =>
    simp only [Node.Outcome.batch, Deliveries.deliveredOps, toOps_append,
      toOps_ofOps, toOps_releaseOp, append_nil]
    exact Within.append (Deals.delete rfl (.delete rfl (.put rfl h .nil))) (Deals.counters _)
  | retry =>
    cases hrow : j.row with
    | none => simpa only [Node.Outcome.batch, hrow] using horphan none
    | some =>
      simp only [Node.Outcome.batch, hrow, Deliveries.retryOps, toOps_ofOps]
      exact Within.append (Within.append (Deals.put rfl h (.delete rfl .nil))
        (Deliveries.deals_dueOps _ _ _ _ _ h)) (Deals.counters _)
  | dead time error class? id =>
    cases hrow : j.row with
    | none => simpa only [Node.Outcome.batch, hrow] using horphan none
    | some =>
      simp only [Node.Outcome.batch, hrow, Deliveries.deadOps, Deliveries.leave,
        Deliveries.release, toOps_append, toOps_ofOps, toOps_releaseOp,
        append_nil]
      exact Within.append (Within.append (Within.append (Deals.put rfl h .nil)
        (Deals.delete rfl .nil)) (Deals.put rfl h (.put rfl h .nil))) (Deals.counters _)
  | orphan => exact horphan j.row

/-! ## Lanes -/

namespace Lanes

variable {P : Nat → Prop} {s : Store} {ord : Nat} {lane : Lane}

theorem deals_promoteOps {seq : Nat} (h : P seq) (sink size : Nat) (time : Ms) (replace : Bool) :
    Deals P (promoteOps ord lane seq sink size time replace) := by
  exact Within.append (Within.append (Deals.delete rfl (.shared rfl (.shared rfl .nil)))
    (Deliveries.deals_dueOps _ _ _ _ _ h)) (Deals.counters _)

theorem deals_vacateOps : Deals P (vacateOps ord lane) := .shared rfl (.counters _)

variable {durable : Nat}

theorem deals_releaseOps (time : Ms)
    (h : ∀ seq sink, s.get (.laneMember ord lane seq sink) ≠ none → seq ≤ durable → P seq) :
    Deals P (releaseOps s ord lane time durable) := by
  unfold releaseOps
  split
  next seq sink size hfirst =>
    split_ifs with hle
    · refine deals_promoteOps (h seq sink ?_ hle) _ _ _ _
      rw [mem_members (firstMember_mem hfirst)]
      simp
    · exact Within.append deals_vacateOps (Deals.shared rfl .nil)
  · exact deals_vacateOps

theorem deals_triage (time : Ms)
    (h : ∀ seq sink, s.get (.laneMember ord lane seq sink) ≠ none → seq ≤ durable → P seq) :
    Deals P (triage s ord lane time durable) := by
  unfold triage
  split
  · split
    · split_ifs
      · exact deals_releaseOps time h
      · exact .shared rfl .nil
    · exact .shared rfl .nil
    · exact deals_releaseOps time h
  · split
    next seq sink size hfirst =>
      split_ifs with hle
      · refine deals_promoteOps (h seq sink ?_ hle) _ _ _ _
        rw [mem_members (firstMember_mem hfirst)]
        simp
      · exact .nil
    · exact .shared rfl .nil

theorem deals_expand (time : Ms) {batch : List BatchOp}
    (h : ∀ ord lane seq sink, s.get (.laneMember ord lane seq sink) ≠ none → seq ≤ durable → P seq)
    (hbatch : Deals P (BatchOp.toOps batch)) (seen : List (Nat × Lane)) :
    Deals P (expand s time durable seen batch) := by
  induction batch generalizing seen with
  | nil => exact .nil
  | cons b batch ih =>
    cases b with
    | op o =>
      exact .cons (hbatch o mem_cons_self) (ih (fun x hx => hbatch x (mem_cons_of_mem _ hx)) seen)
    | laneRelease ord lane =>
      unfold expand
      split_ifs
      · exact ih hbatch seen
      · exact Within.append (deals_releaseOps time (h ord lane)) (ih hbatch _)

end Lanes

namespace Deliveries

variable {s : Store} {limit budget : Nat} {d : Due}

theorem deals_recoverInflight {P : Nat → Prop} (now : Ms)
    (h : ∀ ord seq sink, s.get (.inflight ord seq sink) ≠ none → P seq) :
    Deals P (recoverInflight s now) := by
  refine deals_coalesce fun op hop => ?_
  obtain ⟨⟨k, v⟩, he, hop⟩ := mem_flatMap.1 hop
  split at hop
  next ord seq sink size hk hv =>
    subst hk hv
    have hseq : P seq := h ord seq sink (by rw [KV.Map.get_of_mem_entries he]; simp)
    exact Deals.delete rfl (Within.append (deals_dueOps _ _ _ _ _ hseq) (Deals.counters _)) op hop
  · cases hop

theorem mem_takeBudget {n bytes : Nat} {ds : List Due}
    (h : d ∈ takeBudget limit budget n bytes ds) : d ∈ ds := by
  fun_induction takeBudget limit budget n bytes ds with
  | case1 => exact h
  | case2 bytes d' ds ih | case4 n bytes d' ds _ _ ih =>
    rcases mem_cons.1 h with rfl | h
    · exact mem_cons_self
    · exact mem_cons_of_mem _ (ih h)
  | case3 => cases h

/-- A due row that is read is stored, and due at the scan's ceiling. -/
theorem mem_dueForTenant {ord : Nat} {now floor : Ms}
    (h : d ∈ dueForTenant s ord now floor limit budget) :
    s.get (.due d.ord d.time d.seq d.sink) = some (.due d.size d.kind) ∧ d.time ≤ now := by
  have hrow := (mem_insertionSort _).1 (mem_takeBudget h)
  obtain ⟨⟨k, v⟩, he, heq⟩ := mem_filterMap.1 hrow
  split at heq
  next hk hv =>
    obtain ⟨hin, rfl⟩ := Run.guarded heq
    subst hk hv
    exact ⟨KV.Map.get_of_mem_entries he, hin.2.2⟩
  · cases heq

end Deliveries

end Ankusa
