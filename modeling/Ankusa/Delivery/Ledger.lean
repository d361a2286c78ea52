import Ankusa.Delivery.Build

set_option autoImplicit false

/-! # What every batch adds to the counters

A cell of the index weighs what its row, or its lane head, counts. `Books A ops ms` says of a batch
`ops` that makes the moves `ms` of the cells of `A`: it adds to every counter what the moves change,
and the rows it leaves carry their own size in their index keys. The counters are blind additions,
so this is all that keeps them exact. -/

namespace Ankusa.Delivery

open Deliveries KV Counters List Lanes

/-! ## What a row counts -/

/-- A lane head that waits for its retry. -/
def waits (o : Nat) : Kind → List Delta
  | .laneRetry => [(o, .lanesBlocked, 1)]
  | _ => []

/-- What a row of `size` bytes counts, by its place. -/
def Place.counts (size : Nat) : Place → List Delta
  | .due o _ _ kind => (o, dueField kind, 1) :: (o, .bytes, (size : Int)) :: waits o kind
  | .inflight o _ => [(o, .inflight, 1), (o, .bytes, size)]
  | .member o _ _ => [(o, .pending, 1), (o, .laneMembers, 1), (o, .bytes, size)]
  | .dead o _ _ _ => [(o, .dead, 1), (o, .bytes, size), (o, .deadBytes, size)]

/-- The size a row carries. -/
def bodySize : Val → Nat
  | .row row => row.size
  | _ => 0

/-- What a cell counts for the counter `x`. -/
def weight (x : Nat × Field) : Cell → Slot → Int
  | .row _ _, .row v p => gain (p.counts (bodySize v)) x
  | .head o _, .head _ _ => hit o .lanes 1 x
  | .row _ _, .head _ _ | .head _ _, .row _ _ => 0

/-- The key of a counter. -/
def counterKey (x : Nat × Field) : Key := .counter x.1 x.2

/-- The index keys carry the size of the row, and the tenant has an ordinal. -/
def Place.sized (size : Nat) : Place → Prop
  | .due o _ n _ | .inflight o n | .member o _ n => o ≠ 0 ∧ n = size
  | .dead o _ _ _ => o ≠ 0

/-- The row carries the size its index key has, and a head belongs to a tenant. -/
def Slot.sized : Cell → Slot → Prop
  | .row _ _, .row (.row stored) p => p.sized stored.size
  | .head o _, .head _ _ => o ≠ 0
  | _, _ => False

theorem gain_blocked (o : Nat) (kind : Kind) (x : Nat × Field) :
    gain (blocked o kind) x = -gain (waits o kind) x := by
  cases kind <;> simp [blocked, waits]

/-! ## Additions of a piece of a batch -/

/-- Whether the key is a counter. -/
def countsKey : Key → Bool
  | .counter _ _ => true
  | _ => false

/-- The piece changes counters by additions only, and adds `ds`. -/
structure Adds (ops : List Op) (ds : List Delta) : Prop where
  merges : ∀ op ∈ ops, countsKey op.key = true → op.merges = true
  delta : ∀ x, KV.delta ops (counterKey x) = gain ds x

theorem Adds.append {ops ops' : List Op} {ds ds' : List Delta} (h : Adds ops ds)
    (h' : Adds ops' ds') : Adds (ops ++ ops') (ds ++ ds') where
  merges := forall_mem_append.2 ⟨h.merges, h'.merges⟩
  delta x := by rw [delta_append, h.delta, h'.delta, gain_append]

theorem Adds.none {ops : List Op} (h : ∀ op ∈ ops, countsKey op.key = false) : Adds ops [] where
  merges op hop hkey := by
    rw [h op hop] at hkey
    cases hkey
  delta x := delta_eq_zero fun op hop he => by
    have hfalse := h op hop
    rw [he] at hfalse
    cases hfalse

theorem Adds.counters {ds : List Delta} (h : ∀ d ∈ ds, d.1 ≠ 0) : Adds (Counters.ops ds) ds where
  merges op hop _ := by
    obtain ⟨o, f, d, rfl⟩ := Counters.mem_ops hop
    rfl
  delta x := delta_counterOps h x

/-- Operations that count nothing, then the deltas of one transition. -/
theorem Adds.of_append {ops : List Op} {ds : List Delta}
    (hops : ∀ op ∈ ops, countsKey op.key = false)
    (hds : ∀ d ∈ ds, d.1 ≠ 0) : Adds (ops ++ Counters.ops ds) ds :=
  (Adds.none hops).append (.counters hds)

variable {n : Nat} {row' : Row}

attribute [local simp] countsKey Place.counts

theorem adds_due {o : Nat} {t : Ms} {q i : Nat} {kind : Kind} : Adds (dueOps o t q i n kind) [] :=
  .none (by simp [dueOps])

theorem adds_member {o : Nat} {t : Ms} {q i : Nat} {l : Lane} (ho : o ≠ 0) :
    Adds (memberOps o t q i n l) [(o, .laneMembers, 1)] :=
  .of_append (by simp) (by simpa using ho)

/-! ## Balanced batches -/

/-- The batch adds to the counters what its moves change. -/
structure Books (A : Map Cell Slot) (ops : List Op) (ms : Moves) : Prop where
  merges : ∀ op ∈ ops, countsKey op.key = true → op.merges = true
  balanced : Layout.Balanced counterKey weight A ops ms
  sized : ∀ m ∈ ms, ∀ e, m.upd (A.get m.cell) = some e → e.sized m.cell

section Books

variable {A B : Map Cell Slot} {ops ops' : List Op} {ms ms' : Moves}

theorem Books.append (h : Books A ops ms) (h' : Books A ops' ms') :
    Books A (ops ++ ops') (ms ++ ms') where
  merges := forall_mem_append.2 ⟨h.merges, h'.merges⟩
  balanced := h.balanced.append h'.balanced
  sized := forall_mem_append.2 ⟨h.sized, h'.sized⟩

theorem Books.nil : Books A [] [] where
  merges _ hop := absurd hop not_mem_nil
  balanced := .nil
  sized _ hm := absurd hm not_mem_nil

variable {α : Type} {xs : List α}

theorem Books.flatMap {ops : α → List Op} {ms : α → Moves}
    (h : ∀ x ∈ xs, Books A (ops x) (ms x)) : Books A (xs.flatMap ops) (xs.flatMap ms) where
  merges := forall_mem_flatMap.2 fun x hx => (h x hx).merges
  balanced := .flatMap fun x hx => (h x hx).balanced
  sized := forall_mem_flatMap.2 fun x hx => (h x hx).sized

theorem Books.map {ops : α → List Op} {move : α → Move Cell Slot Obs}
    (h : ∀ x ∈ xs, Books A (ops x) [move x]) : Books A (xs.flatMap ops) (xs.map move) := by
  rw [map_eq_flatMap]
  exact .flatMap h

theorem Books.coalesce (h : Books A ops ms) : Books A (coalesce ops) ms where
  merges := within_coalesce h.merges fun _ _ _ _ => rfl
  balanced x := (delta_coalesce ops x.1 x.2).trans (h.balanced x)
  sized := h.sized

theorem Books.congr (h : Books A ops ms) (hsame : ∀ m ∈ ms, B.get m.cell = A.get m.cell) :
    Books B ops ms where
  merges := h.merges
  balanced := h.balanced.congr hsame
  sized m hm := by
    rw [hsame m hm]
    exact h.sized m hm

theorem Books.perm (h : Books A ops ms) (hp : ms.Perm ms') : Books A ops ms' where
  merges := h.merges
  balanced x := (h.balanced x).trans (hp.map _).sum_eq
  sized m hm := h.sized m (hp.mem_iff.2 hm)

theorem Books.none (h : ∀ op ∈ ops, countsKey op.key = false) : Books A ops [] where
  merges := (Adds.none h).merges
  balanced x := (Adds.none h).delta x
  sized _ hm := absurd hm not_mem_nil

/-! ### One row -/

section Row

variable {q i : Nat} {row : Row} {p p' : Place} {ds : List Delta}

theorem books_new (hadds : Adds ops ds) (hget : A.get (.row q i) = none) (hsized : p.sized row.size)
    (hgain : ∀ x, gain ds x = gain (p.counts row.size) x) :
    Books A ops [rowMove q i none (some (.row row)) (some p)] where
  merges := hadds.merges
  balanced x := by
    rw [hadds.delta, hgain, map_singleton, sum_singleton, rowMove_cell, hget]
    exact (sub_zero _).symm
  sized m hm e he := by
    obtain rfl := mem_singleton.1 hm
    cases he
    exact hsized

variable (hget : A.get (.row q i) = some (.row (.row row) p))

include hget

theorem books_carry (hadds : Adds ops ds) (hsized : p'.sized row.size)
    (hgain : ∀ x, gain ds x = gain (p'.counts row.size) x - gain (p.counts row.size) x) :
    Books A ops [rowMove q i (some p) none (some p')] where
  merges := hadds.merges
  balanced x := by
    rw [hadds.delta, hgain, map_singleton, sum_singleton, rowMove_cell, hget]
    rfl
  sized m hm e he := by
    obtain rfl := mem_singleton.1 hm
    rw [rowMove_cell, hget] at he
    cases he
    exact hsized

theorem books_put (hadds : Adds ops ds) (hsized : p'.sized row'.size)
    (hgain : ∀ x, gain ds x = gain (p'.counts row'.size) x - gain (p.counts row.size) x) :
    Books A ops [rowMove q i (some p) (some (.row row')) (some p')] where
  merges := hadds.merges
  balanced x := by
    rw [hadds.delta, hgain, map_singleton, sum_singleton, rowMove_cell, hget]
    rfl
  sized m hm e he := by
    obtain rfl := mem_singleton.1 hm
    cases he
    exact hsized

theorem books_gone (hadds : Adds ops ds) (hgain : ∀ x, gain ds x = -gain (p.counts row.size) x) :
    Books A ops [rowMove q i (some p) none none] where
  merges := hadds.merges
  balanced x := by
    rw [hadds.delta, hgain, map_singleton, sum_singleton, rowMove_cell, hget]
    exact (zero_sub _).symm
  sized m hm e he := by
    obtain rfl := mem_singleton.1 hm
    cases he

end Row

/-! ### One head -/

section Head

variable {o : Nat} {l : Lane} {ds : List Delta} {r : Nat × Nat}

theorem adds_vacate (ho : o ≠ 0) : Adds (vacateOps o l) [(o, .lanes, -1)] := by
  have hhead : Adds [.delete (.laneHead o l)] [] := .none (by simp)
  exact hhead.append (.counters (by simpa using ho))

theorem books_vacate (ho : o ≠ 0) (hget : A.get (.head o l) = some (.head r.1 r.2)) :
    Books A (vacateOps o l) [headMove o l (some r) none] where
  merges := (adds_vacate ho).merges
  balanced x := by
    rw [(adds_vacate ho).delta, map_singleton, sum_singleton, headMove_cell, hget]
    simp [headMove, weight]
  sized m hm e he := by
    obtain rfl := mem_singleton.1 hm
    cases he

theorem books_stay (ho : o ≠ 0) (hget : A.get (.head o l) = some (.head r.1 r.2)) :
    Books A [] [headMove o l (some r) (some r)] where
  merges _ hop := absurd hop not_mem_nil
  balanced x := by
    rw [map_singleton, sum_singleton, headMove_cell, hget]
    exact (sub_self _).symm
  sized m hm e he := by
    obtain rfl := mem_singleton.1 hm
    cases he
    exact ho

/-- A member becomes the head: of a lane that has one already, or of a vacant one. -/
theorem books_promote {q i : Nat} {t : Ms} {row : Row} (src : Option (Nat × Nat))
    (hrow : A.get (.row q i) = some (.row (.row row) (.member o l n)))
    (hsized : (Place.member o l n).sized row.size)
    (hhead : A.get (.head o l) = src.map fun r => .head r.1 r.2) :
    Books A (promoteOps o l q i n t src.isSome) (promoteMoves o l q i n t src) := by
  have hadds : Adds (promoteOps o l q i n t src.isSome)
      ((o, .laneMembers, -1) :: if src.isSome then [] else [(o, .lanes, 1)]) := by
    refine Adds.of_append (by simp [dueOps]) (forall_mem_cons.2 ⟨hsized.1, ?_⟩)
    split
    · exact forall_mem_nil _
    · exact forall_mem_singleton.2 hsized.1
  refine ⟨hadds.merges, fun x => ?_, ?_⟩
  · rw [hadds.delta]
    unfold promoteMoves
    rw [map_cons, map_singleton, sum_cons, sum_singleton, rowMove_cell, headMove_cell, hrow, hhead]
    cases src with
    | none | some =>
      simp [rowMove, headMove, weight, bodyOf, bodySize, waits, dueField]
  · unfold promoteMoves
    refine forall_mem_cons.2 ⟨fun e he => ?_, fun m hm e he => ?_⟩
    · rw [rowMove_cell, hrow] at he
      cases he
      exact hsized
    · obtain rfl := mem_singleton.1 hm
      cases he
      exact hsized.1

end Head

end Books

/-! ## The batches -/

/-- A row that decodes, in the place, with its size. -/
def RowAt (A : Map Cell Slot) (q i : Nat) (p : Place) (row : Row) : Prop :=
  A.get (.row q i) = some (.row (.row row) p) ∧ p.sized row.size

section Batches

variable {A : Map Cell Slot} {row : Row} {seq q i : Nat} {p : Place} {out : List Delta}

theorem New.books {n : New} (ho : n.ord ≠ 0) (hget : A.get (.row seq n.sink) = none) :
    Books A (n.ops seq) [n.move seq] := by
  unfold New.ops New.move New.place
  cases hlane : n.lane with
  | none =>
    refine books_new (Adds.of_append (by simp [dueOps]) (by simpa using ho)) hget
      ⟨ho, rfl⟩ fun x => ?_
    simp [waits, dueField, New.row, newRow]
  | some x =>
    obtain ⟨lane, key⟩ := x
    refine books_new (((Adds.none (by simp)).append (adds_member ho)).append
      (.counters (by simpa using ho))) hget ⟨ho, rfl⟩ fun x => ?_
    simp [New.row, newRow]
    omega

theorem books_commit {hooks : List (List New)} (hok : hooks.all hookOk = true)
    (hfresh : ∀ q i, seq ≤ q → A.get (.row q i) = none) :
    Books A (commitOps seq hooks) (commitMoves seq hooks) := by
  induction hooks generalizing seq with
  | nil => exact .nil
  | cons hook hooks ih =>
    rw [all_cons, Bool.and_eq_true] at hok
    have hords : ∀ n ∈ hook, n.ord ≠ 0 := by
      intro n hn
      simp only [hookOk, Bool.and_eq_true, all_eq_true, decide_eq_true_eq] at hok
      have hpos := (hok.1.2 n hn).1
      omega
    refine .append (.map fun n hn => New.books (hords n hn) (hfresh _ _ le_rfl))
      (ih hok.2 fun q i hq => ?_)
    exact hfresh q i (by omega)

theorem books_claim {d : Due} (h : RowAt A d.seq d.sink (.due d.ord d.time d.size d.kind) row) :
    Books A ([.delete (.due d.ord d.time d.seq d.sink),
      .put (.inflight d.ord d.seq d.sink) (.size d.size)] ++
      Counters.ops ([(d.ord, dueField d.kind, -1), (d.ord, .inflight, 1)] ++ blocked d.ord d.kind))
      [claimMove d] := by
  have hord : ∀ x ∈ [(d.ord, dueField d.kind, (-1 : Int)), (d.ord, Field.inflight, 1)] ++
      blocked d.ord d.kind, x.1 ≠ 0 := by
    have ho := h.2.1
    cases hk : d.kind <;> simp [blocked, ho]
  refine books_carry h.1 (Adds.of_append (by simp) hord) h.2 fun x => ?_
  simp [gain_blocked]
  omega

theorem books_recover {o : Nat} {t : Ms} {k : Kind} (h : RowAt A q i (.inflight o n) row)
    (hk : k = .firstAttempt ∨ k = .laneFirst) :
    Books A (.delete (.inflight o q i) :: (dueOps o t q i n k ++
      Counters.ops [(o, .inflight, -1), (o, .pending, 1)]))
      [rowMove q i (some (.inflight o n)) none (some (.due o t n k))] := by
  have ho := h.2.1
  rw [← cons_append]
  refine books_carry h.1 (Adds.of_append (by simp [dueOps]) (by simpa using ho)) h.2 fun x => ?_
  rcases hk with rfl | rfl
  all_goals
    simp [waits, dueField]
    omega

/-! ### Lanes -/

/-- The member that a release promotes is one of the map. -/
def Promotable (A : Map Cell Slot) (s : Store) (o : Nat) (l : Lane) (durable : Nat) : Prop :=
  ∀ q i n, nextHead s o l durable = some (q, i, n) → ∃ row, RowAt A q i (.member o l n) row

section Lane

variable {s : Store} {o : Nat} {l : Lane} {t : Ms} {durable : Nat} {r : Nat × Nat}

theorem books_release (ho : o ≠ 0) (hhead : A.get (.head o l) = some (.head r.1 r.2))
    (hnext : Promotable A s o l durable) :
    Books A (releaseOps s o l t durable) (handMoves o l t (some r) (nextHead s o l durable)) := by
  refine release_rule (P :=
    fun ops m => Books A ops (handMoves o l t (some r) m)) (fun q i n hm => ?_)
    (books_vacate ho hhead) ((books_vacate ho hhead).append (.none (by simp)))
  obtain ⟨row, hrow, hsized⟩ := hnext q i n hm
  exact books_promote (some r) hrow hsized hhead

theorem books_passOn {row : Option Row} (ho : o ≠ 0)
    (hhead : ∀ l key, row.bind Row.lane = some (l, key) → A.get (.head o l) = some (.head r.1 r.2))
    (hnext : ∀ l, Promotable A s o l durable) :
    Books A ((releaseOp o row).flatMap (expandOne s t durable)) (passOn s o row r t durable) := by
  unfold releaseOp passOn
  cases hlane : row.bind Row.lane with
  | none => exact .nil
  | some x =>
    obtain ⟨l, key⟩ := x
    rw [flatMap_singleton]
    exact books_release ho (hhead l key hlane) (hnext l)

theorem books_triage (ho : ∀ r, Lanes.head s o l = some r → o ≠ 0)
    (hhead : A.get (.head o l) = (Lanes.head s o l).map fun r => .head r.1 r.2)
    (hnext : Promotable A s o l durable) :
    Books A (Lanes.triage s o l t durable) (triageMoves s o l t durable) := by
  refine triage_rule (fun r hr => ?_) (fun q i n hr hm => ?_) (.none (by simp)) .nil
  · rw [hr] at hhead
    exact books_release (ho r hr) hhead hnext
  · rw [hr] at hhead
    obtain ⟨row, hrow, hsized⟩ := hnext q i n hm
    exact books_promote none hrow hsized hhead

end Lane

/-! ### Outcomes -/

/-- A job, and an outcome, carries the size of its row. -/
def Job.sized (j : Job) : Prop := j.row.size = j.size

/-- The job of the result has the size of its row. -/
def Result.sized : Result → Prop
  | .delivered j | .retry j _ _ | .dead j _ _ _ _ => j.sized
  | .orphan _ _ _ _ _ | .expand _ _ _ _ _ _ _ _ => True

variable {o : Nat} {k : Key}

theorem books_orphan (h : RowAt A q i p row)
    (ho : o ≠ 0) (hk : countsKey k = false) (hout : ∀ d ∈ out, d.1 ≠ 0)
    (hgain : ∀ x, gain out x = -gain (p.counts row.size) x + hit o .bytes (row.size : Int) x)
    (hn : n = row.size) :
    Books A (([.delete (.delivery q i)] : List Op) ++ ([.delete k] : List Op) ++
      Counters.ops (out ++ [(o, .bytes, -(n : Int))])) [rowMove q i (some p) none none] := by
  subst hn
  refine books_gone h.1 (Adds.of_append (by simpa using hk)
    (forall_mem_append.2 ⟨hout, forall_mem_singleton.2 ho⟩)) fun x => ?_
  simp [hgain]

variable {source : String} {id : Option String}

theorem books_bury {t : Ms} (h : RowAt A q i p row) (ho : o ≠ 0)
    (hk : countsKey k = false) (hout : ∀ d ∈ out, d.1 ≠ 0) (hsize : row'.size = row.size)
    (hgain : ∀ x, gain out x = -gain (p.counts row.size) x + hit o .bytes (row.size : Int) x) :
    Books A (([.put (.delivery q i) (.row row')] : List Op) ++ ([.delete k] : List Op) ++
      ([.put (.dead t q i) (.owner source id o), .put (.deadByTenant o t q i) .empty] : List Op) ++
      Counters.ops (out ++ [(o, .dead, 1), (o, .deadBytes, (row'.size : Int))]))
      [rowMove q i (some p) (some (.row row')) (some (.dead o t source id))] := by
  refine books_put h.1 (Adds.of_append (by simpa using hk)
    (forall_mem_append.2 ⟨hout, by simp [ho]⟩)) ho fun x => ?_
  simp [hgain, hsize]
  omega

/-- What a claimed row leaves behind. -/
theorem gain_leave_inflight (o n : Nat) (size : Nat) (x : Nat × Field) :
    gain [(o, .inflight, -1)] x = -gain ((Place.inflight o n).counts size) x +
    hit o .bytes (size : Int) x := by
  simp

theorem books_retry {j : Job} (h : RowAt A j.seq j.sink (.inflight j.ord j.size) row)
    (hsize : j.row.size = row.size) (time : Ms) (error : String) :
    Books A (([.put (.delivery j.seq j.sink) (.row (retried j.row time error)),
      .delete (.inflight j.ord j.seq j.sink)] : List Op) ++
      dueOps j.ord time j.seq j.sink j.row.size (retryKind j.row) ++
      Counters.ops (([(j.ord, .inflight, -1), (j.ord, .scheduled, 1)] : List Delta) ++
        if j.row.lane.isSome then [(j.ord, .lanesBlocked, 1)] else []))
      [rowMove j.seq j.sink (some (.inflight j.ord j.size)) (some (.row (retried j.row time error)))
        (some (.due j.ord time j.row.size (retryKind j.row)))] := by
  have ho : j.ord ≠ 0 := h.2.1
  refine books_put h.1 (Adds.of_append (by simp [dueOps]) ?_) ⟨ho, rfl⟩ fun x => ?_
  · by_cases hlane : j.row.lane.isSome = true
    all_goals simpa [hlane] using ho
  have hsame : (retried j.row time error).size = row.size := hsize
  rw [hsame]
  unfold retryKind
  by_cases hlane : j.row.lane.isSome = true
  all_goals
    simp [hlane, waits, dueField]
    omega

theorem books_stayOn {ops : List Op} {ms : Moves} {r : Nat × Nat} (h : Books A ops ms)
    (ho : o ≠ 0) (hhead : ∀ l key, row.lane = some (l, key) →
      A.get (.head o l) = some (.head r.1 r.2)) :
    Books A ops (ms ++ stayOn o row r) := by
  unfold stayOn
  cases hlane : row.lane with
  | none =>
    rw [append_nil]
    exact h
  | some x =>
    obtain ⟨l, key⟩ := x
    rw [← append_nil ops]
    exact h.append (books_stay ho (hhead l key hlane))

section

variable (hsized : ∀ c e, A.get c = some e → e.sized c)
include hsized

theorem rowAt_of_obs (h : obs (A.get (.row q i)) = .row p) : ∃ row, RowAt A q i p row := by
  obtain ⟨v, hv⟩ := obs_eq_row.1 h
  have hs := hsized _ _ hv
  cases v with
  | row row => exact ⟨row, hv, hs⟩
  | _ => exact absurd hs id

variable {t : Ms} {durable : Nat}

/-- An outcome, its placeholder resolved. -/
theorem Result.books {s : Store} {r : Result} (hrelies : ∀ c ∈ r.relies, obs (A.get c.1) = c.2)
    (hnext : ∀ o l, Promotable A s o l durable) (hr : r.sized) :
    Books A (r.ops.flatMap (expandOne s t durable)) (r.moves s t durable) := by
  obtain ⟨row, hrow⟩ := rowAt_of_obs hsized (hrelies _ (Result.claimed_mem r))
  have hhead : ∀ l key, r.row.bind Row.lane = some (l, key) →
      A.get (.head r.ord l) = some (.head r.id.1 r.id.2) :=
    fun l key hlane => obs_eq_head.1 (hrelies _ (Result.head_mem hlane))
  cases r with
  | delivered j =>
    unfold Result.ops deliveredOps
    rw [flatMap_append, flatMap_ofOps]
    refine .append (books_gone hrow.1 (Adds.of_append (by simp) ?_) fun x => ?_)
      (books_passOn hrow.2.1 hhead fun l => hnext _ l)
    · have ho : j.ord ≠ 0 := hrow.2.1
      simpa using ho
    · have hsize : j.size = row.size := hrow.2.2
      simp [hsize]
      omega
  | retry j time error =>
    unfold Result.ops retryOps
    rw [flatMap_ofOps]
    exact books_stayOn (books_retry hrow (hr.trans hrow.2.2) time error) hrow.2.1 hhead
  | dead j time error class? owner =>
    have hsize : j.row.size = row.size := hr.trans hrow.2.2
    have ho : j.ord ≠ 0 := hrow.2.1
    unfold Result.ops deadOps
    rw [flatMap_append, flatMap_ofOps]
    exact .append (books_bury hrow ho rfl (by simpa [leave] using ho) hsize
      (gain_leave_inflight _ _ _)) (books_passOn ho hhead fun l => hnext _ l)
  | orphan ord =>
    have ho : ord ≠ 0 := hrow.2.1
    unfold Result.ops orphanOps
    rw [flatMap_append, flatMap_ofOps]
    exact .append (books_orphan hrow ho rfl (by simpa [leave] using ho)
      (gain_leave_inflight _ _ _) hrow.2.2) (books_passOn ho hhead fun l => hnext _ l)
  | expand ord seq sink size sourceId sinks existing now =>
    have hrow : RowAt A seq sink (.inflight ord size) row := hrow
    have ho : ord ≠ 0 := hrow.2.1
    have hfresh : Books A ((sinks.zipIdx.filter fun p => p.2 ∉ existing).flatMap fun p =>
        newOps ord now seq p.2 size (newRow p.1 now size sourceId none none) none)
        (freshMoves ord seq size sourceId sinks existing now) := by
      refine .map fun p hp => books_new (Adds.of_append (by simp [dueOps])
        (by simpa using ho)) ?_ ⟨ho, rfl⟩ fun x => ?_
      · exact obs_eq_none.1 (hrelies _ (mem_cons_of_mem _ (mem_map_of_mem hp)))
      · simp [waits, dueField, newRow]
    have hown := books_orphan hrow ho (k := .inflight ord seq sink) rfl
      (by simpa using ho) (gain_leave_inflight _ _ _) hrow.2.2
    have hcleared :
        Books A (if sinks = [] then [.put (.cleared seq 0 sink) .empty] else []) [] := by
      split
      · exact .none (forall_mem_singleton.2 rfl)
      · exact .none (forall_mem_nil _)
    have hperm : (freshMoves ord seq size sourceId sinks existing now ++
        [rowMove seq sink (some (.inflight ord size)) none none] ++ []).Perm
        (Result.expand ord seq sink size sourceId sinks existing now).own := by
      rw [append_nil]
      exact perm_append_singleton _ _
    have hall := ((hfresh.append hown).append hcleared).perm hperm
    unfold Result.ops expandOps Result.moves Result.lanes
    rw [append_nil]
    simp only [flatMap_append, flatMap_ofOps, orphanOps, release, releaseOp]
    simpa [leave] using hall

theorem books_flush {s : Store} {rs : List Result}
    (hrelies : ∀ r ∈ rs, ∀ c ∈ r.relies, obs (A.get c.1) = c.2)
    (hnext : ∀ o l, Promotable A s o l durable) (hr : ∀ r ∈ rs, r.sized)
    (hrel : (releases (rs.flatMap Result.ops)).Nodup) :
    Books A (buildOps s t durable (rs.flatMap Result.ops))
    (rs.flatMap (Result.moves s t durable)) := by
  unfold buildOps
  rw [expand_eq_flatMap s t durable [] _ hrel fun _ _ => not_mem_nil, flatMap_assoc]
  exact (Books.flatMap fun r hmem =>
    Result.books hsized (hrelies r hmem) hnext (hr r hmem)).coalesce

end

/-! ### Rows of a deleted source -/

theorem Pick.gain_leave (p : Pick) (size : Nat) (x : Nat × Field) :
    gain (leave p.ord p.id.1 p.id.2 p.src).2 x =
      -gain (p.place.counts size) x + hit p.ord .bytes (size : Int) x := by
  cases p with
  | due =>
    simp [leave, Pick.src, Pick.place, Pick.ord, gain_blocked]
    omega
  | member =>
    simp [leave, Pick.src, Pick.place, Pick.ord]
    omega

theorem Pick.leave_ord (p : Pick) (ho : p.ord ≠ 0) :
    ∀ d ∈ (leave p.ord p.id.1 p.id.2 p.src).2, d.1 ≠ 0 := by
  cases p with
  | due d => cases hk : d.kind <;> simpa [leave, Pick.src, blocked, hk] using ho
  | member => simpa [leave, Pick.src] using ho

theorem Pick.sized_ord {p : Pick} {size : Nat} (h : p.place.sized size) :
    p.ord ≠ 0 ∧ p.size = size := by
  cases p with
  | due | member => exact h

theorem Pick.books {s : Store} {t : Ms} {error : String} {durable : Nat}
    {p : Pick × Option (String × Option String)}
    (hrow : ∀ row, load s p.1.id.1 p.1.id.2 = .row row → RowAt A p.1.id.1 p.1.id.2 p.1.place row)
    (hhead : ∀ row l key, load s p.1.id.1 p.1.id.2 = .row row → row.lane = some (l, key) →
      p.1.heads = true → A.get (.head p.1.ord l) = some (.head p.1.id.1 p.1.id.2))
    (hnext : ∀ o l, Promotable A s o l durable) :
    Books A ((Pick.ops s t error p).flatMap (expandOne s t durable))
    (Pick.moves s t error durable p) := by
  obtain ⟨k, v, hcontents, hleave⟩ := p.1.contents
  have hk : countsKey k = false := by
    have hcell := (Place.cellOf_contents (by rw [hcontents]; exact mem_singleton_self _)).1
    cases k with
    | counter => cases hcell
    | _ => rfl
  unfold Pick.moves Pick.own Pick.lanes Pick.ops
  cases hload : load s p.1.id.1 p.1.id.2 with
  | gone | damaged => exact .nil
  | row row =>
    have hat := hrow row hload
    obtain ⟨ho, hsize⟩ := Pick.sized_ord hat.2
    have hlanes : Books A ((release p.1.ord (some row) p.1.src).flatMap (expandOne s t durable))
        (if p.1.heads then passOn s p.1.ord (some row) p.1.id t durable else []) := by
      rw [p.1.release_eq]
      by_cases hheads : p.1.heads = true
      · rw [if_pos hheads, if_pos hheads]
        exact books_passOn ho (fun l key hlane => hhead row l key hload hlane hheads) (hnext _)
      · rw [if_neg hheads, if_neg hheads]
        exact .nil
    cases howner : p.2 with
    | some =>
      unfold deadOps
      rw [flatMap_append, flatMap_ofOps, hleave]
      exact .append (books_bury hat ho hk (p.1.leave_ord ho) rfl (p.1.gain_leave _)) hlanes
    | none =>
      unfold orphanOps
      rw [flatMap_append, flatMap_ofOps, hleave]
      exact .append (books_orphan hat ho hk (p.1.leave_ord ho) (p.1.gain_leave _) hsize) hlanes

/-! ### Purges -/

theorem books_purge {ds : List Delta} (h : RowAt A q i p row)
    (hk : countsKey k = false) (hds : ∀ d ∈ ds, d.1 ≠ 0)
    (hgain : ∀ x, gain ds x = -gain (p.counts row.size) x) :
    Books A (purgeRow k q i ds) [rowMove q i (some p) none none] := by
  exact books_gone h.1 (Adds.of_append (by simpa using hk) hds) hgain

theorem books_heads {s : Store} {ord : Nat} {pairs : List (Nat × Nat)} (ho : pairs ≠ [] → ord ≠ 0)
    (hhead : ∀ r ∈ pairs, ∀ row l key, s.get (.delivery r.1 r.2) = some (.row row) →
      row.lane = some (l, key) → A.get (.head ord l) = some (.head r.1 r.2)) :
    Books A (headOps s ord pairs) (pairs.flatMap (headMoves s ord)) := by
  refine .flatMap fun r hr => ?_
  unfold headMoves
  cases hrow : s.get (.delivery r.1 r.2) with
  | none => exact .nil
  | some v =>
    cases v with
    | row row =>
      dsimp only
      cases hlane : row.lane with
      | none => exact .nil
      | some x =>
        obtain ⟨l, key⟩ := x
        exact books_vacate (ho (ne_nil_of_mem hr)) (hhead r hr row l key hrow hlane)
    | _ => exact .nil

/-! ### The DLQ -/

variable {h : Hit} {s : Store} (hat : RowAt A h.seq h.sink (.dead h.ord h.time source id) row)
include hat

theorem books_evict (hsize : rowSize s h.seq h.sink = row.size) :
    Books A (evictRow (rowSize s h.seq h.sink) h)
    [rowMove h.seq h.sink (some (.dead h.ord h.time source id)) none none] := by
  have ho : h.ord ≠ 0 := hat.2
  refine books_gone hat.1 (Adds.of_append (by simp [deadGone]) (by simpa using ho)) fun x => ?_
  simp [hsize]
  omega

theorem books_purgeDead (hsize : rowSize s h.seq h.sink = row.size) :
    Books A (purgeDeadRow s h)
    [rowMove h.seq h.sink (some (.dead h.ord h.time source id)) none none] := by
  have ho : h.ord ≠ 0 := hat.2
  refine books_gone hat.1 (Adds.of_append (by simp) (by simpa using ho)) fun x => ?_
  simp [hsize]
  omega

theorem books_revive {now : Ms} {replay : String} :
    Books A ([.put (.delivery h.seq h.sink) (.row (revived row now replay))] ++ deadGone h ++
      requeueOps h.ord now h.seq h.sink row.size (revived row now replay) ++
      Counters.ops [(h.ord, .dead, -1), (h.ord, .deadBytes, -(row.size : Int)),
        (h.ord, .pending, 1)])
      [rowMove h.seq h.sink (some (.dead h.ord h.time source id))
        (some (.row (revived row now replay)))
        (some (requeued h.ord now row.size (revived row now replay)))] := by
  have ho : h.ord ≠ 0 := hat.2
  have hcounters : Adds (Counters.ops [(h.ord, .dead, -1), (h.ord, .deadBytes, -(row.size : Int)),
      (h.ord, .pending, 1)]) _ := .counters (by simpa using ho)
  have hrow : Adds ([.put (.delivery h.seq h.sink) (.row (revived row now replay))] ++
      deadGone h) [] := .none (by simp [deadGone])
  unfold requeueOps requeued
  cases hlane : (revived row now replay).lane with
  | none =>
    refine books_put hat.1 ((hrow.append adds_due).append hcounters) ⟨ho, rfl⟩ fun x => ?_
    simp [waits, dueField, revived]
    omega
  | some x =>
    obtain ⟨lane, key⟩ := x
    refine books_put hat.1 ((hrow.append (adds_member ho)).append hcounters) ⟨ho, rfl⟩ fun x => ?_
    simp [revived]
    omega

end Batches

end Ankusa.Delivery
