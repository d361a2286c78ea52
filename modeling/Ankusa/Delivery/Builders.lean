import Ankusa.Queue.Deliveries

set_option autoImplicit false

/-! # Rows back from the DLQ, rows dropped for good, and rows expanded

The operation builders of `queue/deliveries.ex` that the writer and the claim rounds do not use: a
dead row revived by a replay job or evicted by a reaper, an imported row replaced by one row for
each sink of its source, and the chunks in which a tenant's rows are purged. -/

namespace Ankusa.Deliveries

/-! ## Imported rows -/

/-- The sink of an imported row whose own was never recorded. -/
def unresolvedDead : Nat := 0xFFFE

/-- The sink of an imported row that was still to be delivered. -/
def unresolvedPending : Nat := 0xFFFF

/-- Whether the row was imported without its sink. -/
def unresolved (sink : Nat) : Bool := decide (unresolvedDead ≤ sink)

/-- The sinks of a hook that have a row. -/
def existingSinks (s : Store) (seq : Nat) : List Nat :=
  s.keys.filterMap fun
    | .delivery q sink => if q = seq ∧ unresolved sink = false then some sink else none
    | _ => none

/-- An imported row makes way for one pending row for every sink of its source that has none yet; a
    source without sinks just clears it. The imported row is claimed when this runs. -/
def expandOps (ord seq sink size : Nat) (sourceId : String) (sinks : List String)
    (existing : List Nat) (now : Ms) : List BatchOp :=
  let rows := sinks.zipIdx.filter fun p => p.2 ∉ existing
  let fresh := rows.flatMap fun p =>
    newOps ord now seq p.2 size (newRow p.1 now size sourceId none none) none
  let cleared : List Op := if sinks = [] then [.put (.cleared seq 0 sink) .empty] else []
  BatchOp.ofOps fresh ++ orphanOps .inflight ord seq sink size none ++ BatchOp.ofOps cleared

/-! ## The DLQ -/

/-- A dead row as a page of the DLQ reads it: its key, and the tenant of its value. -/
structure Hit where
  time : Ms
  seq : Nat
  sink : Nat
  ord : Nat
  deriving DecidableEq

/-- Both dead keys of a row. -/
def deadGone (h : Hit) : List Op :=
  [.delete (.dead h.time h.seq h.sink), .delete (.deadByTenant h.ord h.time h.seq h.sink)]

/-- A revived row of a lane joins it again as a member, not as a due row. -/
def requeueOps (ord : Nat) (now : Ms) (seq sink size : Nat) (row : Row) : List Op :=
  match row.lane with
  | some (lane, _) => Lanes.memberOps ord now seq sink size lane
  | none => dueOps ord now seq sink size .firstAttempt

/-- A row as a replay job gives it back to dispatch. -/
def revived (row : Row) (now : Ms) (replay : String) : Row :=
  { row with state := .pending, attempts := 0, time := now, error := none, errorClass := none,
             replay := some replay }

/-- Move a dead row back to pending. A row of another class, and one that does not decode, stays
    dead; a dead key whose row is gone is deleted. -/
def reviveRow (s : Store) (now : Ms) (replay : String) (class? : Option ErrorClass) (h : Hit) :
    List Op :=
  match s.get (.delivery h.seq h.sink) with
  | some (.row row) =>
    if class? = none ∨ row.errorClass = class? then
      [.put (.delivery h.seq h.sink) (.row (revived row now replay))] ++ deadGone h ++
        requeueOps h.ord now h.seq h.sink row.size (revived row now replay) ++
        Counters.ops [(h.ord, .dead, -1), (h.ord, .deadBytes, -(row.size : Int)),
          (h.ord, .pending, 1)]
    else []
  | some _ => []
  | none => deadGone h ++ Counters.ops [(h.ord, .dead, -1)]

/-- The batch of a replay job: the rows of a page of dead rows, last row first. -/
def reviveOps (s : Store) (hits : List Hit) (now : Ms) (replay : String)
    (class? : Option ErrorClass) : List Op :=
  hits.reverse.flatMap (reviveRow s now replay class?)

/-- The size a row counts, zero when it does not decode. -/
def rowSize (s : Store) (seq sink : Nat) : Nat :=
  match s.get (.delivery seq sink) with
  | some (.row row) => row.size
  | _ => 0

/-- A dead row is dropped for good. -/
def evictRow (size : Nat) (h : Hit) : List Op :=
  deadGone h ++ [.delete (.delivery h.seq h.sink), .put (.cleared h.seq 0 h.sink) .empty] ++
    Counters.ops [(h.ord, .dead, -1), (h.ord, .bytes, -size), (h.ord, .deadBytes, -size)]

/-- Dead rows, each with the size that was read of it. -/
def sized (s : Store) (hits : List Hit) : List (Hit × Nat) :=
  hits.map fun h => (h, rowSize s h.seq h.sink)

/-- The reaper's batch, with the sizes it read for its rows. -/
def evictSized (rows : List (Hit × Nat)) : List Op :=
  coalesce (rows.flatMap fun p => evictRow p.2 p.1)

/-- `evict_ops`: the rows are read, and the batch is built from what was read. -/
def evictOps (s : Store) (hits : List Hit) : List Op := evictSized (sized s hits)

theorem evictOps_eq (s : Store) (hits : List Hit) :
    evictOps s hits = coalesce (hits.flatMap fun h => evictRow (rowSize s h.seq h.sink) h) := by
  rw [evictOps, evictSized, sized, List.flatMap_map]

/-- A batch whose sizes are still the ones in the store is the one that would be built now. -/
theorem evictSized_of_sized {s : Store} {rows : List (Hit × Nat)}
    (h : sized s (rows.map Prod.fst) = rows) :
    evictSized rows =
    coalesce ((rows.map Prod.fst).flatMap fun h => evictRow (rowSize s h.seq h.sink) h) := by
  rw [← evictOps_eq, evictOps, h]

/-! ## Purging a tenant -/

/-- The row and its index key go, and a cleared marker comes. -/
def purgeRow (key : Key) (seq sink : Nat) (deltas : List Counters.Delta) : List Op :=
  [.delete key, .delete (.delivery seq sink), .put (.cleared seq 0 sink) .empty] ++
    Counters.ops deltas

/-- The lane heads among the rows about to be purged go with them. -/
def headOps (s : Store) (ord : Nat) (pairs : List (Nat × Nat)) : List Op :=
  pairs.flatMap fun p =>
    match s.get (.delivery p.1 p.2) with
    | some (.row row) =>
      match row.lane with
      | some (lane, _) => Lanes.vacateOps ord lane
      | none => []
    | _ => []

/-- The due kinds of a lane head. -/
def headKind : Kind → Bool
  | .laneFirst | .laneRetry => true
  | .firstAttempt | .retry => false

/-- A purge deletes a due row. -/
def purgeDueRow (d : Due) : List Op :=
  purgeRow (.due d.ord d.time d.seq d.sink) d.seq d.sink
    ([(d.ord, dueField d.kind, -1), (d.ord, .bytes, -(d.size : Int))] ++ blocked d.ord d.kind)

/-- A page of a purge over the due rows of a tenant; the lanes they head lose their heads. -/
def purgeDue (s : Store) (ord : Nat) (rows : List Due) : List Op :=
  coalesce (headOps s ord ((rows.filter fun d => headKind d.kind).map fun d => (d.seq, d.sink)) ++
    rows.flatMap purgeDueRow)

/-- A claimed row as a scan reads it, or a member of a lane with the lane left out. -/
structure Claimed where
  seq : Nat
  sink : Nat
  size : Nat

/-- A purge deletes a row in flight. -/
def purgeInflightRow (ord : Nat) (c : Claimed) : List Op :=
  purgeRow (.inflight ord c.seq c.sink) c.seq c.sink
    [(ord, .inflight, -1), (ord, .bytes, -(c.size : Int))]

/-- A page of a purge over the rows in flight of a tenant. -/
def purgeInflight (s : Store) (ord : Nat) (rows : List Claimed) : List Op :=
  coalesce (headOps s ord (rows.map fun c => (c.seq, c.sink)) ++
    rows.flatMap (purgeInflightRow ord))

/-- A lane's member as a scan of the tenant reads it. -/
structure Member where
  lane : Lane
  seq : Nat
  sink : Nat
  size : Nat

/-- A purge deletes a member of a lane. -/
def purgeMemberRow (ord : Nat) (m : Member) : List Op :=
  purgeRow (.laneMember ord m.lane m.seq m.sink) m.seq m.sink
    [(ord, .pending, -1), (ord, .bytes, -(m.size : Int)), (ord, .laneMembers, -1)]

/-- A page of a purge over the lane members of a tenant. -/
def purgeMembers (ord : Nat) (rows : List Member) : List Op :=
  coalesce (rows.flatMap (purgeMemberRow ord))

/-- A purge deletes a dead row, with both its index keys. -/
def purgeDeadRow (s : Store) (h : Hit) : List Op :=
  let size : Int := rowSize s h.seq h.sink
  [.delete (.deadByTenant h.ord h.time h.seq h.sink), .delete (.dead h.time h.seq h.sink),
    .delete (.delivery h.seq h.sink), .put (.cleared h.seq 0 h.sink) .empty] ++
    Counters.ops [(h.ord, .dead, -1), (h.ord, .bytes, -size), (h.ord, .deadBytes, -size)]

/-- A page of a purge over the dead rows of a tenant. -/
def purgeDead (s : Store) (hits : List Hit) : List Op := coalesce (hits.flatMap (purgeDeadRow s))

/-- Delete the markers of lanes. -/
def deleteMarkers (ord : Nat) (lanes : List Lane) : List Op :=
  lanes.map fun l => .delete (.laneMarker ord l)

/-- Put the markers of lanes back. -/
def putMarkers (ord : Nat) (lanes : List Lane) : List Op :=
  lanes.map fun l => .put (.laneMarker ord l) .empty

end Ankusa.Deliveries
