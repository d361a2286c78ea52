import Ankusa.Store.Keys
import Mathlib.Algebra.Ring.Int.Defs
import Mathlib.Data.List.Dedup
import Mathlib.Data.List.Sort

set_option autoImplicit false

/-! # Delivery rows

The pure operation builders of `queue/deliveries.ex`, `queue/deliveries/counters.ex` and
`queue/deliveries/lanes.ex`: what a new delivery, a claim, a result and a lane's promotion put into
a batch. Every delivery row has one index key that says where it is (due, in flight, a lane member,
dead), each builder moves it in one batch, and the batch carries the counter deltas of the move.

A terminal transition of a lane's head carries a placeholder (`BatchOp.laneRelease`), resolved by
`Lanes.expand` in the step that writes the batch. -/

namespace Ankusa

/-! ## Counters -/

namespace Counters

/-- A change of one counter of one tenant. -/
abbrev Delta := Nat × Field × Int

/-- The deltas of each distinct key added up (`Map.update` over an empty map). -/
def sumBy {κ : Type} [DecidableEq κ] (ds : List (κ × Int)) : List (κ × Int) :=
  (ds.map Prod.fst).dedup.map fun k => (k, ((ds.filter (·.1 = k)).map Prod.snd).sum)

/-- One merge for each sum that is not zero. -/
def merges {κ : Type} (sums : List (κ × Int)) (toKey : κ → Key) : List Op :=
  (sums.filter (·.2 ≠ 0)).map fun p => .merge (toKey p.1) p.2

/-- The merges of `deltas`, one for each `(ord, field)`, plus the same deltas added into the node
    aggregate (ordinal 0). -/
def ops (deltas : List Delta) : List Op :=
  let perTenant := sumBy (deltas.map fun d => ((d.1, d.2.1), d.2.2))
  let aggregate := sumBy (perTenant.map fun p => (p.1.2, p.2))
  merges perTenant (fun k => .counter k.1 k.2) ++ merges aggregate (fun f => .counter 0 f)

/-- Merges on the node aggregate alone, for a change whose tenant has no ordinal. -/
def nodeOps (deltas : List (Field × Int)) : List Op :=
  merges deltas fun f => .counter 0 f

/-- One counter of `ord`, zero when it was never written. -/
def readField (s : Store) (ord : Nat) (field : Field) : Int :=
  KV.Num.read (s.get (.counter ord field))

end Counters

/-! ## Batches -/

/-- An operation of a dispatch batch: a store operation, or a lane to be released by the write. -/
inductive BatchOp where
  | op (op : Op)
  | laneRelease (ord : Nat) (lane : Lane)

/-- Store operations as operations of a dispatch batch. -/
def BatchOp.ofOps (ops : List Op) : List BatchOp := ops.map .op

namespace Deliveries

/-- The counter a due row of this kind is counted under. -/
def dueField : Kind → Field
  | .firstAttempt | .laneFirst => .pending
  | .retry | .laneRetry => .scheduled

/-- A lane head leaving the due index as a retry is a head no longer waiting. -/
def blocked (ord : Nat) : Kind → List Counters.Delta
  | .laneRetry => [(ord, .lanesBlocked, -1)]
  | _ => []

/-- A due row and its active marker: a due row is never written without one. -/
def dueOps (ord : Nat) (time : Ms) (seq sink size : Nat) (kind : Kind) : List Op :=
  [.put (.due ord time seq sink) (.due size kind), .put (.active (time / 1000) ord) .empty]

/-- Drop the counter merges of a batch, and every repetition of an active marker. -/
def keepOnce (seen : List Key) : List Op → List Op
  | [] => []
  | .merge (.counter _ _) _ :: ops => keepOnce seen ops
  | .put (.active b o) v :: ops =>
    if .active b o ∈ seen then keepOnce seen ops
    else .put (.active b o) v :: keepOnce (.active b o :: seen) ops
  | op :: ops => op :: keepOnce seen ops

/-- The counter merges of a batch. -/
def counterDeltas (ops : List Op) : List (Key × Int) :=
  ops.filterMap fun
    | .merge (.counter o f) d => some (.counter o f, d)
    | _ => none

/-- A batch with its counter merges folded into one for each key, and its repeated active markers
    into one. -/
def coalesce (ops : List Op) : List Op :=
  keepOnce [] ops ++ Counters.merges (Counters.sumBy (counterDeltas ops)) id

/-- Whether `op` puts an active-tenant marker or a lane marker, which other rows may rely on. -/
def activeMarkerPut : Op → Bool
  | .put (.active _ _) _ => true
  | .put (.laneMarker _ _) _ => true
  | _ => false

end Deliveries

namespace Lanes

/-- A new member of `lane`: its key, the lane's marker and the tenant's, and its count. -/
def memberOps (ord : Nat) (time : Ms) (seq sink size : Nat) (lane : Lane) : List Op :=
  [.put (.laneMember ord lane seq sink) (.size size), .put (.laneMarker ord lane) .empty,
   .put (.active (time / 1000) ord) .empty] ++ Counters.ops [(ord, .laneMembers, 1)]

/-- The batch that makes a member the head of its lane: with `replace` it takes the place of the
    head just released, so the number of busy lanes does not move. -/
def promoteOps (ord : Nat) (lane : Lane) (seq sink size : Nat) (time : Ms) (replace : Bool) :
    List Op :=
  [.delete (.laneMember ord lane seq sink), .put (.laneHead ord lane) (.rowRef seq sink),
   .delete (.laneMarker ord lane)] ++
  Deliveries.dueOps ord time seq sink size .laneFirst ++
  Counters.ops ((ord, .laneMembers, -1) :: if replace then [] else [(ord, .lanes, 1)])

/-- The placeholder a head's terminal transition carries. -/
def releaseOp (ord : Nat) (row : Option Row) : List BatchOp :=
  match row.bind Row.lane with
  | some (lane, _) => [.laneRelease ord lane]
  | none => []

/-- The members of a lane: seq, sink and stored size. -/
def members (s : Store) (ord : Nat) (lane : Lane) : List (Nat × Nat × Nat) :=
  s.entries.filterMap fun e =>
    match e.1, e.2 with
    | .laneMember o l seq sink, .size n => if o = ord ∧ l = lane then some (seq, sink, n) else none
    | _, _ => none

/-- The lowest member of a lane, in key order. -/
def firstMember (s : Store) (ord : Nat) (lane : Lane) : Option (Nat × Nat × Nat) :=
  (members s ord lane).foldl (fun best m =>
    match best with
    | none => some m
    | some b => if m.1 < b.1 ∨ (m.1 = b.1 ∧ m.2.1 < b.2.1) then some m else some b) none

/-- The row a lane's head names. -/
def head (s : Store) (ord : Nat) (lane : Lane) : Option (Nat × Nat) :=
  match s.get (.laneHead ord lane) with
  | some (.rowRef seq sink) => some (seq, sink)
  | _ => none

/-- The head goes, and with it the lane's count. -/
def vacateOps (ord : Nat) (lane : Lane) : List Op :=
  .delete (.laneHead ord lane) :: Counters.ops [(ord, .lanes, -1)]

/-- The operations that move `lane` on after its head's row left: the next member is the new head;
    with none, or one whose group is not durable yet, the head goes. -/
def releaseOps (s : Store) (ord : Nat) (lane : Lane) (time : Ms) (durable : Nat) : List Op :=
  match firstMember s ord lane with
  | some (seq, sink, size) =>
    if seq ≤ durable then promoteOps ord lane seq sink size time true
    else vacateOps ord lane ++ [.put (.laneMarker ord lane) .empty]
  | none => vacateOps ord lane

/-- Replace every placeholder of a batch by what `releaseOps` reads now, one for each lane. -/
def expand (s : Store) (time : Ms) (durable : Nat) (seen : List (Nat × Lane)) :
    List BatchOp → List Op
  | [] => []
  | .op o :: ops => o :: expand s time durable seen ops
  | .laneRelease ord lane :: ops =>
    if (ord, lane) ∈ seen then expand s time durable seen ops
    else releaseOps s ord lane time durable ++ expand s time durable ((ord, lane) :: seen) ops

/-- What the sweep does about one lane with a marker: with a live head the marker goes, a stale head
    is released, a vacant lane's first member is promoted once its group is durable, and an empty
    lane loses its marker. -/
def triage (s : Store) (ord : Nat) (lane : Lane) (time : Ms) (durable : Nat) : List Op :=
  match head s ord lane with
  | some (seq, sink) =>
    match s.get (.delivery seq sink) with
    | some (.row row) =>
      if row.state = .dead then releaseOps s ord lane time durable
      else [.delete (.laneMarker ord lane)]
    | some _ => [.delete (.laneMarker ord lane)]
    | none => releaseOps s ord lane time durable
  | none =>
    match firstMember s ord lane with
    | some (seq, sink, size) =>
      if seq ≤ durable then promoteOps ord lane seq sink size time false else []
    | none => [.delete (.laneMarker ord lane)]

end Lanes

namespace Deliveries

/-! ## New rows -/

/-- A new delivery row, due at `time`. -/
def newRow (module : String) (time : Ms) (size : Nat) (sourceId : String) (replay : Option String)
    (lane : Option (Lane × String)) : Row :=
  { module, state := .pending, attempts := 0, time, error := none, size, sourceId, replay, lane,
    errorClass := none }

/-- The rows of a new delivery: its row, a first-attempt due row with its marker and the `pending`
    and `bytes` deltas; with a lane the delivery joins the lane instead of becoming due. -/
def newOps (ord : Nat) (time : Ms) (seq sink size : Nat) (row : Row) (lane : Option Lane) :
    List Op :=
  match lane with
  | none =>
    [.put (.delivery seq sink) (.row row)] ++ dueOps ord time seq sink size .firstAttempt ++
      Counters.ops [(ord, .pending, 1), (ord, .bytes, size)]
  | some lane =>
    [.put (.delivery seq sink) (.row row)] ++ Lanes.memberOps ord time seq sink size lane ++
      Counters.ops [(ord, .pending, 1), (ord, .bytes, size)]

/-- An archive obligation of tenant `ord`'s hook. -/
def archiveOps (ord seq size : Nat) : List Op :=
  [.put (.archivePending seq) (.archive size ord)] ++ Counters.ops [(ord, .archivePending, 1)]

/-! ## Claims and results -/

/-- A due row as a scan reads it. -/
structure Due where
  ord : Nat
  time : Ms
  seq : Nat
  sink : Nat
  size : Nat
  kind : Kind
  deriving DecidableEq, Repr

/-- The due rows of tenant `ord` at or before `now` and at or after `floor`. -/
def dueRows (s : Store) (ord : Nat) (now floor : Ms) : List Due :=
  s.entries.filterMap fun e =>
    match e.1, e.2 with
    | .due o time seq sink, .due size kind =>
      if o = ord ∧ floor ≤ time ∧ time ≤ now then some ⟨o, time, seq, sink, size, kind⟩ else none
    | _, _ => none

/-- The key order of due rows of one tenant. -/
def Due.le (a b : Due) : Bool :=
  a.time < b.time || (a.time == b.time && (a.seq < b.seq || (a.seq == b.seq && a.sink ≤ b.sink)))

/-- Take rows while the page has room and the byte budget holds; the first is always taken. -/
def takeBudget (limit budget : Nat) : Nat → Nat → List Due → List Due
  | _, _, [] => []
  | n, bytes, d :: ds =>
    if n = 0 then d :: takeBudget limit budget 1 d.size ds
    else if limit ≤ n ∨ budget < bytes + d.size then []
    else d :: takeBudget limit budget (n + 1) (bytes + d.size) ds

/-- The due rows of tenant `ord` at or before `now`, oldest first, from `floor` on, within the page
    and the byte budget. -/
def dueForTenant (s : Store) (ord : Nat) (now floor : Ms) (limit budget : Nat) : List Due :=
  takeBudget limit budget 0 0 ((dueRows s ord now floor).insertionSort fun a b => Due.le a b)

/-- Move rows from pending to claimed, in one batch. -/
def claim (dues : List Due) : List Op :=
  coalesce (dues.flatMap fun d =>
    [.delete (.due d.ord d.time d.seq d.sink), .put (.inflight d.ord d.seq d.sink) (.size d.size)]
      ++ Counters.ops ([(d.ord, dueField d.kind, -1), (d.ord, .inflight, 1)] ++
        blocked d.ord d.kind))

/-- A delivered row is gone; the marker tells the reclaim to look at its hook. -/
def deliveredOps (ord seq sink size : Nat) (row : Option Row) : List BatchOp :=
  BatchOp.ofOps ([.delete (.delivery seq sink), .delete (.inflight ord seq sink),
    .put (.cleared seq 0 sink) .empty] ++
    Counters.ops [(ord, .inflight, -1), (ord, .bytes, -(size : Int))]) ++
  Lanes.releaseOp ord row

/-- A claimed row back to pending at `time`, as a retry; a lane head stays the head. -/
def retryOps (ord seq sink : Nat) (row : Row) (time : Ms) (error : String) : List BatchOp :=
  let row := { row with time, error := some error }
  let kind := if row.lane.isSome then Kind.laneRetry else Kind.retry
  let blocked : List Counters.Delta := if row.lane.isSome then [(ord, .lanesBlocked, 1)] else []
  BatchOp.ofOps ([.put (.delivery seq sink) (.row row), .delete (.inflight ord seq sink)] ++
    dueOps ord time seq sink row.size kind ++
    Counters.ops ([(ord, .inflight, -1), (ord, .scheduled, 1)] ++ blocked))

/-- Where a row leaves from: the claim, a due key and its kind, or a lane's member key. -/
inductive From where
  | inflight
  | due (key : Key) (kind : Kind)
  | member (key : Key)

/-- What a row leaves behind when it goes: its index key, and the counter it was under. -/
def leave (ord seq sink : Nat) : From → List Op × List Counters.Delta
  | .inflight => ([.delete (.inflight ord seq sink)], [(ord, .inflight, -1)])
  | .due key kind => ([.delete key], (ord, dueField kind, -1) :: blocked ord kind)
  | .member key => ([.delete key], [(ord, .pending, -1), (ord, .laneMembers, -1)])

/-- Only a lane's head releases its lane when it leaves. -/
def release (ord : Nat) (row : Option Row) : From → List BatchOp
  | .inflight | .due _ .laneFirst | .due _ .laneRetry => Lanes.releaseOp ord row
  | _ => []

/-- Dead-letter a row; `owner` is the source and id it is filed under. -/
def deadOps (src : From) (ord seq sink : Nat) (row : Row) (time : Ms) (error : String)
    (class? : Option ErrorClass) (owner : String × Option String) : List BatchOp :=
  let row : Row := { row with state := .dead, time, error := some error, errorClass := class? }
  let out := leave ord seq sink src
  BatchOp.ofOps ([.put (.delivery seq sink) (.row row)] ++ out.1 ++
    [.put (.dead time seq sink) (.owner owner.1 owner.2 ord),
     .put (.deadByTenant ord time seq sink) .empty] ++
    Counters.ops (out.2 ++ [(ord, Field.dead, 1), (ord, Field.deadBytes, (row.size : Int))])) ++
  release ord (some row) src

/-- A row whose delivery row or hook is gone: drop it and what it counted. -/
def orphanOps (src : From) (ord seq sink size : Nat) (row : Option Row) : List BatchOp :=
  let out := leave ord seq sink src
  BatchOp.ofOps ([.delete (.delivery seq sink)] ++ out.1 ++
    Counters.ops (out.2 ++ [(ord, .bytes, -(size : Int))])) ++
  release ord row src

/-- The due kind a claimed row goes back to after a restart. -/
def recoverKind (s : Store) (seq sink : Nat) : Kind :=
  match s.get (.delivery seq sink) with
  | some (.row row) => if row.lane.isSome then .laneFirst else .firstAttempt
  | _ => .firstAttempt

/-- After a restart nothing is running: every claimed row is due again. -/
def recoverInflight (s : Store) (now : Ms) : List Op :=
  coalesce (s.entries.flatMap fun e =>
    match e.1, e.2 with
    | .inflight ord seq sink, .size size =>
      .delete (.inflight ord seq sink) ::
        (dueOps ord now seq sink size (recoverKind s seq sink) ++
          Counters.ops [(ord, .inflight, -1), (ord, .pending, 1)])
    | _, _ => [])

end Deliveries

end Ankusa
