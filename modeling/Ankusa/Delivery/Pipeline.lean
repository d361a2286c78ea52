import Ankusa.Delivery.Builders
import Ankusa.Lib.Run

set_option autoImplicit false

/-! # The processes that move delivery rows

The queue's writer adds rows, replay jobs and reapers take rows out of the DLQ, and the dispatch
Pipeline (`dispatch/pipeline.ex`) does everything else: it promotes lane members, claims due rows,
keeps the claimed ones as jobs, buffers their outcomes and writes them, retries a batch that failed,
dead-letters the rows of a deleted source, purges a tenant and, after a restart, makes every claimed
row due again.

The Pipeline is one process, but between its reads and the write that rests on them the others may
write: a Pipeline event therefore builds a batch from the store (`Doing.writing`) and the event
`write` applies it, or fails to. So does the reaper: it reads a page of dead rows, builds evictions
of them, and the Replayer writes these between two of its own batches. The writer's and the
replayer's batches are built and written in one event, since nobody else touches the rows they
touch: the writer's are new, and the dead rows of a tenant are not purged while a replay job runs
over them. What the code takes from outside (what a source says, what a sink answered, which rows a
page holds) is in the event. -/

namespace Ankusa.Delivery

open Deliveries

/-! ## New rows -/

/-- A delivery of a new hook. -/
structure New where
  ord : Nat
  time : Ms
  sink : Nat
  size : Nat
  module : String
  sourceId : String
  replay : Option String
  lane : Option (Lane × String)

/-- The row of a new delivery. -/
def New.row (n : New) : Row := newRow n.module n.time n.size n.sourceId n.replay n.lane

/-- The operations of a new delivery. -/
def New.ops (seq : Nat) (n : New) : List Op :=
  newOps n.ord n.time seq n.sink n.size n.row (n.lane.map Prod.fst)

/-- The delivery rows of a batch of new hooks, numbered from `seq` on. -/
def commitOps (seq : Nat) : List (List New) → List Op
  | [] => []
  | hook :: hooks => hook.flatMap (New.ops seq) ++ commitOps (seq + 1) hooks

/-- The sinks of a hook are different, and its tenant has an ordinal. -/
def hookOk (hook : List New) : Bool :=
  decide ((hook.map New.sink).Nodup) && hook.all fun n => decide (0 < n.ord) && !unresolved n.sink

/-! ## Claimed rows -/

/-- A claimed row that is being delivered. -/
structure Job where
  ord : Nat
  seq : Nat
  sink : Nat
  size : Nat
  row : Row
  deriving DecidableEq, Repr

/-- What the read of a delivery row found. -/
inductive Loaded where
  | gone
  | damaged
  | row (row : Row)
  deriving DecidableEq, Repr

/-- Read a delivery row. -/
def load (s : Store) (seq sink : Nat) : Loaded :=
  match s.get (.delivery seq sink) with
  | none => .gone
  | some (.row row) => .row row
  | some _ => .damaged

/-- What is found out about a claimed row: its hook is missing, it is dead-lettered, it waits, it is
    an imported row to be expanded, or it is a job to run. -/
inductive Verdict where
  | lost
  | dead (error : String) (class? : Option ErrorClass) (owner : String × Option String)
  | later (time : Ms) (error : String)
  | expand (sourceId : String) (sinks : List String)
  | run
  deriving DecidableEq, Repr

/-- A due row of a claim round, with its loaded row. -/
structure Item where
  due : Due
  row : Loaded
  verdict : Verdict
  deriving DecidableEq, Repr

/-- An outcome that waits to be written. -/
inductive Result where
  | delivered (j : Job)
  | retry (j : Job) (time : Ms) (error : String)
  | dead (j : Job) (time : Ms) (error : String) (class? : Option ErrorClass)
      (owner : String × Option String)
  | orphan (ord seq sink size : Nat) (row : Option Row)
  | expand (ord seq sink size : Nat) (sourceId : String) (sinks : List String) (existing : List Nat)
      (now : Ms)
  deriving DecidableEq, Repr

/-- The operations of a result. -/
def Result.ops : Result → List BatchOp
  | .delivered j => deliveredOps j.ord j.seq j.sink j.size (some j.row)
  | .retry j time error => retryOps j.ord j.seq j.sink j.row time error
  | .dead j time error class? owner =>
    deadOps .inflight j.ord j.seq j.sink j.row time error class? owner
  | .orphan ord seq sink size row => orphanOps .inflight ord seq sink size row
  | .expand ord seq sink size sourceId sinks existing now =>
    expandOps ord seq sink size sourceId sinks existing now

/-- The job of a claimed row. -/
def Item.job (it : Item) (row : Row) : Job :=
  { ord := it.due.ord, seq := it.due.seq, sink := it.due.sink, size := it.due.size, row := row }

/-- A row that does not decode, rebuilt from what the claim knows. -/
def rebuiltRow (now : Ms) (size : Nat) (sourceId : String) : Row :=
  newRow "" now size sourceId none none

/-- `resolve_one`: what becomes of a claimed row. -/
def Item.resolve (s : Store) (now : Ms) (it : Item) : Job ⊕ Result :=
  match it.row with
  | .gone => .inr (.orphan it.due.ord it.due.seq it.due.sink it.due.size none)
  | .damaged =>
    match it.verdict with
    | .dead error class? owner =>
      .inr (.dead (it.job (rebuiltRow now it.due.size owner.1)) now error class? owner)
    | _ => .inr (.orphan it.due.ord it.due.seq it.due.sink it.due.size none)
  | .row row =>
    match it.verdict with
    | .lost => .inr (.orphan it.due.ord it.due.seq it.due.sink it.due.size (some row))
    | .dead error class? owner => .inr (.dead (it.job row) now error class? owner)
    | .later time error => .inr (.retry (it.job row) time error)
    | .expand sourceId sinks =>
      .inr (.expand it.due.ord it.due.seq it.due.sink it.due.size sourceId sinks
        (existingSinks s it.due.seq) now)
    | .run => .inl (it.job row)

/-- Only an imported row is expanded, and it is never run; a row that does not decode is lost with
    its hook or dead-lettered. -/
def Item.ok (it : Item) : Bool :=
  match it.row, it.verdict with
  | .damaged, .lost | .damaged, .dead _ _ _ => true
  | .damaged, _ => false
  | _, .expand _ sinks => unresolved it.due.sink && decide (sinks.length ≤ unresolvedDead)
  | _, .run => !unresolved it.due.sink
  | _, _ => true

/-- What an attempt ended with. -/
inductive Outcome where
  | delivered
  | retry (time : Ms) (error : String)
  | gaveUp (time : Ms) (error : String) (class? : Option ErrorClass)
      (owner : String × Option String)
  /-- Parked behind an open breaker, without an attempt. -/
  | parked (time : Ms)

/-- The job after one more attempt. -/
def Job.attempted (j : Job) : Job := { j with row := { j.row with attempts := j.row.attempts + 1 } }

/-- The result of an attempt; a parked job has made none. -/
def Job.outcome (j : Job) : Outcome → Result
  | .delivered => .delivered j
  | .retry time error => .retry j.attempted time error
  | .gaveUp time error class? owner => .dead j.attempted time error class? owner
  | .parked time => .retry j time "breaker open"

/-! ## Rows of a deleted source -/

/-- A pending row of the source: a due row or a lane's member. -/
inductive Pick where
  | due (d : Due)
  | member (ord : Nat) (m : Member)

/-- The tenant of a picked row. -/
def Pick.ord : Pick → Nat
  | .due d => d.ord
  | .member ord _ => ord

/-- The picked row. -/
def Pick.id : Pick → Nat × Nat
  | .due d => (d.seq, d.sink)
  | .member _ m => (m.seq, m.sink)

/-- The size of a picked row. -/
def Pick.size : Pick → Nat
  | .due d => d.size
  | .member _ m => m.size

/-- The index key a picked row leaves. -/
def Pick.src : Pick → From
  | .due d => .due (.due d.ord d.time d.seq d.sink) d.kind
  | .member ord m => .member (.laneMember ord m.lane m.seq m.sink)

/-- Whether the picked row is due. -/
def Pick.isDue : Pick → Bool
  | .due _ => true
  | .member _ _ => false

/-- The row decodes and is one of the source. -/
def ofSource (s : Store) (sourceId : String) (id : Nat × Nat) : Bool :=
  match load s id.1 id.2 with
  | .row row => row.sourceId = sourceId
  | _ => false

/-- The lanes' members that are rows of the source. -/
def membersOf (s : Store) (sourceId : String) : List (Nat × Nat) :=
  s.keys.filterMap fun
    | .laneMember _ _ seq sink => if ofSource s sourceId (seq, sink) then some (seq, sink) else none
    | _ => none

/-- The index key the row was found by is there. -/
def Pick.present (s : Store) : Pick → Bool
  | .due d => s.get (.due d.ord d.time d.seq d.sink) = some (.due d.size d.kind)
  | .member ord m => s.get (.laneMember ord m.lane m.seq m.sink) = some (.size m.size)

/-- Dead-letter a row of a deleted source, or drop it when its hook is missing (no owner); a row
    that does not decode is left out. -/
def Pick.ops (s : Store) (time : Ms) (error : String) (p : Pick × Option (String × Option String)) :
    List BatchOp :=
  match load s p.1.id.1 p.1.id.2 with
  | .row row =>
    match p.2 with
    | some owner => deadOps p.1.src p.1.ord p.1.id.1 p.1.id.2 row time error (some .permanent) owner
    | none => orphanOps p.1.src p.1.ord p.1.id.1 p.1.id.2 p.1.size (some row)
  | _ => []

/-! ## The Pipeline -/

/-- What follows a write. -/
inductive After where
  | nothing
  | claimed (now : Ms) (items : List Item)
  | flushed (results : List Result)
  /-- The markers of empty lanes go; then their members are read once more. -/
  | settle (ord : Nat) (lanes : List Lane) (ops : List Op)
  /-- The markers of lanes that were not empty after all are back; then the sweep's own batch. -/
  | settled (ops : List Op)
  | markers (ord : Nat)
  | lettered (sourceId : String) (members : List (Nat × Nat))
  | recovered
  deriving DecidableEq, Repr

/-- What the Pipeline is in the middle of. -/
inductive Doing where
  | idle
  | writing (ops : List Op) (next : After)
  | verifying (ord : Nat) (lanes : List Lane) (ops : List Op)
  | clearing (ord : Nat)
  /-- The rows of a deleted source are dead-lettered, page by page; `members` were there at the
    start. -/
  | lettering (sourceId : String) (members : List (Nat × Nat))
  deriving DecidableEq, Repr

/-- The store, the writer's next seq, the Pipeline's state and the pages of the reaper. -/
structure State where
  store : Store
  nextSeq : Nat
  jobs : List Job
  buffer : List Result
  unrecorded : List (List Result)
  recovered : Bool
  doing : Doing
  /-- The dead rows the reaper has read. -/
  page : List Hit
  /-- The evictions it has built that are not written yet. -/
  evicting : List (List (Hit × Nat))

/-- The steps of the writer, the replay jobs, the reaper, the purge and the Pipeline. -/
inductive Event where
  | commit (hooks : List (List New))
  | revive (hits : List Hit) (now : Ms) (replay : String) (class? : Option ErrorClass)
  | candidates (hits : List Hit)
  /-- The reaper builds the eviction of some rows of its page. -/
  | evict (hits : List Hit)
  /-- The Replayer writes an eviction, whatever has become of its rows. -/
  | evicted (i : Nat) (ok : Bool)
  | purgeDead (hits : List Hit)
  /-- A stored row cannot be read any more. -/
  | damage (seq sink : Nat) (bin : Bin)
  | claim (now : Ms) (items : List (Due × Verdict))
  | outcome (j : Job) (o : Outcome)
  | flush (time : Ms) (durable : Nat)
  | again (i : Nat) (time : Ms) (durable : Nat)
  | sweep (ord : Nat) (lanes : List Lane) (time : Ms) (durable : Nat)
  | verify
  | deadLetterSource (sourceId : String)
  | deadLetter (picks : List (Pick × Option (String × Option String))) (time : Ms) (error : String)
      (durable : Nat)
  | lettered
  | recover (now : Ms)
  | purgeDue (ord : Nat) (rows : List Due)
  | purgeInflight (ord : Nat) (rows : List Claimed)
  | purgeMembers (ord : Nat) (rows : List Member)
  /-- The tenant has no member left: its lane markers go next. -/
  | purgeMarkers (ord : Nat)
  | markers (lanes : List Lane)
  | write (ok : Bool)
  | restart

/-- Dead rows a page holds, each once. -/
def hitsOk (s : Store) (hits : List Hit) : Bool :=
  decide (hits.map fun h => (h.seq, h.sink)).Nodup &&
    hits.all fun h =>
      match s.get (.dead h.time h.seq h.sink) with
      | some (.owner _ _ ord) => ord = h.ord
      | _ => false

/-- The page is of due rows of the store, each once. -/
def duesOk (s : Store) (dues : List Due) : Bool :=
  decide (dues.map fun d => (d.seq, d.sink)).Nodup &&
    dues.all fun d => s.get (.due d.ord d.time d.seq d.sink) = some (.due d.size d.kind)

/-- The tenant of an outcome that waits to be written. -/
def Result.ord : Result → Nat
  | .delivered j | .retry j _ _ | .dead j _ _ _ _ => j.ord
  | .orphan ord _ _ _ _ | .expand ord _ _ _ _ _ _ _ => ord

/-- The lanes among `lanes` that have neither a head nor a member. -/
def emptyLanes (s : Store) (ord : Nat) (lanes : List Lane) : List Lane :=
  lanes.filter fun l => (Lanes.head s ord l).isNone && (Lanes.firstMember s ord l).isNone

/-- What the sweep does about the other lanes. -/
def sweepOps (s : Store) (ord : Nat) (lanes : List Lane) (time : Ms) (durable : Nat) : List Op :=
  (lanes.filter fun l => l ∉ emptyLanes s ord lanes).flatMap fun l =>
    Lanes.triage s ord l time durable

/-- Every Pipeline batch: placeholders resolved by a read of the store, then folded. -/
def buildOps (s : Store) (time : Ms) (durable : Nat) (ops : List BatchOp) : List Op :=
  coalesce (Lanes.expand s time durable [] ops)

/-- Lanes of the tenant that have a marker, each once. -/
def lanesOk (s : Store) (ord : Nat) (lanes : List Lane) : Bool :=
  decide lanes.Nodup && lanes.all fun l => (s.get (.laneMarker ord l)).isSome

/-- Rows of a deleted source, of one family and each once: its lanes' members, and its due rows once
    the members that were there at the start are gone. -/
def picksOk (s : Store) (sourceId : String) (members : List (Nat × Nat)) (picks : List Pick) :
    Bool :=
  decide (picks.map Pick.id).Nodup &&
    (picks.all fun p => p.present s && ofSource s sourceId p.id) &&
    ((picks.all Pick.isDue && members.all fun id => !(membersOf s sourceId).elem id) ||
      picks.all fun p => !p.isDue)

/-- No lane of the tenant has a member. -/
def noMembers (s : Store) (ord : Nat) : Bool :=
  s.keys.all fun
    | .laneMember o _ _ _ => o ≠ ord
    | _ => true

/-- A written batch, and what follows it. -/
def State.written (s : State) (ops : List Op) : After → State
  | .nothing => { s with store := s.store.write ops, doing := .idle }
  | .claimed now items =>
    let store := s.store.write ops
    let resolved := items.map (Item.resolve store now)
    { s with
      store := store
      jobs := s.jobs ++ resolved.filterMap Sum.getLeft?
      unrecorded := s.unrecorded ++ [(resolved.filterMap Sum.getRight?).reverse]
      doing := .idle }
  | .flushed _ => { s with store := s.store.write ops, doing := .idle }
  | .settle ord lanes rest =>
    { s with store := s.store.write ops, doing := .verifying ord lanes rest }
  | .settled rest =>
    { s with store := s.store.write ops, doing := .writing (coalesce rest) .nothing }
  | .markers ord => { s with store := s.store.write ops, doing := .clearing ord }
  | .lettered sourceId members =>
    { s with store := s.store.write ops, doing := .lettering sourceId members }
  | .recovered => { s with store := s.store.write ops, recovered := true, doing := .idle }

/-- A write that failed: outcomes are kept to be written again, anything else is dropped. -/
def State.failed (s : State) : After → State
  | .flushed results => { s with unrecorded := s.unrecorded ++ [results], doing := .idle }
  | _ => { s with doing := .idle }

/-- One step; `none` where it cannot be taken. -/
def step (s : State) : Event → Option State
  | .commit hooks =>
    if hooks.all hookOk then
      some { s with
        store := s.store.write (coalesce (commitOps s.nextSeq hooks))
        nextSeq := s.nextSeq + hooks.length }
    else none
  | .revive hits now replay class? =>
    if hitsOk s.store hits then
      some { s with store := s.store.write (reviveOps s.store hits now replay class?) }
    else none
  | .candidates hits => if hitsOk s.store hits then some { s with page := hits } else none
  | .evict hits =>
    if hits.all fun h => h ∈ s.page then
      some { s with evicting := s.evicting ++ [sized s.store hits] }
    else none
  | .evicted i ok =>
    (s.evicting[i]?).map fun rows =>
      { s with
        store := if ok then s.store.write (evictSized rows) else s.store
        evicting := s.evicting.eraseIdx i }
  | .purgeDead hits =>
    if s.doing = .idle ∧ hitsOk s.store hits = true then
      some { s with store := s.store.write (purgeDead s.store hits) }
    else none
  | .damage seq sink bin =>
    if (s.store.get (.delivery seq sink)).isSome then
      some { s with store := s.store.write [.put (.delivery seq sink) (.raw bin)] }
    else none
  | .claim now items =>
    let loaded := items.map fun p => Item.mk p.1 (load s.store p.1.seq p.1.sink) p.2
    if s.doing = .idle ∧ s.recovered = true ∧ duesOk s.store (items.map Prod.fst) = true ∧
        loaded.all Item.ok = true then
      some { s with doing := .writing (claim (items.map Prod.fst)) (.claimed now loaded) }
    else none
  | .outcome j o =>
    if s.doing = .idle ∧ j ∈ s.jobs then
      some { s with jobs := s.jobs.erase j, buffer := s.buffer ++ [j.outcome o] }
    else none
  | .flush time durable =>
    if s.doing = .idle then
      some { s with
        buffer := []
        doing := .writing (buildOps s.store time durable (s.buffer.flatMap Result.ops))
          (.flushed s.buffer) }
    else none
  | .again i time durable =>
    if s.doing = .idle then
      match s.unrecorded[i]? with
      | some results =>
        some { s with
          unrecorded := s.unrecorded.eraseIdx i
          doing := .writing (buildOps s.store time durable (results.flatMap Result.ops))
            (.flushed results) }
      | none => none
    else none
  | .sweep ord lanes time durable =>
    if s.doing = .idle ∧ s.recovered = true ∧ lanesOk s.store ord lanes = true then
      let ops := sweepOps s.store ord lanes time durable
      let empty := emptyLanes s.store ord lanes
      if empty = [] then some { s with doing := .writing (coalesce ops) .nothing }
      else some { s with doing := .writing (deleteMarkers ord empty) (.settle ord empty ops) }
    else none
  | .verify =>
    match s.doing with
    | .verifying ord lanes ops =>
      let appeared := lanes.filter fun l => (Lanes.firstMember s.store ord l).isSome
      some { s with doing := .writing (putMarkers ord appeared) (.settled ops) }
    | _ => none
  | .deadLetterSource sourceId =>
    if s.doing = .idle then
      some { s with doing := .lettering sourceId (membersOf s.store sourceId) }
    else none
  | .deadLetter picks time error durable =>
    match s.doing with
    | .lettering sourceId members =>
      if picksOk s.store sourceId members (picks.map Prod.fst) then
        some { s with
          doing := .writing (buildOps s.store time durable (picks.reverse.flatMap
            (Pick.ops s.store time error))) (.lettered sourceId members) }
      else none
    | _ => none
  | .lettered =>
    match s.doing with
    | .lettering _ _ => some { s with doing := .idle }
    | _ => none
  | .recover now =>
    if s.doing = .idle ∧ s.recovered = false then
      some { s with doing := .writing (recoverInflight s.store now) .recovered }
    else none
  | .purgeDue ord rows =>
    if s.doing = .idle ∧ duesOk s.store rows = true ∧ (rows.all fun d => d.ord = ord) = true then
      some { s with doing := .writing (purgeDue s.store ord rows) .nothing }
    else none
  | .purgeInflight ord rows =>
    if s.doing = .idle ∧ (rows.map fun c => (c.seq, c.sink)).Nodup ∧
        (rows.all fun c => s.store.get (.inflight ord c.seq c.sink) = some (.size c.size)) = true ∧
        (s.jobs.all fun j => j.ord ≠ ord) = true ∧
        ((s.buffer ++ s.unrecorded.flatten).all fun r => r.ord ≠ ord) = true then
      some { s with doing := .writing (purgeInflight s.store ord rows) .nothing }
    else none
  | .purgeMembers ord rows =>
    if s.doing = .idle ∧ (rows.map fun m => (m.seq, m.sink)).Nodup ∧
        (rows.all fun m => s.store.get (.laneMember ord m.lane m.seq m.sink) = some (.size m.size))
          = true then
      some { s with doing := .writing (purgeMembers ord rows) .nothing }
    else none
  | .purgeMarkers ord =>
    if s.doing = .idle ∧ noMembers s.store ord = true then some { s with doing := .clearing ord }
    else none
  | .markers lanes =>
    match s.doing with
    | .clearing ord =>
      if lanes = [] then some { s with doing := .idle }
      else if lanesOk s.store ord lanes then
        some { s with doing := .writing (deleteMarkers ord lanes) (.markers ord) }
      else none
    | _ => none
  | .write ok =>
    match s.doing with
    | .writing ops next => some (if ok then s.written ops next else s.failed next)
    | _ => none
  | .restart =>
    some { s with jobs := [], buffer := [], unrecorded := [], recovered := false, doing := .idle }

end Ankusa.Delivery
