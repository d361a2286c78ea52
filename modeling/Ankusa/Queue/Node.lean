import Ankusa.Queue.Syncer
import Ankusa.Lib.Run
import Ankusa.Lib.GroupCommit
import Mathlib.Algebra.GroupWithZero.Nat

set_option autoImplicit false

/-! # The queue of one node

The callers, the writer, the syncer, the dedupe sweeper and the dispatch pipeline of one node as one
transition system over the store and the marks they share, for `wal: :disk`. A step is what one
process does between two points where another one may run: each read and each write of the store or
of a mark by one process is a step of its own wherever another process can change what it saw.

A group commit is therefore `begin` (the first call is taken, the recent keys are rotated), `drain`
(the calls queued behind it join, the group is stamped), `check` (admission, dedupe, the batch),
`setApplied`, `write` and `track`; a claim round reads the clock, the applied mark, the durable mark
and its stamp in four steps before it scans. The outcome of every store call and of every fsync, the
two clocks and the order of the processes are the events' choice.

The ghost part of the state (`Ghost`) records what the run did and is never read by a step: the
replies that went out, the store as it would be had no fence ever deleted anything, how much of the
WAL is known to be on disk, and which rows dispatch claimed. -/

namespace Ankusa.Node

open Writer Deliveries

/-- The settings the queue reads. -/
structure Config where
  archive : Bool
  tenantsMax : Nat
  quota : Quota
  groupMaxRecords : Nat
  groupMaxBytes : Nat

/-- The age at which a generation of recent keys is rotated out, and its size limit. -/
def recentMs : Ms := 2000
/-- The keys a generation of the window holds at most. -/
def recentMax : Nat := 100000

/-- The number of cached ordinals past which the cache is dropped. -/
def ordCacheMax : Nat := 65536

/-- An `enqueue` call as its caller prepared it; `readAt` was read before the prefetch. -/
structure Call where
  id : Nat
  items : List Item
  prefetch : List (Key × Option Val)
  readAt : Ms
  deriving DecidableEq, Repr

/-- The size of a call. -/
def Call.bytes (c : Call) : Nat := (c.items.map fun i => i.bin.length).sum

/-- A hook of an archive replay job. -/
structure RedriveEntry where
  bin : Bin
  size : Nat
  sinks : List (Nat × String)
  lanes : List (Option (Lane × String))
  replayId : String
  sourceId : String
  tenantId : Option String

/-- A group that is ready to be written. -/
structure Cx where
  calls : List (Nat × Nat)
  tagged : List (Option Reason)
  checked : Checked
  admission : Admission
  ops : List Op
  now : Ms
  extra : List Op
  undo : List (List Op)
  deriving DecidableEq, Repr

/-- What the writer is in the middle of. -/
inductive Phase where
  | idle
  | collecting (first : Call)
  | stamped (calls : List Call) (now : Ms) (extra : List Op)
  | built (cx : Cx)
  | applied (cx : Cx) (prev : Nat)
  | tracking (g : Group)
  | extraOnly (calls : List (Nat × Nat)) (reply : Reply) (extra : List Op)
  | redriving (call count : Nat) (ops : List Op) (admission : Admission) (now : Ms)
  deriving DecidableEq, Repr

/-- The writer process. -/
structure WriterState where
  nextSeq : Nat
  nextOrd : Nat
  lastAt : Ms
  ords : List (String × Nat)
  ordsEpoch : Option Nat
  recent : Recent
  recentGenAt : Ms
  recentSince : Ms
  recentEpoch : Option Nat
  unsynced : List Group
  fenced : Bool
  /-- A `sync_failed` message of the syncer is in the mailbox. -/
  syncFailed : Bool
  phase : Phase

/-- A claim round: it has read the clock, then the applied mark, then whether a group is unsynced,
    and then scans for rows due at or before its ceiling. -/
inductive Scan where
  | idle
  | clock (now : Ms)
  | applied (now : Ms) (seq : Nat)
  | marked (now : Ms) (unsynced : Bool)
  | opened (ceiling : Ms)

/-- A claimed delivery. -/
structure Job where
  due : Deliveries.Due
  row : Option Row

/-- The dispatch pipeline: rows it read and is about to claim, lane work it is about to write, the
    claimed deliveries, and the batches of results not written yet. -/
structure Dispatch where
  scan : Scan
  dues : List Job
  laneOps : List Op
  jobs : List Job
  pending : List (List BatchOp)

/-- An expired key as the sweeper hands it to the writer. -/
structure Expired where
  time : Ms
  tenant : String
  source : String
  key : String
  ord : Option Nat
  deriving DecidableEq, Repr

/-- A dedupe entry a batch wrote, and when. -/
structure Commit where
  tenant : String
  source : String
  key : String
  expires : Ms
  id : String
  index : Nat
  wrote : Ms
  deriving DecidableEq, Repr

/-- The key of a dedupe entry. -/
def Commit.uKey (c : Commit) : Key := .dedupe c.tenant c.source c.key

/-- Its key in the expiry index. -/
def Commit.expiryKey (c : Commit) : Key := .dedupeExpiry c.expires c.tenant c.source c.key

/-- What the run did. -/
structure Ghost where
  replies : List (Nat × Reply)
  /-- The entries the syncer answered with an error. -/
  failed : List Entry
  /-- The batches a fence deleted. -/
  undone : List Nat
  /-- The store the same writes make when every fence is left out. -/
  unfenced : Store
  /-- The batches written, and how many of them are known to be on disk. -/
  wal : Nat
  synced : Nat
  /-- The batch a hook was written in, and its stamp. -/
  birth : Nat → Option GroupCommit.Birth
  /-- The dedupe entries written, newest first. -/
  commits : List Commit
  claimed : List Deliveries.Due
  /-- The latest the wall clock ever showed, or zero, where the writer's own clock starts. -/
  wallMax : Ms

/-- The store and the processes around it. -/
structure State where
  store : Store
  marks : Marks
  syncer : Syncer
  writer : WriterState
  dispatch : Dispatch
  /-- Calls between the clock read and the prefetch, calls on their way to the writer, and calls in
      its mailbox. -/
  preparing : List Call
  prefetched : List Call
  queue : List Call
  sweep : List Expired
  closed : List String
  epoch : Nat
  wall : Ms
  mono : Ms
  ghost : Ghost

/-! ## Helpers of the writer -/

/-- Write a batch to the store; a synced write puts everything written so far on disk. -/
def State.commit (s : State) (ops : List Op) (sync : Bool) : State :=
  { s with
    store := s.store.write ops
    ghost := { s.ghost with
      unfenced := s.ghost.unfenced.write ops
      wal := s.ghost.wal + 1
      synced := if sync then s.ghost.wal + 1 else s.ghost.synced } }

/-- Answer calls. -/
def State.answer (s : State) (calls : List (Nat × Nat)) (reply : Reply) : State :=
  { s with ghost := { s.ghost with replies := s.ghost.replies ++ Syncer.replyCalls calls reply } }

/-- Queue an entry for the next fsync. -/
def State.submit (s : State) (e : Entry) : State :=
  { s with syncer := { s.syncer with mailbox := s.syncer.mailbox ++ [.sync e] } }

/-- The writer goes on to `p`. -/
def State.setPhase (s : State) (p : Phase) : State :=
  { s with writer := { s.writer with phase := p } }

/-- A tenant closed or opened may have deleted dedupe keys behind the writer: it forgets what it
    wrote, and every read older than now. -/
def syncRecent (s : State) : State :=
  if s.writer.recentEpoch = some s.epoch then s
  else if s.writer.recentEpoch = none then
    { s with writer := { s.writer with recentEpoch := some s.epoch } }
  else
    { s with writer := { s.writer with
        recentEpoch := some s.epoch, recent := ⟨∅, ∅⟩,
        recentGenAt := s.mono, recentSince := s.mono } }

/-- The older generation of recent keys goes when the newer one is old or large enough. -/
def rotateRecent (s : State) : State :=
  if recentMs ≤ s.mono - s.writer.recentGenAt ∨ recentMax ≤ s.writer.recent.cur.entries.length then
    { s with writer := { s.writer with
        recent := { cur := ∅, old := s.writer.recent.cur }
        recentSince := s.writer.recentGenAt, recentGenAt := s.mono } }
  else s

/-- A group starts with the upkeep of the window of recent keys. -/
def beginGroup (s : State) : State := rotateRecent (syncRecent s)

/-- The newest read of a key wins; a call whose read began before the older generation of recent
    keys may have missed a write the window no longer remembers, so its values are dropped. -/
def mergePrefetch (calls : List Call) (since : Ms) : List (Key × Option Val) :=
  (((calls.filter fun c => since ≤ c.readAt).insertionSort fun a b => a.readAt ≤
    b.readAt).reverse).flatMap Call.prefetch

/-- The calls behind the first one that still fit the group's caps. -/
def drainCalls (cfg : Config) (count bytes : Nat) : List Call → List Call
  | [] => []
  | c :: cs =>
    if cfg.groupMaxRecords < count + c.items.length ∨ cfg.groupMaxBytes < bytes + c.bytes then []
    else c :: drainCalls cfg (count + c.items.length) (bytes + c.bytes) cs

/-- A reply that carries a duplicate waits for the fsync of whatever group holds the original,
    unless nothing is unsynced. -/
def settleReply (s : State) (calls : List (Nat × Nat)) (results : List Result) : State :=
  if s.marks.unsynced && results.any (fun | .duplicate _ => true | _ => false) then
    s.submit { upto := s.marks.applied, time := s.writer.lastAt, calls, reply := .ok results }
  else s.answer calls (.ok results)

/-- The dedupe keys a committed batch wrote. -/
def dedupePuts (ops : List Op) : List Op :=
  ops.filter fun
    | .put _ (.expiry _ _) => true
    | _ => false

/-- Remember the ordinals of a committed batch; a full cache is dropped whole. -/
def cachePut (w : WriterState) (cache : List (String × Nat)) : WriterState :=
  if ordCacheMax < w.ords.length + w.ordsEpoch.toList.length + cache.length then
    { w with ords := cache, ordsEpoch := none }
  else { w with ords := cache ++ w.ords }

/-- The ordinal cache of the gate's current epoch. -/
def syncEpoch (w : WriterState) (epoch : Nat) : WriterState :=
  if w.ordsEpoch = some epoch then w else { w with ords := [], ordsEpoch := some epoch }

/-- The rows of one hook of an archive replay. -/
def redriveRows (adm : Admission) (now : Ms) (e : RedriveEntry) (seq : Nat) : List Op :=
  let ord := ordOf adm.ords (Tenants.normalize e.tenantId)
  .put (.hook seq) (.hook e.bin) :: (e.sinks.zip e.lanes).flatMap fun sl =>
    Deliveries.newOps ord now seq sl.1.1 e.size
      (Deliveries.newRow sl.1.2 now e.size e.sourceId (some e.replayId) sl.2) (sl.2.map Prod.fst)

/-- The operations of an archive replay's hooks. -/
def redriveOps (entries : List RedriveEntry) (nextSeq : Nat) (now : Ms) (adm : Admission)
    (extra : List Op) : List Op :=
  let rows := (entries.zipIdx nextSeq).foldl (fun ops p => redriveRows adm now p.1 p.2 ++ ops) []
  coalesce (.put .nextSeq (.num (nextSeq + entries.length)) :: rows ++ adm.ops ++ extra)

/-- Whether an operation is one a release or a replay job adds to its batch: a pen entry's delete or
    the job's cursor. -/
def extraOk : Op → Bool
  | .delete (.quarantineSummary _ _) | .delete (.quarantineBody _ _) | .put (.replayJob _) _ => true
  | _ => false

/-- Delete the rows of every group no fsync covered, in one synced write, and let the syncer resume.
    When the write fails the writer stays fenced and tries again. -/
def fence (s : State) (ok : Bool) : State :=
  let groups := unsyncedAbove s.writer.unsynced s.marks.durable
  let ops := undoOps groups
  if ok then
    { s with
      store := s.store.write ops
      syncer := { s.syncer with
        mailbox := s.syncer.mailbox ++ [.resume s.marks.applied s.writer.lastAt] }
      writer := { s.writer with fenced := false, unsynced := [] }
      ghost := { s.ghost with
        undone := groups.filterMap (fun g => (s.ghost.birth g.upto).map (·.index)) ++ s.ghost.undone
        -- An empty batch is not written, so it syncs nothing.
        wal := if ops = [] then s.ghost.wal else s.ghost.wal + 1
        synced := if ops = [] then s.ghost.synced else s.ghost.wal + 1 } }
  else s

/-- What the sweeper's batch deletes: a key only if it still holds the expiry the sweep saw. -/
def expireOps (s : Store) (entries : List Expired) : List Op × List Op :=
  let live := entries.filter fun e =>
    match s.get (.dedupe e.tenant e.source e.key) with
    | some (.expiry time _) => time = e.time
    | _ => false
  let deletes := entries.flatMap fun e =>
    if e ∈ live then
      [.delete (.dedupeExpiry e.time e.tenant e.source e.key),
       .delete (.dedupe e.tenant e.source e.key)]
    else [.delete (.dedupeExpiry e.time e.tenant e.source e.key)]
  let deltas := live.filterMap fun e => e.ord.map fun o => (o, Field.dedupe, (-1 : Int))
  let nodeOnly := (live.filter fun e => e.ord.isNone).length
  (coalesce
    (deletes ++ Counters.ops deltas ++ Counters.nodeOps [(.dedupe, -(nodeOnly : Int))]),
   live.map fun e => .delete (.dedupe e.tenant e.source e.key))

/-- The expired keys the sweeper finds: the expiry index up to the clock, oldest first. -/
def expiredKeys (s : Store) (now : Ms) (chunk : Nat) : List Expired :=
  (((s.entries.filterMap fun e =>
    match e.1 with
    | .dedupeExpiry time tenant source key =>
      if time ≤ now then
        some ⟨time, tenant, source, key,
          (Tenants.lookup s [Tenants.normalize (some tenant)]).head?.map Prod.snd⟩
      else none
    | _ => none).insertionSort fun a b => a.time ≤ b.time)).take chunk

/-! ## Steps of the callers and the clocks -/

/-- The clocks move: the wall clock anywhere, the monotonic clock never back. -/
def tick (s : State) (wall mono : Ms) : Option State :=
  if s.mono ≤ mono then
    some { s with wall, mono, ghost := { s.ghost with wallMax := max s.ghost.wallMax wall } }
  else none

/-- A caller prepares its hooks: `readAt` is the monotonic clock before the prefetch. -/
def prepare (s : State) (id : Nat) (items : List Item) : Option State :=
  some { s with preparing := ⟨id, items, [], s.mono⟩ :: s.preparing }

/-- The prefetch of a prepared call: one read of every dedupe key. -/
def prefetch (s : State) (id : Nat) : Option State :=
  (s.preparing.find? (·.id = id)).map fun c =>
    { s with
      preparing := s.preparing.filter (·.id ≠ id)
      prefetched :=
        { c with prefetch := (c.items.filterMap dedupeKey).eraseDups.map fun k =>
          (k, s.store.get k) } :: s.prefetched }

/-- The call arrives in the writer's mailbox. -/
def enqueue (s : State) (id : Nat) : Option State :=
  (s.prefetched.find? (·.id = id)).map fun c =>
    { s with prefetched := s.prefetched.filter (·.id ≠ id), queue := s.queue ++ [c] }

/-! ## Steps of the writer -/

/-- The first call of a group is taken out of the mailbox; a fenced writer refuses it. -/
def begin_ (s : State) : Option State :=
  match s.writer.phase, s.queue with
  | .idle, c :: queue =>
    let s := { s with queue }
    if s.writer.fenced then some (s.answer [(c.id, c.items.length)] (.error .storeUnavailable))
    else some ((beginGroup s).setPhase (.collecting c))
  | _, _ => none

/-- The calls past their deadline or whose caller is gone are refused. -/
def refuseGone (gone : List (Nat × Reason)) (s : State) (calls : List Call) : State :=
  calls.foldl (fun s c =>
    match gone.lookup c.id with
    | some reason => s.answer [(c.id, c.items.length)] (.error reason)
    | none => s) s

/-- The calls queued behind the first one join the group within its caps, and what is left of the
    group once the gone ones are refused is stamped. -/
def drain (cfg : Config) (s : State) (gone : List (Nat × Reason)) : Option State :=
  match s.writer.phase with
  | .collecting first =>
    let taken := first :: drainCalls cfg first.items.length first.bytes s.queue
    let live := taken.filter fun c => (gone.lookup c.id).isNone
    let s := refuseGone gone { s with queue := s.queue.drop (taken.length - 1) } taken
    if live = [] then some (s.setPhase .idle)
    else some (s.setPhase (.stamped live (max s.wall s.writer.lastAt) []))
  | _ => none

/-- A quarantine release is a group of its own: it does not prefetch, and its extra operations ride
    in its batch. -/
def release (s : State) (id : Nat) (items : List Item) (extra : List Op) : Option State :=
  if s.writer.phase = .idle ∧ extra ≠ [] ∧ extra.all extraOk then
    if s.writer.fenced then some (s.answer [(id, items.length)] (.error .storeUnavailable))
    else
      let s := beginGroup s
      some (s.setPhase (.stamped [⟨id, items, [], s.mono⟩] (max s.wall s.writer.lastAt) extra))
  else none

/-- The tenants of a group's items. -/
def admission (cfg : Config) (s : State) (items : List Item) : Admission :=
  admitTenants s.store s.closed s.writer.ords s.writer.nextOrd cfg.tenantsMax
    (items.map itemTenant).eraseDups

/-- The dedupe check of the admitted items; a release reads the store and is not held to the
    quota. -/
def dedupe (cfg : Config) (s : State) (adm : Admission) (calls : List Call) (now : Ms)
    (extra : List Op) : Checked :=
  let prefetch := if extra = [] then mergePrefetch calls s.writer.recentSince
    else calls.flatMap Call.prefetch
  dedupeCheck (storedFor s.writer.recent prefetch s.store)
    (fun ord => Counters.readField s.store ord .dedupe) now adm.ords (extra = []) cfg.quota
    ((calls.flatMap Call.items).filter fun i => (refusedTenant adm (itemTenant i)).isNone)

/-- The batch of a group with fresh hooks. -/
def batch (cfg : Config) (s : State) (adm : Admission) (checked : Checked) (calls : List Call)
    (now : Ms) (extra : List Op) : Cx :=
  let built := buildOps checked.fresh s.writer.nextSeq now cfg.archive adm.ords
  { calls := calls.map fun c => (c.id, c.items.length)
    tagged := (calls.flatMap Call.items).map fun i => refusedTenant adm (itemTenant i)
    checked, admission := adm, now, extra
    ops := coalesce (checked.dedupeOps ++ built ++ adm.ops ++ extra)
    undo := [checked.dedupeOps, built] }

/-- Admission, dedupe check and the batch of a group, once its reads succeeded. -/
def checkGroup (cfg : Config) (s : State) (calls : List Call) (now : Ms) (extra : List Op) :
    State :=
  let items := calls.flatMap Call.items
  let from_ := calls.map fun c => (c.id, c.items.length)
  let adm := admission cfg s items
  let tagged := items.map fun i => refusedTenant adm (itemTenant i)
  if extra ≠ [] ∧ tagged.any Option.isSome then
    (s.answer from_ (.error adm.refusal)).setPhase .idle
  else
    let checked := dedupe cfg s adm calls now extra
    if checked.fresh = [] then
      let results := withRefused tagged (reassemble checked.results s.writer.nextSeq)
      if extra = [] then (settleReply s from_ results).setPhase .idle
      else s.setPhase (.extraOnly from_ (.ok results) extra)
    else s.setPhase (.built (batch cfg s adm checked calls now extra))

/-- The checks of a stamped group. -/
def check (cfg : Config) (s : State) (reads : Bool) : Option State :=
  match s.writer.phase with
  | .stamped calls now extra =>
    let s := { s with writer := syncEpoch s.writer s.epoch }
    if reads = false then
      some ((s.answer (calls.map fun c => (c.id, c.items.length)) (.error .readFailed)).setPhase
        .idle)
    else some (checkGroup cfg s calls now extra)
  | _ => none

/-- Before the write of a pipelined group: a reader that can see the rows must see them as
    unsynced. -/
def setApplied (s : State) : Option State :=
  match s.writer.phase with
  | .built cx =>
    if cx.extra = [] then
      some ({ s with
        marks := s.marks.setApplied (s.writer.nextSeq + cx.checked.fresh.length - 1) }.setPhase
          (.applied cx s.marks.applied))
    else none
  | _ => none

/-- The writer's counters after a batch, written or not: its seqs and ordinals are consumed. -/
def WriterState.consume (w : WriterState) (count nextOrd : Nat) (now : Ms) : WriterState :=
  { w with nextSeq := w.nextSeq + count, nextOrd, lastAt := now }

/-- The births after the next batch, of `count` hooks. -/
def State.born (s : State) (count : Nat) (now : Ms) : Nat → Option GroupCommit.Birth :=
  fun q => if s.writer.nextSeq ≤ q ∧ q < s.writer.nextSeq + count then some ⟨s.ghost.wal, now⟩
    else s.ghost.birth q

/-- The dedupe entries among the puts of a batch. -/
def commitsOf (ops : List Op) (index : Nat) (mono : Ms) : List Commit :=
  ops.filterMap fun
    | .put (.dedupe tenant source key) (.expiry expires id) =>
      some ⟨tenant, source, key, expires, id, index, mono⟩
    | _ => none

/-- A batch of new hooks is written: its rows, and what the writer remembers of it. -/
def State.land (s : State) (cx : Cx) (sync : Bool) : State :=
  let t := s.commit cx.ops sync
  { t with
    writer := { cachePut (s.writer.consume cx.checked.fresh.length cx.admission.nextOrd cx.now)
        cx.admission.cache with
      recent := { s.writer.recent with
        cur := s.writer.recent.cur.write (dedupePuts cx.checked.dedupeOps) } }
    ghost := { t.ghost with
      birth := s.born cx.checked.fresh.length cx.now
      commits := commitsOf cx.checked.dedupeOps s.ghost.wal s.mono ++ s.ghost.commits } }

/-- The reply of a committed group. -/
def Cx.reply (cx : Cx) (firstSeq : Nat) : Reply :=
  .ok (withRefused cx.tagged (reassemble cx.checked.results firstSeq))

/-- The write of a group, of a release, of a release that had only duplicates, or of an archive
    replay. -/
def write (s : State) (ok : Bool) : Option State :=
  match s.writer.phase with
  | .applied cx prev =>
    let first := s.writer.nextSeq
    let upto := first + cx.checked.fresh.length - 1
    if ok then
      some (((s.land cx false).submit
        { upto, time := cx.now, calls := cx.calls, reply := cx.reply first }).setPhase
          (.tracking ⟨upto, cx.undo⟩))
    else
      some (({ s with
        writer := s.writer.consume cx.checked.fresh.length cx.admission.nextOrd cx.now
        marks := s.marks.setApplied prev }.answer cx.calls (.error .writeFailed)).setPhase .idle)
  | .built cx =>
    if cx.extra = [] then none
    else
      let first := s.writer.nextSeq
      let upto := first + cx.checked.fresh.length - 1
      if ok then
        some (({ s.land cx true with marks := s.marks.markDurable upto cx.now }.answer cx.calls
          (cx.reply first)).setPhase .idle)
      else
        some (({ s with
          writer := s.writer.consume cx.checked.fresh.length cx.admission.nextOrd cx.now }.answer
            cx.calls (.error .writeFailed)).setPhase .idle)
  | .extraOnly calls reply extra =>
    if ok then some (((s.commit extra true).answer calls reply).setPhase .idle)
    else some ((s.answer calls (.error .writeFailed)).setPhase .idle)
  | .redriving call count ops adm now =>
    let w := s.writer.consume count adm.nextOrd now
    if ok then
      let t := s.commit ops true
      some (({ t with
        writer := cachePut w adm.cache
        marks := s.marks.markDurable (w.nextSeq - 1) now
        ghost := { t.ghost with birth := s.born count now } }.answer
          [(call, count)] (.count count)).setPhase .idle)
    else some (({ s with writer := w }.answer [(call, count)] (.error .writeFailed)).setPhase .idle)
  | _ => none

/-- A written group stays listed until an fsync covers it. -/
def track (s : State) : Option State :=
  match s.writer.phase with
  | .tracking g =>
    some ({ s with writer := { s.writer with
      unsynced := g :: unsyncedAbove s.writer.unsynced s.marks.durable } }.setPhase .idle)
  | _ => none

/-- An archive replay: one synced batch for the hooks and the job's cursor. -/
def redrive (cfg : Config) (s : State) (call : Nat) (entries : List RedriveEntry) (extra : List Op)
    (reads : Bool) : Option State :=
  if s.writer.phase = .idle ∧ extra.all extraOk then
    if s.writer.fenced then some (s.answer [(call, entries.length)] (.error .storeUnavailable))
    else
      let now := max s.wall s.writer.lastAt
      let s := { s with writer := syncEpoch s.writer s.epoch }
      let tenants := (entries.map fun e => Tenants.normalize e.tenantId).eraseDups
      let adm := admitTenants s.store s.closed s.writer.ords s.writer.nextOrd cfg.tenantsMax tenants
      if reads = false then some (s.answer [(call, entries.length)] (.error .readFailed))
      else if tenants.any fun t => (refusedTenant adm t).isSome then
        some (s.answer [(call, entries.length)]
          (.error adm.refusal))
      else
        some (s.setPhase (.redriving call entries.length
          (redriveOps entries s.writer.nextSeq now adm extra) adm now))
  else none

/-- An fsync failed: what the writer cached is not known to be on disk, and it fences. -/
def syncFailed (s : State) (ok : Bool) : Option State :=
  if s.writer.phase = .idle ∧ s.writer.syncFailed then
    some (fence { s with writer := { s.writer with
      ords := [], ordsEpoch := none, recent := ⟨∅, ∅⟩, recentGenAt := s.mono, recentSince := s.mono,
      syncFailed := false, fenced := true } } ok)
  else none

/-- A fence whose write failed is tried again. -/
def retryFence (s : State) (ok : Bool) : Option State :=
  if s.writer.phase = .idle ∧ s.writer.fenced then some (fence s ok) else none

/-- The sweeper scans the expiry index. -/
def sweepScan (s : State) (chunk : Nat) : Option State :=
  some { s with sweep := expiredKeys s.store s.wall chunk }

/-- The writer applies the sweeper's batch; a fenced writer refuses it. -/
def expireDedupe (s : State) (ok : Bool) : Option State :=
  if s.writer.phase = .idle then
    if s.writer.fenced ∨ ok = false then some { s with sweep := [] }
    else
      let ops := expireOps s.store s.sweep
      let s := { s.commit ops.1 false with sweep := [] }
      some { s with writer := { s.writer with recent :=
        { cur := s.writer.recent.cur.write ops.2, old := s.writer.recent.old.write ops.2 } } }
  else none

/-- A tenant is closed or opened. -/
def gate (s : State) (closed : List String) : Option State :=
  some { s with closed, epoch := s.epoch + 1 }

/-! ## Steps of the syncer -/

/-- The syncer takes the first message of its mailbox. A sync request takes every other one in the
    mailbox with it: fenced, all are answered with the error; already covered, all are answered;
    else the fsync starts. -/
def syncerTake (s : State) : Option State :=
  match s.syncer.phase, s.syncer.mailbox with
  | .idle, .resume seq time :: ms =>
    some { s with
      marks := s.marks.markDurable seq time
      syncer := { s.syncer with fenced := false, mailbox := ms } }
  | .idle, .sync e :: ms =>
    let es := e :: Syncer.entries ms
    let phase :=
      if s.syncer.fenced then SyncPhase.answering es (some .storeUnavailable)
      else if (Syncer.covered es).1 ≤ s.marks.durable then .answering es none
      else .syncing es s.ghost.wal
    some { s with syncer := { s.syncer with mailbox := Syncer.rest ms, phase } }
  | _, _ => none

/-- The fsync returns. What was written before it started is on disk when it succeeded; a failed one
    fences the syncer and tells the writer. -/
def syncerSync (s : State) (ok : Bool) : Option State :=
  match s.syncer.phase with
  | .syncing es start =>
    if ok then
      some { s with
        marks := s.marks.markDurable (Syncer.covered es).1 (Syncer.covered es).2
        syncer := { s.syncer with phase := .answering es none }
        ghost := { s.ghost with synced := max s.ghost.synced start } }
    else
      some { s with
        syncer := { s.syncer with fenced := true, phase := .answering es (some .syncFailed) }
        writer := { s.writer with syncFailed := true } }
  | _ => none

/-- The callers of one entry are answered. -/
def syncerAnswer (s : State) : Option State :=
  match s.syncer.phase with
  | .answering [] _ => some { s with syncer := { s.syncer with phase := .idle } }
  | .answering (e :: es) error =>
    some { s with
      syncer := { s.syncer with phase := .answering es error }
      ghost := { s.ghost with
        replies := s.ghost.replies ++ Syncer.answer e error
        failed := if error.isSome then e :: s.ghost.failed else s.ghost.failed } }
  | _ => none

/-! ## Steps of the dispatch pipeline -/

/-- What became of an attempt. -/
inductive Outcome where
  | delivered
  | retry (time : Ms) (error : String)
  | dead (time : Ms) (error : String) (class? : Option ErrorClass) (id : Option String)
  | orphan

/-- The batch of a result; a job whose row could not be read is an orphan whatever became of it. -/
def Outcome.batch (j : Job) : Outcome → List BatchOp
  | .delivered => deliveredOps j.due.ord j.due.seq j.due.sink j.due.size j.row
  | .retry time error =>
    match j.row with
    | some row => retryOps j.due.ord j.due.seq j.due.sink
        { row with attempts := row.attempts + 1 } time error
    | none => orphanOps .inflight j.due.ord j.due.seq j.due.sink j.due.size none
  | .dead time error class? id =>
    match j.row with
    | some row => deadOps .inflight j.due.ord j.due.seq j.due.sink
        { row with attempts := row.attempts + 1 } time error class? (row.sourceId, id)
    | none => orphanOps .inflight j.due.ord j.due.seq j.due.sink j.due.size none
  | .orphan => orphanOps .inflight j.due.ord j.due.seq j.due.sink j.due.size j.row

/-- A claim round reads the clock. -/
def scanClock (s : State) : Option State :=
  match s.dispatch.scan with
  | .idle => some { s with dispatch := { s.dispatch with scan := .clock s.wall } }
  | _ => none

/-- `Syncer.visible/2`, one read of the marks at a time: the applied mark, the durable mark, and,
    while a group is unsynced, the stamp of the newest durable one. -/
def scanMark (s : State) : Option State :=
  match s.dispatch.scan with
  | .clock now =>
    some { s with dispatch := { s.dispatch with scan := .applied now s.marks.applied } }
  | .applied now seq =>
    some { s with dispatch := { s.dispatch with scan := .marked now (s.marks.durable < seq) } }
  | .marked now unsynced =>
    some { s with dispatch := { s.dispatch with
      scan := .opened (if unsynced then min now (s.marks.durableAt - 1) else now) } }
  | _ => none

/-- The scan is over. -/
def scanClose (s : State) : Option State :=
  match s.dispatch.scan with
  | .opened _ => some { s with dispatch := { s.dispatch with scan := .idle } }
  | _ => none

/-- The sweep of one lane: what it reads decides the operations it is about to write. -/
def laneRead (s : State) (ord : Nat) (lane : Lane) : Option State :=
  match s.dispatch.scan with
  | .opened ceiling =>
    some { s with dispatch := { s.dispatch with
      laneOps := coalesce (Lanes.triage s.store ord lane ceiling s.marks.durable) } }
  | _ => none

/-- The sweep of the lanes is written, or fails. -/
def laneWrite (s : State) (ok : Bool) : Option State :=
  let s' := { s with dispatch := { s.dispatch with laneOps := [] } }
  some (if ok then s'.commit s.dispatch.laneOps false else s')

/-- The due rows of one tenant at or before the ceiling, with their delivery rows. -/
def take (s : State) (ord : Nat) (floor : Ms) (limit budget : Nat) : Option State :=
  match s.dispatch.scan with
  | .opened ceiling =>
    some { s with dispatch := { s.dispatch with dues :=
      (dueForTenant s.store ord ceiling floor limit budget).map fun d =>
        { due := d, row := match s.store.get (.delivery d.seq d.sink) with
            | some (.row row) => some row
            | _ => none } } }
  | _ => none

/-- The rows read are claimed, and handed to their sinks. -/
def claimWrite (s : State) (ok : Bool) : Option State :=
  let dues := s.dispatch.dues
  let s' := { s with dispatch := { s.dispatch with dues := [] } }
  if ok then
    let s' := s'.commit (Deliveries.claim (dues.map Job.due)) false
    some { s' with
      dispatch := { s'.dispatch with jobs := dues ++ s'.dispatch.jobs }
      ghost := { s'.ghost with claimed := dues.map Job.due ++ s'.ghost.claimed } }
  else some s'

/-- An attempt ends: its result is buffered. -/
def result (s : State) (i : Nat) (o : Outcome) : Option State :=
  (s.dispatch.jobs[i]?).map fun j =>
    { s with dispatch := { s.dispatch with
      jobs := s.dispatch.jobs.eraseIdx i
      pending := s.dispatch.pending ++ [o.batch j] } }

/-- A buffered batch is written; its lanes are released by what the store holds now. -/
def flush (s : State) (i : Nat) (ok : Bool) : Option State :=
  (s.dispatch.pending[i]?).map fun batch =>
    if ok then
      { s with dispatch := { s.dispatch with pending := s.dispatch.pending.eraseIdx i } }.commit
        (coalesce (Lanes.expand s.store s.wall s.marks.durable [] batch)) false
    else s

/-- The pipeline restarts: what it held in memory is gone, and every claimed row is due again. -/
def recover (s : State) : Option State :=
  some ({ s with dispatch := ⟨.idle, [], [], [], []⟩ }.commit
    (recoverInflight s.store s.wall) true)

/-! ## The system -/

/-- The steps of the node's processes. -/
inductive Event where
  | tick (wall mono : Ms)
  | gate (closed : List String)
  | prepare (id : Nat) (items : List Item)
  | prefetch (id : Nat)
  | enqueue (id : Nat)
  | begin_
  | drain (gone : List (Nat × Reason))
  | release (id : Nat) (items : List Item) (extra : List Op)
  | check (reads : Bool)
  | setApplied
  | write (ok : Bool)
  | track
  | redrive (call : Nat) (entries : List RedriveEntry) (extra : List Op) (reads : Bool)
  | syncFailed (ok : Bool)
  | retryFence (ok : Bool)
  | sweepScan (chunk : Nat)
  | expireDedupe (ok : Bool)
  | syncerTake
  | syncerSync (ok : Bool)
  | syncerAnswer
  | scanClock
  | scanMark
  | scanClose
  | laneRead (ord : Nat) (lane : Lane)
  | laneWrite (ok : Bool)
  | take (ord : Nat) (floor : Ms) (limit budget : Nat)
  | claimWrite (ok : Bool)
  | result (i : Nat) (o : Outcome)
  | flush (i : Nat) (ok : Bool)
  | recover

/-- One step; `none` where it cannot be taken. -/
def step (cfg : Config) (s : State) : Event → Option State
  | .tick wall mono => tick s wall mono
  | .gate closed => gate s closed
  | .prepare id items => prepare s id items
  | .prefetch id => prefetch s id
  | .enqueue id => enqueue s id
  | .begin_ => begin_ s
  | .drain gone => drain cfg s gone
  | .release id items extra => release s id items extra
  | .check reads => check cfg s reads
  | .setApplied => setApplied s
  | .write ok => write s ok
  | .track => track s
  | .redrive call entries extra reads => redrive cfg s call entries extra reads
  | .syncFailed ok => syncFailed s ok
  | .retryFence ok => retryFence s ok
  | .sweepScan chunk => sweepScan s chunk
  | .expireDedupe ok => expireDedupe s ok
  | .syncerTake => syncerTake s
  | .syncerSync ok => syncerSync s ok
  | .syncerAnswer => syncerAnswer s
  | .scanClock => scanClock s
  | .scanMark => scanMark s
  | .scanClose => scanClose s
  | .laneRead ord lane => laneRead s ord lane
  | .laneWrite ok => laneWrite s ok
  | .take ord floor limit budget => take s ord floor limit budget
  | .claimWrite ok => claimWrite s ok
  | .result i o => result s i o
  | .flush i ok => flush s i ok
  | .recover => recover s

/-- The highest stored hook. -/
def lastHookSeq (s : Store) : Nat :=
  s.entries.foldl (fun n e =>
    match e.1 with
    | .hook seq => max n seq
    | _ => n) 0

/-- The seq a starting writer hands out next: past the marker and past every stored hook. -/
def bootSeq (s : Store) : Nat :=
  match s.get .nextSeq with
  | some (.num marker) => max marker (lastHookSeq s + 1)
  | _ => max 1 (lastHookSeq s + 1)

/-- The ordinal a starting writer hands out next: past the marker and past every tenant row. -/
def bootOrd (s : Store) : Nat :=
  let last := s.entries.foldl (fun n e =>
    match e.1 with
    | .tenant ord => max n ord
    | _ => n) 0
  match s.get .nextOrd with
  | some (.num marker) => max marker (last + 1)
  | _ => max 1 (last + 1)

/-- A node that has just started over the stored rows, with its clocks at `wall` and `mono`. -/
def boot (store : Store) (closed : List String) (wall mono : Ms) : State :=
  { store
    marks := .new (bootSeq store - 1) wall
    syncer := { fenced := false, mailbox := [], phase := .idle }
    writer :=
      { nextSeq := bootSeq store, nextOrd := bootOrd store, lastAt := 0, ords := [],
        ordsEpoch := none, recent := ⟨∅, ∅⟩, recentGenAt := mono, recentSince := mono,
        recentEpoch := none, unsynced := [], fenced := false, syncFailed := false, phase := .idle }
    dispatch := ⟨.idle, [], [], [], []⟩
    preparing := [], prefetched := [], queue := [], sweep := [], closed, epoch := 0, wall, mono
    ghost :=
      { replies := [], failed := [], undone := [], unfenced := store, wal := 0, synced := 0,
        birth := fun _ => none, commits := [], claimed := [], wallMax := max 0 wall } }

end Ankusa.Node
