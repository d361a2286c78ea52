import Ankusa.Intake.PendingRuns
import Ankusa.Queue.Node

set_option autoImplicit false

/-! # The writer in `wal: :dual`

The dual part of `queue/writer.ex`: a group of calls is entered in the pending set, its records are
published by a task while its rows are applied to the local store, and its callers are answered when
both halves are in. If a half failed, its records are carried to the reconciler. A quarantine
release waits for both halves itself.

The steps are what one process does between two points where another may run. The outcome of every
store call, fsync and publish is the event's choice, and so is the order in which the publish result
and the fsync of a batch reach the writer. A write or a publish that is reported as failed may have
landed all the same (`landed`). Everything else that deletes rows of the index (the dedupe sweeper,
a tenant erase, delivery) is one event.

The log is the list of the hooks whose records it holds, by position. The ghost part of the state
(`Ghost`) is never read by a step: the replies, the hooks whose rows were made durable and whose
records the log confirmed, the hooks that have no record, and every record that was entered.

Left out: tenants being erased, the breaker and the ceilings (whether a batch passes `dual_gate/2`
is the event's choice), and a crash of the writer. -/

namespace Ankusa.Dual

open KV Writer Pending

/-- The settings the writer reads. -/
structure Config where
  archive : Bool
  tenantsMax : Nat
  quota : Quota
  maxRecordBytes : Nat

/-! ## Replies -/

/-- Why a hook is not answered `201`. -/
inductive Fault where
  | refused (r : Reason)
  | intakeUnavailable
  | intakePending
  /-- A half of the hook is missing and the hook is carried; whether its rows are in the store. -/
  | half (stored : Bool) (id : String)
  deriving DecidableEq, Repr

/-- The answer to a hook. -/
inductive Answer where
  | committed (env : Env) (seq : Nat)
  | duplicate (env : Env)
  | error (f : Fault)
  deriving DecidableEq, Repr

/-- A result of the checks as an answer. -/
def Answer.of : Result → Answer
  | .committed env seq => .committed env seq
  | .duplicate env => .duplicate env
  | .error r => .error (.refused r)

/-- Put the refused items back in their places of the reply. -/
def withTags : List (Option Fault) → List Answer → List Answer
  | [], _ => []
  | some f :: ts, as => .error f :: withTags ts as
  | none :: ts, a :: as => a :: withTags ts as
  | none :: ts, [] => withTags ts []

/-- The answer of a fresh hook of a batch of which a half failed: a carried hook is in one place
    only, and one without a record is in the store if the others are. A duplicate of a hook of this
    batch is refused, because its original may be carried. -/
def halve (stored : Bool) (carried : List Nat) (fresh : List String) : Result → Answer
  | .committed env seq =>
    if seq ∈ carried then .error (.half stored env.id)
    else if stored then .committed env seq
    else .error (.refused .storeUnavailable)
  | .duplicate env => if env.id ∈ fresh then .error .intakePending else .duplicate env
  | .error r => .error (.refused r)

/-- The answers of a batch that is refused before either half is touched. -/
def refuseFresh (f : Fault) (fresh : List String) : Result → Answer
  | .committed _ _ => .error f
  | .duplicate env => if env.id ∈ fresh then .error f else .duplicate env
  | .error r => .error (.refused r)

/-- The reply of a call. -/
inductive Reply where
  | ok (answers : List Answer)
  | error (f : Fault)
  deriving DecidableEq, Repr

/-- A reply that went out, with the records of the batch it is about. -/
structure Sent where
  call : Nat
  reply : Reply
  records : List Rec
  release : Bool
  deriving DecidableEq, Repr

/-- Each call gets the answers of its own hooks, in its own order. -/
def replyCalls (records : List Rec) (release : Bool) : List (Nat × Nat) → Reply → List Sent
  | [], _ => []
  | (call, count) :: calls, .ok as =>
    ⟨call, .ok (as.take count), records, release⟩ ::
      replyCalls records release calls (.ok (as.drop count))
  | (call, _) :: calls, .error f =>
    ⟨call, .error f, records, release⟩ :: replyCalls records release calls (.error f)

/-! ## Batches -/

/-- The triple of a hook that dedupes. -/
def pendingTriple (item : Item) : Option Triple :=
  (dedupe? item).map fun d => (tenantOf item.env, item.env.sourceId, d.1)

/-- Whether a batch stores the hook of a seq. -/
def hasHook (ops : List Op) (seq : Nat) : Bool :=
  ops.any fun
    | .put (.hook q) _ => q = seq
    | _ => false

/-- The records of the fresh hooks that a batch stores: one without obligations is not published. -/
def publishedRecords (fresh : List Item) (firstSeq : Nat) (ops : List Op) : List Rec :=
  (fresh.zipIdx firstSeq).filterMap fun p =>
    if hasHook ops p.2 then some ⟨p.2, p.1.env.id, p.1.bin, pendingTriple p.1⟩ else none

/-- The markers are the writer's, current at the time: a batch applied again later must not write a
    stale one. -/
def stripOps (ops : List Op) : List Op :=
  ops.filter fun
    | .put .nextSeq _ | .put .nextOrd _ => false
    | _ => true

/-- What a group meets in the pending set: a record too large to publish, or a dedupe key whose
    original is not confirmed in both places. -/
def dualRefusal (cfg : Config) (t : Table) (item : Item) : Option Fault :=
  if cfg.maxRecordBytes < item.bin.length then some .intakeUnavailable
  else match pendingTriple item with
    | some k => if t.keyed k then some .intakePending else none
    | none => none

/-- Why an item is refused before its key is looked up; a release is not asked about the pending
    set. -/
def tagItem (cfg : Config) (t : Table) (adm : Admission) (enforce : Bool) (item : Item) :
    Option Fault :=
  match refusedTenant adm (itemTenant item) with
  | some r => some (.refused r)
  | none => if enforce then dualRefusal cfg t item else none

/-- A group that is ready to be written. -/
structure Cx where
  calls : List (Nat × Nat)
  tagged : List (Option Fault)
  checked : Checked
  admission : Admission
  ops : List Op
  undo : List (List Op)
  now : Ms
  firstSeq : Nat
  records : List Rec

/-- The new hooks of a batch. -/
def Cx.ids (cx : Cx) : List String := cx.checked.fresh.map fun i => i.env.id

/-- The last seq of a batch. -/
def Cx.upto (cx : Cx) : Nat := cx.firstSeq + cx.checked.fresh.length - 1

/-- The results of a group that is committed. -/
def Cx.results (cx : Cx) : List Result := reassemble cx.checked.results cx.firstSeq

/-- The reply of a batch that is in both places (`committed_replies/1`). -/
def Cx.committed (cx : Cx) : List Answer := withTags cx.tagged (cx.results.map Answer.of)

/-- The reply of a batch of which a half failed (`half_replies/2`). -/
def Cx.half (cx : Cx) (stored : Bool) : List Answer :=
  withTags cx.tagged (cx.results.map (halve stored (cx.records.map Rec.seq) cx.ids))

/-- The reply of a batch that is refused (`fresh_to_error/2`). -/
def Cx.refused (cx : Cx) (f : Fault) : List Answer :=
  withTags cx.tagged (cx.results.map (refuseFresh f cx.ids))

/-- What is kept of a batch to apply it again. -/
def Cx.plan (cx : Cx) : Plan :=
  ⟨stripOps cx.ops, (cx.records.head?.map Rec.seq).getD 0, cx.records.map Rec.seq, cx.now⟩

/-- The hooks of a batch that have no record. -/
def Cx.bare (cx : Cx) : List String := cx.ids.filter fun id => id ∉ cx.records.map Rec.id

/-- The outcome of a store write. -/
inductive Write where
  | ok
  | failed (landed : Bool)
  deriving DecidableEq, Repr

/-- The operations are in the store. -/
def Write.landed : Write → Bool
  | .ok => true
  | .failed landed => landed

/-- The outcome of a publish. -/
inductive Publish where
  | ok
  | failed (landed : Bool)
  deriving DecidableEq, Repr

/-- The records are in the log. -/
def Publish.landed : Publish → Bool
  | .ok => true
  | .failed landed => landed

/-- The local half of a batch in flight. -/
inductive Local where
  | pending | ok | failed
  deriving DecidableEq, Repr

/-- A batch in flight: `sent` is what its publish task has returned (the position of its last
    record, if it was confirmed), `log` what the writer has heard of it. A fence that deletes the
    rows of a batch comes after the syncer has answered it with the error (`undone`). -/
structure Batch where
  cx : Cx
  local_ : Local
  sent : Option (Option Nat)
  log : Option (Option Nat)
  undone : Bool

/-- A reply the syncer holds until an fsync covers `upto`, with the hooks it is about. -/
structure Waiting where
  calls : List (Nat × Nat)
  answers : List Answer
  upto : Nat
  ids : List String
  undone : Bool

/-- A group the writer lists as not covered by an fsync. -/
structure Tracked where
  upto : Nat
  ids : List String
  undo : List (List Op)

/-! ## The state -/

/-- What has happened so far. -/
structure Ghost where
  begun : List Nat
  sent : List Sent
  /-- The hooks that were handed to the writer. -/
  ids : List String
  /-- The hooks whose rows have been on disk, and those whose rows are. -/
  fsynced : List String
  durable : List String
  /-- The hooks whose records the log confirmed. -/
  logged : List String
  /-- The hooks without a record. -/
  bare : List String
  entered : List Rec

/-- The writer, the store, the pending set and the log. -/
structure State where
  nextSeq : Nat
  nextOrd : Nat
  lastAt : Ms
  ords : List (String × Nat)
  recent : Recent
  recentGenAt : Ms
  recentSince : Ms
  fenced : Bool
  unsynced : List Tracked
  /-- The highest seq of an applied group, and the highest one an fsync has covered. -/
  applied : Nat
  durableMark : Nat
  inflight : List Batch
  waiting : List Waiting
  queue : List Node.Call
  store : Store
  table : Table
  log : List String
  /-- The flushed log offset and watermark (`m:intake_offset`, `m:intake_seq`). -/
  offset : Option Nat
  watermark : Option Nat
  ghost : Ghost

/-- The writer of an empty store. -/
def State.start : State :=
  { nextSeq := 1, nextOrd := 1, lastAt := 0, ords := [], recent := ⟨∅, ∅⟩, recentGenAt := 0,
    recentSince := 0, fenced := false, unsynced := [], applied := 0, durableMark := 0,
    inflight := [], waiting := [],
    queue := [], store := ∅, table := .empty, log := [], offset := none, watermark := none,
    ghost := ⟨[], [], [], [], [], [], [], []⟩ }

/-- What the processes share of the pending set. -/
def State.shared (s : State) : Shared :=
  ⟨s.table, s.inflight.map fun b => ⟨b.cx.firstSeq, b.cx.records⟩⟩

/-- Answer calls. -/
def State.reply (s : State) (calls : List (Nat × Nat)) (records : List Rec) (release : Bool)
    (r : Reply) : State :=
  { s with ghost := { s.ghost with sent := replyCalls records release calls r ++ s.ghost.sent } }

/-! ## The group -/

/-- The group of `calls`: admission, dedupe check and batch. -/
def State.cx (cfg : Config) (s : State) (calls : List Node.Call)
    (prefetch : List (Key × Option Val)) (now : Ms) (extra : List Op) : Cx :=
  let items := calls.flatMap Node.Call.items
  let adm := admitTenants s.store [] s.ords s.nextOrd cfg.tenantsMax
    (items.map itemTenant).eraseDups
  let tag := tagItem cfg s.table adm (extra = [])
  let checked := dedupeCheck (storedFor s.recent prefetch s.store)
    (fun ord => Counters.readField s.store ord .dedupe) now adm.ords (extra = []) cfg.quota
    (items.filter fun i => (tag i).isNone)
  let built := buildOps checked.fresh s.nextSeq now cfg.archive adm.ords
  let ops := Deliveries.coalesce (checked.dedupeOps ++ built ++ adm.ops ++ extra)
  { calls := calls.map fun c => (c.id, c.items.length)
    tagged := items.map tag
    checked, admission := adm, ops, undo := [checked.dedupeOps, built], now, firstSeq := s.nextSeq
    records := publishedRecords checked.fresh s.nextSeq ops }

/-- The watermark and the offset ride in every dual commit and in the flush. -/
def State.flushMeta (s : State) (landed : Bool) : State :=
  { s with
    offset := if landed then s.table.offset <|> s.offset else s.offset
    watermark := if landed then some (s.table.watermark s.nextSeq) else s.watermark }

/-- A write to the store, which may land although it fails. -/
def State.write (s : State) (ops : List Op) (w : Write) : State :=
  { s with store := if w.landed then s.store.write ops else s.store }

/-- The seqs and ordinals of a batch are consumed, written or not. -/
def State.consume (s : State) (cx : Cx) : State :=
  { s with
    nextSeq := s.nextSeq + cx.checked.fresh.length
    nextOrd := cx.admission.nextOrd
    lastAt := cx.now
    ghost := { s.ghost with bare := cx.bare ++ s.ghost.bare } }

/-- The tenants of the group are cached. -/
def State.cachePut (s : State) (cx : Cx) : State :=
  { s with
    ords := if Node.ordCacheMax < s.ords.length + cx.admission.cache.length then cx.admission.cache
      else cx.admission.cache ++ s.ords }

/-- The dedupe keys a written batch put are remembered. -/
def State.recordRecent (s : State) (cx : Cx) (w : Write) : State :=
  { s with recent := { s.recent with
      cur := if w = .ok then s.recent.cur.write (Node.dedupePuts cx.checked.dedupeOps)
        else s.recent.cur } }

/-- A written group stays listed until an fsync covers it. -/
def State.track (s : State) (cx : Cx) : State :=
  { s with
    applied := cx.upto
    unsynced := ⟨cx.upto, cx.ids, cx.undo⟩ :: s.unsynced.takeWhile fun g => s.durableMark < g.upto }

/-- Everything that was applied is on disk. -/
def State.fsync (s : State) : State :=
  { s with ghost := { s.ghost with
      fsynced := s.unsynced.flatMap Tracked.ids ++ s.ghost.fsynced
      durable := s.unsynced.flatMap Tracked.ids ++ s.ghost.durable } }

/-- The rows of these hooks are on disk. -/
def State.persist (s : State) (ids : List String) : State :=
  { s with ghost := { s.ghost with
      fsynced := ids ++ s.ghost.fsynced
      durable := ids ++ s.ghost.durable } }

/-- The synced write of a release covers everything before it. -/
def State.persistRelease (s : State) (cx : Cx) : State :=
  let s := s.fsync.persist cx.ids
  { s with
    durableMark := max s.durableMark cx.upto
    ghost := { s.ghost with ids := cx.ids ++ s.ghost.ids } }

/-- The records of a batch reach the log. -/
def State.append (s : State) (ids : List String) (p : Publish) : State :=
  { s with
    log := if p.landed then s.log ++ ids else s.log
    ghost := { s.ghost with logged := if p = .ok then ids ++ s.ghost.logged else s.ghost.logged } }

/-- The start of both halves: the records are entered before the rows are written. -/
def State.startDual (s : State) (cx : Cx) (w : Write) : State :=
  let s := { s with
    table := s.table.enter cx.records cx.firstSeq cx.now
    ghost := { s.ghost with entered := cx.records ++ s.ghost.entered } }
  ((((s.write cx.ops w).flushMeta w.landed).consume cx).cachePut cx).recordRecent cx w

/-- A group goes into flight. -/
def State.dualCommit (s : State) (cx : Cx) (w : Write) : State :=
  let s := s.startDual cx w
  if w = .ok then { s.track cx with inflight := ⟨cx, .pending, none, none, false⟩ :: s.inflight }
  else { s with inflight := ⟨cx, .failed, none, none, false⟩ :: s.inflight }

/-- A group without records is only written; its reply waits for the syncer. -/
def State.diskCommit (s : State) (cx : Cx) (w : Write) : State :=
  let s := (s.write cx.ops w).consume cx
  if w = .ok then
    let s := ((s.cachePut cx).recordRecent cx w).track cx
    { s with waiting := ⟨cx.calls, cx.committed, cx.upto, cx.ids, false⟩ :: s.waiting }
  else s.reply cx.calls [] false (.error (.refused .writeFailed))

/-- A reply that is not the outcome of a write. One that says `duplicate` waits for the fsync of
    what is applied, unless all of it is synced. -/
def State.settleReply (s : State) (cx : Cx) (answers : List Answer) : State :=
  if s.durableMark < s.applied ∧ answers.any (fun | .duplicate _ => true | _ => false) then
    { s with waiting := ⟨cx.calls, answers, s.applied, [], false⟩ :: s.waiting }
  else s.reply cx.calls [] false (.ok answers)

/-- A group of calls that passed its reads; `gate` is whether the pending set has room and the
    breaker is closed. -/
def State.commitGroup (s : State) (cx : Cx) (gate : Bool) (w : Write) : State :=
  if cx.checked.fresh = [] then s.settleReply cx cx.committed
  else if gate = false then s.settleReply cx (cx.refused .intakeUnavailable)
  else if cx.records = [] then s.diskCommit cx w
  else s.dualCommit cx w

/-- A quarantine release that passed its reads. -/
def State.commitRelease (s : State) (cx : Cx) (extra : List Op) (gate : Bool) (w : Write)
    (p : Publish) : State :=
  if cx.tagged.any Option.isSome then
    s.reply cx.calls [] true (.error (.refused cx.admission.refusal))
  else if cx.checked.fresh = [] then
    if w = .ok then (s.write extra w).fsync.reply cx.calls [] true (.ok cx.committed)
    else (s.write extra w).reply cx.calls [] true (.error (.refused .writeFailed))
  else if gate = false then s.reply cx.calls [] true (.error .intakeUnavailable)
  else if cx.records = [] then
    let s := (s.write cx.ops w).consume cx
    if w = .ok then
      (((s.cachePut cx).recordRecent cx w).persistRelease cx).reply cx.calls [] true
        (.ok cx.committed)
    else s.reply cx.calls [] true (.error (.refused .writeFailed))
  else
    let s := (s.startDual cx w).append (cx.records.map Rec.id) p
    let seqs := cx.records.map Rec.seq
    if w = .ok then
      let s := s.persistRelease cx
      let table := if p = .ok then s.table.confirm seqs (some (s.log.length - 1))
        else s.table.carry ⟨.ok, .missing, none⟩ cx.records cx.firstSeq cx.plan cx.now
      { s with table }.reply cx.calls cx.records true (.ok cx.committed)
    else
      { s with table := s.table.confirm seqs none }.reply cx.calls cx.records true
        (.error (.refused .storeUnavailable))

/-! ## The join of the halves -/

/-- Both halves of the batch at `i` are in: `b` is the batch with both (`finish_dual/3`). -/
def State.finishDual (s : State) (i : Nat) (b : Batch) (now : Ms) : State :=
  let s := { s with inflight := s.inflight.eraseIdx i }
  let seqs := b.cx.records.map Rec.seq
  let stored := b.local_ = .ok
  match b.log.join with
  | some p =>
    if stored then
      { s with table := s.table.confirm seqs (some p) }.reply b.cx.calls b.cx.records false
        (.ok b.cx.committed)
    else
      { s with
        table := s.table.carry ⟨.missing, .ok,
          some (p + 1 - seqs.length)⟩ b.cx.records b.cx.firstSeq
          b.cx.plan now }.reply b.cx.calls b.cx.records false (.ok (b.cx.half false))
  | none =>
    { s with
      table := s.table.carry ⟨if stored then .ok else .missing, .missing, none⟩ b.cx.records
        b.cx.firstSeq b.cx.plan now }.reply b.cx.calls b.cx.records false (.ok (b.cx.half stored))

/-- The writer hears of one half of the batch at `i`; once both are in, the batch is answered
    (`advance/3`). -/
def State.advance (s : State) (i : Nat) (b : Batch) (now : Ms) : State :=
  if b.local_ = .pending ∨ b.log = none then { s with inflight := s.inflight.set i b }
  else s.finishDual i b now

/-! ## Events -/

/-- The steps of the writer, its tasks, the syncer, the reconciler and the edge. -/
inductive Event where
  /-- A caller has read the keys of its hooks and calls the writer. -/
  | prepare (call : Nat) (items : List Item) (readAt : Ms)
  /-- A call in the mailbox is past its deadline, or its caller is gone. -/
  | drop (i : Nat) (r : Reason)
  /-- The first `n` calls of the mailbox are a group. -/
  | group (n : Nat) (now : Ms) (reads gate : Bool) (w : Write)
  | release (call : Nat) (items : List Item) (extra : List Op) (now : Ms)
      (reads gate : Bool) (w : Write)
      (p : Publish)
  /-- The publish task of the batch at `i` returns, or dies. -/
  | publish (i : Nat) (p : Publish)
  /-- The writer takes what the task returned. -/
  | result (i : Nat) (now : Ms)
  /-- The syncer has answered for the batch at `i`, and for the reply it holds at `i`. -/
  | synced (i : Nat) (ok : Bool) (now : Ms)
  | answer (i : Nat) (ok : Bool)
  /-- An fsync that covers `upto`. -/
  | fsync (upto : Nat)
  /-- After a failed fsync the rows of the groups no fsync covered are deleted, if the write
    works. -/
  | fence (ok : Bool) (mono : Ms)
  | completeLocal (batch : Nat) (w : Write)
  | republish (seqs : List Nat) (p : Publish)
  | flush (ok : Bool)
  | delete (keys : List Key)
  | rotate (mono : Ms)
  /-- The reconciler schedules or marks an entry, an edge process leaves a claim. -/
  | table (ev : Pending.Event)

/-- The calls on the pending set that have no step of their own here. -/
def side : Pending.Event → Bool
  | .reschedule .. | .markStuck .. | .takeClaim .. | .hold .. => true
  | .enter .. | .confirm .. | .carry .. | .localDone .. | .logDone .. | .bumpConfirmed ..
  | .crash => false

/-- Whether the reconciler publishes the entry: its rows are in the store, its record not in the
    log. -/
def unpublished (t : Table) (q : Nat) : Bool :=
  match t.entries.get q with
  | none => false
  | some e => e.nextAt.isSome && e.local_ = .ok && e.log = .missing && e.bin.isSome

/-- The groups a fence takes back. -/
def State.fenceGroups (s : State) : List Tracked :=
  s.unsynced.takeWhile fun g => s.durableMark < g.upto

/-- A failed fsync: what the writer remembers may not be on disk, and the rows of every group no
    fsync covered are deleted. -/
def State.fence (s : State) (ok : Bool) (mono : Ms) : State :=
  let s := { s with ords := [], recent := ⟨∅, ∅⟩, recentGenAt := mono, recentSince := mono }
  if ok then
    { s with
      store := s.store.write (undoOps (s.fenceGroups.map fun g => ⟨g.upto, g.undo⟩))
      fenced := false, unsynced := [], durableMark := max s.durableMark s.applied
      inflight := s.inflight.map fun b =>
        if b.local_ = .pending ∧ s.durableMark < b.cx.upto then { b with undone := true } else b
      waiting := s.waiting.map fun x =>
        if s.durableMark < x.upto then { x with undone := true } else x
      ghost := { s.ghost with
        durable := s.ghost.durable.filter fun id => id ∉ s.fenceGroups.flatMap Tracked.ids } }
  else { s with fenced := true }

/-- The local half of a carried batch: its rows are in the store already and are made durable, or
    they are applied again. A fenced writer does nothing. -/
def State.completeLocal (s : State) (batch : Nat) (w : Write) : State :=
  if s.fenced then s
  else match s.table.batches.get batch with
    | none => s
    | some plan =>
      let ids := idsAt s.table plan.seqs
      let landed := (s.store.get (.hook plan.probeSeq)).isSome
      let s := s.write (if landed then [] else plan.ops) w
      if w = .ok then { s.fsync.persist ids with table := (s.table.localDone batch).1 } else s

/-- The reconciler publishes records and confirms their log halves, at the position of the first. -/
def State.republish (s : State) (seqs : List Nat) (p : Publish) : State :=
  let s := s.append (idsAt s.table seqs) p
  if p = .ok then
    { s with table := seqs.foldl (fun t q => (t.logDone q (s.log.length - seqs.length)).1) s.table }
  else s

/-- One step. -/
def step (cfg : Config) (s : State) : Event → Option State
  | .prepare call items readAt =>
    let ids := items.map fun i => i.env.id
    if call ∉ s.ghost.begun ∧ ids.Nodup ∧ ∀ id ∈ ids, id ∉ s.ghost.ids then
      some { s with
        queue := s.queue ++ [⟨call, items,
          (items.filterMap dedupeKey).eraseDups.map fun k => (k, s.store.get k), readAt⟩]
        ghost := { s.ghost with begun := call :: s.ghost.begun, ids := ids ++ s.ghost.ids } }
    else none
  | .drop i r =>
    (s.queue[i]?).map fun c =>
      { s with queue := s.queue.eraseIdx i }.reply [(c.id, c.items.length)] [] false
        (.error (.refused r))
  | .group n now reads gate w =>
    let calls := s.queue.take n
    let from_ := calls.map fun c => (c.id, c.items.length)
    if calls = [] then none
    else
      let s := { s with queue := s.queue.drop n }
      if s.fenced then some (s.reply from_ [] false (.error (.refused .storeUnavailable)))
      else if reads = false then some (s.reply from_ [] false (.error (.refused .readFailed)))
      else
        let now := max now s.lastAt
        some (s.commitGroup (s.cx cfg calls (Node.mergePrefetch calls s.recentSince) now []) gate w)
  | .release call items extra now reads gate w p =>
    let ids := items.map fun i => i.env.id
    if call ∉ s.ghost.begun ∧ ids.Nodup ∧ (∀ id ∈ ids, id ∉ s.ghost.ids) ∧ extra ≠ [] ∧
        extra.all Node.extraOk then
      -- The hooks of a release that fails are not used up: it is tried again.
      let s := { s with ghost := { s.ghost with begun := call :: s.ghost.begun } }
      let from_ := [(call, items.length)]
      if s.fenced then some (s.reply from_ [] true (.error (.refused .storeUnavailable)))
      else if reads = false then some (s.reply from_ [] true (.error (.refused .readFailed)))
      else
        let now := max now s.lastAt
        some (s.commitRelease (s.cx cfg [⟨call, items, [], now⟩] [] now extra) extra gate w p)
    else none
  | .publish i p =>
    match s.inflight[i]? with
    | some b =>
      if b.sent = none then
        let s := s.append (b.cx.records.map Rec.id) p
        let sent := if p = .ok then some (s.log.length - 1) else none
        some { s with inflight := s.inflight.set i { b with sent := some sent } }
      else none
    | none => none
  | .result i now =>
    match s.inflight[i]? with
    | some b =>
      if b.sent ≠ none ∧ b.log = none then some (s.advance i { b with log := b.sent } now) else none
    | none => none
  | .synced i ok now =>
    match s.inflight[i]? with
    | some b =>
      -- The syncer answers `:ok` for what an fsync has covered and not after it refused it.
      if b.local_ = .pending ∧ (ok → b.undone = false ∧ b.cx.upto ≤ s.durableMark) then
        some (s.advance i { b with local_ := if ok then .ok else .failed } now)
      else none
    | none => none
  | .answer i ok =>
    match s.waiting[i]? with
    | some x =>
      if ok → x.undone = false ∧ x.upto ≤ s.durableMark then
        some ({ s with waiting := s.waiting.eraseIdx i }.reply x.calls [] false
          (if ok then Reply.ok x.answers else Reply.error (.refused .syncFailed)))
      else none
    | none => none
  | .fsync upto =>
    if s.fenced = false ∧ upto ≤ s.applied then
      some { s.fsync with durableMark := max s.durableMark upto }
    else none
  | .fence ok mono => some (s.fence ok mono)
  | .completeLocal batch w => some (s.completeLocal batch w)
  | .republish seqs p =>
    if seqs.Nodup ∧ ∀ q ∈ seqs, unpublished s.table q then some (s.republish seqs p) else none
  | .flush ok => some (s.flushMeta ok)
  | .delete keys =>
    let ops := keys.map Op.delete
    some { s with
      store := s.store.write ops, recent := ⟨s.recent.cur.write ops, s.recent.old.write ops⟩ }
  | .rotate mono =>
    some { s with recent := ⟨∅, s.recent.cur⟩, recentSince := s.recentGenAt, recentGenAt := mono }
  | .table ev =>
    if side ev then (Pending.step s.shared ev).map fun sh => { s with table := sh.table } else none

section

variable {t : State}

theorem flight_found {o : Option Batch} {p : Batch → Prop} [DecidablePred p] {f : Batch → State}
    (h : (match o with | some b => if p b then some (f b) else none | none => none) = some t) :
    ∃ b, o = some b ∧ p b ∧ f b = t := by
  split at h
  next b => exact ⟨b, rfl, Run.guarded h⟩
  · cases h

theorem waiting_found {o : Option Waiting} {p : Waiting → Prop} [DecidablePred p]
    {f : Waiting → State}
    (h : (match o with | some x => if p x then some (f x) else none | none => none) = some t) :
    ∃ x, o = some x ∧ p x ∧ f x = t := by
  split at h
  next x => exact ⟨x, rfl, Run.guarded h⟩
  · cases h

/-- A group or a release is refused while the node is fenced or when its reads fail. -/
theorem admitted_cases {p q : Prop} [Decidable p] [Decidable q] {fenced unread done : State}
    (h : (if p then some fenced else if q then some unread else some done) = some t) :
    fenced = t ∨ unread = t ∨ done = t := by
  split_ifs at h
  · exact .inl (Option.some.inj h)
  · exact .inr (.inl (Option.some.inj h))
  · exact .inr (.inr (Option.some.inj h))

end

end Ankusa.Dual
