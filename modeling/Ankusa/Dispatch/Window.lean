import Ankusa.Store.Keys
import Ankusa.Lib.Run
import Ankusa.Lib.Slots

set_option autoImplicit false

/-! # The dispatch window

The jobs dispatch has claimed (`dispatch/pipeline.ex`), from their claim to their outcome: they wait
for a claim check to be packed, wait in the queue of their sink key, or run. Tenants with queued
jobs take turns in `ring`, and a tenant's keys in the tenant's own ring. A sink that fails opens the
breaker of its key, which parks the key's jobs: they leave the window and their rows are due again
later.

The queues and the rings are one list each, in arrival order; the queue of a key and the ring of a
tenant are its entries in it. One turn of the loop of `start_jobs` is an event of its own. -/

namespace Ankusa.Dispatch

/-- What a breaker and a queue are kept for. -/
structure SinkKey where
  tenant : String
  source : String
  sink : Nat
  module : String
  deriving DecidableEq, Repr

/-- What of a delivery row a retry keeps or writes. -/
structure Row where
  attempts : Nat
  time : Ms
  deriving DecidableEq, Repr

/-- A claimed delivery. -/
structure Job where
  key : SinkKey
  ord : Nat
  seq : Nat
  size : Nat
  row : Row
  /-- The end of the row's retry horizon. -/
  deadline : Ms
  /-- The body is over the sink's inline limit, and has no claim yet. -/
  packs : Bool
  batched : Bool
  deriving DecidableEq, Repr

/-- The states of a breaker. -/
inductive Circuit where
  | closed | open | halfOpen
  deriving DecidableEq, Repr

/-- The breaker of a sink key. -/
structure Breaker where
  state : Circuit
  failures : Nat
  opens : Nat
  openUntil : Ms
  probe : Option Nat
  deriving DecidableEq, Repr

/-- A running attempt: the task's reference, its job, and whether it is a probe. -/
structure Attempt where
  ref : Nat
  job : Job
  probe : Bool

/-- Attempts of batching sinks are not counted. -/
def Attempt.counted (a : Attempt) : Bool := !a.job.batched

/-- The settings of the pipeline. -/
structure Config where
  concurrency : Nat
  sinkConcurrency : Option Nat
  tenantConcurrency : Nat → Nat
  breakerFailures : Nat
  breakerOpenMs : Ms
  breakerMaxOpenMs : Ms

/-- The two clocks. -/
structure Clock where
  mono : Ms
  wall : Ms

/-- The pipeline's window, queues, attempts and breakers. -/
structure State where
  cfg : Config
  claimed : Int
  claimedBytes : Int
  tenantClaimed : Nat → Option (Int × Int)
  queues : List Job
  rings : List (Nat × SinkKey)
  ring : List Nat
  running : List Attempt
  runningCounted : Int
  runningByKey : SinkKey → Int
  runningByTenant : Nat → Int
  packing : List (List Job)
  packingSeqs : List Nat
  waiting : List Job
  breakers : SinkKey → Option Breaker
  nextRef : Nat
  /-- The parked jobs with the rows written for them. -/
  parked : List (Job × Row)
  /-- How many attempts of a key were started since its breaker went half-open. -/
  started : SinkKey → Nat

/-- An empty pipeline. -/
def State.start (cfg : Config) : State :=
  { cfg, claimed := 0, claimedBytes := 0, tenantClaimed := fun _ => none, queues := [],
    rings := [], ring := [], running := [], runningCounted := 0,
    runningByKey := fun _ => 0, runningByTenant := fun _ => 0, packing := [],
    packingSeqs := [], waiting := [], breakers := fun _ => none, nextRef := 0,
    parked := [], started := fun _ => 0 }

/-- The jobs of the window. -/
def State.jobs (s : State) : List Job :=
  s.queues ++ (s.packing.flatten ++ (s.waiting ++ s.running.map Attempt.job))

/-! ## The window of a tenant -/

/-- A job enters its tenant's window. -/
def tenantAdd (s : State) (j : Job) : State :=
  let entry := (s.tenantClaimed j.ord).getD (0, 0)
  { s with tenantClaimed :=
    Function.update s.tenantClaimed j.ord (some (entry.1 + 1, entry.2 + j.size)) }

/-- A job leaves its tenant's window. -/
def tenantSub (s : State) (j : Job) : State :=
  { s with
    tenantClaimed := Function.update s.tenantClaimed j.ord
      ((s.tenantClaimed j.ord).bind fun entry =>
        if entry.1 = 1 then none else some (entry.1 - 1, entry.2 - j.size)) }

/-- A job leaves the window. -/
def leave (s : State) (j : Job) : State :=
  tenantSub { s with claimed := s.claimed - 1, claimedBytes := s.claimedBytes - j.size } j

/-- The row of a retry. -/
def retryRow (row : Row) (time : Ms) : Row := { row with time := time }

/-- A claimed job goes back to its row, due at `time` or at its horizon. -/
def park (s : State) (j : Job) (time : Ms) : State :=
  let s := leave s j
  { s with parked := (j, retryRow j.row (min time j.deadline)) :: s.parked }

/-! ## Breakers -/

/-- Whether the key may run now (`none`), or its rows are parked until a time. An open breaker whose
    period is over turns half-open. -/
def admission (s : State) (key : SinkKey) (c : Clock) : Option Ms × State :=
  match s.breakers key with
  | some b =>
    match b.state with
    | .open =>
      if c.mono < b.openUntil then (some (c.wall + (b.openUntil - c.mono)), s)
      else (none, { s with
        breakers := Function.update s.breakers key
          (some { b with state := .halfOpen, probe := none })
        started := Function.update s.started key 0 })
    | .halfOpen => if b.probe.isSome then (some (c.wall + s.cfg.breakerOpenMs), s) else (none, s)
    | .closed => (none, s)
  | none => (none, s)

/-- The queue of a key is parked. -/
def parkJobs (s : State) (key : SinkKey) (time : Ms) : State :=
  (s.queues.filter fun j => j.key = key).foldl (fun s j => park s j time)
    { s with queues := s.queues.filter fun j => j.key ≠ key }

/-- The key leaves its tenant's ring, and the tenant the outer ring once it has no key. -/
def dropKey (s : State) (ord : Nat) (key : SinkKey) : State :=
  let rings := s.rings.erase (ord, key)
  if s.rings.any fun e => e.1 = ord then
    { s with
      rings := rings
      ring := if rings.any fun e => e.1 = ord then s.ring else s.ring.erase ord }
  else s

/-- Park what waits for the key, if anything does. -/
def parkQueued (s : State) (ord : Nat) (key : SinkKey) (time : Ms) : State :=
  if s.queues.any fun j => j.key = key then parkJobs (dropKey s ord key) key time else s

/-- The breaker opens, for twice as long each time, and parks its queue. -/
def openBreaker (s : State) (j : Job) (b : Breaker) (c : Clock) : State :=
  let opens := b.opens + 1
  let period := min (s.cfg.breakerOpenMs * 2 ^ (opens - 1)) s.cfg.breakerMaxOpenMs
  let b := { b with state := .open, opens := opens, openUntil := c.mono + period, probe := none }
  parkQueued { s with breakers := Function.update s.breakers j.key (some b) } j.ord j.key
    (c.wall + period)

/-- What an attempt ended with: a failure counts unless it is permanent. -/
inductive Outcome where
  | ok | permanent | failed
  deriving DecidableEq, Repr

/-- A breaker that has seen nothing. -/
def closedBreaker : Breaker := ⟨.closed, 0, 0, 0, none⟩

/-- Every attempt's outcome moves its key's breaker. -/
def trip (s : State) (a : Attempt) (o : Outcome) (c : Clock) : State :=
  let close := { s with breakers := Function.update s.breakers a.job.key none }
  match o with
  | .ok => close
  | .permanent => if s.cfg.breakerFailures = 0 then s else if a.probe then close else s
  | .failed =>
    if s.cfg.breakerFailures = 0 then s
    else
      let b := (s.breakers a.job.key).getD closedBreaker
      let b := { b with failures := b.failures + 1 }
      if a.probe || (b.state = .closed && s.cfg.breakerFailures ≤ b.failures) then
        openBreaker s a.job b c
      else { s with breakers := Function.update s.breakers a.job.key (some b) }

/-! ## Queueing -/

/-- The key joins its tenant's ring, and the tenant the outer ring if it had no key. -/
def ringIn (s : State) (ord : Nat) (key : SinkKey) : State :=
  { s with
    rings := s.rings ++ [(ord, key)]
    ring := if s.rings.any fun e => e.1 = ord then s.ring else s.ring ++ [ord] }

/-- A job waits for its key; an empty queue takes its place in the rings. -/
def push (s : State) (j : Job) : State :=
  let s := if s.queues.any fun x => x.key = j.key then s else ringIn s j.ord j.key
  { s with queues := s.queues ++ [j] }

/-- A job is parked by an open breaker, and queued otherwise. -/
def enqueue (c : Job → Clock) (s : State) (j : Job) : State :=
  match admission s j.key (c j) with
  | (some time, s) => park s j time
  | (none, s) => push s j

/-- The claimed jobs enter the window, and go to their queues or to a pack. -/
def stage (s : State) (jobs : List Job) (c : Job → Clock) : State :=
  let s := jobs.foldl (tenantAdd) { s with
    claimed := s.claimed + jobs.length
    claimedBytes := s.claimedBytes + Slots.total Job.size jobs }
  let needing := jobs.filter Job.packs
  let s := (jobs.filter fun j => !j.packs).foldl (enqueue c) s
  let toPack := needing.filter fun j => j.seq ∉ s.packingSeqs
  let s := { s with waiting :=
    (needing.filter fun j => j.seq ∈ s.packingSeqs).reverse ++ s.waiting }
  if toPack = [] then s
  else { s with
    packing := s.packing ++ [toPack], packingSeqs := s.packingSeqs ++ toPack.map Job.seq }

/-- The jobs that waited for one of the hooks, taken out hook by hook. -/
def release : List Nat → List Job → List Job → List Job × List Job
  | [], waiting, released => (waiting, released)
  | seq :: seqs, waiting, released =>
    release seqs (waiting.filter fun j => j.seq ≠ seq)
      ((waiting.filter fun j => j.seq = seq) ++ released)

/-- A pack is done, or has failed: its jobs and those that waited for it are queued. -/
def packed (s : State) (i : Nat) (jobs : List Job) (c : Job → Clock) : State :=
  let seqs := jobs.map Job.seq
  let (waiting, released) := release seqs s.waiting []
  (jobs ++ released).foldl (enqueue c) { s with
    packing := s.packing.eraseIdx i
    packingSeqs := s.packingSeqs.filter fun q => q ∉ seqs
    waiting := waiting }

/-- The rows of a claim, each with whether its source still has the sink: those behind a breaker are
    parked without entering the window, or dead-lettered once their horizon is over. -/
def resolve (now : Ms) (c : Job → Clock) : State → List (Job × Bool) → State × List Job
  | s, [] => (s, [])
  | s, (j, bound) :: rows =>
    match admission s j.key (c j) with
    | (some time, s) =>
      resolve now c (if j.deadline ≤ now then s
        else { s with parked := (j, retryRow j.row (min time j.deadline)) :: s.parked }) rows
    | (none, s) =>
      let rest := resolve now c s rows
      (rest.1, if bound then j :: rest.2 else rest.2)

/-! ## Running -/

/-- The key runs as many attempts as a sink may. -/
def atSinkCap (s : State) (key : SinkKey) : Bool :=
  match s.cfg.sinkConcurrency with
  | none => false
  | some cap => cap ≤ s.runningByKey key

/-- The tenant runs as many attempts as it may. -/
def atTenantCap (s : State) (ord : Nat) : Bool :=
  s.cfg.tenantConcurrency ord ≤ s.runningByTenant ord

/-- Count an attempt that starts or ends: those of batching sinks count nothing. -/
def count (s : State) (j : Job) (n : Int) : State :=
  let n := if j.batched then 0 else n
  { s with
    runningCounted := s.runningCounted + n
    runningByKey := Function.update s.runningByKey j.key (s.runningByKey j.key + n)
    runningByTenant := Function.update s.runningByTenant j.ord (s.runningByTenant j.ord + n) }

/-- The first job of the key runs; the first of a half-open key is its probe. The key is out of its
    tenant's ring and goes back if it has more jobs. -/
def startOne (s : State) (ord : Nat) (key : SinkKey) : State :=
  match s.queues.find? fun j => j.key = key with
  | none => s
  | some j =>
    let queues := s.queues.erase j
    let b := s.breakers key
    let probe := b.any fun b => b.state = .halfOpen && b.probe.isNone
    count { s with
      queues := queues
      rings := if queues.any fun x => x.key = key then s.rings ++ [(ord, key)] else s.rings
      running := ⟨s.nextRef, j, probe⟩ :: s.running
      nextRef := s.nextRef + 1
      breakers := if probe then
        Function.update s.breakers key (b.map fun b => { b with probe := some s.nextRef })
        else s.breakers
      started := Function.update s.started key (s.started key + 1) } j 1

/-- The tenant is out of the outer ring, and goes back if it has a key. -/
def finishTenant (s : State) (ord : Nat) : State :=
  { s with ring := if s.rings.any fun e => e.1 = ord then s.ring ++ [ord] else s.ring }

/-- One of the tenant's keys starts a job: parked ones and those at their cap are passed over. -/
def startFromTenant (c : Nat → Clock) (ord : Nat) : State → Nat → State
  | s, 0 => finishTenant s ord
  | s, turns + 1 =>
    match s.rings.find? fun e => e.1 = ord with
    | none => finishTenant s ord
    | some (_, key) =>
      let s := { s with rings := s.rings.erase (ord, key) }
      match admission s key (c turns) with
      | (some time, s) => startFromTenant c ord (parkJobs s key time) turns
      | (none, s) =>
        if atSinkCap s key then startFromTenant c ord { s with rings :=
          s.rings ++ [(ord, key)] } turns
        else finishTenant (startOne s ord key) ord

/-- One turn of `start_jobs`. -/
def turn (s : State) (c : Nat → Clock) : Option State :=
  match s.ring with
  | [] => none
  | ord :: ring =>
    if s.cfg.concurrency ≤ s.runningCounted then none
    else if atTenantCap s ord then some { s with ring := ring ++ [ord] }
    else some (startFromTenant c ord { s with ring := ring }
      (s.rings.countP fun e => e.1 = ord))

/-- The handlers of the pipeline. -/
inductive Event where
  | claim (rows : List (Job × Bool)) (now : Ms) (found queued : Job → Clock)
  | packed (i : Nat) (c : Job → Clock)
  | turn (c : Nat → Clock)
  | outcome (i : Nat) (o : Outcome) (c : Clock)
  | reconfigure (cfg : Config)

/-- A tenant has one ordinal in the window: erasing a tenant, which retires its ordinal, waits until
    none of its rows is claimed. -/
def Agree (jobs : List Job) : Prop :=
  ∀ j ∈ jobs, ∀ j' ∈ jobs, j.key.tenant = j'.key.tenant → j.ord = j'.ord

instance (jobs : List Job) : Decidable (Agree jobs) := inferInstanceAs (Decidable (∀ _ ∈ _, _))

/-- One handler runs. -/
def step (s : State) : Event → Option State
  | .claim rows now found queued =>
    if Agree (rows.map Prod.fst ++ s.jobs) then
      let resolved := resolve now found s rows
      some (stage resolved.1 resolved.2 queued)
    else none
  | .packed i c => (s.packing[i]?).map fun jobs => packed s i jobs c
  | .turn c => turn s c
  | .outcome i o c =>
    (s.running[i]?).map fun a =>
      let s := { s with running := s.running.eraseIdx i }
      trip (count (leave s a.job) a.job (-1)) a o c
  | .reconfigure cfg => some { s with cfg := cfg }

end Ankusa.Dispatch
