import Ankusa.Lib.Run
import Ankusa.Lib.Slots

set_option autoImplicit false

/-! # The group-commit batcher

The process of `edge/batcher.ex`: callers block on it until the batch their record went into is
committed. It buffers records, hands batches of them to commit tasks (at most `max_commits` at
once), answers a batch when its task replies or dies, and answers a record that is still buffered at
its deadline itself. Two timers drive it, one that flushes the buffer and one for the earliest
deadline; either may be cancelled after it has fired, so that its message comes when nobody waits
for it any more. -/

namespace Ankusa.Batcher

open Slots (total)

/-! ## Configuration and state -/

/-- The `batcher` section; the first four are positive integers. -/
structure Config where
  maxBatch : Nat
  maxCommits : Nat
  maxQueue : Nat
  maxQueueBytes : Nat
  maxDelayMs : Nat
  maxBatch_pos : 0 < maxBatch
  maxCommits_pos : 0 < maxCommits

/-- A caller that waits for its record: its body's bytes, and its deadline (none is `:infinity`). -/
structure Entry where
  caller : Nat
  size : Nat
  deadline : Option Int
  deriving DecidableEq, Repr

/-- The caller's deadline has passed. -/
def Entry.passed (now : Int) (e : Entry) : Bool := e.deadline.any (· ≤ now)

/-- A commit in flight. -/
structure Batch where
  entries : List Entry
  bytes : Nat

/-- What a timer sends. -/
inductive Signal where
  | flush
  | expire
  deriving DecidableEq, Repr

/-- A timer, and the message it becomes. -/
structure Timer where
  ref : Nat
  signal : Signal
  time : Int
  deriving DecidableEq, Repr

/-- What a caller is told. -/
inductive Reply (R : Type) where
  | committed (result : R)
  | storeUnavailable
  deriving DecidableEq, Repr

/-- The process state, with the timers that run, the timer messages in its mailbox and, for the
    statements below, who was admitted and who was told what. -/
structure State (R : Type) where
  buffer : List Entry
  count : Int
  bytes : Int
  inflight : List Batch
  inflightCount : Int
  inflightBytes : Int
  timer : Option Timer
  expireTimer : Option Timer
  expireAt : Option Int
  now : Int
  nextRef : Nat
  timers : List Timer
  mail : List Timer
  nextCaller : Nat
  admitted : List Nat
  answers : List (Nat × Reply R)

variable {R : Type}

/-- The records held, in flight ones included. -/
def State.queued (s : State R) : Int := s.count + s.inflightCount

/-- The bytes held, in flight ones included. -/
def State.queuedBytes (s : State R) : Int := s.bytes + s.inflightBytes

/-- Everything the batcher holds. -/
def State.items (s : State R) : List Entry := s.buffer ++ s.inflight.flatMap Batch.entries

/-- The callers answered so far. -/
def State.answered (s : State R) : List Nat := s.answers.map Prod.fst

/-- The timers that run and those whose message waits. -/
def State.signals (s : State R) : List Timer := s.timers ++ s.mail

/-! ## The functions of the process -/

/-- `GenServer.reply` with the same answer to each. -/
def replyAll (s : State R) (entries : List Entry) (reply : Reply R) : State R :=
  { s with answers := s.answers ++ entries.map fun e => (e.caller, reply) }

/-- Cancel the flush timer; what it has sent stays in the mailbox. -/
def cancelTimer (s : State R) : State R :=
  match s.timer with
  | some t => { s with timer := none, timers := s.timers.filter (· ≠ t) }
  | none => s

/-- Arm the flush timer. -/
def armTimer (cfg : Config) (s : State R) : State R :=
  let t : Timer := ⟨s.nextRef, .flush, s.now + cfg.maxDelayMs⟩
  { s with timer := some t, timers := t :: s.timers, nextRef := s.nextRef + 1 }

/-- Cancel the expiry timer. -/
def cancelExpiry (s : State R) : State R :=
  match s.expireTimer with
  | some t => { s with expireTimer := none, expireAt := none, timers := s.timers.filter (· ≠ t) }
  | none => s

/-- Arm the expiry timer for a deadline. -/
def armExpiry (s : State R) : Option Int → State R
  | some deadline =>
    let t : Timer := ⟨s.nextRef, .expire, max deadline s.now⟩
    { s with
      expireTimer := some t
      expireAt := some deadline
      timers := t :: s.timers
      nextRef := s.nextRef + 1 }
  | none => s

/-- The earlier of two deadlines. -/
def earlier : Option Int → Option Int → Option Int
  | some a, some b => some (min a b)
  | some a, none => some a
  | none, b => b

/-- The earliest deadline of some records. -/
def earliest (entries : List Entry) : Option Int :=
  entries.foldr (fun e d => earlier e.deadline d) none

/-- Arm the expiry timer for the buffer's earliest deadline. -/
def rearmExpiry (s : State R) : State R := armExpiry s (earliest s.buffer)

/-- The timer is armed for a deadline, unless it is armed for one that is not later. -/
def advanceExpiry (s : State R) (deadline : Option Int) : State R :=
  if s.expireTimer = none then armExpiry s deadline
  else if deadline.any fun d => s.expireAt.any (d < ·) then armExpiry (cancelExpiry s) deadline
  else s

/-- Only a record that is still buffered, as the newest one, needs the timer. -/
def ensureExpiry (s : State R) (caller : Nat) (deadline : Option Int) : State R :=
  match s.buffer with
  | e :: _ => if e.caller = caller then advanceExpiry s deadline else s
  | [] => s

/-- Answers and drops every buffered record past its deadline. -/
def dropExpired (s : State R) : State R :=
  if s.count = 0 then s
  else
    let expired := s.buffer.filter (Entry.passed s.now)
    let live := s.buffer.filter fun e => !e.passed s.now
    { replyAll s expired .storeUnavailable with
      buffer := live
      count := live.length
      bytes := s.bytes - total Entry.size expired }

/-- The oldest records of a buffer that has the newest first, and the rest of it. -/
def splitBatch (cfg : Config) (buffer : List Entry) : List Entry × List Entry :=
  (buffer.reverse.take cfg.maxBatch, (buffer.reverse.drop cfg.maxBatch).reverse)

/-- The commit task itself, once the buffer has been looked through. -/
def handOver (cfg : Config) (s : State R) : State R :=
  let (entries, remainder) := splitBatch cfg s.buffer
  let batchBytes := total Entry.size entries
  { s with
    buffer := remainder
    count := remainder.length
    bytes := s.bytes - batchBytes
    inflight := ⟨entries, batchBytes⟩ :: s.inflight
    inflightCount := s.inflightCount + entries.length
    inflightBytes := s.inflightBytes + batchBytes }

/-- Hand the buffer over, without the records whose deadline has passed. -/
def startCommit (cfg : Config) (s : State R) : State R :=
  let s := dropExpired (cancelTimer s)
  if s.count = 0 then s else handOver cfg s

/-- Flush a full buffer; otherwise wait for the timer. -/
def maybeFlush (cfg : Config) (s : State R) : State R :=
  if cfg.maxCommits ≤ s.inflight.length then s
  else if (cfg.maxBatch : Int) ≤ s.count then startCommit cfg s
  else if cfg.maxDelayMs = 0 then startCommit cfg s
  else if s.timer = none then armTimer cfg s
  else s

/-- A batch is out of the ones in flight. -/
def settle (s : State R) (i : Nat) (b : Batch) : State R :=
  { s with
    inflight := s.inflight.eraseIdx i
    inflightCount := s.inflightCount - b.entries.length
    inflightBytes := s.inflightBytes - b.bytes }

/-- What follows once a batch has been answered. -/
def afterBatch (cfg : Config) (s : State R) : State R :=
  if 0 < s.count then startCommit cfg s else s

/-! ## The messages -/

/-- `{:enqueue, record, deadline}` with a record of `size` body bytes. -/
def enqueue (cfg : Config) (s : State R) (size : Nat) (deadline : Option Int) : State R :=
  let overBytes := 0 < s.queued ∧ (cfg.maxQueueBytes : Int) < s.queuedBytes + size
  let caller := s.nextCaller
  let s := { s with nextCaller := caller + 1 }
  if (cfg.maxQueue : Int) ≤ s.queued ∨ overBytes then s
  else
    let s := { s with
      buffer := ⟨caller, size, deadline⟩ :: s.buffer
      count := s.count + 1
      bytes := s.bytes + size
      admitted := caller :: s.admitted }
    ensureExpiry (maybeFlush cfg s) caller deadline

/-- The flush timer has fired. -/
def flush (cfg : Config) (s : State R) : State R :=
  let s := { s with timer := none }
  if s.inflight.length < cfg.maxCommits ∧ 0 < s.count then startCommit cfg s else s

/-- The expiry timer has fired. -/
def expire (s : State R) : State R := rearmExpiry (dropExpired (cancelExpiry s))

/-- The task of the `i`-th commit in flight replies. -/
def commitReply (cfg : Config) (s : State R) (i : Nat) (b : Batch) : Option (List R) → State R
  | some results =>
    let s := settle s i b
    afterBatch cfg { s with
      answers := s.answers ++ (b.entries.zip results).map fun p => (p.1.caller, .committed p.2) }
  | none => afterBatch cfg (replyAll (settle s i b) b.entries .storeUnavailable)

/-- The task dies without a reply. -/
def commitDown (cfg : Config) (s : State R) (i : Nat) (b : Batch) : State R :=
  afterBatch cfg (settle (replyAll s b.entries .storeUnavailable) i b)

/-- The messages of the batcher, its timers and its commit tasks. -/
inductive Event (R : Type) where
  | tick (now : Int)
  | enqueue (size : Nat) (deadline : Option Int)
  | fire (i : Nat)
  | message (i : Nat)
  | reply (i : Nat) (result : Option (List R))
  | down (i : Nat)
  | stray

/-- One event. A timer fires when its time has come, its message is handled at any later moment; the
    queue replies with one result for each record of the batch, or with an error; a stray message
    (of a task that is settled) changes nothing. -/
def step (cfg : Config) (s : State R) : Event R → Option (State R)
  | .tick now => if s.now ≤ now then some { s with now } else none
  | .enqueue size deadline => some (enqueue cfg s size deadline)
  | .fire i =>
    match s.timers[i]? with
    | some t =>
      if t.time ≤ s.now then some { s with timers := s.timers.eraseIdx i, mail := t :: s.mail }
        else none
    | none => none
  | .message i =>
    match s.mail[i]? with
    | some t =>
      let s := { s with mail := s.mail.eraseIdx i }
      match t.signal with
      | .flush => some (flush cfg s)
      | .expire => some (expire s)
    | none => none
  | .reply i result =>
    match s.inflight[i]? with
    | some b =>
      if result.all fun results => results.length = b.entries.length then
        some (commitReply cfg s i b result)
      else none
    | none => none
  | .down i => s.inflight[i]?.map (commitDown cfg s i)
  | .stray => some s

/-- An empty batcher. -/
def boot (R : Type) (now : Int) : State R :=
  ⟨[], 0, 0, [], 0, 0, none, none, none, now, 0, [], [], 0, [], []⟩

end Ankusa.Batcher
