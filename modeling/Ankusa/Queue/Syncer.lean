import Ankusa.Queue.Writer

set_option autoImplicit false

/-! # The WAL syncer

`queue/syncer.ex`: the three marks the writer, the syncer and dispatch share (one atomics array),
and the process that fsyncs the WAL for every group queued so far and answers their callers. The
process takes one message, then drains every further sync request out of its mailbox, past any other
message in it; a failed fsync makes it answer everything with the error until the writer says
`resume`. -/

namespace Ankusa

/-- The watermarks: every seq up to `durable` is on disk, `applied` is the highest seq a group was
    applied under, and `durableAt` is the stamp of the newest durable group. -/
structure Marks where
  durable : Nat
  applied : Nat
  durableAt : Ms

namespace Marks

/-- The marks of a writer that has just started: everything in the store is durable. -/
def new (seq : Nat) (time : Ms) : Marks := { durable := seq, applied := seq, durableAt := time }

/-- Raise the applied mark. -/
@[simps] def setApplied (m : Marks) (seq : Nat) : Marks := { m with applied := seq }

/-- Raise the watermark and its stamp; neither is ever lowered. -/
@[simps] def markDurable (m : Marks) (seq : Nat) (time : Ms) : Marks :=
  { m with durable := max m.durable seq, durableAt := max m.durableAt time }

/-- Whether a group is applied that no fsync has covered yet. -/
def unsynced (m : Marks) : Bool := m.durable < m.applied

end Marks

/-- What is queued for an fsync: the highest seq it has to cover, its stamp, and the calls (with the
    number of their hooks) that get their part of the reply once it is covered. -/
structure Entry where
  upto : Nat
  time : Ms
  calls : List (Nat × Nat)
  reply : Reply
  deriving DecidableEq, Repr

/-- A message in the syncer's mailbox. -/
inductive SyncMsg where
  | sync (e : Entry)
  | resume (seq : Nat) (time : Ms)
  deriving DecidableEq, Repr

/-- What the syncer is doing: waiting, in the fsync that started when the WAL held `start` batches,
    or answering, with the error if there is one. -/
inductive SyncPhase where
  | idle
  | syncing (entries : List Entry) (start : Nat)
  | answering (entries : List Entry) (error : Option Reason)

/-- The state of the syncer process. -/
structure Syncer where
  fenced : Bool
  mailbox : List SyncMsg
  phase : SyncPhase

namespace Syncer

/-- The sync requests of a mailbox, in order: what `drain` takes. -/
def entries : List SyncMsg → List Entry
  | [] => []
  | .sync e :: ms => e :: entries ms
  | .resume _ _ :: ms => entries ms

/-- What `drain` leaves in the mailbox. -/
def rest : List SyncMsg → List SyncMsg
  | [] => []
  | .sync _ :: ms => rest ms
  | .resume seq time :: ms => .resume seq time :: rest ms

/-- The sync requests behind the first `resume` of a mailbox. -/
def behindResume : List SyncMsg → List Entry
  | [] => []
  | .sync _ :: ms => behindResume ms
  | .resume _ _ :: ms => entries ms

/-- The sync requests that are taken from behind a `resume`, with the first message. -/
def overtaken : List SyncMsg → List Entry
  | .sync _ :: ms => behindResume ms
  | _ => []

/-- The highest seq and stamp a batch of sync requests has to cover. -/
def covered (es : List Entry) : Nat × Ms :=
  es.foldl (fun acc e => (max acc.1 e.upto, max acc.2 e.time)) (0, 0)

/-- Each call gets the replies of its own hooks, in its own order. -/
def replyCalls : List (Nat × Nat) → Reply → List (Nat × Reply)
  | [], _ => []
  | (call, count) :: calls, .ok results =>
    (call, .ok (results.take count)) :: replyCalls calls (.ok (results.drop count))
  | (call, _) :: calls, reply => (call, reply) :: replyCalls calls reply

/-- The replies an entry's callers get: the reply that waited for the fsync, or its error. -/
def answer (e : Entry) : Option Reason → List (Nat × Reply)
  | none => replyCalls e.calls e.reply
  | some reason => replyCalls e.calls (.error reason)

end Syncer

end Ankusa
