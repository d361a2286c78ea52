import Ankusa.Lib.Cells
import Ankusa.Store.Keys
import Mathlib.Data.Finset.Max

set_option autoImplicit false

/-! # The pending set of `wal: :dual`

`intake/pending.ex`: one entry for each record that is not confirmed in both the local store and the
intake log, in one ETS table with its indices. The tags of the table's keys are the fields of
`Table`: the entries (`:p`), the carried entries by hook id (`:id`) and by schedule (`:c`), the
keyed ones by their dedupe triple (`:k`), the batches whose local half is missing (`:b`), the
carried records that are only in the log (`:h`), and the counters.

A function of the source is one operation here, whatever process calls it. What an entry carries for
the republish alone (`meta`) is left out. -/

namespace Ankusa.Pending

open KV

/-- Whether a half of a record is in its place. -/
inductive Half where
  | ok | missing
  deriving DecidableEq, Repr

/-- The tenant, source and dedupe key of a keyed hook. -/
abbrev Triple := String × String × String

/-- The fleet claim an edge process took for a hook: opaque here. -/
abbrev Claim := Nat

/-- One record; `nextAt` is `none` (`:infinity`) until the record is carried. -/
structure Entry where
  id : String
  size : Nat
  local_ : Half
  log : Half
  firstAt : Ms
  bin : Option Bin
  batch : Nat
  claim : Option Claim
  triple : Option Triple
  position : Option Nat
  attempts : Nat
  stuck : Bool
  nextAt : Option Ms

/-- The operations of a batch whose local half is missing, to apply again. -/
structure Plan where
  ops : List Op
  probeSeq : Nat
  seqs : List Nat
  time : Ms

/-- A record as `enter` gets it. -/
structure Rec where
  seq : Nat
  id : String
  bin : Bin
  triple : Option Triple
  deriving DecidableEq, Repr

/-- The pending set: its entries, indexes and counters. -/
structure Table where
  entries : Map Nat Entry
  ids : Map String Nat
  keys : Map Triple Nat
  batches : Map Nat Plan
  sched : Finset (Ms × Nat)
  held : Finset (Nat × Nat)
  records : Int
  bytes : Int
  carried : Int
  stuck : Int
  confirmedMax : Option Nat

/-- The table as `create` leaves it. -/
def Table.empty : Table :=
  { entries := ∅, ids := ∅, keys := ∅, batches := ∅, sched := ∅, held := ∅,
    records := 0, bytes := 0, carried := 0, stuck := 0, confirmedMax := none }

/-- Put `f` of the entry in its place, if there is one. -/
def Table.update (t : Table) (seq : Nat) (f : Entry → Entry) : Table :=
  match t.entries.get seq with
  | none => t
  | some e => { t with entries := t.entries.set seq (some (f e)) }

/-- The hooks of the seqs that are pending. -/
def idsAt (t : Table) (seqs : List Nat) : List String :=
  seqs.filterMap fun q => (t.entries.get q).map Entry.id

/-! ## Admission -/

/-- Whether an unconfirmed record holds the triple. -/
def Table.keyed (t : Table) (triple : Triple) : Bool := (t.keys.get triple).isSome

/-- The entry of a new record. -/
def Rec.entry (r : Rec) (batch : Nat) (now : Ms) : Entry :=
  { id := r.id, size := r.bin.length, local_ := .missing, log := .missing,
    firstAt := now, bin := none,
    batch, claim := none, triple := r.triple, position := none, attempts := 0, stuck := false,
    nextAt := none }

/-- Enter a record. -/
def Table.enterOne (batch : Nat) (now : Ms) (t : Table) (r : Rec) : Table :=
  { t with
    entries := t.entries.set r.seq (some (r.entry batch now))
    keys := match r.triple with
      | none => t.keys
      | some k => t.keys.set k (some r.seq)
    records := t.records + 1
    bytes := t.bytes + r.bin.length }

open Table

/-- The records of one batch, entered before either half is touched. -/
def Table.enter (t : Table) (records : List Rec) (batch : Nat) (now : Ms) : Table :=
  records.foldl (enterOne batch now) t

/-! ## Removal -/

/-- Raise the highest confirmed position, never lower it. -/
def Table.bumpConfirmed (t : Table) : Option Nat → Table
  | none => t
  | some p => { t with confirmedMax := some (max p (t.confirmedMax.getD p)) }

/-- Drop what indexes an entry that is gone, and give its share back. -/
def Table.forget (t : Table) (seq : Nat) (e : Entry) : Table :=
  { t with
    ids := t.ids.set e.id none
    keys := match e.triple with
      | none => t.keys
      | some k => t.keys.set k none
    sched := match e.nextAt with
      | none => t.sched
      | some n => t.sched.erase (n, seq)
    carried := if e.nextAt.isSome then t.carried - 1 else t.carried
    stuck := if e.stuck then t.stuck - 1 else t.stuck
    records := t.records - 1
    bytes := t.bytes - e.size }

/-- Take an entry out, if it is there. -/
def Table.remove (t : Table) (seq : Nat) : Table :=
  match t.entries.get seq with
  | none => t
  | some e => { t with entries := t.entries.set seq none }.forget seq e

/-- Both halves of a batch's records are confirmed. -/
def Table.confirm (t : Table) (seqs : List Nat) (position : Option Nat) : Table :=
  (seqs.foldl Table.remove t).bumpConfirmed position

/-- Take the entry out once both its halves are confirmed; the entries this completed. -/
def Table.finish (t : Table) (seq : Nat) : Table × List (Nat × Entry) :=
  match t.entries.get seq with
  | none => (t, [])
  | some e =>
    if e.local_ = .ok ∧ e.log = .ok then ((t.remove seq).bumpConfirmed e.position, [(seq, e)])
    else (t, [])

/-! ## Carrying -/

/-- What became of the two halves of a batch. -/
structure Outcome where
  local_ : Half
  log : Half
  position : Option Nat

/-- The records of a batch that are only in the log keep the offset below their position. -/
def Outcome.holds (o : Outcome) : Option Nat :=
  if o.log = .ok ∧ o.local_ = .missing then o.position else none

/-- Carry a record whose batch failed a half. -/
def Table.carryOne (o : Outcome) (now : Ms) (t : Table) (r : Rec) : Table :=
  match t.entries.get r.seq with
  | none => t
  | some e =>
    { t with
      entries := t.entries.set r.seq (some { e with
        local_ := o.local_, log := o.log, position := o.position, nextAt := some now
        bin := if o.log = .missing then some r.bin else none })
      ids := t.ids.set e.id (some r.seq)
      sched := insert (now, r.seq) t.sched
      carried := t.carried + 1
      held := match o.holds with
        | none => t.held
        | some p => insert (p, r.seq) t.held }

/-- A half of the batch failed: its records stay, carried. -/
def Table.carry (t : Table) (o : Outcome) (records : List Rec) (batch : Nat) (plan : Plan)
    (now : Ms) : Table :=
  records.foldl (carryOne o now)
    (if o.local_ = .missing then { t with batches := t.batches.set batch (some plan) } else t)

/-- Schedule the next attempt of a carried entry. -/
def Table.reschedule (t : Table) (seq : Nat) (nextAt : Ms) : Table :=
  match t.entries.get seq with
  | none => t
  | some e =>
    { t with
      entries := t.entries.set seq
        (some { e with nextAt := some nextAt, attempts := e.attempts + 1 })
      sched := insert (nextAt, seq) (match e.nextAt with
        | none => t.sched
        | some n => t.sched.erase (n, seq)) }

/-- Mark an entry stuck; whether it was not already. -/
def Table.markStuck (t : Table) (seq : Nat) : Table × Bool :=
  match t.entries.get seq with
  | none => (t, false)
  | some e =>
    if e.stuck then (t, false)
    else ({ t.update seq fun e => { e with stuck := true } with stuck := t.stuck + 1 }, true)

/-- The claim a stuck entry held, cleared so that it is released once. -/
def Table.takeClaim (t : Table) (seq : Nat) : Table × Option Claim :=
  match t.entries.get seq with
  | none => (t, none)
  | some e => (t.update seq fun e => { e with claim := none }, e.claim)

/-- The local half of one entry of a batch is in the store. -/
def Table.localOne (t : Table) (seq : Nat) : Table × List (Nat × Entry) :=
  match t.entries.get seq with
  | none => (t, [])
  | some e =>
    Table.finish { t with
      entries := t.entries.set seq (some { e with local_ := .ok })
      held := match e.position with
        | none => t.held
        | some p => t.held.erase (p, seq) } seq

/-- The entries of a batch, one after the other; the entries this completed. -/
def Table.localAll : Table → List Nat → Table × List (Nat × Entry)
  | t, [] => (t, [])
  | t, seq :: seqs =>
    let one := t.localOne seq
    let rest := one.1.localAll seqs
    (rest.1, one.2 ++ rest.2)

/-- The local half of a batch is in the store; the entries this completed. -/
def Table.localDone (t : Table) (batch : Nat) : Table × List (Nat × Entry) :=
  match t.batches.get batch with
  | none => (t, [])
  | some plan => localAll { t with batches := t.batches.set batch none } plan.seqs

/-- The log half of one entry is confirmed at `position`; the entries this completed. -/
def Table.logDone (t : Table) (seq position : Nat) : Table × List (Nat × Entry) :=
  match t.entries.get seq with
  | none => (t, [])
  | some e =>
    Table.finish { t with
      entries := t.entries.set seq
        (some { e with log := .ok, bin := none, position := some position })
      held := if e.local_ = .missing then insert (position, seq) t.held else t.held } seq

/-! ## Holding a claim -/

/-- What `hold` tells its caller. -/
inductive Hold where
  | held | completed | stuck

/-- The carried entry of a hook and whether it is stuck. -/
def Table.holdFind (t : Table) (id : String) : Option (Nat × Bool) :=
  (t.ids.get id).bind fun seq => (t.entries.get seq).map fun e => (seq, e.stuck)

/-- What the caller reads back after it left its claim. -/
def Table.holdCheck (t : Table) (seq : Nat) : Hold :=
  match t.entries.get seq with
  | none => .completed
  | some e => if e.stuck then .stuck else .held

/-- Leave a claim with the carried entry of a hook. -/
def Table.hold (t : Table) (id : String) (claim : Claim) : Table × Hold :=
  match t.holdFind id with
  | none => (t, .completed)
  | some (_, true) => (t, .stuck)
  | some (seq, false) =>
    let t := t.update seq fun e => { e with claim := some claim }
    (t, t.holdCheck seq)

/-! ## The watermark and the offset -/

/-- The seq up to which every record is confirmed in both places. -/
def Table.watermark (t : Table) (nextSeq : Nat) : Nat :=
  match (t.entries.keys.filter fun q => 0 < q).min? with
  | some q => q - 1
  | none => nextSeq - 1

/-- The highest confirmed log position, held below the lowest record that is only in the log. -/
def Table.offset (t : Table) : Option Nat :=
  match t.confirmedMax, (t.held.image Prod.fst).min with
  | none, _ => none
  | some c, none => some c
  | some c, some p => if p = 0 then none else some (min c (p - 1))

end Ankusa.Pending
