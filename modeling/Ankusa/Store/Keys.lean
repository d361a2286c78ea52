import Ankusa.Lib.KV

set_option autoImplicit false

/-! # Keys and values of the node's store

The column families and key families of `store/keys.ex` as one inductive type: a key is its family
and its fields, so two keys are equal exactly when their bytes are. Values are the terms the code
encodes into them; `Val.raw` is a value that does not decode. Times are milliseconds and may be any
integer (a clock can be set to anything), sequence numbers, ordinals and sink indexes are
naturals. -/

namespace Ankusa

/-- Milliseconds, wall clock or monotonic. -/
abbrev Ms := Int

/-- A byte string the model only measures and compares. -/
abbrev Bin := List UInt8

/-- The 16 bytes that name an ordering lane. -/
abbrev Lane := String

/-- The twelve per-tenant counters (`Deliveries.Counters`). -/
inductive Field where
  | pending | scheduled | inflight | dead | bytes | archivePending | dedupe | deadBytes
  | claimLeases | lanes | lanesBlocked | laneMembers
  deriving DecidableEq, Repr

/-- The store's keys, one constructor for each encoder of `Ankusa.Store.Keys` the queue uses. -/
inductive Key where
  | nextSeq
  | nextOrd
  | hook (seq : Nat)
  | delivery (seq sink : Nat)
  | due (ord : Nat) (time : Ms) (seq sink : Nat)
  | inflight (ord seq sink : Nat)
  | dead (time : Ms) (seq sink : Nat)
  | deadByTenant (ord : Nat) (time : Ms) (seq sink : Nat)
  | active (bucket : Int) (ord : Nat)
  | archivePending (seq : Nat)
  | laneMember (ord : Nat) (lane : Lane) (seq sink : Nat)
  | laneHead (ord : Nat) (lane : Lane)
  | laneMarker (ord : Nat) (lane : Lane)
  | cleared (seq kind sink : Nat)
  | claim (seq : Nat)
  | claimLease (tenant pack : String) (seq : Nat)
  | tenant (ord : Nat)
  | tenantOrd (tenant : String)
  | counter (ord : Nat) (field : Field)
  | dedupe (tenant source key : String)
  | dedupeExpiry (time : Ms) (tenant source key : String)
  | quarantineSummary (received : Ms) (id : String)
  | quarantineBody (received : Ms) (id : String)
  | replayJob (id : String)
  deriving DecidableEq, Repr

/-- The hook a key belongs to, when it belongs to one. -/
def Key.seq? : Key → Option Nat
  | .hook seq | .delivery seq _ | .due _ _ seq _ | .inflight _ seq _ | .dead _ seq _
  | .deadByTenant _ _ seq _ | .archivePending seq | .laneMember _ _ seq _ | .cleared seq _ _
  | .claim seq | .claimLease _ _ seq => some seq
  | _ => none

/-- What a key is for: the seq marker, a hook's rows, what the rows of a tenant share, the dedupe
    index, the tenants, or the bookkeeping of the pen and of replay jobs. -/
inductive Family where
  | marker
  | hook (seq : Nat)
  | shared
  | dedupe
  | tenant
  | extra
  deriving DecidableEq, Repr

/-- The family of a key. -/
def Key.family : Key → Family
  | .nextSeq => .marker
  | .hook seq | .delivery seq _ | .due _ _ seq _ | .inflight _ seq _ | .dead _ seq _
  | .deadByTenant _ _ seq _ | .archivePending seq | .laneMember _ _ seq _ | .cleared seq _ _
  | .claim seq | .claimLease _ _ seq => .hook seq
  | .active _ _ | .laneHead _ _ | .laneMarker _ _ | .counter _ _ => .shared
  | .dedupe _ _ _ | .dedupeExpiry _ _ _ _ => .dedupe
  | .nextOrd | .tenant _ | .tenantOrd _ => .tenant
  | .quarantineSummary _ _ | .quarantineBody _ _ | .replayJob _ => .extra

theorem Key.seq?_eq_some {k : Key} {q : Nat} : k.seq? = some q ↔ k.family = .hook q := by
  cases k <;> simp [Key.seq?, Key.family]

/-- The state a delivery row carries. -/
inductive RowState where
  | pending | dead
  deriving DecidableEq, Repr

/-- What kind of failure a dead row ended on (`Ankusa.Sink.error_class`). -/
inductive ErrorClass where
  | permanent | throttled | transient
  deriving DecidableEq, Repr

/-- A delivery row (`Deliveries.new_row/5`): the optional fields are absent keys of the map. -/
structure Row where
  module : String
  state : RowState
  attempts : Nat
  time : Ms
  error : Option String
  size : Nat
  sourceId : String
  replay : Option String
  lane : Option (Lane × String)
  errorClass : Option ErrorClass
  deriving DecidableEq, Repr

/-- The kind of a due row: a first attempt, a retry, and the same two of a lane head. -/
inductive Kind where
  | firstAttempt | retry | laneFirst | laneRetry
  deriving DecidableEq, Repr

/-- The values of the store. -/
inductive Val where
  | hook (bin : Bin)
  | row (row : Row)
  | due (size : Nat) (kind : Kind)
  | size (n : Nat)
  | empty
  | rowRef (seq sink : Nat)
  | owner (sourceId : String) (id : Option String) (ord : Nat)
  | archive (size ord : Nat)
  | num (n : Nat)
  | name (tenant : String)
  | count (n : Int)
  | expiry (time : Ms) (id : String)
  | raw (bin : Bin)
  deriving DecidableEq, Repr

/-- A counter that was never written reads as zero; a merge adds to what is there. -/
instance : KV.Num Val where
  read
    | some (.count n) => n
    | _ => 0
  ofInt := Val.count

/-- One operation of a store batch. -/
abbrev Op := KV.Op Key Val

/-- The contents of the store. -/
abbrev Store := KV.Map Key Val

end Ankusa
