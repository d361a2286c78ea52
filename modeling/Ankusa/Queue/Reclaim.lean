import Ankusa.Delivery.Pipeline
import Ankusa.Queue.Batches

set_option autoImplicit false

/-! # Deleting hooks that nobody is owed

`queue/reclaim.ex`, with what it runs beside: `queue/archive.ex`, the evictions of
`queue/dlq_reaper.ex` and the outcomes of the dispatch Pipeline. A hook is owed while it has a
delivery row, pending or dead, or an archive obligation. Whoever clears one of these writes a
cleared marker in the same batch and then calls `run/2`, which reads the rows, the obligations and
the claims of the marked hooks one after the other and then deletes the hooks that nobody is owed,
with every marker of theirs; of the others it deletes the markers it was called with. A sweep calls
`run/2` for every marker in the store, a chunk at a time.

Each read and each write is a step of its own, and any number of calls are under way at once. A call
ends early when a read or its write fails, or when its process dies. So do a page of dead rows that
is not yet evicted and a segment that is not yet recorded.

Of the store only the hooks, their rows, obligations and markers and the dead keys matter here
(`watched`): what anyone writes elsewhere is one event (`other`), the moves of a row between due,
claimed and lane keys included. A dead row that a replay revives is left out, and so is a hook whose
batch is applied again. -/

namespace Ankusa.Reclaim

open Deliveries
open Delivery (Job Outcome)

/-- The settings of the reclaimer. -/
structure Config where
  redeemGraceMs : Nat
  /-- The tenant and the pack of a stored claim, when it has a ref. -/
  decodeClaim : Bin → Option (String × String)

/-- The keys that say whether a hook is there, owed or marked. -/
def watched : Key → Bool
  | .hook _ | .delivery _ _ | .archivePending _ | .cleared _ _ _ | .dead _ _ _ => true
  | _ => false

/-! ## The reclaim -/

/-- A marker: a hook, and the key of the marker. -/
abbrev Pair := Nat × Key

/-- The hooks of the markers, each once (`Map.keys/1` of the grouped pairs). -/
def seqsOf (pairs : List Pair) : List Nat := (pairs.map Prod.fst).dedup

/-- Whether a hook has a delivery row (`Store.prefixes_present/3`). -/
def hasRow (s : Store) (q : Nat) : Bool :=
  s.keys.any fun
    | .delivery p _ => p = q
    | _ => false

/-- The hook is owed to the archive. -/
def hasArchive (s : Store) (q : Nat) : Bool := (s.get (.archivePending q)).isSome

/-- The hooks that still have a row or an archive key. -/
def owedSeqs (seqs : List Nat) (rows archive : List Bool) : List Nat :=
  ((seqs.zip (rows.zip archive)).filter fun p => p.2.1 || p.2.2).map Prod.fst

/-- The leases of the claims of hooks about to be deleted run on for the grace time. -/
def graceLeases (cfg : Config) (s : Store) (now : Ms) (seqs : List Nat) : List (Nat × List Op) :=
  seqs.filterMap fun q =>
    match s.get (.claim q) with
    | some (.raw bin) =>
      (cfg.decodeClaim bin).map fun c =>
        (q, [.put (.claimLease c.1 c.2 q) (.num (now + cfg.redeemGraceMs).toNat)])
    | _ => none

/-- The markers of a hook in the store: the range the reclaim deletes. -/
def markersOf (s : Store) (q : Nat) : List Key :=
  s.keys.filter fun
    | .cleared p _ _ => p = q
    | _ => false

/-- Delete a hook with its claim and its markers. -/
def reclaimOps (s : Store) (q : Nat) : List Op :=
  [.delete (.hook q), .delete (.claim q)] ++ (markersOf s q).map .delete

/-- The batch of `run/2`. -/
def runOps (s : Store) (pairs : List Pair) (owed : List Nat) (leases : List (Nat × List Op)) :
    List Op :=
  (seqsOf pairs).flatMap fun q =>
    if q ∈ owed then (pairs.filter fun p => p.1 = q).map fun p => .delete p.2
    else reclaimOps s q ++ (leases.lookup q).getD []

/-- How far a call of `run/2` is. -/
inductive Phase where
  | begun
  | probed (rows : List Bool)
  | judged (owed : List Nat)
  | leased (owed : List Nat) (leases : List (Nat × List Op))

/-- A call of `run/2`, and the chunks of markers a sweep runs after it. -/
structure Call where
  pairs : List Pair
  phase : Phase
  rest : List (List Pair)

/-- A call on some markers. -/
def Call.of (pairs : List Pair) : Call := ⟨pairs, .begun, []⟩

/-- The next read of a call. -/
def Call.read (cfg : Config) (s : Store) (now : Ms) (c : Call) : Option Call :=
  let seqs := seqsOf c.pairs
  match c.phase with
  | .begun => some { c with phase := .probed (seqs.map (hasRow s)) }
  | .probed rows => some { c with phase := .judged (owedSeqs seqs rows (seqs.map (hasArchive s))) }
  | .judged owed =>
    some { c with phase := .leased owed (graceLeases cfg s now (seqs.filter fun q => q ∉ owed)) }
  | .leased _ _ => none

/-- What follows a call whose write is in: the next chunk. -/
def Call.next (c : Call) : List Call :=
  match c.rest with
  | [] => []
  | pairs :: rest => [⟨pairs, .begun, rest⟩]

/-- A list in chunks of `n`; `acc` is the chunk begun, last first. -/
def chunkEvery {α : Type} (n : Nat) : List α → List α → List (List α)
  | [], acc => if acc.isEmpty then [] else [acc.reverse]
  | x :: xs, acc =>
    if acc.length + 1 = n then (x :: acc).reverse :: chunkEvery n xs []
      else chunkEvery n xs (x :: acc)

/-- Every marker of the store. -/
def markers (s : Store) : List Pair :=
  s.keys.filterMap fun
    | .cleared q kind sink => some (q, .cleared q kind sink)
    | _ => none

/-- The markers that a sweep runs at once. -/
def chunk : Nat := 512

/-! ## What clears an obligation -/

/-- What becomes of a claimed row: the outcome of an attempt, or what was found out before one. -/
inductive Settled where
  | outcome (o : Outcome)
  | dead (time : Ms) (error : String) (class? : Option ErrorClass) (owner : String × Option String)
  | later (time : Ms) (error : String)
  /-- Its hook is gone. -/
  | orphan
  | expand (sourceId : String) (sinks : List String) (now : Ms)

/-- The result a job is settled with. -/
def Settled.result (s : Store) (j : Job) : Settled → Delivery.Result
  | .outcome o => j.outcome o
  | .dead time error class? owner => .dead j time error class? owner
  | .later time error => .retry j time error
  | .orphan => .orphan j.ord j.seq j.sink j.size (some j.row)
  | .expand sourceId sinks now =>
    .expand j.ord j.seq j.sink j.size sourceId sinks (existingSinks s j.seq) now

/-- An orphan's hook is gone, and only an imported row is expanded. -/
def Settled.ok (s : Store) (j : Job) : Settled → Bool
  | .orphan => (s.get (.hook j.seq)).isNone
  | .expand _ sinks _ => unresolved j.sink && decide (sinks.length ≤ unresolvedDead)
  | _ => true

/-- The marker of a cleared delivery. -/
def cleared (seq sink : Nat) : Pair := (seq, .cleared seq 0 sink)

/-- The markers the Pipeline reclaims after its batch. -/
def pairsOf : Delivery.Result → List Pair
  | .delivered j => [cleared j.seq j.sink]
  | .expand _ seq sink _ _ sinks _ _ => if sinks = [] then [cleared seq sink] else []
  | _ => []

/-- Rows of a tenant that are purged, by the index key they are found by. -/
inductive Purge where
  | due (ord : Nat) (rows : List Due)
  | members (ord : Nat) (rows : List Member)
  | dead (hits : List Hit)

/-- The batch of a purge. -/
def Purge.ops (s : Store) : Purge → List Op
  | .due ord rows => purgeDue s ord rows
  | .members ord rows => purgeMembers ord rows
  | .dead hits => purgeDead s hits

/-- The rows a purge deletes. -/
def Purge.rows : Purge → List (Nat × Nat)
  | .due _ rows => rows.map fun d => (d.seq, d.sink)
  | .members _ rows => rows.map fun m => (m.seq, m.sink)
  | .dead hits => hits.map fun h => (h.seq, h.sink)

/-- The marker of an archived hook. -/
def archivedPair (seq : Nat) : Pair := (seq, .cleared seq 1 0)

/-- Record a written segment: the obligations it settles go and leave markers; those of hooks that
    are gone just go (`Archive.archived/4`, without the catalogue row). -/
def archivedOps (s : Store) (archived missing : List Nat) : List Op :=
  let settled := archived.flatMap fun q =>
    [.delete (.archivePending q), .put (.cleared q 1 0) .empty]
  let dropped := missing.map fun q => .delete (.archivePending q)
  let deltas : List Counters.Delta := (archived ++ missing).filterMap fun q =>
    match s.get (.archivePending q) with
    | some (.archive _ ord) => some (ord, .archivePending, -1)
    | _ => none
  coalesce (settled ++ dropped ++ Counters.ops deltas)

/-! ## The processes -/

/-- The store, and what the processes around it have read. -/
structure State where
  store : Store
  nextSeq : Nat
  /-- The rows the Pipeline has claimed and not settled. -/
  claimed : List Job
  /-- Pages of dead rows that are about to be evicted. -/
  hits : List (List Hit)
  /-- Segments that are about to be recorded: the hooks they hold, and those that were gone. -/
  segments : List (List Nat × List Nat)
  calls : List Call

/-- The batches of the queue, and each read and write of a call. -/
inductive Event where
  | commit (items : List Item) (now : Ms) (archive : Bool) (ords : List (String × Nat))
  | other (ops : List Op)
  | claim (jobs : List Job)
  | settle (results : List (Job × Settled)) (time : Ms) (durable : Nat)
  | page (hits : List Hit)
  | evict (i : Nat)
  | purge (p : Purge)
  | segment (seqs : List Nat)
  | archived (i : Nat)
  | sweep
  | read (i : Nat) (now : Ms)
  | write (i : Nat)
  /-- A call ends without its write, or after a write that failed. -/
  | stop (i : Nat)
  /-- The processes restart. -/
  | restart

/-- The row of a job. -/
def jobRow (j : Job) : Nat × Nat := (j.seq, j.sink)

/-- One batch, or one read or write of a call. -/
def step (cfg : Config) (s : State) : Event → Option State
  | .commit items now archive ords =>
    -- The two highest sinks of a key stand for a sink that was never recorded.
    if ∀ item ∈ items, item.rows.length ≤ unresolvedDead then
      some { s with
        store := s.store.write (coalesce (Writer.buildOps items s.nextSeq now archive ords))
        nextSeq := s.nextSeq + items.length }
    else none
  | .other ops =>
    if ops.all fun op => !watched op.key then some { s with store := s.store.write ops } else none
  | .claim jobs =>
    -- A due row is pending, and a claimed one is not due.
    if ((s.claimed ++ jobs).map jobRow).Nodup ∧ ∀ j ∈ jobs,
        j.row.state = .pending ∧ s.store.get (.delivery j.seq j.sink) = some (.row j.row) then
      some { s with claimed := s.claimed ++ jobs }
    else none
  | .settle results time durable =>
    if (results.map Prod.fst).Nodup ∧ ∀ r ∈ results, r.1 ∈ s.claimed ∧
        r.2.ok s.store r.1 = true then
      let rs := results.map fun r => r.2.result s.store r.1
      some { s with
        store := s.store.write
          (Delivery.buildOps s.store time durable (rs.flatMap Delivery.Result.ops))
        claimed := s.claimed.filter fun j => j ∉ results.map Prod.fst
        calls := s.calls ++ [.of (rs.flatMap pairsOf)] }
    else none
  | .page hits =>
    if ∀ h ∈ hits, s.store.get (.dead h.time h.seq h.sink) ≠ none then
      some { s with hits := s.hits ++ [hits] }
    else none
  | .evict i =>
    (s.hits[i]?).map fun hits =>
      { s with
        store := s.store.write (evictOps s.store hits)
        hits := s.hits.eraseIdx i
        calls := s.calls ++ [.of (hits.map fun h => cleared h.seq h.sink)] }
  | .purge p =>
    if ∀ r ∈ p.rows, r.1 < s.nextSeq ∧ r ∉ s.claimed.map jobRow then
      some { s with
        store := s.store.write (p.ops s.store)
        calls := s.calls ++ [.of (p.rows.map fun r => cleared r.1 r.2)] }
    else none
  | .segment seqs =>
    if ∀ q ∈ seqs, s.store.get (.archivePending q) ≠ none then
      some { s with
        segments := s.segments ++ [(seqs.filter fun q => (s.store.get (.hook q)).isSome,
          seqs.filter fun q => (s.store.get (.hook q)).isNone)] }
    else none
  | .archived i =>
    (s.segments[i]?).map fun g =>
      { s with
        store := s.store.write (archivedOps s.store g.1 g.2)
        segments := s.segments.eraseIdx i
        calls := s.calls ++ [.of (g.1.map archivedPair)] }
  | .sweep =>
    match chunkEvery chunk (markers s.store) [] with
    | [] => some s
    | pairs :: rest => some { s with calls := s.calls ++ [⟨pairs, .begun, rest⟩] }
  | .read i now =>
    (s.calls[i]?).bind fun c => (c.read cfg s.store now).map fun c' =>
      { s with calls := s.calls.set i c' }
  | .write i =>
    match s.calls[i]? with
    | some ⟨pairs, .leased owed leases, rest⟩ =>
      some { s with
        store := s.store.write (runOps s.store pairs owed leases)
        calls := s.calls.eraseIdx i ++ (Call.next ⟨pairs, .leased owed leases, rest⟩) }
    | _ => none
  | .stop i => if i < s.calls.length then some { s with calls := s.calls.eraseIdx i } else none
  | .restart => some { s with claimed := [], hits := [], segments := [], calls := [] }

end Ankusa.Reclaim
