import Ankusa.Queue.Deliveries

set_option autoImplicit false

/-! # The queue writer's batches

The pure part of `queue/writer.ex` (with `queue/tenants.ex`): what a group of calls becomes before
it is written. A group's tenants get their ordinals (`admitTenants`), its dedupe keys are checked
against what the writer wrote lately, the callers' prefetch and the store (`dedupeCheck`), the fresh
hooks get dense seqs and rows (`buildOps`), and a failed fsync takes the group back (`undoOps`). -/

namespace Ankusa

/-! ## Tenants -/

namespace Tenants

/-- The tenant a hook belongs to: no tenant id, or an empty one, is the default tenant. -/
def normalize : Option String → String
  | some t => if t = "" then "default" else t
  | none => "default"

/-- Hand out ordinals to `tenants` in order, starting at `next` and stopping once `max` exist: the
    new pairs, the next ordinal, and the tenants left without one. -/
def allot (max : Nat) : Nat → List String → List (String × Nat) × Nat × List String
  | next, [] => ([], next, [])
  | next, t :: ts =>
    if max ≤ next - 1 then
      let rest := allot max next ts
      (rest.1, rest.2.1, t :: rest.2.2)
    else
      let rest := allot max (next + 1) ts
      ((t, next) :: rest.1, rest.2.1, rest.2.2)

/-- `allot` with the puts of the new ordinals and of the marker. -/
def allocate (next : Nat) (tenants : List String) (max : Nat) :
    List (String × Nat) × List Op × Nat × List String :=
  let out := allot max next tenants
  let ops := if out.1 = [] then [] else
    out.1.flatMap (fun p => [.put (.tenant p.2) (.name p.1), .put (.tenantOrd p.1) (.num p.2)]) ++
      [.put .nextOrd (.num out.2.1)]
  (out.1, ops, out.2.1, out.2.2)

/-- The ordinals of the tenants that already have a row. -/
def lookup (s : Store) (tenants : List String) : List (String × Nat) :=
  tenants.filterMap fun t =>
    match s.get (.tenantOrd t) with
    | some (.num ord) => some (t, ord)
    | _ => none

end Tenants

/-! ## Calls -/

/-- The fields of an envelope the writer reads. -/
structure Env where
  id : String
  tenantId : Option String
  sourceId : String
  dedupeKey : Option String
  deriving DecidableEq, Repr

/-- A hook as `Ankusa.Queue` prepared it: its binary, one row with its lane for each sink (`none`
    for a sink its filter did not select) and its dedupe ttl. -/
structure Item where
  env : Env
  bin : Bin
  rows : List (Option (Row × Option Lane))
  ttl : Option Ms
  deriving DecidableEq, Repr

/-- Why an item or a call is refused. -/
inductive Reason where
  | tenantLimit | tenantErasing | dedupeQuota | deadlineExceeded | callerGone
  | storeUnavailable | readFailed | writeFailed | syncFailed
  deriving DecidableEq, Repr

/-- The reply for one item. -/
inductive Result where
  | committed (env : Env) (seq : Nat)
  | duplicate (env : Env)
  | error (reason : Reason)
  deriving DecidableEq, Repr

/-- The reply of a call; `count` answers an archive replay. -/
inductive Reply where
  | ok (results : List Result)
  | count (n : Nat)
  | error (reason : Reason)
  deriving DecidableEq, Repr

namespace Writer

/-- The tenant of a hook. -/
def tenantOf (env : Env) : String := env.tenantId.getD "default"

/-- A NUL would break the expiry key's tenant and source apart. -/
def tenantOk : Option String → Bool
  | some t => !t.toList.contains (Char.ofNat 0)
  | none => true

/-- The dedupe key and ttl of an item that dedupes: it carries both, and a tenant the key encoding
    can hold. -/
def dedupe? (item : Item) : Option (String × Ms) :=
  match item.env.dedupeKey, item.ttl with
  | some key, some ttl => if tenantOk item.env.tenantId then some (key, ttl) else none
  | _, _ => none

/-- The key of a dedupe entry. -/
def uKey (env : Env) (key : String) : Key := .dedupe (tenantOf env) env.sourceId key

/-- Its key in the expiry index. -/
def expiryKey (time : Ms) (env : Env) (key : String) : Key :=
  .dedupeExpiry time (tenantOf env) env.sourceId key

/-- The stored dedupe key of a hook that dedupes. -/
def dedupeKey (item : Item) : Option Key := (dedupe? item).map fun d => uKey item.env d.1

/-! ## Admission -/

/-- The tenants of a group: their ordinals, the puts of the new ones, and those being erased. -/
structure Admission where
  ords : List (String × Nat)
  ops : List Op
  nextOrd : Nat
  cache : List (String × Nat)
  erasing : List String
  deriving DecidableEq, Repr

/-- The ordinals of a group's tenants, from the writer's cache, the store, or newly handed out. A
    tenant an erase has closed gets none. -/
def admitTenants (s : Store) (closed : List String) (cached : List (String × Nat))
    (nextOrd max : Nat) (tenants : List String) : Admission :=
  let erasing := tenants.filter (· ∈ closed)
  let open_ := tenants.filter (· ∉ closed)
  let known := open_.filterMap fun t => (cached.lookup t).map (t, ·)
  let misses := open_.filter fun t => (cached.lookup t).isNone
  let stored := Tenants.lookup s misses
  let new := Tenants.allocate nextOrd (misses.filter fun t => (stored.lookup t).isNone) max
  let cache := stored ++ new.1
  { ords := known ++ cache, ops := new.2.1, nextOrd := new.2.2.1, cache, erasing }

/-- `none` for a tenant that is admitted, else the reason it is refused. -/
def refusedTenant (adm : Admission) (tenant : String) : Option Reason :=
  if (adm.ords.lookup tenant).isSome then none
  else if tenant ∈ adm.erasing then some .tenantErasing
  else some .tenantLimit

/-- The reason a batch that has to be admitted as a whole is refused. -/
def Admission.refusal (adm : Admission) : Reason :=
  if adm.erasing ≠ [] then .tenantErasing else .tenantLimit

/-- The tenant of an item. -/
def itemTenant (item : Item) : String := Tenants.normalize item.env.tenantId

/-- The ordinal an admitted tenant was given. -/
def ordOf (ords : List (String × Nat)) (tenant : String) : Nat := (ords.lookup tenant).getD 0

/-! ## Ingest dedupe -/

/-- The dedupe keys the writer wrote lately, in two generations. -/
structure Recent where
  cur : Store
  old : Store

/-- What the writer remembers of a key. -/
def Recent.get (r : Recent) (k : Key) : Option Val :=
  match r.cur.get k with
  | some v => some v
  | none => r.old.get k

/-- The stored value of a dedupe key: what the writer wrote lately, else the callers' prefetch, else
    a read of the store. -/
def storedFor (r : Recent) (prefetch : List (Key × Option Val)) (s : Store) (k : Key) :
    Option Val :=
  match r.get k with
  | some v => some v
  | none =>
    match prefetch.lookup k with
    | some result => result
    | none => s.get k

/-- The place of an item in the reply: it will commit, or its reply is known. -/
inductive Mark where
  | fresh (item : Item)
  | done (result : Result)
  deriving DecidableEq, Repr

/-- What `dedupeCheck` has found so far; `seen` maps a key of the group to the hook that has it. -/
structure Check where
  seen : List (Key × String)
  results : List Mark
  fresh : List Item
  ops : List Op
  usage : Nat → Int
  deltas : List Counters.Delta

/-- The limits of the dedupe index. -/
structure Quota where
  max : Int
  perTenant : Int

/-- The store or the tenant holds as many keys as it may. -/
def overQuota (q : Quota) (usage : Nat → Int) (ord : Nat) : Bool :=
  q.max ≤ usage 0 || q.perTenant ≤ usage ord

/-- The puts of a fresh item's key. -/
def keyPuts (env : Env) (key : String) (ttl now : Ms) : List Op :=
  [.put (uKey env key) (.expiry (now + ttl) env.id), .put (expiryKey (now + ttl) env key) .empty]

/-- One more live key of the node and of the tenant. -/
def bumpUsage (usage : Nat → Int) (ord : Nat) : Nat → Int :=
  fun o => usage o + (if o = 0 then 1 else 0) + if o = ord then 1 else 0

/-- A fresh item joins the check, with the operations of its key. -/
def Check.take (c : Check) (item : Item) (newOps : List Op) : Check :=
  { c with results := .fresh item :: c.results, fresh := item :: c.fresh, ops := newOps ++ c.ops }

/-- One item of a group against the group so far and the stored keys. An entry counts as a duplicate
    only while its expiry is later than `now`; a new key beyond the quota is refused, unless the
    call is a quarantine release (`enforce`). -/
def checkItem (stored : Key → Option Val) (now : Ms) (ords : List (String × Nat)) (enforce : Bool)
    (q : Quota) (c : Check) (item : Item) : Check :=
  match dedupe? item with
  | none => c.take item []
  | some (key, ttl) =>
    let env := item.env
    let k := uKey env key
    match c.seen.lookup k with
    | some original =>
      { c with results := .done (.duplicate { env with id := original }) :: c.results }
    | none =>
      match stored k with
      | some (.expiry time original) =>
        if now < time then
          { c with
            seen := (k, original) :: c.seen
            results := .done (.duplicate { env with id := original }) :: c.results }
        else
          { c.take item (keyPuts env key ttl now ++ [.delete (expiryKey time env key)]) with
            seen := (k, env.id) :: c.seen }
      | some _ => { c.take item (keyPuts env key ttl now) with seen := (k, env.id) :: c.seen }
      | none =>
        let ord := ordOf ords (itemTenant item)
        if enforce && overQuota q c.usage ord then
          { c with results := .done (.error .dedupeQuota) :: c.results }
        else
          { c.take item (keyPuts env key ttl now) with
            seen := (k, env.id) :: c.seen
            usage := bumpUsage c.usage ord
            deltas := (ord, .dedupe, 1) :: c.deltas }

/-- The outcome of a group's dedupe check, in item order. -/
structure Checked where
  results : List Mark
  fresh : List Item
  dedupeOps : List Op
  deriving DecidableEq, Repr

/-- Check every item of a group, in order. -/
def dedupeCheck (stored : Key → Option Val) (usage : Nat → Int) (now : Ms)
    (ords : List (String × Nat)) (enforce : Bool) (q : Quota) (items : List Item) : Checked :=
  let c := items.foldl (checkItem stored now ords enforce q) ⟨[], [], [], [], usage, []⟩
  { results := c.results.reverse, fresh := c.fresh.reverse,
    dedupeOps := Counters.ops c.deltas ++ c.ops }

/-! ## Batch construction -/

/-- One delivery for each sink the hook's filter selected. -/
def rowOps (ord : Nat) (now : Ms) (item : Item) (seq : Nat) : List Op :=
  item.rows.zipIdx.flatMap fun r =>
    match r.1 with
    | none => []
    | some (row, lane) => Deliveries.newOps ord now seq r.2 item.bin.length row lane

/-- The rows of one hook: its deliveries and the archive obligation. A hook with neither consumes a
    seq but writes nothing. -/
def hookOps (ord : Nat) (now : Ms) (archive : Bool) (item : Item) (seq : Nat) : List Op :=
  let archiveOps := if archive then Deliveries.archiveOps ord seq item.bin.length else []
  if rowOps ord now item seq = [] ∧ archiveOps = [] then []
  else .put (.hook seq) (.hook item.bin) :: rowOps ord now item seq ++ archiveOps

/-- The operations of a group's fresh hooks, with dense seqs from `firstSeq` on. -/
def buildOps (items : List Item) (firstSeq : Nat) (now : Ms) (archive : Bool)
    (ords : List (String × Nat)) : List Op :=
  .put .nextSeq (.num (firstSeq + items.length)) ::
    (items.zipIdx firstSeq).foldl
      (fun ops p => hookOps (ordOf ords (itemTenant p.1)) now archive p.1 p.2 ++ ops) []

/-- Put the seqs of the fresh items in their places of the reply. -/
def reassemble : List Mark → Nat → List Result
  | [], _ => []
  | .fresh item :: ms, seq => .committed item.env seq :: reassemble ms (seq + 1)
  | .done r :: ms, seq => r :: reassemble ms seq

/-- Put the refused items back in their places of the reply. -/
def withRefused : List (Option Reason) → List Result → List Result
  | [], _ => []
  | some reason :: ts, rs => .error reason :: withRefused ts rs
  | none :: ts, r :: rs => r :: withRefused ts rs
  | none :: ts, [] => withRefused ts []

/-! ## A failed fsync -/

/-- A group no fsync has covered yet: its highest seq and the operations it was built from. -/
structure Group where
  upto : Nat
  undo : List (List Op)
  deriving DecidableEq, Repr

/-- The inverse of one operation: a row is deleted and a count taken back; the seq marker and the
    markers other rows may rely on stay. -/
def invert : Op → List Op
  | .put .nextSeq _ => []
  | .put k v => if Deliveries.activeMarkerPut (.put k v) then [] else [.delete k]
  | .merge k d => [.merge k (-d)]
  | .delete _ => []

/-- The inverse of what the unsynced groups wrote. -/
def undoOps (unsynced : List Group) : List Op :=
  unsynced.flatMap fun g => g.undo.flatMap fun ops => ops.flatMap invert

/-- The groups no fsync has covered yet, newest first. -/
def unsyncedAbove (unsynced : List Group) (durable : Nat) : List Group :=
  unsynced.takeWhile fun g => durable < g.upto

end Writer

end Ankusa
