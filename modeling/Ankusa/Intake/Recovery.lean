import Ankusa.Lib.Run
import Ankusa.Queue.Batches
import Mathlib.Data.Finset.Card
import Mathlib.Data.List.MinMax

set_option autoImplicit false

/-! # Replaying the intake log

At boot a node replays the tail of its intake log into its store (`intake/recovery.ex`), a chunk of
records at a time: the hooks stored under the records' seqs are read once, each record is found
present or is written, and the chunk is one batch. A record whose seq is held by another hook is a
collision and is written under a fresh seq, the next one the node would hand out.

A chunk remembers what it has written by the record's own seq, not by the seq it wrote to. So a
later record of the same chunk that carries exactly a seq handed out as fresh is put under it too.
The batch has the puts of the later record first, and its hook is lost (`replay_not_stored`);
`replay_stores` says when this cannot happen. A hook that was moved is not recognised when the log
is replayed again (`replay_twice_iff`). -/

namespace Ankusa.Intake.Recovery

open List Deliveries Run

/-! ## Records and their hooks -/

/-- A record of the log: the seq and the id of its header, and the hook. -/
structure Record where
  seq : Nat
  id : String
  bin : Bin

/-- What a source's current definition makes of a hook: for each sink its module and lane, unless
    the sink's filter does not select the hook, and the source's dedupe ttl. -/
structure Route where
  sinks : List (Option (String × Option (Lane × String)))
  ttl : Option Ms

/-- What a replay is run with: whether the node archives, the clock, the tenant limit, the decoder
    of hooks (with the time of receipt) and the sources; an unknown source has no route. -/
structure Ctx where
  archive : Bool
  now : Ms
  tenantsMax : Nat
  decode : Bin → Option (Env × Ms)
  route : Env → Option Route

/-- The tenant of a record's hook. -/
def tenantOf (ctx : Ctx) (r : Record) : Option String := (ctx.decode r.bin).bind (·.1.tenantId)

/-- One delivery for each sink the hook's filter selects. -/
def sinkOps (ctx : Ctx) (env : Env) (ord seq size : Nat) : List Op :=
  match ctx.route env with
  | none => []
  | some route => route.sinks.zipIdx.flatMap fun p =>
    match p.1 with
    | none => []
    | some (module, lane) =>
      Deliveries.newOps ord ctx.now seq p.2 size
        (Deliveries.newRow module ctx.now size env.sourceId none lane) (lane.map Prod.fst)

/-- The key the hook was admitted under, unless it has expired or is there already. -/
def dedupeOps (ctx : Ctx) (s : Store) (env : Env) (receivedAt : Ms) (ord : Nat) : List Op :=
  match (ctx.route env).bind Route.ttl, env.dedupeKey with
  | some ttl, some key =>
    let expires := receivedAt + ttl
    if expires ≤ ctx.now then []
    else if s.get (Writer.uKey env key) ≠ none then []
    else [.put (Writer.uKey env key) (.expiry expires env.id),
      .put (Writer.expiryKey expires env key) .empty] ++ Counters.ops [(ord, .dedupe, 1)]
  | _, _ => []

/-- The hook with its delivery rows, its archive obligation and its dedupe key. A hook nobody is
    owed is not stored. -/
def hookOps (ctx : Ctx) (s : Store) (env : Env) (receivedAt : Ms) (bin : Bin) (seq ord : Nat) :
    List Op :=
  let rows := sinkOps ctx env ord seq bin.length
  let archive := if ctx.archive then archiveOps ord seq bin.length else []
  if rows = [] ∧ archive = [] then []
  else .put (.hook seq) (.hook bin) :: rows ++ archive ++ dedupeOps ctx s env receivedAt ord

/-- Somebody is owed the hook: the archive, or a sink that selects it. -/
def Ctx.owes (ctx : Ctx) (env : Env) : Bool :=
  ctx.archive || (ctx.route env).any fun route => route.sinks.any Option.isSome

/-- The record decodes to a hook somebody is owed. -/
def Ctx.owed (ctx : Ctx) (r : Record) : Bool := (ctx.decode r.bin).any fun e => ctx.owes e.1

/-! ## A chunk -/

/-- The id of a stored hook, if it decodes. -/
def storedId (ctx : Ctx) : Val → Option String
  | .hook bin => (ctx.decode bin).map (·.1.id)
  | _ => none

/-- What to do with a record. -/
inductive Decision where
  | present | original | fresh
  deriving DecidableEq, Repr

/-- The decision on what the store has under the record's seq. -/
def decideStored (ctx : Ctx) (r : Record) : Option Val → Decision
  | none => .original
  | some v => if storedId ctx v = some r.id then .present else .fresh

/-- `seen` holds the records of the chunk that were written, by their own seqs; the hooks stored
    before the chunk decide the rest. -/
def decision (ctx : Ctx) (s : Store) (seen : List (Nat × String)) (r : Record) : Decision :=
  match seen.lookup r.seq with
  | some id => if id = r.id then .present else .fresh
  | none => decideStored ctx r (s.get (.hook r.seq))

/-- A chunk being decided. `written` lists the hooks put so far and the seqs they were put under,
    and `handed` the fresh seqs handed out; the code only logs them. -/
structure Acc where
  ops : List Op
  nextSeq : Nat
  seen : List (Nat × String)
  written : List (Nat × Bin)
  handed : List Nat

/-- The seq a record is written under, and what the chunk remembers of it. -/
def claimSeq (acc : Acc) (r : Record) (fresh : Bool) : Nat × Acc :=
  let seq := if fresh then acc.nextSeq else r.seq
  let next := if fresh then acc.nextSeq + 1 else acc.nextSeq
  (seq, { acc with
    nextSeq := max next (seq + 1)
    seen := (r.seq, r.id) :: acc.seen
    handed := if fresh then seq :: acc.handed else acc.handed })

/-- One record. A hook whose tenant got no ordinal raises. -/
def takeRecord (ctx : Ctx) (s : Store) (ords : List (String × Nat)) (acc : Acc) (r : Record) :
    Option Acc :=
  match decision ctx s acc.seen r with
  | .present => some acc
  | d =>
    let (seq, acc) := claimSeq acc r (d = .fresh)
    match ctx.decode r.bin with
    | none => some acc
    | some (env, receivedAt) =>
      (ords.lookup (Tenants.normalize env.tenantId)).map fun ord =>
        { acc with
          ops := hookOps ctx s env receivedAt r.bin seq ord ++ acc.ops
          written := if ctx.owes env then (seq, r.bin) :: acc.written else acc.written }

/-- The replay between two chunks, with every hook put so far. -/
structure State where
  store : Store
  nextSeq : Nat
  nextOrd : Nat
  written : List (Nat × Bin)

/-- The ordinals of a chunk's tenants: the stored ones, and new ones for the rest. -/
def resolveTenants (ctx : Ctx) (st : State) (records : List Record) :
    List (String × Nat) × List Op × Nat :=
  let tenants := (records.map fun r => Tenants.normalize (tenantOf ctx r)).eraseDups
  let known := Tenants.lookup st.store tenants
  let new := Tenants.allocate st.nextOrd (tenants.filter fun t => (known.lookup t).isNone)
    ctx.tenantsMax
  (known ++ new.1, new.2.1, new.2.2.1)

/-- The start of a chunk. -/
def Acc.empty (nextSeq : Nat) : Acc :=
  { ops := [], nextSeq := nextSeq, seen := [], written := [], handed := [] }

/-- Take the records of a chunk in turn. -/
def takeAll (ctx : Ctx) (st : State) (records : List Record) : Option Acc :=
  Run.exec (takeRecord ctx st.store (resolveTenants ctx st records).1)
    (Acc.empty st.nextSeq) records

/-- Write a chunk as one batch; it may raise. -/
def applyChunk (ctx : Ctx) (st : State) (records : List Record) : Option State :=
  (takeAll ctx st records).map fun acc =>
    let tenants := resolveTenants ctx st records
    { store := st.store.write
        (coalesce (acc.ops ++ .put .nextSeq (.num acc.nextSeq) :: tenants.2.1))
      nextSeq := acc.nextSeq
      nextOrd := tenants.2.2
      written := st.written ++ acc.written }

/-! ## A replay -/

/-- A stored counter; an absent one is 1. -/
def numOf : Option Val → Nat
  | some (.num n) => n
  | _ => 1

/-- The seq of a hook key. -/
def hookSeq : Key → Nat
  | .hook q => q
  | _ => 0

/-- The ordinal of a tenant key. -/
def tenantOrd : Key → Nat
  | .tenant o => o
  | _ => 0

/-- The highest number among the keys. -/
def lastOf (f : Key → Nat) (s : Store) : Nat := (s.entries.map fun e => f e.1).foldr max 0

/-- `Writer.next_seq`: the marker, or the seq after the last stored hook. -/
def nextSeqOf (s : Store) : Nat :=
  max (numOf (s.get .nextSeq)) (lastOf hookSeq s + 1)

/-- `Tenants.next_free_ord`: the marker, or the ordinal after the last one given. -/
def nextFreeOrd (s : Store) : Nat :=
  max (numOf (s.get .nextOrd)) (lastOf tenantOrd s + 1)

/-- The state the replay of a store starts from. -/
def start (s : Store) : State :=
  { store := s, nextSeq := nextSeqOf s, nextOrd := nextFreeOrd s, written := [] }

/-- Cut the log into chunks of `n` records; `buf` holds the chunk begun, last record first. -/
def chunked (n : Nat) : List Record → List Record → List (List Record)
  | buf, [] => if buf = [] then [] else [buf.reverse]
  | buf, r :: rs =>
    if n ≤ buf.length + 1 then (r :: buf).reverse :: chunked n [] rs else chunked n (r :: buf) rs

/-- Replay a whole log over the store, in chunks of `n` records. -/
def replay (ctx : Ctx) (n : Nat) (s : Store) (log : List Record) : Option State :=
  Run.exec (applyChunk ctx) (start s) (chunked n [] log)

/-- A log as nodes write it: the header of a record has the id of its hook, and the records of one
    hook carry the same hook. -/
structure Logged (ctx : Ctx) (log : List Record) : Prop where
  ids : ∀ r ∈ log, ∀ e ∈ ctx.decode r.bin, e.1.id = r.id
  hooks : ∀ r ∈ log, ∀ r' ∈ log, r.id = r'.id → r.bin = r'.bin

theorem flatten_chunked (n : Nat) (buf log : List Record) :
    (chunked n buf log).flatten = buf.reverse ++ log := by
  induction log generalizing buf with
  | nil =>
    unfold chunked
    split
    next hbuf => simp [hbuf]
    next => simp
  | cons r log ih =>
    unfold chunked
    split
    · simp [ih]
    · simp [ih]

theorem mem_chunked_iff {n : Nat} {log : List Record} {r : Record} :
    (∃ chunk ∈ chunked n [] log, r ∈ chunk) ↔ r ∈ log := by
  have h := flatten_chunked n [] log
  rw [reverse_nil, nil_append] at h
  rw [← mem_flatten, h]

/-! ## What a record puts -/

/-- The operation is on no hook and no tenant's ordinal. -/
def Beside (op : Op) : Prop := (∀ q, op.key ≠ .hook q) ∧ ∀ t, op.key ≠ .tenantOrd t

theorem beside_counters (ds : List Counters.Delta) : Within Beside (Counters.ops ds) :=
  Counters.within (by simp [Beside]) ds

theorem beside_newOps (ord : Nat) (time : Ms) (seq sink size : Nat) (row : Row)
    (lane : Option Lane) : Within Beside (Deliveries.newOps ord time seq sink size row lane) := by
  apply within_newOps <;> simp [Beside]

theorem beside_sinkOps (ctx : Ctx) (env : Env) (ord seq size : Nat) :
    Within Beside (sinkOps ctx env ord seq size) := by
  unfold sinkOps
  split
  · exact .nil
  · refine .flatMap fun p _ => ?_
    split
    · exact .nil
    · exact beside_newOps _ _ _ _ _ _ _

theorem beside_dedupeOps (ctx : Ctx) (s : Store) (env : Env) (receivedAt : Ms) (ord : Nat) :
    Within Beside (dedupeOps ctx s env receivedAt ord) := by
  unfold dedupeOps
  split
  · dsimp only
    split
    · exact .nil
    · split
      · exact .nil
      · refine .append (.cons ⟨?_, ?_⟩ (.cons ⟨?_, ?_⟩ .nil)) (beside_counters _) <;>
          simp [KV.Op.key, Writer.uKey, Writer.expiryKey]
  · exact .nil

theorem sinkOps_eq_nil_iff (ctx : Ctx) (env : Env) (ord seq size : Nat) :
    sinkOps ctx env ord seq size = [] ↔
      (ctx.route env).any (fun route => route.sinks.any Option.isSome) = false := by
  have hnew : ∀ (i : Nat) (row : Row) (lane : Option Lane),
      Deliveries.newOps ord ctx.now seq i size row lane ≠ [] := by
    intro i row lane
    cases lane <;> simp [Deliveries.newOps]
  unfold sinkOps
  cases ctx.route env with
  | none => simp
  | some route =>
    simp only [flatMap_eq_nil_iff, Option.any_some, any_eq_false]
    constructor
    · intro h sink hsink hsome
      obtain ⟨module, lane, rfl⟩ : ∃ module lane, sink = some (module, lane) := by
        cases sink with
        | none => cases hsome
        | some p => exact ⟨p.1, p.2, rfl⟩
      obtain ⟨i, hi, hget⟩ := getElem_of_mem hsink
      have := h (some (module, lane),
        i) (mem_zipIdx_iff_getElem?.2 (by rw [getElem?_eq_getElem hi, hget]))
      exact hnew _ _ _ this
    · intro h p hp
      have hmem : p.1 ∈ route.sinks := fst_mem_of_mem_zipIdx hp
      cases hsink : p.1 with
      | none => rfl
      | some => exact absurd (by simp [hsink]) (h p.1 hmem)

variable {env : Env}

theorem hookOps_of_not_owes {ctx : Ctx} {s : Store} {receivedAt : Ms} {bin : Bin}
    {seq ord : Nat} (h : ctx.owes env = false) : hookOps ctx s env receivedAt bin seq ord = [] := by
  simp only [Ctx.owes, Bool.or_eq_false_iff] at h
  unfold hookOps
  rw [if_pos ⟨(sinkOps_eq_nil_iff _ _ _ _ _).2 h.2, by simp [h.1]⟩]

theorem hookOps_of_owes {ctx : Ctx} (s : Store) (receivedAt : Ms) (bin : Bin) (seq ord : Nat)
    (h : ctx.owes env = true) :
    ∃ rest, hookOps ctx s env receivedAt bin seq ord = .put (.hook seq) (.hook bin) :: rest ∧
      Within Beside rest := by
  have hne : ¬ (sinkOps ctx env ord seq bin.length = [] ∧
      (if ctx.archive then archiveOps ord seq bin.length else []) = []) := by
    rintro ⟨hsinks, harchive⟩
    rw [sinkOps_eq_nil_iff] at hsinks
    have : ctx.archive = true := by simpa [Ctx.owes, hsinks] using h
    simp [this, archiveOps] at harchive
  refine ⟨sinkOps ctx env ord seq bin.length ++
    (if ctx.archive then archiveOps ord seq bin.length else []) ++
    dedupeOps ctx s env receivedAt ord, ?_, ?_⟩
  · unfold hookOps
    rw [if_neg hne]
    rfl
  · refine .append (.append (beside_sinkOps _ _ _ _ _) ?_) (beside_dedupeOps _ _ _ _ _)
    split
    · exact .append (.cons (by simp [Beside]) .nil) (beside_counters _)
    · exact .nil

/-! ## What a chunk puts -/

section Chunk

variable {ctx : Ctx} {s : Store} {ords : List (String × Nat)} {acc acc' : Acc} {r : Record}

/-- What taking a record that is not present adds to the chunk. -/
structure Wrote (ctx : Ctx) (acc : Acc) (r : Record) (acc' : Acc) (fresh : Bool) : Prop where
  seen : acc'.seen = (r.seq, r.id) :: acc.seen
  nextSeq : acc'.nextSeq = if fresh then acc.nextSeq + 1 else max acc.nextSeq (r.seq + 1)
  handed : acc'.handed = if fresh then acc.nextSeq :: acc.handed else acc.handed
  skipped : ctx.owed r = false → acc'.ops = acc.ops ∧ acc'.written = acc.written
  put : ctx.owed r = true → ∃ rest, Within Beside rest ∧
    acc'.ops = .put (.hook (if fresh then acc.nextSeq else r.seq)) (.hook r.bin) :: rest ++
    acc.ops ∧
    acc'.written = ((if fresh then acc.nextSeq else r.seq), r.bin) :: acc.written

theorem takeRecord_cases (h : takeRecord ctx s ords acc r = some acc') :
    (decision ctx s acc.seen r = .present ∧ acc' = acc) ∨
    (decision ctx s acc.seen r = .original ∧ Wrote ctx acc r acc' false) ∨
    (decision ctx s acc.seen r = .fresh ∧ Wrote ctx acc r acc' true) := by
  have hwrote : ∀ fresh : Bool, (match ctx.decode r.bin with
        | none => some (claimSeq acc r fresh).2
        | some (env, receivedAt) => (ords.lookup (Tenants.normalize env.tenantId)).map fun ord =>
          { (claimSeq acc r fresh).2 with
            ops := hookOps ctx s env receivedAt r.bin (claimSeq acc r fresh).1 ord ++ acc.ops
            written := if ctx.owes env then ((claimSeq acc r fresh).1, r.bin) :: acc.written
              else acc.written }) = some acc' → Wrote ctx acc r acc' fresh := by
    intro fresh h
    have hnext : (claimSeq acc r fresh).2.nextSeq = if fresh then acc.nextSeq + 1
        else max acc.nextSeq (r.seq + 1) := by
      cases fresh <;> simp [claimSeq]
    have hhanded : (claimSeq acc r fresh).2.handed = if fresh then acc.nextSeq :: acc.handed
        else acc.handed := by
      cases fresh <;> rfl
    split at h
    next hdecode =>
      cases h
      exact ⟨rfl, hnext, hhanded, fun _ => ⟨rfl, rfl⟩, fun ho => by simp [Ctx.owed, hdecode] at ho⟩
    next env receivedAt hdecode =>
      obtain ⟨ord, -, rfl⟩ := Option.map_eq_some_iff.1 h
      have howed : ctx.owed r = ctx.owes env := by simp [Ctx.owed, hdecode]
      refine ⟨rfl, hnext, hhanded, fun ho => ?_, fun ho => ?_⟩
      · rw [howed] at ho
        simp [hookOps_of_not_owes ho, ho]
      rw [howed] at ho
      obtain ⟨rest, hops, hrest⟩ :=
        hookOps_of_owes s receivedAt r.bin (claimSeq acc r fresh).1 ord ho
      refine ⟨rest, hrest, ?_, ?_⟩
      · rw [hops]
        rfl
      · simp only [ho, if_true]
        rfl
  unfold takeRecord at h
  split at h
  next hdec => exact .inl ⟨hdec, (Option.some.inj h).symm⟩
  next hne =>
    cases hdec : decision ctx s acc.seen r with
    | present => exact absurd hdec hne
    | original =>
      rw [hdec] at h
      exact .inr (.inl ⟨rfl, hwrote false h⟩)
    | fresh =>
      rw [hdec] at h
      exact .inr (.inr ⟨rfl, hwrote true h⟩)

/-- What a chunk has put so far: every hook it wrote was absent before the chunk and lies below the
    next seq, and its operations on hook keys are the puts of these hooks. -/
structure Puts (s : Store) (nextSeq : Nat) (acc : Acc) : Prop where
  le : nextSeq ≤ acc.nextSeq
  ops : ∀ op ∈ acc.ops, ∀ q, op.key = .hook q → ∃ b, (q, b) ∈ acc.written ∧
    op = .put (.hook q) (.hook b)
  put : ∀ q b, (q, b) ∈ acc.written → .put (.hook q) (.hook b) ∈ acc.ops
  absent : ∀ q b, (q, b) ∈ acc.written → s.get (.hook q) = none
  below : ∀ q b, (q, b) ∈ acc.written → q < acc.nextSeq
  quiet : acc.written = [] → acc.ops = []
  tenants : ∀ op ∈ acc.ops, ∀ t, op.key ≠ .tenantOrd t

variable {nextSeq : Nat}

theorem Puts.wrote {fresh : Bool} (hacc : Puts s nextSeq acc) (hw : Wrote ctx acc r acc' fresh)
    (habsent : s.get (.hook (if fresh then acc.nextSeq else r.seq)) = none) :
    Puts s nextSeq acc' := by
  have hle : acc.nextSeq ≤ acc'.nextSeq := by
    rw [hw.nextSeq]
    split
    · omega
    · exact Nat.le_max_left _ _
  have hseq : (if fresh then acc.nextSeq else r.seq) < acc'.nextSeq := by
    rw [hw.nextSeq]
    split
    · omega
    · exact Nat.lt_of_lt_of_le (Nat.lt_succ_self _) (Nat.le_max_right _ _)
  by_cases ho : ctx.owed r = true
  · obtain ⟨rest, hrest, hops, hwritten⟩ := hw.put ho
    refine ⟨hacc.le.trans hle, ?_, ?_, ?_, ?_, ?_, ?_⟩
    · intro op hop q hq
      rw [hops] at hop
      rw [hwritten]
      rcases mem_append.1 hop with hop | hop
      · rcases mem_cons.1 hop with rfl | hop
        · obtain rfl := Key.hook.inj hq
          exact ⟨_, mem_cons_self, rfl⟩
        · exact absurd hq ((hrest op hop).1 q)
      · obtain ⟨b, hb, heq⟩ := hacc.ops op hop q hq
        exact ⟨b, mem_cons_of_mem _ hb, heq⟩
    · intro q b hqb
      rw [hwritten] at hqb
      rw [hops]
      rcases mem_cons.1 hqb with heq | hqb
      · obtain ⟨rfl, rfl⟩ := Prod.mk.inj heq
        exact mem_append_left _ mem_cons_self
      · exact mem_append_right _ (hacc.put q b hqb)
    · intro q b hqb
      rw [hwritten] at hqb
      rcases mem_cons.1 hqb with heq | hqb
      · exact (Prod.mk.inj heq).1 ▸ habsent
      · exact hacc.absent q b hqb
    · intro q b hqb
      rw [hwritten] at hqb
      rcases mem_cons.1 hqb with heq | hqb
      · exact (Prod.mk.inj heq).1 ▸ hseq
      · exact (hacc.below q b hqb).trans_le hle
    · intro hnil
      rw [hwritten] at hnil
      cases hnil
    · intro op hop t
      rw [hops] at hop
      rcases mem_append.1 hop with hop | hop
      · rcases mem_cons.1 hop with rfl | hop
        · exact fun h => by cases h
        · exact (hrest op hop).2 t
      · exact hacc.tenants op hop t
  · obtain ⟨hops, hwritten⟩ := hw.skipped (by simpa using ho)
    refine ⟨hacc.le.trans hle, ?_, ?_, ?_, ?_, ?_, ?_⟩
    · rw [hops, hwritten]
      exact hacc.ops
    · rw [hops, hwritten]
      exact hacc.put
    · rw [hwritten]
      exact hacc.absent
    · intro q b hqb
      exact (hacc.below q b (hwritten ▸ hqb)).trans_le hle
    · rw [hops, hwritten]
      exact hacc.quiet
    · rw [hops]
      exact hacc.tenants

/-- A record is found present among what the chunk wrote, or in the store. -/
theorem present_cases (h : decision ctx s acc.seen r = .present) : (r.seq, r.id) ∈ acc.seen ∨
    acc.seen.lookup r.seq = none ∧ ∃ v, s.get (.hook r.seq) = some v ∧
    storedId ctx v = some r.id := by
  unfold decision at h
  split at h
  next hlookup =>
    split at h
    next heq =>
      obtain ⟨l₁, l₂, hl, -⟩ := lookup_eq_some_iff.1 hlookup
      exact .inl (by simp [hl, heq])
    next => cases h
  next hlookup =>
    unfold decideStored at h
    split at h
    · cases h
    next v hv =>
      split at h
      next heq => exact .inr ⟨hlookup, v, hv, heq⟩
      next => cases h

theorem absent_of_original (h : decision ctx s acc.seen r = .original) :
    acc.seen.lookup r.seq = none ∧ s.get (.hook r.seq) = none := by
  unfold decision at h
  split at h
  · split at h <;> cases h
  next hseen =>
    refine ⟨hseen, ?_⟩
    unfold decideStored at h
    split at h
    next hs => exact hs
    next => split at h <;> cases h

theorem puts_step (hbelow : ∀ q, s.get (.hook q) ≠ none → q < nextSeq)
    (hacc : Puts s nextSeq acc) (h : takeRecord ctx s ords acc r = some acc') :
    Puts s nextSeq acc' := by
  rcases takeRecord_cases h with ⟨-, rfl⟩ | ⟨hd, hw⟩ | ⟨-, hw⟩
  · exact hacc
  · exact hacc.wrote hw (absent_of_original hd).2
  · refine hacc.wrote hw (by_contra fun hne => ?_)
    have := hbelow _ hne
    have := hacc.le
    simp only [if_true] at *
    omega

theorem puts_empty (s : Store) (nextSeq : Nat) : Puts s nextSeq (Acc.empty nextSeq) :=
  ⟨le_rfl, by simp [Acc.empty], by simp [Acc.empty], by simp [Acc.empty], by simp [Acc.empty],
    fun _ => rfl, by simp [Acc.empty]⟩

end Chunk

/-! ## From chunk to chunk -/

section Chunks

variable {ctx : Ctx} {st st' : State} {records : List Record}

theorem applyChunk_eq_some (h : applyChunk ctx st records = some st') :
    ∃ acc, takeAll ctx st records = some acc ∧ st'.nextSeq = acc.nextSeq ∧
      st'.written = st.written ++ acc.written ∧
      st'.store = st.store.write (coalesce (acc.ops ++
        .put .nextSeq (.num acc.nextSeq) :: (resolveTenants ctx st records).2.1)) := by
  obtain ⟨acc, hacc, rfl⟩ := Option.map_eq_some_iff.1 h
  exact ⟨acc, hacc, rfl, rfl, rfl⟩

/-- The rows of new tenants are put under the keys of tenants. -/
theorem tenant_of_mem_resolveTenants {op : Op} (h : op ∈ (resolveTenants ctx st records).2.1) :
    op.key.family = .tenant ∧ op.merges = false := by
  simp only [resolveTenants, Tenants.allocate] at h
  split at h
  · cases h
  rcases mem_append.1 h with h | h
  · obtain ⟨p, -, hp⟩ := mem_flatMap.1 h
    rcases mem_cons.1 hp with rfl | hp
    · exact ⟨rfl, rfl⟩
    · rw [mem_singleton] at hp
      subst hp
      exact ⟨rfl, rfl⟩
  · rw [mem_singleton] at h
    subst h
    exact ⟨rfl, rfl⟩

variable {acc : Acc} {s : Store} {q : Nat} {v : Val}

/-- What is under a hook key after a chunk: what was there, or a hook the chunk wrote. -/
def After (acc : Acc) (s s' : Store) (q : Nat) : Prop :=
  ((∀ b, (q, b) ∉ acc.written) ∧ s'.get (.hook q) = s.get (.hook q)) ∨
    ∃ b, (q, b) ∈ acc.written ∧ s.get (.hook q) = none ∧ s'.get (.hook q) = some (.hook b)

theorem hook_after {nextSeq : Nat} {tail : List Op} (hputs : Puts st.store nextSeq acc)
    (htail : ∀ op ∈ tail, ∀ q, op.key ≠ .hook q) (q : Nat) :
    After acc st.store (st.store.write (coalesce (acc.ops ++ tail))) q := by
  have hops : ∀ op ∈ coalesce (acc.ops ++ tail), op.key = .hook q →
      ∃ b, (q, b) ∈ acc.written ∧ op = .put (.hook q) (.hook b) := by
    intro op hop hq
    have hmem := mem_of_mem_coalesce hop (by simp [hq, Key.family])
    rcases mem_append.1 hmem with h | h
    · exact hputs.ops op h q hq
    · exact absurd hq (htail op h q)
  by_cases hw : ∃ b, (q, b) ∈ acc.written
  · obtain ⟨b, hb⟩ := hw
    obtain ⟨v, hv, hget⟩ := st.store.get_write_of_puts
      ⟨_, mem_coalesce_of (mem_append_left tail (hputs.put q b hb)) (by simp [Key.family]), rfl⟩
      fun op hop hq => ⟨_, (hops op hop hq).choose_spec.2⟩
    obtain ⟨b', hb', heq⟩ := hops _ hv rfl
    exact .inr ⟨b', hb', hputs.absent q b hb, hget.trans (congrArg some (KV.Op.put.inj heq).2)⟩
  · refine .inl ⟨fun b hb => hw ⟨b, hb⟩, st.store.get_untouched fun op hop hq => ?_⟩
    obtain ⟨b, hb, -⟩ := hops op hop hq
    exact hw ⟨b, hb⟩

theorem tail_not_hook {n : Nat} :
    ∀ op ∈ .put .nextSeq (.num n) :: (resolveTenants ctx st records).2.1, ∀ q,
    op.key ≠ .hook q := by
  refine forall_mem_cons.2 ⟨nofun, fun op hop q hq => ?_⟩
  have := (tenant_of_mem_resolveTenants hop).1
  rw [hq] at this
  cases this

/-- What a replay keeps of the hooks of `s`: they stay as they are, and every stored hook lies below
    the next seq. -/
structure Kept (s : Store) (st : State) : Prop where
  below : ∀ q, st.store.get (.hook q) ≠ none → q < st.nextSeq
  hooks : ∀ q v, s.get (.hook q) = some v → st.store.get (.hook q) = some v

/-- The hooks written so far were not in `s`, and are stored. -/
def Added (s : Store) (st : State) : Prop :=
  ∀ q b, (q, b) ∈ st.written → s.get (.hook q) = none ∧ st.store.get (.hook q) ≠ none

/-- What a chunk does to the hooks, and to the seqs handed out. -/
theorem chunk_cases (hst : Kept s st) (h : applyChunk ctx st records = some st') :
    ∃ acc, takeAll ctx st records = some acc ∧ Puts st.store st.nextSeq acc ∧
      st'.nextSeq = acc.nextSeq ∧ st'.written = st.written ++ acc.written ∧ ∀ q,
      After acc st.store st'.store q := by
  obtain ⟨acc, hacc, hnext, hwritten, hstore⟩ := applyChunk_eq_some h
  have hputs : Puts st.store st.nextSeq acc :=
    exec_invariant (fun _ _ _ hu hstep => puts_step hst.below hu hstep) (puts_empty _ _) hacc
  refine ⟨acc, hacc, hputs, hnext, hwritten, ?_⟩
  rw [hstore]
  exact hook_after hputs tail_not_hook

theorem hook_mono_of_cases (h : ∀ q, After acc st.store st'.store q)
    (hv : st.store.get (.hook q) = some v) : st'.store.get (.hook q) = some v := by
  rcases h q with ⟨-, heq⟩ | ⟨b, -, hnone, -⟩
  · exact heq.trans hv
  · rw [hnone] at hv
    cases hv

theorem kept_step (hst : Kept s st) (h : applyChunk ctx st records = some st') : Kept s st' := by
  obtain ⟨acc, -, hputs, hnext, -, hafter⟩ := chunk_cases hst h
  refine ⟨fun q hq => ?_, fun q v hv => hook_mono_of_cases hafter (hst.hooks q v hv)⟩
  rw [hnext]
  rcases hafter q with ⟨-, heq⟩ | ⟨b, hb, -, -⟩
  · exact (hst.below q (heq ▸ hq)).trans_le hputs.le
  · exact hputs.below q b hb

theorem added_step (hst : Kept s st) (hadded : Added s st)
    (h : applyChunk ctx st records = some st') : Added s st' := by
  obtain ⟨acc, -, hputs, -, hwritten, hafter⟩ := chunk_cases hst h
  intro q b hqb
  rw [hwritten] at hqb
  rcases mem_append.1 hqb with hold | hnew
  · obtain ⟨hs, hstored⟩ := hadded q b hold
    obtain ⟨v, hv⟩ := Option.ne_none_iff_exists'.1 hstored
    exact ⟨hs, by rw [hook_mono_of_cases hafter hv]; simp⟩
  constructor
  · by_contra hs
    obtain ⟨v, hv⟩ := Option.ne_none_iff_exists'.1 hs
    have := hst.hooks q v hv
    rw [hputs.absent q b hnew] at this
    cases this
  · rcases hafter q with ⟨hnot, -⟩ | ⟨b', -, -, hget⟩
    · exact absurd hnew (hnot b)
    · simp [hget]

theorem lastOf_ge {f : Key → Nat} {k : Key} (h : s.get k ≠ none) : f k ≤ lastOf f s := by
  obtain ⟨v, hv⟩ := Option.ne_none_iff_exists'.1 h
  have hmem : f k ∈ s.entries.map fun e => f e.1 :=
    mem_map.2 ⟨⟨k, v⟩, AList.mem_lookup_iff.1 hv, rfl⟩
  exact le_max_of_le' 0 hmem le_rfl

theorem kept_start (s : Store) : Kept s (start s) := by
  refine ⟨fun q hq => ?_, fun _ _ hv => hv⟩
  have : q ≤ lastOf hookSeq s := lastOf_ge (f := hookSeq) hq
  simp only [start, nextSeqOf]
  omega

theorem hook_mono_exec {t : State} {chunks : List (List Record)} (hst : Kept s st)
    (h : exec (applyChunk ctx) st chunks = some t)
    (hv : st.store.get (.hook q) = some v) : t.store.get (.hook q) = some v :=
  (exec_invariant (fun _ _ _ hu hstep => kept_step hu hstep)
    ⟨hst.below, fun _ _ h => h⟩ h).hooks q v hv

end Chunks

/-! ## Every hook is stored -/

section Stores

variable {ctx : Ctx} {log : List Record}
  {r : Record} {s : Store} {ords : List (String × Nat)} {acc acc' : Acc} {records : List Record}

theorem Ctx.owed_congr {r' : Record} (h : r.bin = r'.bin) : ctx.owed r = ctx.owed r' := by
  simp [Ctx.owed, h]

/-- Another hook holds the record's seq, in the store or in an earlier record of the log. -/
def collides (ctx : Ctx) (s : Store) (earlier : List Record) (r : Record) : Bool :=
  earlier.any (fun r' => r'.seq = r.seq ∧ r'.id ≠ r.id) ||
    (s.get (.hook r.seq)).any fun v => storedId ctx v ≠ some r.id

/-- No record that comes after a collision carries a seq which the store has not handed out. -/
def settled (ctx : Ctx) (s : Store) : List Record → List Record → Bool
  | _, [] => true
  | earlier, r :: rest =>
    (!collides ctx s earlier r || rest.all fun r' => r'.seq < nextSeqOf s) &&
      settled ctx s (r :: earlier) rest

/-- No record of the chunk carries a seq that was handed out as fresh earlier in the chunk. -/
def NoReuse (ctx : Ctx) (st : State) (records : List Record) : Prop :=
  Run.Along (takeRecord ctx st.store (resolveTenants ctx st records).1)
    (fun acc r => r.seq ∉ acc.handed) (Acc.empty st.nextSeq) records

/-- The hooks of a chunk are written under different seqs. -/
structure Distinct (acc : Acc) : Prop where
  nodup : (acc.written.map Prod.fst).Nodup
  known : ∀ q b, (q, b) ∈ acc.written → q ∈ acc.handed ∨ ∃ id, (q, id) ∈ acc.seen

theorem distinct_step {nextSeq : Nat} (hputs : Puts s nextSeq acc) (hacc : Distinct acc)
    (hreuse : r.seq ∉ acc.handed)
    (h : takeRecord ctx s ords acc r = some acc') : Distinct acc' := by
  have key : ∀ fresh, Wrote ctx acc r acc' fresh →
      (∀ b, ((if fresh then acc.nextSeq else r.seq), b) ∉ acc.written) → Distinct acc' := by
    intro fresh hw hnew
    have hknown : ∀ q b, (q, b) ∈ acc.written → q ∈ acc'.handed ∨ ∃ id, (q, id) ∈ acc'.seen := by
      intro q b hqb
      rw [hw.handed, hw.seen]
      rcases hacc.known q b hqb with hh | ⟨id, hid⟩
      · left
        split
        · exact mem_cons_of_mem _ hh
        · exact hh
      · exact .inr ⟨id, mem_cons_of_mem _ hid⟩
    by_cases ho : ctx.owed r = true
    · obtain ⟨rest, -, -, hwritten⟩ := hw.put ho
      refine ⟨?_, ?_⟩
      · rw [hwritten, map_cons, nodup_cons]
        refine ⟨fun hmem => ?_, hacc.nodup⟩
        obtain ⟨⟨q, b⟩, hqb, rfl⟩ := mem_map.1 hmem
        exact hnew b hqb
      · intro q b hqb
        rw [hwritten] at hqb
        rcases mem_cons.1 hqb with heq | hqb
        · rw [(Prod.mk.inj heq).1, hw.handed, hw.seen]
          cases fresh
          · exact .inr ⟨r.id, mem_cons_self⟩
          · exact .inl mem_cons_self
        · exact hknown q b hqb
    · obtain ⟨-, hwritten⟩ := hw.skipped (by simpa using ho)
      exact ⟨hwritten ▸ hacc.nodup, fun q b hqb => hknown q b (hwritten ▸ hqb)⟩
  rcases takeRecord_cases h with ⟨-, rfl⟩ | ⟨hd, hw⟩ | ⟨-, hw⟩
  · exact hacc
  · -- its own seq: no record of the chunk was written under it
    refine key false hw fun b hb => ?_
    rcases hacc.known _ _ hb with hh | ⟨id, hid⟩
    · exact hreuse hh
    · simpa using lookup_eq_none_iff.1 (absent_of_original hd).1 _ hid
  · -- a fresh seq lies above every seq written so far
    exact key true hw fun b hb => absurd (hputs.below _ _ hb) (lt_irrefl _)

/-- Whatever the chunk remembers as written and is owed was written. -/
def SeenWritten (ctx : Ctx) (log : List Record) (acc : Acc) : Prop :=
  ∀ q id, (q, id) ∈ acc.seen → ∀ r ∈ log, r.id = id → ctx.owed r = true →
    ∃ q', (q', r.bin) ∈ acc.written

/-- The record's hook was written by the chunk, or was stored under its seq before. -/
def Taken (ctx : Ctx) (s : Store) (acc : Acc) (r : Record) : Prop :=
  (∃ q, (q, r.bin) ∈ acc.written) ∨ ∃ v, s.get (.hook r.seq) = some v ∧ storedId ctx v = some r.id

/-- What one record adds: nothing written is forgotten, what is remembered as written was, and the
    record itself is taken. -/
theorem taken_step (hlog : Logged ctx log) (hr : r ∈ log) (hseen : SeenWritten ctx log acc)
    (h : takeRecord ctx s ords acc r = some acc') :
    (∀ p ∈ acc.written, p ∈ acc'.written) ∧ SeenWritten ctx log acc' ∧
      (ctx.owed r = true → Taken ctx s acc' r) := by
  have key : ∀ fresh, Wrote ctx acc r acc' fresh → (∀ p ∈ acc.written, p ∈ acc'.written) ∧
      SeenWritten ctx log acc' ∧ (ctx.owed r = true → Taken ctx s acc' r) := by
    intro fresh hw
    have hmono : ∀ p ∈ acc.written, p ∈ acc'.written := by
      intro p hp
      by_cases ho : ctx.owed r = true
      · obtain ⟨rest, -, -, hwritten⟩ := hw.put ho
        exact hwritten ▸ mem_cons_of_mem _ hp
      · exact (hw.skipped (by simpa using ho)).2 ▸ hp
    have howed : ctx.owed r = true → ∃ q, (q, r.bin) ∈ acc'.written := by
      intro ho
      obtain ⟨rest, -, -, hwritten⟩ := hw.put ho
      exact ⟨_, hwritten ▸ mem_cons_self⟩
    refine ⟨hmono, ?_, fun ho => .inl (howed ho)⟩
    intro q id hid r' hr' hid' ho'
    rw [hw.seen] at hid
    rcases mem_cons.1 hid with heq | hid
    · -- another record of the hook just written
      have hbin : r'.bin = r.bin := hlog.hooks r' hr' r hr (hid'.trans (Prod.mk.inj heq).2)
      rw [hbin]
      exact howed (Ctx.owed_congr hbin ▸ ho')
    · obtain ⟨q', hq'⟩ := hseen q id hid r' hr' hid' ho'
      exact ⟨q', hmono _ hq'⟩
  rcases takeRecord_cases h with ⟨hd, rfl⟩ | ⟨-, hw⟩ | ⟨-, hw⟩
  · refine ⟨fun _ hp => hp, hseen, fun ho => ?_⟩
    rcases present_cases hd with hmem | ⟨-, hstored⟩
    · exact .inl (hseen r.seq r.id hmem r hr rfl ho)
    · exact .inr hstored
  · exact key false hw
  · exact key true hw

/-- The hook of the record is stored under some seq. -/
def Stored (ctx : Ctx) (s : Store) (r : Record) : Prop :=
  ∃ q v, s.get (.hook q) = some v ∧ storedId ctx v = some r.id

/-- The hooks written so far are stored as they were written, each under a seq of its own. -/
structure Placed (st : State) : Prop where
  nodup : (st.written.map Prod.fst).Nodup
  stored : ∀ q b, (q, b) ∈ st.written → st.store.get (.hook q) = some (.hook b)

theorem placed_step {st st' : State} (hst : Kept s st) (hplaced : Placed st)
    (hreuse : NoReuse ctx st records) (h : applyChunk ctx st records = some st') : Placed st' := by
  obtain ⟨acc, hacc, hputs, -, hwritten, hafter⟩ := chunk_cases hst h
  have hdistinct : Distinct acc :=
    (invariant_along (I := fun u => Puts st.store st.nextSeq u ∧ Distinct u)
      (fun u r v hu hP hstep => ⟨puts_step hst.below hu.1 hstep, distinct_step hu.1 hu.2 hP hstep⟩)
      ⟨puts_empty _ _, by simp [Acc.empty], by simp [Acc.empty]⟩ hreuse hacc).2
  have hnew : ∀ q b, (q, b) ∈ acc.written → st'.store.get (.hook q) = some (.hook b) := by
    intro q b hqb
    rcases hafter q with ⟨hnot, -⟩ | ⟨b', hb', -, hget⟩
    · exact absurd hqb (hnot b)
    · have := inj_on_of_nodup_map hdistinct.nodup hqb hb' rfl
      rw [hget, (Prod.mk.inj this).2]
  refine ⟨?_, ?_⟩
  · rw [hwritten, map_append]
    refine nodup_append'.2 ⟨hplaced.nodup, hdistinct.nodup, fun q hold hnew => ?_⟩
    obtain ⟨⟨q, b⟩, hqb, rfl⟩ := mem_map.1 hold
    obtain ⟨⟨q', b'⟩, hqb', heq⟩ := mem_map.1 hnew
    have habsent := hputs.absent q' b' hqb'
    rw [show q' = q from heq, hplaced.stored q b hqb] at habsent
    cases habsent
  · intro q b hqb
    rw [hwritten] at hqb
    rcases mem_append.1 hqb with hold | hq
    · exact hook_mono_of_cases hafter (hplaced.stored q b hold)
    · exact hnew q b hq

/-- The record was put under some seq, or its hook is stored. -/
def Replayed (ctx : Ctx) (st : State) (r : Record) : Prop :=
  (∃ q, (q, r.bin) ∈ st.written) ∨ Stored ctx st.store r

theorem Replayed.chunk {st st' : State} (h : Replayed ctx st r) (hst : Kept s st)
    (hchunk : applyChunk ctx st records = some st') : Replayed ctx st' r := by
  obtain ⟨acc, -, -, -, hwritten, hafter⟩ := chunk_cases hst hchunk
  refine h.imp (fun ⟨q, hq⟩ => ⟨q, ?_⟩) fun ⟨q, v, hv, hid⟩ =>
    ⟨q, v, hook_mono_of_cases hafter hv, hid⟩
  rw [hwritten]
  exact mem_append_left _ hq

/-- Where each hook that was written has a seq of its own, what was put is stored. -/
theorem Replayed.stored {st : State} (h : Replayed ctx st r) (hlog : Logged ctx log) (hr : r ∈ log)
    (ho : ctx.owed r = true) (hplaced : Placed st) : Stored ctx st.store r := by
  refine h.elim (fun ⟨q, hq⟩ => ⟨q, _, hplaced.stored q r.bin hq, ?_⟩) id
  obtain ⟨e, he, -⟩ := (Option.any_eq_true _ _).1 ho
  simp [storedId, he, hlog.ids r hr e he]

/-! ### Records after a collision -/

/-- No collision so far: a stored hook was there before the replay, or has the seq and the id of a
    record. -/
def Plain (ctx : Ctx) (s : Store) (earlier : List Record) (u : Store) : Prop :=
  ∀ q v, u.get (.hook q) = some v → s.get (.hook q) = some v ∨ ∃ r ∈ earlier,
    r.seq = q ∧ storedId ctx v = some r.id

/-- The rest of the log stays below the next seq of the store, or there was no collision so far and
    no fresh seq was handed out. -/
structure Calm (ctx : Ctx) (s u : Store) (earlier rest : List Record) (acc : Acc) : Prop where
  le : nextSeqOf s ≤ acc.nextSeq
  handed : ∀ q ∈ acc.handed, nextSeqOf s ≤ q
  settled : settled ctx s earlier rest = true
  calm : (∀ r ∈ rest, r.seq < nextSeqOf s) ∨ acc.handed = [] ∧ Plain ctx s earlier u ∧
    (∀ q id, (q, id) ∈ acc.seen → ∃ r ∈ earlier, r.seq = q ∧ r.id = id) ∧
    ∀ q b, (q, b) ∈ acc.written → ∃ r ∈ earlier, r.seq = q ∧ storedId ctx (.hook b) = some r.id

theorem Plain.mono {u : Store} {earlier more : List Record} (h : Plain ctx s earlier u)
    (hsub : earlier ⊆ more) :
    Plain ctx s more u := fun q v hv => (h q v hv).imp_right fun ⟨r, hr, heq⟩ => ⟨r, hsub hr, heq⟩

/-- Without a collision so far, a record that is given a fresh seq is one. -/
theorem collides_of_fresh {u : Store} {earlier : List Record} (hplain : Plain ctx s earlier u)
    (hseen : ∀ q id, (q, id) ∈ acc.seen → ∃ r ∈ earlier, r.seq = q ∧ r.id = id)
    (h : decision ctx u acc.seen r = .fresh) : collides ctx s earlier r = true := by
  have hearlier : ∀ r' ∈ earlier, r'.seq = r.seq → r'.id ≠ r.id → collides ctx s earlier r = true :=
    fun r' hr' hseq hid => by
      rw [collides, Bool.or_eq_true, any_eq_true]
      exact .inl ⟨r', hr', decide_eq_true ⟨hseq, hid⟩⟩
  unfold decision at h
  split at h
  next id hlookup =>
    split at h
    · cases h
    next hne =>
      obtain ⟨l₁, l₂, hl, -⟩ := lookup_eq_some_iff.1 hlookup
      obtain ⟨r', hr', hseq, rfl⟩ := hseen r.seq id (by simp [hl])
      exact hearlier r' hr' hseq hne
  next =>
    unfold decideStored at h
    split at h
    · cases h
    next v hv =>
      split at h
      · cases h
      next hne =>
        rcases hplain _ _ hv with hs | ⟨r', hr', hseq, hid⟩
        · simp [collides, hs, hne]
        · exact hearlier r' hr' hseq fun heq => hne (heq ▸ hid)

theorem Calm.seq {u : Store} {earlier rest : List Record}
    (h : Calm ctx s u earlier (r :: rest) acc) : r.seq ∉ acc.handed := by
  rcases h.calm with hrest | ⟨hnone, -⟩
  · intro hr
    have := hrest r mem_cons_self
    have := h.handed _ hr
    omega
  · rw [hnone]
    exact not_mem_nil

theorem Calm.take {u : Store} {earlier rest : List Record}
    (hids : ∀ e ∈ ctx.decode r.bin, e.1.id = r.id)
    (h : Calm ctx s u earlier (r :: rest) acc) (htake : takeRecord ctx u ords acc r = some acc') :
    Calm ctx s u (r :: earlier) rest acc' := by
  obtain ⟨hcollides, hsettled⟩ := Bool.and_eq_true _ _ ▸ h.settled
  have hrest : (∀ r' ∈ r :: rest, r'.seq < nextSeqOf s) → ∀ r' ∈ rest, r'.seq < nextSeqOf s :=
    fun hall r' hr' => hall r' (mem_cons_of_mem _ hr')
  have hsub : earlier ⊆ r :: earlier := fun _ => mem_cons_of_mem _
  have hmono : ∀ {p : Record → Prop}, (∃ r' ∈ earlier, p r') → ∃ r' ∈ r :: earlier, p r' :=
    fun ⟨r', hr', hp⟩ => ⟨r', hsub hr', hp⟩
  rcases takeRecord_cases htake with ⟨-, rfl⟩ | ⟨-, hw⟩ | ⟨hd, hw⟩
  · exact ⟨h.le, h.handed, hsettled, h.calm.imp hrest fun ⟨hnone, hplain, hseen, hwritten⟩ =>
      ⟨hnone, hplain.mono hsub, fun q id hid => hmono (hseen q id hid),
        fun q b hb => hmono (hwritten q b hb)⟩⟩
  · have hhanded : acc'.handed = acc.handed := hw.handed
    refine ⟨h.le.trans (hw.nextSeq ▸ Nat.le_max_left _ _), hhanded ▸ h.handed, hsettled,
      h.calm.imp hrest ?_⟩
    rintro ⟨hnone, hplain, hseen, hwritten⟩
    refine ⟨hhanded.trans hnone, hplain.mono hsub, fun q id hid => ?_, fun q b hb => ?_⟩
    · rcases mem_cons.1 (hw.seen ▸ hid) with heq | hid
      · obtain ⟨rfl, rfl⟩ := Prod.mk.inj heq
        exact ⟨r, mem_cons_self, rfl, rfl⟩
      · exact hmono (hseen q id hid)
    · by_cases ho : ctx.owed r = true
      · obtain ⟨-, -, -, hput⟩ := hw.put ho
        rcases mem_cons.1 (hput ▸ hb) with heq | hb
        · obtain ⟨rfl, rfl⟩ := Prod.mk.inj heq
          obtain ⟨e, he, -⟩ := (Option.any_eq_true _ _).1 ho
          exact ⟨r, mem_cons_self, rfl, by simp [storedId, he, hids e he]⟩
        · exact hmono (hwritten q b hb)
      · exact hmono (hwritten q b ((hw.skipped (by simpa using ho)).2 ▸ hb))
  · have hnext : acc'.nextSeq = acc.nextSeq + 1 := hw.nextSeq
    have hhanded : acc'.handed = acc.nextSeq :: acc.handed := hw.handed
    refine ⟨hnext ▸ Nat.le_succ_of_le h.le, hhanded ▸ forall_mem_cons.2 ⟨h.le, h.handed⟩,
      hsettled, .inl ?_⟩
    rcases h.calm with hall | ⟨-, hplain, hseen, -⟩
    · exact hrest hall
    · rw [collides_of_fresh hplain hseen hd] at hcollides
      simpa using hcollides

end Stores

/-! ### A store that holds another hook -/

/-- A hook without tenant and dedupe key. -/
def envOf (id source : String) : Env :=
  { id := id, tenantId := none, sourceId := source, dedupeKey := none }

/-- The hooks `a`, `b` and `c` of a known source, and `x` of an unknown one, on a node that does not
    archive. -/
def edge : Ctx :=
  { archive := false, now := 0, tenantsMax := 10
    decode := fun bin =>
      match bin with
      | [1] => some (envOf "a" "github", 0)
      | [2] => some (envOf "b" "github", 0)
      | [3] => some (envOf "c" "github", 0)
      | [9] => some (envOf "x" "gone", 0)
      | _ => none
    route := fun env =>
      if env.sourceId = "github" then some { sinks := [some ("Http", none)], ttl := none }
        else none }

/-- A record of hook a. -/
def recA (seq : Nat) : Record := { seq := seq, id := "a", bin := [1] }

/-- A record of hook c. -/
def recC (seq : Nat) : Record := { seq := seq, id := "c", bin := [3] }

/-- A store with the hook `b` under seq 1. -/
def holdsB : Store := (∅ : Store).write [.put (.hook 1) (.hook [2])]

section Tenants

variable {ctx : Ctx} {s : Store} {st st' : State} {records log : List Record}

/-- The tenant a chunk resolves for a record. -/
def nameOf (ctx : Ctx) (r : Record) : String := Tenants.normalize (tenantOf ctx r)

/-- The tenant has an ordinal. -/
def hasOrd (s : Store) (tenant : String) : Bool :=
  match s.get (.tenantOrd tenant) with
  | some (.num _) => true
  | _ => false

theorem lookup_isSome_iff {ords : List (String × Nat)} {tenant : String} :
    (ords.lookup tenant).isSome = true ↔ tenant ∈ ords.map Prod.fst := by
  induction ords with
  | nil => simp
  | cons p ords ih =>
    rw [lookup_cons, map_cons, mem_cons, ← ih]
    cases heq : tenant == p.1 with
    | true => simp [beq_iff_eq.1 heq]
    | false => simp [beq_eq_false_iff_ne.1 heq]

theorem mem_lookup_iff {tenant : String} {tenants : List String} :
    tenant ∈ (Tenants.lookup s tenants).map Prod.fst ↔
    tenant ∈ tenants ∧ hasOrd s tenant = true := by
  simp only [Tenants.lookup, mem_map, mem_filterMap, hasOrd]
  constructor
  · rintro ⟨⟨name, ord⟩, ⟨name', hname', hord⟩, rfl⟩
    split at hord
    next hget =>
      cases hord
      exact ⟨hname', by simp [hget]⟩
    · cases hord
  · rintro ⟨htenant, hord⟩
    split at hord
    next ord hget => exact ⟨(tenant, ord), ⟨tenant, htenant, by simp [hget]⟩, rfl⟩
    · cases hord

/-- Where there is room for all, every tenant gets an ordinal. -/
theorem allot_all {max next : Nat} {tenants : List String} (hnext : 0 < next)
    (h : tenants.length + next ≤ max + 1) :
    (Tenants.allot max next tenants).2.1 = next + tenants.length ∧
      (Tenants.allot max next tenants).1.map Prod.fst = tenants := by
  induction tenants generalizing next with
  | nil => exact ⟨rfl, rfl⟩
  | cons tenant tenants ih =>
    rw [length_cons] at h
    have hrest := ih (Nat.succ_pos next) (by omega)
    rw [Tenants.allot, if_neg (by omega)]
    simp only [map_cons, hrest, length_cons]
    exact ⟨by omega, trivial⟩

/-- The tenants of the chunk that have no ordinal yet, each once. -/
def chunkTenants (ctx : Ctx) (st : State) (records : List Record) : List String :=
  (records.map (nameOf ctx)).eraseDups.filter fun tenant => !hasOrd st.store tenant

theorem resolveTenants_eq : resolveTenants ctx st records =
    let new := Tenants.allocate st.nextOrd (chunkTenants ctx st records) ctx.tenantsMax
    (Tenants.lookup st.store (records.map (nameOf ctx)).eraseDups ++ new.1, new.2.1,
        new.2.2.1) := by
  have hnew : (records.map (nameOf ctx)).eraseDups.filter (fun t =>
      ((Tenants.lookup st.store (records.map (nameOf ctx)).eraseDups).lookup t).isNone) =
          chunkTenants ctx st records := by
    refine filter_congr fun tenant htenant => ?_
    rw [← Option.not_isSome, Bool.eq_iff_iff, Bool.not_eq_true', Bool.not_eq_true',
      ← Bool.not_eq_true, ← Bool.not_eq_true, lookup_isSome_iff, mem_lookup_iff]
    simp [htenant]
  simp only [resolveTenants]
  exact congrArg (fun new : List String =>
    let out := Tenants.allocate st.nextOrd new ctx.tenantsMax
    (Tenants.lookup st.store (records.map (nameOf ctx)).eraseDups ++ out.1, out.2.1, out.2.2.1))
      hnew

/-- There is room for the chunk's tenants. -/
def Room (ctx : Ctx) (st : State) (records : List Record) : Prop :=
  0 < st.nextOrd ∧ (chunkTenants ctx st records).length + st.nextOrd ≤ ctx.tenantsMax + 1

theorem Room.ords {r : Record} (h : Room ctx st records) (hr : r ∈ records) :
    ((resolveTenants ctx st records).1.lookup (nameOf ctx r)).isSome := by
  have hname : nameOf ctx r ∈ (records.map (nameOf ctx)).eraseDups :=
    mem_eraseDups.2 (mem_map_of_mem hr)
  rw [lookup_isSome_iff, resolveTenants_eq]
  simp only [map_append, mem_append, Tenants.allocate, (allot_all h.1 h.2).2, mem_lookup_iff]
  cases hord : hasOrd st.store (nameOf ctx r) with
  | true => exact .inl ⟨hname, rfl⟩
  | false => exact .inr (mem_filter.2 ⟨hname, by simp [hord]⟩)

end Tenants

end Ankusa.Intake.Recovery
