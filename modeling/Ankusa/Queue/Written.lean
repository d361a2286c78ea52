import Ankusa.Queue.Dispatch

set_option autoImplicit false

/-! # What an event writes

Three kinds of batches reach the store (`written_cases`): one numbers new hooks and carries the seq
marker past them (`Numbering`), the dedupe sweep deletes expired keys (`Op.Swept`), and every other
one moves rows of hooks the pipeline has read (`Deals`). What the pipeline has read is told by a
predicate on hooks: `Held P` says that all it has in memory is about hooks with `P`. -/

namespace Ankusa.Node

open Writer List Deliveries State

/-! ## Batches of new hooks -/

/-- The operations of a batch of `n` new hooks, with seqs from `next` on: the marker moves past
    them, and every row is of one of them. -/
structure Numbers (next n : Nat) (ops : List Op) : Prop where
  marker : .put .nextSeq (.num (next + n)) ∈ ops
  only : ∀ op ∈ ops, op.key.family = .marker → op = .put .nextSeq (.num (next + n))
  seqs : ∀ op ∈ ops, ∀ q, op.key.seq? = some q → next ≤ q ∧ q < next + n

variable {next : Nat} {ops : List Op}

theorem Numbers.get_nextSeq {n : Nat} (h : Numbers next n ops) (s : Store) :
    (s.write ops).get .nextSeq = some (.num (next + n)) := by
  refine KV.Map.get_write_put s h.marker fun op hop hk => h.only op hop ?_
  rw [hk]
  rfl

variable {cx : Cx} {op : Op}

/-- What an operation of a group's batch is about. -/
theorem Cx.Built.mem_ops {cfg : Config} (h : cx.Built cfg next) (hop : op ∈ cx.ops)
    (hk : op.key.family ≠ .shared) :
    (op ∈ cx.checked.dedupeOps ∧ op.key.family = .dedupe) ∨ op ∈ cx.built cfg next ∨
      op.key.family = .tenant ∨ op.key.family = .extra := by
  rw [h.ops] at hop
  have hmem := mem_of_mem_coalesce hop hk
  simp only [mem_append] at hmem
  rcases hmem with ((hmem | hmem) | hmem) | hmem
  · rcases h.inDedupe op hmem with ⟨hf, -⟩ | hf
    · exact .inl ⟨hmem, hf⟩
    · exact absurd hf hk
  · exact .inr (.inl hmem)
  · exact .inr (.inr (.inl (h.within_admission op hmem)))
  · exact .inr (.inr (.inr (within_extra h.extra op hmem)))

theorem Cx.Built.numbers {cfg : Config} (h : cx.Built cfg next) :
    Numbers next cx.checked.fresh.length cx.ops where
  marker := by
    rw [h.ops]
    refine mem_coalesce_of ?_ nofun
    simp only [mem_append]
    exact .inl (.inl (.inr mem_cons_self))
  only := by
    intro op hop hk
    rcases h.mem_ops hop (by rw [hk]; nofun) with ⟨-, hf⟩ | hmem | hf | hf
    · rw [hk] at hf
      cases hf
    · rcases mem_buildOps hmem with rfl | ⟨q, ⟨hf, -⟩ | hf, -⟩
      · rfl
      all_goals
        rw [hk] at hf
        cases hf
    all_goals
      rw [hk] at hf
      cases hf
  seqs := by
    intro op hop q hq
    have hk := Key.seq?_eq_some.1 hq
    rcases h.mem_ops hop (by rw [hk]; nofun) with ⟨-, hf⟩ | hmem | hf | hf
    · rw [hk] at hf
      cases hf
    · exact buildOps_seq hmem hq
    all_goals
      rw [hk] at hf
      cases hf

/-- A row of a group's batch is one its undo deletes. -/
theorem Cx.Built.puts {cfg : Config} (h : cx.Built cfg next)
    (hop : op ∈ cx.ops) (hc : op.creates = true) {q : Nat} (hq : op.key.seq? = some q)
    (upto : Nat) : (Writer.Group.mk upto cx.undo).Puts op.key := by
  have hk := Key.seq?_eq_some.1 hq
  have hbuilt : op ∈ cx.built cfg next := by
    rcases h.mem_ops hop (by rw [hk]; nofun) with ⟨-, hf⟩ | hmem | hf | hf
    · rw [hk] at hf
      cases hf
    · exact hmem
    all_goals
      rw [hk] at hf
      cases hf
  have hundo : cx.built cfg next ∈ cx.undo := by
    rw [h.undo]
    exact mem_cons_of_mem _ (mem_singleton_self _)
  obtain ⟨v, hv⟩ := KV.Op.eq_put hc (h.undo_plain hundo hbuilt (by rw [hk]; nofun))
  exact ⟨_, hundo, v, hv ▸ hbuilt⟩

theorem ownedBy_redriveRows (adm : Admission) (now : Ms) (e : RedriveEntry) (seq : Nat) :
    OwnedBy seq (redriveRows adm now e seq) :=
  .cons (.inl ⟨rfl, rfl⟩) (Within.flatMap fun _ _ => ownedBy_newOps _ _ _ _ _ _ _)

variable {now : Ms} {extra : List Op} {entries : List RedriveEntry} {adm : Admission} {index : Nat}
  {c : Commit}

/-- What an operation of an archive replay's batch is about. -/
theorem mem_redriveOps (hadm : Within (fun op => op.key.family = .tenant) adm.ops)
    (hextra : Within (fun op => op.key.family = .extra) extra)
    (hop : op ∈ redriveOps entries next now adm extra) :
    op = .put .nextSeq (.num (next + entries.length)) ∨ op.key.family = .shared ∨
      (∃ q, op.key.family = .hook q ∧ next ≤ q ∧ q < next + entries.length) ∨
      op.key.family = .tenant ∨ op.key.family = .extra := by
  by_cases hk : op.key.family = .shared
  · exact .inr (.inl hk)
  have hop := mem_of_mem_coalesce hop hk
  simp only [cons_append, mem_cons, mem_append] at hop
  rcases hop with rfl | (hop | hop) | hop
  · exact .inl rfl
  · rcases mem_foldl_append hop
      with ⟨p, hp, hop⟩ | hop
    · rcases ownedBy_redriveRows adm now p.1 p.2 op hop with ⟨hf, -⟩ | hf
      · exact .inr (.inr (.inl ⟨p.2, hf, zipIdx_bounds hp⟩))
      · exact .inr (.inl hf)
    · cases hop
  · exact .inr (.inr (.inr (.inl (hadm op hop))))
  · exact .inr (.inr (.inr (.inr (hextra op hop))))

theorem redrive_numbers (hadm : Within (fun op => op.key.family = .tenant) adm.ops)
    (hextra : Within (fun op => op.key.family = .extra) extra) :
    Numbers next entries.length (redriveOps entries next now adm extra) := by
  refine ⟨mem_coalesce_of mem_cons_self nofun, ?_, ?_⟩
  · intro op hop hk
    rcases mem_redriveOps hadm hextra hop with rfl | hf | ⟨q, hf, -⟩ | hf | hf
    · rfl
    all_goals
      rw [hk] at hf
      cases hf
  · intro op hop q hq
    rw [Key.seq?_eq_some] at hq
    rcases mem_redriveOps hadm hextra hop with rfl | hf | ⟨p, hf, hp⟩ | hf | hf
    · cases hq
    · rw [hq] at hf
      cases hf
    · rw [hq] at hf
      cases hf
      exact hp
    all_goals
      rw [hq] at hf
      cases hf

/-! ## Dedupe entries of a batch -/

theorem mem_commitsOf {mono : Ms} (h : c ∈ commitsOf ops index mono) :
    .put c.uKey (.expiry c.expires c.id) ∈ ops ∧ c.index = index ∧ c.wrote = mono := by
  obtain ⟨op, hop, heq⟩ := mem_filterMap.1 h
  split at heq
  · cases heq
    exact ⟨hop, rfl, rfl⟩
  · cases heq

theorem commit_of_keyPuts {env : Env} {key : String} {ttl : Ms}
    (h : keyPuts env key ttl now ⊆ ops) (index : Nat) (mono : Ms) :
    ⟨tenantOf env, env.sourceId, key, now + ttl, env.id, index, mono⟩ ∈ commitsOf ops index mono :=
  mem_filterMap.2 ⟨_, h mem_cons_self, rfl⟩

theorem paired_commit (h : Paired ops) (hop : op ∈ ops)
    (hc : op.creates = true) (hf : op.key.family = .dedupe) (index : Nat) (mono : Ms) :
    ∃ c ∈ commitsOf ops index mono, c.uKey = op.key ∨ c.expiryKey = op.key := by
  obtain ⟨env, key, ttl, now, hmem, hsub⟩ := h op hop hc hf
  refine ⟨_, commit_of_keyPuts hsub index mono, ?_⟩
  rcases mem_pair.1 hmem with rfl | rfl
  · exact .inl rfl
  · exact .inr rfl

/-- A recorded entry was put with its place in the expiry order. -/
theorem paired_expiry (h : Paired ops) {mono : Ms}
    (hc : c ∈ commitsOf ops index mono) : .put c.expiryKey .empty ∈ ops := by
  obtain ⟨hput, -, -⟩ := mem_commitsOf hc
  obtain ⟨env, key, ttl, now, hmem, hsub⟩ := h _ hput rfl rfl
  rcases mem_pair.1 hmem with heq | heq
  · have hexpiry := hsub (mem_cons_of_mem _ mem_cons_self)
    simp only [Commit.uKey, uKey, KV.Op.put.injEq, Key.dedupe.injEq, Val.expiry.injEq] at heq
    simpa only [Commit.expiryKey, expiryKey, heq.1.1, heq.1.2.1, heq.1.2.2, heq.2.1] using hexpiry
  · cases heq

theorem Cx.Built.paired {cfg : Config} (h : cx.Built cfg next) : Paired cx.checked.dedupeOps := by
  obtain ⟨stored, usage, enforce, items, heq⟩ := h.checked
  rw [heq]
  exact paired_dedupeOps _ _ _ _ _ _ _

theorem Cx.Built.dedupe_mem {cfg : Config} (h : cx.Built cfg next)
    (hop : op ∈ cx.ops) (hf : op.key.family = .dedupe) : op ∈ cx.checked.dedupeOps := by
  rcases h.mem_ops hop (by rw [hf]; nofun) with ⟨hmem, -⟩ | hmem | hk | hk
  · exact hmem
  · rcases mem_buildOps hmem with rfl | ⟨q, ⟨hk, -⟩ | hk, -⟩
    · cases hf
    all_goals
      rw [hf] at hk
      cases hk
  all_goals
    rw [hf] at hk
    cases hk

/-- The operation deletes a dedupe key, or counts. -/
def Op.Swept (op : Op) : Prop :=
  (op.key.family = .dedupe ∧ op.creates = false) ∨ op.key.family = .shared

/-- The dedupe sweep only deletes dedupe keys, and counts. -/
theorem swept_expireOps (store : Store) (entries : List Expired) :
    Within Op.Swept (expireOps store entries).1 := by
  refine within_coalesce (Within.append (Within.append (Within.flatMap fun e _ => ?_) ?_) ?_)
    fun _ _ _ => .inr rfl
  · split_ifs
    · exact .cons (.inl ⟨rfl, rfl⟩) (.cons (.inl ⟨rfl, rfl⟩) .nil)
    · exact .cons (.inl ⟨rfl, rfl⟩) .nil
  · exact Counters.within (fun _ _ _ => .inr rfl) _
  · intro op hop
    obtain ⟨p, -, rfl⟩ := Counters.mem_merges hop
    exact .inr rfl

theorem deals_extra {P : Nat → Prop} (h : extra.all extraOk = true) : Deals P extra := by
  intro op hop
  unfold Op.Dealt
  rw [within_extra h op hop]
  trivial

/-! ## What the pipeline holds -/

/-- All the pipeline has in memory, and all it ever claimed, is about hooks with `P`. -/
structure Held (P : Nat → Prop) (s : State) : Prop where
  jobs : ∀ j ∈ s.dispatch.dues ++ s.dispatch.jobs, P j.due.seq
  claimed : ∀ d ∈ s.ghost.claimed, P d.seq
  lane : Deals P s.dispatch.laneOps
  pending : ∀ batch ∈ s.dispatch.pending, Deals P (BatchOp.toOps batch)

/-- The rows dispatch reads beside due rows, durable lane members and claims, are of hooks with
    `P`. -/
structure Reads (P : Nat → Prop) (s : State) : Prop where
  member : ∀ {ord lane seq sink}, s.store.get (.laneMember ord lane seq sink) ≠ none →
    seq ≤ s.marks.durable → P seq
  inflight : ∀ {ord seq sink}, s.store.get (.inflight ord seq sink) ≠ none → P seq

/-- The due rows a claim round reads. -/
def takes (s : State) : Event → List Deliveries.Due
  | .take ord floor limit budget =>
    match s.dispatch.scan with
    | .opened ceiling => dueForTenant s.store ord ceiling floor limit budget
    | _ => []
  | _ => []

section

variable {cfg : Config} {s t : State} {P : Nat → Prop}

theorem Held.mono {Q : Nat → Prop} (h : Held P s) (hPQ : ∀ q, P q → Q q) : Held Q s :=
  ⟨fun j hj => hPQ _ (h.jobs j hj), fun d hd => hPQ _ (h.claimed d hd),
    h.lane.mono fun _ hop => hop.mono hPQ,
    fun b hb => (h.pending b hb).mono fun _ hop => hop.mono hPQ⟩

/-- What a batch of new hooks leaves, beside the batch itself. -/
structure Numbering (s t : State) (e : Event) (n : Nat) (now : Ms) : Prop where
  ops : Numbers s.writer.nextSeq n (written s e)
  undo : unwritten s e = []
  next : t.writer.nextSeq = s.writer.nextSeq + n
  birth : t.ghost.birth = s.born n now
  covered : s.writer.nextSeq + n - 1 ≤ t.marks.durable ∨ ∃ g, newGroup s e = some g ∧
    ∀ op ∈ written s e, op.creates = true → ∀ q, op.key.seq? = some q → g.Puts op.key
  dedupe : ∀ op ∈ written s e, op.creates = true → op.key.family = .dedupe →
    ∃ c ∈ landed s e, c.uKey = op.key ∨ c.expiryKey = op.key

theorem write_numbering (hs : Sound cfg s) (h : write s true = some t) :
    Deals P (written s (.write true)) ∨ ∃ n now, Numbering s t (.write true) n now := by
  have hok := hs.phase.ok
  cases hphase : s.writer.phase with
  | applied cx =>
    rw [hphase] at hok
    simp only [write, hphase, if_true] at h
    cases h
    refine .inr ⟨cx.checked.fresh.length, cx.now, ?_, rfl, ?_, rfl,
      .inr ⟨⟨s.writer.nextSeq + cx.checked.fresh.length - 1, cx.undo⟩, ?_, ?_⟩, ?_⟩
    · simpa only [written, hphase] using hok.1.numbers
    · simp [setPhase, submit, land, WriterState.consume]
    · simp only [newGroup, hphase]
    · simp only [written, hphase]
      exact fun op hop hc q hq => hok.1.puts hop hc hq _
    · simp only [written, landed, hphase]
      exact fun op hop hc hf => paired_commit hok.1.paired (hok.1.dedupe_mem hop hf) hc hf _ _
  | built cx =>
    rw [hphase] at hok
    simp only [write, hphase, if_true] at h
    split_ifs at h
    cases h
    refine .inr ⟨cx.checked.fresh.length, cx.now, ?_, rfl, ?_, rfl, .inl ?_, ?_⟩
    · simpa only [written, hphase] using hok.1.numbers
    · simp [setPhase, answer, land, WriterState.consume]
    · exact le_max_right _ _
    · simp only [written, landed, hphase]
      exact fun op hop hc hf => paired_commit hok.1.paired (hok.1.dedupe_mem hop hf) hc hf _ _
  | extraOnly =>
    rw [hphase] at hok
    simp only [written, hphase]
    exact .inl (deals_extra hok.2)
  | redriving call count ops adm now =>
    rw [hphase] at hok
    obtain ⟨-, ⟨store, closed, cached, nextOrd, max, tenants, rfl⟩, entries, extra, rfl,
        hextra, rfl⟩ := hok
    simp only [write, hphase, if_true] at h
    cases h
    refine .inr ⟨entries.length, now, ?_, rfl, ?_, rfl, .inl ?_, ?_⟩
    · simp only [written, hphase]
      exact redrive_numbers (within_admitOps _ _ _ _ _ _) (within_extra hextra)
    · simp [setPhase, answer, WriterState.consume]
    · exact le_max_right _ _
    · simp only [written, hphase]
      intro op hop hc hf
      rcases mem_redriveOps (within_admitOps _ _ _ _ _ _) (within_extra hextra) hop with
        rfl | hk | ⟨q, hk, -⟩ | hk | hk
      · cases hf
      all_goals
        rw [hf] at hk
        cases hk
  | _ =>
    simp only [write, hphase] at h
    cases h

variable {e : Event}

/-- An event writes a batch of new hooks, sweeps the dedupe index, or moves rows the pipeline has
    read. -/
theorem written_cases (hs : Sound cfg s) (hh : Held P s) (hr : Reads P s)
    (h : step cfg s e = some t) :
    Deals P (written s e) ∨ (e = .write true ∧ ∃ n now, Numbering s t e n now) ∨
      (e = .expireDedupe true ∧ Within Op.Swept (written s e)) := by
  cases e with
  | write ok =>
    cases ok with
    | false => exact .inl .nil
    | true => exact (write_numbering hs h).imp_right fun hnum => .inl ⟨rfl, hnum⟩
  | expireDedupe ok =>
    cases ok with
    | false => exact .inl .nil
    | true =>
      refine .inr (.inr ⟨rfl, ?_⟩)
      simp only [written]
      split_ifs
      · exact .nil
      · exact swept_expireOps _ _
  | laneWrite ok =>
    cases ok with
    | false => exact .inl .nil
    | true => exact .inl hh.lane
  | claimWrite ok =>
    cases ok with
    | false => exact .inl .nil
    | true =>
      exact .inl (deals_claim (forall_mem_map.2 fun j hj => hh.jobs j (mem_append_left _ hj)))
  | flush i ok =>
    cases ok with
    | false => exact .inl .nil
    | true =>
      refine .inl ?_
      simp only [written]
      split
      next batch hbatch =>
        refine deals_coalesce (Lanes.deals_expand _ (fun _ _ _ _ => hr.member) ?_ _)
        exact hh.pending batch (mem_of_getElem? hbatch)
      · exact .nil
  | recover => exact .inl (deals_recoverInflight _ fun _ _ _ => hr.inflight)
  | _ => exact .inl .nil

/-- What the pipeline holds after an event. -/
theorem Held.step (hh : Held P s) (hr : Reads P s) (hd : ∀ d ∈ takes s e, P d.seq)
    (h : Node.step cfg s e = some t) : Held P t := by
  cases he : e.dispatches with
  | false =>
    have hdispatch := (step_effect h).dispatch he
    have hclaimed := (step_effect h).claimed he
    exact ⟨hdispatch ▸ hh.jobs, hclaimed ▸ hh.claimed, hdispatch ▸ hh.lane, hdispatch ▸ hh.pending⟩
  | true =>
    cases e with
    | scanClock =>
      simp only [Node.step, scanClock] at h
      split at h
      · cases h
        exact { hh with }
      · cases h
    | scanMark =>
      simp only [Node.step, scanMark] at h
      split at h
      all_goals first
        | (obtain rfl := Option.some.inj h; exact { hh with })
        | cases h
    | scanClose =>
      simp only [Node.step, scanClose] at h
      split at h
      · cases h
        exact { hh with }
      · cases h
    | laneRead =>
      simp only [Node.step, laneRead] at h
      split at h
      · cases h
        exact { hh with lane := deals_coalesce (Lanes.deals_triage _ fun _ _ => hr.member) }
      · cases h
    | laneWrite ok =>
      simp only [Node.step, laneWrite, Option.some.injEq] at h
      cases ok <;> subst h <;> exact { hh with lane := .nil }
    | take =>
      simp only [Node.step, take] at h
      split at h
      next hscan =>
        cases h
        refine { hh with jobs :=
          forall_mem_append.2 ⟨forall_mem_map.2 fun d hmem => ?_,
            fun j hj => hh.jobs j (mem_append_right _ hj)⟩ }
        exact hd d (by simpa only [takes, hscan] using hmem)
      · cases h
    | claimWrite ok =>
      cases ok with
      | true =>
        cases h
        exact ⟨fun j hj => hh.jobs j hj, forall_mem_append.2
          ⟨forall_mem_map.2 fun j hj => hh.jobs j (mem_append_left _ hj), hh.claimed⟩, hh.lane,
          hh.pending⟩
      | false =>
        cases h
        exact { hh with jobs := fun j hj => hh.jobs j (mem_append_right _ hj) }
    | result i o =>
      obtain ⟨j, hj, rfl⟩ := Option.map_eq_some_iff.1 h
      have hjob : P j.due.seq := hh.jobs j (mem_append_right _ (mem_of_getElem? hj))
      obtain ⟨hwindow, hrunning⟩ := forall_mem_append.1 hh.jobs
      exact ⟨forall_mem_append.2 ⟨hwindow, fun j hj => hrunning j (mem_of_mem_eraseIdx hj)⟩,
        hh.claimed, hh.lane,
        forall_mem_append.2 ⟨hh.pending, forall_mem_singleton.2 (Outcome.deals_batch hjob o)⟩⟩
    | flush i ok =>
      obtain ⟨batch, hbatch, rfl⟩ := Option.map_eq_some_iff.1 h
      cases ok with
      | true =>
        exact { hh with pending := fun b hb => hh.pending b (mem_of_mem_eraseIdx hb) }
      | false => exact { hh with }
    | recover =>
      cases h
      exact ⟨forall_mem_nil _, hh.claimed, .nil, (forall_mem_nil _)⟩
    | _ => cases he

theorem Held.boot (store : Store) (closed : List String) (wall mono : Ms) :
    Held P (boot store closed wall mono) :=
  ⟨forall_mem_nil _, forall_mem_nil _, .nil, (forall_mem_nil _)⟩

theorem mem_takes {d : Deliveries.Due} (h : d ∈ takes s e) :
    s.store.get (.due d.ord d.time d.seq d.sink) = some (.due d.size d.kind) := by
  unfold takes at h
  split at h
  · split at h
    · exact (mem_dueForTenant h).1
    · cases h
  · cases h

end

end Ankusa.Node
