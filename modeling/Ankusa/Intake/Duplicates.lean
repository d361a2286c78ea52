import Ankusa.Intake.DualRuns
import Ankusa.Queue.Dedupe

set_option autoImplicit false

/-! # Whom a duplicate is answered with in `wal: :dual`

Wherever the writer finds a dedupe entry (the store, the keys it remembers, the reads its callers
bring, the batches kept to be applied again), the entry names a hook that is confirmed in the log
and kept on disk, a hook that has no record at all, or a hook whose own pending entry holds the same
triple (`Named`). A group asks the pending set first, so only a hook of the first two kinds is named
in its reply.

Three things are not covered: a quarantine release that brings a pending triple, one whose write is
reported as failed and lands all the same, and a carried batch that is completed while a fence may
still delete its rows (`Orderly`). A release is not asked about the pending set, and what it is
answered is not claimed to be confirmed. -/

namespace Ankusa.Dual

open KV Writer Pending List Table Run

/-! ## What a dedupe entry names -/

/-- What is known of the hooks: which are pending, on disk, in the log or without a record, and the
    groups no fsync has covered. -/
structure Standing where
  table : Table
  durable : List String
  logged : List String
  bare : List String
  groups : List Tracked
  mark : Nat

/-- What `Standing` is about. -/
def State.standing (s : State) : Standing :=
  ⟨s.table, s.ghost.durable, s.ghost.logged, s.ghost.bare, s.unsynced, s.durableMark⟩

namespace Standing

/-- The rows of the hook are on disk, and no fence will take them back. -/
def Kept (v : Standing) (id : String) : Prop :=
  id ∈ v.durable ∧ ∀ g ∈ v.groups, v.mark < g.upto → id ∉ g.ids

/-- The hook is confirmed in both places, or it has no record. -/
def Settled (v : Standing) (id : String) : Prop := id ∈ v.bare ∨ v.Kept id ∧ id ∈ v.logged

/-- What a dedupe entry of the triple may name. -/
def Named (v : Standing) (k : Triple) (id : String) : Prop :=
  v.Settled id ∨ ∃ q c, v.table.core q = some c ∧ c.id = id ∧ c.triple = some k

/-- The hooks of a written group are kept, or the group is listed and the mark is below it. -/
def Covered (v : Standing) (ids : List String) (upto : Nat) : Prop :=
  (∀ id ∈ ids, v.Kept id) ∨ v.mark < upto ∧ ∃ g ∈ v.groups, g.upto = upto ∧ g.ids = ids

/-- What is kept, settled and named stays so. -/
structure Le (v v' : Standing) : Prop where
  bare : v.bare ⊆ v'.bare
  kept : ∀ id, v.Kept id → v'.Kept id
  settled : ∀ id, v.Settled id → v'.Settled id
  named : ∀ k id, v.Named k id → v'.Named k id

variable {v v' : Standing}

/-- More is known of the hooks: an entry is still pending, or its hook is settled. -/
theorem Le.of (hkept : ∀ id, v.Kept id → v'.Kept id) (hbare : v.bare ⊆ v'.bare)
    (hlogged : v.logged ⊆ v'.logged) (hcore : ∀ q c, v.table.core q = some c →
      (∃ c', v'.table.core q = some c' ∧ c'.id = c.id ∧ c'.triple = c.triple) ∨ v'.Settled c.id) :
        v.Le v' := by
  have hsettled : ∀ id, v.Settled id → v'.Settled id := by
    rintro id (hb | ⟨hk, hl⟩)
    · exact .inl (hbare hb)
    · exact .inr ⟨hkept id hk, hlogged hl⟩
  refine ⟨hbare, hkept, hsettled, ?_⟩
  rintro k id (hs | ⟨q, c, hc, rfl, hk⟩)
  · exact .inl (hsettled id hs)
  · rcases hcore q c hc with ⟨c', hc', hid, htriple⟩ | hs
    · exact .inr ⟨q, c', hc', hid, htriple.trans hk⟩
    · exact .inl hs

/-- The entries of a store name what they may. -/
def Says (v : Standing) (store : Store) : Prop :=
  ∀ k time id, store.get (keyOf k) = some (.expiry time id) → v.Named k id

/-- The entries a batch puts name what they may. -/
def SaysOps (v : Standing) (ops : List Op) : Prop :=
  ∀ k time id, .put (keyOf k) (.expiry time id) ∈ ops → v.Named k id

theorem Says.empty (v : Standing) : v.Says ∅ := by
  intro k time id h
  simp at h

variable {ops : List Op} {store : Store}

theorem Says.write (h : v.Says store) (hops : v.SaysOps ops) : v.Says (store.write ops) := by
  intro k time id hget
  have hnum : ∀ n, Val.expiry time id ≠ Num.ofInt n := fun n heq => Val.noConfusion heq
  rcases Map.get_write_of_not_num hnum hget with hget | hput
  · exact h k time id hget
  · exact hops k time id hput

theorem Says.le (h : v.Says store) (hle : v.Le v') : v'.Says store :=
  fun k time id hget => hle.named k id (h k time id hget)

theorem SaysOps.le (h : v.SaysOps ops) (hle : v.Le v') : v'.SaysOps ops :=
  fun k time id hput => hle.named k id (h k time id hput)

theorem SaysOps.of_subset {ops' : List Op} (h : v.SaysOps ops) (hsub : ops' ⊆ ops) :
    v.SaysOps ops' :=
  fun k time id hput => h k time id (hsub hput)

theorem SaysOps.deletes (v : Standing) (keys : List Key) : v.SaysOps (keys.map Op.delete) := by
  intro k time id hput
  obtain ⟨k', _, heq⟩ := mem_map.1 hput
  cases heq

end Standing

/-! ## What a group finds -/

section Group

variable (cfg : Config) (s : State) (calls : List Node.Call)
  (prefetch : List (Key × Option Val)) (now : Ms) (extra : List Op) {k : Triple}

/-- A dedupe entry of a batch is one of the dedupe check. -/
theorem cx_dedupe_put (hextra : extra.all Node.extraOk) {v : Val}
    (h : .put (keyOf k) v ∈ (s.cx cfg calls prefetch now extra).ops) :
    .put (keyOf k) v ∈ (s.cx cfg calls prefetch now extra).checked.dedupeOps := by
  have hmem := Deliveries.mem_of_mem_coalesce h nofun
  simp only [mem_append] at hmem
  rcases hmem with ((hmem | hmem) | hmem) | hmem
  · exact hmem
  · rcases mem_buildOps hmem with heq | ⟨q, ⟨hf, -⟩ | hf, -⟩
    · cases heq
    · cases hf
    · cases hf
  · cases within_admitOps _ _ _ _ _ _ _ hmem
  · cases Node.within_extra hextra _ hmem

/-- An entry the check puts names a fresh hook with a record under the same triple, or without
    one. -/
theorem cx_put_named (hids : (hookIds calls).Nodup) {time : Ms} {id : String}
    (h : .put (keyOf k) (.expiry time id) ∈ (s.cx cfg calls prefetch now extra).checked.dedupeOps) :
    id ∈ (s.cx cfg calls prefetch now extra).bare ∨
      ∃ r ∈ (s.cx cfg calls prefetch now extra).records, r.id = id ∧ r.triple = some k := by
  obtain ⟨i, hi, hkey, rfl⟩ := (dedupeCheck_picked _ _).2.2.2.2 _ time id h
  by_cases hrec : i.env.id ∈ (s.cx cfg calls prefetch now extra).records.map Rec.id
  · obtain ⟨r, hr, hid⟩ := mem_map.1 hrec
    obtain ⟨j, hj, hjid, htriple⟩ := (cx_fits cfg s calls prefetch now extra hids).named r hr
    -- No two fresh hooks have one id, so the record is the hook's.
    have hnodup : (s.cx cfg calls prefetch now extra).ids.Nodup :=
      (cx_ids_sublist cfg s calls prefetch now extra).nodup hids
    obtain rfl : j = i := inj_on_of_nodup_map hnodup hj hi (hjid.symm.trans hid)
    rw [dedupeKey_triple] at hkey
    obtain ⟨k', hk', heq⟩ := Option.map_eq_some_iff.1 hkey
    exact .inr ⟨r, hr, hid, htriple.trans (keyOf_injective heq ▸ hk')⟩
  · exact .inl (mem_filter.2 ⟨mem_map_of_mem hi, by simpa using hrec⟩)

/-- A duplicate in the results of a group names one of its fresh hooks, or the hook of an entry
    whose triple is not pending. -/
theorem cx_duplicates {env : Env} (h : .duplicate env ∈ (s.cx cfg calls prefetch now []).results) :
    env.id ∈ (s.cx cfg calls prefetch now []).ids ∨ ∃ k time, s.table.keyed k = false ∧
      storedFor s.recent prefetch s.store (keyOf k) = some (.expiry time env.id) := by
  obtain ⟨m, hm, hsettles⟩ := mem_reassemble h
  cases m with
  | fresh =>
    obtain ⟨q, heq⟩ := hsettles
    cases heq
  | done r =>
    obtain rfl : r = .duplicate env := hsettles.symm
    rcases (dedupeCheck_picked _ _).2.2.1 env hm with ⟨i, hi, hid⟩ |
      ⟨i, hi, key, hkey, time, hstored, _⟩
    · exact .inl (hid ▸ mem_map_of_mem hi)
    · rw [dedupeKey_triple] at hkey
      obtain ⟨k, hk, rfl⟩ := Option.map_eq_some_iff.1 hkey
      exact .inr ⟨k, time, unkeyed_of_tag (mem_filter.1 hi).2 hk, hstored⟩

end Group

/-! ## The invariant -/

/-- Where dedupe entries and answers are. -/
structure Memory where
  store : Store
  recent : Recent
  queue : List Node.Call
  flights : List Batch
  waiting : List Waiting
  sent : List Sent
  ids : List String

/-- Where dedupe entries and answers are kept. -/
def State.memory (s : State) : Memory :=
  ⟨s.store, s.recent, s.queue, s.inflight, s.waiting, s.ghost.sent, s.ghost.ids⟩

/-- What a batch in flight says is true. -/
structure Batch.Stands (b : Batch) (v : Standing) : Prop where
  ops : v.SaysOps b.cx.ops
  duplicates : ∀ env, .duplicate env ∈ b.cx.results → v.Settled env.id ∨ env.id ∈ b.cx.ids
  fresh : ∀ id ∈ b.cx.ids, id ∈ v.bare ∨ id ∈ b.cx.records.map Rec.id
  named : ∀ r ∈ b.cx.records, r.id ∈ b.cx.ids
  stored : b.local_ = .ok → ∀ id ∈ b.cx.ids, v.Kept id
  applied : b.local_ = .pending → b.undone = false → v.Covered b.cx.ids b.cx.upto

/-- The duplicates among answers name settled hooks. -/
def Settles (v : Standing) (as : List Answer) : Prop :=
  ∀ env, .duplicate env ∈ as → v.Settled env.id

/-- Every dedupe entry and every answer names a hook that stands. -/
structure Truthful (v : Standing) (m : Memory) : Prop where
  store : v.Says m.store
  recent : v.Says m.recent.cur ∧ v.Says m.recent.old
  reads : ∀ c ∈ m.queue, ∀ k time id, (keyOf k, some (.expiry time id)) ∈ c.prefetch → v.Named k id
  plans : ∀ b plan, v.table.batches.get b = some plan → v.SaysOps plan.ops
  flights : ∀ b ∈ m.flights, b.Stands v
  waiting : ∀ x ∈ m.waiting, Settles v x.answers
  sent : ∀ x ∈ m.sent, x.release = false → ∀ as, x.reply = .ok as → Settles v as
  stored : ∀ q c, v.table.core q = some c → c.local_ = .ok → v.Kept c.id
  known : ∀ id, (id ∈ v.durable ∨ ∃ g ∈ v.groups, id ∈ g.ids) → id ∈ m.ids ∧ id ∉ hookIds m.queue
  disjoint : v.groups.Pairwise fun g g' => ∀ id ∈ g.ids, id ∉ g'.ids

theorem Truthful.start : Truthful State.start.standing State.start.memory where
  store := .empty _
  recent := ⟨.empty _, .empty _⟩
  reads _ hc := absurd hc not_mem_nil
  plans _ _ h := by
    simp [State.start, State.standing, Table.empty] at h
  flights _ hb := absurd hb not_mem_nil
  waiting _ hx := absurd hx not_mem_nil
  sent _ hx := absurd hx not_mem_nil
  stored q c hc := by
    rw [show State.start.standing.table = Table.empty from rfl, core_empty] at hc
    cases hc
  known id h := by
    simp [State.start, State.standing] at h
  disjoint := .nil

variable {extra : List Op} {v v' : Standing} {m : Memory} {s s' : State} {cx : Cx}

theorem Settles.le {as : List Answer} (h : Settles v as) (hle : v.Le v') : Settles v' as :=
  fun env henv => hle.settled _ (h env henv)

variable {b : Batch}

theorem Batch.Stands.le (h : b.Stands v) (hle : v.Le v')
    (hcovered : b.local_ = .pending → b.undone = false → v'.Covered b.cx.ids b.cx.upto) :
    b.Stands v' where
  ops := h.ops.le hle
  duplicates env henv := (h.duplicates env henv).imp (hle.settled _) id
  fresh id hid := (h.fresh id hid).imp (fun hb => hle.bare hb) fun hr => hr
  named := h.named
  stored hok id hid := hle.kept id (h.stored hok id hid)
  applied := hcovered

/-- More is known of the hooks. -/
theorem Truthful.le (h : Truthful v m) (hle : v.Le v')
    (hplans : ∀ b plan, v'.table.batches.get b = some plan → v'.SaysOps plan.ops)
    (hstored : ∀ q c, v'.table.core q = some c → c.local_ = .ok → v'.Kept c.id)
    (hcovered : ∀ ids upto, v.Covered ids upto → v'.Covered ids upto)
    (hknown : ∀ id, (id ∈ v'.durable ∨ ∃ g ∈ v'.groups, id ∈ g.ids) →
      id ∈ m.ids ∧ id ∉ hookIds m.queue)
    (hdisjoint : v'.groups.Pairwise fun g g' => ∀ id ∈ g.ids, id ∉ g'.ids) : Truthful v' m where
  store := h.store.le hle
  recent := ⟨h.recent.1.le hle, h.recent.2.le hle⟩
  reads c hc k time id hmem := hle.named k id (h.reads c hc k time id hmem)
  plans := hplans
  flights b hb := (h.flights b hb).le hle fun hlocal hundone =>
    hcovered _ _ ((h.flights b hb).applied hlocal hundone)
  waiting x hx := (h.waiting x hx).le hle
  sent x hx hrel as has := (h.sent x hx hrel as has).le hle
  stored := hstored
  known := hknown
  disjoint := hdisjoint

variable {logged : List String} {mark : Nat} {g : Tracked} {puts : List Op}

/-- The groups and what is on disk stay. -/
theorem Truthful.retable (h : Truthful v m) {table : Table} {bare : List String}
    (hlogged : v.logged ⊆ logged) (hbare : v.bare ⊆ bare) (hcore : ∀ q c, v.table.core q = some c →
      (∃ c', table.core q = some c' ∧ c'.id = c.id ∧ c'.triple = c.triple) ∨
        Standing.Settled { v with table, logged, bare } c.id)
    (hplans : ∀ b plan, table.batches.get b = some plan → v.table.batches.get b = some plan ∨
      Standing.SaysOps { v with table, logged, bare } plan.ops)
    (hstored : ∀ q c, table.core q = some c → c.local_ = .ok → v.Kept c.id) :
    Truthful { v with table, logged, bare } m := by
  have hle : v.Le { v with table, logged, bare } := .of (fun _ => id) hbare hlogged hcore
  refine h.le hle (fun b plan hb => ?_) hstored (fun _ _ => id) h.known h.disjoint
  exact (hplans b plan hb).elim (fun hold => (h.plans b plan hold).le hle) id

/-- The standing once everything that was applied is on disk, these hooks too, and the mark is
    raised. -/
def Standing.persist (v : Standing) (ids : List String) (mark : Nat) : Standing :=
  { v with durable := ids ++ (v.groups.flatMap Tracked.ids ++ v.durable), mark }

theorem Standing.Le.persist (ids : List String) (hmark : v.mark ≤ mark) :
    v.Le (v.persist ids mark) := by
  refine .of (fun id hid => ⟨?_, fun g hg hlt => hid.2 g hg (hmark.trans_lt hlt)⟩) (Subset.refl _)
    (Subset.refl _) fun q c hc => .inl ⟨c, hc, rfl, rfl⟩
  exact mem_append_right _ (mem_append_right _ hid.1)

theorem Truthful.persist (h : Truthful v m) (ids : List String) (hmark : v.mark ≤ mark)
    (hids : ∀ id ∈ ids, id ∈ m.ids ∧ id ∉ hookIds m.queue) : Truthful (v.persist ids mark) m := by
  have hle := Standing.Le.persist ids hmark
  refine h.le hle (fun b plan hb => (h.plans b plan hb).le hle)
    (fun q c hc hok => hle.kept _ (h.stored q c hc hok)) (fun ids' upto hcov => ?_)
    (fun id hid => ?_) h.disjoint
  · rcases hcov with hall | ⟨hlt, g, hg, rfl, rfl⟩
    · exact .inl fun id hid => hle.kept id (hall id hid)
    by_cases hlt' : mark < g.upto
    · exact .inr ⟨hlt', g, hg, rfl, rfl⟩
    -- The mark has passed the group: its hooks are on disk, and no group above it has them.
    refine .inl fun id hid => ⟨?_, fun g' hg' hlt'' hid' => ?_⟩
    · exact mem_append_right _ (mem_append_left _ (mem_flatMap.2 ⟨g, hg, hid⟩))
    · have hne : g ≠ g' := fun heq => hlt' (heq ▸ hlt'')
      have : Std.Symm fun g g' : Tracked => ∀ id ∈ g.ids, id ∉ g'.ids :=
        ⟨fun _ _ hR id' hid' hid'' => hR id' hid'' hid'⟩
      exact h.disjoint.forall hg hg' hne id hid hid'
  · rcases hid with hid | hid
    · rcases mem_append.1 hid with hid | hid
      · exact hids id hid
      · rcases mem_append.1 hid with hid | hid
        · obtain ⟨g, hg, hid⟩ := mem_flatMap.1 hid
          exact h.known id (.inr ⟨g, hg, hid⟩)
        · exact h.known id (.inl hid)
    · exact h.known id (.inr hid)

/-- The standing once a written group is listed. -/
def Standing.track (v : Standing) (g : Tracked) : Standing :=
  { v with groups := g :: v.groups.takeWhile fun g' => v.mark < g'.upto }

/-- The hooks of a group that is listed were not on disk. -/
theorem Standing.Le.track (hnew : ∀ id ∈ g.ids, id ∉ v.durable) : v.Le (v.track g) := by
  refine .of (fun id hid => ⟨hid.1, fun g' hg' hlt => ?_⟩) (Subset.refl _) (Subset.refl _)
    fun q c hc => .inl ⟨c, hc, rfl, rfl⟩
  rcases mem_cons.1 hg' with rfl | hg'
  · exact fun hmem => hnew id hmem hid.1
  · exact hid.2 g' (takeWhile_subset _ hg') hlt

theorem Truthful.track (h : Truthful v m) (hsorted : v.groups.Pairwise fun g g' => g'.upto < g.upto)
    (hnew : ∀ id ∈ g.ids, id ∈ m.ids ∧ id ∉ hookIds m.queue ∧ id ∉ v.durable ∧
      ∀ g' ∈ v.groups, id ∉ g'.ids) : Truthful (v.track g) m := by
  have hsub := takeWhile_sublist (l := v.groups) fun g' => v.mark < g'.upto
  have hle := Standing.Le.track fun id hid => (hnew id hid).2.2.1
  refine h.le hle (fun b plan hb => (h.plans b plan hb).le hle)
    (fun q c hc hok => hle.kept _ (h.stored q c hc hok)) (fun ids upto hcov => ?_)
    (fun id hid => ?_) ?_
  · rcases hcov with hall | ⟨hlt, g', hg', rfl, rfl⟩
    · exact .inl fun id hid => hle.kept id (hall id hid)
    · exact .inr ⟨hlt, g', mem_cons_of_mem _ (mem_takeWhile_of_sorted hsorted hg' hlt), rfl, rfl⟩
  · rcases hid with hid | ⟨g', hg', hid⟩
    · exact h.known id (.inl hid)
    · rcases mem_cons.1 hg' with rfl | hg'
      · exact ⟨(hnew id hid).1, (hnew id hid).2.1⟩
      · exact h.known id (.inr ⟨g', hsub.subset hg', hid⟩)
  · exact pairwise_cons.2 ⟨fun g' hg' id hid => (hnew id hid).2.2.2 g' (hsub.subset hg'),
      h.disjoint.sublist hsub⟩

/-! ## Replies -/

variable {records : List Rec} {seqs : List Nat}

theorem Truthful.reply (h : Truthful v m) {calls : List (Nat × Nat)} {release : Bool}
    {r : Reply} (hr : release = false → ∀ as, r = .ok as → Settles v as) :
    Truthful v { m with sent := replyCalls records release calls r ++ m.sent } := by
  refine { h with sent := fun x hx hrel as has => ?_ }
  rcases mem_append.1 hx with hx | hx
  · obtain ⟨_, hrelease, hsub⟩ := mem_replyCalls hx
    obtain ⟨bs, hbs, hsub⟩ := hsub as has
    exact fun env henv => hr (hrelease ▸ hrel) bs hbs env (hsub henv)
  · exact h.sent x hx hrel as has

theorem Truthful.replyError (h : Truthful v m) (calls : List (Nat × Nat)) (records : List Rec)
    (release : Bool)
    (f : Fault) :
    Truthful v { m with sent := replyCalls records release calls (.error f) ++ m.sent } :=
  h.reply nofun

theorem Truthful.take (h : Truthful v m) {queue : List Node.Call} (hsub : queue.Sublist m.queue) :
    Truthful v { m with queue } :=
  { h with
    reads := fun c hc => h.reads c (hsub.subset hc)
    known := fun id hid => ⟨(h.known id hid).1,
      fun hq => (h.known id hid).2 ((hsub.flatMap _).subset hq)⟩ }

section

variable (hdup : ∀ env, .duplicate env ∈ cx.results → v.Settled env.id ∨ env.id ∈ cx.ids)
include hdup

theorem settles_committed (hids : ∀ id ∈ cx.ids, v.Settled id) : Settles v cx.committed := by
  intro env henv
  rcases mem_withTags henv with henv | ⟨f, hf⟩
  · obtain ⟨r, hr, heq⟩ := mem_map.1 henv
    cases r with
    | duplicate =>
      cases heq
      exact (hdup env hr).elim id (hids env.id)
    | committed | error => cases heq
  · cases hf

theorem settles_half (stored : Bool) : Settles v (cx.half stored) := by
  intro env henv
  rcases mem_withTags henv with henv | ⟨f, hf⟩
  · obtain ⟨r, hr, heq⟩ := mem_map.1 henv
    cases r with
    | duplicate =>
      simp only [halve] at heq
      split_ifs at heq with hin
      cases heq
      exact (hdup env hr).resolve_right hin
    | committed =>
      simp only [halve] at heq
      split_ifs at heq
    | error => cases heq
  · cases hf

theorem settles_refused (f : Fault) : Settles v (cx.refused f) := by
  intro env henv
  rcases mem_withTags henv with henv | ⟨f', hf⟩
  · obtain ⟨r, hr, heq⟩ := mem_map.1 henv
    cases r with
    | duplicate =>
      simp only [refuseFresh] at heq
      split_ifs at heq with hin
      cases heq
      exact (hdup env hr).resolve_right hin
    | committed | error => cases heq
  · cases hf

end

/-! ## The pending set -/

section

variable (h : Truthful v m)
include h

/-- Records whose hooks are settled are taken out. -/
theorem Truthful.confirm {b : Nat}
    (hcores : ∀ r ∈ records, v.table.core r.seq = some (r.core b))
    (hsettled : ∀ r ∈ records, v.Settled r.id)
    (p : Option Nat) : Truthful { v with table := v.table.confirm (records.map Rec.seq) p } m := by
  refine h.retable (Subset.refl _) (Subset.refl _) (fun q c hc => ?_) (fun b plan hb => ?_)
    fun q c hc hok => ?_
  · rw [core_confirm]
    split
    next hq =>
      obtain ⟨r, hr, rfl⟩ := mem_map.1 hq
      obtain rfl := Option.some.inj ((hcores r hr).symm.trans hc)
      exact .inr (hsettled r hr)
    · exact .inl ⟨c, hc, rfl, rfl⟩
  · rw [batches_confirm] at hb
    exact .inl hb
  · rw [core_confirm] at hc
    exact h.stored q c (barred hc).2 hok

variable {plan : Plan}

/-- Records of a batch of which a half failed stay, carried. -/
theorem Truthful.carry {b : Nat} (hcores : ∀ r ∈ records, v.table.core r.seq = some (r.core b))
    (o : Outcome)
    (hkept : o.local_ = .ok → ∀ r ∈ records, v.Kept r.id) (hplan : v.SaysOps plan.ops) (now : Ms) :
    Truthful { v with table := v.table.carry o records b plan now } m := by
  have hcore : ∀ q c, v.table.core q = some c →
    ∃ c', (v.table.carry o records b plan now).core q = some c' ∧
      c'.id = c.id ∧ c'.triple = c.triple := by
    intro q c hc
    rw [core_carry]
    split
    · exact ⟨c.carry o, by rw [hc]; rfl, rfl, rfl⟩
    · exact ⟨c, hc, rfl, rfl⟩
  have hle : v.Le { v with table := v.table.carry o records b plan now } :=
    .of (fun _ => id) (Subset.refl _) (Subset.refl _) fun q c hc => .inl (hcore q c hc)
  refine h.retable (Subset.refl _) (Subset.refl _) (fun q c hc => .inl (hcore q c hc))
    (fun b' plan' hb' => ?_) fun q c hc hok => ?_
  · rw [batches_carry] at hb'
    split at hb'
    · rw [Map.get_set] at hb'
      split at hb'
      · cases hb'
        exact .inr (hplan.le hle)
      · exact .inl hb'
    · exact .inl hb'
  · rw [core_carry] at hc
    split at hc
    next hq =>
      obtain ⟨r, hr, rfl⟩ := mem_map.1 hq
      rw [hcores r hr] at hc
      cases hc
      exact hkept hok r hr
    · exact h.stored q c hc hok

/-- The local half of a carried batch is in the store, and its hooks are kept. -/
theorem Truthful.localDone {b : Nat} (hplan : v.table.batches.get b = some plan)
    (hkept : ∀ q ∈ plan.seqs, ∀ c, v.table.core q = some c → v.Kept c.id)
    (hlogged : ∀ q c, v.table.core q = some c → c.log = .ok → c.id ∈ v.logged) :
    Truthful { v with table := (v.table.localDone b).1 } m := by
  refine h.retable (Subset.refl _) (Subset.refl _) (fun q c hc => ?_)
    (fun b' plan' hb' => .inl (batches_localDone hb')) fun q c hc hok => ?_
  · rw [core_localDone hplan, hc]
    split
    next hq =>
      by_cases hlog : c.log = .ok
      · exact .inr (.inr ⟨hkept q hq c hc, hlogged q c hc hlog⟩)
      · exact .inl ⟨{ c with local_ := .ok }, by simp [Core.store, hlog], rfl, rfl⟩
    · exact .inl ⟨c, rfl, rfl, rfl⟩
  · rw [core_localDone hplan] at hc
    split at hc
    next hq =>
      obtain ⟨c', hc', hstore⟩ := Option.bind_eq_some_iff.1 hc
      obtain ⟨-, rfl⟩ := Core.store_eq_some.1 hstore
      exact hkept q hq c' hc'
    · exact h.stored q c hc hok

/-- Records that are in the store are confirmed by the log. -/
theorem Truthful.logDone (hnodup : seqs.Nodup)
    (hstored : ∀ q ∈ seqs, ∃ c, v.table.core q = some c ∧ c.carried ∧ c.local_ = .ok)
    (hlogged : ∀ q ∈ seqs, ∀ c, v.table.core q = some c → c.id ∈ v.logged) (p : Nat) :
    Truthful { v with table := seqs.foldl (fun t q => (t.logDone q p).1) v.table } m := by
  refine h.retable (Subset.refl _) (Subset.refl _) (fun q c hc => ?_) (fun b plan hb => ?_)
    fun q c hc hok => ?_
  · rw [core_logDone_stored hnodup hstored]
    split
    next hq =>
      obtain ⟨c', hc', _, hlocal⟩ := hstored q hq
      obtain rfl := Option.some.inj (hc'.symm.trans hc)
      exact .inr (.inr ⟨h.stored q c' hc hlocal, hlogged q hq c' hc⟩)
    · exact .inl ⟨c, hc, rfl, rfl⟩
  · rw [batches_foldl_logDone] at hb
    exact .inl hb
  · rw [core_logDone_stored hnodup hstored] at hc
    exact h.stored q c (barred hc).2 hok

end

/-! ## Groups and releases -/

variable {id : String}

theorem Cx.ids_cases (cx : Cx) (hid : id ∈ cx.ids) : id ∈ cx.bare ∨ id ∈ cx.records.map Rec.id := by
  by_cases hrec : id ∈ cx.records.map Rec.id
  · exact .inr hrec
  · exact .inl (mem_filter.2 ⟨hid, by simpa using hrec⟩)

/-- The standing once the records of a batch are entered. -/
def Standing.enter (v : Standing) (cx : Cx) : Standing :=
  { v with table := v.table.enter cx.records cx.firstSeq cx.now, bare := cx.bare ++ v.bare }

variable {n : Nat}

theorem Standing.Le.enter (hfits : cx.Fits n) (hseqs : ∀ q c, v.table.core q = some c → q < n) :
    v.Le (v.enter cx) := by
  exact .of (fun _ => id) (subset_append_right _ _) (Subset.refl _) fun q c hc =>
    .inl ⟨c, hfits.core_enter hseqs hc _, rfl, rfl⟩

theorem Truthful.enter (h : Truthful v m) (hfits : cx.Fits n)
    (hseqs : ∀ q c, v.table.core q = some c → q < n) : Truthful (v.enter cx) m := by
  have hle := Standing.Le.enter hfits hseqs
  refine h.le hle (fun b plan hb => ?_) (fun q c hc hok => ?_) (fun _ _ => id) h.known h.disjoint
  · refine (h.plans b plan ?_).le hle
    simpa [Standing.enter] using hb
  · rcases core_enter_cases hfits.sibling hc with hc | ⟨r, hr, rfl, rfl⟩
    · exact h.stored q c hc hok
    · cases hok

/-- The entries of a batch name its fresh hooks. -/
def Cx.NamesFresh (cx : Cx) : Prop :=
  ∀ k time id, .put (keyOf k) (.expiry time id) ∈ cx.ops ++ cx.checked.dedupeOps →
    id ∈ cx.bare ∨ ∃ r ∈ cx.records, r.id = id ∧ r.triple = some k

theorem Cx.NamesFresh.saysOps (h : cx.NamesFresh) (hfits : cx.Fits n) (v : Standing) :
    (v.enter cx).SaysOps (cx.ops ++ cx.checked.dedupeOps) := by
  intro k time id hput
  rcases h k time id hput with hbare | ⟨r, hr, hid, htriple⟩
  · exact .inl (.inl (mem_append_left _ hbare))
  · exact .inr ⟨r.seq, r.core cx.firstSeq, core_enter hfits.sibling hr _ _, hid, htriple⟩

variable {ops : List Op}

/-- The rows of a batch reach the store, and the writer remembers its dedupe keys. -/
theorem Truthful.put (h : Truthful v m) (htold : v.SaysOps (ops ++ puts)) (w : Write) :
    Truthful v { m with
      store := if w.landed then m.store.write ops else m.store
      recent := { m.recent with
        cur := if w = .ok then m.recent.cur.write (Node.dedupePuts puts) else m.recent.cur } } := by
  refine { h with store := ?_, recent := ⟨?_, h.recent.2⟩ }
  · dsimp only
    split
    · exact h.store.write (htold.of_subset (subset_append_left _ _))
    · exact h.store
  · dsimp only
    split
    · refine h.recent.1.write (htold.of_subset ?_)
      exact List.Subset.trans (filter_subset_self _) (subset_append_right _ _)
    · exact h.recent.1

variable {w : Write}

theorem Truthful.unwritten (h : Truthful v m) (hw : w.landed = false) : Truthful v { m with
      store := if w.landed then m.store.write ops else m.store
      recent := { m.recent with
        cur := if w = .ok then m.recent.cur.write (Node.dedupePuts puts) else m.recent.cur } } := by
  cases w with
  | ok => cases hw
  | failed landed =>
    obtain rfl : landed = false := hw
    exact h

theorem Truthful.store_write (h : Truthful v m) (htold : v.SaysOps ops) (w : Write) :
    Truthful v { m with store := if w.landed then m.store.write ops else m.store } := by
  refine { h with store := ?_ }
  split
  · exact h.store.write htold
  · exact h.store

theorem Truthful.fly (h : Truthful v m) (hb : b.Stands v) :
    Truthful v { m with flights := b :: m.flights } :=
  { h with flights := forall_mem_cons.2 ⟨hb, h.flights⟩ }

/-- A batch that was entered and is not written. -/
theorem Cx.NamesFresh.stands (h : cx.NamesFresh) (hfits : cx.Fits n)
    (hseqs : ∀ q c, v.table.core q = some c → q < n)
    (hdup : ∀ env, .duplicate env ∈ cx.results → v.Settled env.id ∨ env.id ∈ cx.ids) :
    Batch.Stands ⟨cx, .failed, none, none, false⟩ (v.enter cx) := by
  have hle := Standing.Le.enter hfits hseqs
  exact ⟨(h.saysOps hfits v).of_subset (subset_append_left _ _),
    fun env henv => (hdup env henv).imp (hle.settled _) fun hid => hid,
    fun id hid => (cx.ids_cases hid).imp (fun hb => mem_append_left _ hb) fun hr => hr,
    fun r hr => hfits.id_mem hr, nofun, nofun⟩

theorem Truthful.wait (h : Truthful v m) {x : Waiting} (hx : Settles v x.answers) :
    Truthful v { m with waiting := x :: m.waiting } :=
  { h with waiting := forall_mem_cons.2 ⟨hx, h.waiting⟩ }

theorem Standing.enter_bare (v : Standing) (hnil : cx.records = []) :
    v.enter cx = { v with bare := cx.bare ++ v.bare } := by
  unfold Standing.enter
  rw [hnil]
  rfl

theorem Cx.ids_bare (hnil : cx.records = []) (hid : id ∈ cx.ids) : id ∈ cx.bare := by
  refine (cx.ids_cases hid).resolve_right ?_
  rw [hnil]
  exact not_mem_nil

/-- What the writer has when it commits: its groups are in order, and its seqs are new. -/
structure Ready (s : State) (cx : Cx) : Prop where
  sorted : s.unsynced.Pairwise fun g g' => g'.upto < g.upto
  mark : s.durableMark < s.nextSeq
  seqs : ∀ q c, s.table.core q = some c → q < s.nextSeq
  fits : cx.Fits s.nextSeq

theorem Truthful.settleReply {answers : List Answer} (h : Truthful s.standing s.memory)
    (hanswers : Settles s.standing answers) :
    Truthful (s.settleReply cx answers).standing (s.settleReply cx answers).memory := by
  unfold State.settleReply
  split
  · exact h.wait hanswers
  · exact h.reply fun _ as has => by cases has; exact hanswers

theorem Truthful.commitGroup (h : Truthful s.standing s.memory) (hready : Ready s cx)
    (hnames : cx.NamesFresh)
    (hdup : ∀ env, .duplicate env ∈ cx.results → s.standing.Settled env.id ∨ env.id ∈ cx.ids)
    (hids : ∀ id ∈ cx.ids, id ∈ s.ghost.ids ∧ id ∉ hookIds s.queue ∧
      id ∉ s.ghost.durable ∧ ∀ g ∈ s.unsynced, id ∉ g.ids) (gate : Bool) (w : Write) :
    Truthful (s.commitGroup cx gate w).standing (s.commitGroup cx gate w).memory := by
  unfold State.commitGroup
  split
  next hnil =>
    have hsettles : Settles s.standing cx.committed := by
      refine settles_committed hdup fun id hid => ?_
      rw [Cx.ids, hnil] at hid
      cases hid
    exact h.settleReply hsettles
  next hfresh =>
  split
  · exact h.settleReply (settles_refused hdup _)
  have hentered := h.enter hready.fits hready.seqs
  have htold := hnames.saysOps hready.fits s.standing
  have hle := Standing.Le.enter (v := s.standing) hready.fits hready.seqs
  split
  next hnil =>
    have hbare := s.standing.enter_bare hnil
    unfold State.diskCommit
    split
    · have htracked :=
        (hentered.put htold w).track (g := ⟨cx.upto, cx.ids, cx.undo⟩) hready.sorted hids
      have hsettles :
          Settles ((s.standing.enter cx).track ⟨cx.upto, cx.ids, cx.undo⟩) cx.committed := by
        refine settles_committed (fun env henv => ?_) fun id hid =>
          .inl (mem_append_left _ (Cx.ids_bare hnil hid))
        exact (hdup env henv).imp
          (fun hs => (Standing.Le.track fun id hid => (hids id hid).2.2.1).settled _
            (hle.settled _ hs)) fun hid => hid
      have hwaiting :=
        htracked.wait (x := ⟨cx.calls, cx.committed, cx.upto, cx.ids, false⟩) hsettles
      rw [hbare] at hwaiting
      exact hwaiting
    · have hwritten := (hentered.store_write (htold.of_subset
        (subset_append_left _ _)) w).replyError
        cx.calls [] false (.refused .writeFailed)
      rw [hbare] at hwritten
      exact hwritten
  · have hstands := hnames.stands hready.fits hready.seqs hdup
    unfold State.dualCommit
    split
    · have htracked :=
        (hentered.put htold w).track (g := ⟨cx.upto, cx.ids, cx.undo⟩) hready.sorted hids
      have hlisted := hstands.le (Standing.Le.track (g := ⟨cx.upto, cx.ids, cx.undo⟩)
        fun id hid => (hids id hid).2.2.1) (by simp)
      refine htracked.fly { hlisted with
        stored := (by simp), applied := fun _ _ => .inr ⟨?_, _, mem_cons_self, rfl, rfl⟩ }
      exact Cx.lt_upto hready.fits.first hfresh hready.mark
    · exact (hentered.put htold w).fly hstands

theorem Truthful.moreIds (h : Truthful v m) (ids : List String) :
    Truthful v { m with ids := ids ++ m.ids } :=
  { h with known := fun id hid => ⟨mem_append_right _ (h.known id hid).1, (h.known id hid).2⟩ }

theorem Truthful.moreLogged (h : Truthful v m) (hlogged : v.logged ⊆ logged) :
    Truthful { v with logged } m :=
  h.retable hlogged (Subset.refl _) (fun _ c hc => .inl ⟨c, hc, rfl, rfl⟩)
    (fun _ _ hb => .inl hb) h.stored

theorem saysOps_extra (hextra : extra.all Node.extraOk) (v : Standing) : v.SaysOps extra := by
  intro k time id hput
  cases Node.within_extra hextra _ hput

/-- A quarantine release that passed its reads: what it leaves behind is true, if its write does not
    land after it was reported as failed. -/
theorem Truthful.commitRelease (h : Truthful s.standing s.memory) (hready : Ready s cx)
    (hnames : cx.NamesFresh)
    (hids : ∀ id ∈ cx.ids, id ∉ s.ghost.ids) (hqueued : ∀ id ∈ hookIds s.queue, id ∈ s.ghost.ids)
    (hextra : extra.all Node.extraOk) (gate : Bool) (hw : w ≠ .failed true) (p : Publish) :
    Truthful (s.commitRelease cx extra gate w p).standing
    (s.commitRelease cx extra gate w p).memory := by
  have hentered := h.enter hready.fits hready.seqs
  have htold := hnames.saysOps hready.fits s.standing
  have hnew : ∀ id ∈ cx.ids, id ∈ cx.ids ++ s.ghost.ids ∧ id ∉ hookIds s.queue := fun id hid =>
    ⟨mem_append_left _ hid, fun hq => hids id hid (hqueued id hq)⟩
  unfold State.commitRelease
  split
  · exact h.replyError _ _ _ _
  split
  · split
    · exact Truthful.reply ((h.store_write (saysOps_extra hextra _) w).persist [] le_rfl
        fun id hid => absurd hid not_mem_nil) nofun
    · exact (h.store_write (saysOps_extra hextra _) w).replyError _ _ _ _
  split
  · exact h.replyError _ _ _ _
  split
  next hnil =>
    have hbare := s.standing.enter_bare hnil
    split
    · have hsynced :=
        ((hentered.put htold w).moreIds cx.ids).persist cx.ids
        (le_max_left s.durableMark cx.upto) hnew
      rw [hbare] at hsynced
      exact hsynced.reply nofun
    · have hwritten :=
        (hentered.store_write (htold.of_subset (subset_append_left _ _)) w).replyError
        cx.calls [] true (.refused .writeFailed)
      rw [hbare] at hwritten
      exact hwritten
  · have hlogged := logged_append (s.startDual cx w) (cx.records.map Rec.id) p
    split
    · have hsynced := (((hentered.put htold w).moreIds cx.ids).moreLogged hlogged).persist cx.ids
        (le_max_left s.durableMark cx.upto) hnew
      have hcores : ∀ r ∈ cx.records, (s.table.enter cx.records cx.firstSeq cx.now).core r.seq =
          some (r.core cx.firstSeq) := fun r hr => core_enter hready.fits.sibling hr _ _
      -- The hooks of a release are in no group that a fence may take back.
      have hkept : ∀ r ∈ cx.records, Standing.Kept (Standing.persist { s.standing.enter cx with
          logged := ((s.startDual cx w).append (cx.records.map Rec.id) p).ghost.logged } cx.ids
          (max s.durableMark cx.upto)) r.id := fun r hr =>
        ⟨mem_append_left _ (hready.fits.id_mem hr), fun g hg _ hmem =>
          hids _ (hready.fits.id_mem hr) (h.known r.id (.inr ⟨g, hg, hmem⟩)).1⟩
      split
      next hp =>
        have hconfirmed := hsynced.confirm hcores (fun r hr => .inr ⟨hkept r hr, ?_⟩)
          (some (((s.startDual cx w).append (cx.records.map Rec.id) p).log.length - 1))
        · exact hconfirmed.reply nofun
        · show r.id ∈ ((s.startDual cx w).append (cx.records.map Rec.id) p).ghost.logged
          rw [hp]
          exact mem_append_left _ (mem_map_of_mem hr)
      · refine Truthful.reply (hsynced.carry hcores ⟨.ok, .missing,
          none⟩ (fun _ => hkept) ?_ cx.now) nofun
        have hmore : (s.standing.enter cx).Le { s.standing.enter cx with
            logged := ((s.startDual cx w).append (cx.records.map Rec.id) p).ghost.logged } :=
          .of (fun _ => id) (Subset.refl _) hlogged fun q c hc => .inl ⟨c, hc, rfl, rfl⟩
        refine ((htold.le hmore).le (.persist cx.ids (le_max_left _ _))).of_subset ?_
        exact List.Subset.trans (filter_subset_self _) (subset_append_left _ _)
    next hfailed =>
      -- Nothing was written, and what was entered is taken out again.
      have hlanded : w.landed = false := by
        cases w with
        | ok => exact absurd rfl hfailed
        | failed landed =>
          cases landed with
          | false => rfl
          | true => exact absurd rfl hw
      have hcore : ∀ q,
        ((s.table.enter cx.records cx.firstSeq cx.now).confirm (cx.records.map Rec.seq) none).core
        q =
          s.table.core q := by
        intro q
        rw [core_confirm]
        split
        next hq =>
          obtain ⟨r, hr, rfl⟩ := mem_map.1 hq
          cases hc : s.table.core r.seq with
          | none => rfl
          | some c => exact absurd (hready.seqs _ c hc) (not_lt.2 (hready.fits.range r hr).1)
        · next hq => exact core_enter_of_not_mem hq _ _
      have hleft : Truthful { s.standing with
          table := (s.table.enter cx.records cx.firstSeq cx.now).confirm
            (cx.records.map Rec.seq) none
          logged := ((s.startDual cx w).append (cx.records.map Rec.id) p).ghost.logged
          bare := cx.bare ++ s.ghost.bare } s.memory := by
        refine h.retable hlogged (subset_append_right _ _)
          (fun q c hc => .inl ⟨c, (hcore q).trans hc, rfl, rfl⟩) (fun b plan hb => .inl ?_)
          (fun q c hc hok => h.stored q c ((hcore q).symm.trans hc) hok)
        rw [batches_confirm, batches_enter] at hb
        exact hb
      exact (hleft.unwritten hlanded).replyError cx.calls cx.records true
        (.refused .storeUnavailable)

/-! ## The other steps -/

/-- The writer hears of a half of the batch at `i`. -/
theorem Truthful.advance (h : Truthful s.standing s.memory) (hground : Grounded s.ground) {i : Nat}
    {b₀ : Batch} (hi : s.inflight[i]? = some b₀) (hcx : b.cx = b₀.cx) (hb : b.Stands s.standing)
    (hlog : ∀ p, b.log = some (some p) → ∀ r ∈ b.cx.records, r.id ∈ s.ghost.logged) (now : Ms) :
    Truthful (s.advance i b now).standing (s.advance i b now).memory := by
  unfold State.advance
  split
  · refine { h with flights := fun b' hb' => ?_ }
    rcases mem_or_eq_of_mem_set hb' with hb' | rfl
    · exact h.flights b' hb'
    · exact hb
  · have hcores : ∀ r ∈ b.cx.records, s.table.core r.seq = some (r.core b.cx.firstSeq) := by
      rw [hcx]
      exact hground.flights b₀ (mem_of_getElem? hi)
    have hleft : Truthful s.standing { s.memory with flights := s.inflight.eraseIdx i } :=
      { h with flights := fun b' hb' => h.flights b' (mem_of_mem_eraseIdx hb') }
    have hplan : s.standing.SaysOps b.cx.plan.ops := hb.ops.of_subset (filter_subset_self _)
    unfold State.finishDual
    dsimp only
    split
    next p hp =>
      have hrecords := hlog p (Option.join_eq_some_iff.1 hp)
      split
      next hok =>
        have hok : b.local_ = .ok := by simpa using hok
        have hsettled : ∀ r ∈ b.cx.records, s.standing.Settled r.id := fun r hr =>
          .inr ⟨hb.stored hok _ (hb.named r hr), hrecords r hr⟩
        refine (hleft.confirm hcores hsettled (some p)).reply fun _ as has => ?_
        cases has
        refine settles_committed hb.duplicates fun id hid => ?_
        rcases hb.fresh id hid with hbare | hrec
        · exact .inl hbare
        · obtain ⟨r, hr, rfl⟩ := mem_map.1 hrec
          exact hsettled r hr
      · refine (hleft.carry hcores ⟨.missing, .ok,
          some (p + 1 - (b.cx.records.map Rec.seq).length)⟩ nofun hplan
          now).reply fun _ as has => ?_
        cases has
        exact settles_half hb.duplicates false
    · refine (hleft.carry hcores ⟨if b.local_ = .ok then .ok else .missing, .missing,
        none⟩ (fun hok r hr => ?_) hplan now).reply fun _ as has => ?_
      · have hok : b.local_ = .ok := by
          by_contra hne
          simp [hne] at hok
        exact hb.stored hok _ (hb.named r hr)
      · cases has
        exact settles_half hb.duplicates _

theorem saysOps_undoOps (v : Standing) (gs : List Writer.Group) : v.SaysOps (undoOps gs) := by
  intro k time id hput
  obtain ⟨g, _, hput⟩ := mem_flatMap.1 hput
  obtain ⟨ops, _, hput⟩ := mem_flatMap.1 hput
  obtain ⟨op, _, hput⟩ := mem_flatMap.1 hput
  unfold invert at hput
  split at hput
  · cases hput
  · split at hput
    · cases hput
    · cases mem_singleton.1 hput
  · cases mem_singleton.1 hput
  · cases hput

theorem Truthful.fence (h : Truthful s.standing s.memory) (ok : Bool) (mono : Ms) :
    Truthful (s.fence ok mono).standing (s.fence ok mono).memory := by
  unfold State.fence
  split
  · -- What is kept is in no group the fence takes back.
    have hkept : ∀ id, s.standing.Kept id → id ∈ s.ghost.durable.filter fun id =>
        id ∉ s.fenceGroups.flatMap Tracked.ids := by
      intro id hid
      refine mem_filter.2 ⟨hid.1, decide_eq_true fun hmem => ?_⟩
      obtain ⟨g, hg, hmem⟩ := mem_flatMap.1 hmem
      have hlt := mem_takeWhile_imp hg
      exact hid.2 g (takeWhile_subset _ hg) (of_decide_eq_true hlt) hmem
    have hle : s.standing.Le { s.standing with
        durable := s.ghost.durable.filter fun id => id ∉ s.fenceGroups.flatMap Tracked.ids
        groups := []
        mark := max s.durableMark s.applied } :=
      .of (fun id hid => ⟨hkept id hid, forall_mem_nil _⟩) (Subset.refl _)
        (Subset.refl _) fun q c hc => .inl ⟨c, hc, rfl, rfl⟩
    refine ⟨(h.store.le hle).write (saysOps_undoOps _ _), ⟨.empty _, .empty _⟩,
      fun c hc k time id hmem => hle.named k id (h.reads c hc k time id hmem),
      fun b plan hb => (h.plans b plan hb).le hle, fun b' hb' => ?_, fun x' hx' => ?_,
      fun x hx hrel as has => (h.sent x hx hrel as has).le hle,
      fun q c hc hok => hle.kept _ (h.stored q c hc hok), fun id hid => ?_, .nil⟩
    · obtain ⟨b, hb, rfl⟩ := mem_map.1 hb'
      have hstands := h.flights b hb
      split
      · have hundone : Batch.Stands { b with undone := true } s.standing :=
          { hstands with applied := nofun }
        exact hundone.le hle nofun
      next hnot =>
        refine hstands.le hle fun hlocal hundone => .inl fun id hid => hle.kept id ?_
        rcases hstands.applied hlocal hundone with hall | ⟨hlt, _⟩
        · exact hall id hid
        · exact absurd ⟨hlocal, hlt⟩ hnot
    · obtain ⟨x, hx, rfl⟩ := mem_map.1 hx'
      split
      all_goals exact (h.waiting x hx).le hle
    · rcases hid with hid | ⟨g, hg, _⟩
      · exact h.known id (.inl (mem_filter.1 hid).1)
      · cases hg
  · exact { h with recent := ⟨.empty _, .empty _⟩ }

theorem mem_idsAt {t : Table} :
    id ∈ idsAt t seqs ↔ ∃ q ∈ seqs, ∃ c, t.core q = some c ∧ c.id = id := by
  unfold idsAt
  rw [mem_filterMap]
  constructor
  · rintro ⟨q, hq, hid⟩
    obtain ⟨e, he, rfl⟩ := Option.map_eq_some_iff.1 hid
    exact ⟨q, hq, e.core, core_eq_some.2 ⟨e, he, rfl⟩, rfl⟩
  · rintro ⟨q, hq, c, hc, rfl⟩
    obtain ⟨e, he, rfl⟩ := core_eq_some.1 hc
    exact ⟨q, hq, by rw [he]; rfl⟩

/-- What a step has to keep to: a release brings no pending triple and its write does not land after
    it was reported as failed, and a carried batch is completed only when no fence may take its rows
    back. -/
def Orderly (s : State) : Event → Prop
  | .release call items extra now reads gate w p =>
    ReleasesApart s (.release call items extra now reads gate w p) ∧ w ≠ .failed true
  | .completeLocal batch _ => (s.table.batches.get batch).all fun plan =>
    (idsAt s.table plan.seqs).all fun id => s.fenceGroups.all fun g => id ∉ g.ids
  | _ => True

instance (s : State) : (ev : Event) → Decidable (Orderly s ev)
  | .release call items extra now reads gate w p =>
    inferInstanceAs (Decidable (ReleasesApart s (.release call items extra now reads gate w p) ∧
      w ≠ .failed true))
  | .completeLocal batch _ => inferInstanceAs (Decidable ((s.table.batches.get batch).all _ = true))
  | .prepare .. | .drop .. | .group .. | .publish .. | .result .. | .synced .. | .answer ..
  | .fsync ..
  | .fence .. | .republish .. | .flush .. | .delete .. | .rotate .. | .table .. => isTrue trivial

theorem Orderly.apart {ev : Event} (h : Orderly s ev) : ReleasesApart s ev := by
  cases ev with
  | release => exact h.1
  | _ => trivial

theorem Truthful.completeLocal (h : Truthful s.standing s.memory) (hground : Grounded s.ground)
    (hsorted : s.unsynced.Pairwise fun g g' => g'.upto < g.upto) {batch : Nat}
    (horderly : Orderly s (.completeLocal batch w)) :
    Truthful (s.completeLocal batch w).standing (s.completeLocal batch w).memory := by
  unfold State.completeLocal
  split
  · exact h
  split
  · exact h
  next plan hplan =>
    have htold : s.standing.SaysOps (if (s.store.get (.hook plan.probeSeq)).isSome then []
        else plan.ops) := by
      split
      · exact fun k time id hput => absurd hput not_mem_nil
      · exact h.plans batch plan hplan
    have hwritten := h.store_write htold w
    split
    · have hsynced :=
        hwritten.persist (idsAt s.table plan.seqs) (le_refl s.durableMark) fun id hid => by
        obtain ⟨q, _, c, hc, rfl⟩ := mem_idsAt.1 hid
        exact ⟨(hground.seqs q c hc).2.2.2, fun hq => (hground.apart c.id hq).2 q c hc rfl⟩
      refine hsynced.localDone hplan (fun q hq c hc => ?_) hground.logged
      have hid : c.id ∈ idsAt s.table plan.seqs := mem_idsAt.2 ⟨q, hq, c, hc, rfl⟩
      refine ⟨mem_append_left _ hid, fun g hg hlt hmem => ?_⟩
      -- A group above the mark is one a fence would take back.
      have hfence : g ∈ s.fenceGroups := mem_takeWhile_of_sorted hsorted hg hlt
      simp only [Orderly, hplan, Option.all_some, all_eq_true, decide_eq_true_eq] at horderly
      exact horderly c.id hid g hfence hmem
    · exact hwritten

/-- What the writer looks up of a key names what it may. -/
theorem Truthful.storedFor (h : Truthful v m) {prefetch : List (Key × Option Val)}
    (hreads : ∀ k time id, (keyOf k, some (.expiry time id)) ∈ prefetch → v.Named k id) {k : Triple}
    {time : Ms} (hget : Writer.storedFor m.recent prefetch m.store (keyOf k) =
      some (.expiry time id)) :
    v.Named k id := by
  unfold Writer.storedFor at hget
  split at hget
  next hval =>
    cases hget
    unfold Recent.get at hval
    split at hval
    next hval' =>
      cases hval
      exact h.recent.1 k time id hval'
    · exact h.recent.2 k time id hval
  · split at hget
    next hresult =>
      obtain ⟨l₁, l₂, rfl, _⟩ := lookup_eq_some_iff.1 hresult
      exact hreads k time id (hget ▸ mem_append_right _ mem_cons_self)
    · exact h.store k time id hget

theorem Truthful.step {cfg : Config} (h : Truthful s.standing s.memory)
    (hground : Grounded s.ground) (hjoined : Joined s []) (ev : Event) (horderly : Orderly s ev)
    (hstep : Dual.step cfg s ev = some s') : Truthful s'.standing s'.memory := by
  cases ev with
  | prepare =>
    obtain ⟨hok, rfl⟩ := guarded hstep
    refine { h with reads := fun c hc k time id hmem => ?_, known := fun id hid => ?_ }
    · rcases mem_append.1 hc with hc | hc
      · exact h.reads c hc k time id hmem
      · obtain rfl := mem_singleton.1 hc
        obtain ⟨key, _, heq⟩ := mem_map.1 hmem
        obtain ⟨rfl, hget⟩ := Prod.mk.inj heq
        exact h.store k time id hget
    · obtain ⟨hknown, hnot⟩ := h.known id hid
      refine ⟨mem_append_right _ hknown, fun hq => ?_⟩
      have hq : id ∈ hookIds (s.queue ++ [_]) := hq
      rw [hookIds, flatMap_append, mem_append] at hq
      rcases hq with hq | hq
      · exact hnot hq
      · exact hok.2.2 id (by simpa using hq) hknown
  | drop =>
    obtain ⟨c, hi, rfl⟩ := Option.map_eq_some_iff.1 hstep
    exact (h.take (eraseIdx_sublist _ _)).replyError _ _ _ _
  | group n now reads gate w =>
    obtain ⟨-, hstep⟩ := barred hstep
    have htaken := h.take (drop_sublist n s.queue)
    rcases admitted_cases hstep with rfl | rfl | rfl
    · exact htaken.replyError _ _ _ _
    · exact htaken.replyError _ _ _ _
    obtain ⟨henters, hcalls, hall⟩ := hground.group_enters cfg n
      (Node.mergePrefetch (s.queue.take n) s.recentSince) (max now s.lastAt)
    refine Truthful.commitGroup (s := { s with queue := s.queue.drop n }) htaken
      ⟨hjoined.sorted, hjoined.marks.1, fun q c hc => (hground.seqs q c hc).2.1, henters.fits⟩
      (fun k time id hput => ?_) (fun env henv => ?_) (fun id hid => ?_) gate w
    · rcases mem_append.1 hput with hput | hput
      · exact cx_put_named _ _ _ _ _ _ hcalls (cx_dedupe_put _ _ _ _ _ _ rfl hput)
      · exact cx_put_named _ _ _ _ _ _ hcalls hput
    · rcases cx_duplicates _ _ _ _ _ henv with hid | ⟨k, time, hunkeyed, hget⟩
      · exact .inr hid
      -- The entry that was found names no pending hook: its triple would be pending.
      refine .inl ((htaken.storedFor (fun k time id hmem => ?_) hget).resolve_right ?_)
      · obtain ⟨c, hc, _, hmem⟩ := Node.mem_mergePrefetch hmem
        exact h.reads c (take_subset _ _ hc) k time id hmem
      · rintro ⟨q, c, hc, _, htriple⟩
        have hkeyed : s.table.keyed k = true :=
          (hground.described.indexed.keyed_iff k).2 ⟨q, c, hc, htriple⟩
        exact Bool.false_ne_true ((show s.table.keyed k = false from hunkeyed).symm.trans hkeyed)
    · have hin := hall id ((cx_ids_sublist _ _ _ _ _ _).subset hid)
      exact ⟨(hground.apart id hin).1, (henters.unknown id hid).1,
        fun hd => (h.known id (.inl hd)).2 hin,
        fun g hg hid => (h.known id (.inr ⟨g, hg, hid⟩)).2 hin⟩
  | release call items extra now reads gate w p =>
    obtain ⟨⟨_, hnodup, hnew, _, hextra⟩, hstep⟩ := passed hstep
    rcases admitted_cases hstep with rfl | rfl | rfl
    · exact h.replyError _ _ _ _
    · exact h.replyError _ _ _ _
    have hbegun :
        Grounded (State.ground { s with ghost :=
          { s.ghost with begun := call :: s.ghost.begun } }) := hground
    obtain ⟨henters, hcalls, hids⟩ :=
      hbegun.release_enters cfg hnodup hnew horderly.1 (max now s.lastAt)
      (max now s.lastAt) extra
    refine Truthful.commitRelease (s :=
      { s with ghost := { s.ghost with begun := call :: s.ghost.begun } }) h
      ⟨hjoined.sorted, hjoined.marks.1, fun q c hc => (hground.seqs q c hc).2.1, henters.fits⟩
      (fun k time id hput => ?_) (fun id hid => hids id ((cx_ids_sublist _ _ _ _ _ _).subset hid))
      (fun id hid => (hground.apart id hid).1) hextra gate horderly.2 p
    rcases mem_append.1 hput with hput | hput
    · exact cx_put_named _ _ _ _ _ _ hcalls (cx_dedupe_put _ _ _ _ _ _ hextra hput)
    · exact cx_put_named _ _ _ _ _ _ hcalls hput
  | publish i p =>
    obtain ⟨b, hi, -, rfl⟩ := flight_found hstep
    have hmore := h.moreLogged (logged_append s (b.cx.records.map Rec.id) p)
    refine { hmore with flights := fun b' hb' => ?_ }
    rcases mem_or_eq_of_mem_set hb' with hb' | rfl
    · exact hmore.flights b' hb'
    · have hstands := hmore.flights b (mem_of_getElem? hi)
      exact { hstands with }
  | result i now =>
    obtain ⟨b, hi, -, rfl⟩ := flight_found hstep
    have hstands := h.flights b (mem_of_getElem? hi)
    refine h.advance (b := { b with log := b.sent }) hground hi rfl { hstands with }
      (fun p hp => ?_) now
    exact hground.results b (mem_of_getElem? hi) p (.inl hp)
  | synced i ok now =>
    obtain ⟨b, hi, hok, rfl⟩ := flight_found hstep
    have hstands := h.flights b (mem_of_getElem? hi)
    refine h.advance (b := { b with local_ := if ok then .ok else .failed }) hground hi rfl
      { hstands with stored := fun hlocal => ?_, applied := fun hlocal => ?_ }
      (fun p hp => hground.results b (mem_of_getElem? hi) p (.inr hp)) now
    · cases ok with
      | false => cases hlocal
      | true =>
        obtain ⟨hundone, hmark⟩ := hok.2 rfl
        exact (hstands.applied hok.1 hundone).resolve_right fun hr => absurd hr.1 (not_lt.2 hmark)
    · cases ok <;> cases hlocal
  | answer i ok =>
    obtain ⟨x, hi, -, rfl⟩ := waiting_found hstep
    have hx := h.waiting x (mem_of_getElem? hi)
    have hleft : Truthful s.standing { s.memory with waiting := s.waiting.eraseIdx i } :=
      { h with waiting := fun x' hx' => h.waiting x' (mem_of_mem_eraseIdx hx') }
    refine hleft.reply fun _ as has => ?_
    cases ok with
    | false => cases has
    | true =>
      cases has
      exact hx
  | fsync upto =>
    obtain ⟨-, rfl⟩ := guarded hstep
    exact h.persist [] (le_max_left s.durableMark upto) (forall_mem_nil _)
  | fence ok mono =>
    cases hstep
    exact h.fence ok mono
  | completeLocal =>
    cases hstep
    exact h.completeLocal hground hjoined.sorted horderly
  | republish seqs p =>
    obtain ⟨hok, rfl⟩ := guarded hstep
    have hmore := h.moreLogged (logged_append s (idsAt s.table seqs) p)
    unfold State.republish
    split
    next hp =>
      refine hmore.logDone hok.1 (fun q hq => unpublished_core (hok.2 q hq)) (fun q hq c hc => ?_) _
      rw [hp]
      exact mem_append_left _ (mem_idsAt.2 ⟨q, hq, c, hc, rfl⟩)
    · exact hmore
  | flush =>
    cases hstep
    exact h
  | delete keys =>
    cases hstep
    have hdeletes := Standing.SaysOps.deletes s.standing keys
    exact { h with
      store := h.store.write hdeletes
      recent := ⟨h.recent.1.write hdeletes, h.recent.2.write hdeletes⟩ }
  | rotate =>
    cases hstep
    exact { h with recent := ⟨.empty _, h.recent.1⟩ }
  | table =>
    obtain ⟨hside, hstep⟩ := passed hstep
    obtain ⟨sh, hsh, rfl⟩ := Option.map_eq_some_iff.1 hstep
    obtain ⟨_, hcore, _, hbatches, _⟩ := side_core hside hsh
    refine h.retable (Subset.refl _) (Subset.refl _)
      (fun q c hc => .inl ⟨c, (hcore q).trans hc, rfl, rfl⟩) (fun b plan hb => .inl ?_)
      fun q c hc hok => h.stored q c ((hcore q).symm.trans hc) hok
    rw [hbatches] at hb
    exact hb

/-- In every orderly run, a caller of a group is answered as a duplicate only of a hook that is
    confirmed in the log and on disk at that moment, or that has no record at all. While a hook with
    a dedupe triple is not confirmed in both places, whether a dedupe entry names it already or not,
    a hook of a group with the same triple is refused with a retryable error. -/
theorem duplicates_confirmed {cfg : Config} {es : List Event}
    (hrun : Run.exec (step cfg) .start es = some s)
    (horderly : Run.Along (step cfg) Orderly .start es) :
    (∀ x ∈ s.ghost.sent, x.release = false → ∀ as, x.reply = .ok as → ∀ env, .duplicate env ∈ as →
      env.id ∈ s.ghost.bare ∨ env.id ∈ s.ghost.durable ∧ env.id ∈ s.ghost.logged) ∧
    (∀ q e k, s.table.entries.get q = some e → e.triple = some k →
      ∀ item, pendingTriple item = some k → dualRefusal cfg s.table item =
        some (if cfg.maxRecordBytes < item.bin.length then .intakeUnavailable
          else .intakePending)) ∧
    ∀ k time id, s.store.get (keyOf k) = some (.expiry time id) →
      (id ∈ s.ghost.bare ∨ id ∈ s.ghost.durable ∧ id ∈ s.ghost.logged) ∨
      ∀ item, pendingTriple item = some k → dualRefusal cfg s.table item =
        some (if cfg.maxRecordBytes < item.bin.length then .intakeUnavailable
          else .intakePending) := by
  obtain ⟨hjoined, hground, h⟩ := invariant_along
    (I := fun s => Joined s [] ∧ Grounded s.ground ∧ Truthful s.standing s.memory)
    (fun s ev s' hI hP hs => ⟨hI.1.step ev hs, hI.2.1.step ev hP.apart hs,
      hI.2.2.step hI.2.1 hI.1 ev hP hs⟩)
    ⟨Joined.start, Grounded.start, Truthful.start⟩ horderly hrun
  have hsettled : ∀ id, s.standing.Settled id → id ∈ s.ghost.bare ∨
      id ∈ s.ghost.durable ∧ id ∈ s.ghost.logged :=
    fun id hid => hid.imp (fun hb => hb) fun hk => ⟨hk.1.1, hk.2⟩
  have hrefused : ∀ q c k, s.table.core q = some c → c.triple = some k →
    ∀ item, pendingTriple item = some k →
      dualRefusal cfg s.table item =
        some (if cfg.maxRecordBytes < item.bin.length then .intakeUnavailable
            else .intakePending) :=
    fun q c k hc hk item hitem =>
      dualRefusal_of_keyed hitem ((hground.described.indexed.keyed_iff k).2 ⟨q, c, hc, hk⟩) cfg
  refine ⟨fun x hx hrel as has env henv => hsettled _ (h.sent x hx hrel as has env henv),
    fun q e k he hk => hrefused q e.core k (core_eq_some.2 ⟨e, he, rfl⟩) hk,
    fun k time id hget => ?_⟩
  rcases h.store k time id hget with hs | ⟨q, c, hc, _, hk⟩
  · exact .inl (hsettled id hs)
  · exact .inr (hrefused q c k hc hk)

/-- A hook with a dedupe key and a sink. -/
def keyed (id : String) : Item :=
  ⟨⟨id, none, "stripe", some "evt_1"⟩, [1],
    [some (⟨"Http", .pending, 0, 0, none, 1, "stripe", none, none, none⟩, none)], some 1000⟩

/-- The same hook comes again before and after the first one is in both places. -/
def sentAgain : List Event :=
  [.prepare 1 [keyed "a"] 0, .group 1 0 true true .ok, .prepare 2 [keyed "b"] 0,
    .group 1 1 true true .ok,
   .fsync 1, .synced 0 true 2, .publish 0 .ok, .result 0 3, .prepare 3 [keyed "c"] 0,
   .group 1 4 true true .ok]

theorem sentAgain_confirmed : ∃ s, Run.exec (step small) .start sentAgain = some s ∧
    s.ghost.sent = [⟨3, .ok [.duplicate { (keyed "c").env with id := "a" }], [], false⟩,
      ⟨1, .ok [.committed (keyed "a").env 1], [⟨1, "a", [1], some ("default", "stripe", "evt_1")⟩],
        false⟩,
      ⟨2, .ok [.error .intakePending], [], false⟩] ∧
    ("a" ∈ s.ghost.bare ∨ "a" ∈ s.ghost.durable ∧ "a" ∈ s.ghost.logged) := by
  obtain ⟨s, hs, hsent⟩ := of_exec (f := step small) (s := .start) (l := sentAgain)
    (P := fun s => s.ghost.sent =
      [⟨3, .ok [.duplicate { (keyed "c").env with id := "a" }], [], false⟩,
      ⟨1, .ok [.committed (keyed "a").env 1], [⟨1, "a", [1], some ("default", "stripe", "evt_1")⟩],
        false⟩,
      ⟨2, .ok [.error .intakePending], [], false⟩]) (by decide)
  have hduplicates := (duplicates_confirmed hs (by decide)).1
  exact ⟨s, hs, hsent, hduplicates _ (by rw [hsent]; exact mem_cons_self) rfl _ rfl
    { (keyed "c").env with id := "a" } mem_cons_self⟩

/-- A hook that no sink wants and that is not archived has no record, and its key answers the next
    one. -/
def unwantedAgain : List Event :=
  [.prepare 1 [{ keyed "a" with rows := [none] }] 0, .group 1 0 true true .ok, .fsync 1,
    .answer 0 true,
   .prepare 2 [{ keyed "b" with rows := [none] }] 0, .group 1 1 true true .ok]

theorem unwantedAgain_not_logged : ∃ s, Run.exec (step small) .start unwantedAgain = some s ∧
    ⟨2, .ok [.duplicate { (keyed "b").env with id := "a" }], [], false⟩ ∈ s.ghost.sent ∧
    "a" ∉ s.ghost.logged :=
  of_exec (P := fun s : State =>
    ⟨2, .ok [.duplicate { (keyed "b").env with id := "a" }], [], false⟩ ∈ s.ghost.sent ∧
      "a" ∉ s.ghost.logged)
    (by decide)

end Ankusa.Dual
