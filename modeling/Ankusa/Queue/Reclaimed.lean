import Ankusa.Queue.Reclaim

set_option autoImplicit false

/-! # What the reclaim deletes

A reclaim deletes on the strength of reads that may be old by the time it writes. That is safe
because a hook that nobody is owed is never owed again: rows and obligations are new only with a new
hook, and every other row that is written belongs to a claimed row of the same hook. So what a call
has read as clear stays clear (`Phase.Sound`), whatever runs beside it.

A sweep alone goes through every marker there was when it began: a marked hook it has not come to
yet has a marker in what is left of the sweep (`Sweeping`). -/

namespace Ankusa.Reclaim

open KV Deliveries List Map Lanes Writer Run
open Delivery (Job Outcome)

variable {cfg : Config} {s s' : State} {st st' : Store} {n q : Nat}

/-! ## Hooks that are owed something -/

/-- A delivery row of the hook is left. -/
def HasRow (st : Store) (q : Nat) : Prop := ∃ i, st.get (.delivery q i) ≠ none

/-- The hook is owed to a sink or to the archive. -/
def Owed (st : Store) (q : Nat) : Prop := HasRow st q ∨ st.get (.archivePending q) ≠ none

/-- The hook has a marker. -/
def Marked (st : Store) (q : Nat) : Prop := ∃ kind sink, st.get (.cleared q kind sink) ≠ none

variable {k : Key} {p : Pair} {ops' : List Op} {α : Type} {lane : Lane} {row : Option Row}
  {hits : List Hit}

theorem mem_keys_iff : k ∈ st.keys ↔ st.get k ≠ none := by
  rw [Map.get, ← Option.isSome_iff_ne_none]
  exact AList.lookup_isSome.symm

theorem hasRow_iff : hasRow st q = true ↔ HasRow st q := by
  unfold hasRow
  rw [any_eq_true]
  constructor
  · rintro ⟨k, hk, hq⟩
    split at hq
    next i =>
      obtain rfl := of_decide_eq_true hq
      exact ⟨i, mem_keys_iff.1 hk⟩
    · cases hq
  · rintro ⟨i, hi⟩
    exact ⟨.delivery q i, mem_keys_iff.2 hi, decide_eq_true rfl⟩

theorem hasArchive_iff : hasArchive st q = true ↔ st.get (.archivePending q) ≠ none := by
  rw [hasArchive, Option.isSome_iff_ne_none]

theorem mem_markersOf : k ∈ markersOf st q ↔ ∃ kind sink,
    k = .cleared q kind sink ∧ st.get k ≠ none := by
  unfold markersOf
  rw [mem_filter, mem_keys_iff]
  constructor
  · rintro ⟨hk, hq⟩
    split at hq
    next kind sink =>
      obtain rfl := of_decide_eq_true hq
      exact ⟨kind, sink, rfl, hk⟩
    · cases hq
  · rintro ⟨kind, sink, rfl, hk⟩
    exact ⟨hk, decide_eq_true rfl⟩

theorem mem_markers : p ∈ markers st ↔ ∃ kind sink, p.2 = .cleared p.1 kind sink ∧
    st.get p.2 ≠ none := by
  unfold markers
  rw [mem_filterMap]
  constructor
  · rintro ⟨k, hk, hp⟩
    split at hp
    next kind sink =>
      cases hp
      exact ⟨kind, sink, rfl, mem_keys_iff.1 hk⟩
    · cases hp
  · rintro ⟨kind, sink, hp, hk⟩
    obtain ⟨q, k⟩ := p
    obtain rfl : k = .cleared q kind sink := hp
    exact ⟨.cleared q kind sink, mem_keys_iff.2 hk, rfl⟩

/-! ## What each batch does to the watched keys -/

variable {ds : List Counters.Delta} {op : Op} {ops : List Op}

/-- The operations of a batch on watched keys. -/
def watch (ops : List Op) : List Op := ops.filter fun op => watched op.key

theorem mem_of_watch (heq : watch ops = ops') (h : op ∈ ops) (hw : watched op.key = true) :
    op ∈ ops' :=
  heq ▸ mem_filter.2 ⟨h, hw⟩

@[simp] theorem watch_nil : watch [] = [] := rfl

@[simp] theorem watch_cons :
    watch (op :: ops) = if watched op.key then op :: watch ops else watch ops := filter_cons

@[simp] theorem watch_append : watch (ops ++ ops') = watch ops ++ watch ops' := filter_append ..

@[simp] theorem watch_flatMap {xs : List α} {f : α → List Op} :
    watch (xs.flatMap f) = xs.flatMap fun x => watch (f x) := filter_flatMap ..

@[simp] theorem watch_counters : watch (Counters.ops ds) = [] := by
  refine filter_eq_nil_iff.2 fun op hop => ?_
  obtain ⟨o, f, d, rfl⟩ := Counters.mem_ops hop
  nofun

theorem mem_of_counters (h : op ∈ ops ++ Counters.ops ds) (hw : watched op.key = true) : op ∈ ops :=
  (mem_append.1 h).resolve_right fun h => not_mem_nil (mem_of_watch watch_counters h hw)

@[simp] theorem watch_coalesce : watch (coalesce ops) = watch ops :=
  filter_coalesce (fun _ _ _ => rfl) fun _ _ _ => rfl

theorem mem_coalesce_watched (h : op ∈ coalesce ops) (hw : watched op.key = true) : op ∈ ops :=
  mem_of_mem_filter (mem_of_watch watch_coalesce h hw)

variable {ord seq sink size durable : Nat} {time : Ms}

@[simp] theorem watch_dueOps {kind : Kind} : watch (dueOps ord time seq sink size kind) = [] := rfl

@[simp] theorem watch_newOps {row : Row} {lane : Option Lane} :
    watch (newOps ord time seq sink size row lane) = [.put (.delivery seq sink) (.row row)] := by
  cases lane <;> simp [newOps, memberOps, watched]

@[simp] theorem watch_vacateOps : watch (vacateOps ord lane) = [] := by
  simp [vacateOps, watched]

@[simp] theorem watch_releaseOps : watch (releaseOps st ord lane time durable) = [] := by
  unfold releaseOps
  split
  · split <;> simp [promoteOps, watched]
  · exact watch_vacateOps

/-- The operations of a batch but for its placeholders. -/
def stated (ops : List BatchOp) : List Op :=
  ops.filterMap fun
    | .op op => some op
    | .laneRelease .. => none

@[simp] theorem stated_append {ops ops' : List BatchOp} :
    stated (ops ++ ops') = stated ops ++ stated ops' :=
  filterMap_append ..

@[simp] theorem stated_ofOps : stated (BatchOp.ofOps ops) = ops := by
  simp [stated, BatchOp.ofOps, filterMap_map]

@[simp] theorem stated_releaseOp : stated (releaseOp ord row) = [] := by
  unfold releaseOp
  split <;> rfl

@[simp] theorem stated_release {src : From} : stated (release ord row src) = [] := by
  unfold release
  split
  · exact stated_releaseOp
  · exact stated_releaseOp
  · exact stated_releaseOp
  · rfl

/-- Resolving the placeholders of a batch adds nothing on a watched key. -/
theorem watch_expand {seen : List (Nat × Lane)} {ops : List BatchOp} :
    watch (Lanes.expand st time durable seen ops) = watch (stated ops) := by
  fun_induction Lanes.expand st time durable seen ops <;> simp_all [stated]

/-- What the outcome of a row writes to the watched keys. -/
def settledOps : Delivery.Result → List Op
  | .delivered j => [.delete (.delivery j.seq j.sink), .put (.cleared j.seq 0 j.sink) .empty]
  | .retry j time error =>
    [.put (.delivery j.seq j.sink) (.row { j.row with time, error := some error })]
  | .dead j time error class? owner =>
    [.put (.delivery j.seq j.sink)
      (.row { j.row with state := .dead, time, error := some error, errorClass := class? }),
     .put (.dead time j.seq j.sink) (.owner owner.1 owner.2 j.ord)]
  | .orphan _ seq sink _ _ => [.delete (.delivery seq sink)]
  | .expand _ seq sink size sourceId sinks existing now =>
    ((sinks.zipIdx.filter fun p => p.2 ∉ existing).map fun p =>
      .put (.delivery seq p.2) (.row (newRow p.1 now size sourceId none none))) ++
    .delete (.delivery seq sink) :: if sinks = [] then [.put (.cleared seq 0 sink) .empty] else []

theorem watch_result (r : Delivery.Result) : watch (stated r.ops) = settledOps r := by
  cases r with
  | delivered | retry | dead | orphan =>
    simp [Delivery.Result.ops, deliveredOps, retryOps, deadOps, orphanOps, leave,
      settledOps, watched]
  | expand ord seq sink size sourceId sinks =>
    have hexpand : watch (if sinks = [] then [.put (.cleared seq 0 sink) .empty] else []) =
        if sinks = [] then [.put (.cleared seq 0 sink) .empty] else [] := by split <;> rfl
    simp [Delivery.Result.ops, expandOps, orphanOps, leave, settledOps, hexpand, watched,
      map_eq_flatMap]

theorem watch_buildOps {rs : List Delivery.Result} :
    watch (Delivery.buildOps st time durable (rs.flatMap Delivery.Result.ops)) =
    rs.flatMap settledOps := by
  rw [Delivery.buildOps, watch_coalesce, watch_expand]
  induction rs with
  | nil => rfl
  | cons r rs ih => rw [flatMap_cons, stated_append, watch_append, watch_result, ih, flatMap_cons]

/-- What clearing rows writes to the watched keys: the rows go and leave markers, and dead keys
    go. -/
def Clears (rows : List (Nat × Nat)) (op : Op) : Prop :=
  (∃ r ∈ rows, op = .delete (.delivery r.1 r.2) ∨ op = .put (.cleared r.1 0 r.2) .empty) ∨
    ∃ time q i, op = .delete (.dead time q i)

/-- A dead row that goes, by age or with its tenant. -/
theorem clears_dead {f : Hit → List Op}
    (hf : ∀ x, watch (f x) = [.delete (.dead x.time x.seq x.sink), .delete (.delivery x.seq x.sink),
      .put (.cleared x.seq 0 x.sink) .empty])
    (h : op ∈ coalesce (hits.flatMap f)) (hw : watched op.key = true) :
    Clears (hits.map fun h => (h.seq, h.sink)) op := by
  obtain ⟨x, hx, h⟩ := mem_flatMap.1 (mem_coalesce_watched h hw)
  have hmem : (x.seq, x.sink) ∈ hits.map fun h => (h.seq, h.sink) := mem_map_of_mem hx
  have h := mem_of_watch (hf x) h hw
  simp only [mem_cons, not_mem_nil, or_false] at h
  exact h.elim (fun h => .inr ⟨_, _, _, h⟩) fun h => .inl ⟨_, hmem, h⟩

theorem mem_evictOps (h : op ∈ evictOps st hits) (hw : watched op.key = true) :
    Clears (hits.map fun h => (h.seq, h.sink)) op :=
  clears_dead (fun x => by simp [evictRow, deadGone, watched]) (evictOps_eq st hits ▸ h) hw

theorem watch_purgeRow {key : Key} (hkey : watched key = false) : watch (purgeRow key seq sink ds) =
    [.delete (.delivery seq sink), .put (.cleared seq 0 sink) .empty] := by
  simp only [purgeRow, watch_append, watch_cons, watch_counters, Op.key, hkey]
  rfl

theorem watch_headOps {pairs : List (Nat × Nat)} : watch (headOps st ord pairs) = [] := by
  refine (filter_flatMap ..).trans (flatMap_eq_nil_iff.2 fun p _ => ?_)
  split
  · split
    · exact watch_vacateOps
    · rfl
  · rfl

theorem mem_purge {p : Purge} (h : op ∈ p.ops st) (hw : watched op.key = true) :
    Clears p.rows op := by
  cases p with
  | due =>
    have h := (mem_append.1 (mem_coalesce_watched h hw)).resolve_left fun h =>
      not_mem_nil (mem_of_watch watch_headOps h hw)
    obtain ⟨d, hd, h⟩ := mem_flatMap.1 h
    exact .inl ⟨_, mem_map_of_mem hd, by simpa using mem_of_watch (watch_purgeRow rfl) h hw⟩
  | members =>
    obtain ⟨m, hm, h⟩ := mem_flatMap.1 (mem_coalesce_watched h hw)
    exact .inl ⟨_, mem_map_of_mem hm, by simpa using mem_of_watch (watch_purgeRow rfl) h hw⟩
  | dead => exact clears_dead (fun x => by simp [purgeDeadRow, watched]) h hw

theorem mem_archivedOps {archived missing : List Nat} (h : op ∈ archivedOps st archived missing)
    (hw : watched op.key = true) :
    (∃ q, op = .delete (.archivePending q)) ∨ ∃ q ∈ archived,
    op = .put (.cleared q 1 0) .empty := by
  rcases mem_append.1 (mem_of_counters (mem_coalesce_watched h hw) hw) with h | h
  · obtain ⟨q, hq, h⟩ := mem_flatMap.1 h
    exact (mem_pair.1 h).imp (fun h => ⟨q, h⟩) fun h => ⟨q, hq, h⟩
  · obtain ⟨q, -, rfl⟩ := mem_map.1 h
    exact .inl ⟨q, rfl⟩

variable {pairs : List Pair} {owed : List Nat} {leases : List (Nat × List Op)}

/-- The batch of a reclaim only deletes, but for leases. -/
theorem mem_runOps (h : op ∈ runOps st pairs owed leases) (hw : watched op.key = true)
    (hleases : ∀ x ∈ leases, ∀ op ∈ x.2, watched op.key = false) :
    ∃ q ∈ seqsOf pairs, (q ∈ owed ∧ ∃ k, (q, k) ∈ pairs ∧ op = .delete k) ∨
      q ∉ owed ∧ (op = .delete (.hook q) ∨ ∃ kind sink, op = .delete (.cleared q kind sink)) := by
  obtain ⟨q, hq, h⟩ := mem_flatMap.1 h
  refine ⟨q, hq, ?_⟩
  split at h
  next hin =>
    obtain ⟨p, hp, rfl⟩ := mem_map.1 h
    obtain ⟨hmem, he⟩ := mem_filter.1 hp
    obtain rfl : p.1 = q := of_decide_eq_true he
    exact .inl ⟨hin, p.2, hmem, rfl⟩
  next hout =>
    refine .inr ⟨hout, ?_⟩
    rcases mem_append.1 h with h | h
    · rcases mem_append.1 h with h | h
      · rcases mem_pair.1 h with rfl | rfl
        · exact .inl rfl
        · cases hw
      · obtain ⟨k, hk, rfl⟩ := mem_map.1 h
        obtain ⟨kind, sink, rfl, -⟩ := mem_markersOf.1 hk
        exact .inr ⟨kind, sink, rfl⟩
    · cases hl : leases.lookup q with
      | none => simp [hl] at h
      | some ops =>
        rw [hl, Option.getD_some] at h
        obtain ⟨l₁, l₂, heq, -⟩ := lookup_eq_some_iff.1 hl
        have hmem : (q, ops) ∈ leases := by simp [heq]
        rw [hleases _ hmem op h] at hw
        cases hw

variable {now : Ms} {seqs : List Nat}

theorem graceLeases_unwatched {x : Nat × List Op}
    (hx : x ∈ graceLeases cfg st now seqs) : ∀ op ∈ x.2, watched op.key = false := by
  obtain ⟨q, -, hx⟩ := mem_filterMap.1 hx
  split at hx
  · obtain ⟨c, -, rfl⟩ := Option.map_eq_some_iff.1 hx
    exact forall_mem_singleton.2 rfl
  · cases hx

/-! ## The invariant -/

/-- The row is still to be delivered. -/
def Pending (st : Store) (q i : Nat) : Prop :=
  ∃ row, st.get (.delivery q i) = some (.row row) ∧ row.state = .pending

/-- The row is dead, or on a page of dead rows that is about to be evicted. -/
def Doomed (st : Store) (hits : List (List Hit)) (q i : Nat) : Prop :=
  (∃ time, st.get (.dead time q i) ≠ none) ∨ ∃ page ∈ hits, ∃ h ∈ page, h.seq = q ∧ h.sink = i

/-- What a call has read as clear is clear. -/
def Phase.Sound (st : Store) (seqs : List Nat) : Phase → Prop
  | .begun => True
  | .probed rows => ∃ f, rows = seqs.map f ∧ ∀ q ∈ seqs, f q = false → ¬ HasRow st q
  | .judged owed => ∀ q ∈ seqs, q ∉ owed → ¬ Owed st q
  | .leased owed leases => (∀ q ∈ seqs, q ∉ owed → ¬ Owed st q) ∧
      ∀ x ∈ leases, ∀ op ∈ x.2, watched op.key = false

/-- What a call has read is still so where it matters. -/
structure Call.Sound (st : Store) (n : Nat) (c : Call) : Prop where
  pairs : ∀ p ∈ c.pairs ++ c.rest.flatten, p.1 < n ∧ ∃ kind sink, p.2 = .cleared p.1 kind sink
  phase : c.phase.Sound st (seqsOf c.pairs)

/-- What holds in every state of the store and its processes. -/
structure Sound (s : State) : Prop where
  below : ∀ k q, watched k = true → k.seq? = some q → s.store.get k ≠ none → q < s.nextSeq
  rows : ∀ j ∈ s.claimed, j.row.state = .pending ∧
    s.store.get (.delivery j.seq j.sink) = some (.row j.row)
  apart : (s.claimed.map jobRow).Nodup
  dead : ∀ q i, Doomed s.store s.hits q i → q < s.nextSeq ∧ ¬ Pending s.store q i
  /-- Beside an imported row that waits to be expanded no row of its hook is pending, and no row of
      a sink is about to be evicted. -/
  imported : ∀ q i, unresolved i = true → Pending s.store q i → ∀ i', i' ≠ i →
    ¬ Pending s.store q i' ∧ (unresolved i' = false → ¬ Doomed s.store s.hits q i')
  segments : ∀ g ∈ s.segments, ∀ q ∈ g.1, q < s.nextSeq
  calls : ∀ c ∈ s.calls, c.Sound s.store s.nextSeq

theorem mem_seqsOf : q ∈ seqsOf pairs ↔ ∃ k, (q, k) ∈ pairs := by
  simp [seqsOf]

variable {c : Call}

/-- What a call has read stays true where no hook becomes owed again. -/
theorem Call.Sound.mono {n' : Nat} (h : c.Sound st n) (hn : n ≤ n')
    (hrow : ∀ q < n, HasRow st' q → HasRow st q) (howed : ∀ q < n, Owed st' q → Owed st q) :
    c.Sound st' n' := by
  have hlt : ∀ q ∈ seqsOf c.pairs, q < n := by
    intro q hq
    obtain ⟨k, hk⟩ := mem_seqsOf.1 hq
    exact (h.pairs _ (mem_append_left _ hk)).1
  refine ⟨fun p hp => ⟨(h.pairs p hp).1.trans_le hn, (h.pairs p hp).2⟩, ?_⟩
  have hphase := h.phase
  cases hc : c.phase with
  | begun => trivial
  | probed =>
    rw [hc] at hphase
    obtain ⟨f, hf, hclear⟩ := hphase
    exact ⟨f, hf, fun q hq hfq hr => hclear q hq hfq (hrow q (hlt q hq) hr)⟩
  | judged =>
    rw [hc] at hphase
    exact fun q hq hout ho => hphase q hq hout (howed q (hlt q hq) ho)
  | leased =>
    rw [hc] at hphase
    exact ⟨fun q hq hout ho => hphase.1 q hq hout (howed q (hlt q hq) ho), hphase.2⟩

variable {i : Nat}

theorem not_pending_of_ne_row (h : st.get (.delivery q i) = none) : ¬ Pending st q i := by
  rintro ⟨row, hrow, -⟩
  rw [h] at hrow
  cases hrow

theorem pending_write (h : Pending (st.write ops) q i) :
    Pending st q i ∨ ∃ row, row.state = .pending ∧ .put (.delivery q i) (.row row) ∈ ops := by
  obtain ⟨row, hget, hpending⟩ := h
  have hnum : ∀ n, Val.row row ≠ Num.ofInt n :=
    fun n hn => nomatch (show Val.row row = Val.count n from hn)
  rcases get_write_of_not_num hnum hget with hold | hput
  · exact .inl ⟨row, hold, hpending⟩
  · exact .inr ⟨row, hpending, hput⟩

/-- A batch that makes nothing but markers, and leaves the claimed rows alone. -/
theorem Sound.shrink (h : Sound s) (ops : List Op)
    (hmakes : ∀ op ∈ ops, op.creates = true → watched op.key = true →
      ∃ q kind sink, op.key = .cleared q kind sink ∧ q < s.nextSeq)
    (hclaimed : ∀ op ∈ ops, ∀ j ∈ s.claimed, op.key ≠ .delivery j.seq j.sink) :
    Sound { s with store := s.store.write ops } := by
  have hold : ∀ k, watched k = true → (∀ q kind sink, k ≠ .cleared q kind sink) →
      (s.store.write ops).get k ≠ none → s.store.get k ≠ none := by
    intro k hw hk hget
    refine (get_write_ne_none hget).resolve_right ?_
    rintro ⟨op, hop, hc, rfl⟩
    obtain ⟨q, kind, sink, he, -⟩ := hmakes op hop hc hw
    exact hk _ _ _ he
  have hrow : ∀ q, HasRow (s.store.write ops) q → HasRow s.store q := fun q =>
    Exists.imp fun i => hold _ rfl fun _ _ _ => nofun
  have hpending : ∀ q i, Pending (s.store.write ops) q i → Pending s.store q i := by
    intro q i hp
    refine (pending_write hp).resolve_right ?_
    rintro ⟨row, -, hput⟩
    obtain ⟨q', kind, sink, he, -⟩ := hmakes _ hput rfl rfl
    cases he
  have hdoomed : ∀ q i, Doomed (s.store.write ops) s.hits q i → Doomed s.store s.hits q i :=
    fun q i hd =>
    hd.imp (Exists.imp fun time => hold _ rfl fun _ _ _ => nofun) id
  refine
    { h with
      below := fun k q hw hq hget => ?_
      rows := fun j hj => ⟨(h.rows j hj).1, ?_⟩
      dead := fun q i hd => ⟨(h.dead q i (hdoomed q i hd)).1,
        fun hp => (h.dead q i (hdoomed q i hd)).2 (hpending q i hp)⟩
      imported := fun q i hu hp i' hne => ?_
      calls := fun c hc => (h.calls c hc).mono le_rfl (fun q _ => hrow q) fun q _ ho =>
        ho.imp (hrow q) (hold _ rfl fun _ _ _ => nofun) }
  · rcases get_write_ne_none hget with hget | ⟨op, hop, hc, rfl⟩
    · exact h.below k q hw hq hget
    · obtain ⟨q', kind, sink, he, hlt⟩ := hmakes op hop hc hw
      rw [he] at hq
      cases hq
      exact hlt
  · exact (get_untouched _ fun op hop => hclaimed op hop j hj).trans (h.rows j hj).2
  · obtain ⟨hother, hclear⟩ := h.imported q i hu (hpending q i hp) i' hne
    exact ⟨fun hp' => hother (hpending q i' hp'), fun hr hd => hclear hr (hdoomed q i' hd)⟩

/-- The watched keys a new hook has: its own, rows of its sinks, and the archive obligation. -/
def NewKey (k : Key) : Prop :=
  (∃ q, k = .hook q) ∨ (∃ q i, k = .delivery q i ∧ unresolved i = false) ∨ ∃ q,
    k = .archivePending q

variable {items : List Item}

theorem newKey_of_mem_buildOps {first : Nat} {archive : Bool}
    {ords : List (String × Nat)} (hsinks : ∀ item ∈ items, item.rows.length ≤ unresolvedDead)
    (hop : op ∈ buildOps items first now archive ords) (hw : watched op.key = true) :
    NewKey op.key := by
  rcases mem_cons.1 hop with rfl | hop
  · cases hw
  obtain ⟨⟨item, seq⟩, hp, hop⟩ := (mem_foldl_append hop).resolve_right not_mem_nil
  have hlen := hsinks item (fst_mem_of_mem_zipIdx hp)
  refine within_hookOps (P := fun op => watched op.key = true → NewKey op.key) archive
    (fun _ => .inl ⟨seq, rfl⟩) (fun op hop hw => ?_) (fun op hop hw => ?_) op hop hw
  · obtain ⟨⟨row, sink⟩, hr, hop⟩ := mem_flatMap.1 hop
    have hsink : sink < 0 + item.rows.length := snd_lt_add_of_mem_zipIdx hr
    rw [Nat.zero_add] at hsink
    cases row with
    | none => cases hop
    | some =>
      rw [mem_singleton.1 (mem_of_watch watch_newOps hop hw)]
      exact .inr (.inl ⟨seq, sink, rfl, decide_eq_false (not_le.2 (hsink.trans_le hlen))⟩)
  · obtain rfl := mem_singleton.1 (mem_of_counters hop hw)
    exact .inr (.inr ⟨seq, rfl⟩)

theorem Sound.commit (h : Sound s) (hsinks : ∀ item ∈ items, item.rows.length ≤ unresolvedDead)
    (now : Ms) (archive : Bool) (ords : List (String × Nat)) : Sound { s with
      store := s.store.write (coalesce (buildOps items s.nextSeq now archive ords))
      nextSeq := s.nextSeq + items.length } := by
  have hops : ∀ op ∈ coalesce (buildOps items s.nextSeq now archive ords), watched op.key = true →
      NewKey op.key ∧ ∀ q, op.key.seq? = some q → s.nextSeq ≤ q ∧ q < s.nextSeq + items.length :=
    fun op hop hw => ⟨newKey_of_mem_buildOps hsinks (mem_coalesce_watched hop hw) hw,
      fun q hq => buildOps_seq (mem_coalesce_watched hop hw) hq⟩
  revert hops
  generalize coalesce (buildOps items s.nextSeq now archive ords) = ops
  intro hops
  -- The batch touches no hook that is there.
  have hold : ∀ k q, watched k = true → k.seq? = some q → q < s.nextSeq →
      (s.store.write ops).get k = s.store.get k := by
    intro k q hw hq hlt
    refine get_untouched _ fun op hop hk => ?_
    subst hk
    exact absurd ((hops op hop hw).2 q hq).1 (not_le.2 hlt)
  have hrow : ∀ q < s.nextSeq, HasRow (s.store.write ops) q → HasRow s.store q := fun q hq =>
    Exists.imp fun i hi => hold (.delivery q i) q rfl rfl hq ▸ hi
  have hfresh : ∀ q i, Pending (s.store.write ops) q i → Pending s.store q i ∨
      s.nextSeq ≤ q ∧ unresolved i = false := by
    intro q i hp
    refine (pending_write hp).imp_right ?_
    rintro ⟨row, -, hput⟩
    refine ⟨((hops _ hput rfl).2 q rfl).1, ?_⟩
    rcases (hops _ hput rfl).1 with ⟨q', hk⟩ | ⟨q', i', hk, hu⟩ | ⟨q', hk⟩ <;> cases hk
    exact hu
  have hdoomed : ∀ q i, Doomed (s.store.write ops) s.hits q i → Doomed s.store s.hits q i := by
    refine fun q i hd => hd.imp_left (Exists.imp fun time ht => ?_)
    refine (get_write_ne_none ht).resolve_right ?_
    rintro ⟨op, hop, -, hk⟩
    rcases (hops op hop (by rw [hk]; rfl)).1 with ⟨q', hk'⟩ | ⟨q', i', hk', -⟩ | ⟨q', hk'⟩ <;>
      rw [hk] at hk' <;> cases hk'
  have hpending : ∀ q i, q < s.nextSeq → Pending (s.store.write ops) q i → Pending s.store q i :=
    fun q i hlt hp => (hfresh q i hp).resolve_right fun hnew => absurd hnew.1 (not_le.2 hlt)
  refine
    { below := fun k q hw hq hget => ?_
      rows := fun j hj => ⟨(h.rows j hj).1, ?_⟩
      apart := h.apart
      dead := fun q i hd => ?_
      imported := fun q i hu hp i' hne => ?_
      segments := fun g hg q hq => (h.segments g hg q hq).trans_le (Nat.le_add_right _ _)
      calls := fun c hc => (h.calls c hc).mono (Nat.le_add_right _ _) hrow fun q hq ho =>
        ho.imp (hrow q hq) (hold (.archivePending q) q rfl rfl hq ▸ ·) }
  · rcases get_write_ne_none hget with hget | ⟨op, hop, -, rfl⟩
    · exact (h.below k q hw hq hget).trans_le (Nat.le_add_right _ _)
    · exact ((hops op hop hw).2 q hq).2
  · have hrow := (h.rows j hj).2
    rw [hold _ j.seq rfl rfl (h.below (.delivery j.seq j.sink) j.seq rfl rfl (by rw [hrow]; nofun)),
      hrow]
  · obtain ⟨hlt, hnot⟩ := h.dead q i (hdoomed q i hd)
    exact ⟨hlt.trans_le (Nat.le_add_right _ _), fun hp => hnot (hpending q i hlt hp)⟩
  · rcases hfresh q i hp with hp | ⟨-, hr⟩
    · have hlt : q < s.nextSeq := by
        obtain ⟨row, hrow, -⟩ := hp
        exact h.below (.delivery q i) q rfl rfl (by rw [hrow]; nofun)
      obtain ⟨hother, hclear⟩ := h.imported q i hu hp i' hne
      exact ⟨fun hp' => hother (hpending q i' hlt hp'), fun hr hd => hclear hr (hdoomed q i' hd)⟩
    · rw [hr] at hu
      cases hu

/-! ## Outcomes of claimed rows -/

theorem mem_existingSinks (hi : st.get (.delivery q i) ≠ none) (hu : unresolved i = false) :
    i ∈ existingSinks st q :=
  mem_filterMap.2 ⟨.delivery q i, mem_keys_iff.2 hi, by simp [hu]⟩

/-- The result of a claimed row that is not expanded is of one of four kinds. -/
theorem Settled.result_cases (st : Store) (j : Job) (σ : Settled) : (σ.result st j = .delivered j) ∨
    (∃ j' time error, jobRow j' = jobRow j ∧ j'.row.state = j.row.state ∧
      σ.result st j = .retry j' time error) ∨
    (∃ j' time error class? owner, jobRow j' = jobRow j ∧
      σ.result st j = .dead j' time error class? owner) ∨
    (σ.result st j = .orphan j.ord j.seq j.sink j.size (some j.row)) ∨
    ∃ sourceId sinks now, σ = .expand sourceId sinks now := by
  cases σ with
  | outcome o =>
    cases o with
    | delivered => exact .inl rfl
    | retry time error => exact .inr (.inl ⟨j.attempted, time, error, rfl, rfl, rfl⟩)
    | gaveUp time error class? owner =>
      exact .inr (.inr (.inl ⟨j.attempted, time, error, class?, owner, rfl, rfl⟩))
    | parked time => exact .inr (.inl ⟨j, time, "breaker open", rfl, rfl, rfl⟩)
  | dead time error class? owner =>
    exact .inr (.inr (.inl ⟨j, time, error, class?, owner, rfl, rfl⟩))
  | later time error => exact .inr (.inl ⟨j, time, error, rfl, rfl, rfl⟩)
  | orphan => exact .inr (.inr (.inr (.inl rfl)))
  | expand sourceId sinks now => exact .inr (.inr (.inr (.inr ⟨sourceId, sinks, now, rfl⟩)))

/-- An operation of a settled row: on the row, its marker or its dead key, or a new row beside an
    imported one. -/
inductive Settles (st : Store) (j : Job) : Op → Prop
  | gone : Settles st j (.delete (.delivery j.seq j.sink))
  | marker : Settles st j (.put (.cleared j.seq 0 j.sink) .empty)
  | row (v : Val) : Settles st j (.put (.delivery j.seq j.sink) v)
  | dead (time : Ms) (v : Val) : Settles st j (.put (.dead time j.seq j.sink) v)
  | fresh (i : Nat) (v : Val) (hj : unresolved j.sink = true) (hi : unresolved i = false)
      (hnone : st.get (.delivery j.seq i) = none) : Settles st j (.put (.delivery j.seq i) v)

variable {j : Job} {σ : Settled}

theorem settles (hok : σ.ok st j = true) (hop : op ∈ settledOps (σ.result st j)) :
    Settles st j op := by
  rcases σ.result_cases st j with h | ⟨j', time, error, hrow, -, h⟩ |
    ⟨j', time, error, class?, owner, hrow, h⟩ | h | ⟨sourceId, sinks, now, rfl⟩
  · rw [h] at hop
    rcases mem_pair.1 hop with rfl | rfl
    · exact .gone
    · exact .marker
  · rw [h] at hop
    obtain ⟨hq, hi⟩ := Prod.mk.inj hrow
    obtain rfl := mem_singleton.1 hop
    rw [hq, hi]
    exact .row _
  · rw [h] at hop
    obtain ⟨hq, hi⟩ := Prod.mk.inj hrow
    rcases mem_pair.1 hop with rfl | rfl <;> rw [hq, hi]
    · exact .row _
    · exact .dead _ _
  · rw [h] at hop
    obtain rfl := mem_singleton.1 hop
    exact .gone
  · obtain ⟨hj, hlen⟩ := Bool.and_eq_true_iff.1 hok
    rcases mem_append.1 hop with hop | hop
    · obtain ⟨p, hp, rfl⟩ := mem_map.1 hop
      obtain ⟨hp, hout⟩ := mem_filter.1 hp
      have hlt : p.2 < 0 + sinks.length := snd_lt_add_of_mem_zipIdx hp
      rw [Nat.zero_add] at hlt
      have hi : unresolved p.2 = false :=
        decide_eq_false (not_le.2 (hlt.trans_le (of_decide_eq_true hlen)))
      refine .fresh p.2 _ hj hi ?_
      by_contra hsome
      exact of_decide_eq_true hout (mem_existingSinks hsome hi)
    · rcases mem_cons.1 hop with rfl | hop
      · exact .gone
      · split at hop
        · obtain rfl := mem_singleton.1 hop
          exact .marker
        · cases hop

variable {v : Val}

/-- A row that is filed as dead is put as dead. -/
theorem settled_dead (hop : .put (.dead time q i) v ∈ settledOps (σ.result st j)) :
    ∃ row, row.state = .dead ∧ .put (.delivery q i) (.row row) ∈ settledOps (σ.result st j) ∧
      ∀ op ∈ settledOps (σ.result st j), op.key = .delivery q i → op = .put (.delivery q i)
      (.row row) := by
  rcases σ.result_cases st j with h | ⟨j', time', error, hrow, -, h⟩ |
    ⟨j', time', error, class?, owner, hrow, h⟩ | h | ⟨sourceId, sinks, now, rfl⟩
  · simp [h, settledOps] at hop
  · simp [h, settledOps] at hop
  · rw [h] at hop ⊢
    simp only [settledOps, mem_cons, not_mem_nil, or_false, reduceCtorEq, false_and, false_or,
      KV.Op.put.injEq, Key.dead.injEq] at hop
    obtain ⟨⟨rfl, rfl, rfl⟩, rfl⟩ := hop
    refine ⟨_, rfl, mem_cons_self, fun op hop hk => ?_⟩
    rcases mem_cons.1 hop with rfl | hop
    · rfl
    · obtain rfl := mem_singleton.1 hop
      cases hk
  · simp [h, settledOps] at hop
  · simp [Settled.result, settledOps] at hop

/-- A new row is put beside an imported row that goes. -/
theorem settled_fresh (hok : σ.ok st j = true)
    (hop : .put (.delivery j.seq i) v ∈ settledOps (σ.result st j)) (hne : i ≠ j.sink) :
    .delete (.delivery j.seq j.sink) ∈ settledOps (σ.result st j) ∧
      ∀ op ∈ settledOps (σ.result st j), op.key = .delivery j.seq j.sink →
      op = .delete (.delivery j.seq j.sink) := by
  rcases σ.result_cases st j with h | ⟨j', time, error, hrow, -, h⟩ |
    ⟨j', time, error, class?, owner, hrow, h⟩ | h | ⟨sourceId, sinks, now, rfl⟩
  · simp [h, settledOps] at hop
  · obtain ⟨-, hi⟩ := Prod.mk.inj hrow
    simp only [h, settledOps, mem_singleton, KV.Op.put.injEq, Key.delivery.injEq] at hop
    exact absurd (hop.1.2.trans hi) hne
  · obtain ⟨-, hi⟩ := Prod.mk.inj hrow
    simp only [h, settledOps, mem_cons, not_mem_nil, or_false, reduceCtorEq, KV.Op.put.injEq,
      Key.delivery.injEq, false_and] at hop
    exact absurd (hop.1.2.trans hi) hne
  · simp [h, settledOps] at hop
  · refine ⟨mem_append_right _ mem_cons_self, fun op hop hk => ?_⟩
    obtain ⟨hj, hlen⟩ := Bool.and_eq_true_iff.1 hok
    rcases mem_append.1 hop with hop | hop
    · obtain ⟨p, hp, rfl⟩ := mem_map.1 hop
      have hlt : p.2 < 0 + sinks.length := snd_lt_add_of_mem_zipIdx (mem_filter.1 hp).1
      rw [Nat.zero_add] at hlt
      obtain ⟨-, he⟩ := Key.delivery.inj hk
      rw [he] at hlt
      exact absurd (of_decide_eq_true hj) (not_le.2 (hlt.trans_le (of_decide_eq_true hlen)))
    · rcases mem_cons.1 hop with rfl | hop
      · rfl
      · split at hop
        · obtain rfl := mem_singleton.1 hop
          cases hk
        · cases hop

section Settle

variable {results : List (Job × Settled)} {ops : List Op} (h : Sound s)
  (hin : ∀ r ∈ results, r.1 ∈ s.claimed ∧ r.2.ok s.store r.1 = true)
  (hops : ∀ op ∈ ops, watched op.key = true → ∃ r ∈ results,
    op ∈ settledOps (r.2.result s.store r.1))
include h hin hops

/-- The operations on a claimed row are those of its own outcome. -/
theorem settled_own (hj : j ∈ s.claimed) (hop : op ∈ ops) (hk : op.key = .delivery j.seq j.sink) :
    ∃ σ, (j, σ) ∈ results ∧ op ∈ settledOps (σ.result s.store j) := by
  obtain ⟨⟨j', σ⟩, hr, hop⟩ := hops op hop (by rw [hk]; rfl)
  obtain ⟨hj', hok⟩ := hin _ hr
  have hsame : jobRow j' = jobRow j → j' = j := fun he => inj_on_of_nodup_map h.apart hj' hj he
  have hrow := (h.rows j hj).2
  cases settles hok hop with
  | gone | row =>
    obtain ⟨hq, hi⟩ := Key.delivery.inj hk
    obtain rfl := hsame (Prod.ext hq hi)
    exact ⟨σ, hr, hop⟩
  | fresh i v hu hi hnone =>
    obtain ⟨hq, rfl⟩ := Key.delivery.inj hk
    rw [hq, hrow] at hnone
    cases hnone
  | marker | dead => cases hk

theorem Sound.settle (hnodup : (results.map Prod.fst).Nodup)
    (hall : ∀ r ∈ results, ∀ op ∈ settledOps (r.2.result s.store r.1), watched op.key = true →
      op ∈ ops) :
    Sound { s with
      store := s.store.write ops
      claimed := s.claimed.filter fun j => j ∉ results.map Prod.fst } := by
  have hpresent : ∀ j ∈ s.claimed, Pending s.store j.seq j.sink ∧ j.seq < s.nextSeq := by
    intro j hj
    obtain ⟨hstate, hrow⟩ := h.rows j hj
    exact ⟨⟨j.row, hrow, hstate⟩, h.below (.delivery j.seq j.sink) _ rfl rfl (by rw [hrow]; nofun)⟩
  have hsettles : ∀ op ∈ ops, watched op.key = true → ∃ j ∈ s.claimed, Settles s.store j op := by
    intro op hop hw
    obtain ⟨r, hr, hop⟩ := hops op hop hw
    exact ⟨r.1, (hin r hr).1, settles (hin r hr).2 hop⟩
  -- Each claimed row has one outcome.
  have hone : ∀ {j σ σ'}, (j, σ) ∈ results → (j, σ') ∈ results → σ = σ' := fun h₁ h₂ =>
    (Prod.mk.inj (inj_on_of_nodup_map hnodup h₁ h₂ rfl)).2
  -- A row is pending that was pending before, or that is new beside an imported row that goes.
  have hpending : ∀ q i, Pending (s.store.write ops) q i → Pending s.store q i ∨
      unresolved i = false ∧ ∃ j ∈ s.claimed, j.seq = q ∧ unresolved j.sink = true ∧
        (s.store.write ops).get (.delivery q j.sink) = none := by
    intro q i hp
    rcases pending_write hp with hp | ⟨row, -, hput⟩
    · exact .inl hp
    obtain ⟨⟨j, σ⟩, hr, hop⟩ := hops _ hput rfl
    obtain ⟨hj, hok⟩ := hin _ hr
    cases settles hok hop with
    | row => exact .inl (hpresent j hj).1
    | fresh i v hu hi =>
      refine .inr ⟨hi, j, hj, rfl, hu, ?_⟩
      have hne : i ≠ j.sink := by
        rintro rfl
        rw [hu] at hi
        cases hi
      obtain ⟨hdel, honly⟩ := settled_fresh hok hop hne
      refine get_write_delete _ (hall _ hr _ hdel rfl) fun op hop hk => ?_
      obtain ⟨σ', hr', hop'⟩ := settled_own h hin hops hj hop hk
      obtain rfl := hone hr hr'
      exact honly op hop' hk
  have hdoomed : ∀ q i, Doomed (s.store.write ops) s.hits q i → Doomed s.store s.hits q i ∨
      (Pending s.store q i ∧ q < s.nextSeq ∧ ¬ Pending (s.store.write ops) q i) := by
    rintro q i (⟨time, ht⟩ | hpage)
    · rcases get_write_ne_none ht with ht | ⟨op, hop, hc, hk⟩
      · exact .inl (.inl ⟨time, ht⟩)
      obtain ⟨⟨j, σ⟩, hr, hmem⟩ := hops op hop (by rw [hk]; rfl)
      obtain ⟨hj, hok⟩ := hin _ hr
      cases settles hok hmem with
      | dead =>
        cases hk
        refine .inr ⟨(hpresent j hj).1, (hpresent j hj).2, ?_⟩
        obtain ⟨row, hstate, hput, honly⟩ := settled_dead hmem
        have hget := get_write_put s.store (hall _ hr _ hput rfl) fun op hop hk => by
          obtain ⟨σ', hr', hop'⟩ := settled_own h hin hops hj hop hk
          obtain rfl := hone hr hr'
          exact honly op hop' hk
        rintro ⟨row', hrow', hpend⟩
        rw [hget] at hrow'
        obtain rfl := Val.row.inj (Option.some.inj hrow')
        rw [hstate] at hpend
        cases hpend
      | gone | marker | row | fresh => cases hk
    · exact .inl (.inr hpage)
  have hrow : ∀ q, HasRow (s.store.write ops) q → HasRow s.store q := by
    rintro q ⟨i, hi⟩
    rcases get_write_ne_none hi with hi | ⟨op, hop, hc, hk⟩
    · exact ⟨i, hi⟩
    obtain ⟨j, hj, hset⟩ := hsettles op hop (by rw [hk]; rfl)
    have hjrow : HasRow s.store j.seq := ⟨j.sink, by rw [(h.rows j hj).2]; nofun⟩
    cases hset with
    | gone => cases hc
    | marker | dead => cases hk
    | row | fresh =>
      cases hk
      exact hjrow
  have harchive : ∀ q, (s.store.write ops).get (.archivePending q) ≠ none →
      s.store.get (.archivePending q) ≠ none := by
    intro q hq
    refine (get_write_ne_none hq).resolve_right ?_
    rintro ⟨op, hop, -, hk⟩
    obtain ⟨j, -, hset⟩ := hsettles op hop (by rw [hk]; rfl)
    cases hset <;> cases hk
  refine
    { h with
      below := fun k q hw hq hget => ?_
      rows := fun j hj => ?_
      apart := h.apart.sublist ((filter_sublist).map jobRow)
      dead := fun q i hd => ?_
      imported := fun q i hu hp i' hne => ?_
      calls := fun c hc => (h.calls c hc).mono le_rfl (fun q _ => hrow q) fun q _ ho =>
        ho.imp (hrow q) (harchive q) }
  · rcases get_write_ne_none hget with hget | ⟨op, hop, hc, rfl⟩
    · exact h.below k q hw hq hget
    · obtain ⟨j, hj, hset⟩ := hsettles op hop hw
      have hlt := (hpresent j hj).2
      cases hset <;> obtain rfl := Option.some.inj hq <;> exact hlt
  · obtain ⟨hj, hout⟩ := mem_filter.1 hj
    refine ⟨(h.rows j hj).1, (get_untouched _ fun op hop hk => ?_).trans (h.rows j hj).2⟩
    obtain ⟨σ, hr, -⟩ := settled_own h hin hops hj hop hk
    exact of_decide_eq_true hout (mem_map.2 ⟨_, hr, rfl⟩)
  · rcases hdoomed q i hd with hd | ⟨-, hlt, hnot⟩
    · obtain ⟨hlt, hnot⟩ := h.dead q i hd
      refine ⟨hlt, fun hp => ?_⟩
      rcases hpending q i hp with hp | ⟨hi, j, hj, rfl, hu, -⟩
      · exact hnot hp
      · have hne : i ≠ j.sink := by
          rintro rfl
          rw [hu] at hi
          cases hi
        exact (h.imported j.seq j.sink hu (hpresent j hj).1 i hne).2 hi hd
    · exact ⟨hlt, hnot⟩
  · rcases hpending q i hp with hold | ⟨hi, -⟩
    · obtain ⟨hother, hclear⟩ := h.imported q i hu hold i' hne
      refine ⟨fun hp' => ?_, fun hr hd => ?_⟩
      · rcases hpending q i' hp' with hp' | ⟨hi', j, hj, rfl, huj, hgone⟩
        · exact hother hp'
        · -- The imported row that makes way is the only pending one.
          by_cases he : j.sink = i
          · subst he
            exact not_pending_of_ne_row hgone hp
          · exact (h.imported j.seq i hu hold j.sink he).1 (hpresent j hj).1
      · rcases hdoomed q i' hd with hd | ⟨hp', -⟩
        · exact hclear hr hd
        · exact hother hp'
    · rw [hi] at hu
      cases hu

end Settle

/-! ## Steps -/

theorem Sound.call (h : Sound s) (hc : c.Sound s.store s.nextSeq) :
    Sound { s with calls := s.calls ++ [c] } :=
  { h with calls := forall_mem_append.2 ⟨h.calls, forall_mem_singleton.2 hc⟩ }

theorem Call.sound_of (h : ∀ p ∈ pairs, p.1 < n ∧ ∃ kind sink, p.2 = .cleared p.1 kind sink) :
    (Call.of pairs).Sound st n :=
  ⟨fun p hp => h p (by simpa [Call.of] using hp), trivial⟩

theorem Sound.clear (h : Sound s) (rows : List (Nat × Nat)) (ops : List Op)
    (hops : ∀ op ∈ ops, watched op.key = true → Clears rows op) (hlt : ∀ r ∈ rows, r.1 < s.nextSeq)
    (hfree : ∀ r ∈ rows, r ∉ s.claimed.map jobRow) :
    Sound { s with store := s.store.write ops } := by
  refine h.shrink _ (fun op hop hc hw => ?_) fun op hop j hj hk => ?_
  · rcases hops op hop hw with ⟨r, hr, rfl | rfl⟩ | ⟨time, q, i, rfl⟩
    · cases hc
    · exact ⟨r.1, 0, r.2, rfl, hlt r hr⟩
    · cases hc
  · rcases hops op hop (by rw [hk]; rfl) with ⟨r, hr, rfl | rfl⟩ | ⟨time, q, i, rfl⟩
    · obtain ⟨hq, hi⟩ := Key.delivery.inj hk
      exact hfree r hr (mem_map.2 ⟨j, hj, Prod.ext hq.symm hi.symm⟩)
    · cases hk
    · cases hk

theorem mem_owedSeqs (f g : Nat → Bool) :
    owedSeqs seqs (seqs.map f) (seqs.map g) = seqs.filter fun q => f q || g q := by
  unfold owedSeqs
  induction seqs with
  | nil => rfl
  | cons q seqs ih =>
    simp only [map_cons, zip_cons_cons, filter_cons]
    split
    · rw [map_cons, ih]
    · exact ih

variable {c' : Call}

theorem Call.Sound.read (h : c.Sound st n) (hread : c.read cfg st now = some c') :
    c'.Sound st n := by
  obtain ⟨pairs, phase, rest⟩ := c
  cases phase with
  | begun =>
    cases hread
    exact ⟨h.pairs, hasRow st, rfl, fun q _ hq hrow => by rw [hasRow_iff.2 hrow] at hq; cases hq⟩
  | probed rows =>
    cases hread
    refine ⟨h.pairs, fun q hq hout howed => ?_⟩
    obtain ⟨f, hrows, hclear⟩ := h.phase
    have hrows : rows = (seqsOf pairs).map f := hrows
    change q ∉ owedSeqs (seqsOf pairs) rows ((seqsOf pairs).map (hasArchive st)) at hout
    rw [hrows, mem_owedSeqs, mem_filter, not_and] at hout
    obtain ⟨hf, hg⟩ := Bool.or_eq_false_iff.1 (Bool.eq_false_iff.2 (hout hq))
    rcases howed with hrow | harchive
    · exact hclear q hq hf hrow
    · rw [hasArchive_iff.2 harchive] at hg
      cases hg
  | judged =>
    cases hread
    exact ⟨h.pairs, h.phase, fun x hx => graceLeases_unwatched hx⟩
  | leased => cases hread

theorem Call.Sound.next (h : c.Sound st n) (hc : c' ∈ c.next) : c'.Sound st' n := by
  unfold Call.next at hc
  cases hrest : c.rest with
  | nil =>
    rw [hrest] at hc
    cases hc
  | cons =>
    rw [hrest] at hc
    obtain rfl := mem_singleton.1 hc
    refine ⟨fun p hp => h.pairs p (mem_append_right _ ?_), trivial⟩
    rwa [hrest, flatten_cons]

theorem flatten_chunkEvery (n : Nat) (xs acc : List α) :
    (chunkEvery n xs acc).flatten = acc.reverse ++ xs := by
  induction xs generalizing acc with
  | nil =>
    unfold chunkEvery
    cases acc <;> simp
  | cons x xs ih =>
    unfold chunkEvery
    split
    · simp [ih]
    · simp [ih]

theorem pairsOf_settled (hp : p ∈ pairsOf (σ.result st j)) : p = cleared j.seq j.sink := by
  rcases σ.result_cases st j with h | ⟨j', time, error, -, -, h⟩ |
    ⟨j', time, error, class?, owner, -, h⟩ | h | ⟨sourceId, sinks, now, rfl⟩
  · rw [h] at hp
    exact mem_singleton.1 hp
  · rw [h] at hp
    cases hp
  · rw [h] at hp
    cases hp
  · rw [h] at hp
    cases hp
  · simp only [Settled.result, pairsOf] at hp
    split at hp
    · exact mem_singleton.1 hp
    · cases hp

theorem Sound.pages (h : Sound s) {hits : List (List Hit)}
    (hdoomed : ∀ q i, Doomed s.store hits q i → Doomed s.store s.hits q i) :
    Sound { s with hits := hits } :=
  { h with
    dead := fun q i hd => h.dead q i (hdoomed q i hd)
    imported := fun q i hu hp i' hne => (h.imported q i hu hp i' hne).imp id fun hclear hr hd =>
      hclear hr (hdoomed q i' hd) }

/-- The batch of a call deletes no row of a hook. -/
theorem Sound.reclaim (h : Sound s) (hc : c ∈ s.calls)
    (hphase : c.phase = .leased owed leases) :
    Sound { s with store := s.store.write (runOps s.store c.pairs owed leases) } := by
  have hsound := (h.calls c hc).phase
  rw [hphase] at hsound
  have hdeletes : ∀ op ∈ runOps s.store c.pairs owed leases, watched op.key = true →
      ∃ k, op = .delete k ∧ ∀ q i, k ≠ .delivery q i := by
    intro op hop hw
    obtain ⟨q, hq, ⟨-, k, hk, rfl⟩ | ⟨-, rfl | ⟨kind, sink, rfl⟩⟩⟩ := mem_runOps hop hw hsound.2
    · obtain ⟨kind, sink, hk⟩ := ((h.calls c hc).pairs _ (mem_append_left _ hk)).2
      refine ⟨k, rfl, fun q i he => ?_⟩
      rw [show k = _ from hk] at he
      cases he
    · exact ⟨_, rfl, fun _ _ => nofun⟩
    · exact ⟨_, rfl, fun _ _ => nofun⟩
  refine h.shrink _ (fun op hop hcr hw => ?_) fun op hop j _ hk => ?_
  · obtain ⟨k, rfl, -⟩ := hdeletes op hop hw
    cases hcr
  · obtain ⟨k, rfl, hne⟩ := hdeletes op hop (by rw [hk]; rfl)
    exact hne _ _ hk

theorem Sound.step (h : Sound s) (ev : Event) (hstep : Reclaim.step cfg s ev = some s') :
    Sound s' := by
  cases ev with
  | commit items now archive ords =>
    obtain ⟨hsinks, rfl⟩ := guarded hstep
    exact h.commit hsinks now archive ords
  | other ops =>
    obtain ⟨hops, rfl⟩ := guarded hstep
    have hops : ∀ op ∈ ops, watched op.key = false := fun op hop => by
      simpa using all_eq_true.1 hops op hop
    refine h.shrink _ (fun op hop _ hw => ?_) fun op hop j _ hk => ?_
    · rw [hops op hop] at hw
      cases hw
    · have := hops op hop
      rw [hk] at this
      cases this
  | claim =>
    obtain ⟨hok, rfl⟩ := guarded hstep
    exact { h with
      rows := fun j hj => (mem_append.1 hj).elim (h.rows j) (hok.2 j)
      apart := hok.1 }
  | settle results time durable =>
    obtain ⟨hok, rfl⟩ := guarded hstep
    have hsettled := h.settle hok.2 (fun op (hop : op ∈ Delivery.buildOps s.store time durable
        ((results.map fun r => r.2.result s.store r.1).flatMap Delivery.Result.ops)) hw => by
        obtain ⟨r, hr, hop⟩ := mem_flatMap.1 (mem_of_watch watch_buildOps hop hw)
        obtain ⟨x, hx, rfl⟩ := mem_map.1 hr
        exact ⟨x, hx, hop⟩)
      hok.1 (fun r hr op hop hw =>
        mem_of_mem_filter (watch_buildOps ▸ mem_flatMap.2 ⟨_, mem_map_of_mem hr, hop⟩))
    refine hsettled.call (Call.sound_of fun p hp => ?_)
    obtain ⟨r, hr, hp⟩ := mem_flatMap.1 hp
    obtain ⟨⟨j, σ⟩, hx, rfl⟩ := mem_map.1 hr
    have hj := (hok.2 _ hx).1
    have hlt : j.seq < s.nextSeq :=
      h.below (.delivery j.seq j.sink) _ rfl rfl (by rw [(h.rows j hj).2]; nofun)
    rw [pairsOf_settled hp]
    exact ⟨hlt, 0, j.sink, rfl⟩
  | page =>
    obtain ⟨hok, rfl⟩ := guarded hstep
    refine h.pages fun q i hd => ?_
    rcases hd with hkey | ⟨page, hpage, x, hx, rfl, rfl⟩
    · exact .inl hkey
    · rcases mem_append.1 hpage with hpage | hpage
      · exact .inr ⟨page, hpage, x, hx, rfl, rfl⟩
      · obtain rfl := mem_singleton.1 hpage
        exact .inl ⟨x.time, hok x hx⟩
  | evict i =>
    obtain ⟨hits, hi, rfl⟩ := Option.map_eq_some_iff.1 hstep
    have hdead : ∀ x ∈ hits, x.seq < s.nextSeq ∧ ¬ Pending s.store x.seq x.sink := fun x hx =>
      h.dead _ _ (.inr ⟨hits, mem_of_getElem? hi, x, hx, rfl, rfl⟩)
    have hcleared :=
      h.clear (hits.map fun x => (x.seq, x.sink)) (evictOps s.store hits)
      (fun op hop hw => mem_evictOps hop hw) (forall_mem_map.2 fun x hx => (hdead x hx).1)
      (forall_mem_map.2 fun x hx hmem => by
        obtain ⟨j, hj, he⟩ := mem_map.1 hmem
        obtain ⟨hq, hi⟩ := Prod.mk.inj he
        refine (hdead x hx).2 ⟨j.row, ?_, (h.rows j hj).1⟩
        rw [← hq, ← hi]
        exact (h.rows j hj).2)
    refine (hcleared.pages fun q i hd => hd.imp id ?_).call
      (Call.sound_of (forall_mem_map.2 fun x hx => ⟨(hdead x hx).1, 0, x.sink, rfl⟩))
    rintro ⟨page, hpage, hx⟩
    exact ⟨page, mem_of_mem_eraseIdx hpage, hx⟩
  | purge p =>
    obtain ⟨hok, rfl⟩ := guarded hstep
    exact (h.clear p.rows (p.ops s.store) (fun op hop hw => mem_purge hop hw)
      (fun r hr => (hok r hr).1)
      fun r hr => (hok r hr).2).call
        (Call.sound_of (forall_mem_map.2 fun r hr => ⟨(hok r hr).1, 0, r.2, rfl⟩))
  | segment =>
    obtain ⟨hok, rfl⟩ := guarded hstep
    refine { h with segments :=
      forall_mem_append.2 ⟨h.segments, forall_mem_singleton.2 fun q hq => ?_⟩ }
    exact h.below (.archivePending q) q rfl rfl (hok q (mem_filter.1 hq).1)
  | archived i =>
    obtain ⟨g, hi, rfl⟩ := Option.map_eq_some_iff.1 hstep
    have hlt : ∀ q ∈ g.1, q < s.nextSeq := h.segments g (mem_of_getElem? hi)
    have hcleared := h.shrink (archivedOps s.store g.1 g.2) (fun op hop hc hw => by
        rcases mem_archivedOps hop hw with ⟨q, rfl⟩ | ⟨q, hq, rfl⟩
        · cases hc
        · exact ⟨q, 1, 0, rfl, hlt q hq⟩)
      (fun op hop j _ hk => by
        rcases mem_archivedOps hop (by rw [hk]; rfl) with ⟨q, rfl⟩ | ⟨q, hq, rfl⟩ <;> cases hk)
    have hkept : Sound { s with
        store := s.store.write (archivedOps s.store g.1 g.2)
        segments := s.segments.eraseIdx i } :=
      { hcleared with segments := fun g' hg' => h.segments g' (mem_of_mem_eraseIdx hg') }
    exact hkept.call (Call.sound_of (forall_mem_map.2 fun q hq => ⟨hlt q hq, 1, 0, rfl⟩))
  | sweep =>
    simp only [Reclaim.step] at hstep
    have hflatten := flatten_chunkEvery chunk (markers s.store) []
    split at hstep
    · cases hstep
      exact h
    next pairs rest hchunks =>
      cases hstep
      refine h.call ⟨fun p hp => ?_, trivial⟩
      have hmem : p ∈ markers s.store := by
        rw [hchunks] at hflatten
        have hp : p ∈ pairs ++ rest.flatten := hp
        rwa [← flatten_cons, hflatten] at hp
      obtain ⟨kind, sink, hk, hget⟩ := mem_markers.1 hmem
      refine ⟨h.below p.2 p.1 (by rw [hk]; rfl) (by rw [hk]; rfl) hget, kind, sink, hk⟩
  | read =>
    obtain ⟨c, hi, hstep⟩ := Option.bind_eq_some_iff.1 hstep
    obtain ⟨c', hread, rfl⟩ := Option.map_eq_some_iff.1 hstep
    refine { h with calls := fun x hx => ?_ }
    rcases mem_or_eq_of_mem_set hx with hx | rfl
    · exact h.calls x hx
    · exact (h.calls c (mem_of_getElem? hi)).read hread
  | write =>
    simp only [Reclaim.step] at hstep
    split at hstep
    next hi =>
      cases hstep
      have hc := mem_of_getElem? hi
      exact { h.reclaim hc rfl with
        calls := forall_mem_append.2
          ⟨fun c hc' => (h.reclaim hc rfl).calls c (mem_of_mem_eraseIdx hc'),
          fun c hc' => (h.calls _ hc).next hc'⟩ }
    · cases hstep
  | stop =>
    obtain ⟨-, rfl⟩ := guarded hstep
    exact { h with calls := fun c hc => h.calls c (mem_of_mem_eraseIdx hc) }
  | restart =>
    cases hstep
    exact { h.pages fun q i hd => hd.imp id fun ⟨page, hp, _⟩ => absurd hp not_mem_nil with
      rows := forall_mem_nil _
      apart := nodup_nil
      segments := forall_mem_nil _
      calls := forall_mem_nil _ }

/-! ## Hooks that go -/

/-- Only the write of a call deletes a hook, and the call has found that nobody is owed it. -/
theorem Sound.hook_gone (h : Sound s) {ev : Event} (hstep : Reclaim.step cfg s ev = some s')
    (hthere : s.store.get (.hook q) ≠ none) (hgone : s'.store.get (.hook q) = none) :
    ¬ Owed s.store q := by
  have hkept : ∀ ops, (∀ op ∈ ops, op.key ≠ .hook q) → (s.store.write ops).get (.hook q) ≠ none :=
    fun ops hops => by
    rwa [get_untouched _ hops]
  cases ev with
  | commit =>
    obtain ⟨-, rfl⟩ := guarded hstep
    refine absurd hgone (hkept _ fun op hop hk => ?_)
    have hmem := mem_coalesce_watched hop (by rw [hk]; rfl)
    have hseq := buildOps_seq hmem (by rw [hk]; rfl)
    exact absurd (h.below (.hook q) q rfl rfl hthere) (not_lt.2 hseq.1)
  | other =>
    obtain ⟨hops, rfl⟩ := guarded hstep
    refine absurd hgone (hkept _ fun op hop hk => ?_)
    have := all_eq_true.1 hops op hop
    rw [hk] at this
    cases this
  | claim | page | segment | stop =>
    obtain ⟨-, rfl⟩ := guarded hstep
    exact absurd hgone hthere
  | settle =>
    obtain ⟨hok, rfl⟩ := guarded hstep
    refine absurd hgone (hkept _ fun op hop hk => ?_)
    obtain ⟨r, hr, hop⟩ := mem_flatMap.1 (mem_of_watch watch_buildOps hop (by rw [hk]; rfl))
    obtain ⟨x, hx, rfl⟩ := mem_map.1 hr
    cases settles (hok.2 x hx).2 hop <;> cases hk
  | evict =>
    obtain ⟨hits, hi, rfl⟩ := Option.map_eq_some_iff.1 hstep
    refine absurd hgone (hkept _ fun op hop hk => ?_)
    rcases mem_evictOps hop (by rw [hk]; rfl) with ⟨r, -, rfl | rfl⟩ |
      ⟨time, q', i', rfl⟩ <;> cases hk
  | purge =>
    obtain ⟨-, rfl⟩ := guarded hstep
    refine absurd hgone (hkept _ fun op hop hk => ?_)
    rcases mem_purge hop (by rw [hk]; rfl) with ⟨r, -, rfl | rfl⟩ | ⟨time, q', i', rfl⟩ <;> cases hk
  | archived =>
    obtain ⟨g, hi, rfl⟩ := Option.map_eq_some_iff.1 hstep
    refine absurd hgone (hkept _ fun op hop hk => ?_)
    rcases mem_archivedOps hop (by rw [hk]; rfl) with ⟨q', rfl⟩ | ⟨q', -, rfl⟩ <;> cases hk
  | sweep =>
    simp only [Reclaim.step] at hstep
    split at hstep <;> obtain rfl := Option.some.inj hstep <;> exact absurd hgone hthere
  | read =>
    obtain ⟨c, hi, hstep⟩ := Option.bind_eq_some_iff.1 hstep
    obtain ⟨c', hread, rfl⟩ := Option.map_eq_some_iff.1 hstep
    exact absurd hgone hthere
  | write =>
    simp only [Reclaim.step] at hstep
    split at hstep
    next hi =>
      cases hstep
      have hcall := h.calls _ (mem_of_getElem? hi)
      by_contra howed
      refine absurd hgone (hkept _ fun op hop hk => ?_)
      obtain ⟨q', hq, ⟨-, k, hmem, rfl⟩ | ⟨hout, rfl | ⟨kind, sink, rfl⟩⟩⟩ :=
        mem_runOps hop (by rw [hk]; rfl) hcall.phase.2
      · obtain ⟨kind, sink, he⟩ := (hcall.pairs _ (mem_append_left _ hmem)).2
        rw [show k = _ from he] at hk
        cases hk
      · cases hk
        exact hcall.phase.1 q hq hout howed
      · cases hk
    · cases hstep
  | restart =>
    cases hstep
    exact absurd hgone hthere

end Ankusa.Reclaim
