import Ankusa.Intake.Entries
import Ankusa.Intake.Answers

set_option autoImplicit false

/-! # The pending set under the dual writer

What every run of the dual writer keeps of the pending set: the set is one that its own operations
leave (`Described`), a seq or a batch id is given once, a hook that is still in the mailbox is not
pending, a batch in flight has its records there untouched, and a log half that is said to be in is
in.

The one thing a run has to keep to is that a quarantine release brings no dedupe triple that is
pending (`ReleasesApart`): a group is asked about the pending set before it is entered, a release is
not. -/

namespace Ankusa.Dual

open KV Writer Pending List Table Run

/-- A quarantine release brings no dedupe triple that is pending. -/
def ReleasesApart (s : State) : Event → Prop
  | .release _ items .. => ∀ i ∈ items, (pendingTriple i).all fun k => !s.table.keyed k
  | _ => True

instance (s : State) (ev : Event) : Decidable (ReleasesApart s ev) := by
  unfold ReleasesApart
  split <;> infer_instance

/-! ## The records of a group -/

theorem publishedRecords_cons (item : Item) (fresh : List Item) (n : Nat) (ops : List Op) :
    publishedRecords (item :: fresh) n ops =
      (if hasHook ops n then [⟨n, item.env.id, item.bin, pendingTriple item⟩] else []) ++
        publishedRecords fresh (n + 1) ops := by
  unfold publishedRecords
  rw [zipIdx_cons, filterMap_cons]
  by_cases h : hasHook ops n <;> simp [h]

variable {n : Nat} {r : Rec} {fresh : List Item} {item : Item} {k : Triple}
  {queued ids : List String} {q : Nat}

/-- A record is about a fresh hook, under a seq of the batch. -/
theorem mem_publishedRecords {ops : List Op} (h : r ∈ publishedRecords fresh n ops) :
    n ≤ r.seq ∧ r.seq < n + fresh.length ∧ ∃ i ∈ fresh, r.id = i.env.id ∧
    r.triple = pendingTriple i := by
  induction fresh generalizing n with
  | nil => cases h
  | cons item fresh ih =>
    rw [publishedRecords_cons, mem_append] at h
    rcases h with h | h
    · split at h
      · obtain rfl := mem_singleton.1 h
        exact ⟨le_rfl, by simp, item, mem_cons_self, rfl, rfl⟩
      · cases h
    · obtain ⟨hle, hlt, i, hi, hrest⟩ := ih h
      refine ⟨by omega, ?_, i, mem_cons_of_mem _ hi, hrest⟩
      rw [length_cons]
      omega

/-- The records of two hooks of a batch stand apart as the hooks do. -/
theorem pairwise_publishedRecords {R : Item → Item → Prop} {S : Rec → Rec → Prop}
    (hS : ∀ i j r r', R i j → r.seq < r'.seq → r.id = i.env.id → r.triple = pendingTriple i →
      r'.id = j.env.id → r'.triple = pendingTriple j → S r r')
    (h : fresh.Pairwise R) (n : Nat) (ops : List Op) :
    (publishedRecords fresh n ops).Pairwise S := by
  induction fresh generalizing n with
  | nil => exact .nil
  | cons item fresh ih =>
    obtain ⟨hfirst, hrest⟩ := pairwise_cons.1 h
    rw [publishedRecords_cons]
    split
    · refine pairwise_cons.2 ⟨fun r' hr' => ?_, ih hrest (n + 1)⟩
      obtain ⟨hle, _, j, hj, hid, htriple⟩ := mem_publishedRecords hr'
      exact hS item j _ r' (hfirst j hj) hle rfl rfl hid htriple
    · exact ih hrest (n + 1)

/-- The stored key of a triple. -/
def keyOf (k : Triple) : Key := .dedupe k.1 k.2.1 k.2.2

theorem keyOf_injective : Function.Injective keyOf := by
  rintro ⟨t, s, k⟩ ⟨t', s', k'⟩ h
  simpa [keyOf] using h

/-- The dedupe key of a hook is that of its triple. -/
theorem dedupeKey_triple (item : Item) : dedupeKey item = (pendingTriple item).map keyOf := by
  unfold dedupeKey pendingTriple
  rw [Option.map_map]
  rfl

variable {t : Table}

theorem dualRefusal_of_keyed (hk : pendingTriple item = some k) (hkeyed : t.keyed k = true)
    (cfg : Config) :
    dualRefusal cfg t item = some (if cfg.maxRecordBytes < item.bin.length then .intakeUnavailable
      else .intakePending) := by
  unfold dualRefusal
  split
  · rfl
  · rw [hk]
    exact if_pos hkeyed

theorem unkeyed_of_tag {cfg : Config} {adm : Admission}
    (h : (tagItem cfg t adm true item).isNone) (hk : pendingTriple item = some k) :
    t.keyed k = false := by
  by_contra hkeyed
  rw [Bool.not_eq_false] at hkeyed
  unfold tagItem at h
  rw [dualRefusal_of_keyed hk hkeyed] at h
  split at h <;> cases h

/-- The hooks of calls. -/
def hookIds (calls : List Node.Call) : List String :=
  calls.flatMap fun c => c.items.map fun i => i.env.id

/-- What the records of a batch are apart from the batch's own hooks. -/
structure Cx.Fits (cx : Cx) (nextSeq : Nat) : Prop where
  first : cx.firstSeq = nextSeq
  range : ∀ r ∈ cx.records, nextSeq ≤ r.seq ∧ r.seq < nextSeq + cx.checked.fresh.length
  named : ∀ r ∈ cx.records, ∃ i ∈ cx.checked.fresh, r.id = i.env.id ∧ r.triple = pendingTriple i
  sibling : cx.records.Pairwise Rec.Sibling
  distinct : cx.records.Pairwise fun r r' => r.id ≠ r'.id

section Group

variable (cfg : Config) (s : State) (calls : List Node.Call)
  (prefetch : List (Key × Option Val)) (now : Ms) (extra : List Op)

/-- The fresh hooks are hooks of the calls that were not refused. -/
theorem cx_fresh_sublist :
    (s.cx cfg calls prefetch now extra).checked.fresh.Sublist (calls.flatMap Node.Call.items) :=
  (dedupeCheck_picked _ _).1.trans filter_sublist

theorem cx_ids_sublist : (s.cx cfg calls prefetch now extra).ids.Sublist (hookIds calls) := by
  have hsub := (cx_fresh_sublist cfg s calls prefetch now extra).map fun i => i.env.id
  rwa [map_flatMap] at hsub

theorem cx_fits (hids : (hookIds calls).Nodup) :
    (s.cx cfg calls prefetch now extra).Fits s.nextSeq where
  first := rfl
  range _ hr := (mem_publishedRecords hr).imp id And.left
  named _ hr := (mem_publishedRecords hr).2.2
  sibling := by
    refine pairwise_publishedRecords (fun i j r r' hapart hlt _ htriple _ htriple' => ?_)
      (dedupeCheck_picked _ _).2.2.2.1 _ _
    refine ⟨Nat.ne_of_lt hlt, ?_⟩
    cases hk : r.triple with
    | none => exact .inl rfl
    | some k =>
      -- The check answers the second of two hooks with one key as a duplicate.
      refine .inr fun heq => hapart (keyOf k) ?_ ?_
      · rw [dedupeKey_triple, ← htriple, hk]
        rfl
      · rw [dedupeKey_triple, ← htriple', ← heq]
        rfl
  distinct := by
    have hnodup : (s.cx cfg calls prefetch now extra).ids.Nodup :=
      (cx_ids_sublist cfg s calls prefetch now extra).nodup hids
    exact pairwise_publishedRecords (fun i j r r' hne _ hid _ hid' _ =>
      by rw [hid, hid']; exact hne) (pairwise_map.1 hnodup) _ _

theorem cx_fresh_unkeyed {i : Item} (hi : i ∈ (s.cx cfg calls prefetch now []).checked.fresh)
    (hk : pendingTriple i = some k) : s.table.keyed k = false := by
  have hmem := (dedupeCheck_picked _ _).1.subset hi
  exact unkeyed_of_tag (mem_filter.1 hmem).2 hk

end Group

/-! ## The invariant -/

/-- What the invariant is about. -/
structure Ground where
  table : Table
  flights : List Batch
  nextSeq : Nat
  queued : List String
  ids : List String
  logged : List String

/-- What `Grounded` is about. -/
def State.ground (s : State) : Ground :=
  ⟨s.table, s.inflight, s.nextSeq, hookIds s.queue, s.ghost.ids, s.ghost.logged⟩

/-- The pending set with the batches in flight. -/
def Ground.shared (g : Ground) : Shared :=
  ⟨g.table, g.flights.map fun b => ⟨b.cx.firstSeq, b.cx.records⟩⟩

/-- The pending set is right about its hooks, the batches in flight and the log. -/
structure Grounded (g : Ground) : Prop where
  described : Described g.shared
  positive : 0 < g.nextSeq
  seqs : ∀ q c, g.table.core q = some c → 0 < q ∧ q < g.nextSeq ∧ c.batch < g.nextSeq ∧ c.id ∈ g.ids
  queued : g.queued.Nodup
  apart : ∀ id ∈ g.queued, id ∈ g.ids ∧ ∀ q c, g.table.core q = some c → c.id ≠ id
  flights : ∀ b ∈ g.flights, ∀ r ∈ b.cx.records, g.table.core r.seq = some (r.core b.cx.firstSeq)
  logged : ∀ q c, g.table.core q = some c → c.log = .ok → c.id ∈ g.logged
  results : ∀ b ∈ g.flights, ∀ p, b.sent = some (some p) ∨ b.log = some (some p) →
    ∀ r ∈ b.cx.records, r.id ∈ g.logged

theorem Grounded.start : Grounded State.start.ground := by
  refine ⟨Described.start, ?_, ?_, ?_, ?_, ?_, ?_, ?_⟩ <;> simp [State.start, State.ground, hookIds]

variable {s s' : State} {g g' : Ground} {cx : Cx} {c : Core}

/-- More hooks are known, more records are in the log, and calls have left the mailbox. -/
theorem Grounded.mono (h : Grounded g) {logged : List String} (hids : g.ids ⊆ ids)
    (hlogged : g.logged ⊆ logged) (hqueued : queued.Sublist g.queued) :
    Grounded { g with queued, ids, logged } :=
  { h with
    seqs q c hc := by
      obtain ⟨hpos, hq, hb, hid⟩ := h.seqs q c hc
      exact ⟨hpos, hq, hb, hids hid⟩
    queued := hqueued.nodup h.queued
    apart id hid := ⟨hids (h.apart id (hqueued.subset hid)).1, (h.apart id (hqueued.subset hid)).2⟩
    logged q c hc hlog := hlogged (h.logged q c hc hlog)
    results b hb p hp r hr := hlogged (h.results b hb p hp r hr) }

theorem Grounded.skip (h : Grounded g) (n : Nat) : Grounded { g with nextSeq := g.nextSeq + n } :=
  { h with
    positive := Nat.add_pos_left h.positive n
    seqs := fun q c hc => by
      obtain ⟨hpos, hq, hb, hid⟩ := h.seqs q c hc
      exact ⟨hpos, Nat.lt_add_right n hq, Nat.lt_add_right n hb, hid⟩ }

/-- Batches in flight hear of their halves. -/
theorem Grounded.hear (h : Grounded g) (flights : List Batch)
    (hcx : flights.map Batch.cx = g.flights.map Batch.cx)
    (hresults : ∀ b ∈ flights, ∀ p, b.sent = some (some p) ∨ b.log = some (some p) →
      ∀ r ∈ b.cx.records, r.id ∈ g.logged) : Grounded { g with flights } := by
  refine { h with
    described := ?_
    flights := fun b hb r hr => ?_
    results := hresults }
  · have hshared : ∀ l : List Batch, (l.map fun b => (⟨b.cx.firstSeq, b.cx.records⟩ : Flight)) =
        (l.map Batch.cx).map fun cx => ⟨cx.firstSeq, cx.records⟩ := fun l => by
      rw [map_map]
      rfl
    have hsame : (⟨g.table, flights.map fun b => ⟨b.cx.firstSeq, b.cx.records⟩⟩ : Shared) =
        g.shared := by
      unfold Ground.shared
      rw [hshared, hshared, hcx]
    show Described ⟨g.table, flights.map fun b => ⟨b.cx.firstSeq, b.cx.records⟩⟩
    rw [hsame]
    exact h.described
  · have hmem : b.cx ∈ g.flights.map Batch.cx := hcx ▸ mem_map_of_mem hb
    obtain ⟨b', hb', heq⟩ := mem_map.1 hmem
    rw [← heq] at hr ⊢
    exact h.flights b' hb' r hr

theorem Cx.Fits.id_mem (h : cx.Fits n) (hr : r ∈ cx.records) : r.id ∈ cx.ids := by
  obtain ⟨i, hi, hid, _⟩ := h.named r hr
  exact hid ▸ mem_map_of_mem hi

theorem Cx.Fits.core_enter (h : cx.Fits n) (hseqs : ∀ q c, t.core q = some c → q < n)
    (hc : t.core q = some c) (now : Ms) : (t.enter cx.records cx.firstSeq now).core q = some c := by
  refine (core_enter_of_not_mem (fun hmem => ?_) _ _).trans hc
  obtain ⟨r, hr, rfl⟩ := mem_map.1 hmem
  exact absurd (hseqs _ c hc) (not_lt.2 (h.range r hr).1)

/-- A batch that may be entered: its seqs are next, no hook of it is pending or in the mailbox, and
    no triple of it is pending. -/
structure Cx.Enters (cx : Cx) (g : Ground) : Prop where
  fits : cx.Fits g.nextSeq
  unknown : ∀ id ∈ cx.ids, id ∉ g.queued ∧ ∀ q c, g.table.core q = some c → c.id ≠ id
  unkeyed : ∀ i ∈ cx.checked.fresh, ∀ k, pendingTriple i = some k → g.table.keyed k = false

theorem Cx.Enters.apart (h : cx.Enters g) (hground : Grounded g) :
    Apart g.table cx.records cx.firstSeq := by
  refine ⟨fun r hr => ⟨?_, fun q e he => ?_, fun k hk => ?_⟩, h.fits.distinct, fun q e he => ?_⟩
  · cases hc : g.table.core r.seq with
    | none => exact core_eq_none.1 hc
    | some c => exact absurd (hground.seqs _ c hc).2.1 (not_lt.2 (h.fits.range r hr).1)
  · exact (h.unknown r.id (h.fits.id_mem hr)).2 q e.core (core_eq_some.2 ⟨e, he, rfl⟩)
  · obtain ⟨i, hi, _, hi'⟩ := h.fits.named r hr
    simpa [Table.keyed] using h.unkeyed i hi k (hi'.symm.trans hk)
  · rw [h.fits.first]
    exact Nat.ne_of_lt (hground.seqs q e.core (core_eq_some.2 ⟨e, he, rfl⟩)).2.2.1

/-- A new batch is entered. -/
theorem Grounded.enter (h : Grounded g) (henters : cx.Enters g) (hne : cx.records ≠ [])
    (hids : ∀ id ∈ cx.ids, id ∈ g.ids) (l : Local) (now : Ms) :
    Grounded { g with
      table := g.table.enter cx.records cx.firstSeq now
      flights := ⟨cx, l, none, none, false⟩ :: g.flights
      nextSeq := g.nextSeq + cx.checked.fresh.length } := by
  have hfits := henters.fits
  have hpos : 0 < cx.checked.fresh.length := by
    obtain ⟨r, hr⟩ := exists_mem_of_ne_nil _ hne
    have := hfits.range r hr
    omega
  refine ⟨h.described.enter hne hfits.sibling (henters.apart h) now, Nat.add_pos_left h.positive _,
    fun q c hc => ?_, h.queued, fun id hid => ⟨(h.apart id hid).1, fun q c hc => ?_⟩,
    fun b hb r hr => ?_, fun q c hc hlog => ?_,
    fun b hb p hp r hr => ?_⟩
  · rcases core_enter_cases hfits.sibling hc with hc | ⟨r, hr, rfl, rfl⟩
    · obtain ⟨hq0, hq, hb, hid⟩ := h.seqs q c hc
      exact ⟨hq0, Nat.lt_add_right _ hq, Nat.lt_add_right _ hb, hid⟩
    · obtain ⟨hle, hlt⟩ := hfits.range r hr
      refine ⟨h.positive.trans_le hle, hlt, ?_, hids r.id (hfits.id_mem hr)⟩
      rw [hfits.first]
      exact Nat.lt_add_of_pos_right hpos
  · rcases core_enter_cases hfits.sibling hc with hc | ⟨r, hr, rfl, rfl⟩
    · exact (h.apart id hid).2 q c hc
    · rintro rfl
      exact (henters.unknown r.id (hfits.id_mem hr)).1 hid
  · rcases mem_cons.1 hb with rfl | hb
    · exact core_enter hfits.sibling hr _ _
    · exact hfits.core_enter (fun q c hc => (h.seqs q c hc).2.1) (h.flights b hb r hr) now
  · rcases core_enter_cases hfits.sibling hc with hc | ⟨r, hr, rfl, rfl⟩
    · exact h.logged q c hc hlog
    · cases hlog
  · rcases mem_cons.1 hb with rfl | hb
    · rcases hp with hp | hp <;> cases hp
    · exact h.results b hb p hp r hr

/-- A core the pending set may still have at `q`: that of the entry there, or with another half. -/
def Ground.Holds (g : Ground) (q : Nat) (c : Core) : Prop :=
  ∃ c', g.table.core q = some c' ∧ c.id = c'.id ∧ c.batch = c'.batch ∧
    (c.log = .ok → c.id ∈ g.logged)

theorem Grounded.holds (h : Grounded g) (hc : g.table.core q = some c) : g.Holds q c :=
  ⟨c, hc, rfl, rfl, h.logged q c hc⟩

/-- What is left of the pending set is what was there, with both halves of fewer records known. -/
theorem Grounded.shrink (h : Grounded g) {table : Table} {flights : List Batch}
    (hdescribed : Described (Ground.shared { g with table, flights }))
    (hsub : ∀ b ∈ flights, b ∈ g.flights) (hcore : ∀ q c, table.core q = some c → g.Holds q c)
    (hkept : ∀ b ∈ flights, ∀ r ∈ b.cx.records, table.core r.seq = g.table.core r.seq) :
    Grounded { g with table, flights } where
  described := hdescribed
  positive := h.positive
  seqs q c hc := by
    obtain ⟨c', hc', hid, hbatch, _⟩ := hcore q c hc
    exact hid ▸ hbatch ▸ h.seqs q c' hc'
  queued := h.queued
  apart id hid := by
    refine ⟨(h.apart id hid).1, fun q c hc => ?_⟩
    obtain ⟨c', hc', hsame, _⟩ := hcore q c hc
    exact hsame ▸ (h.apart id hid).2 q c' hc'
  flights b hb r hr := (hkept b hb r hr).trans (h.flights b (hsub b hb) r hr)
  logged q c hc hlog := (hcore q c hc).choose_spec.2.2.2 hlog
  results b hb p hp := h.results b (hsub b hb) p hp

variable {i : Nat} {b : Batch}

theorem flight_shared (hi : g.flights[i]? = some b) :
    g.shared.inflight[i]? = some ⟨b.cx.firstSeq, b.cx.records⟩ := by simp [Ground.shared, hi]

section

variable (h : Grounded g)
include h

section

variable (hi : g.flights[i]? = some b)
include hi

/-- Two batches in flight share no seq. -/
theorem Grounded.flights_apart {b' : Batch}
    (hb' : b' ∈ g.flights.eraseIdx i) (hr : r ∈ b'.cx.records) :
    r.seq ∉ b.cx.records.map Rec.seq := by
  intro hmem
  have hother : (⟨b'.cx.firstSeq, b'.cx.records⟩ : Flight) ∈ g.shared.inflight.eraseIdx i := by
    have hmap := mem_map_of_mem (f := fun b : Batch => (⟨b.cx.firstSeq, b.cx.records⟩ : Flight)) hb'
    rwa [← eraseIdx_map] at hmap
  have hne := (h.described.flown.rest (flight_shared hi) hother).2
  obtain ⟨r', hr', hseq⟩ := mem_map.1 hmem
  have hcore := h.flights b (mem_of_getElem? hi) r' hr'
  have hcore' := h.flights b' (mem_of_mem_eraseIdx hb') r hr
  rw [← hseq, hcore] at hcore'
  exact hne (congrArg Core.batch (Option.some.inj hcore')).symm

/-- A batch in flight is confirmed. -/
theorem Grounded.confirm (p : Option Nat) : Grounded { g with
      table := g.table.confirm (b.cx.records.map Rec.seq) p
      flights := g.flights.eraseIdx i } := by
  have hdescribed := h.described.confirm (flight_shared hi) p
  rw [Ground.shared, eraseIdx_map] at hdescribed
  refine h.shrink hdescribed (fun b' hb' => mem_of_mem_eraseIdx hb') (fun q c hc => ?_)
    fun b' hb' r hr => ?_
  · rw [core_confirm] at hc
    exact h.holds (barred hc).2
  · rw [core_confirm, if_neg (h.flights_apart hi hb' hr)]

/-- A half of a batch in flight failed, and it is carried. -/
theorem Grounded.carry (o : Outcome) (hlog : o.log = .ok → ∀ r ∈ b.cx.records, r.id ∈ g.logged)
    (now : Ms) : Grounded { g with
      table := g.table.carry o b.cx.records b.cx.firstSeq b.cx.plan now
      flights := g.flights.eraseIdx i } := by
  have hdescribed := h.described.carry (flight_shared hi) o (show b.cx.plan.seqs = _ from rfl) now
  rw [Ground.shared, eraseIdx_map] at hdescribed
  refine h.shrink hdescribed (fun b' hb' => mem_of_mem_eraseIdx hb') (fun q c hc => ?_)
    fun b' hb' r hr => ?_
  · rw [core_carry] at hc
    split at hc
    next hq =>
      obtain ⟨r, hr, rfl⟩ := mem_map.1 hq
      have hcore := h.flights b (mem_of_getElem? hi) r hr
      rw [hcore] at hc
      cases hc
      exact ⟨_, hcore, rfl, rfl, fun hok => hlog hok r hr⟩
    · exact h.holds hc
  · rw [core_carry, if_neg (h.flights_apart hi hb' hr)]

end

theorem Grounded.flights_idle (hb : b ∈ g.flights)
    (hr : r ∈ b.cx.records) (hc : g.table.core r.seq = some c) : c.carried = false := by
  rw [h.flights b hb r hr] at hc
  exact (Option.some.inj hc) ▸ rfl

/-- The local half of a carried batch is in the store. -/
theorem Grounded.localDone {batch : Nat} {plan : Plan}
    (hplan : g.table.batches.get batch = some plan) :
    Grounded { g with table := (g.table.localDone batch).1 } := by
  have hlacks : ∀ q ∈ plan.seqs, ∃ c, g.table.core q = some c ∧ c.carried := fun q hq => by
    obtain ⟨c, hc, _, hcarried, _⟩ := h.described.batched.core_lacks hplan hq
    exact ⟨c, hc, hcarried⟩
  refine h.shrink (h.described.localDone batch) (fun _ hb => hb) (fun q c hc => ?_) fun b hb r hr =>
    ?_
  · rw [core_localDone hplan] at hc
    split at hc
    · obtain ⟨c', hc', hstore⟩ := Option.bind_eq_some_iff.1 hc
      obtain ⟨hlog, rfl⟩ := Core.store_eq_some.1 hstore
      exact ⟨c', hc', rfl, rfl, fun hok => absurd hok hlog⟩
    · exact h.holds hc
  · rw [core_localDone hplan, if_neg]
    intro hq
    obtain ⟨c, hc, hcarried⟩ := hlacks r.seq hq
    rw [h.flights_idle hb hr hc] at hcarried
    cases hcarried

/-- The log halves of carried records that are in the store come in. -/
theorem Grounded.logDone {seqs : List Nat} (hnodup : seqs.Nodup)
    (hstored : ∀ q ∈ seqs, ∃ c, g.table.core q = some c ∧ c.carried ∧ c.local_ = .ok) (p : Nat) :
    Grounded { g with table := seqs.foldl (fun t q => (t.logDone q p).1) g.table } := by
  refine h.shrink (h.described.foldl_logDone hnodup hstored p) (fun _ hb => hb) (fun q c hc => ?_)
    fun b hb r hr => ?_
  · rw [core_logDone_stored hnodup hstored] at hc
    exact h.holds (barred hc).2
  · rw [core_logDone_stored hnodup hstored, if_neg]
    intro hq
    obtain ⟨c, hc, hcarried, _⟩ := hstored r.seq hq
    rw [h.flights_idle hb hr hc] at hcarried
    cases hcarried

end

variable {sh : Shared} {ev : Pending.Event}

/-- What the reconciler and the edge do to an entry beside its halves. -/
theorem side_core {sh' : Shared} (hside : side ev) (hstep : Pending.step sh ev = some sh') :
    sh'.inflight = sh.inflight ∧ (∀ q, sh'.table.core q = sh.table.core q) ∧ EntersApart sh ev ∧
      sh'.table.batches = sh.table.batches ∧ sh'.table.confirmedMax = sh.table.confirmedMax := by
  cases ev with
  | reschedule q n =>
    obtain ⟨hok, rfl⟩ := guarded hstep
    have hrest := kept_reschedule (t := sh.table) q n
    exact ⟨rfl, core_reschedule hok n, trivial, hrest⟩
  | markStuck q =>
    cases hstep
    exact ⟨rfl, core_markStuck q, trivial, kept_markStuck q⟩
  | takeClaim q =>
    cases hstep
    exact ⟨rfl, core_takeClaim q, trivial, kept_takeClaim q⟩
  | hold id c =>
    cases hstep
    exact ⟨rfl, core_hold id c, trivial, kept_hold id c⟩
  | enter | confirm | carry | localDone | logDone | bumpConfirmed | crash => cases hside

theorem Grounded.side (h : Grounded g) (hside : side ev)
    (hstep : Pending.step g.shared ev = some sh) : Grounded { g with table := sh.table } := by
  obtain ⟨hinflight, hcore, hapart, _⟩ := side_core hside hstep
  have hdescribed := h.described.step ev hapart hstep
  have hshared : Ground.shared { g with table := sh.table } = sh := by
    unfold Ground.shared
    rw [show (g.flights.map fun b => (⟨b.cx.firstSeq, b.cx.records⟩ : Flight)) =
      sh.inflight from hinflight.symm]
  refine h.shrink (hshared ▸ hdescribed) (fun _ hb => hb) (fun q c hc => ?_) fun b hb r hr =>
    hcore r.seq
  have hc : g.table.core q = some c := (hcore q).symm.trans hc
  exact h.holds hc

/-! ## Every run -/

/-- The group the writer makes of the first calls of the mailbox. -/
theorem Grounded.group_enters (h : Grounded s.ground) (cfg : Config) (n : Nat)
    (prefetch : List (Key × Option Val)) (now : Ms) :
    (State.cx cfg { s with queue := s.queue.drop n } (s.queue.take n) prefetch now []).Enters
      (State.ground { s with queue := s.queue.drop n }) ∧
    (hookIds (s.queue.take n)).Nodup ∧ ∀ id ∈ hookIds (s.queue.take n), id ∈ hookIds s.queue := by
  have hsplit : hookIds (s.queue.take n) ++ hookIds (s.queue.drop n) = hookIds s.queue := by
    unfold hookIds
    rw [← flatMap_append, take_append_drop]
  have hqueued : (hookIds (s.queue.take n) ++ hookIds (s.queue.drop n)).Nodup := hsplit ▸ h.queued
  obtain ⟨hcalls, _, hdisjoint⟩ := nodup_append.1 hqueued
  have hall : ∀ id ∈ hookIds (s.queue.take n), id ∈ hookIds s.queue := fun id hid =>
    hsplit ▸ mem_append_left _ hid
  refine ⟨⟨cx_fits _ _ _ _ _ _ hcalls, fun id hid => ?_,
    fun i hi k hk => cx_fresh_unkeyed _ _ _ _ _ hi hk⟩, hcalls, hall⟩
  have hmem := (cx_ids_sublist _ _ _ _ _ _).subset hid
  exact ⟨fun hrest => hdisjoint id hmem id hrest rfl, (h.apart id (hall id hmem)).2⟩

theorem Grounded.release_enters (h : Grounded s.ground) (cfg : Config) {call : Nat}
    {items : List Item} (hnodup : (items.map fun i => i.env.id).Nodup)
    (hnew : ∀ id ∈ items.map fun i => i.env.id, id ∉ s.ghost.ids)
    (hapart : ∀ i ∈ items, (pendingTriple i).all fun k => !s.table.keyed k) (readAt now : Ms)
    (extra : List Op) : (s.cx cfg [⟨call, items, [], readAt⟩] [] now extra).Enters s.ground ∧
    (hookIds [⟨call, items, [], readAt⟩]).Nodup ∧ ∀ id ∈ hookIds [⟨call, items, [], readAt⟩],
    id ∉ s.ghost.ids := by
  have hflat : hookIds [⟨call, items, [], readAt⟩] = items.map fun i => i.env.id := by
    simp [hookIds]
  have hcalls : (hookIds [⟨call, items, [], readAt⟩]).Nodup := hflat ▸ hnodup
  have hids : ∀ id ∈ hookIds [⟨call, items, [], readAt⟩], id ∉ s.ghost.ids :=
    fun id hid => hnew id (hflat ▸ hid)
  refine ⟨⟨cx_fits _ _ _ _ _ _ hcalls, fun id hid => ?_, fun i hi k hk => ?_⟩, hcalls, hids⟩
  · have hmem := hids id ((cx_ids_sublist _ _ _ _ _ _).subset hid)
    exact ⟨fun hq => hmem (h.apart id hq).1, fun q c hc heq => hmem (heq ▸ (h.seqs q c hc).2.2.2)⟩
  · have hmem := (cx_fresh_sublist _ _ _ _ _ _).subset hi
    have hmem : i ∈ items := by simpa using hmem
    have hunkeyed : s.table.keyed k = false := by simpa [hk] using hapart i hmem
    exact hunkeyed

theorem Grounded.settleReply (h : Grounded s.ground) (cx : Cx) (answers : List Answer) :
    Grounded (s.settleReply cx answers).ground := by
  unfold State.settleReply
  split <;> exact h

theorem Grounded.commitGroup (h : Grounded s.ground) (henters : cx.Enters s.ground)
    (hids : ∀ id ∈ cx.ids, id ∈ s.ghost.ids) (gate : Bool) (w : Write) :
    Grounded (s.commitGroup cx gate w).ground := by
  unfold State.commitGroup
  split
  · exact h.settleReply cx _
  split
  · exact h.settleReply cx _
  split
  · unfold State.diskCommit
    split <;> exact h.skip cx.checked.fresh.length
  next hne =>
    unfold State.dualCommit
    split
    · exact h.enter henters hne hids .pending cx.now
    · exact h.enter henters hne hids .failed cx.now

theorem logged_append (s : State) (ids : List String) (p : Publish) :
    s.ghost.logged ⊆ (s.append ids p).ghost.logged := by
  unfold State.append
  dsimp only
  split
  · exact subset_append_right _ _
  · exact Subset.refl _

theorem Grounded.commitRelease (h : Grounded s.ground) (henters : cx.Enters s.ground)
    (extra : List Op)
    (gate : Bool) (w : Write) (p : Publish) :
    Grounded (s.commitRelease cx extra gate w p).ground := by
  unfold State.commitRelease
  split
  · exact h
  split
  · split <;> exact h
  split
  · exact h
  split
  · dsimp only
    split
    · exact (h.skip cx.checked.fresh.length).mono (subset_append_right _ _) (Subset.refl _)
        (Sublist.refl _)
    · exact h.skip cx.checked.fresh.length
  next hne =>
    -- While the release waits for its halves it is a batch in flight.
    have hknown := h.mono (subset_append_right cx.ids _) (logged_append s (cx.records.map Rec.id) p)
      (Sublist.refl _)
    have hentered := hknown.enter { henters with } hne
      (fun id hid => mem_append_left _ hid) .pending cx.now
    split
    · split
      · exact hentered.confirm (i := 0) rfl
          (some (((s.startDual cx w).append (cx.records.map Rec.id) p).log.length - 1))
      · exact hentered.carry (i := 0) rfl ⟨.ok, .missing, none⟩ (fun hok => nomatch hok) cx.now
    · -- The hooks of a failed release are not used up.
      have hlanded := hentered.confirm (i := 0) rfl none
      have hfailed : Grounded { s.ground with
          table := (s.table.enter cx.records cx.firstSeq cx.now).confirm
            (cx.records.map Rec.seq) none
          nextSeq := s.nextSeq + cx.checked.fresh.length
          logged := (s.append (cx.records.map Rec.id) p).ghost.logged } := by
        refine { hlanded with seqs q c hc := ?_, apart id hid :=
          ⟨(h.apart id hid).1, (hlanded.apart id hid).2⟩ }
        obtain ⟨hpos, hq, hb, _⟩ := hlanded.seqs q c hc
        rw [core_confirm] at hc
        obtain ⟨hmem, hc⟩ := barred hc
        rw [core_enter_of_not_mem hmem] at hc
        exact ⟨hpos, hq, hb, (h.seqs q c hc).2.2.2⟩
      exact hfailed

/-- The writer hears of a half of the batch at `i`. -/
theorem Grounded.advance (h : Grounded s.ground) {b₀ : Batch} (hi : s.inflight[i]? = some b₀)
    (hcx : b.cx = b₀.cx) (hresults : ∀ p, b.sent = some (some p) ∨ b.log = some (some p) →
      ∀ r ∈ b₀.cx.records, r.id ∈ s.ghost.logged) (now : Ms) :
        Grounded (s.advance i b now).ground := by
  unfold State.advance
  split
  · refine h.hear (s.inflight.set i b) (map_set_eq hi Batch.cx hcx) fun b' hb' p hp r hr => ?_
    rcases mem_or_eq_of_mem_set hb' with hb' | rfl
    · exact h.results b' hb' p hp r hr
    · exact hresults p hp r (hcx ▸ hr)
  · unfold State.finishDual
    rw [hcx]
    dsimp only
    split
    next p hp =>
      have hlog : b.log = some (some p) := Option.join_eq_some_iff.1 hp
      split
      · exact h.confirm hi (some p)
      · exact h.carry hi ⟨.missing, .ok, some (p + 1 - (b₀.cx.records.map Rec.seq).length)⟩
          (fun _ => hresults p (.inr hlog)) now
    · exact h.carry hi ⟨if b.local_ = .ok then .ok else .missing, .missing, none⟩
        (fun hok => nomatch hok) now

theorem unpublished_core (h : unpublished t q) :
    ∃ c, t.core q = some c ∧ c.carried ∧ c.local_ = .ok := by
  unfold unpublished at h
  split at h
  · cases h
  next e he =>
    simp only [Bool.and_eq_true, decide_eq_true_eq] at h
    exact ⟨e.core, core_eq_some.2 ⟨e, he, rfl⟩, h.1.1.1, h.1.1.2⟩

/-- What one step keeps, when a release brings no triple that is pending. -/
theorem Grounded.step {cfg : Config} (h : Grounded s.ground) (ev : Event)
    (hapart : ReleasesApart s ev) (hstep : Dual.step cfg s ev = some s') : Grounded s'.ground := by
  cases ev with
  | prepare call items =>
    obtain ⟨hok, rfl⟩ := guarded hstep
    obtain ⟨_, hnodup, hnew⟩ := hok
    have hqueued : ∀ c : Node.Call, hookIds (s.queue ++ [c]) =
        hookIds s.queue ++ c.items.map fun i => i.env.id := fun c => by simp [hookIds]
    have hmono := h.mono (subset_append_right (items.map fun i => i.env.id) _)
      (Subset.refl _) (Sublist.refl _)
    refine { hmono with queued := ?_, apart := fun id hid => ?_ }
    · refine (congrArg List.Nodup (hqueued _)).mpr (h.queued.append hnodup fun id hid hid' => ?_)
      exact hnew id hid' (h.apart id hid).1
    · rcases mem_append.1 ((congrArg (id ∈ ·) (hqueued _)).mp hid) with hid | hid
      · exact hmono.apart id hid
      · exact ⟨mem_append_left _ hid, fun q c hc heq => hnew id hid (heq ▸ (h.seqs q c hc).2.2.2)⟩
  | drop =>
    obtain ⟨c, hi, rfl⟩ := Option.map_eq_some_iff.1 hstep
    exact h.mono (Subset.refl _) (Subset.refl _) ((eraseIdx_sublist _ _).flatMap _)
  | group n now reads gate w =>
    obtain ⟨-, hstep⟩ := barred hstep
    have htaken : Grounded (State.ground { s with queue := s.queue.drop n }) :=
      h.mono (Subset.refl _) (Subset.refl _) ((drop_sublist n s.queue).flatMap _)
    rcases admitted_cases hstep with rfl | rfl | rfl
    · exact htaken
    · exact htaken
    · obtain ⟨henters, _, hall⟩ :=
        h.group_enters cfg n (Node.mergePrefetch (s.queue.take n) s.recentSince)
        (max now s.lastAt)
      exact htaken.commitGroup henters
        (fun id hid => (h.apart id (hall id ((cx_ids_sublist _ _ _ _ _ _).subset hid))).1) gate w
  | release call items extra now reads gate w p =>
    obtain ⟨⟨_, hnodup, hnew, _⟩, hstep⟩ := passed hstep
    rcases admitted_cases hstep with rfl | rfl | rfl
    · exact h
    · exact h
    · have hbegun :
        Grounded (State.ground { s with ghost :=
          { s.ghost with begun := call :: s.ghost.begun } }) := h
      exact hbegun.commitRelease (hbegun.release_enters cfg hnodup hnew hapart _ _ extra).1
        extra gate w p
  | publish i p =>
    obtain ⟨b, hi, -, rfl⟩ := flight_found hstep
    have hmono :=
      h.mono (Subset.refl _) (logged_append s (b.cx.records.map Rec.id) p) (Sublist.refl _)
    refine hmono.hear _ (map_set_eq hi Batch.cx rfl) fun b' hb' q hq r hr => ?_
    rcases mem_or_eq_of_mem_set hb' with hb' | rfl
    · exact hmono.results b' hb' q hq r hr
    rcases hq with hq | hq
    · -- A position was given, so the log confirmed the records.
      have hok : p = .ok := by
        by_contra hp
        simp [hp] at hq
      rw [hok]
      exact mem_append_left _ (mem_map_of_mem hr)
    · exact hmono.results b (mem_of_getElem? hi) q (.inr hq) r hr
  | result i now =>
    obtain ⟨b, hi, -, rfl⟩ := flight_found hstep
    refine h.advance (b := { b with log := b.sent }) hi rfl (fun p hp => ?_) now
    exact h.results b (mem_of_getElem? hi) p (.inl (or_self_iff.1 hp))
  | synced i ok now =>
    obtain ⟨b, hi, -, rfl⟩ := flight_found hstep
    exact h.advance (b := { b with local_ := if ok then .ok else .failed }) hi rfl
      (h.results b (mem_of_getElem? hi)) now
  | answer =>
    obtain ⟨x, -, -, rfl⟩ := waiting_found hstep
    exact h
  | fsync =>
    obtain ⟨-, rfl⟩ := guarded hstep
    exact h
  | fence =>
    cases hstep
    unfold State.fence
    split
    · refine h.hear (s.inflight.map _) ?_ fun b' hb' p hp r hr => ?_
      · rw [map_map]
        refine map_congr_left fun b _ => ?_
        simp only [Function.comp_apply]
        split <;> rfl
      · obtain ⟨b, hb, rfl⟩ := mem_map.1 hb'
        by_cases hu : b.local_ = .pending ∧ s.durableMark < b.cx.upto
        · simp only [hu, and_self, if_true] at hp hr
          exact h.results b hb p hp r hr
        · simp only [hu, if_false] at hp hr
          exact h.results b hb p hp r hr
    · exact h
  | completeLocal =>
    cases hstep
    unfold State.completeLocal
    split
    · exact h
    split
    · exact h
    next hplan =>
      split
      · exact h.localDone hplan
      · exact h
  | republish seqs p =>
    obtain ⟨hok, rfl⟩ := guarded hstep
    have hmono := h.mono (Subset.refl _) (logged_append s (idsAt s.table seqs) p) (Sublist.refl _)
    unfold State.republish
    split
    · exact hmono.logDone hok.1 (fun q hq => unpublished_core (hok.2 q hq)) _
    · exact hmono
  | flush | delete | rotate =>
    cases hstep
    exact h
  | table =>
    obtain ⟨hside, hstep⟩ := passed hstep
    obtain ⟨sh, hsh, rfl⟩ := Option.map_eq_some_iff.1 hstep
    exact h.side hside hsh

end Ankusa.Dual
