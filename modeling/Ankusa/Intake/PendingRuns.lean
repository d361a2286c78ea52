import Ankusa.Intake.Indexed

set_option autoImplicit false

/-! # The processes that share the pending set

What the writer, the reconciler, recovery and the edge processes do to the pending set over time.
The writer enters a batch, holds it in flight, and either confirms or carries it; a writer that
crashes forgets what it had in flight while the table stays. The reconciler completes the halves of
carried entries and marks them stuck, an edge process leaves a claim.

Two calls are issued for carried entries only, because the reconciler finds its entries in the
schedule: it schedules an entry again, and it confirms the log half of one whose local half it has
seen in the store (`complete_local/3` comes first). -/

namespace Ankusa.Pending

open KV List Option Run

/-- A batch the writer has entered and not answered. -/
structure Flight where
  batch : Nat
  records : List Rec

/-- The pending set with the batches in flight. -/
structure Shared where
  table : Table
  inflight : List Flight

/-- An empty set and no batch. -/
def Shared.start : Shared := ⟨.empty, []⟩

/-- The calls on the pending set. -/
inductive Event where
  | enter (records : List Rec) (batch : Nat) (now : Ms)
  | confirm (i : Nat) (position : Option Nat)
  | carry (i : Nat) (o : Outcome) (ops : List Op) (time now : Ms)
  | localDone (batch : Nat)
  | logDone (seq position : Nat)
  | reschedule (seq : Nat) (nextAt : Ms)
  | markStuck (seq : Nat)
  | takeClaim (seq : Nat)
  | hold (id : String) (claim : Claim)
  | bumpConfirmed (position : Nat)
  | crash

/-- Two records of one batch have different seqs, and at most one of them holds a dedupe key
    (`dedupe_check/6` answers the second as a duplicate). -/
def Rec.Sibling (r r' : Rec) : Prop := r.seq ≠ r'.seq ∧ (r.triple = none ∨ r.triple ≠ r'.triple)

instance (r r' : Rec) : Decidable (Rec.Sibling r r') := inferInstanceAs (Decidable (_ ∧ _))

/-- Whether the reconciler may have found the seq in the schedule: what is there is carried. -/
def Table.carriedAt (t : Table) (seq : Nat) : Bool :=
  (t.entries.get seq).all fun e => e.nextAt.isSome

/-- The same, with the local half seen in the store. -/
def Table.storedAt (t : Table) (seq : Nat) : Bool :=
  (t.entries.get seq).all fun e => e.nextAt.isSome && e.local_ = .ok

/-- One call. -/
def step (s : Shared) : Event → Option Shared
  | .enter records batch now =>
    if records ≠ [] ∧ records.Pairwise Rec.Sibling then
      some ⟨s.table.enter records batch now, ⟨batch, records⟩ :: s.inflight⟩
    else none
  | .confirm i position =>
    (s.inflight[i]?).map fun f =>
      ⟨s.table.confirm (f.records.map Rec.seq) position, s.inflight.eraseIdx i⟩
  | .carry i o ops time now =>
    (s.inflight[i]?).map fun f =>
      ⟨s.table.carry o f.records f.batch
        ⟨ops, (f.records.head?.map Rec.seq).getD 0, f.records.map Rec.seq, time⟩ now,
        s.inflight.eraseIdx i⟩
  | .localDone batch => some ⟨(s.table.localDone batch).1, s.inflight⟩
  | .logDone seq position =>
    if s.table.storedAt seq then some ⟨(s.table.logDone seq position).1, s.inflight⟩ else none
  | .reschedule seq nextAt =>
    if s.table.carriedAt seq then some ⟨s.table.reschedule seq nextAt, s.inflight⟩ else none
  | .markStuck seq => some ⟨(s.table.markStuck seq).1, s.inflight⟩
  | .takeClaim seq => some ⟨(s.table.takeClaim seq).1, s.inflight⟩
  | .hold id claim => some ⟨(s.table.hold id claim).1, s.inflight⟩
  | .bumpConfirmed position => some ⟨s.table.bumpConfirmed (some position), s.inflight⟩
  | .crash => some ⟨s.table, []⟩

/-- A batch shares no seq, id, dedupe triple or batch id with a pending entry, and no id twice. -/
structure Apart (t : Table) (records : List Rec) (batch : Nat) : Prop where
  fresh : ∀ r ∈ records, r.Fresh t
  ids : records.Pairwise fun r r' => r.id ≠ r'.id
  batch : ∀ q e, t.entries.get q = some e → e.batch ≠ batch

variable {records : List Rec}

theorem apart_iff {t : Table} {batch : Nat} : Apart t records batch ↔
    (∀ r ∈ records, t.entries.get r.seq = none ∧ (∀ x ∈ t.entries.entries, x.2.id ≠ r.id) ∧
      r.triple.all fun k => (t.keys.get k).isNone) ∧
    (records.Pairwise fun r r' => r.id ≠ r'.id) ∧ ∀ x ∈ t.entries.entries, x.2.batch ≠ batch := by
  have hget : ∀ q e, t.entries.get q = some e ↔ ⟨q, e⟩ ∈ t.entries.entries :=
    fun q e => AList.mem_lookup_iff
  constructor
  · rintro ⟨hfresh, hids, hbatch⟩
    refine ⟨fun r hr => ⟨(hfresh r hr).seq, fun x hx => (hfresh r hr).id x.1 x.2 ((hget _ _).2 hx),
      ?_⟩, hids, fun x hx => hbatch x.1 x.2 ((hget _ _).2 hx)⟩
    cases hk : r.triple with
    | none => rfl
    | some k => simp [(hfresh r hr).triple k hk]
  · rintro ⟨hfresh, hids, hbatch⟩
    refine ⟨fun r hr => ?_, hids, fun q e he => hbatch ⟨q, e⟩ ((hget q e).1 he)⟩
    obtain ⟨hseq, hid, htriple⟩ := hfresh r hr
    refine ⟨hseq, fun q e he => hid ⟨q, e⟩ ((hget q e).1 he), fun k hk => ?_⟩
    simpa [hk] using htriple

instance (t : Table) (records : List Rec) (batch : Nat) : Decidable (Apart t records batch) :=
  decidable_of_iff' _ apart_iff

/-- Every batch is entered apart from what is pending. -/
def EntersApart (s : Shared) : Event → Prop
  | .enter records batch _ => Apart s.table records batch
  | _ => True

instance (s : Shared) (ev : Event) : Decidable (EntersApart s ev) := by
  unfold EntersApart
  split <;> infer_instance

/-! ## What one operation does to the entries -/

/-- The batch of an entry, whether it is carried, and its local half. -/
def Entry.view (e : Entry) : Nat × Bool × Half := (e.batch, e.nextAt.isSome, e.local_)

/-- The view of the entry under a seq. -/
def Table.view (t : Table) (q : Nat) : Option (Nat × Bool × Half) :=
  (t.entries.get q).map Entry.view

variable {t u : Table} {q b : Nat} {e : Entry}

theorem Table.lacks_iff : t.Lacks b q ↔ t.view q = some (b, true, .missing) := by
  simp [Table.Lacks, Table.view, Entry.view, map_eq_some_iff]

open Table

section Seen

variable {α : Type} (π : Entry → α) {f : Entry → Entry} {g : α → α}

/-- The entry at `q`, if there is one, is changed by `f`. -/
def Table.Modified (f : Entry → Entry) (q : Nat) (t u : Table) : Prop :=
  ∀ q', u.entries.get q' = if q' = q then (t.entries.get q).map f else t.entries.get q'

theorem Table.Modified.of_set (hnone : t.entries.get q = none → u.entries = t.entries)
    (hsome : ∀ e, t.entries.get q = some e → u.entries = t.entries.set q (some (f e))) :
    Table.Modified f q t u := by
  intro q'
  cases hq : t.entries.get q with
  | none => by_cases hne : q' = q <;> simp [hnone hq, hne, hq]
  | some e => simp [hsome e hq, Map.get_set]

/-- What `π` shows of the entry changes by `g`. -/
theorem Table.Modified.map (h : Table.Modified f q t u)
    (hg : ∀ e, t.entries.get q = some e → π (f e) = g (π e)) (q' : Nat) : (u.entries.get q').map π =
      if q' = q then ((t.entries.get q).map π).map g else (t.entries.get q').map π := by
  rw [h q']
  split
  next =>
    cases hq : t.entries.get q with
    | none => rfl
    | some e => simp [hg e hq]
  next => rfl

theorem Table.Modified.same (h : Table.Modified f q t u)
    (hf : ∀ e, t.entries.get q = some e → π (f e) = π e)
    (q' : Nat) : (u.entries.get q').map π = (t.entries.get q').map π := by
  rw [h.map π (g := id) hf]
  split
  next hq => simp [hq]
  next => rfl

theorem Table.modified_update (f : Entry → Entry) : Table.Modified f q t (t.update q f) :=
  .of_set (fun hq => by simp [Table.update, hq]) fun e hq => by simp [Table.update, hq]

theorem Table.modified_reschedule (q : Nat) (n : Ms) :
    Table.Modified (fun e => { e with nextAt := some n, attempts := e.attempts + 1 }) q t
    (t.reschedule q n) :=
  .of_set (fun hq => by simp [reschedule, hq]) fun e hq => by simp [reschedule, hq]

/-- The entries of a batch are carried: `g` says what becomes of what `π` shows. -/
theorem Table.seen_carry (o : Outcome) (records : List Rec) (b : Nat) (plan : Plan)
    (now : Ms) (q : Nat) (hg : ∀ e bin, π { e with
      local_ := o.local_, log := o.log, position := o.position, nextAt := some now,
      bin := bin } = g (π e))
    (hagain : ∀ a, g (g a) = g a) : ((t.carry o records b plan now).entries.get q).map π =
      if q ∈ records.map Rec.seq then ((t.entries.get q).map π).map g
      else (t.entries.get q).map π := by
  have hfold : ∀ u : Table, ((records.foldl (carryOne o now) u).entries.get q).map π =
      if q ∈ records.map Rec.seq then ((u.entries.get q).map π).map g
      else (u.entries.get q).map π := by
    induction records with
    | nil => simp
    | cons r records ih =>
      intro u
      have hone : Table.Modified (fun e => { e with
          local_ := o.local_, log := o.log, position := o.position, nextAt := some now
          bin := if o.log = .missing then some r.bin else none }) r.seq u (u.carryOne o now r) :=
        .of_set (fun hq => by simp [carryOne, hq]) fun e hq => by simp [carryOne, hq]
      rw [foldl_cons, ih, hone.map π (fun e _ => hg e _)]
      by_cases hin : q ∈ records.map Rec.seq <;> by_cases hq : q = r.seq <;>
        simp [hin, hq, Option.map_map, Function.comp_def, hagain]
  unfold Table.carry
  rw [hfold]
  split <;> split <;> rfl

end Seen

theorem Table.view_update (f : Entry → Entry) (hf : ∀ e, (f e).view = e.view) (q' : Nat) :
    (t.update q f).view q' = t.view q' :=
  (modified_update f).same _ (fun e _ => hf e) q'

@[simp] theorem Table.entries_bumpConfirmed (p : Option Nat) :
    (t.bumpConfirmed p).entries = t.entries := by
  cases p <;> rfl

@[simp] theorem Table.batches_bumpConfirmed (p : Option Nat) :
    (t.bumpConfirmed p).batches = t.batches := by
  cases p <;> rfl

theorem Table.get_remove (q q' : Nat) :
    (t.remove q).entries.get q' = if q' = q then none else t.entries.get q' := by
  unfold Table.remove
  cases hq : t.entries.get q with
  | none =>
    by_cases h : q' = q
    · rw [if_pos h, h, hq]
    · rw [if_neg h]
  | some => simp [Table.forget]

@[simp] theorem Table.batches_remove (q : Nat) : (t.remove q).batches = t.batches := by
  unfold Table.remove
  split <;> rfl

variable {q' : Nat} {v : Nat × Bool × Half} {r : Rec}

theorem Table.get_finish_of_ne (h : q' ≠ q) : (t.finish q).1.entries.get q' = t.entries.get q' := by
  unfold Table.finish
  split
  · rfl
  · split
    · simp [get_remove, h]
    · rfl

theorem Table.get_finish {e' : Entry} (h : (t.finish q).1.entries.get q = some e') :
    t.entries.get q = some e' := by
  unfold Table.finish at h
  cases hq : t.entries.get q with
  | none => simp [hq] at h
  | some e =>
    by_cases hdone : e.local_ = .ok ∧ e.log = .ok
    · simp [hq, hdone, get_remove] at h
    · simpa [hq, hdone] using h

@[simp] theorem Table.batches_finish (q : Nat) : (t.finish q).1.batches = t.batches := by
  unfold Table.finish
  split
  · rfl
  · split <;> simp

theorem Table.view_localOne_of_ne (h : q' ≠ q) : (t.localOne q).1.view q' = t.view q' := by
  unfold localOne Table.view
  split
  · rfl
  · simp [get_finish_of_ne h, h]

theorem Table.view_localOne (h : (t.localOne q).1.view q = some v) :
    ∃ l, v.2.2 = .ok ∧ t.view q = some (v.1, v.2.1, l) := by
  unfold localOne at h
  cases hq : t.entries.get q with
  | none => simp [Table.view, hq] at h
  | some e =>
    simp only [hq] at h
    obtain ⟨e', he', rfl⟩ := map_eq_some_iff.1 h
    have hget := get_finish he'
    simp only [Map.get_set, if_true, Option.some.injEq] at hget
    subst hget
    exact ⟨e.local_, rfl, by simp [Table.view, hq, Entry.view]⟩

@[simp] theorem Table.batches_localOne (q : Nat) : (t.localOne q).1.batches = t.batches := by
  unfold localOne
  split
  · rfl
  · simp

@[simp] theorem Table.batches_localAll (seqs : List Nat) :
    (t.localAll seqs).1.batches = t.batches := by
  induction seqs generalizing t with
  | nil => rfl
  | cons seq seqs ih => simp [localAll, ih]

variable {seqs : List Nat}

theorem Table.view_localAll_of_not_mem (h : q ∉ seqs) : (t.localAll seqs).1.view q = t.view q := by
  induction seqs generalizing t with
  | nil => rfl
  | cons seq seqs ih =>
    rw [mem_cons, not_or] at h
    exact (ih h.2).trans (view_localOne_of_ne h.1)

/-- Whatever is left of a batch whose local half came in has it. -/
theorem Table.view_localAll (hmem : q ∈ seqs) (h : (t.localAll seqs).1.view q = some v) :
    ∃ l, v.2.2 = .ok ∧ t.view q = some (v.1, v.2.1, l) := by
  induction seqs generalizing t with
  | nil => cases hmem
  | cons seq seqs ih =>
    have hrest : ((t.localOne seq).1.localAll seqs).1.view q = some v := h
    by_cases hin : q ∈ seqs
    · obtain ⟨l, hl, hv⟩ := ih hin hrest
      by_cases hq : q = seq
      · subst hq
        obtain ⟨l', _, hv'⟩ := view_localOne hv
        exact ⟨l', hl, hv'⟩
      · exact ⟨l, hl, (view_localOne_of_ne hq).symm.trans hv⟩
    · obtain rfl : q = seq := (mem_cons.1 hmem).resolve_right hin
      rw [view_localAll_of_not_mem hin] at hrest
      exact view_localOne hrest

/-- The entries of a batch are those of its records; the others are as they were. -/
theorem Table.get_enter (records : List Rec) (b : Nat) (now : Ms) (q : Nat) :
    q ∉ records.map Rec.seq ∧ (t.enter records b now).entries.get q = t.entries.get q ∨
      ∃ r ∈ records, r.seq = q ∧ (t.enter records b now).entries.get q = some (r.entry b now) := by
  induction records generalizing t with
  | nil => exact .inl ⟨not_mem_nil, rfl⟩
  | cons r records ih =>
    have hone : (t.enterOne b now r).entries.get q = if q = r.seq then _ else _ := Map.get_set ..
    rcases ih with ⟨hq, hsame⟩ | ⟨r', hr', hseq, hnew⟩
    · by_cases hr : q = r.seq
      · exact .inr ⟨r, mem_cons_self, hr.symm, hsame.trans (hone.trans (if_pos hr))⟩
      · exact .inl ⟨by simpa [hr] using hq, hsame.trans (hone.trans (if_neg hr))⟩
    · exact .inr ⟨r', mem_cons_of_mem _ hr', hseq, hnew⟩

theorem Table.view_enter (records : List Rec) (b : Nat) (now : Ms) (q : Nat) :
    (t.enter records b now).view q =
      if q ∈ records.map Rec.seq then some (b, false, .missing) else t.view q := by
  unfold Table.view
  rcases t.get_enter records b now q with ⟨hq, hsame⟩ | ⟨r, hr, rfl, hnew⟩
  · rw [if_neg hq, hsame]
  · rw [if_pos (mem_map_of_mem hr), hnew]
    rfl

theorem Table.view_reschedule (hcarried : t.carriedAt q) (n : Ms) (q' : Nat) :
    (t.reschedule q n).view q' = t.view q' := by
  refine (modified_reschedule q n).same _ (fun e hq => ?_) q'
  have hsome : e.nextAt.isSome := by simpa [carriedAt, hq] using hcarried
  simp [Entry.view, hsome]

theorem Table.view_markStuck (q q' : Nat) : (t.markStuck q).1.view q' = t.view q' := by
  unfold markStuck
  split
  · rfl
  · split
    · rfl
    · exact view_update (fun e => { e with stuck := true }) (fun _ => rfl) q'

theorem Table.view_setClaim (q : Nat) (c : Option Claim) (q' : Nat) :
    (t.update q fun e => { e with claim := c }).view q' = t.view q' :=
  view_update (fun e => { e with claim := c }) (fun _ => rfl) q'

/-- What no step of a fold changes is left by the fold. -/
theorem foldl_keeps {α β γ : Type} {f : β → α → β} {π : β → γ} (h : ∀ b a, π (f b a) = π b)
    (l : List α) (b : β) : π (l.foldl f b) = π b := by
  induction l generalizing b with
  | nil => rfl
  | cons a l ih => rw [foldl_cons, ih, h]

@[simp] theorem Table.batches_enter (records : List Rec) (b : Nat) (now : Ms) :
    (t.enter records b now).batches = t.batches :=
  foldl_keeps (f := enterOne b now) (π := Table.batches) (fun _ _ => rfl) records t

theorem Table.get_foldl_remove (seqs : List Nat) (q : Nat) :
    (seqs.foldl Table.remove t).entries.get q = if q ∈ seqs then none else t.entries.get q := by
  induction seqs generalizing t with
  | nil => simp
  | cons seq seqs ih =>
    rw [foldl_cons, ih, get_remove]
    by_cases hin : q ∈ seqs
    · simp [hin]
    · by_cases hq : q = seq <;> simp [hin, hq]

theorem Table.view_confirm (seqs : List Nat) (p : Option Nat) (q : Nat) :
    (t.confirm seqs p).view q = if q ∈ seqs then none else t.view q := by
  unfold confirm Table.view
  rw [entries_bumpConfirmed, get_foldl_remove]
  split <;> rfl

@[simp] theorem Table.batches_confirm (seqs : List Nat) (p : Option Nat) :
    (t.confirm seqs p).batches = t.batches := by
  unfold confirm
  rw [batches_bumpConfirmed, foldl_keeps (π := Table.batches) fun _ _ => batches_remove ..]

theorem Table.batches_carryOne (o : Outcome) (now : Ms) (r : Rec) :
    (t.carryOne o now r).batches = t.batches := by
  unfold carryOne
  split <;> rfl

theorem Table.view_carry (o : Outcome) (records : List Rec) (b : Nat) (plan : Plan) (now : Ms)
    (q : Nat) : (t.carry o records b plan now).view q =
      if q ∈ records.map Rec.seq then (t.view q).map fun v => (v.1, true, o.local_) else t.view q :=
  seen_carry _ o records b plan now q (fun _ _ => rfl) fun _ => rfl

theorem Table.batches_carry (o : Outcome) (records : List Rec) (b : Nat) (plan : Plan) (now : Ms) :
    (t.carry o records b plan now).batches =
      if o.local_ = .missing then t.batches.set b (some plan) else t.batches := by
  unfold Table.carry
  rw [foldl_keeps (π := Table.batches) fun _ r => batches_carryOne o now r]
  split <;> rfl

/-! ## Batches through the operations -/

theorem Batched.congr (h : Batched t) (hbatches : u.batches = t.batches)
    (hlacks : ∀ b q, u.view q = some (b, true, .missing) ↔ t.view q = some (b, true, .missing)) :
    Batched u := by
  constructor
  · intro b q
    rw [hbatches, h.rows, lacks_iff, lacks_iff, hlacks]
  · rw [hbatches]
    exact h.nonempty

theorem Batched.localDone (h : Batched t) (b : Nat) : Batched (t.localDone b).1 := by
  unfold Table.localDone
  cases hb : t.batches.get b with
  | none => exact h
  | some plan =>
    have hview : ∀ b' q,
      (Table.localAll { t with batches := t.batches.set b none } plan.seqs).1.view q =
        some (b', true, .missing) ↔ t.view q = some (b', true, .missing) ∧ b' ≠ b := by
      intro b' q
      by_cases hq : q ∈ plan.seqs
      · have hlack := Table.lacks_iff.1 ((h.rows b q).1 ⟨plan, hb, hq⟩)
        constructor
        · intro hv
          obtain ⟨l, hl, _⟩ := Table.view_localAll hq hv
          cases hl
        · rintro ⟨hv, hne⟩
          rw [hlack] at hv
          exact absurd (Prod.ext_iff.1 (some.inj hv)).1.symm hne
      · rw [Table.view_localAll_of_not_mem hq]
        refine ⟨fun hv => ⟨hv, ?_⟩, And.left⟩
        rintro rfl
        obtain ⟨plan', hplan', hmem⟩ := (h.rows b' q).2 (Table.lacks_iff.2 hv)
        obtain rfl := some.inj (hb.symm.trans hplan')
        exact hq hmem
    constructor
    · intro b' q
      rw [Table.lacks_iff, hview, Table.batches_localAll, ← Table.lacks_iff, ← h.rows]
      by_cases hne : b' = b <;> simp [hne]
    · intro b' plan'
      simp only [Table.batches_localAll, Map.get_set]
      split
      · exact by simp
      · exact h.nonempty b' plan'

/-! ## Every run -/

/-- The batches in flight are the writer's own: their entries are pending and not carried, and no
    other entry has their batch id. -/
structure Flown (s : Shared) : Prop where
  entered : ∀ f ∈ s.inflight, ∀ r ∈ f.records, ∃ l, s.table.view r.seq = some (f.batch, false, l)
  own : ∀ f ∈ s.inflight, ∀ q c l, s.table.view q = some (f.batch, c, l) → q ∈ f.records.map Rec.seq
  apart : s.inflight.Pairwise fun f f' => f.batch ≠ f'.batch
  full : ∀ f ∈ s.inflight, f.records ≠ [] ∧ f.records.Pairwise Rec.Sibling

/-- The indexes, the batches and those in flight are what the entries say. -/
structure Described (s : Shared) : Prop where
  indexed : Indexed s.table
  batched : Batched s.table
  flown : Flown s

variable {s : Shared}

theorem Described.start : Described .start :=
  ⟨.empty, .empty, by constructor <;> simp [Shared.start]⟩

/-- The entries of the batches in flight are left alone. -/
theorem Flown.congr (h : Flown s) (hview : ∀ q, u.view q = s.table.view q) :
    Flown ⟨u, s.inflight⟩ :=
  ⟨fun f hf r hr => by rw [hview]; exact h.entered f hf r hr,
    fun f hf q c l hv => h.own f hf q c l ((hview q).symm.trans hv), h.apart, h.full⟩

theorem Described.same (h : Described s) (hindexed : Indexed u)
    (hbatches : u.batches = s.table.batches)
    (hview : ∀ q, u.view q = s.table.view q) : Described ⟨u, s.inflight⟩ :=
  ⟨hindexed, h.batched.congr hbatches fun b q => by rw [hview], h.flown.congr hview⟩

theorem Rec.Fresh.enterOne {r' : Rec} (h : r.Fresh t) (hsib : Rec.Sibling r' r) (hid : r'.id ≠ r.id)
    (b : Nat) (now : Ms) : r.Fresh (t.enterOne b now r') := by
  obtain ⟨hseq, htriple⟩ := hsib
  refine ⟨?_, ?_, ?_⟩
  · simp [Table.enterOne, hseq.symm, h.seq]
  · intro q e he
    simp only [Table.enterOne, Map.get_set] at he
    split at he
    · cases he
      exact hid
    · exact h.id q e he
  · intro k hk
    cases hr' : r'.triple with
    | none => simpa [Table.enterOne, hr'] using h.triple k hk
    | some k' =>
      have hne : k ≠ k' := by
        rintro rfl
        rcases htriple with hnone | hne
        · rw [hr'] at hnone
          cases hnone
        · exact hne (hr'.trans hk.symm)
      simpa [Table.enterOne, hr', hne] using h.triple k hk

theorem Indexed.enter (h : Indexed t) (hfresh : ∀ r ∈ records, r.Fresh t)
    (hids : records.Pairwise fun r r' => r.id ≠ r'.id)
    (hsib : records.Pairwise Rec.Sibling) (b : Nat)
    (now : Ms) : Indexed (t.enter records b now) := by
  induction records generalizing t with
  | nil => exact h
  | cons r records ih =>
    obtain ⟨hid, hids⟩ := pairwise_cons.1 hids
    obtain ⟨hs, hsib⟩ := pairwise_cons.1 hsib
    refine ih (h.enterOne (hfresh r mem_cons_self) b now) (fun r' hr' => ?_) hids hsib
    exact (hfresh r' (mem_cons_of_mem _ hr')).enterOne (hs r' hr') (hid r' hr') b now

theorem Described.enter (h : Described s) (hne : records ≠ [])
    (hsib : records.Pairwise Rec.Sibling) (hapart : Apart s.table records b) (now : Ms) :
    Described ⟨s.table.enter records b now, ⟨b, records⟩ :: s.inflight⟩ := by
  -- The batch is new: no pending entry has its id, and its seqs were free.
  have hfree : ∀ q ∈ records.map Rec.seq, s.table.view q = none := by
    refine forall_mem_map.2 fun r hr => ?_
    simp [Table.view, (hapart.fresh r hr).seq]
  have hnew : ∀ q c l, s.table.view q ≠ some (b, c, l) := by
    intro q c l hv
    obtain ⟨e, he, hev⟩ := map_eq_some_iff.1 hv
    exact hapart.batch q e he (Prod.ext_iff.1 hev).1
  have hother : ∀ f ∈ s.inflight, f.batch ≠ b := by
    intro f hf hb
    obtain ⟨r, hr⟩ := exists_mem_of_ne_nil _ (h.flown.full f hf).1
    obtain ⟨l, hv⟩ := h.flown.entered f hf r hr
    exact hnew r.seq false l (hb ▸ hv)
  refine ⟨h.indexed.enter hapart.fresh hapart.ids hsib b now, h.batched.congr (by simp) ?_, ?_⟩
  · intro b' q
    rw [view_enter]
    by_cases hq : q ∈ records.map Rec.seq
    · simp [hq, hfree q hq]
    · simp [hq]
  · refine ⟨?_, ?_, ?_, ?_⟩
    · intro f hf r hr
      rw [view_enter]
      rcases mem_cons.1 hf with rfl | hf
      · exact ⟨.missing, if_pos (mem_map_of_mem hr)⟩
      · obtain ⟨l, hv⟩ := h.flown.entered f hf r hr
        refine ⟨l, ?_⟩
        rw [if_neg (fun hq => by rw [hfree _ hq] at hv; cases hv), hv]
    · intro f hf q c l hv
      rw [view_enter] at hv
      by_cases hq : q ∈ records.map Rec.seq
      · rcases mem_cons.1 hf with rfl | hf
        · exact hq
        · rw [if_pos hq] at hv
          exact absurd (Prod.ext_iff.1 (some.inj hv)).1.symm (hother f hf)
      · rw [if_neg hq] at hv
        rcases mem_cons.1 hf with rfl | hf
        · exact absurd hv (hnew q c l)
        · exact h.flown.own f hf q c l hv
    · exact pairwise_cons.2 ⟨fun f hf => (hother f hf).symm, h.flown.apart⟩
    · exact forall_mem_cons.2 ⟨⟨hne, hsib⟩, h.flown.full⟩

variable {i : Nat} {f : Flight}

theorem Flown.rest (h : Flown s) (hi : s.inflight[i]? = some f) {f' : Flight}
    (hf' : f' ∈ s.inflight.eraseIdx i) : f' ∈ s.inflight ∧ f'.batch ≠ f.batch := by
  obtain ⟨j, hji, hj⟩ := mem_eraseIdx_iff_getElem?.1 hf'
  obtain ⟨hil, rfl⟩ := List.getElem?_eq_some_iff.1 hi
  obtain ⟨hjl, rfl⟩ := List.getElem?_eq_some_iff.1 hj
  refine ⟨getElem_mem hjl, ?_⟩
  have hpair := pairwise_iff_getElem.1 h.apart
  rcases Nat.lt_or_gt_of_ne hji with hlt | hgt
  · exact hpair j i hjl hil hlt
  · exact (hpair i j hil hjl hgt).symm

/-- A batch lands: whatever becomes of its own entries, the other batches in flight are
    untouched. -/
theorem Flown.land (h : Flown s) (hi : s.inflight[i]? = some f)
    (hview : ∀ q, q ∉ f.records.map Rec.seq → u.view q = s.table.view q)
    (hown : ∀ q ∈ f.records.map Rec.seq, ∀ b c l, u.view q = some (b, c, l) → b = f.batch) :
    Flown ⟨u, s.inflight.eraseIdx i⟩ := by
  have hmem := mem_of_getElem? hi
  refine ⟨?_, ?_, h.apart.sublist (eraseIdx_sublist _ _), ?_⟩
  · intro f' hf' r hr
    obtain ⟨hf', hne⟩ := h.rest hi hf'
    obtain ⟨l, hv⟩ := h.entered f' hf' r hr
    refine ⟨l, (hview r.seq fun hq => ?_).trans hv⟩
    obtain ⟨r', hr', hseq⟩ := mem_map.1 hq
    obtain ⟨l', hv'⟩ := h.entered f hmem r' hr'
    rw [hseq, hv] at hv'
    exact hne (Prod.ext_iff.1 (some.inj hv')).1
  · intro f' hf' q c l hv
    obtain ⟨hf', hne⟩ := h.rest hi hf'
    by_cases hq : q ∈ f.records.map Rec.seq
    · exact absurd (hown q hq _ c l hv) hne
    · exact h.own f' hf' q c l ((hview q hq).symm.trans hv)
  · intro f' hf'
    exact h.full f' (h.rest hi hf').1

theorem Flown.idle (h : Flown s) (hf : f ∈ s.inflight)
    (hq : q ∈ f.records.map Rec.seq) (he : s.table.entries.get q = some e) : e.nextAt = none := by
  obtain ⟨r, hr, rfl⟩ := mem_map.1 hq
  obtain ⟨l, hv⟩ := h.entered f hf r hr
  have hview : e.view = (f.batch, false, l) := by simpa [Table.view, he] using hv
  have hnext : e.nextAt.isSome = false := (Prod.ext_iff.1 (Prod.ext_iff.1 hview).2).1
  simpa using hnext

theorem Indexed.confirm (h : Indexed t) (p : Option Nat)
    (hidle : ∀ q ∈ seqs, ∀ e, t.entries.get q = some e → e.nextAt = none) :
    Indexed (t.confirm seqs p) := by
  refine Indexed.bumpConfirmed ?_ p
  induction seqs generalizing t with
  | nil => exact h
  | cons seq seqs ih =>
    refine ih (h.remove fun e he => ?_) fun q hq e he => ?_
    · simp [Entry.holds, hidle seq mem_cons_self e he]
    · rw [Table.get_remove] at he
      split at he
      · cases he
      · exact hidle q (mem_cons_of_mem _ hq) e he

theorem Described.confirm (h : Described s) (hi : s.inflight[i]? = some f) (p : Option Nat) :
    Described ⟨s.table.confirm (f.records.map Rec.seq) p, s.inflight.eraseIdx i⟩ := by
  have hmem := mem_of_getElem? hi
  refine ⟨h.indexed.confirm p fun q hq e he => h.flown.idle hmem hq he,
    h.batched.congr (by simp) fun b q => ?_,
    h.flown.land hi (fun q hq => ?_) fun q hq b c l hv => ?_⟩
  · rw [view_confirm]
    by_cases hq : q ∈ f.records.map Rec.seq
    · obtain ⟨r, hr, rfl⟩ := mem_map.1 hq
      obtain ⟨l, hv⟩ := h.flown.entered f hmem r hr
      simp [hq, hv]
    · simp [hq]
  · rw [view_confirm, if_neg hq]
  · rw [view_confirm, if_pos hq] at hv
    cases hv

theorem Table.get_carryOne_of_ne (o : Outcome) (now : Ms) (h : q ≠ r.seq) :
    (t.carryOne o now r).entries.get q = t.entries.get q := by
  unfold carryOne
  split
  · rfl
  · simp [h]

section

variable (h : Indexed t) (hsib : records.Pairwise Rec.Sibling)
  (hidle : ∀ q ∈ records.map Rec.seq, ∀ e, t.entries.get q = some e → e.nextAt = none) (o : Outcome)
include h hsib hidle

theorem Indexed.foldl_carryOne (now : Ms) : Indexed (records.foldl (Table.carryOne o now) t) := by
  induction records generalizing t with
  | nil => exact h
  | cons r records ih =>
    obtain ⟨hs, hsib⟩ := pairwise_cons.1 hsib
    refine ih (h.carryOne o now (hidle r.seq (by simp))) hsib fun q hq e he => ?_
    have hne : q ≠ r.seq := by
      rintro rfl
      obtain ⟨r', hr', hseq⟩ := mem_map.1 hq
      exact (hs r' hr').1 hseq.symm
    rw [Table.get_carryOne_of_ne o now hne] at he
    exact hidle q (by simp [mem_map.1 hq]) e he

theorem Indexed.carry (b : Nat) (plan : Plan) (now : Ms) :
    Indexed (t.carry o records b plan now) := by
  unfold Table.carry
  split
  · exact (h.congr (t.batches.set b (some plan)) t.confirmedMax).foldl_carryOne hsib hidle o now
  · exact h.foldl_carryOne hsib hidle o now

end

variable {plan : Plan}

/-- A batch is carried: with its local half missing it is kept under its id, which no carried entry
    had. -/
theorem Batched.carry (h : Described s) (hmem : f ∈ s.inflight) (o : Outcome)
    (hseqs : plan.seqs = f.records.map Rec.seq) (now : Ms) :
    Batched (s.table.carry o f.records f.batch plan now) := by
  have hentered : ∀ q ∈ f.records.map Rec.seq, ∃ l, s.table.view q = some (f.batch, false, l) :=
    forall_mem_map.2 (h.flown.entered f hmem)
  have hlacks : ∀ b q, (s.table.carry o f.records f.batch plan now).Lacks b q ↔
      s.table.Lacks b q ∨ o.local_ = .missing ∧ b = f.batch ∧ q ∈ plan.seqs := by
    intro b q
    rw [lacks_iff, lacks_iff, view_carry, hseqs]
    by_cases hq : q ∈ f.records.map Rec.seq
    · obtain ⟨l, hv⟩ := hentered q hq
      simp [hq, hv, and_comm, eq_comm]
    · simp [hq]
  have hfree : ∀ q, ¬ s.table.Lacks f.batch q := by
    intro q hlack
    have hv := lacks_iff.1 hlack
    obtain ⟨l, hv'⟩ := hentered q (h.flown.own f hmem q true .missing hv)
    rw [hv] at hv'
    cases hv'
  constructor
  · intro b q
    rw [hlacks, batches_carry]
    by_cases hlocal : o.local_ = .missing
    · simp only [hlocal, if_true, true_and, Map.get_set]
      by_cases hb : b = f.batch
      · subst hb
        simp [hfree]
      · simp [hb, h.batched.rows]
    · simp [hlocal, h.batched.rows]
  · intro b plan' hplan
    rw [batches_carry] at hplan
    split at hplan
    · rw [Map.get_set] at hplan
      split at hplan
      · cases hplan
        rw [hseqs]
        simpa using (h.flown.full f hmem).1
      · exact h.batched.nonempty b plan' hplan
    · exact h.batched.nonempty b plan' hplan

theorem Described.carry (h : Described s) (hi : s.inflight[i]? = some f)
    (o : Outcome) (hseqs : plan.seqs = f.records.map Rec.seq) (now : Ms) :
    Described ⟨s.table.carry o f.records f.batch plan now, s.inflight.eraseIdx i⟩ := by
  have hmem := mem_of_getElem? hi
  refine ⟨h.indexed.carry (h.flown.full f hmem).2
    (fun q hq e he => h.flown.idle hmem hq he) o _ plan now,
    Batched.carry h hmem o hseqs now, h.flown.land hi (fun q hq => ?_) fun q hq b c l hv => ?_⟩
  · rw [view_carry, if_neg hq]
  · rw [view_carry, if_pos hq] at hv
    obtain ⟨r, hr, rfl⟩ := mem_map.1 hq
    obtain ⟨l', hv'⟩ := h.flown.entered f hmem r hr
    rw [hv'] at hv
    exact (Prod.ext_iff.1 (some.inj hv)).1.symm

/-- A step on carried entries leaves the batches in flight alone. -/
theorem Flown.carried (h : Flown s) (hview : ∀ q, u.view q = s.table.view q ∨
      (∃ b l, s.table.view q = some (b, true, l)) ∧ ∀ v, u.view q = some v →
      ∃ l, s.table.view q = some (v.1, true, l)) :
    Flown ⟨u, s.inflight⟩ := by
  refine ⟨fun f hf r hr => ?_, fun f hf q c l hv => ?_, h.apart, h.full⟩
  · obtain ⟨l, hv⟩ := h.entered f hf r hr
    rcases hview r.seq with hsame | ⟨⟨b, l', hv'⟩, _⟩
    · exact ⟨l, hsame.trans hv⟩
    · rw [hv] at hv'
      cases hv'
  · rcases hview q with hsame | ⟨_, hleft⟩
    · exact h.own f hf q c l (hsame.symm.trans hv)
    · obtain ⟨l', hv'⟩ := hleft _ hv
      exact h.own f hf q true l' hv'

theorem Described.localDone (h : Described s) (b : Nat) :
    Described ⟨(s.table.localDone b).1, s.inflight⟩ := by
  refine ⟨h.indexed.localDone b, h.batched.localDone b, h.flown.carried fun q => ?_⟩
  unfold Table.localDone
  cases hb : s.table.batches.get b with
  | none => exact .inl rfl
  | some plan =>
    by_cases hq : q ∈ plan.seqs
    · have hlack := Table.lacks_iff.1 ((h.batched.rows b q).1 ⟨plan, hb, hq⟩)
      refine .inr ⟨⟨b, .missing, hlack⟩, fun v hv => ?_⟩
      obtain ⟨l, _, hold⟩ := Table.view_localAll hq hv
      have hold : s.table.view q = some (v.1, v.2.1, l) := hold
      rw [hlack] at hold
      obtain ⟨rfl, _⟩ := Prod.ext_iff.1 (some.inj hold)
      exact ⟨.missing, hlack⟩
    · exact .inl (Table.view_localAll_of_not_mem hq)

theorem Described.logDone (h : Described s) (hstored : s.table.storedAt q) (p : Nat) :
    Described ⟨(s.table.logDone q p).1, s.inflight⟩ := by
  unfold Table.storedAt at hstored
  cases hq : s.table.entries.get q with
  | none =>
    have hsame : (s.table.logDone q p).1 = s.table := by simp [Table.logDone, hq]
    rw [hsame]
    exact h
  | some e =>
    simp only [hq, all_some, Bool.and_eq_true, decide_eq_true_eq] at hstored
    obtain ⟨hcarried, hlocal⟩ := hstored
    have hbefore : s.table.view q = some (e.batch, true, .ok) := by
      simp [Table.view, hq, Entry.view, hcarried, hlocal]
    have hother : ∀ q', q' ≠ q → (s.table.logDone q p).1.view q' = s.table.view q' := by
      intro q' hne
      simp [Table.logDone, hq, Table.view, Table.get_finish_of_ne hne, hne]
    have hself : ∀ v, (s.table.logDone q p).1.view q = some v → v = (e.batch, true, .ok) := by
      intro v hv
      simp only [Table.logDone, hq] at hv
      obtain ⟨e', he', rfl⟩ := map_eq_some_iff.1 hv
      have hget := Table.get_finish he'
      simp only [Map.get_set, if_true, Option.some.injEq] at hget
      subst hget
      simp [Entry.view, hcarried, hlocal]
    refine ⟨h.indexed.logDone p fun e' he' => ?_, h.batched.congr ?_ fun b q' => ?_,
      h.flown.carried fun q' => ?_⟩
    · obtain rfl := some.inj (hq.symm.trans he')
      exact hlocal
    · simp [Table.logDone, hq]
    · by_cases hne : q' = q
      · subst hne
        rw [hbefore]
        refine ⟨fun hv => ?_, fun hv => by cases hv⟩
        cases hself _ hv
      · rw [hother q' hne]
    · by_cases hne : q' = q
      · subst hne
        refine .inr ⟨⟨e.batch, .ok, hbefore⟩, fun v hv => ⟨.ok, ?_⟩⟩
        rw [hself v hv]
        exact hbefore
      · exact .inl (hother q' hne)

theorem Described.reschedule (h : Described s) (hcarried : s.table.carriedAt q) (n : Ms) :
    Described ⟨s.table.reschedule q n, s.inflight⟩ := by
  refine h.same (h.indexed.reschedule n fun e he => ?_) ?_ (Table.view_reschedule hcarried n)
  · simpa [Table.carriedAt, he] using hcarried
  · unfold Table.reschedule
    split <;> rfl

theorem Table.batches_update (q : Nat) (f : Entry → Entry) :
    (t.update q f).batches = t.batches := by
  unfold Table.update
  split <;> rfl

section

variable (h : Described s)
include h

theorem Described.markStuck (q : Nat) : Described ⟨(s.table.markStuck q).1, s.inflight⟩ := by
  refine h.same (h.indexed.markStuck q) ?_ (Table.view_markStuck q)
  unfold Table.markStuck
  split
  · rfl
  · split
    · rfl
    · exact Table.batches_update _ _

theorem Described.setClaim (q : Nat) (c : Option Claim) :
    Described ⟨s.table.update q fun e => { e with claim := c }, s.inflight⟩ :=
  h.same (h.indexed.update fun _ _ => ⟨rfl, rfl, rfl, rfl, rfl, rfl⟩) (batches_update _ _)
    (view_setClaim q c)

theorem Described.takeClaim (q : Nat) : Described ⟨(s.table.takeClaim q).1, s.inflight⟩ := by
  unfold Table.takeClaim
  split
  · exact h
  · exact h.setClaim q none

theorem Described.hold (id : String) (c : Claim) :
    Described ⟨(s.table.hold id c).1, s.inflight⟩ := by
  unfold Table.hold
  split
  · exact h
  · exact h
  · exact h.setClaim _ (some c)

/-- What one step keeps, when a batch it enters is apart from what is pending. -/
theorem Described.step {s' : Shared} (ev : Event) (hapart : EntersApart s ev)
    (hstep : Pending.step s ev = some s') : Described s' := by
  cases ev with
  | enter records b now =>
    obtain ⟨hok, rfl⟩ := guarded hstep
    exact h.enter hok.1 hok.2 hapart now
  | confirm i p =>
    obtain ⟨f, hi, rfl⟩ := map_eq_some_iff.1 hstep
    exact h.confirm hi p
  | carry i o ops time now =>
    obtain ⟨f, hi, rfl⟩ := map_eq_some_iff.1 hstep
    exact h.carry hi o rfl now
  | localDone b =>
    cases hstep
    exact h.localDone b
  | logDone q p =>
    obtain ⟨hok, rfl⟩ := guarded hstep
    exact h.logDone hok p
  | reschedule q n =>
    obtain ⟨hok, rfl⟩ := guarded hstep
    exact h.reschedule hok n
  | markStuck q =>
    cases hstep
    exact h.markStuck q
  | takeClaim q =>
    cases hstep
    exact h.takeClaim q
  | hold id c =>
    cases hstep
    exact h.hold id c
  | bumpConfirmed =>
    cases hstep
    exact h.same (h.indexed.bumpConfirmed _) (by simp) fun q => by simp [Table.view]
  | crash =>
    cases hstep
    exact { h with flown := by constructor <;> simp }

end

/-- In every run in which no batch is entered over a pending entry, the counters and the indices of
    the pending set describe exactly its entries. -/
theorem described_of_entersApart {es : List Event} (hrun : Run.exec step .start es = some s)
    (hapart : Run.Along step EntersApart .start es) : Indexed s.table ∧ Batched s.table := by
  have h := invariant_along (fun _ ev _ h hP hs => h.step ev hP hs)
    Described.start hapart hrun
  exact ⟨h.indexed, h.batched⟩

/-- A keyed hook whose batch reaches the log and not the store. -/
def stripeRec (seq : Nat) (id : String) : Rec := ⟨seq, id, [1, 2], some ("acme", "stripe", "evt_1")⟩

/-- It is carried, scheduled again, marked stuck with a claim left on it, and completed by the
    reconciler while another batch lands. -/
def carriedThrough : List Event :=
  [.enter [stripeRec 1 "a"] 1 0, .carry 0 ⟨.missing, .ok, some 4⟩ [] 0 5, .hold "a" 7,
   .enter [⟨2, "b", [3], none⟩] 2 6, .reschedule 1 105, .markStuck 1, .confirm 0 (some 5),
   .takeClaim 1, .localDone 1]

theorem carriedThrough_described : ∃ s, Run.exec step .start carriedThrough = some s ∧
    Indexed s.table ∧ Batched s.table := by
  obtain ⟨s, hs, _⟩ := of_exec (f := step) (s := .start) (l := carriedThrough)
    (P := fun s => s.table.entries.get 1 = none) (by decide)
  exact ⟨s, hs, described_of_entersApart hs (by decide)⟩

/-- A quarantine release is not asked whether its dedupe key is pending. Here its hook has the key
    of a carried one whose local half is missing, and leaves first. -/
def releasedOver : List Event :=
  [.enter [stripeRec 1 "a"] 1 0, .carry 0 ⟨.missing, .missing, none⟩ [] 0 5,
   .enter [stripeRec 2 "b"] 2 6, .confirm 0 (some 0)]

/-- The carried hook is still pending and its dedupe key is no longer indexed. -/
theorem releasedOver_unkeyed : ∃ s, Run.exec step .start releasedOver = some s ∧
    s.table.keyed ("acme", "stripe", "evt_1") = false ∧ ¬ Indexed s.table := by
  obtain ⟨s, hs, hpending, hkeyed⟩ := of_exec (f := step) (s := .start) (l := releasedOver)
    (P := fun s => (s.table.entries.get 1).map Entry.triple =
      some (some ("acme", "stripe", "evt_1")) ∧
      s.table.keyed ("acme", "stripe", "evt_1") = false) (by decide)
  refine ⟨s, hs, hkeyed, fun h => ?_⟩
  obtain ⟨e, he, htriple⟩ := map_eq_some_iff.1 hpending
  have hkey := (h.keys_self he _).2 htriple
  simp [Table.keyed, hkey] at hkeyed

end Ankusa.Pending
