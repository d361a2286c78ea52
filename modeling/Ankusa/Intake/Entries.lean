import Ankusa.Intake.PendingRuns

set_option autoImplicit false

/-! # What the pending set knows of one record

`Core` is the part of an entry that says which hook it is about and where its halves are; the claim,
the attempts and the schedule are not in it. Each operation of the pending set is one equation on
the cores (`core_enter`, `core_confirm`, …). -/

namespace Ankusa.Pending

open KV List Option

/-- What an entry says of its hook. -/
structure Core where
  id : String
  triple : Option Triple
  batch : Nat
  local_ : Half
  log : Half
  position : Option Nat
  carried : Bool

/-- The core of an entry. -/
def Entry.core (e : Entry) : Core :=
  ⟨e.id, e.triple, e.batch, e.local_, e.log, e.position, e.nextAt.isSome⟩

/-- A record that was entered and has neither half. -/
def Rec.core (r : Rec) (batch : Nat) : Core :=
  ⟨r.id, r.triple, batch, .missing, .missing, none, false⟩

/-- The core of the entry under a seq. -/
def Table.core (t : Table) (q : Nat) : Option Core := (t.entries.get q).map Entry.core
/-- An entry gets its local half; it is gone if it had the other one. -/
def Core.store (c : Core) : Option Core :=
  if c.log = .ok then none else some { c with local_ := .ok }

/-- An entry gets its log half at a position; it is gone if it had the other one. -/
def Core.publish (position : Nat) (c : Core) : Option Core :=
  if c.local_ = .ok then none else some { c with log := .ok, position := some position }

/-- An entry is carried with what became of its halves. -/
def Core.carry (o : Outcome) (c : Core) : Core :=
  { c with local_ := o.local_, log := o.log, position := o.position, carried := true }

variable {t : Table} {q : Nat} {c : Core}

theorem Core.store_eq_some {c' : Core} :
    c.store = some c' ↔ c.log ≠ .ok ∧ { c with local_ := .ok } = c' := by
  unfold Core.store
  split <;> simp [*]

theorem Table.core_eq_some : t.core q = some c ↔ ∃ e, t.entries.get q = some e ∧ e.core = c :=
  map_eq_some_iff

theorem Table.core_eq_none : t.core q = none ↔ t.entries.get q = none := Option.map_eq_none_iff

attribute [local simp] Table.core Entry.core

@[simp] theorem Table.core_empty (q : Nat) : Table.empty.core q = none := by
  simp [empty]

/-! ## What the indices say of the cores -/

open Table

theorem Indexed.keyed_iff (h : Indexed t) (k : Triple) :
    t.keyed k = true ↔ ∃ q c, t.core q = some c ∧ c.triple = some k := by
  unfold keyed
  rw [isSome_iff_exists]
  constructor
  · rintro ⟨q, hq⟩
    obtain ⟨e, he, hk⟩ := (h.keys k q).1 hq
    exact ⟨q, e.core, core_eq_some.2 ⟨e, he, rfl⟩, hk⟩
  · rintro ⟨q, c, hc, hk⟩
    obtain ⟨e, he, rfl⟩ := core_eq_some.1 hc
    exact ⟨q, (h.keys k q).2 ⟨e, he, hk⟩⟩

variable {b : Nat} {plan : Plan}

/-- The seqs of a plan are entries of its batch that lack their local half. -/
theorem Batched.core_lacks (h : Batched t) (hb : t.batches.get b = some plan)
    (hq : q ∈ plan.seqs) : ∃ c, t.core q = some c ∧ c.batch = b ∧ c.carried ∧
    c.local_ = .missing := by
  obtain ⟨e, he, hbatch, hcarried, hlocal⟩ := (h.rows b q).1 ⟨plan, hb, hq⟩
  exact ⟨e.core, core_eq_some.2 ⟨e, he, rfl⟩, hbatch, hcarried, hlocal⟩

/-! ## The operations -/

variable {records : List Rec} {seqs : List Nat}

theorem Table.core_enter_of_not_mem (hq : q ∉ records.map Rec.seq) (b : Nat)
    (now : Ms) : (t.enter records b now).core q = t.core q := by
  rcases t.get_enter records b now q with ⟨-, hsame⟩ | ⟨r, hr, rfl, -⟩
  · exact congrArg _ hsame
  · exact absurd (mem_map_of_mem hr) hq

theorem Table.core_enter (hsib : records.Pairwise Rec.Sibling) {r : Rec} (hr : r ∈ records)
    (b : Nat) (now : Ms) : (t.enter records b now).core r.seq = some (r.core b) := by
  rcases t.get_enter records b now r.seq with ⟨hq, -⟩ | ⟨r', hr', hseq, hnew⟩
  · exact absurd (mem_map_of_mem hr) hq
  · have hnodup : (records.map Rec.seq).Nodup := pairwise_map.2 (hsib.imp And.left)
    obtain rfl := inj_on_of_nodup_map hnodup hr' hr hseq
    exact congrArg _ hnew

theorem Table.core_enter_cases (hsib : records.Pairwise Rec.Sibling)
    {now : Ms} (hc : (t.enter records b now).core q = some c) :
    t.core q = some c ∨ ∃ r ∈ records, q = r.seq ∧ c = r.core b := by
  by_cases hq : q ∈ records.map Rec.seq
  · obtain ⟨r, hr, rfl⟩ := mem_map.1 hq
    rw [core_enter hsib hr] at hc
    exact .inr ⟨r, hr, rfl, (some.inj hc).symm⟩
  · rw [core_enter_of_not_mem hq] at hc
    exact .inl hc

theorem Table.core_confirm (seqs : List Nat) (p : Option Nat) (q : Nat) :
    (t.confirm seqs p).core q = if q ∈ seqs then none else t.core q := by
  unfold confirm core
  rw [entries_bumpConfirmed, get_foldl_remove]
  split <;> rfl

theorem Table.core_carry (o : Outcome) (records : List Rec) (b : Nat) (plan : Plan) (now : Ms)
    (q : Nat) : (t.carry o records b plan now).core q =
      if q ∈ records.map Rec.seq then (t.core q).map (Core.carry o) else t.core q :=
  seen_carry _ o records b plan now q (fun _ _ => rfl) fun _ => rfl

/-- An entry is finished once it has both halves. -/
theorem Table.core_finish (q q' : Nat) : (t.finish q).1.core q' =
    if q' = q then (t.core q).bind fun c => if c.local_ = .ok ∧
    c.log = .ok then none else some c else t.core q' := by
  unfold finish core
  by_cases hne : q' = q
  · subst hne
    cases hq : t.entries.get q' with
    | none => simp [hq]
    | some e => by_cases hdone : e.local_ = .ok ∧ e.log = .ok <;> simp [hdone, hq, get_remove]
  · cases hq : t.entries.get q with
    | none => simp [hne]
    | some e => by_cases hdone : e.local_ = .ok ∧ e.log = .ok <;> simp [hdone, hne, get_remove]

theorem Table.core_localOne (q q' : Nat) :
    (t.localOne q).1.core q' = if q' = q then (t.core q).bind Core.store else t.core q' := by
  unfold localOne
  cases hq : t.entries.get q with
  | none => by_cases hne : q' = q <;> simp [hne, hq]
  | some =>
    rw [core_finish]
    by_cases hne : q' = q
    · subst hne
      simp [hq, Core.store]
    · simp [hne]

theorem Table.core_localAll (seqs : List Nat) (q : Nat) :
    (t.localAll seqs).1.core q = if q ∈ seqs then (t.core q).bind Core.store else t.core q := by
  induction seqs generalizing t with
  | nil => rfl
  | cons seq seqs ih =>
    have hrest : (t.localAll (seq :: seqs)).1.core q =
      ((t.localOne seq).1.localAll seqs).1.core q := rfl
    rw [hrest, ih, core_localOne]
    -- An entry that has its local half and is left lacks the other one: it is left again.
    have hagain : ∀ c : Core, c.store.bind Core.store = c.store := by
      intro c
      by_cases hlog : c.log = .ok <;> simp [Core.store, hlog]
    by_cases hin : q ∈ seqs
    · rw [if_pos hin, if_pos (mem_cons_of_mem _ hin)]
      by_cases hq : q = seq <;> simp [hq, Option.bind_assoc, hagain]
    · rw [if_neg hin]
      by_cases hq : q = seq <;> simp [hin, hq]

theorem Table.core_localDone (hb : t.batches.get b = some plan) (q : Nat) :
    (t.localDone b).1.core q = if q ∈ plan.seqs then (t.core q).bind Core.store else t.core q := by
  unfold localDone
  rw [hb]
  exact core_localAll plan.seqs q

theorem Table.core_logDone (q p q' : Nat) :
    (t.logDone q p).1.core q' = if q' = q then (t.core q).bind (Core.publish p) else t.core q' := by
  unfold logDone
  cases hq : t.entries.get q with
  | none => by_cases hne : q' = q <;> simp [hne, hq]
  | some =>
    rw [core_finish]
    by_cases hne : q' = q
    · subst hne
      simp [hq, Core.publish]
    · simp [hne]

theorem Table.batches_logDone (q p : Nat) : (t.logDone q p).1.batches = t.batches := by
  unfold logDone
  split
  · rfl
  · simp

theorem Table.batches_foldl_logDone (seqs : List Nat) (p : Nat) :
    (seqs.foldl (fun t q => (t.logDone q p).1) t).batches = t.batches :=
  foldl_keeps (π := Table.batches) (fun _ q => batches_logDone q p) seqs t

theorem Table.batches_localDone {b' : Nat} (h : (t.localDone b).1.batches.get b' = some plan) :
    t.batches.get b' = some plan := by
  unfold localDone at h
  split at h
  · exact h
  · rw [batches_localAll, Map.get_set] at h
    split at h
    · cases h
    · exact h

theorem Table.core_foldl_logDone (hnodup : seqs.Nodup) (p q : Nat) :
    (seqs.foldl (fun t q => (t.logDone q p).1) t).core q =
      if q ∈ seqs then (t.core q).bind (Core.publish p) else t.core q := by
  induction seqs generalizing t with
  | nil => simp
  | cons seq seqs ih =>
    obtain ⟨hseq, hnodup⟩ := nodup_cons.1 hnodup
    rw [foldl_cons, ih hnodup, core_logDone]
    by_cases hin : q ∈ seqs
    · have hne : q ≠ seq := fun h => hseq (h ▸ hin)
      simp [hin, hne]
    · rw [if_neg hin]
      by_cases hq : q = seq <;> simp [hin, hq]

/-- Records that are in the store leave the table with their log half. -/
theorem Table.core_logDone_stored (hnodup : seqs.Nodup)
    (hstored : ∀ q ∈ seqs, ∃ c, t.core q = some c ∧ c.carried ∧ c.local_ = .ok) (p q : Nat) :
    (seqs.foldl (fun t q => (t.logDone q p).1) t).core q = if q ∈ seqs then none else t.core q := by
  rw [core_foldl_logDone hnodup]
  split
  next hq =>
    obtain ⟨c, hc, _, hlocal⟩ := hstored q hq
    rw [hc]
    simp [Core.publish, hlocal]
  · rfl

theorem Described.foldl_logDone {s : Shared} (h : Described s) (hnodup : seqs.Nodup)
    (hstored : ∀ q ∈ seqs, ∃ c, s.table.core q = some c ∧ c.carried ∧ c.local_ = .ok) (p : Nat) :
    Described ⟨seqs.foldl (fun t q => (t.logDone q p).1) s.table, s.inflight⟩ := by
  induction seqs generalizing s with
  | nil => exact h
  | cons seq seqs ih =>
    obtain ⟨hseq, hnodup⟩ := nodup_cons.1 hnodup
    obtain ⟨c, hc, hcarried, hlocal⟩ := hstored seq mem_cons_self
    obtain ⟨e, he, rfl⟩ := core_eq_some.1 hc
    have hat : s.table.storedAt seq := by
      have hcarried : e.nextAt.isSome = true := hcarried
      have hlocal : e.local_ = .ok := hlocal
      simp [storedAt, he, hcarried, hlocal]
    refine ih (h.logDone hat p) hnodup fun q hq => ?_
    obtain ⟨c, hc, hrest⟩ := hstored q (mem_cons_of_mem _ hq)
    have hne : q ≠ seq := fun h => hseq (h ▸ hq)
    exact ⟨c, by rw [core_logDone, if_neg hne, hc], hrest⟩

/-! ## What leaves the cores alone -/

theorem Table.core_update (f : Entry → Entry) (hf : ∀ e, (f e).core = e.core) (q' : Nat) :
    (t.update q f).core q' = t.core q' :=
  (modified_update f).same _ (fun e _ => hf e) q'

theorem Table.core_reschedule (hcarried : t.carriedAt q) (n : Ms) (q' : Nat) :
    (t.reschedule q n).core q' = t.core q' := by
  refine (modified_reschedule q n).same _ (fun e hq => ?_) q'
  have hsome : e.nextAt.isSome := by simpa [carriedAt, hq] using hcarried
  simp [hsome]

theorem Table.core_markStuck (q q' : Nat) : (t.markStuck q).1.core q' = t.core q' := by
  unfold markStuck
  split
  · rfl
  · split
    · rfl
    · exact core_update (fun e => { e with stuck := true }) (fun _ => rfl) q'

theorem Table.core_takeClaim (q q' : Nat) : (t.takeClaim q).1.core q' = t.core q' := by
  unfold takeClaim
  split
  · rfl
  · exact core_update (fun e => { e with claim := none }) (fun _ => rfl) q'

theorem Table.core_hold (id : String) (cl : Claim) (q' : Nat) :
    (t.hold id cl).1.core q' = t.core q' := by
  unfold hold
  split
  · rfl
  · rfl
  · exact core_update (fun e => { e with claim := some cl }) (fun _ => rfl) q'

theorem Table.kept_update (f : Entry → Entry) :
    (t.update q f).batches = t.batches ∧ (t.update q f).confirmedMax = t.confirmedMax := by
  unfold update
  split <;> exact ⟨rfl, rfl⟩

theorem Table.kept_reschedule (q : Nat) (n : Ms) :
    (t.reschedule q n).batches = t.batches ∧ (t.reschedule q n).confirmedMax = t.confirmedMax := by
  unfold reschedule
  split <;> exact ⟨rfl, rfl⟩

theorem Table.kept_markStuck (q : Nat) :
    (t.markStuck q).1.batches = t.batches ∧ (t.markStuck q).1.confirmedMax = t.confirmedMax := by
  unfold markStuck
  split
  · exact ⟨rfl, rfl⟩
  · split
    · exact ⟨rfl, rfl⟩
    · exact kept_update fun e => { e with stuck := true }

theorem Table.kept_takeClaim (q : Nat) :
    (t.takeClaim q).1.batches = t.batches ∧ (t.takeClaim q).1.confirmedMax = t.confirmedMax := by
  unfold takeClaim
  split
  · exact ⟨rfl, rfl⟩
  · exact kept_update _

theorem Table.kept_hold (id : String) (cl : Claim) :
    (t.hold id cl).1.batches = t.batches ∧ (t.hold id cl).1.confirmedMax = t.confirmedMax := by
  unfold hold
  split
  · exact ⟨rfl, rfl⟩
  · exact ⟨rfl, rfl⟩
  · exact kept_update _

end Ankusa.Pending
