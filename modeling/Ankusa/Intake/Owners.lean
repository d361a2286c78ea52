import Ankusa.Intake.PendingRuns

set_option autoImplicit false

/-! # Who completes a pending entry

The writer answers for the entries of the batches it has in flight, the reconciler for the carried
ones: it finds its work in the schedule (`due/3`, `carried/1`), which holds carried entries only. A
batch moves from the first to the second when it is carried.

The table outlives the writer. A writer that is restarted starts with no batch in flight and does
not look at the table, so the entries of a batch that was in flight when it crashed have nobody
left. -/

namespace Ankusa.Pending

open KV Option Table Run

variable {s : Shared} {t u : Table} {q : Nat}

/-- Every entry is carried or belongs to a batch in flight. -/
def Attended (s : Shared) : Prop :=
  ∀ q e, s.table.entries.get q = some e →
    e.nextAt.isSome ∨ ∃ f ∈ s.inflight, q ∈ f.records.map Rec.seq

/-- A writer crashes only while it has nothing in flight. -/
def CrashesIdle (s : Shared) : Event → Prop
  | .crash => s.inflight = []
  | _ => True

instance (s : Shared) (ev : Event) : Decidable (CrashesIdle s ev) := by
  unfold CrashesIdle
  split <;> infer_instance

theorem attended_iff : Attended s ↔ ∀ q v, s.table.view q = some v →
    v.2.1 = true ∨ ∃ f ∈ s.inflight, q ∈ f.records.map Rec.seq := by
  constructor
  · intro h q v hv
    obtain ⟨e, he, rfl⟩ := map_eq_some_iff.1 hv
    exact h q e he
  · intro h q e he
    exact h q e.view (by simp [Table.view, he])

section

variable (h : Attended s)
include h

/-- An operation on the table that brings no new entry and takes none out of the schedule. -/
theorem Attended.of_view
    (hview : ∀ q v, u.view q = some v → ∃ l, s.table.view q = some (v.1, v.2.1, l)) :
    Attended ⟨u, s.inflight⟩ := by
  rw [attended_iff] at h ⊢
  intro q v hv
  obtain ⟨l, hold⟩ := hview q v hv
  exact h q (v.1, v.2.1, l) hold

theorem Attended.of_view_eq (hview : ∀ q, u.view q = s.table.view q) : Attended ⟨u, s.inflight⟩ :=
  h.of_view fun q v hv => ⟨v.2.2, (hview q).symm.trans hv⟩

theorem Attended.enter (records : List Rec) (b : Nat) (now : Ms) :
    Attended ⟨s.table.enter records b now, ⟨b, records⟩ :: s.inflight⟩ := by
  rw [attended_iff] at h ⊢
  intro q v hv
  rw [view_enter] at hv
  split at hv
  · next hq => exact .inr ⟨⟨b, records⟩, List.mem_cons_self, hq⟩
  · rcases h q v hv with hcarried | ⟨f, hf, hq⟩
    · exact .inl hcarried
    · exact .inr ⟨f, List.mem_cons_of_mem _ hf, hq⟩

/-- A batch lands: its own entries are taken out or carried, the others keep their owner. -/
theorem Attended.land {i : Nat} {f : Flight} (hi : s.inflight[i]? = some f)
    (hown : ∀ q ∈ f.records.map Rec.seq, ∀ v, u.view q = some v → v.2.1 = true)
    (hother : ∀ q, q ∉ f.records.map Rec.seq → u.view q = s.table.view q) :
    Attended ⟨u, s.inflight.eraseIdx i⟩ := by
  rw [attended_iff] at h ⊢
  intro q v hv
  by_cases hq : q ∈ f.records.map Rec.seq
  · exact .inl (hown q hq v hv)
  rcases h q v ((hother q hq).symm.trans hv) with hcarried | ⟨f', hf', hq'⟩
  · exact .inl hcarried
  -- Its batch is another one, so it is still in flight.
  refine .inr ⟨f', ?_, hq'⟩
  obtain ⟨j, hj⟩ := List.mem_iff_getElem?.1 hf'
  refine List.mem_eraseIdx_iff_getElem?.2 ⟨j, ?_, hj⟩
  rintro rfl
  rw [hi] at hj
  exact hq (some.inj hj ▸ hq')

theorem Attended.localDone (b : Nat) : Attended ⟨(s.table.localDone b).1, s.inflight⟩ := by
  refine h.of_view fun q v hv => ?_
  unfold Table.localDone at hv
  cases hb : s.table.batches.get b with
  | none =>
    rw [hb] at hv
    exact ⟨v.2.2, hv⟩
  | some plan =>
    rw [hb] at hv
    by_cases hq : q ∈ plan.seqs
    · obtain ⟨l, _, hold⟩ := Table.view_localAll hq hv
      exact ⟨l, hold⟩
    · refine ⟨v.2.2, ?_⟩
      rw [Table.view_localAll_of_not_mem hq] at hv
      exact hv

theorem Attended.logDone (q p : Nat) : Attended ⟨(s.table.logDone q p).1, s.inflight⟩ := by
  refine h.of_view fun q' v hv => ⟨v.2.2, ?_⟩
  cases hq : s.table.entries.get q with
  | none =>
    have hsame : (s.table.logDone q p).1 = s.table := by simp [Table.logDone, hq]
    rwa [hsame] at hv
  | some =>
    by_cases hne : q' = q
    · subst hne
      simp only [Table.logDone, hq] at hv
      obtain ⟨e', he', rfl⟩ := map_eq_some_iff.1 hv
      have hget := Table.get_finish he'
      simp only [Map.get_set, if_true, Option.some.injEq] at hget
      subst hget
      simp [Table.view, hq, Entry.view]
    · simpa [Table.logDone, hq, Table.view, Table.get_finish_of_ne hne, hne] using hv

/-- What one step keeps, when the writer crashes only while it has nothing in flight. -/
theorem Attended.step {s' : Shared} (ev : Event) (hidle : CrashesIdle s ev)
    (hstep : Pending.step s ev = some s') : Attended s' := by
  cases ev with
  | enter records b now =>
    obtain ⟨-, rfl⟩ := guarded hstep
    exact h.enter records b now
  | confirm =>
    obtain ⟨f, hi, rfl⟩ := map_eq_some_iff.1 hstep
    refine h.land hi (fun q hq v hv => ?_) fun q hq => ?_
    · rw [view_confirm, if_pos hq] at hv
      cases hv
    · rw [view_confirm, if_neg hq]
  | carry =>
    obtain ⟨f, hi, rfl⟩ := map_eq_some_iff.1 hstep
    refine h.land hi (fun q hq v hv => ?_) fun q hq => ?_
    · rw [view_carry, if_pos hq] at hv
      obtain ⟨v', _, rfl⟩ := map_eq_some_iff.1 hv
      rfl
    · rw [view_carry, if_neg hq]
  | localDone b =>
    cases hstep
    exact h.localDone b
  | logDone q p =>
    obtain ⟨-, rfl⟩ := guarded hstep
    exact h.logDone q p
  | reschedule q n =>
    obtain ⟨hok, rfl⟩ := guarded hstep
    exact h.of_view_eq (view_reschedule hok n)
  | markStuck q =>
    cases hstep
    exact h.of_view_eq (view_markStuck q)
  | takeClaim q =>
    cases hstep
    refine h.of_view_eq fun q' => ?_
    unfold takeClaim
    split
    · rfl
    · exact view_setClaim q none q'
  | hold id c =>
    cases hstep
    refine h.of_view_eq fun q' => ?_
    unfold Table.hold
    split
    · rfl
    · rfl
    · exact view_setClaim _ (some c) q'
  | bumpConfirmed =>
    cases hstep
    exact h.of_view_eq fun q => by simp [Table.view]
  | crash =>
    cases hstep
    have hidle : s.inflight = [] := hidle
    intro q e he
    rcases h q e he with hcarried | ⟨f, hf, _⟩
    · exact .inl hcarried
    · rw [hidle] at hf
      cases hf

end

/-- In every run in which the writer crashes only while it has nothing in flight, some process
    answers for every pending entry: it is carried, or its batch is in flight. -/
theorem attended_of_crashesIdle {es : List Event} (hrun : Run.exec step .start es = some s)
    (hidle : Run.Along step CrashesIdle .start es) : Attended s :=
  invariant_along (fun _ ev _ h hP hs => h.step ev hP hs)
    (fun q e he => by simp [Shared.start, Table.empty] at he) hidle hrun

/-- A batch is carried, the writer is restarted, and the next batch is in flight. -/
def carriedOverCrash : List Event :=
  [.enter [stripeRec 1 "a"] 1 0, .carry 0 ⟨.missing, .ok, some 4⟩ [] 0 5, .crash,
   .enter [⟨2, "b", [3], none⟩] 2 6]

theorem carriedOverCrash_attended : ∃ s, Run.exec step .start carriedOverCrash = some s ∧
    s.table.records = 2 ∧ Attended s := by
  obtain ⟨s, hs, hrecords⟩ := of_exec (f := step) (s := .start) (l := carriedOverCrash)
    (P := fun s => s.table.records = 2) (by decide)
  exact ⟨s, hs, hrecords, attended_of_crashesIdle hs (by decide)⟩

/-- The writer crashes with a batch in flight. -/
def crashedInFlight : List Event := [.enter [stripeRec 1 "a"] 1 0, .crash]

/-- Its entry is pending, with its dedupe key, and neither carried, stuck nor in flight. -/
theorem crashedInFlight_unattended : ∃ s, Run.exec step .start crashedInFlight = some s ∧
    s.table.keyed ("acme", "stripe", "evt_1") = true ∧ s.inflight = [] ∧
    ∃ e, s.table.entries.get 1 = some e ∧ e.nextAt = none ∧ e.stuck = false :=
  ⟨_, rfl, by decide, rfl, _, rfl, rfl, rfl⟩

end Ankusa.Pending
