import Ankusa.Queue.Failed

set_option autoImplicit false

/-! # What a claim round sees

A claim round reads the clock and the marks once and then scans for rows due at or before the
ceiling they give. While a group is unsynced the ceiling is below the stamp of the newest durable
group, and every unsynced group is stamped at or after that; when nothing is unsynced the ceiling is
the clock. So a round sees no unsynced row as long as no group that is stamped at or below the
ceiling becomes visible after the marks were read, and no group is stamped below the durable mark's
own stamp (`VisibleOk`).

The node checks neither. The marks are read before the scan, and a group stamped in the same
millisecond (or, when the clock has stepped back, later) is written and scanned before its fsync
(`overtakenRun_claims_unsynced`); and a starting node takes its clock as the stamp of the durable
mark but not of its first group, so that a clock that steps back right after the start opens the
same gap. -/

namespace Ankusa.Node

open Writer Option Run

/-- The time at or below which a claim round may come to take rows as synced, once it has read the
    applied mark. -/
def Scan.bound : Scan → Option Ms
  | .applied now _ => some now
  | .marked now false => some now
  | .opened ceiling => some ceiling
  | _ => none

/-- The stamp of a group that is about to be marked applied. -/
def Phase.stamp : Phase → Option Ms
  | .built cx => some cx.now
  | _ => none

/-- A group that becomes visible is stamped after what the claim round under way takes as synced,
    and not before the durable mark. -/
def VisibleOk (s : State) : Event → Prop
  | .setApplied => ∀ now ∈ s.writer.phase.stamp, s.marks.durableAt ≤ now ∧
      ∀ bound ∈ s.dispatch.scan.bound, bound < now
  | _ => True

instance VisibleOk.decidable (s : State) (e : Event) : Decidable (VisibleOk s e) := by
  unfold VisibleOk
  split <;> infer_instance

section

variable {cfg : Config} {s t : State}

/-! ## Where unsynced groups come from -/

theorem checkGroup_phase_ne (cfg : Config) (s : State) (calls : List Call) (now : Ms)
    (extra : List Op) (cx : Cx) (prev : Nat) :
    (checkGroup cfg s calls now extra).writer.phase ≠ .applied cx prev := by
  unfold checkGroup settleReply
  dsimp only
  split_ifs <;> nofun

variable {e : Event} {cx : Cx} {prev : Nat}

/-- A group is marked applied by `setApplied`, and stays so until its write. -/
theorem applied_step (h : step cfg s e = some t) (hphase : t.writer.phase = .applied cx prev) :
    (s.writer.phase = .applied cx prev ∧ t.marks.applied = s.marks.applied ∧
      s.writer.lastAt = t.writer.lastAt) ∨
      (e = .setApplied ∧ s.writer.phase = .built cx) := by
  by_cases he : e.outside = true
  · have haside := outside_aside he h
    exact .inl ⟨haside.phase ▸ hphase, by rw [haside.marks], haside.lastAt.symm⟩
  cases e with
  | begin_ =>
    simp only [step, begin_] at h
    split at h
    next _ =>
      split_ifs at h
      · cases h
        exact .inl ⟨hphase, rfl, rfl⟩
      · cases h
        cases hphase
    · cases h
  | drain =>
    simp only [step, drain] at h
    split at h
    · split_ifs at h <;> obtain rfl := some.inj h <;> cases hphase
    · cases h
  | release =>
    simp only [step, release] at h
    split_ifs at h with hguard hf
    · cases h
      exact .inl ⟨hphase, rfl, rfl⟩
    · cases h
      cases hphase
  | check =>
    simp only [step, check] at h
    split at h
    · split_ifs at h
      · cases h
        cases hphase
      · cases h
        exact absurd hphase (checkGroup_phase_ne _ _ _ _ _ _ _)
    · cases h
  | setApplied =>
    simp only [step, setApplied] at h
    split at h
    next hbuilt =>
      obtain ⟨-, rfl⟩ := guarded h
      cases hphase
      exact .inr ⟨rfl, hbuilt⟩
    · cases h
  | write =>
    simp only [step, write] at h
    split at h
    · split_ifs at h <;> obtain rfl := some.inj h <;> cases hphase
    · split_ifs at h <;> obtain rfl := some.inj h <;> cases hphase
    · split_ifs at h <;> obtain rfl := some.inj h <;> cases hphase
    · split_ifs at h <;> obtain rfl := some.inj h <;> cases hphase
    · cases h
  | track =>
    simp only [step, track] at h
    split at h
    · cases h
      cases hphase
    · cases h
  | redrive =>
    simp only [step, redrive] at h
    split_ifs at h with hguard
    · cases h
      exact .inl ⟨hphase, rfl, rfl⟩
    · cases h
      refine .inl ⟨by simpa [State.answer] using hphase, rfl, by simp [State.answer]⟩
    · cases h
      refine .inl ⟨by simpa [State.answer] using hphase, rfl, by simp [State.answer]⟩
    · cases h
      cases hphase
  | syncFailed ok | retryFence ok =>
    obtain ⟨hguard, rfl⟩ := guarded h
    cases ok <;> exact .inl ⟨hphase, rfl, rfl⟩
  | syncerTake | syncerSync | syncerAnswer =>
    obtain ⟨marks, syncer, told, synced, replies, failed, rfl, happlied⟩ := syncer_cases rfl h
    exact .inl ⟨hphase, happlied, rfl⟩
  | _ => exact absurd rfl he

/-- A hook above the durable mark was written before, or belongs to the group that was marked
    applied. -/
theorem birth_step (hs : Sound cfg s) (h : step cfg s e = some t) {q : Nat}
    {b : GroupCommit.Birth} (hb : t.ghost.birth q = some b) (hq : t.marks.durable < q) :
    s.ghost.birth q = some b ∨ ∃ cx prev, s.writer.phase = .applied cx prev ∧ b.stamp = cx.now ∧
      q ≤ s.marks.applied := by
  cases he : e.lands with
  | false =>
    rw [(step_effect h).birth he] at hb
    exact .inl hb
  | true =>
    unfold Event.lands at he
    split at he
    · have hok := hs.phase.ok
      have hborn : ∀ {n now}, s.born n now q = some b → s.ghost.birth q = some b ∨
          (b.stamp = now ∧ q ≤ s.writer.nextSeq + n - 1) := by
        intro n now hb
        unfold State.born at hb
        split_ifs at hb with hrange
        · cases hb
          exact .inr ⟨rfl, by omega⟩
        · exact .inl hb
      simp only [step, write] at h
      split at h
      next cx prev hphase =>
        rw [hphase] at hok
        cases h
        rcases hborn hb with hb | ⟨hstamp, hle⟩
        · exact .inl hb
        · exact .inr ⟨cx, prev, hphase, hstamp, hok.2.2 ▸ hle⟩
      next hphase =>
        split_ifs at h
        cases h
        rcases hborn hb with hb | ⟨-, hle⟩
        · exact .inl hb
        · exact absurd (lt_of_le_of_lt (le_max_right _ _) hq) (not_lt.2 hle)
      · cases h
        exact .inl hb
      next hphase =>
        cases h
        rcases hborn hb with hb | ⟨-, hle⟩
        · exact .inl hb
        · exact absurd (lt_of_le_of_lt (le_max_right _ _) hq) (not_lt.2 hle)
      · cases h
    · cases he

/-! ## The ceiling -/

/-- Every unsynced hook above `floor` is stamped after `c`, and so will the group be that is marked
    applied, unless it ends at or below `floor`. -/
structure State.Above (s : State) (c : Ms) (floor : Nat) : Prop where
  born : ∀ q b, s.ghost.birth q = some b → s.marks.durable < q → floor < q → c < b.stamp
  next : ∀ cx prev, s.writer.phase = .applied cx prev → s.marks.applied ≤ floor ∨ c < cx.now

/-- What a claim round under way may take as synced is. -/
def State.ScanOk (s : State) : Prop :=
  match s.dispatch.scan with
  | .applied now seq => s.Above now seq
  | .marked now false => s.Above now 0
  | .opened ceiling => s.Above ceiling 0
  | _ => True

theorem State.Above.step {c : Ms} {floor : Nat} (h : s.Above c floor) (hs : Sound cfg s)
    (hok : e = .setApplied → ∀ cx, s.writer.phase = .built cx → c < cx.now)
    (hstep : Node.step cfg s e = some t) : t.Above c floor where
  born := by
    intro q b hb hq hfloor
    rcases birth_step hs hstep hb hq with hb | ⟨cx, prev, hphase, hstamp, hle⟩
    · exact h.born q b hb (lt_of_le_of_lt (hs.protocol hstep).durable_mono hq) hfloor
    · rcases h.next cx prev hphase with hle' | hlt
      · omega
      · rw [hstamp]
        exact hlt
  next := by
    intro cx prev hphase
    rcases applied_step hstep hphase with ⟨hphase, happlied, -⟩ | ⟨rfl, hbuilt⟩
    · rw [happlied]
      exact h.next cx prev hphase
    · exact .inr (hok rfl cx hbuilt)

/-- The protocol's applied mark is the node's, or the one before the group being written. -/
theorem Sound.applied_le (hs : Sound cfg s) : s.proto.applied ≤ s.marks.applied := by
  have hok := hs.phase.ok
  have hlt := hs.seqs.applied_lt
  show s.writer.phase.floor s.marks.applied ≤ s.marks.applied
  cases hphase : s.writer.phase with
  | applied cx prev =>
    rw [hphase] at hok
    have hprev : prev < s.writer.nextSeq := by
      have : s.writer.phase.floor s.marks.applied < s.writer.nextSeq := hlt
      rwa [hphase] at this
    have happlied := hok.2.2
    show prev ≤ s.marks.applied
    omega
  | _ => exact le_rfl

theorem Sound.durable_lt_applied (hs : Sound cfg s)
    (hphase : s.writer.phase = .applied cx prev) : s.marks.durable < s.marks.applied := by
  have hok := hs.phase.ok
  rw [hphase] at hok
  have hlt : s.marks.durable < s.writer.nextSeq := hs.seqs.level_lt .durable
  have hpos := hok.1.fresh_pos
  have happlied := hok.2.2
  omega

/-- What every step under `VisibleOk` keeps. -/
structure Visible (cfg : Config) (s : State) : Prop extends Orderly cfg s where
  stamps : GroupCommit.StampInv s.proto
  stamped : s.Stamped
  scan : s.ScanOk

theorem Visible.stamped_step (h : Visible cfg s) (hok : VisibleOk s e)
    (hstep : Node.step cfg s e = some t) : t.Stamped := by
  intro cx prev hphase
  have hle : t.marks.durableAt ≤ max s.marks.durableAt t.writer.lastAt :=
    h.stamps.durableAt_le (h.sound.protocol hstep)
  have hphaseOk := (h.sound.step hstep).phase.ok
  rw [hphase] at hphaseOk
  refine hle.trans (max_le ?_ hphaseOk.2.1)
  rcases applied_step hstep hphase with ⟨hold, -, -⟩ | ⟨rfl, hbuilt⟩
  · exact h.stamped cx prev hold
  · exact (hok cx.now (by rw [hbuilt]; rfl)).1

/-- A claim round that has found no unsynced group after reading the applied mark. -/
theorem State.Above.marked {now : Ms} {seq : Nat} (h : s.Above now seq) (hs : Sound cfg s)
    (hseq : seq ≤ s.marks.durable) : s.Above now 0 where
  born := fun q b hb hq _ => h.born q b hb hq (by omega)
  next := by
    intro cx prev hphase
    have hlt := hs.durable_lt_applied hphase
    rcases h.next cx prev hphase with hle | hlt'
    · omega
    · exact .inr hlt'

section

variable (h : Visible cfg s)
include h

theorem Visible.above_durableAt (now : Ms) : s.Above (min now (s.marks.durableAt - 1)) 0 := by
  have hlt : ∀ {x : Ms}, s.marks.durableAt ≤ x → min now (s.marks.durableAt - 1) < x :=
    fun hle => lt_of_le_of_lt (min_le_right _ _) (Int.sub_one_lt_of_le hle)
  refine ⟨fun q b hb hq _ => ?_, fun cx prev hphase => ?_⟩
  · exact hlt (h.stamps.above .durable hb hq hq)
  · exact .inr (hlt (h.stamped cx prev hphase))

theorem Visible.scan_step (hok : VisibleOk s e) (hstep : Node.step cfg s e = some t) :
    t.ScanOk := by
  -- A step that leaves the round where it is.
  have hkeep : t.dispatch.scan = s.dispatch.scan → t.ScanOk := by
    intro hsame
    have hscan := h.scan
    have habove : ∀ {c floor}, s.Above c floor → s.dispatch.scan.bound = some c →
        t.Above c floor := by
      intro c floor habove hbound
      refine habove.step h.sound (fun he cx hbuilt => ?_) hstep
      subst he
      exact (hok cx.now (by rw [hbuilt]; rfl)).2 c hbound
    unfold State.ScanOk at hscan ⊢
    rw [hsame]
    split at hscan
    · next hs => exact habove hscan (by rw [hs]; rfl)
    · next hs => exact habove hscan (by rw [hs]; rfl)
    · next hs => exact habove hscan (by rw [hs]; rfl)
    · trivial
  cases he : e.dispatches with
  | false => exact hkeep (by rw [(step_effect hstep).dispatch he])
  | true =>
    cases e with
    | scanClock =>
      simp only [Node.step, scanClock] at hstep
      split at hstep
      · cases hstep
        trivial
      · cases hstep
    | scanMark =>
      have hscan := h.scan
      unfold State.ScanOk at hscan
      simp only [Node.step, scanMark] at hstep
      split at hstep
      next hclock =>
        cases hstep
        refine ⟨fun q b hb hq hlt => ?_, fun cx prev _ => .inl le_rfl⟩
        -- Nothing above the applied mark is written yet.
        have hle : q ≤ max s.marks.durable s.proto.applied := h.sound.seqs.birth_le hb
        have happlied := h.sound.applied_le
        have hq' : s.marks.durable < q := hq
        have hlt' : s.marks.applied < q := hlt
        omega
      next now seq hmark =>
        cases hstep
        rw [hmark] at hscan
        by_cases hlt : s.marks.durable < seq
        · simp [State.ScanOk, hlt]
        · have habove : s.Above now 0 := hscan.marked h.sound (not_lt.1 hlt)
          simp only [State.ScanOk, hlt, decide_false]
          exact ⟨habove.born, habove.next⟩
      next now unsynced hmark =>
        cases hstep
        rw [hmark] at hscan
        cases unsynced with
        | false => exact ⟨hscan.born, hscan.next⟩
        | true =>
          have habove := h.above_durableAt now
          exact ⟨habove.born, habove.next⟩
      · cases hstep
    | scanClose =>
      simp only [Node.step, scanClose] at hstep
      split at hstep
      · cases hstep
        trivial
      · cases hstep
    | laneRead =>
      refine hkeep ?_
      simp only [Node.step, laneRead] at hstep
      split at hstep
      next hopen =>
        cases hstep
        rfl
      · cases hstep
    | laneWrite ok =>
      refine hkeep ?_
      simp only [Node.step, laneWrite, Option.some.injEq] at hstep
      cases ok <;> subst hstep <;> rfl
    | take =>
      refine hkeep ?_
      simp only [Node.step, take] at hstep
      split at hstep
      next hopen =>
        cases hstep
        rfl
      · cases hstep
    | claimWrite ok =>
      refine hkeep ?_
      cases ok <;> obtain rfl := some.inj hstep <;> rfl
    | result =>
      refine hkeep ?_
      obtain ⟨j, -, rfl⟩ := map_eq_some_iff.1 hstep
      rfl
    | flush i ok =>
      refine hkeep ?_
      obtain ⟨batch, -, rfl⟩ := map_eq_some_iff.1 hstep
      cases ok <;> rfl
    | recover =>
      cases hstep
      trivial
    | _ => cases he

/-- A round reads durable rows only: a row that is not durable is due at its group's stamp, which is
    above the ceiling. -/
theorem Visible.dispatchOk (e : Event) : DispatchOk s e := by
  intro d hd
  unfold takes at hd
  split at hd
  · split at hd
    next hopen =>
      obtain ⟨hstored, hdue⟩ := Deliveries.mem_dueForTenant hd
      have hkept := h.rows.stored (.due d.ord d.time d.seq d.sink) d.seq rfl (by rw [hstored]; simp)
      by_contra hlt
      obtain ⟨g, hg, b, hb, hub, hputs⟩ := hkept.group h.sound (not_le.1 hlt)
      obtain ⟨b', hub', hstamp⟩ := (h.groups g hg).due _ _ _ _ hputs
      obtain rfl := some.inj (hub.symm.trans hub')
      have hscan := h.scan
      unfold State.ScanOk at hscan
      rw [hopen] at hscan
      have hceiling := hscan.born d.seq b hb (not_le.1 hlt) (by omega)
      exact absurd (hstamp ▸ hceiling) (not_lt.2 hdue)
    · cases hd
  · cases hd

theorem Visible.step (hok : VisibleOk s e) (hstep : Node.step cfg s e = some t) :
    Visible cfg t := by
  have hmoves : Moves False True s t ∧ t.PhaseOk cfg :=
    step_proto h.sound False.elim (fun _ => h.stamped) hstep
  exact ⟨h.toOrderly.step (h.dispatchOk e) hstep,
    h.stamps.step h.sound.seqs (hmoves.1.protocol h.sound.disk.synced_le), h.stamped_step hok hstep,
    h.scan_step hok hstep⟩

end

theorem Visible.boot {store : Store} (hstore : SeqMarked store) (closed : List String)
    (wall mono : Ms) : Visible cfg (boot store closed wall mono) := by
  refine ⟨Orderly.boot hstore closed wall mono, ⟨le_rfl, nofun, ?_, ?_, nofun⟩, nofun, trivial⟩
  · intro k hk
    cases hk
  · intro v x hr
    cases hr

/-- **Dispatch claims fsynced rows only.** In every run in which no group becomes visible below the
    ceiling of the claim round under way or below the durable mark's stamp: a row that was claimed,
    and so handed to its sink, belongs to a batch that is on disk, and no fence deletes it. -/
theorem claimed_is_synced {store : Store} (hstore : SeqMarked store) {closed : List String}
    {wall mono : Ms} {es : List Event}
    (hok : Run.Along (step cfg) VisibleOk (boot store closed wall mono) es)
    (hs : Run.exec (step cfg) (boot store closed wall mono) es = some s)
    {d : Deliveries.Due} (hd : d ∈ s.ghost.claimed) {b : GroupCommit.Birth}
    (hb : s.ghost.birth d.seq = some b) : b.index < s.ghost.synced ∧ b.index ∉ s.ghost.undone := by
  have hvisible : Visible cfg s := invariant_along
    (fun _ _ _ hi hp hstep => hi.step hp hstep) (Visible.boot hstore closed wall mono) hok hs
  have hsettled := hvisible.rows.held.claimed d hd
  have hkept : b.index ∉ s.ghost.undone := fun hu => hsettled.kept ⟨b, hb, hu⟩
  refine ⟨?_, hkept⟩
  rcases hvisible.sound.disk.durable d.seq b hb hsettled.durable with hu | hlt
  · exact absurd hu hkept
  · exact hlt

end

/-- A claim round: the clock, the three marks, the due rows of tenant 1, and the claim. -/
def claimRound : List Event :=
  [.scanClock, .scanMark, .scanMark, .scanMark, .take 1 0 10 1000, .claimWrite true, .scanClose]

/-- A hook is committed, and a claim round finds it. -/
def claimedRun : List Event := groupOf 1 [plainItem "a"] ++ fsync true 1 ++ claimRound

theorem claimedRun_synced : ∃ s, Run.exec (step plainConfig) (boot ∅ [] 10 0) claimedRun = some s ∧
    s.ghost.birth 1 = some ⟨0, 10⟩ ∧ s.ghost.claimed = [⟨1, 10, 1, 0, 3, .firstAttempt⟩] ∧
    0 < s.ghost.synced ∧ 0 ∉ s.ghost.undone := by
  have hok : Along (step plainConfig) VisibleOk (boot ∅ [] 10 0) claimedRun := by decide +kernel
  have hrun : ∃ s, exec (step plainConfig) (boot ∅ [] 10 0) claimedRun = some s ∧
      (s.ghost.birth 1 = some ⟨0, 10⟩ ∧ s.ghost.claimed = [⟨1, 10, 1, 0, 3, .firstAttempt⟩]) :=
    of_exec (by decide +kernel)
  obtain ⟨s, hs, hbirth, hclaimed⟩ := hrun
  exact ⟨s, hs, hbirth, hclaimed, claimed_is_synced seqMarked_empty hok hs
    (by rw [hclaimed]; exact List.mem_singleton_self _) hbirth⟩

/-! ## A group that overtakes the marks -/

/-- A claim round reads its clock and finds nothing unsynced; a group is stamped in the same
    millisecond and written; the round scans, and claims its row; then the fsync fails. -/
def overtakenRun : List Event :=
  [.scanClock, .scanMark, .scanMark, .scanMark] ++ groupOf 1 [plainItem "a"] ++
    [.take 1 0 10 1000, .claimWrite true] ++ fsync false 1 ++ [.syncFailed true]

/-- The row is handed to its sink before any fsync, and then the fence deletes its hook. -/
theorem overtakenRun_claims_unsynced : ∃ s, Run.exec (step plainConfig)
    (boot ∅ [] 10 0) overtakenRun = some s ∧
    s.ghost.claimed = [⟨1, 10, 1, 0, 3, .firstAttempt⟩] ∧ s.ghost.birth 1 = some ⟨0, 10⟩ ∧
    0 ∈ s.ghost.undone ∧ s.store.get (.hook 1) = none ∧ (1, .error .syncFailed) ∈ s.ghost.replies :=
  of_exec (by decide +kernel)

end Ankusa.Node
