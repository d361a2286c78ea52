import Ankusa.Queue.Protocol

set_option autoImplicit false

/-! # What a step writes

The batch an event writes to the store, read off the state it is taken in: `written` for the batches
every reader of the WAL sees, `unwritten` for the one a fence deletes with. `step_effect` says once
that this is all that happens to the store, and `step_groups` which groups the writer lists
afterwards. -/

namespace Ankusa.Node

open Writer Option Run

/-- The fences that are written. -/
def Event.fences : Event → Bool
  | .syncFailed true | .retryFence true => true
  | _ => false

/-- The batch a fence deletes with. -/
def unwritten (s : State) (e : Event) : List Op :=
  if e.fences then undoOps (unsyncedAbove s.writer.unsynced s.marks.durable) else []

/-- The dedupe entries an event writes. -/
def landed (s : State) : Event → List Commit
  | .write true =>
    match s.writer.phase with
    | .applied cx _ | .built cx => commitsOf cx.checked.dedupeOps s.ghost.wal s.mono
    | _ => []
  | _ => []

/-- The writes that may number hooks. -/
def Event.lands : Event → Bool
  | .write true => true
  | _ => false

/-- What an event does to the stores, with and without the fences, and to the dispatch pipeline. -/
structure Effect (s t : State) (e : Event) : Prop where
  store : t.store = (s.store.write (written s e)).write (unwritten s e)
  unfenced : t.ghost.unfenced = s.ghost.unfenced.write (written s e)
  commits : t.ghost.commits = landed s e ++ s.ghost.commits
  dispatch : e.dispatches = false → t.dispatch = s.dispatch
  claimed : e.dispatches = false → t.ghost.claimed = s.ghost.claimed
  undone : e.fences = false → t.ghost.undone = s.ghost.undone
  birth : e.lands = false → t.ghost.birth = s.ghost.birth

/-- What `Effect` is about. -/
def State.outer (s : State) :
    Store × Store × List Commit × Dispatch × List Deliveries.Due × List Nat :=
  (s.store, s.ghost.unfenced, s.ghost.commits, s.dispatch, s.ghost.claimed, s.ghost.undone)

open State

attribute [local simp] State.groups Phase.group setPhase State.answer

section

variable {cfg : Config} {s t : State} {e : Event}

/-- An event that is not the pipeline's writes one batch. -/
theorem Effect.batch (ops : List Op) (cs : List Commit) (hw : written s e = ops)
    (hu : unwritten s e = []) (hl : landed s e = cs)
    (h : t.outer = (s.store.write ops, s.ghost.unfenced.write ops, cs ++ s.ghost.commits,
      s.dispatch,
      s.ghost.claimed, s.ghost.undone)) (hb : e.lands = false → t.ghost.birth = s.ghost.birth) :
        Effect s t e := by
  simp only [State.outer, Prod.mk.injEq] at h
  obtain ⟨hstore, hunfenced, hcommits, hdispatch, hclaimed, hundone⟩ := h
  exact ⟨by rw [hw, hu, hstore]; rfl, by rw [hw, hunfenced], by rw [hl, hcommits],
    fun _ => hdispatch, fun _ => hclaimed, fun _ => hundone, hb⟩

theorem Effect.same (hw : written s e = []) (hu : unwritten s e = [])
    (hl : landed s e = []) (h : t.outer = s.outer) (hb : t.ghost.birth = s.ghost.birth) :
    Effect s t e := .batch [] [] hw hu hl h fun _ => hb

theorem beginGroup_outer (s : State) :
    (beginGroup s).outer = s.outer ∧ (beginGroup s).ghost.birth = s.ghost.birth := by
  unfold beginGroup rotateRecent syncRecent
  split_ifs <;> exact ⟨rfl, rfl⟩

theorem checkGroup_outer (cfg : Config) (s : State) (calls : List Call) (now : Ms)
    (extra : List Op) : (checkGroup cfg s calls now extra).outer = s.outer ∧
      (checkGroup cfg s calls now extra).ghost.birth = s.ghost.birth := by
  unfold checkGroup settleReply
  dsimp only
  split_ifs <;> exact ⟨rfl, rfl⟩

theorem write_effect {ok : Bool} (h : write s ok = some t) : Effect s t (.write ok) := by
  unfold write at h
  cases ok with
  | false =>
    simp only [Bool.false_eq_true, if_false] at h
    split at h <;> try split at h
    all_goals
      cases h
      try exact .same rfl rfl rfl rfl rfl
  | true =>
    split at h
    next cx prev hphase =>
      cases h
      exact .batch cx.ops _ (by simp only [written, hphase])
        rfl (by simp only [landed, hphase]) rfl nofun
    next cx hphase =>
      rw [if_neg fun hextra => by rw [if_pos hextra] at h; cases h] at h
      cases h
      exact .batch cx.ops _ (by simp only [written, hphase])
        rfl (by simp only [landed, hphase]) rfl nofun
    next extra hphase =>
      cases h
      exact .batch extra [] (by simp only [written, hphase])
        rfl (by simp only [landed, hphase]) rfl nofun
    next ops adm now hphase =>
      cases h
      exact .batch ops [] (by simp only [written, hphase])
        rfl (by simp only [landed, hphase]) rfl nofun
    · cases h

theorem expireDedupe_effect {ok : Bool} (h : expireDedupe s ok = some t) :
    Effect s t (.expireDedupe ok) := by
  unfold expireDedupe at h
  cases ok with
  | false =>
    split_ifs at h
    · cases h
      exact .same rfl rfl rfl rfl rfl
    · next hne => exact absurd (.inr rfl) hne
  | true =>
    split_ifs at h with hidle hf
    · cases h
      have hfenced : s.writer.fenced = true := by simpa using hf
      exact .same (by simp only [written, hfenced, if_true]) rfl rfl rfl rfl
    · cases h
      have hfenced : s.writer.fenced = false := by simpa using hf
      exact .batch (expireOps s.store s.sweep).1 []
        (by simp only [written, hfenced]; rfl) rfl rfl rfl fun _ => rfl

/-- What an event writes is all that happens to the store, and only the pipeline's own events touch
    the pipeline. -/
theorem step_effect (h : step cfg s e = some t) : Effect s t e := by
  cases e with
  | tick =>
    obtain ⟨-, rfl⟩ := guarded h
    exact .same rfl rfl rfl rfl rfl
  | gate | prepare | sweepScan =>
    cases h
    exact .same rfl rfl rfl rfl rfl
  | prefetch | enqueue =>
    obtain ⟨c, -, rfl⟩ := map_eq_some_iff.1 h
    exact .same rfl rfl rfl rfl rfl
  | begin_ =>
    simp only [step, begin_] at h
    split at h
    next queue _ _ =>
      split_ifs at h
      · cases h
        exact .same rfl rfl rfl rfl rfl
      · cases h
        have hbegin := beginGroup_outer { s with queue }
        exact .same rfl rfl rfl hbegin.1 hbegin.2
    · cases h
  | drain gone =>
    simp only [step, drain] at h
    split at h
    · obtain ⟨rs, -, heq⟩ := refuseGone_eq gone
        { s with queue := s.queue.drop ((_ :: drainCalls cfg _ _ s.queue).length - 1) } _
      rw [heq] at h
      split_ifs at h
      all_goals
        cases h
        exact .same rfl rfl rfl rfl rfl
    · cases h
  | release =>
    simp only [step, release] at h
    split_ifs at h
    · cases h
      exact .same rfl rfl rfl rfl rfl
    · cases h
      exact .same rfl rfl rfl (beginGroup_outer s).1 (beginGroup_outer s).2
  | check =>
    simp only [step, check] at h
    split at h
    next calls now extra hphase =>
      split_ifs at h
      · cases h
        exact .same rfl rfl rfl rfl rfl
      · cases h
        have hcheck :=
          checkGroup_outer cfg { s with writer := syncEpoch s.writer s.epoch } calls now extra
        exact .same rfl rfl rfl hcheck.1 hcheck.2
    · cases h
  | setApplied =>
    simp only [step, setApplied] at h
    split at h
    · obtain ⟨-, rfl⟩ := guarded h
      exact .same rfl rfl rfl rfl rfl
    · cases h
  | write => exact write_effect h
  | track =>
    simp only [step, track] at h
    split at h
    · cases h
      exact .same rfl rfl rfl rfl rfl
    · cases h
  | redrive =>
    simp only [step, redrive] at h
    split_ifs at h <;> obtain rfl := some.inj h <;> exact .same rfl rfl rfl rfl rfl
  | syncFailed ok | retryFence ok =>
    obtain ⟨-, rfl⟩ := guarded h
    cases ok
    · exact .same rfl rfl rfl rfl rfl
    · exact ⟨rfl, rfl, rfl, fun _ => rfl, fun _ => rfl, by intros; contradiction, fun _ => rfl⟩
  | expireDedupe => exact expireDedupe_effect h
  | syncerTake | syncerSync | syncerAnswer =>
    obtain ⟨marks, syncer, told, synced, replies, failed, rfl, -⟩ := syncer_cases rfl h
    exact .same rfl rfl rfl rfl rfl
  | _ =>
    rcases dispatch_cases rfl h with ⟨d, hw, rfl⟩ | ⟨d, claimed, sync, rfl⟩
    · exact ⟨by rw [hw]; rfl, by rw [hw]; rfl, rfl, by intros; contradiction,
        by intros; contradiction, fun _ => rfl, fun _ => rfl⟩
    · exact ⟨rfl, rfl, rfl,
        by intros; contradiction, by intros; contradiction, fun _ => rfl, fun _ => rfl⟩

/-- What a written fence finds and leaves. -/
theorem fence_effect (he : e.fences = true) (h : step cfg s e = some t) :
    s.writer.phase = .idle ∧ t.ghost.birth = s.ghost.birth ∧ t.groups = [] ∧
      t.ghost.undone = (unsyncedAbove s.writer.unsynced s.marks.durable).filterMap
        (fun g => (s.ghost.birth g.upto).map (·.index)) ++ s.ghost.undone := by
  unfold Event.fences at he
  split at he
  · simp only [step, syncFailed] at h
    obtain ⟨hguard, rfl⟩ := guarded h
    exact ⟨hguard.1, rfl, by simp [fence, hguard.1], rfl⟩
  · simp only [step, retryFence] at h
    obtain ⟨hguard, rfl⟩ := guarded h
    exact ⟨hguard.1, rfl, by simp [fence, hguard.1], rfl⟩
  · cases he

/-! ## Groups -/

theorem checkGroup_groups (cfg : Config) (s : State) (calls : List Call) (now : Ms)
    (extra : List Op) : (checkGroup cfg s calls now extra).groups = s.writer.unsynced := by
  unfold checkGroup settleReply
  dsimp only
  split_ifs <;> rfl

/-- The group a step writes and leaves to the syncer. -/
def newGroup (s : State) : Event → Option Group
  | .write true =>
    match s.writer.phase with
    | .applied cx _ => some ⟨s.writer.nextSeq + cx.checked.fresh.length - 1, cx.undo⟩
    | _ => none
  | _ => none

/-- A group that is listed after a step was listed before it, or is the one the step wrote. -/
theorem step_groups (h : step cfg s e = some t) {g : Group} (hg : g ∈ t.groups) :
    g ∈ s.groups ∨ newGroup s e = some g := by
  have hunsynced : ∀ {g}, g ∈ s.writer.unsynced → g ∈ s.groups := fun h => List.mem_append_right _ h
  by_cases he : e.outside = true
  · have haside := outside_aside he h
    rw [State.groups, haside.phase, haside.unsynced] at hg
    exact .inl hg
  cases e with
  | begin_ =>
    simp only [step, begin_] at h
    split at h
    · split_ifs at h
      · cases h
        exact .inl hg
      · cases h
        refine .inl (hunsynced ?_)
        simpa using hg
    · cases h
  | drain gone =>
    simp only [step, drain] at h
    split at h
    · obtain ⟨rs, -, heq⟩ := refuseGone_eq gone
        { s with queue := s.queue.drop ((_ :: drainCalls cfg _ _ s.queue).length - 1) } _
      rw [heq] at h
      split_ifs at h <;> obtain rfl := some.inj h <;> exact .inl (hunsynced hg)
    · cases h
  | release =>
    simp only [step, release] at h
    split_ifs at h
    · cases h
      exact .inl hg
    · cases h
      refine .inl (hunsynced ?_)
      simpa using hg
  | check =>
    simp only [step, check] at h
    split at h
    next hphase =>
      split_ifs at h
      · cases h
        refine .inl (hunsynced ?_)
        simpa using hg
      · cases h
        rw [checkGroup_groups] at hg
        exact .inl (hunsynced (by simpa using hg))
    · cases h
  | setApplied =>
    simp only [step, setApplied] at h
    split at h
    · obtain ⟨-, rfl⟩ := guarded h
      exact .inl (hunsynced hg)
    · cases h
  | write ok =>
    simp only [step, write] at h
    split at h
    next hphase =>
      cases ok with
      | true =>
        cases h
        simp only [State.groups, setPhase, State.submit, State.land, Phase.group,
          cachePut_fields, WriterState.consume, List.singleton_append, List.mem_cons] at hg
        rcases hg with rfl | hg
        · exact .inr (by simp [newGroup, hphase])
        · exact .inl (hunsynced hg)
      | false =>
        cases h
        exact .inl (hunsynced hg)
    · split_ifs at h
      · cases h
        refine .inl (hunsynced ?_)
        simpa [State.land, WriterState.consume] using hg
      · cases h
        exact .inl (hunsynced hg)
    · split_ifs at h <;> obtain rfl := some.inj h <;> exact .inl (hunsynced hg)
    · split_ifs at h
      · cases h
        refine .inl (hunsynced ?_)
        simpa [WriterState.consume] using hg
      · cases h
        exact .inl (hunsynced hg)
    · cases h
  | track =>
    simp only [step, track] at h
    split at h
    next hphase =>
      cases h
      rcases List.mem_cons.1 hg with rfl | hg
      · exact .inl (List.mem_append_left _ (by simp [hphase]))
      · exact .inl (hunsynced (unsyncedAbove_mem hg).1)
    · cases h
  | redrive =>
    simp only [step, redrive] at h
    split_ifs at h
    · cases h
      exact .inl hg
    · cases h
      exact .inl (by simpa using hg)
    · cases h
      exact .inl (by simpa using hg)
    · cases h
      exact .inl (hunsynced (by simpa using hg))
  | syncFailed ok | retryFence ok =>
    obtain ⟨hguard, rfl⟩ := guarded h
    cases ok with
    | false => exact .inl hg
    | true => exact absurd hg (by simp [fence, hguard.1])
  | syncerTake | syncerSync | syncerAnswer =>
    obtain ⟨marks, syncer, told, synced, replies, failed, rfl, -⟩ := syncer_cases rfl h
    exact .inl hg
  | _ => exact absurd rfl he

end

end Ankusa.Node
