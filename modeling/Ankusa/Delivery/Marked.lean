import Ankusa.Delivery.Pipeline
import Ankusa.Queue.Dispatch

set_option autoImplicit false

/-! # Due rows and their markers

A due row is never put without the active marker of its second in the same batch
(`Deliveries.due_ops`), and no batch of these processes deletes an active marker. `Marked` says so
of a batch; it is proved builder by builder, and `step_marked` says that every step of the processes
writes such a batch, and keeps only such batches for later. -/

namespace Ankusa

open Deliveries KV List BatchOp

/-- Active markers are only put, due rows are put or deleted, and one that is put has its marker put
    too. -/
def Marked (ops : List Op) : Prop :=
  ∀ op ∈ ops, (∀ b o, op.key = .active b o → ∃ v, op = .put (.active b o) v) ∧
    ∀ o t q i, op.key = .due o t q i → op.creates = true →
      (∃ v, op = .put (.due o t q i) v) ∧ ∃ v, .put (.active (t / 1000) o) v ∈ ops

namespace Marked

variable {a b : List Op}

theorem nil : Marked [] := forall_mem_nil _

/-- The marker may come from a larger batch. -/
theorem mono_mem (h : Marked a) {op : Op} (hop : op ∈ a) (hsub : ∀ x ∈ a, x ∈ b) :
    (∀ b o, op.key = .active b o → ∃ v, op = .put (.active b o) v) ∧
      ∀ o t q i, op.key = .due o t q i → op.creates = true →
        (∃ v, op = .put (.due o t q i) v) ∧ ∃ v, .put (.active (t / 1000) o) v ∈ b := by
  refine ⟨(h op hop).1, fun o t q i hk hc => ?_⟩
  obtain ⟨hput, v, hv⟩ := (h op hop).2 o t q i hk hc
  exact ⟨hput, v, hsub _ hv⟩

theorem append (ha : Marked a) (hb : Marked b) : Marked (a ++ b) := by
  intro op hop
  rcases mem_append.1 hop with h | h
  · exact ha.mono_mem h fun x hx => mem_append_left _ hx
  · exact hb.mono_mem h fun x hx => mem_append_right _ hx

theorem flatMap {α : Type} {xs : List α} {f : α → List Op} (h : ∀ x ∈ xs, Marked (f x)) :
    Marked (xs.flatMap f) := by
  intro op hop
  obtain ⟨x, hx, hop⟩ := mem_flatMap.1 hop
  exact (h x hx).mono_mem hop fun y hy => mem_flatMap.2 ⟨x, hx, hy⟩

theorem perm (ha : Marked a) (hp : a.Perm b) : Marked b := fun _ hop =>
  ha.mono_mem (hp.mem_iff.2 hop) fun _ hx => hp.mem_iff.1 hx

/-- An operation that is neither on a marker nor makes a row due. -/
def Aside (op : Op) : Prop :=
  (∀ b o, op.key ≠ .active b o) ∧ ∀ o t q i, op.key = .due o t q i → op.creates = false

theorem of_aside (h : ∀ op ∈ a, Aside op) : Marked a := by
  intro op hop
  obtain ⟨hactive, hdue⟩ := h op hop
  refine ⟨fun b o hk => absurd hk (hactive b o), fun o t q i hk hc => ?_⟩
  rw [hdue o t q i hk] at hc
  cases hc

variable {ord seq sink size : Nat} {time : Ms}

theorem dueOps {kind : Kind} : Marked (dueOps ord time seq sink size kind) := by
  intro op hop
  rcases mem_cons.1 hop with rfl | hop
  · refine ⟨nofun, fun o t q i hk _ => ?_⟩
    obtain ⟨rfl, rfl, rfl, rfl⟩ := Key.due.inj hk
    exact ⟨⟨_, rfl⟩, _, mem_cons_of_mem _ mem_cons_self⟩
  · obtain rfl := mem_singleton.1 hop
    refine ⟨fun b o hk => ?_, nofun⟩
    obtain ⟨rfl, rfl⟩ := Key.active.inj hk
    exact ⟨_, rfl⟩

theorem counters (ds : List Counters.Delta) : Marked (Counters.ops ds) :=
  of_aside (Counters.within (fun _ _ _ => ⟨nofun, nofun⟩) ds)

theorem coalesce (h : Marked a) : Marked (coalesce a) := by
  intro op hop
  rcases mem_coalesce hop with hmem | ⟨o, f, d, rfl⟩
  · refine ⟨(h op hmem).1, fun o t q i hk hc => ?_⟩
    obtain ⟨hput, v, hv⟩ := (h op hmem).2 o t q i hk hc
    obtain ⟨v', hv'⟩ := (mem_keepOnce_active [] hv).resolve_left not_mem_nil
    exact ⟨hput, v', mem_append_left _ hv'⟩
  · exact ⟨nofun, nofun⟩

variable {lane : Lane}

theorem memberOps : Marked (Lanes.memberOps ord time seq sink size lane) := by
  refine append (forall_mem_cons.2 ⟨⟨nofun, nofun⟩, forall_mem_cons.2 ⟨⟨nofun, nofun⟩,
    forall_mem_singleton.2 ⟨fun b o hk => ?_, nofun⟩⟩⟩) (counters _)
  obtain ⟨rfl, rfl⟩ := Key.active.inj hk
  exact ⟨_, rfl⟩

theorem promoteOps {replace : Bool} :
    Marked (Lanes.promoteOps ord lane seq sink size time replace) := by
  refine append (append (of_aside ?_) dueOps) (counters _)
  simp [Aside]

theorem vacateOps : Marked (Lanes.vacateOps ord lane) :=
  append (a := [_]) (of_aside (by simp [Aside])) (counters _)

variable {s : Store} {durable : Nat}

theorem releaseOps : Marked (Lanes.releaseOps s ord lane time durable) := by
  unfold Lanes.releaseOps
  split
  · split
    · exact promoteOps
    · exact append vacateOps (of_aside (by simp [Aside]))
  · exact vacateOps

/-- The lanes a batch releases bring their own markers. -/
theorem expand {batch : List BatchOp} (h : Marked (BatchOp.toOps batch)) (s : Store) (time : Ms)
    (durable : Nat) : Marked (Lanes.expand s time durable [] batch) := by
  have hperm : ∀ (batch : List BatchOp) (seen : List (Nat × Lane)), ∃ released,
      (Lanes.expand s time durable seen batch).Perm (BatchOp.toOps batch ++ released) ∧
        Marked released := by
    intro batch
    induction batch with
    | nil => exact fun seen => ⟨[], .refl _, nil⟩
    | cons op batch ih =>
      intro seen
      cases op with
      | op o =>
        obtain ⟨released, hp, hm⟩ := ih seen
        exact ⟨released, hp.cons o, hm⟩
      | laneRelease ord lane =>
        unfold Lanes.expand
        split_ifs
        · exact ih seen
        · obtain ⟨released, hp, hm⟩ := ih ((ord, lane) :: seen)
          refine ⟨Lanes.releaseOps s ord lane time durable ++ released, ?_, releaseOps.append hm⟩
          refine (hp.append_left _).trans ?_
          rw [← append_assoc, ← append_assoc]
          exact perm_append_comm.append_right _
  obtain ⟨released, hp, hm⟩ := hperm batch []
  exact (h.append hm).perm hp.symm

theorem triage : Marked (Lanes.triage s ord lane time durable) := by
  have hmarker : Marked [.delete (.laneMarker ord lane)] := of_aside (by simp [Aside])
  unfold Lanes.triage
  split
  · split
    · split_ifs
      · exact releaseOps
      · exact hmarker
    · exact hmarker
    · exact releaseOps
  · split
    · split_ifs
      · exact promoteOps
      · exact nil
    · exact hmarker

theorem newOps {row : Row} {lane : Option Lane} :
    Marked (newOps ord time seq sink size row lane) := by
  have hrow : Marked [.put (.delivery seq sink) (.row row)] := of_aside (by simp [Aside])
  unfold Deliveries.newOps
  split
  · exact (hrow.append dueOps).append (counters _)
  · exact (hrow.append memberOps).append (counters _)

end Marked

/-! ## The batches of the processes -/

namespace Delivery

open Run

theorem marked_commit (seq : Nat) (hooks : List (List New)) : Marked (commitOps seq hooks) := by
  induction hooks generalizing seq with
  | nil => exact .nil
  | cons hook hooks ih => exact (Marked.flatMap fun n _ => Marked.newOps).append (ih (seq + 1))

attribute [local simp] Marked.Aside

theorem marked_revive (s : Store) (hits : List Hit) (now : Ms) (replay : String)
    (class? : Option ErrorClass) : Marked (reviveOps s hits now replay class?) := by
  refine Marked.flatMap fun h _ => ?_
  have hgone : Marked (deadGone h) := .of_aside (by simp [deadGone])
  unfold reviveRow
  split
  · split_ifs
    · refine ((Marked.append (.of_aside (by simp)) hgone).append ?_).append (.counters _)
      unfold requeueOps
      split
      · exact .memberOps
      · exact .dueOps
    · exact .nil
  · exact .nil
  · exact hgone.append (.counters _)

theorem marked_evict (rows : List (Hit × Nat)) : Marked (evictSized rows) := by
  refine Marked.coalesce (Marked.flatMap fun h _ => ?_)
  exact Marked.append (.of_aside (by simp [deadGone])) (.counters _)

theorem marked_purgeDead (s : Store) (hits : List Hit) : Marked (purgeDead s hits) := by
  refine Marked.coalesce (Marked.flatMap fun h _ => ?_)
  exact Marked.append (.of_aside (by simp)) (.counters _)

theorem marked_claim (dues : List Due) : Marked (claim dues) := by
  refine Marked.coalesce (Marked.flatMap fun d _ => ?_)
  exact Marked.append (.of_aside (by simp [Op.creates])) (.counters _)

variable {ord : Nat} {src : From} {row : Option Row} {α : Type} {t : State} {ops : List Op}

theorem marked_release : Marked (BatchOp.toOps (release ord row src)) := by
  unfold release
  split
  · rw [toOps_releaseOp]
    exact .nil
  · rw [toOps_releaseOp]
    exact .nil
  · rw [toOps_releaseOp]
    exact .nil
  · exact .nil

/-- A row does not leave from a marker. -/
def Unmarked : From → Prop
  | .inflight => True
  | .due key _ | .member key => ∀ b o, key ≠ .active b o

theorem Pick.unmarked (p : Pick) : Unmarked p.src := by
  cases p <;> exact nofun

theorem unmarked_inflight : Unmarked .inflight := trivial

variable {seq sink : Nat}

theorem marked_leave (h : Unmarked src) : Marked (leave ord seq sink src).1 := by
  refine .of_aside fun op hop => ?_
  cases src with
  | inflight =>
    obtain rfl := mem_singleton.1 hop
    exact ⟨nofun, nofun⟩
  | due | member =>
    obtain rfl := mem_singleton.1 hop
    exact ⟨h, fun _ _ _ _ _ => rfl⟩

theorem marked_dead (h : Unmarked src) {row : Row} {time : Ms}
    {error : String} {class? : Option ErrorClass} {owner : String × Option String} :
    Marked (BatchOp.toOps (deadOps src ord seq sink row time error class? owner)) := by
  unfold deadOps
  rw [toOps_append, toOps_ofOps]
  refine Marked.append
    (((Marked.append (.of_aside ?_) (marked_leave h)).append (.of_aside ?_)).append
    (.counters _)) marked_release
  all_goals simp

theorem marked_orphan (h : Unmarked src) {size : Nat} :
    Marked (BatchOp.toOps (orphanOps src ord seq sink size row)) := by
  unfold orphanOps
  rw [toOps_append, toOps_ofOps]
  refine Marked.append ((Marked.append (.of_aside ?_) (marked_leave h)).append (.counters _))
    marked_release
  simp

/-- What becomes of a claimed row. -/
theorem Result.marked (r : Result) : Marked (BatchOp.toOps r.ops) := by
  cases r with
  | delivered =>
    simp only [Result.ops, deliveredOps, toOps_append, toOps_ofOps, toOps_releaseOp, append_nil]
    exact Marked.append (.of_aside (by simp)) (.counters _)
  | retry =>
    simp only [Result.ops, retryOps, toOps_ofOps]
    exact (Marked.append (.of_aside (by simp)) .dueOps).append (.counters _)
  | dead j time error class? owner => exact marked_dead unmarked_inflight
  | orphan => exact marked_orphan unmarked_inflight
  | expand =>
    simp only [Result.ops, expandOps, toOps_append, toOps_ofOps]
    refine Marked.append
      (Marked.append (Marked.flatMap fun p _ => Marked.newOps) (marked_orphan unmarked_inflight)) ?_
    split_ifs
    · exact .of_aside (by simp)
    · exact .nil

theorem toOps_flatMap (f : α → List BatchOp) (xs : List α) :
    BatchOp.toOps (xs.flatMap f) = xs.flatMap fun x => BatchOp.toOps (f x) := by
  induction xs with
  | nil => rfl
  | cons x xs ih => rw [flatMap_cons, toOps_append, ih, flatMap_cons]

theorem marked_buildOps {xs : List α} {f : α → List BatchOp}
    (h : ∀ x ∈ xs, Marked (BatchOp.toOps (f x))) (s : Store) (time : Ms) (durable : Nat) :
    Marked (buildOps s time durable (xs.flatMap f)) := by
  refine (Marked.expand ?_ s time durable).coalesce
  rw [toOps_flatMap]
  exact Marked.flatMap h

theorem Pick.marked (s : Store) (time : Ms) (error : String)
    (p : Pick × Option (String × Option String)) :
    Marked (BatchOp.toOps (Pick.ops s time error p)) := by
  unfold Pick.ops
  split
  · split
    · exact marked_dead p.1.unmarked
    · exact marked_orphan p.1.unmarked
  · exact .nil

theorem marked_sweep (s : Store) (ord : Nat) (lanes : List Lane) (time : Ms) (durable : Nat) :
    Marked (sweepOps s ord lanes time durable) := Marked.flatMap fun _ _ => Marked.triage

theorem marked_laneMarkers (ord : Nat) (lanes : List Lane) :
    Marked (deleteMarkers ord lanes) ∧ Marked (putMarkers ord lanes) := by
  constructor
  all_goals exact .of_aside (forall_mem_map.2 fun _ _ => ⟨nofun, nofun⟩)

theorem marked_recover (s : Store) (now : Ms) : Marked (recoverInflight s now) := by
  refine Marked.coalesce (Marked.flatMap fun e _ => ?_)
  split
  · refine Marked.append (a := [_]) (.of_aside ?_) (Marked.append .dueOps (.counters _))
    simp
  · exact .nil

theorem marked_purgeRow (key : Key) (hkey : ∀ b o, key ≠ .active b o)
    {deltas : List Counters.Delta} : Marked (purgeRow key seq sink deltas) := by
  refine Marked.append (.of_aside (forall_mem_cons.2 ⟨⟨hkey, fun _ _ _ _ _ => rfl⟩, ?_⟩))
    (.counters _)
  simp

theorem marked_headOps {s : Store} {pairs : List (Nat × Nat)} : Marked (headOps s ord pairs) := by
  refine Marked.flatMap fun p _ => ?_
  split
  · split
    · exact .vacateOps
    · exact .nil
  · exact .nil

theorem marked_purges (s : Store) (ord : Nat) (rows : List Due) (claimed : List Claimed)
    (members : List Member) : Marked (purgeDue s ord rows) ∧ Marked (purgeInflight s ord claimed) ∧
      Marked (purgeMembers ord members) := by
  refine ⟨(marked_headOps.append (Marked.flatMap fun d _ => ?_)).coalesce,
    (marked_headOps.append (Marked.flatMap fun c _ => ?_)).coalesce,
    (Marked.flatMap fun m _ => ?_).coalesce⟩
  · exact marked_purgeRow (.due d.ord d.time d.seq d.sink) nofun
  · exact marked_purgeRow (.inflight ord c.seq c.sink) nofun
  · exact marked_purgeRow (.laneMember ord m.lane m.seq m.sink) nofun

/-! ## The steps -/

/-- The batches that wait to be written. -/
def After.batches : After → List (List Op)
  | .settle _ _ ops | .settled ops => [ops]
  | _ => []

/-- The batches the Pipeline has still to write. -/
def Doing.batches : Doing → List (List Op)
  | .writing ops next => ops :: next.batches
  | .verifying _ _ ops => [ops]
  | _ => []

/-- Everything the Pipeline is about to write is marked. -/
def Planned (s : State) : Prop := ∀ ops ∈ s.doing.batches, Marked ops

variable {s : State}

/-- Nothing is written. -/
theorem planned_of_store (hstore : t.store = s.store) (h : Planned t) :
    Planned t ∧ ∃ ops, Marked ops ∧ t.store = s.store.write ops := ⟨h, [], .nil, hstore⟩

theorem planned_idle (h : s.doing.batches = []) : Planned s := by
  intro ops hops
  rw [h] at hops
  cases hops

variable {next : After}

theorem planned_writing (hdoing : s.doing = .writing ops next)
    (h : Marked ops) (hnext : ∀ b ∈ next.batches, Marked b) : Planned s := by
  intro b hb
  rw [hdoing] at hb
  exact forall_mem_cons.2 ⟨h, hnext⟩ b hb

theorem no_batches : ∀ b ∈ ([] : List (List Op)), Marked b := forall_mem_nil _

theorem State.written_marked (hdoing : s.doing = .writing ops next)
    (h : Planned s) : Planned (s.written ops next) ∧ ∃ b, Marked b ∧
    (s.written ops next).store = s.store.write b := by
  have hops : Marked ops := h ops (by rw [hdoing]; exact mem_cons_self)
  have hnext : ∀ b ∈ next.batches, Marked b :=
    fun b hb => h b (by rw [hdoing]; exact mem_cons_of_mem _ hb)
  cases next with
  | nothing | claimed | flushed | markers | lettered | recovered =>
    exact ⟨planned_idle rfl, ops, hops, rfl⟩
  | settle => exact ⟨hnext, ops, hops, rfl⟩
  | settled rest =>
    have hrest : Marked rest := hnext rest (mem_singleton.2 rfl)
    exact ⟨planned_writing rfl hrest.coalesce no_batches, ops, hops, rfl⟩

theorem State.failed_marked :
    Planned (s.failed next) ∧ ∃ b, Marked b ∧ (s.failed next).store = s.store.write b := by
  cases next <;> exact ⟨planned_idle rfl, [], .nil, rfl⟩

/-- **Every step writes a marked batch**, if it writes at all, and plans only such batches. -/
theorem step_marked {e : Event} (h : Planned s) (hstep : step s e = some t) :
    Planned t ∧ ∃ ops, Marked ops ∧ t.store = s.store.write ops := by
  cases e with
  | commit hooks =>
    obtain ⟨-, rfl⟩ := guarded hstep
    exact ⟨h, _, Marked.coalesce (marked_commit s.nextSeq hooks), rfl⟩
  | revive hits now replay class? =>
    obtain ⟨-, rfl⟩ := guarded hstep
    exact ⟨h, _, marked_revive s.store hits now replay class?, rfl⟩
  | candidates | evict =>
    obtain ⟨-, rfl⟩ := guarded hstep
    exact planned_of_store rfl h
  | evicted i ok =>
    obtain ⟨rows, -, rfl⟩ := Option.map_eq_some_iff.1 hstep
    cases ok with
    | false => exact planned_of_store rfl h
    | true => exact ⟨h, _, marked_evict rows, rfl⟩
  | purgeDead hits =>
    obtain ⟨-, rfl⟩ := guarded hstep
    exact ⟨h, _, marked_purgeDead s.store hits, rfl⟩
  | damage seq sink bin =>
    obtain ⟨-, rfl⟩ := guarded hstep
    exact ⟨h, [.put (.delivery seq sink) (.raw bin)], .of_aside (by simp), rfl⟩
  | claim =>
    obtain ⟨-, rfl⟩ := guarded hstep
    exact planned_of_store rfl (planned_writing rfl (marked_claim _) no_batches)
  | outcome =>
    obtain ⟨-, rfl⟩ := guarded hstep
    exact planned_of_store rfl h
  | flush time durable =>
    obtain ⟨-, rfl⟩ := guarded hstep
    refine planned_of_store rfl (planned_writing rfl ?_ no_batches)
    exact marked_buildOps (fun r _ => r.marked) s.store time durable
  | again i time durable =>
    simp only [step] at hstep
    split_ifs at hstep
    split at hstep
    next hget =>
      cases hstep
      refine planned_of_store rfl (planned_writing rfl ?_ no_batches)
      exact marked_buildOps (fun r _ => r.marked) s.store time durable
    · cases hstep
  | sweep ord lanes time durable =>
    simp only [step] at hstep
    split_ifs at hstep
    · cases hstep
      exact planned_of_store
        rfl (planned_writing rfl (Marked.coalesce (marked_sweep s.store ord lanes time durable))
          no_batches)
    · cases hstep
      exact planned_of_store rfl (planned_writing rfl (marked_laneMarkers ord _).1
        (forall_mem_singleton.2 (marked_sweep s.store ord lanes time durable)))
  | verify =>
    simp only [step] at hstep
    split at hstep
    next ord lanes ops hdoing =>
      cases hstep
      exact planned_of_store rfl (planned_writing rfl (marked_laneMarkers ord _).2
        (forall_mem_singleton.2 (h _ (by rw [hdoing]; exact mem_singleton.2 rfl))))
    · cases hstep
  | deadLetterSource =>
    obtain ⟨-, rfl⟩ := guarded hstep
    exact planned_of_store rfl (planned_idle rfl)
  | deadLetter picks time error durable =>
    simp only [step] at hstep
    split at hstep
    · obtain ⟨-, rfl⟩ := guarded hstep
      refine planned_of_store rfl (planned_writing rfl ?_ no_batches)
      exact marked_buildOps (fun p _ => Pick.marked s.store time error p) s.store time durable
    · cases hstep
  | lettered =>
    simp only [step] at hstep
    split at hstep
    · cases hstep
      exact planned_of_store rfl (planned_idle rfl)
    · cases hstep
  | recover now =>
    obtain ⟨-, rfl⟩ := guarded hstep
    exact planned_of_store rfl (planned_writing rfl (marked_recover s.store now) no_batches)
  | purgeDue ord rows =>
    obtain ⟨-, rfl⟩ := guarded hstep
    exact planned_of_store
      rfl (planned_writing rfl (marked_purges s.store ord rows [] []).1 no_batches)
  | purgeInflight ord rows =>
    obtain ⟨-, rfl⟩ := guarded hstep
    exact planned_of_store
      rfl (planned_writing rfl (marked_purges s.store ord [] rows []).2.1 no_batches)
  | purgeMembers ord rows =>
    obtain ⟨-, rfl⟩ := guarded hstep
    exact planned_of_store
      rfl (planned_writing rfl (marked_purges s.store ord [] [] rows).2.2 no_batches)
  | purgeMarkers =>
    obtain ⟨-, rfl⟩ := guarded hstep
    exact planned_of_store rfl (planned_idle rfl)
  | markers lanes =>
    simp only [step] at hstep
    split at hstep
    next ord hdoing =>
      split_ifs at hstep
      · cases hstep
        exact planned_of_store rfl (planned_idle rfl)
      · cases hstep
        exact planned_of_store rfl (planned_writing rfl (marked_laneMarkers ord lanes).1 no_batches)
    · cases hstep
  | write =>
    simp only [step] at hstep
    split at hstep
    next hdoing =>
      cases hstep
      split_ifs
      · exact State.written_marked hdoing h
      · exact State.failed_marked
    · cases hstep
  | restart =>
    cases hstep
    exact planned_of_store rfl (planned_idle rfl)

end Delivery

end Ankusa
