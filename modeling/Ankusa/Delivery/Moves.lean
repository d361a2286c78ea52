import Ankusa.Delivery.Index
import Ankusa.Delivery.Pipeline

set_option autoImplicit false

/-! # What every batch does to the index

For every batch that the Pipeline, the writer or a replay job builds, the moves of rows and lane
heads that it makes, and the theorem that it makes them. The moves are computed from what the batch
is built from, so that the invariants of the index can be stated about a batch that is built but not
yet written.

A store may hold hooks imported from an earlier version. `tracked T` is the index without the rows
of the hooks outside `T`; nothing is said about those. -/

namespace Ankusa.Delivery

open Deliveries KV List Lanes

/-- Moves of rows and lane heads. -/
abbrev Moves := List (Move Cell Slot Obs)

/-! ## Part of the hooks -/

/-- Whether the cell is a row of a tracked hook, or a lane head. -/
def tracks (T : Nat → Bool) : Cell → Bool
  | .row q _ => T q
  | .head _ _ => true

/-- The layout of the tracked cells. -/
def tracked (T : Nat → Bool) : Layout Key Val Cell Slot Obs := index.restrict (tracks T)

/-- The moves of tracked cells. -/
def track (T : Nat → Bool) (ms : Moves) : Moves := ms.filter fun m => tracks T m.cell

@[simp] theorem track_nil (T : Nat → Bool) : track T [] = [] := rfl

@[simp] theorem track_append (T : Nat → Bool) (ms ms' : Moves) :
    track T (ms ++ ms') = track T ms ++ track T ms' := filter_append ..

variable {α : Type} {m : Move Cell Slot Obs} {seq : Nat} {hooks : List (List New)}

theorem track_flatMap (T : Nat → Bool) (xs : List α) (f : α → Moves) :
    track T (xs.flatMap f) = xs.flatMap fun x => track T (f x) := by
  induction xs with
  | nil => rfl
  | cons x xs ih => rw [flatMap_cons, track_append, ih, flatMap_cons]

variable {T : Nat → Bool} {ms : Moves} {xs : List α}

theorem mem_track : m ∈ track T ms ↔ m ∈ ms ∧ tracks T m.cell = true := mem_filter

theorem map_cell_track (T : Nat → Bool) (ms : Moves) :
    (track T ms).map Move.cell = (ms.map Move.cell).filter (tracks T) := by
  rw [filter_map]
  rfl

@[simp] theorem track_all (ms : Moves) : track (fun _ => true) ms = ms := by
  refine filter_eq_self.2 fun m _ => ?_
  cases m.cell <;> rfl

section Does

variable {ops : List Op}

theorem does_tracked (h : index.Does ops ms) : (tracked T).Does ops (track T ms) := h.restrict _

theorem does_tracked_coalesce (h : (tracked T).Does ops ms) :
    (tracked T).Does (coalesce ops) ms := by
  refine h.congr (fun s k hk => get_write_coalesce s ?_ ops)
    (within_coalesce (fun _ => .inr) fun _ _ _ => .inl rfl)
  cases k <;> simp_all [tracked, Layout.restrict, index, cellOf, kept]

theorem does_tracked_none (h : ∀ op ∈ ops, cellOf op.key = none) : (tracked T).Does ops [] :=
  does_tracked (does_none h)

theorem does_untracked {q : Nat} (hq : T q = false)
    (h : ∀ op ∈ ops, ∀ c, cellOf op.key = some c → ∃ i, c = .row q i) :
    (tracked T).Does ops [] := by
  refine Layout.Does.of_none fun op hop => ?_
  cases hc : cellOf op.key with
  | none => simp [tracked, Layout.restrict, index, hc]
  | some c =>
    obtain ⟨i, rfl⟩ := h op hop c hc
    simp [tracked, Layout.restrict, index, hc, tracks, hq, Option.filter]

theorem does_batch {ops : α → List Op} {ms : α → Moves}
    (h : ∀ x ∈ xs, (tracked T).Does (ops x) (track T (ms x)))
    (hnodup : ((track T (xs.flatMap ms)).map Move.cell).Nodup) :
    (tracked T).Does (xs.flatMap ops) (track T (xs.flatMap ms)) := by
  rw [track_flatMap] at hnodup ⊢
  exact Layout.Does.flatMap h hnodup

end Does

/-! ## New rows -/

/-- Where a new row is put. -/
def New.place (n : New) : Place :=
  match n.lane with
  | none => .due n.ord n.time n.size .firstAttempt
  | some (lane, _) => .member n.ord lane n.size

/-- A new row is put in its place. -/
def New.move (seq : Nat) (n : New) : Move Cell Slot Obs :=
  rowMove seq n.sink none (some (.row n.row)) (some n.place)

/-- The moves of a commit; the hooks are numbered from `seq` on. -/
def commitMoves (seq : Nat) : List (List New) → Moves
  | [] => []
  | hook :: hooks => hook.map (New.move seq) ++ commitMoves (seq + 1) hooks

theorem New.does (seq : Nat) (n : New) : index.Does (n.ops seq) [n.move seq] := by
  unfold New.ops New.move New.place
  rcases n.lane with _ | ⟨lane, key⟩
  · exact does_new ..
  · exact does_new_lane ..

theorem cell_commitMoves (h : m ∈ commitMoves seq hooks) :
    ∃ q n, seq ≤ q ∧ q < seq + hooks.length ∧ (∃ hook ∈ hooks, n ∈ hook) ∧ m = New.move q n := by
  induction hooks generalizing seq with
  | nil => cases h
  | cons hook hooks ih =>
    rcases mem_append.1 h with h | h
    · obtain ⟨n, hn, rfl⟩ := mem_map.1 h
      exact ⟨seq, n, le_refl _, by simp, ⟨hook, mem_cons_self, hn⟩, rfl⟩
    · obtain ⟨q, n, hle, hlt, ⟨hook', hhook', hn⟩, rfl⟩ := ih h
      rw [length_cons]
      exact ⟨q, n, by omega, by omega, ⟨hook', mem_cons_of_mem _ hhook', hn⟩, rfl⟩

theorem does_commit (hok : hooks.all hookOk = true) :
    index.Does (commitOps seq hooks) (commitMoves seq hooks) := by
  induction hooks generalizing seq with
  | nil => exact .nil
  | cons hook hooks ih =>
    rw [all_cons, Bool.and_eq_true] at hok
    have hsinks : (hook.map New.sink).Nodup := by
      simp only [hookOk, Bool.and_eq_true, decide_eq_true_eq] at hok
      exact hok.1.1
    have hhook : index.Does (hook.flatMap (New.ops seq)) (hook.flatMap fun n => [n.move seq]) := by
      refine Layout.Does.flatMap (fun n _ => n.does seq) ?_
      rw [← map_eq_flatMap, map_map]
      have hcells : hook.map (Move.cell ∘ New.move seq) =
          (hook.map New.sink).map (Cell.row seq) := by
        rw [map_map]
        rfl
      rw [hcells]
      exact hsinks.map fun a b hab => (Cell.row.inj hab).2
    rw [← map_eq_flatMap] at hhook
    refine hhook.append (ih hok.2) fun c hc hc' => ?_
    obtain ⟨m, hm, rfl⟩ := mem_map.1 hc
    obtain ⟨n, -, rfl⟩ := mem_map.1 hm
    obtain ⟨m', hm', hcell⟩ := mem_map.1 hc'
    obtain ⟨q, n', hle, -, -, rfl⟩ := cell_commitMoves hm'
    have hq : q = seq := (Cell.row.inj hcell).1
    omega

/-! ## The DLQ -/

/-- Where a dead row of a page is. -/
def deadPlace (s : Store) (h : Hit) : Place :=
  match s.get (.dead h.time h.seq h.sink) with
  | some (.owner source id _) => .dead h.ord h.time source id
  | _ => .dead h.ord h.time "" none

theorem deadPlace_eq (s : Store) (h : Hit) :
    ∃ source id, deadPlace s h = .dead h.ord h.time source id := by
  unfold deadPlace
  split
  all_goals exact ⟨_, _, rfl⟩

/-- A dead row is deleted. -/
def hitGone (s : Store) (h : Hit) : Move Cell Slot Obs :=
  rowMove h.seq h.sink (some (deadPlace s h)) none none

/-- A dead row is made due again, or a member of its lane. -/
def hitRevive (s : Store) (now : Ms) (replay : String) (class? : Option ErrorClass) (h : Hit) :
    Moves :=
  match s.get (.delivery h.seq h.sink) with
  | some (.row row) =>
    if class? = none ∨ row.errorClass = class? then
      [rowMove h.seq h.sink (some (deadPlace s h)) (some (.row (revived row now replay)))
        (some (requeued h.ord now row.size (revived row now replay)))]
    else []
  | _ => []

theorem does_hitEvict (s : Store) (n : Nat) (h : Hit) :
    index.Does (evictRow n h) [hitGone s h] := by
  obtain ⟨source, id, hp⟩ := deadPlace_eq s h
  rw [hitGone, hp]
  exact does_evict ..

theorem does_hitPurge (s : Store) (h : Hit) : index.Does (purgeDeadRow s h) [hitGone s h] := by
  obtain ⟨source, id, hp⟩ := deadPlace_eq s h
  rw [hitGone, hp]
  exact does_purgeDead ..

/-- A dead row of the page has its delivery row, or is left out. -/
theorem does_hitRevive (s : Store) (now : Ms) (replay : String)
    (class? : Option ErrorClass) (h : Hit)
    (hrow : T h.seq = true → s.get (.delivery h.seq h.sink) ≠ none) :
    (tracked T).Does (reviveRow s now replay class? h)
    (track T (hitRevive s now replay class? h)) := by
  unfold reviveRow hitRevive
  cases hget : s.get (.delivery h.seq h.sink) with
  | none =>
    have hT : T h.seq = false := Bool.eq_false_iff.2 fun hT => hrow hT hget
    refine does_untracked hT fun op hop c hc => ?_
    rcases mem_append.1 hop with hop | hop
    · rcases mem_pair.1 hop with rfl | rfl
      all_goals exact ⟨_, (Option.some.inj hc).symm⟩
    · obtain ⟨o, f, d, rfl⟩ := Counters.mem_ops hop
      cases hc
  | some v =>
    cases v with
    | row row =>
      dsimp only
      by_cases hclass : class? = none ∨ row.errorClass = class?
      · rw [if_pos hclass, if_pos hclass]
        obtain ⟨source, id, hp⟩ := deadPlace_eq s h
        rw [hp]
        exact does_tracked (does_revive ..)
      · rw [if_neg hclass, if_neg hclass]
        exact .nil
    | _ => exact .nil

/-! ## Claims -/

/-- A due row is claimed. -/
def claimMove (d : Due) : Move Cell Slot Obs :=
  rowMove d.seq d.sink (some (.due d.ord d.time d.size d.kind)) none (some (.inflight d.ord d.size))

theorem does_claims {dues : List Due}
    (hnodup : ((track T (dues.map claimMove)).map Move.cell).Nodup) :
    (tracked T).Does (claim dues) (track T (dues.map claimMove)) := by
  have hmoves : dues.map claimMove = dues.flatMap fun d => [claimMove d] := map_eq_flatMap
  rw [hmoves] at hnodup ⊢
  exact does_tracked_coalesce (does_batch (fun d _ => does_tracked (does_claim ..)) hnodup)

/-- A claimed row found by the scan of a restart. -/
def backMoves (s : Store) (now : Ms) (e : Sigma fun _ : Key => Val) : Moves :=
  match e.1, e.2 with
  | .inflight ord seq sink, .size size =>
    [rowMove seq sink (some (.inflight ord size)) none
      (some (.due ord now size (recoverKind s seq sink)))]
  | _, _ => []

/-- After a restart every row in flight is due again. -/
def recoverMoves (s : Store) (now : Ms) : Moves := s.entries.flatMap (backMoves s now)

theorem does_recoverInflight {s : Store} {now : Ms}
    (hnodup : ((track T (recoverMoves s now)).map Move.cell).Nodup) :
    (tracked T).Does (recoverInflight s now) (track T (recoverMoves s now)) := by
  refine does_tracked_coalesce (does_batch (fun e _ => ?_) hnodup)
  obtain ⟨k, v⟩ := e
  cases k with
  | inflight =>
    cases v with
    | size => exact does_tracked (does_recover ..)
    | _ => exact .nil
  | _ => exact .nil

/-! ## Lanes -/

/-- A member becomes the head of its lane and is due. -/
def promoteMoves (o : Nat) (l : Lane) (q i n : Nat) (t : Ms) (src : Option (Nat × Nat)) : Moves :=
  [rowMove q i (some (.member o l n)) none (some (.due o t n .laneFirst)),
    headMove o l src (some (q, i))]

/-- The head of a lane passes from `src` to a member, or goes. -/
def handMoves (o : Nat) (l : Lane) (t : Ms) (src : Option (Nat × Nat)) :
    Option (Nat × Nat × Nat) → Moves
  | some (q, i, n) => promoteMoves o l q i n t src
  | none => [headMove o l src none]

/-- The member a release promotes: the first, once its group is durable. -/
def nextHead (s : Store) (o : Nat) (l : Lane) (durable : Nat) : Option (Nat × Nat × Nat) :=
  (firstMember s o l).filter fun m => decide (m.1 ≤ durable)

/-- A release makes the next head of the lane its head, or else the lane is vacated. -/
theorem release_rule {s : Store} {o : Nat} {l : Lane} {t : Ms} {durable : Nat}
    {P : List Op → Option (Nat × Nat × Nat) → Prop}
    (hpromote : ∀ q i n, nextHead s o l durable = some (q, i, n) →
      P (promoteOps o l q i n t true) (some (q, i, n)))
    (hvacate : P (vacateOps o l) none)
    (hmarker : P (vacateOps o l ++ [.put (.laneMarker o l) .empty]) none) :
    P (releaseOps s o l t durable) (nextHead s o l durable) := by
  unfold nextHead at *
  unfold releaseOps
  cases hfirst : firstMember s o l with
  | none => exact hvacate
  | some m =>
    dsimp only
    rw [hfirst] at hpromote
    by_cases hq : m.1 ≤ durable
    · rw [Option.filter_some_pos (by simpa using hq)] at hpromote ⊢
      rw [if_pos hq]
      exact hpromote _ _ _ rfl
    · rw [Option.filter_some_neg (by simpa using hq), if_neg hq]
      exact hmarker

theorem does_release (s : Store) (o : Nat) (l : Lane) (t : Ms) (durable : Nat)
    (src : Option (Nat × Nat)) :
    index.Does (releaseOps s o l t durable) (handMoves o l t src (nextHead s o l durable)) := by
  exact release_rule (P := fun ops m => index.Does ops (handMoves o l t src m))
    (fun _ _ _ _ => does_promote ..)
    (does_vacate ..) (Does.append_none (does_vacate ..) (does_none (forall_mem_singleton.2 rfl)))

/-- A lane whose head is not a live row. -/
def stale (s : Store) (r : Nat × Nat) : Bool :=
  match s.get (.delivery r.1 r.2) with
  | some (.row row) => decide (row.state = .dead)
  | some _ => false
  | none => true

/-- What the sweep moves in one lane. -/
def triageMoves (s : Store) (o : Nat) (l : Lane) (t : Ms) (durable : Nat) : Moves :=
  match Lanes.head s o l with
  | some r => if stale s r then handMoves o l t (some r) (nextHead s o l durable) else []
  | none =>
    match nextHead s o l durable with
    | some m => handMoves o l t none (some m)
    | none => []

/-- The sweep releases a lane with a stale head, fills a vacant one, or has at most its marker to
    clear. -/
theorem triage_rule {s : Store} {o : Nat} {l : Lane} {t : Ms} {durable : Nat}
    {P : List Op → Moves → Prop} (hrelease : ∀ r, Lanes.head s o l = some r →
      P (releaseOps s o l t durable) (handMoves o l t (some r) (nextHead s o l durable)))
    (hpromote : ∀ q i n, Lanes.head s o l = none → nextHead s o l durable = some (q, i, n) →
      P (promoteOps o l q i n t false) (promoteMoves o l q i n t none))
    (hmarker : P [.delete (.laneMarker o l)] []) (hnil : P [] []) :
    P (Lanes.triage s o l t durable) (triageMoves s o l t durable) := by
  unfold Lanes.triage triageMoves
  cases hhead : Lanes.head s o l with
  | some r =>
    unfold stale
    dsimp only
    cases s.get (.delivery r.1 r.2) with
    | none => exact hrelease r hhead
    | some v =>
      cases v with
      | row row =>
        dsimp only
        by_cases hdead : row.state = .dead
        · rw [if_pos hdead, if_pos (by simpa using hdead)]
          exact hrelease r hhead
        · rw [if_neg hdead, if_neg (by simpa using hdead)]
          exact hmarker
      | _ => exact hmarker
  | none =>
    unfold nextHead at *
    cases hfirst : firstMember s o l with
    | none => exact hmarker
    | some m =>
      dsimp only
      rw [hfirst] at hpromote
      by_cases hq : m.1 ≤ durable
      · rw [Option.filter_some_pos (by simpa using hq)] at hpromote ⊢
        rw [if_pos hq]
        exact hpromote _ _ _ hhead rfl
      · rw [Option.filter_some_neg (by simpa using hq), if_neg hq]
        exact hnil

theorem does_triage (s : Store) (o : Nat) (l : Lane) (t : Ms) (durable : Nat) :
    index.Does (Lanes.triage s o l t durable) (triageMoves s o l t durable) := by
  exact triage_rule (fun _ _ => does_release ..) (fun _ _ _ _ _ => does_promote ..)
    (does_none (forall_mem_singleton.2 rfl)) .nil

/-- The moves of a lane sweep. -/
def sweepMoves (s : Store) (o : Nat) (lanes : List Lane) (t : Ms) (durable : Nat) : Moves :=
  (lanes.filter fun l => l ∉ emptyLanes s o lanes).flatMap fun l => triageMoves s o l t durable

variable {t : Ms} {durable o : Nat}

theorem does_sweep {s : Store} {lanes : List Lane}
    (hnodup : ((track T (sweepMoves s o lanes t durable)).map Move.cell).Nodup) :
    (tracked T).Does (sweepOps s o lanes t durable) (track T (sweepMoves s o lanes t durable)) :=
  does_batch (fun _ _ => does_tracked (does_triage ..)) hnodup

/-! ## Outcomes -/

/-- One placeholder, resolved. -/
def expandOne (s : Store) (t : Ms) (durable : Nat) : BatchOp → List Op
  | .op op => [op]
  | .laneRelease o l => releaseOps s o l t durable

/-- The lanes a batch releases. -/
def releases : List BatchOp → List (Nat × Lane)
  | [] => []
  | .op _ :: ops => releases ops
  | .laneRelease o l :: ops => (o, l) :: releases ops

@[simp] theorem releases_append (ops ops' : List BatchOp) :
    releases (ops ++ ops') = releases ops ++ releases ops' := by
  fun_induction releases ops with
  | case1 => rfl
  | case2 op ops ih => exact ih
  | case3 o l ops ih => simpa [releases] using ih

theorem releases_flatMap (xs : List α) (f : α → List BatchOp) :
    releases (xs.flatMap f) = xs.flatMap fun x => releases (f x) := by
  induction xs with
  | nil => rfl
  | cons x xs ih => rw [flatMap_cons, releases_append, ih, flatMap_cons]

@[simp] theorem releases_ofOps (ops : List Op) : releases (BatchOp.ofOps ops) = [] := by
  induction ops with
  | nil => rfl
  | cons op ops ih => exact ih

@[simp] theorem flatMap_ofOps (s : Store) (t : Ms) (durable : Nat) (ops : List Op) :
    (BatchOp.ofOps ops).flatMap (expandOne s t durable) = ops := by
  induction ops with
  | nil => rfl
  | cons op ops ih => exact congrArg (op :: ·) ih

/-- A batch that releases no lane twice has each placeholder replaced where it stands. -/
theorem expand_eq_flatMap (s : Store) (t : Ms) (durable : Nat) (seen : List (Nat × Lane))
    (ops : List BatchOp) (hnodup : (releases ops).Nodup) (hseen : ∀ x ∈ releases ops, x ∉ seen) :
    Lanes.expand s t durable seen ops = ops.flatMap (expandOne s t durable) := by
  fun_induction Lanes.expand s t durable seen ops with
  | case1 => rfl
  | case2 seen op ops ih => rw [flatMap_cons, ih hnodup hseen]; rfl
  | case3 seen o l ops hmem => exact absurd hmem (hseen _ mem_cons_self)
  | case4 seen o l ops hmem ih =>
    obtain ⟨hl, hrest⟩ := nodup_cons.1 hnodup
    rw [flatMap_cons, ih hrest]
    · rfl
    · intro x hx
      rw [mem_cons, not_or]
      exact ⟨fun he => hl (he ▸ hx), hseen x (mem_cons_of_mem _ hx)⟩

/-- The lane of a row, passed on when the row leaves. -/
def passOn (s : Store) (o : Nat) (row : Option Row) (r : Nat × Nat) (t : Ms) (durable : Nat) :
    Moves :=
  match row.bind Row.lane with
  | some (l, _) => handMoves o l t (some r) (nextHead s o l durable)
  | none => []

theorem does_passOn (s : Store) (o : Nat) (row : Option Row) (r : Nat × Nat) (t : Ms)
    (durable : Nat) :
    index.Does ((releaseOp o row).flatMap (expandOne s t durable))
    (passOn s o row r t durable) := by
  unfold releaseOp passOn
  rcases row.bind Row.lane with _ | ⟨l, key⟩
  · exact .nil
  · rw [flatMap_singleton]
    exact does_release ..

/-- The lane of a row that stays its head. -/
def stayOn (o : Nat) (row : Row) (r : Nat × Nat) : Moves :=
  match row.lane with
  | some (l, _) => [headMove o l (some r) (some r)]
  | none => []

theorem does_stayOn {row : Row} {r : Nat × Nat} {ops : List Op}
    (h : (tracked T).Does ops (track T ms))
    (hnodup : ((track T (ms ++ stayOn o row r)).map Move.cell).Nodup) :
    (tracked T).Does ops (track T (ms ++ stayOn o row r)) := by
  revert hnodup
  unfold stayOn
  rcases row.lane with _ | ⟨l, key⟩
  · intro hnodup
    rw [append_nil]
    exact h
  intro hnodup
  rw [track_append, map_append] at hnodup
  rw [track_append]
  refine Layout.Does.keep h (fun hmem => ?_) fun e he => ?_
  · exact (nodup_append.1 hnodup).2.2 _ hmem _ (mem_singleton_self _) rfl
  · have he : obs e = .head r.1 r.2 := he
    exact (obs_eq_head.1 he).symm

/-- The row of a retry. -/
def retried (row : Row) (time : Ms) (error : String) : Row := { row with time, error := some error }

/-- The kind of the due key of a retry. -/
def retryKind (row : Row) : Kind := if row.lane.isSome then .laneRetry else .retry

/-- The row of a dead letter. -/
def buried (row : Row) (time : Ms) (error : String) (class? : Option ErrorClass) : Row :=
  { row with state := .dead, time, error := some error, errorClass := class? }

/-- The rows an imported row makes way for. -/
def freshMoves (ord seq size : Nat) (sourceId : String) (sinks : List String) (existing : List Nat)
    (now : Ms) : Moves :=
  (sinks.zipIdx.filter fun p => p.2 ∉ existing).map fun p =>
    rowMove seq p.2 none (some (.row (newRow p.1 now size sourceId none none)))
      (some (.due ord now size .firstAttempt))

/-- What an outcome does to its own row (and to the rows that take its place). -/
def Result.own : Result → Moves
  | .delivered j => [rowMove j.seq j.sink (some (.inflight j.ord j.size)) none none]
  | .retry j time error =>
    [rowMove j.seq j.sink (some (.inflight j.ord j.size)) (some (.row (retried j.row time error)))
      (some (.due j.ord time j.row.size (retryKind j.row)))]
  | .dead j time error class? owner =>
    [rowMove j.seq j.sink (some (.inflight j.ord j.size))
      (some (.row (buried j.row time error class?))) (some (.dead j.ord time owner.1 owner.2))]
  | .orphan ord seq sink size _ => [rowMove seq sink (some (.inflight ord size)) none none]
  | .expand ord seq sink size sourceId sinks existing now =>
    rowMove seq sink (some (.inflight ord size)) none none ::
      freshMoves ord seq size sourceId sinks existing now

/-- What it does to its lane: a retry keeps the head where it is. -/
def Result.lanes (s : Store) (t : Ms) (durable : Nat) : Result → Moves
  | .delivered j | .dead j _ _ _ _ => passOn s j.ord (some j.row) (j.seq, j.sink) t durable
  | .retry j _ _ => stayOn j.ord j.row (j.seq, j.sink)
  | .orphan ord seq sink _ row => passOn s ord row (seq, sink) t durable
  | .expand _ _ _ _ _ _ _ _ => []

/-- What a result moves: its own row, then its lane. -/
def Result.moves (s : Store) (t : Ms) (durable : Nat) (r : Result) : Moves :=
  r.own ++ r.lanes s t durable

variable {ms' : Moves}

theorem does_tracked_append {ops ops' : List Op}
    (h : (tracked T).Does ops (track T ms)) (h' : (tracked T).Does ops' (track T ms'))
    (hnodup : ((track T (ms ++ ms')).map Move.cell).Nodup) :
    (tracked T).Does (ops ++ ops') (track T (ms ++ ms')) := by
  rw [track_append] at hnodup ⊢
  rw [map_append, nodup_append] at hnodup
  exact h.append h' fun c hc hc' => hnodup.2.2 c hc c hc' rfl

theorem nodup_track_left
    (h : ((track T (ms ++ ms')).map Move.cell).Nodup) : ((track T ms).map Move.cell).Nodup := by
  rw [track_append, map_append] at h
  exact (nodup_append.1 h).1

theorem does_expand (ord seq sink size : Nat) (sourceId : String) (sinks : List String)
    (existing : List Nat) (now : Ms) (s : Store) (t : Ms) (durable : Nat)
    (hnodup : ((track T (Result.expand ord seq sink size sourceId sinks existing now).own).map
      Move.cell).Nodup) :
    (tracked T).Does
      ((expandOps ord seq sink size sourceId sinks existing now).flatMap (expandOne s t durable))
      (track T (Result.expand ord seq sink size sourceId sinks existing now).own) := by
  have hperm : ((track T (freshMoves ord seq size sourceId sinks existing now ++
      [rowMove seq sink (some (.inflight ord size)) none none]))).Perm
      (track T (Result.expand ord seq sink size sourceId sinks existing now).own) :=
    (perm_append_singleton _ _).filter _
  replace hnodup := (hperm.map Move.cell).nodup_iff.2 hnodup
  have hfresh : (tracked T).Does ((sinks.zipIdx.filter fun p => p.2 ∉ existing).flatMap fun p =>
      newOps ord now seq p.2 size (newRow p.1 now size sourceId none none) none)
      (track T (freshMoves ord seq size sourceId sinks existing now)) := by
    have hleft := nodup_track_left hnodup
    unfold freshMoves at hleft ⊢
    rw [map_eq_flatMap (f := fun p : String × Nat => rowMove seq p.2 none _ _)] at hleft ⊢
    exact does_batch (fun p _ => does_tracked (does_new ..)) hleft
  have hown : (tracked T).Does ((orphanOps .inflight ord seq sink size none).flatMap
      (expandOne s t durable))
          (track T [rowMove seq sink (some (.inflight ord size)) none none]) := by
    unfold orphanOps
    simp only [flatMap_append, flatMap_ofOps]
    exact (append_nil _).symm ▸ does_tracked (does_orphan seq sink rfl _)
  have hcleared : (tracked T).Does ((BatchOp.ofOps (if sinks = [] then
      [KV.Op.put (Key.cleared seq 0 sink) Val.empty] else [])).flatMap (expandOne s t durable))
          [] := by
    rw [flatMap_ofOps]
    split
    · exact does_tracked_none (forall_mem_singleton.2 rfl)
    · exact does_tracked_none (forall_mem_nil _)
  have hall := (does_tracked_append hfresh hown hnodup).append hcleared fun _ _ => not_mem_nil
  rw [append_nil] at hall
  unfold expandOps
  simp only [flatMap_append, flatMap_ofOps] at hall ⊢
  exact hall.perm hperm

/-- An outcome's operations, its placeholder resolved, make its moves. -/
theorem Result.does (s : Store) (t : Ms) (durable : Nat) (r : Result)
    (hnodup : ((track T (r.moves s t durable)).map Move.cell).Nodup) :
    (tracked T).Does (r.ops.flatMap (expandOne s t durable)) (track T (r.moves s t durable)) := by
  cases r with
  | delivered =>
    unfold Result.ops deliveredOps
    rw [flatMap_append, flatMap_ofOps]
    exact does_tracked_append (does_tracked (does_delivered ..))
      (does_tracked (does_passOn ..)) hnodup
  | retry =>
    refine does_stayOn ?_ hnodup
    unfold Result.ops retryOps
    rw [flatMap_ofOps]
    exact does_tracked (does_retry ..)
  | dead j time error class? owner =>
    unfold Result.ops deadOps
    rw [flatMap_append, flatMap_ofOps]
    refine does_tracked_append (does_tracked ?_) (does_tracked (does_passOn ..)) hnodup
    exact does_dead _ _ _ _ rfl (by simp) ..
  | orphan =>
    unfold Result.ops orphanOps
    rw [flatMap_append, flatMap_ofOps]
    refine does_tracked_append (does_tracked ?_) (does_tracked (does_passOn ..)) hnodup
    exact does_orphan _ _ rfl _
  | expand =>
    unfold Result.moves Result.lanes at hnodup ⊢
    rw [append_nil] at hnodup ⊢
    exact does_expand _ _ _ _ _ _ _ _ _ _ _ hnodup

theorem does_flush {s : Store} {rs : List Result} (hrel : (releases (rs.flatMap Result.ops)).Nodup)
    (hnodup : ((track T (rs.flatMap (Result.moves s t durable))).map Move.cell).Nodup) :
    (tracked T).Does (buildOps s t durable (rs.flatMap Result.ops))
      (track T (rs.flatMap (Result.moves s t durable))) := by
  unfold buildOps
  rw [expand_eq_flatMap s t durable [] _ hrel fun _ _ => not_mem_nil, flatMap_assoc]
  refine does_tracked_coalesce (does_batch (fun r hr => r.does s t durable ?_) hnodup)
  rw [track_flatMap, map_flatMap] at hnodup
  exact (nodup_flatMap.1 hnodup).1 r hr

/-! ## Rows of a deleted source -/

/-- Where the picked row is. -/
def Pick.place : Pick → Place
  | .due d => .due d.ord d.time d.size d.kind
  | .member ord m => .member ord m.lane m.size

/-- Only a due lane head passes its lane on. -/
def Pick.heads : Pick → Bool
  | .due d => headKind d.kind
  | .member _ _ => false

/-- The picked row is dead-lettered. -/
def Pick.own (s : Store) (t : Ms) (error : String) (p : Pick × Option (String × Option String)) :
    Moves :=
  match load s p.1.id.1 p.1.id.2 with
  | .row row =>
    match p.2 with
    | some owner =>
      [rowMove p.1.id.1 p.1.id.2 (some p.1.place)
        (some (.row (buried row t error (some .permanent))))
        (some (.dead p.1.ord t owner.1 owner.2))]
    | none => [rowMove p.1.id.1 p.1.id.2 (some p.1.place) none none]
  | _ => []

/-- The lane of a picked head is passed on. -/
def Pick.lanes (s : Store) (t : Ms) (durable : Nat) (p : Pick) : Moves :=
  match load s p.id.1 p.id.2 with
  | .row row => if p.heads then passOn s p.ord (some row) p.id t durable else []
  | _ => []

/-- What the dead-lettering of a picked row moves. -/
def Pick.moves (s : Store) (t : Ms) (error : String) (durable : Nat)
    (p : Pick × Option (String × Option String)) : Moves :=
  Pick.own s t error p ++ p.1.lanes s t durable

theorem Pick.contents (p : Pick) : ∃ k v, p.place.contents p.id.1 p.id.2 = [(k, v)] ∧
    (leave p.ord p.id.1 p.id.2 p.src).1 = [.delete k] := by
  cases p with
  | due | member => exact ⟨_, _, rfl, rfl⟩

theorem Pick.not_dead (p : Pick) (o : Nat) (t : Ms) (source : String) (id : Option String) :
    p.place ≠ .dead o t source id := by
  cases p <;> simp [Pick.place]

theorem Pick.release_eq (p : Pick) (row : Option Row) :
    release p.ord row p.src = if p.heads then releaseOp p.ord row else [] := by
  cases p with
  | due d =>
    obtain ⟨ord, time, seq, sink, size, kind⟩ := d
    cases kind <;> rfl
  | member => rfl

theorem Pick.does (s : Store) (t : Ms) (error : String) (durable : Nat)
    (p : Pick × Option (String × Option String))
    (hnodup : ((track T (Pick.moves s t error durable p)).map Move.cell).Nodup) :
    (tracked T).Does ((Pick.ops s t error p).flatMap (expandOne s t durable))
      (track T (Pick.moves s t error durable p)) := by
  obtain ⟨k, v, hcontents, hleave⟩ := p.1.contents
  have hlanes :
    ∀ row, (tracked T).Does ((release p.1.ord (some row) p.1.src).flatMap (expandOne s t durable))
      (track T (if p.1.heads then passOn s p.1.ord (some row) p.1.id t durable else [])) := by
    intro row
    rw [p.1.release_eq]
    by_cases hheads : p.1.heads = true
    · rw [if_pos hheads, if_pos hheads]
      exact does_tracked (does_passOn ..)
    · rw [if_neg hheads, if_neg hheads]
      exact .nil
  unfold Pick.moves Pick.own Pick.lanes at hnodup ⊢
  unfold Pick.ops
  cases hload : load s p.1.id.1 p.1.id.2 with
  | gone | damaged => exact .nil
  | row =>
    simp only [hload] at hnodup ⊢
    cases howner : p.2 with
    | some =>
      simp only [howner] at hnodup ⊢
      unfold deadOps
      rw [flatMap_append, flatMap_ofOps, hleave]
      refine does_tracked_append (does_tracked ?_) (hlanes _) hnodup
      exact does_dead _ _ _ _ hcontents p.1.not_dead ..
    | none =>
      simp only [howner] at hnodup ⊢
      unfold orphanOps
      rw [flatMap_append, flatMap_ofOps, hleave]
      exact does_tracked_append (does_tracked (does_orphan _ _ hcontents _)) (hlanes _) hnodup

theorem does_deadLetter {s : Store} {error : String}
    {ps : List (Pick × Option (String × Option String))}
    (hrel : (releases (ps.flatMap (Pick.ops s t error))).Nodup)
    (hnodup : ((track T (ps.flatMap (Pick.moves s t error durable))).map Move.cell).Nodup) :
    (tracked T).Does (buildOps s t durable (ps.flatMap (Pick.ops s t error)))
      (track T (ps.flatMap (Pick.moves s t error durable))) := by
  unfold buildOps
  rw [expand_eq_flatMap s t durable [] _ hrel fun _ _ => not_mem_nil, flatMap_assoc]
  refine does_tracked_coalesce (does_batch (fun p hp => Pick.does s t error durable p ?_) hnodup)
  rw [track_flatMap, map_flatMap] at hnodup
  exact (nodup_flatMap.1 hnodup).1 p hp

/-! ## Purges -/

/-- The lane heads among the rows about to be purged. -/
def headMoves (s : Store) (ord : Nat) (p : Nat × Nat) : Moves :=
  match s.get (.delivery p.1 p.2) with
  | some (.row row) =>
    match row.lane with
    | some (l, _) => [headMove ord l (some p) none]
    | none => []
  | _ => []

/-- The due rows that head a lane. -/
def dueHeads (rows : List Due) : List (Nat × Nat) :=
  (rows.filter fun d => headKind d.kind).map fun d => (d.seq, d.sink)

/-- The rows in flight. -/
def claimedPairs (rows : List Claimed) : List (Nat × Nat) := rows.map fun c => (c.seq, c.sink)

/-- A purge takes a due row away. -/
def duePurge (d : Due) : Move Cell Slot Obs :=
  rowMove d.seq d.sink (some (.due d.ord d.time d.size d.kind)) none none

/-- A purge takes a row in flight away. -/
def claimedPurge (ord : Nat) (c : Claimed) : Move Cell Slot Obs :=
  rowMove c.seq c.sink (some (.inflight ord c.size)) none none

/-- A purge takes a member away. -/
def memberPurge (ord : Nat) (m : Member) : Move Cell Slot Obs :=
  rowMove m.seq m.sink (some (.member ord m.lane m.size)) none none

/-- The moves of `purgeDue`. -/
def purgeDueMoves (s : Store) (ord : Nat) (rows : List Due) : Moves :=
  (dueHeads rows).flatMap (headMoves s ord) ++ rows.map duePurge

/-- The moves of `purgeInflight`. -/
def purgeInflightMoves (s : Store) (ord : Nat) (rows : List Claimed) : Moves :=
  (claimedPairs rows).flatMap (headMoves s ord) ++ rows.map (claimedPurge ord)

section Purge

variable {s : Store} {ord : Nat}

theorem does_heads {pairs : List (Nat × Nat)}
    (hnodup : ((track T (pairs.flatMap (headMoves s ord))).map Move.cell).Nodup) :
    (tracked T).Does (headOps s ord pairs) (track T (pairs.flatMap (headMoves s ord))) := by
  refine does_batch (fun p _ => does_tracked ?_) hnodup
  unfold headMoves
  cases s.get (.delivery p.1 p.2) with
  | none => exact .nil
  | some v =>
    cases v with
    | row row =>
      dsimp only
      rcases row.lane with _ | ⟨l, key⟩
      · exact .nil
      · exact does_vacate ..
    | _ => exact .nil

theorem nodup_track_right (h : ((track T (ms ++ ms')).map Move.cell).Nodup) :
    ((track T ms').map Move.cell).Nodup := by
  rw [track_append, map_append] at h
  exact (nodup_append.1 h).2.1

theorem does_rows {ops : α → List Op} {move : α → Move Cell Slot Obs}
    (h : ∀ x ∈ xs, index.Does (ops x) [move x])
    (hnodup : ((track T (xs.map move)).map Move.cell).Nodup) :
    (tracked T).Does (xs.flatMap ops) (track T (xs.map move)) := by
  have hmoves : xs.map move = xs.flatMap fun x => [move x] := map_eq_flatMap
  rw [hmoves] at hnodup ⊢
  exact does_batch (fun x hx => does_tracked (h x hx)) hnodup

theorem does_purgeDues {rows : List Due}
    (hnodup : ((track T (purgeDueMoves s ord rows)).map Move.cell).Nodup) :
    (tracked T).Does (purgeDue s ord rows) (track T (purgeDueMoves s ord rows)) := by
  refine does_tracked_coalesce (does_tracked_append (does_heads (nodup_track_left hnodup))
    (does_rows (fun d _ => ?_) (nodup_track_right hnodup)) hnodup)
  exact does_purge _ _ rfl _

theorem does_purgeInflights {rows : List Claimed}
    (hnodup : ((track T (purgeInflightMoves s ord rows)).map Move.cell).Nodup) :
    (tracked T).Does (purgeInflight s ord rows) (track T (purgeInflightMoves s ord rows)) := by
  refine does_tracked_coalesce (does_tracked_append (does_heads (nodup_track_left hnodup))
    (does_rows (fun c _ => ?_) (nodup_track_right hnodup)) hnodup)
  exact does_purge _ _ rfl _

theorem does_purgeMembers {rows : List Member}
    (hnodup : ((track T (rows.map (memberPurge ord))).map Move.cell).Nodup) :
    (tracked T).Does (purgeMembers ord rows) (track T (rows.map (memberPurge ord))) :=
  does_tracked_coalesce (does_rows (fun _ _ =>
    does_purge _ _ rfl _) hnodup)

end Purge

end Ankusa.Delivery
