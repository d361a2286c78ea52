import Ankusa.Delivery.Claimed

set_option autoImplicit false

/-! # Every step keeps the invariant

`Ghost.step` says what an event does to the cells of the index and to the moves of the batch that is
built; `Inv.step` is the step lemma from which the results about whole runs follow. -/

namespace Ankusa.Delivery

open Deliveries KV List State Run

/-- The cells and the planned moves after an event. -/
def Ghost.step (T : Nat → Bool) (s : State) (g : Ghost) : Event → Ghost
  | .commit hooks => { g with cells := g.cells.moves (track T (commitMoves s.nextSeq hooks)) }
  | .revive hits now replay class? =>
    { g with cells :=
      g.cells.moves (track T (hits.reverse.flatMap (hitRevive s.store now replay class?))) }
  | .candidates _ | .evict _ => g
  | .evicted i ok =>
    if ok then
      let hits := ((s.evicting[i]?).getD []).map Prod.fst
      { g with cells := g.cells.moves (track T (hits.map (hitGone s.store))) }
    else g
  | .purgeDead hits => { g with cells := g.cells.moves (track T (hits.map (hitGone s.store))) }
  | .damage seq sink bin => { g with cells := damaged T g.cells seq sink bin }
  | .claim _ items => { g with plan := track T (items.map fun p => claimMove p.1) }
  | .flush t durable =>
    { g with plan := track T (s.buffer.flatMap (Result.moves s.store t durable)) }
  | .again i t durable =>
    { g with plan := track T ((s.unrecorded[i]?.getD []).flatMap (Result.moves s.store t durable)) }
  | .sweep ord lanes t durable =>
    { g with plan := track T (sweepMoves s.store ord lanes t durable) }
  | .deadLetter picks t error durable =>
    { g with plan := track T (picks.reverse.flatMap (Pick.moves s.store t error durable)) }
  | .recover now => { g with plan := track T (recoverMoves s.store now) }
  | .purgeDue ord rows => { g with plan := track T (purgeDueMoves s.store ord rows) }
  | .purgeInflight ord rows => { g with plan := track T (purgeInflightMoves s.store ord rows) }
  | .purgeMembers ord rows => { g with plan := track T (rows.map (memberPurge ord)) }
  | .verify => g
  | .write ok =>
    match s.doing with
    | .writing _ (.settle _ _ _) | .writing _ (.settled _) =>
      if ok then g else { g with plan := [] }
    | _ => if ok then ⟨g.cells.moves g.plan, []⟩ else { g with plan := [] }
  | .outcome _ _ | .deadLetterSource _ | .lettered | .purgeMarkers _ | .markers _ | .restart =>
    { g with plan := [] }

variable {T : Nat → Bool} {s : State} {g : Ghost}

/-! ## The writer, replay jobs and reapers -/

theorem New.lays (seq : Nat) (n : New) : Lays (n.move seq) := by
  refine .put _ _ _ _ _ ?_ fun hlive => ?_
  · unfold New.place
    cases hlane : n.lane with
    | none => exact ⟨by simp [New.row, newRow], fun h => by simp [New.row, newRow, hlane] at h⟩
    | some => exact ⟨by simp [New.row, newRow], by simp [New.row, newRow, hlane]⟩
  · unfold New.place at hlive
    cases hlane : n.lane with
    | none => exact hlane
    | some => simp [hlane, Place.live] at hlive

theorem plainOp_member {o : Nat} {t : Ms} {q i n : Nat} {l : Lane} (hq : T q = true) :
    ∀ op ∈ Lanes.memberOps o t q i n l, PlainOp T op :=
  forall_mem_append.2 ⟨by simp [PlainOp, hq], plainOp_counters⟩

variable {seq : Nat} {st : Store} {hit : Hit} {ops : List Op} {now : Ms} {replay : String}
  {class? : Option ErrorClass} {t : State} {next : After}

theorem New.plainOp (hq : T seq = true) (n : New) : ∀ op ∈ n.ops seq, PlainOp T op := by
  unfold New.ops newOps
  split
  · refine forall_mem_append.2 ⟨forall_mem_append.2 ⟨?_, plainOp_due⟩, plainOp_counters⟩
    simp [PlainOp, hq]
  · refine forall_mem_append.2 ⟨forall_mem_append.2 ⟨?_, plainOp_member hq⟩, plainOp_counters⟩
    simp [PlainOp, hq]

theorem plainOp_commit (hq : ∀ q, seq ≤ q → T q = true) (hooks : List (List New)) :
    ∀ op ∈ commitOps seq hooks, PlainOp T op := by
  induction hooks generalizing seq with
  | nil => exact forall_mem_nil _
  | cons hook hooks ih =>
    refine forall_mem_append.2 ⟨forall_mem_flatMap.2 fun n _ => n.plainOp (hq seq le_rfl), ?_⟩
    exact ih fun q hle => hq q (by omega)

theorem Inv.commit (h : Inv T s g) {hooks : List (List New)} (hok : hooks.all hookOk = true) :
    Inv T { s with
        store := s.store.write (coalesce (commitOps s.nextSeq hooks))
        nextSeq := s.nextSeq + hooks.length }
      { g with cells := g.cells.moves (track T (commitMoves s.nextSeq hooks)) } := by
  refine h.outside (does_tracked_coalesce (does_tracked (does_commit hok))) (fun m hm => ?_)
    (fun m hm => (mem_track.1 hm).2) (fun m hm => ?_) (fun m hm => ?_)
    (plainOp_coalesce (plainOp_commit h.newer hooks)) (Nat.le_add_right _ _)
  · obtain ⟨q, n, hle, -, -, rfl⟩ := cell_commitMoves (mem_track.1 hm).1
    show obs (g.cells.get (.row q n.sink)) = _
    rw [h.fresh q n.sink hle]
    rfl
  · obtain ⟨q, n, -, -, -, rfl⟩ := cell_commitMoves (mem_track.1 hm).1
    exact n.lays q
  · obtain ⟨q, n, hle, hlt, -, rfl⟩ := cell_commitMoves (mem_track.1 hm).1
    exact ⟨q, n.sink, rfl, .inl ⟨rfl, hle, hlt⟩⟩

theorem hitsOk_spec {hits : List Hit} (h : hitsOk st hits = true) :
    (hits.map fun h => (h.seq, h.sink)).Nodup ∧ ∀ h ∈ hits, ∃ source id,
      st.get (.dead h.time h.seq h.sink) = some (.owner source id h.ord) ∧
      deadPlace st h = .dead h.ord h.time source id := by
  simp only [hitsOk, Bool.and_eq_true, decide_eq_true_eq, all_eq_true] at h
  refine ⟨h.1, fun hit hhit => ?_⟩
  have hdead := h.2 hit hhit
  split at hdead
  next source id ord hget =>
    obtain rfl : ord = hit.ord := by simpa using hdead
    exact ⟨source, id, hget, by simp [deadPlace, hget]⟩
  · cases hdead

theorem Inv.read_hit (h : Inv T s g) {hits : List Hit} (hok : hitsOk s.store hits = true)
    (hhit : hit ∈ hits) (hT : T hit.seq = true) :
    ∃ v, g.cells.get (.row hit.seq hit.sink) = some (.row v (deadPlace s.store hit)) := by
  obtain ⟨source, id, hget, hplace⟩ := (hitsOk_spec hok).2 hit hhit
  rw [hplace]
  exact read_dead h.models h.good hT hget

/-- Moves of dead rows of a page. -/
theorem Inv.hits (h : Inv T s g) {hits : List Hit} (hok : hitsOk s.store hits = true)
    {ms : Moves} (hdoes : (tracked T).Does ops (track T ms))
    (hms : ∀ m ∈ ms, ∃ hit ∈ hits, m.cell = .row hit.seq hit.sink ∧
      m.src = .row (deadPlace s.store hit) ∧ Lays m) (hplain : ∀ op ∈ ops, PlainOp T op) :
    Inv T { s with store := s.store.write ops } { g with cells := g.cells.moves (track T ms) } := by
  refine h.outside hdoes (fun m hm => ?_) (fun m hm => (mem_track.1 hm).2) (fun m hm => ?_)
    (fun m hm => ?_) hplain le_rfl
  · obtain ⟨hm, hT⟩ := mem_track.1 hm
    obtain ⟨hit, hhit, hcell, hsrc, -⟩ := hms m hm
    rw [hcell] at hT
    obtain ⟨v, hv⟩ := h.read_hit hok hhit hT
    rw [hcell, hsrc, hv]
    rfl
  · obtain ⟨hit, -, -, -, hlays⟩ := hms m (mem_track.1 hm).1
    exact hlays
  · obtain ⟨hit, -, hcell, hsrc, -⟩ := hms m (mem_track.1 hm).1
    obtain ⟨source, id, hplace⟩ := deadPlace_eq s.store hit
    exact ⟨_, _, hcell, .inr ⟨_, _, source, id, hsrc.trans (by rw [hplace])⟩⟩

theorem mem_hitRevive {m : Move Cell Slot Obs} (h : m ∈ hitRevive st now replay class? hit) :
    m.cell = .row hit.seq hit.sink ∧ m.src = .row (deadPlace st hit) ∧ Lays m ∧
      hitRevive st now replay class? hit = [m] := by
  unfold hitRevive at h ⊢
  split at h
  next row hrow =>
    split at h
    next hclass =>
      obtain rfl := mem_singleton.1 h
      refine ⟨rfl, rfl, .put _ _ _ _ _ ?_ fun hlive => ?_, by simp [hclass]⟩
      · unfold requeued
        cases hlane : (revived row now replay).lane with
        | none => exact ⟨by simp [revived], fun hl => by simp [hlane] at hl⟩
        | some => exact ⟨by simp [revived], by simp [hlane]⟩
      · unfold requeued at hlive
        cases hlane : (revived row now replay).lane with
        | none => rfl
        | some => simp [hlane, Place.live] at hlive
    · cases h
  · cases h

theorem Inv.plainOp_revive (h : Inv T s g) :
    ∀ op ∈ reviveRow s.store now replay class? hit, PlainOp T op := by
  have hgone : ∀ op ∈ deadGone hit, PlainOp T op := by simp [deadGone, PlainOp]
  unfold reviveRow
  split
  next row hrow =>
    have hT : row.lane ≠ none → T hit.seq = true := h.plain.rows _ _ row hrow
    split
    · refine forall_mem_append.2 ⟨forall_mem_append.2 ⟨forall_mem_append.2 ⟨?_, hgone⟩, ?_⟩,
        plainOp_counters⟩
      · exact forall_mem_singleton.2 hT
      unfold requeueOps
      cases hlane : (revived row now replay).lane with
      | none => exact plainOp_due
      | some x =>
        refine plainOp_member (hT ?_)
        have hsame : row.lane = some x := hlane
        simp [hsame]
    · exact forall_mem_nil _
  · exact forall_mem_nil _
  · exact forall_mem_append.2 ⟨hgone, plainOp_counters⟩

theorem Inv.does_revive (h : Inv T s g) {hits : List Hit}
    (hok : hitsOk s.store hits = true) (now : Ms) (replay : String) (class? : Option ErrorClass) :
    (tracked T).Does (reviveOps s.store hits now replay class?)
      (track T (hits.reverse.flatMap (hitRevive s.store now replay class?))) := by
  have hnodup := (hitsOk_spec hok).1
  refine does_batch (fun hit hhit => does_hitRevive _ _ _ _ _ fun hT => ?_) ?_
  · obtain ⟨v, hv⟩ := h.read_hit hok (mem_reverse.1 hhit) hT
    rw [body_of_cell h.models h.good hT hv]
    simp
  refine nodup_track (nodup_flatMap_cells (nodup_reverse.2 hnodup.of_map) (fun hit _ => ?_)
    fun hit hhit hit' hhit' m hm m' hm' hcell => ?_)
  · cases hms : hitRevive s.store now replay class? hit with
    | nil => exact nodup_nil
    | cons m =>
      have hmem : m ∈ hitRevive s.store now replay class? hit := by simp [hms]
      rw [← hms, (mem_hitRevive hmem).2.2.2]
      exact nodup_singleton _
  · rw [(mem_hitRevive hm).1, (mem_hitRevive hm').1] at hcell
    exact inj_on_of_nodup_map hnodup (mem_reverse.1 hhit) (mem_reverse.1 hhit')
      (Prod.ext (Cell.row.inj hcell).1 (Cell.row.inj hcell).2)

theorem Inv.revive (h : Inv T s g) {hits : List Hit} (hok : hitsOk s.store hits = true) (now : Ms)
    (replay : String) (class? : Option ErrorClass) :
    Inv T { s with store := s.store.write (reviveOps s.store hits now replay class?) }
      { g with
        cells := g.cells.moves (track T
          (hits.reverse.flatMap (hitRevive s.store now replay class?))) } := by
  refine h.hits hok (h.does_revive hok now replay class?) (fun m hm => ?_)
    (forall_mem_flatMap.2 fun hit _ => h.plainOp_revive)
  obtain ⟨hit, hhit, hm⟩ := mem_flatMap.1 hm
  obtain ⟨hcell, hsrc, hlays, -⟩ := mem_hitRevive hm
  exact ⟨hit, mem_reverse.1 hhit, hcell, hsrc, hlays⟩

theorem Inv.hitsGone (h : Inv T s g) {hits : List Hit} (hok : hitsOk s.store hits = true)
    {ops : Hit → List Op} (hdoes : ∀ hit, index.Does (ops hit) [hitGone s.store hit])
    (hplain : ∀ hit, ∀ op ∈ ops hit, PlainOp T op) :
    Inv T { s with store := s.store.write (coalesce (hits.flatMap ops)) }
      { g with cells := g.cells.moves (track T (hits.map (hitGone s.store))) } := by
  refine h.hits hok (does_tracked_coalesce (does_rows (fun hit _ => hdoes hit)
    (nodup_rows (hitsOk_spec hok).1 fun hit => rfl))) (fun m hm => ?_)
    (plainOp_coalesce (forall_mem_flatMap.2 fun hit _ => hplain hit))
  obtain ⟨hit, hhit, rfl⟩ := mem_map.1 hm
  exact ⟨hit, hhit, rfl, rfl, .gone ..⟩

theorem plainOp_evict {n : Nat} : ∀ op ∈ evictRow n hit, PlainOp T op :=
  forall_mem_append.2 ⟨by simp [deadGone, PlainOp], plainOp_counters⟩

theorem plainOp_purgeDead : ∀ op ∈ purgeDeadRow st hit, PlainOp T op :=
  forall_mem_append.2 ⟨by simp [PlainOp], plainOp_counters⟩

/-! ## The Pipeline -/

/-- A batch is built, and nothing else changes. -/
theorem Inv.build (h : Inv T s g) (hrests : s.doing.rests) {doing : Doing} {plan : Moves}
    (hflushing : ∀ ops results, doing ≠ .writing ops (.flushed results))
    (hready : Ready T s.nextSeq s.kept g.cells doing.pending plan)
    (hmarks : ∀ op ∈ doing.marks, Marks op)
    (hitems : ∀ ops now items, doing = .writing ops (.claimed now items) → s.recovered = true ∧
      (items.map fun it => (it.due.seq, it.due.sink)).Nodup ∧ (∀ it ∈ items, it.Read T g.cells) ∧
      plan = track T (items.map fun it => claimMove it.due)) :
        Inv T { s with doing } ⟨g.cells, plan⟩ := by
  have hold : s.flushing = [] := flushing_of_rests hrests
  have hnew : flushing { s with doing } = [] := flushing_eq_nil hflushing
  refine h.remember rfl rfl ?_ h.jobs (fun r hr => ?_) (fun hr => ?_) hready hmarks hitems
  · have hrelied := h.relied
    rw [hold] at hrelied
    rw [hnew]
    exact hrelied
  · rw [hnew] at hr
    exact h.results r (by rw [hold]; exact hr)
  · have hun := h.unclaimed hr
    rw [hold] at hun
    rw [hnew]
    exact hun

/-- Nothing is built any more. -/
theorem Inv.rest (h : Inv T s g) (hstore : t.store = s.store) (hnext : t.nextSeq = s.nextSeq)
    (hrests : t.doing.rests) (hrelied : Relied T g.cells t.kept) (hjobs : ∀ j ∈ t.jobs, j.Ok T)
    (hresults : ∀ r ∈ t.buffer ++ t.unrecorded.flatten, r.Ok T)
    (hunclaimed : t.recovered = false → t.jobs = [] ∧ t.buffer ++ t.unrecorded.flatten = []) :
    Inv T t ⟨g.cells, []⟩ := by
  have hflushing := flushing_of_rests hrests
  obtain ⟨hpending, hmarks, hwriting⟩ := hrests.spec
  refine h.remember hstore hnext ?_ hjobs (fun r hr => ?_) (fun hr => ?_) ?_ (fun op hop => ?_)
    fun ops now items hd => absurd hd (hwriting ops _)
  · rw [hflushing, flatMap_nil, append_nil]
    exact hrelied
  · rw [hflushing, append_nil] at hr
    exact hresults r hr
  · rw [hflushing, append_nil]
    exact hunclaimed hr
  · rw [hpending]
    exact .nil h.good
  · rw [hmarks] at hop
    cases hop

theorem marks_deleteMarkers (ord : Nat) (lanes : List Lane) :
    ∀ op ∈ deleteMarkers ord lanes, Marks op :=
  forall_mem_map.2 fun l _ => ⟨⟨ord, l, rfl⟩, rfl⟩

theorem marks_putMarkers (ord : Nat) (lanes : List Lane) : ∀ op ∈ putMarkers ord lanes, Marks op :=
  forall_mem_map.2 fun l _ => ⟨⟨ord, l, rfl⟩, rfl⟩

theorem Ready.markers {next : Nat} {kept : List (Cell × Obs)} {A : Map Cell Slot} (hgood : Good A)
    (ord : Nat) (lanes : List Lane) : Ready T next kept A (deleteMarkers ord lanes) [] :=
  .none hgood (does_marks (marks_deleteMarkers ord lanes))
    (plainOp_marks (marks_deleteMarkers ord lanes))

/-- A due row as a claim reads it. -/
theorem Inv.read_item (h : Inv T s g) {d : Due} {v : Verdict}
    (hdue : s.store.get (.due d.ord d.time d.seq d.sink) = some (.due d.size d.kind))
    (hok : Item.ok ⟨d, load s.store d.seq d.sink, v⟩ = true) :
    Item.Read T g.cells ⟨d, load s.store d.seq d.sink, v⟩ := by
  have hcell : ∀ row, load s.store d.seq d.sink = .row row → T d.seq = true →
      g.cells.get (.row d.seq d.sink) =
      some (.row (.row row) (.due d.ord d.time d.size d.kind)) := by
    intro row hrow hT
    obtain ⟨b, hb⟩ := read_due h.models h.good hT hdue
    have hbody := body_of_cell h.models h.good hT hb
    rw [load_row hrow] at hbody
    rw [hb, Option.some.inj hbody]
  refine ⟨fun hT => ?_, fun hT row hrow => ?_, fun row l key hrow hlane => ?_, hok⟩
  · obtain ⟨b, hb⟩ := read_due h.models h.good hT hdue
    exact congrArg obs hb
  · exact (h.good.slots _ _ (hcell row hrow hT)).1
  · have hT : T d.seq = true := h.plain.rows _ _ row (load_row hrow) (by simp [hlane])
    exact ⟨hT, h.good.headed _ _ row _ l key (hcell row hrow hT) rfl hlane⟩

theorem Inv.claim (h : Inv T s g) (hidle : s.doing = .idle) (hrec : s.recovered = true) (now : Ms)
    {items : List (Due × Verdict)} (hdues : duesOk s.store (items.map Prod.fst) = true)
    (hok : (items.map fun p => Item.mk p.1 (load s.store p.1.seq p.1.sink) p.2).all Item.ok =
      true) :
    Inv T { s with
        doing := .writing (claim (items.map Prod.fst))
          (.claimed now (items.map fun p => Item.mk p.1 (load s.store p.1.seq p.1.sink) p.2)) }
      ⟨g.cells, track T (items.map fun p => claimMove p.1)⟩ := by
  obtain ⟨hnodup, hdue⟩ := duesOk_spec hdues
  rw [map_map] at hnodup
  have hready := h.ready_claim hdues
  rw [map_map] at hready
  refine h.build (.inl hidle) nofun hready (forall_mem_nil _) ?_
  intro ops now' its hdoing
  obtain ⟨-, -, rfl⟩ : _ ∧ _ ∧
      (items.map fun p => Item.mk p.1 (load s.store p.1.seq p.1.sink) p.2) = its := by
    simpa using hdoing
  refine ⟨hrec, by rw [map_map]; exact hnodup, forall_mem_map.2 fun p hp => ?_, ?_⟩
  · exact h.read_item (hdue p.1 (mem_map_of_mem hp)) (all_eq_true.1 hok _ (mem_map_of_mem hp))
  · rw [map_map]
    rfl

theorem Job.relies_outcome (j : Job) (o : Outcome) : (j.outcome o).relies = j.relies := by
  cases o <;> rfl

theorem Job.ok_outcome {j : Job} (h : j.Ok T) (o : Outcome) : (j.outcome o).Ok T := by
  cases o <;> exact h

theorem flatten_eraseIdx_perm {us : List (List Result)} {i : Nat} {rs : List Result}
    (hget : us[i]? = some rs)
    (l : List Result) : (l ++ us.flatten).Perm (l ++ (us.eraseIdx i).flatten ++ rs) := by
  obtain ⟨hlt, rfl⟩ := List.getElem?_eq_some_iff.1 hget
  rw [append_assoc]
  exact .append_left _ ((getElem_cons_eraseIdx_perm hlt).symm.flatten.trans perm_append_comm)

section

variable (h : Inv T s g)
include h

section

variable (hidle : s.doing = .idle)
include hidle

theorem Inv.outcome {j : Job} (hj : j ∈ s.jobs) (o : Outcome) :
    Inv T { s with jobs := s.jobs.erase j, buffer := s.buffer ++ [j.outcome o] } ⟨g.cells, []⟩ := by
  refine h.rest rfl rfl (.inl hidle) (h.relied.left.perm ?_) (fun j' hj' => ?_) (fun r hr => ?_)
    fun hr => ?_
  · -- the job's cells are the outcome's
    have hjobs : (s.jobs.flatMap Job.relies).Perm (j.relies ++
        (s.jobs.erase j).flatMap Job.relies) := (perm_cons_erase hj).flatMap_right _
    unfold State.kept
    refine (hjobs.append_right _).trans ?_
    simp only [flatMap_append, flatMap_cons, flatMap_nil, append_nil, Job.relies_outcome,
      append_assoc]
    exact (perm_append_comm_assoc _ _ _).trans
      (List.Perm.append_left _ (perm_append_comm_assoc _ _ _))
  · exact h.jobs j' (mem_of_mem_erase hj')
  · have hold : ∀ r ∈ s.buffer ++ s.unrecorded.flatten, r.Ok T :=
      fun r hr => h.results r (mem_append_left _ hr)
    have hr : r ∈ s.buffer ++ [j.outcome o] ++ s.unrecorded.flatten := hr
    simp only [mem_append, mem_singleton] at hr hold
    rcases hr with (hr | rfl) | hr
    · exact hold r (.inl hr)
    · exact Job.ok_outcome (h.jobs j hj) o
    · exact hold r (.inr hr)
  · have hnil := (h.unclaimed hr).1
    rw [hnil] at hj
    cases hj

variable {rs : List Result}

omit hidle in
/-- The outcomes of a batch and those still kept rest on what the kept ones rested on. -/
theorem Inv.relied_flush (hjobs : t.jobs = s.jobs)
    (hresults : (s.buffer ++ s.unrecorded.flatten).Perm (t.buffer ++ t.unrecorded.flatten ++ rs)) :
    Relied T g.cells (t.kept ++ rs.flatMap Result.relies) := by
  refine h.relied.left.perm ?_
  unfold State.kept
  rw [hjobs, append_assoc, ← flatMap_append]
  exact List.Perm.append_left _ (hresults.flatMap_right _)

/-- Outcomes that wait are built into a batch. -/
theorem Inv.flush (hstore : t.store = s.store) (hnext : t.nextSeq = s.nextSeq)
    (hjobs : t.jobs = s.jobs) (hrec : t.recovered = s.recovered) (time : Ms) (durable : Nat)
    (hdoing : t.doing = .writing (buildOps s.store time durable (rs.flatMap Result.ops))
      (.flushed rs))
    (hresults : (s.buffer ++ s.unrecorded.flatten).Perm (t.buffer ++ t.unrecorded.flatten ++ rs)) :
    Inv T t ⟨g.cells, track T (rs.flatMap (Result.moves s.store time durable))⟩ := by
  have hflushing : t.flushing = rs := flushing_eq hdoing
  have hold : s.flushing = [] := flushing_of_rests (.inl hidle)
  have hok : ∀ r ∈ t.buffer ++ t.unrecorded.flatten ++ rs, r.Ok T := fun r hr =>
    h.results r (mem_append_left _ (hresults.mem_iff.2 hr))
  have hrelied := h.relied_flush hjobs hresults
  refine h.remember hstore hnext ?_ (hjobs ▸ h.jobs) ?_ (fun hr => ?_) ?_ ?_ ?_
  · rw [hflushing]
    exact hrelied
  · rw [hflushing]
    exact hok
  · obtain ⟨hnil, hresult⟩ := h.unclaimed (hrec ▸ hr)
    rw [hold, append_nil] at hresult
    rw [hresult] at hresults
    rw [hflushing, hjobs]
    exact ⟨hnil, hresults.nil_eq.symm⟩
  · rw [hnext, hdoing]
    exact h.ready_flush hrelied t.held_kept fun r hr => hok r (mem_append_right _ hr)
  · rw [hdoing]
    exact forall_mem_nil _
  · rw [hdoing]
    exact nofun

theorem Inv.again {i : Nat} (hget : s.unrecorded[i]? = some rs) (time : Ms) (durable : Nat) :
    Inv T { s with
        unrecorded := s.unrecorded.eraseIdx i
        doing := .writing (buildOps s.store time durable (rs.flatMap Result.ops)) (.flushed rs) }
      ⟨g.cells, track T (rs.flatMap (Result.moves s.store time durable))⟩ := by
  exact h.flush hidle (t := { s with
    unrecorded := s.unrecorded.eraseIdx i
    doing := .writing (buildOps s.store time durable (rs.flatMap Result.ops)) (.flushed rs) })
    rfl rfl rfl rfl time durable rfl (flatten_eraseIdx_perm hget _)

theorem Inv.sweep {ord : Nat} {lanes : List Lane} (hlanes : lanes.Nodup) (time : Ms) (durable : Nat)
    {doing : Doing}
    (hdoing : doing = .writing (coalesce (sweepOps s.store ord lanes time durable)) .nothing ∨
      ∃ empty, doing = .writing (deleteMarkers ord empty)
        (.settle ord empty (sweepOps s.store ord lanes time durable))) :
    Inv T { s with doing } ⟨g.cells, track T (sweepMoves s.store ord lanes time durable)⟩ := by
  have hready := h.ready_sweep hlanes time durable (o := ord)
  rcases hdoing with rfl | ⟨empty, rfl⟩
  · exact h.build (.inl hidle) nofun hready.coalesce (forall_mem_nil _) nofun
  · exact h.build (.inl hidle) nofun hready (marks_deleteMarkers ord empty) nofun

end

theorem Inv.verify {ord : Nat} {lanes appeared : List Lane}
    (hdoing : s.doing = .verifying ord lanes ops) :
    Inv T { s with doing := .writing (putMarkers ord appeared) (.settled ops) } g := by
  have hflushing : s.flushing = [] := flushing_eq hdoing
  have hrelied := h.relied
  have hresults := h.results
  have hunclaimed := h.unclaimed
  rw [hflushing] at hrelied hresults hunclaimed
  refine h.remember rfl rfl hrelied h.jobs hresults hunclaimed ?_
    (marks_putMarkers ord appeared) nofun
  have hplan := h.plan
  rw [hdoing] at hplan
  exact hplan

theorem Inv.recover (hidle : s.doing = .idle) (hrec : s.recovered = false) (now : Ms) :
    Inv T { s with doing := .writing (recoverInflight s.store now) .recovered }
      ⟨g.cells, track T (recoverMoves s.store now)⟩ := by
  obtain ⟨hjobs, hresults⟩ := h.unclaimed hrec
  have hkept : s.kept = [] := by
    unfold State.kept
    rw [hjobs, (append_eq_nil_iff.1 hresults).1]
    rfl
  exact h.build (.inl hidle) nofun (h.ready_recover now hkept) (forall_mem_nil _) nofun

end

/-- No claimed row of a tenant that has no job and no outcome is in memory. -/
theorem State.not_kept {ord : Nat} (hjobs : (s.jobs.all fun j => j.ord ≠ ord) = true)
    (hresults : ((s.buffer ++ s.unrecorded.flatten).all fun r => r.ord ≠ ord) = true)
    (q i n : Nat) : (Cell.row q i, Obs.row (.inflight ord n)) ∉ s.kept := by
  have hlane : ∀ o row id n', (Cell.row q i, Obs.row (.inflight ord n)) ∈
      (Cell.row id.1 id.2, Obs.row (.inflight o n')) :: laneRelies o row id → o = ord := by
    intro o row id n' hmem
    rcases mem_cons.1 hmem with he | hmem
    · exact (Place.inflight.inj (Obs.row.inj (Prod.mk.inj he).2)).1.symm
    · unfold laneRelies at hmem
      split at hmem
      · cases mem_singleton.1 hmem
      · cases hmem
  intro hmem
  rcases mem_append.1 hmem with hmem | hmem
  · obtain ⟨j, hj, hmem⟩ := mem_flatMap.1 hmem
    have hne : j.ord ≠ ord := by simpa using all_eq_true.1 hjobs j hj
    exact hne (hlane j.ord (some j.row) (j.seq, j.sink) j.size hmem)
  obtain ⟨r, hr, hmem⟩ := mem_flatMap.1 hmem
  have hne : r.ord ≠ ord := by simpa using all_eq_true.1 hresults r hr
  refine hne ?_
  cases r with
  | delivered j | retry j | dead j time error class? owner =>
    exact hlane j.ord (some j.row) (j.seq, j.sink) j.size hmem
  | orphan o seq sink size row => exact hlane o row (seq, sink) size hmem
  | expand =>
    rcases mem_cons.1 hmem with he | hmem
    · exact (Place.inflight.inj (Obs.row.inj (Prod.mk.inj he).2)).1.symm
    · obtain ⟨p, -, he⟩ := mem_map.1 hmem
      cases he

/-! ## Writes -/

theorem Inv.settles (h : Inv T s g) (hdoing : s.doing = .writing ops next)
    (hnext : (∃ o lanes rest, next = .settle o lanes rest) ∨ ∃ rest, next = .settled rest) :
    Inv T (s.written ops next) g := by
  have hmarks := h.marks
  have hplan := h.plan
  have hflushing : s.flushing = [] := by
    rcases hnext with ⟨o, lanes, rest, rfl⟩ | ⟨rest, rfl⟩ <;> exact flushing_eq hdoing
  rcases hnext with ⟨o, lanes, rest, rfl⟩ | ⟨rest, rfl⟩
  · rw [hdoing] at hmarks hplan
    exact h.marked hmarks hflushing (.inl ⟨o, lanes, rest, rfl⟩) hplan
  · rw [hdoing] at hmarks hplan
    exact h.marked hmarks hflushing (.inr ⟨_, rfl⟩) hplan.coalesce

theorem Inv.fails (h : Inv T s g) (hdoing : s.doing = .writing ops next) :
    Inv T (s.failed next) ⟨g.cells, []⟩ := by
  have hother : s.flushing = [] → Inv T { s with doing := .idle } ⟨g.cells, []⟩ := by
    intro hflushing
    have hresults := h.results
    have hunclaimed := h.unclaimed
    rw [hflushing, append_nil] at hresults hunclaimed
    exact h.rest rfl rfl (.inl rfl) h.relied.left h.jobs hresults hunclaimed
  cases next with
  | flushed rs =>
    have hflushing : s.flushing = rs := flushing_eq hdoing
    have hresults := h.results
    have hunclaimed := h.unclaimed
    have hrelied := h.relied
    rw [hflushing] at hresults hunclaimed hrelied
    have hsame : s.buffer ++ (s.unrecorded ++ [rs]).flatten =
        s.buffer ++ s.unrecorded.flatten ++ rs := by
      simp
    refine h.rest rfl rfl (.inl rfl) (hrelied.perm ?_) h.jobs ?_ ?_
    · unfold State.kept State.failed
      rw [hsame, append_assoc, ← flatMap_append]
    · show ∀ r ∈ s.buffer ++ (s.unrecorded ++ [rs]).flatten, r.Ok T
      rw [hsame]
      exact hresults
    · show s.recovered = false → s.jobs = [] ∧ s.buffer ++ (s.unrecorded ++ [rs]).flatten = []
      rw [hsame]
      exact hunclaimed
  | _ =>
    exact hother (flushing_eq hdoing)

/-- The batch of a sweep is written after its markers. -/
def After.settles : After → Bool
  | .settle _ _ _ | .settled _ => true
  | _ => false

theorem Ghost.step_settles (hdoing : s.doing = .writing ops next)
    (hnext : next.settles = true) : g.step T s (.write true) = g := by
  cases next with
  | settle | settled => simp [Ghost.step, hdoing]
  | _ => cases hnext

theorem Ghost.step_writes (hdoing : s.doing = .writing ops next) (hnext : next.settles = false) :
    s.doing.pending = ops ∧ g.step T s (.write true) = ⟨g.cells.moves g.plan, []⟩ := by
  cases next with
  | settle | settled => cases hnext
  | _ => simp [Ghost.step, Doing.pending, hdoing]

theorem Inv.writes (h : Inv T s g) (hdoing : s.doing = .writing ops next)
    (hlone : Lone T s (.write true)) : Inv T (s.written ops next) (g.step T s (.write true)) := by
  cases next with
  | settle o lanes rest =>
    rw [Ghost.step_settles hdoing rfl]
    exact h.settles hdoing (.inl ⟨o, lanes, rest, rfl⟩)
  | settled rest =>
    rw [Ghost.step_settles hdoing rfl]
    exact h.settles hdoing (.inr ⟨rest, rfl⟩)
  | claimed =>
    rw [(Ghost.step_writes hdoing rfl).2]
    exact h.claimed hdoing hlone
  | recovered =>
    obtain ⟨hpending, hghost⟩ := Ghost.step_writes hdoing rfl
    rw [hghost]
    exact h.written hpending (.inl rfl) fun he => nomatch he
  | markers o =>
    obtain ⟨hpending, hghost⟩ := Ghost.step_writes hdoing rfl
    rw [hghost]
    exact h.written hpending (.inr (.inl ⟨o, rfl⟩)) id
  | lettered src members =>
    obtain ⟨hpending, hghost⟩ := Ghost.step_writes hdoing rfl
    rw [hghost]
    exact h.written hpending (.inr (.inr ⟨src, members, rfl⟩)) id
  | _ =>
    obtain ⟨hpending, hghost⟩ := Ghost.step_writes hdoing rfl
    rw [hghost]
    exact h.written hpending (.inl rfl) id

/-! ## Every step -/

theorem Inv.step (h : Inv T s g) {e : Event} (hlone : Lone T s e) (hstep : step s e = some t) :
    Inv T t (g.step T s e) := by
  cases e with
  | commit =>
    obtain ⟨hok, rfl⟩ := guarded hstep
    exact h.commit hok
  | revive hits now replay class? =>
    obtain ⟨hok, rfl⟩ := guarded hstep
    exact h.revive hok now replay class?
  | candidates | evict =>
    obtain ⟨-, rfl⟩ := guarded hstep
    exact { h with }
  | evicted i ok =>
    obtain ⟨rows, hi, rfl⟩ := Option.map_eq_some_iff.1 hstep
    cases ok with
    | false => exact { h with }
    | true =>
      obtain ⟨hok, hrows⟩ := hlone rows hi
      have hgone :=
        h.hitsGone hok (fun hit => does_hitEvict s.store (rowSize s.store hit.seq hit.sink) hit)
        fun _ => plainOp_evict
      simp only [Ghost.step, hi, Option.getD_some, if_true, evictSized_of_sized hrows]
      exact { hgone with }
  | purgeDead =>
    obtain ⟨⟨-, hok⟩, rfl⟩ := guarded hstep
    exact h.hitsGone hok (does_hitPurge s.store) fun _ => plainOp_purgeDead
  | damage seq sink bin =>
    obtain ⟨hrow, rfl⟩ := guarded hstep
    exact (h.damage bin hrow).2
  | claim now =>
    obtain ⟨⟨hidle, hrec, hdues, hok⟩, rfl⟩ := guarded hstep
    exact h.claim hidle hrec now hdues hok
  | outcome j o =>
    obtain ⟨⟨hidle, hj⟩, rfl⟩ := guarded hstep
    exact h.outcome hidle hj o
  | flush time durable =>
    obtain ⟨hidle, rfl⟩ := guarded hstep
    exact h.flush hidle (t := { s with
      buffer := []
      doing := .writing (buildOps s.store time durable (s.buffer.flatMap Result.ops))
        (.flushed s.buffer) }) rfl rfl rfl rfl time durable rfl perm_append_comm
  | again i time durable =>
    obtain ⟨hidle, hstep⟩ := passed hstep
    split at hstep
    next rs hget =>
      cases hstep
      have hghost : g.step T s (.again i time durable) =
          ⟨g.cells, track T (rs.flatMap (Result.moves s.store time durable))⟩ := by
        simp [Ghost.step, hget]
      rw [hghost]
      exact h.again hidle hget time durable
    · cases hstep
  | sweep ord lanes time durable =>
    obtain ⟨⟨hidle, -, hlanes⟩, hstep⟩ := passed hstep
    have hnodup : lanes.Nodup := by
      simp only [lanesOk, Bool.and_eq_true, decide_eq_true_eq] at hlanes
      exact hlanes.1
    split at hstep
    · cases hstep
      exact h.sweep hidle hnodup time durable (.inl rfl)
    · cases hstep
      exact h.sweep hidle hnodup time durable (.inr ⟨_, rfl⟩)
  | verify =>
    simp only [Delivery.step] at hstep
    split at hstep
    next hdoing =>
      cases hstep
      exact h.verify hdoing
    · cases hstep
  | deadLetterSource =>
    obtain ⟨hidle, rfl⟩ := guarded hstep
    exact h.build (.inl hidle) (by simp) (.nil h.good) (forall_mem_nil _) (by simp)
  | deadLetter =>
    simp only [Delivery.step] at hstep
    split at hstep
    next src members hdoing =>
      obtain ⟨hok, rfl⟩ := guarded hstep
      exact h.build (.inr (.inr ⟨src, members, hdoing⟩)) (by simp)
        (h.ready_deadLetter (picksOk_spec hok)) (forall_mem_nil _) (by simp)
    · cases hstep
  | lettered =>
    simp only [Delivery.step] at hstep
    split at hstep
    next src members hdoing =>
      cases hstep
      exact h.build (.inr (.inr ⟨src, members, hdoing⟩)) (by simp) (.nil h.good)
        (forall_mem_nil _) (by simp)
    · cases hstep
  | recover now =>
    obtain ⟨⟨hidle, hrec⟩, rfl⟩ := guarded hstep
    exact h.recover hidle hrec now
  | purgeDue =>
    obtain ⟨⟨hidle, hdues, hord⟩, rfl⟩ := guarded hstep
    refine h.build (.inl hidle) (by simp) (h.ready_purgeDue hdues fun d hd => ?_)
      (forall_mem_nil _) (by simp)
    simpa using all_eq_true.1 hord d hd
  | purgeInflight =>
    obtain ⟨⟨hidle, hnodup, hget, hjobs, hresults⟩, rfl⟩ := guarded hstep
    refine h.build (.inl hidle) (by simp)
      (h.ready_purgeInflight hnodup (fun c hc => ?_) (not_kept hjobs hresults))
      (forall_mem_nil _) (by simp)
    simpa using all_eq_true.1 hget c hc
  | purgeMembers =>
    obtain ⟨⟨hidle, hnodup, hget⟩, rfl⟩ := guarded hstep
    refine h.build (.inl hidle) (by simp) (h.ready_purgeMembers hnodup fun m hm => ?_)
      (forall_mem_nil _) (by simp)
    simpa using all_eq_true.1 hget m hm
  | purgeMarkers =>
    obtain ⟨⟨hidle, -⟩, rfl⟩ := guarded hstep
    exact h.build (.inl hidle) (by simp) (.nil h.good) (forall_mem_nil _) (by simp)
  | markers lanes =>
    simp only [Delivery.step] at hstep
    split at hstep
    next ord hdoing =>
      have hflushing := flushing_of_rests (.inr (.inl ⟨ord, hdoing⟩))
      have hrelied := h.relied
      have hresults := h.results
      have hunclaimed := h.unclaimed
      rw [hflushing] at hrelied hresults hunclaimed
      split at hstep
      · cases hstep
        exact h.remember rfl rfl hrelied h.jobs hresults hunclaimed (.nil h.good)
          (forall_mem_nil _) (by simp)
      · simp only [Option.ite_none_right_eq_some, Option.some.injEq] at hstep
        obtain ⟨-, rfl⟩ := hstep
        exact h.remember rfl rfl hrelied h.jobs hresults hunclaimed (.markers h.good ord lanes)
          (forall_mem_nil _) (by simp)
    · cases hstep
  | write ok =>
    simp only [Delivery.step] at hstep
    split at hstep
    next next hdoing =>
      cases hstep
      cases ok with
      | true => exact h.writes hdoing hlone
      | false =>
        have hghost : g.step T s (.write false) = ⟨g.cells, []⟩ := by
          cases next <;> simp [Ghost.step, hdoing]
        rw [hghost]
        exact h.fails hdoing
    · cases hstep
  | restart =>
    cases hstep
    exact h.rest rfl rfl (.inl rfl) .nil (forall_mem_nil _) (forall_mem_nil _) fun _ => ⟨rfl, rfl⟩

end Ankusa.Delivery
