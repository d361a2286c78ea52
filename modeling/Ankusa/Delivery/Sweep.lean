import Ankusa.Delivery.Build

set_option autoImplicit false

/-! # Sweeps, deleted sources and purges

The other batches of the Pipeline are ready to be written as well: the sweep over the lanes with a
marker, the rows of a deleted source sent to the DLQ, and the chunks in which a tenant is purged. -/

namespace Ankusa.Delivery

open Deliveries KV List Pick

variable {ops : List Op} {ms : Moves} {r : Nat × Nat} {lanes : List Lane}

theorem Ready.coalesce {T : Nat → Bool} {next : Nat} {kept : List (Cell × Obs)} {A : Map Cell Slot}
    (h : Ready T next kept A ops ms) : Ready T next kept A (coalesce ops) ms :=
  { h with
    does := does_tracked_coalesce h.does
    plain := plainOp_coalesce h.plain }

variable {T : Nat → Bool} {s : State} {g : Ghost}

/-- A batch that is not coalesced yet, assembled from what its moves are. -/
theorem Inv.ready (h : Inv T s g) (hdoes : (tracked T).Does ops ms)
    (hfits : index.Fits g.cells ms) (htracked : ∀ m ∈ ms, tracks T m.cell = true)
    (hold : ∀ m ∈ ms, Old s.nextSeq m) (hapart : ∀ m ∈ ms, ∀ c ∈ s.kept, m.cell ≠ c.1)
    (hsound : ∀ m ∈ ms, Sound g.cells ms m) (hplain : ∀ op ∈ ops, PlainOp T op) :
    Ready T s.nextSeq s.kept g.cells ops ms where
  does := hdoes
  fits := hfits
  old := hold
  shaped m hm := (hsound m hm).shaped
  tracked := htracked
  apart := hapart
  good := h.good.sound hdoes.nodup hfits hsound
  plain := hplain

variable {o : Nat} {l : Lane}

theorem Inv.head_apart (h : Inv T s g)
    (hhead : ∀ q i n, g.cells.get (.head o l) = some (.head q i) → T q = true →
      obs (g.cells.get (.row q i)) ≠ .row (.inflight o n)) : ∀ c ∈ s.kept, Cell.head o l ≠ c.1 := by
  intro c hc hcell
  obtain ⟨q, i, n, hget, hT, -, hobs⟩ := h.relied.left.head_inflight s.held_kept hc hcell.symm
  exact hhead q i n hget hT hobs

variable {m : Move Cell Slot Obs}

theorem Inv.hand_apart (h : Inv T s g) {t : Ms} {durable : Nat}
    {src : Option (Nat × Nat)} (hhead : ∀ c ∈ s.kept, Cell.head o l ≠ c.1)
    (hm : m ∈ handMoves o l t src (nextHead s.store o l durable)) : ∀ c ∈ s.kept, m.cell ≠ c.1 := by
  rcases mem_hand h.models h.good h.plain hm with ⟨dst, rfl⟩ | ⟨q, i, n, v, rfl, hT, hv, -⟩
  · exact hhead
  · exact h.relied.left.not_row s.held_kept hT (congrArg obs hv) (by simp)

/-! ## The sweep -/

/-- A head is stale only when its row is not live. -/
theorem Inv.not_live_of_stale (h : Inv T s g) (hstale : stale s.store r = true) {v : Val}
    {p : Place} (hget : g.cells.get (.row r.1 r.2) = some (.row v p)) : p.live = false := by
  by_cases hT : T r.1 = true
  · have hbody := body_of_cell h.models h.good hT hget
    unfold stale at hstale
    rw [hbody] at hstale
    cases v with
    | row row =>
      have hdead : row.state = .dead := by simpa using hstale
      have hfits : Place.fits row p := h.good.slots _ _ hget
      cases p with
      | due => exact absurd hdead hfits.1
      | inflight => exact absurd hdead hfits
      | member | dead => rfl
    | _ => cases hstale
  · rw [h.only r.1 r.2 (Bool.eq_false_iff.2 hT)] at hget
    cases hget

theorem triage_cases (st : Store) (o : Nat) (l : Lane) (t : Ms) (durable : Nat) :
    triageMoves st o l t durable = [] ∨
      (triageMoves st o l t durable =
          handMoves o l t (Lanes.head st o l) (nextHead st o l durable) ∧
        ∀ r, Lanes.head st o l = some r → stale st r = true) := by
  unfold triageMoves
  cases hhead : Lanes.head st o l with
  | some r =>
    dsimp only
    by_cases hstale : stale st r = true
    · rw [if_pos hstale]
      exact .inr ⟨rfl, fun r' hr => Option.some.inj hr ▸ hstale⟩
    · rw [if_neg hstale]
      exact .inl rfl
  | none =>
    cases nextHead st o l durable with
    | none => exact .inl rfl
    | some => exact .inr ⟨rfl, fun r hr => nomatch hr⟩

variable {st : Store}

/-- A move of the sweep is one of a hand-over of a lane whose head is stale or missing. -/
theorem mem_sweep {t : Ms} {durable : Nat} (h : m ∈ sweepMoves st o lanes t durable) :
    ∃ l ∈ lanes, m ∈ handMoves o l t (Lanes.head st o l) (nextHead st o l durable) ∧
      (∀ m' ∈ handMoves o l t (Lanes.head st o l) (nextHead st o l durable),
        m' ∈ sweepMoves st o lanes t durable) ∧
      ∀ r, Lanes.head st o l = some r → stale st r = true := by
  obtain ⟨l, hl, hm⟩ := mem_flatMap.1 h
  rcases triage_cases st o l t durable with hnil | ⟨hhand, hstale⟩
  · rw [hnil] at hm
    cases hm
  · refine ⟨l, (mem_filter.1 hl).1, hhand ▸ hm, fun m' hm' => ?_, hstale⟩
    exact mem_flatMap.2 ⟨l, hl, hhand ▸ hm'⟩

theorem plainOp_triage {t : Ms} {durable : Nat} :
    ∀ op ∈ Lanes.triage st o l t durable, PlainOp T op := by
  refine triage_rule (P := fun ops _ => ∀ op ∈ ops, PlainOp T op) (fun _ _ => plainOp_release)
    (fun _ _ _ _ _ => plainOp_promote) ?_ (forall_mem_nil _)
  simp [PlainOp]

theorem Inv.head_src (h : Inv T s g) (o : Nat) (l : Lane) :
    obs (g.cells.get (.head o l)) = (Lanes.head s.store o l).elim .none fun r => .head r.1 r.2 := by
  cases hhead : Lanes.head s.store o l with
  | none =>
    rw [read_head_none h.models h.good hhead]
    rfl
  | some =>
    rw [read_head_some h.models h.good hhead]
    rfl

theorem Inv.ready_sweep (h : Inv T s g) (hlanes : lanes.Nodup) (t : Ms) (durable : Nat) :
    Ready T s.nextSeq s.kept g.cells (sweepOps s.store o lanes t durable)
      (track T (sweepMoves s.store o lanes t durable)) := by
  have htrack : track T (sweepMoves s.store o lanes t durable) =
      sweepMoves s.store o lanes t durable := by
    refine filter_eq_self.2 fun m hm => ?_
    obtain ⟨l, -, hm, -, -⟩ := mem_sweep hm
    exact hand_tracked h.models h.good h.plain hm
  have hnodup : ((track T (sweepMoves s.store o lanes t durable)).map Move.cell).Nodup := by
    rw [htrack]
    refine nodup_flatMap_cells (hlanes.filter _) (fun l _ => ?_) fun l _ l' _ m hm m' hm' hcell =>
      ?_
    · rcases triage_cases s.store o l t durable with hnil | ⟨hhand, -⟩
      · rw [hnil]
        exact nodup_nil
      · rw [hhand]
        exact hand_nodup _
    · have hlane : ∀ l m, m ∈ triageMoves s.store o l t durable →
          laneCell g.cells m.cell = some (o, l) := by
        intro l m hm
        rcases triage_cases s.store o l t durable with hnil | ⟨hhand, -⟩
        · rw [hnil] at hm
          cases hm
        · exact hand_laneCell h.models h.good h.plain (hhand ▸ hm)
      have hsame := (hlane l m hm).symm.trans (hcell ▸ hlane l' m' hm')
      exact (Prod.ext_iff.1 (Option.some.inj hsame)).2
  refine h.ready (does_sweep hnodup) (fun m hm => ?_) (fun m hm => (mem_track.1 hm).2)
    (fun m hm => ?_)
    (fun m hm => ?_) (fun m hm => ?_) (forall_mem_flatMap.2 fun l _ => plainOp_triage)
  · obtain ⟨l, -, hm, -, -⟩ := mem_sweep (mem_track.1 hm).1
    exact hand_fits h.models h.good h.plain (h.head_src o l) m hm
  · obtain ⟨l, -, hm, -, -⟩ := mem_sweep (mem_track.1 hm).1
    exact hand_old h.models h.good h.plain _ hm
  · obtain ⟨l, -, hm, -, hstale⟩ := mem_sweep (mem_track.1 hm).1
    refine h.hand_apart (h.head_apart fun q i n hget hT hobs => ?_) hm
    have hhead : Lanes.head s.store o l = some (q, i) := by
      rcases read_head h.models h.good with ⟨hnone, -⟩ | ⟨q', i', hA, hs⟩
      · rw [hget] at hnone
        cases hnone
      · rw [hget] at hA
        obtain ⟨rfl, rfl⟩ := Slot.head.inj (Option.some.inj hA)
        simp [Lanes.head, hs]
    obtain ⟨v, hv⟩ := obs_eq_row.1 hobs
    exact absurd (h.not_live_of_stale (hstale _ hhead) hv) (by simp [Place.live])
  · rw [htrack] at hm ⊢
    obtain ⟨l, -, hm, hall, hstale⟩ := mem_sweep hm
    refine hand_sound h.models h.good h.plain hall
      (fun r hr => .inr fun row p key hget hlive => ?_) hm
    rw [h.not_live_of_stale (hstale r hr) hget] at hlive
    cases hlive

/-! ## Rows of a deleted source -/

/-- The rows of a dead-letter batch: each once, found by its index key, all of one family. -/
structure PicksOk (st : Store) (ps : List (Pick × Option (String × Option String))) : Prop where
  nodup : (ps.map fun p => p.1.id).Nodup
  present : ∀ p ∈ ps, p.1.present st = true
  family : (∀ p ∈ ps, p.1.isDue = true) ∨ ∀ p ∈ ps, p.1.isDue = false

theorem picksOk_spec {src : String} {members : List (Nat × Nat)}
    {ps : List (Pick × Option (String × Option String))}
    (h : picksOk st src members (ps.map Prod.fst) = true) : PicksOk st ps.reverse := by
  simp only [picksOk, Bool.and_eq_true, Bool.or_eq_true, decide_eq_true_eq, all_map,
    all_eq_true, map_map, Function.comp_apply, Bool.not_eq_true'] at h
  refine ⟨?_, fun p hp => (h.1.2 p (mem_reverse.1 hp)).1, ?_⟩
  · rw [map_reverse, nodup_reverse]
    exact h.1.1
  · rcases h.2 with ⟨hd, -⟩ | hm
    · exact .inl fun p hp => hd p (mem_reverse.1 hp)
    · exact .inr fun p hp => hm p (mem_reverse.1 hp)

theorem Inv.read_pick (h : Inv T s g) {p : Pick} (hpresent : p.present s.store = true)
    (hT : T p.id.1 = true) : ∃ v, g.cells.get (.row p.id.1 p.id.2) = some (.row v p.place) := by
  cases p with
  | due d =>
    have hget : s.store.get (.due d.ord d.time d.seq d.sink) = some (.due d.size d.kind) := by
      simpa [present] using hpresent
    exact read_due h.models h.good hT hget
  | member ord m =>
    have hget : s.store.get (.laneMember ord m.lane m.seq m.sink) = some (.size m.size) := by
      simpa [present] using hpresent
    exact read_member h.models h.good hT hget

theorem Pick.mem_own {t : Ms} {error : String} {p : Pick × Option (String × Option String)}
    (h : m ∈ Pick.own st t error p) :
    m.cell = .row p.1.id.1 p.1.id.2 ∧ m.src = .row p.1.place ∧ Lays m := by
  unfold own at h
  split at h
  · split at h
    · obtain rfl := mem_singleton.1 h
      exact ⟨rfl, rfl, .put _ _ _ _ _ rfl fun hlive => nomatch hlive⟩
    · obtain rfl := mem_singleton.1 h
      exact ⟨rfl, rfl, .gone ..⟩
  · cases h

variable {row : Row} {key : String}

theorem Pick.own_ne_nil {t : Ms} {error : String} {p : Pick × Option (String × Option String)}
    (h : load st p.1.id.1 p.1.id.2 = .row row) : ∃ m, m ∈ Pick.own st t error p := by
  unfold own
  rw [h]
  cases p.2 with
  | none | some => exact ⟨_, mem_singleton_self _⟩

theorem Pick.lanes_cases (st : Store) (t : Ms) (durable : Nat) (p : Pick) :
    p.lanes st t durable = [] ∨ ∃ row l key, load st p.id.1 p.id.2 = .row row ∧
      row.lane = some (l, key) ∧ p.heads = true ∧
      p.lanes st t durable = handMoves p.ord l t (some p.id) (nextHead st p.ord l durable) := by
  unfold lanes
  cases hload : load st p.id.1 p.id.2 with
  | gone | damaged => exact .inl rfl
  | row row =>
    dsimp only
    by_cases hheads : p.heads = true
    · rw [if_pos hheads]
      unfold passOn
      cases hlane : row.lane with
      | none => exact .inl (by simp [hlane])
      | some x => exact .inr ⟨row, x.1, x.2, rfl, hlane, hheads, by simp [hlane]⟩
    · rw [if_neg hheads]
      exact .inl rfl

theorem load_row {q i : Nat} (h : load st q i = .row row) :
    st.get (.delivery q i) = some (.row row) := by
  unfold load at h
  split at h
  · cases h
  next hget =>
    rw [hget, Loaded.row.inj h]
  · cases h

/-- A due row that heads its lane is the lane's head. -/
theorem Inv.pick_head (h : Inv T s g) {p : Pick} (hpresent : p.present s.store = true)
    (hload : load s.store p.id.1 p.id.2 = .row row)
    (hlane : row.lane = some (l, key)) (hheads : p.heads = true) :
    T p.id.1 = true ∧ g.cells.get (.head p.ord l) = some (.head p.id.1 p.id.2) := by
  have hbody := load_row hload
  have hT : T p.id.1 = true := h.plain.rows _ _ row hbody (by simp [hlane])
  refine ⟨hT, ?_⟩
  obtain ⟨v, hv⟩ := h.read_pick hpresent hT
  have hrow := body_of_cell h.models h.good hT hv
  rw [hbody] at hrow
  cases hrow
  cases p with
  | due => exact h.good.headed _ _ row _ l key hv rfl hlane
  | member => cases hheads

section Picks

variable {ps : List (Pick × Option (String × Option String))} {t : Ms} {error : String}
  {durable : Nat} (h : Inv T s g) (hok : PicksOk s.store ps)

include h

variable {p : Pick × Option (String × Option String)}

theorem Inv.picks_tracked :
    track T (p.1.lanes s.store t durable) = p.1.lanes s.store t durable := by
  rcases p.1.lanes_cases s.store t durable with hnil | ⟨row, l, key, -, -, -, hhand⟩
  · rw [hnil]
    rfl
  · rw [hhand]
    exact track_hand h.models h.good h.plain

theorem Inv.plainOp_pick :
    ∀ op ∈ (Pick.ops s.store t error p).flatMap (expandOne s.store t durable), PlainOp T op := by
  have hleave : ∀ op ∈ (leave p.1.ord p.1.id.1 p.1.id.2 p.1.src).1, PlainOp T op := by
    obtain ⟨k, v, -, hleave⟩ := p.1.contents
    rw [hleave]
    simp [PlainOp]
  have hrelease :
    ∀ row, ∀ op ∈ (release p.1.ord (some row) p.1.src).flatMap (expandOne s.store t durable),
      PlainOp T op := by
    intro row
    rw [release_eq]
    split
    · exact plainOp_releaseOp
    · exact forall_mem_nil _
  unfold ops
  cases hload : load s.store p.1.id.1 p.1.id.2 with
  | gone | damaged => exact forall_mem_nil _
  | row row =>
    cases howner : p.2 with
    | some =>
      unfold deadOps
      rw [flatMap_append, flatMap_ofOps]
      refine forall_mem_append.2 ⟨forall_mem_append.2 ⟨forall_mem_append.2
        ⟨forall_mem_append.2 ⟨?_, hleave⟩, ?_⟩, plainOp_counters⟩, hrelease _⟩
      · exact forall_mem_singleton.2 fun hlane => h.plain.rows _ _ row (load_row hload) hlane
      · simp [PlainOp]
    | none =>
      unfold orphanOps
      rw [flatMap_append, flatMap_ofOps]
      refine forall_mem_append.2
        ⟨forall_mem_append.2 ⟨forall_mem_append.2 ⟨?_, hleave⟩, plainOp_counters⟩, hrelease _⟩
      simp [PlainOp]

include hok

variable {m : Move Cell Slot Obs}

theorem Inv.picks_laneCell (hp : p ∈ ps) (hm : m ∈ p.1.lanes s.store t durable) :
    p.1.isDue = true ∧ ∃ l, laneCell g.cells m.cell = some (p.1.ord, l) ∧
      g.cells.get (.head p.1.ord l) = some (.head p.1.id.1 p.1.id.2) := by
  rcases p.1.lanes_cases s.store t durable with hnil | ⟨row, l, key, hload, hlane, hheads, hhand⟩
  · rw [hnil] at hm
    cases hm
  have hdue : p.1.isDue = true := by
    cases hpick : p.1 with
    | due => rfl
    | member =>
      rw [hpick] at hheads
      cases hheads
  exact ⟨hdue, l, hand_laneCell h.models h.good h.plain (hhand ▸ hm),
    (h.pick_head (hok.present p hp) hload hlane hheads).2⟩

theorem Inv.picks_own (hp : p ∈ ps) (hdue : p.1.isDue = true) (hm : m ∈ Pick.own s.store t error p)
    (hT : tracks T m.cell = true) : laneCell g.cells m.cell = none := by
  obtain ⟨hcell, -, -⟩ := mem_own hm
  rw [hcell] at hT ⊢
  obtain ⟨v, hv⟩ := h.read_pick (hok.present p hp) hT
  refine laneCell_row hv fun o l n he => ?_
  cases hpick : p.1 with
  | due =>
    rw [hpick] at he
    cases he
  | member =>
    rw [hpick] at hdue
    cases hdue

theorem Inv.picks_nodup :
    ((track T (ps.flatMap (Pick.moves s.store t error durable))).map Move.cell).Nodup := by
  have hids : ∀ p ∈ ps, ∀ p' ∈ ps, p.1.id = p'.1.id → p = p' :=
    fun p hp p' hp' he => inj_on_of_nodup_map hok.nodup hp hp' he
  -- an own row is no cell of a lane: members are never mixed with due rows
  have hmixed : ∀ p ∈ ps, ∀ p' ∈ ps, ∀ m ∈ own s.store t error p, tracks T m.cell = true →
      ∀ m' ∈ p'.1.lanes s.store t durable, m.cell ≠ m'.cell := by
    intro p hp p' hp' m hm hT m' hm' hcell
    obtain ⟨hdue', l, hlane, -⟩ := h.picks_laneCell hok hp' hm'
    have hdue : p.1.isDue = true := by
      rcases hok.family with hd | hmem
      · exact hd p hp
      · rw [hmem p' hp'] at hdue'
        cases hdue'
    rw [← hcell, h.picks_own hok hp hdue hm hT] at hlane
    cases hlane
  rw [track_flatMap]
  refine nodup_flatMap_cells hok.nodup.of_map (fun p hp => ?_) fun p hp p' hp' m hm m' hm' hcell =>
    ?_
  · unfold moves
    rw [track_append, h.picks_tracked]
    refine nodup_append_cells (nodup_track ?_) ?_ fun m hm m' hm' => ?_
    · unfold own
      split
      · split <;> exact nodup_singleton _
      · exact nodup_nil
    · rcases p.1.lanes_cases s.store t durable with hnil | ⟨row, l, key, -, -, -, hhand⟩
      · rw [hnil]
        exact nodup_nil
      · rw [hhand]
        exact hand_nodup _
    · obtain ⟨hm, hT⟩ := mem_track.1 hm
      exact hmixed p hp p hp m hm hT m' hm'
  · obtain ⟨hm, hT⟩ := mem_track.1 hm
    obtain ⟨hm', hT'⟩ := mem_track.1 hm'
    rcases mem_append.1 hm with hm | hm
    · rcases mem_append.1 hm' with hm' | hm'
      · rw [(mem_own hm).1, (mem_own hm').1] at hcell
        exact hids p hp p' hp' (Prod.ext (Cell.row.inj hcell).1 (Cell.row.inj hcell).2)
      · exact absurd hcell (hmixed p hp p' hp' m hm hT m' hm')
    · rcases mem_append.1 hm' with hm' | hm'
      · exact absurd hcell.symm (hmixed p' hp' p hp m' hm' hT' m hm)
      obtain ⟨-, l, hlane, hhead⟩ := h.picks_laneCell hok hp hm
      obtain ⟨-, l', hlane', hhead'⟩ := h.picks_laneCell hok hp' hm'
      rw [hcell, hlane'] at hlane
      obtain ⟨ho, rfl⟩ : p'.1.ord = p.1.ord ∧ l' = l := by simpa using hlane
      rw [ho, hhead] at hhead'
      obtain ⟨h1, h2⟩ := Slot.head.inj (Option.some.inj hhead')
      exact hids p hp p' hp' (Prod.ext h1 h2)

theorem Inv.picks_releases : (releases (ps.flatMap (Pick.ops s.store t error))).Nodup := by
  have hone : ∀ p : Pick × Option (String × Option String), ∀ x ∈ releases (ops s.store t error p),
      p ∈ ps → g.cells.get (.head x.1 x.2) = some (.head p.1.id.1 p.1.id.2) ∧
        releases (ops s.store t error p) = [x] := by
    intro p x hx hp
    unfold ops at hx ⊢
    cases hload : load s.store p.1.id.1 p.1.id.2 with
    | gone | damaged =>
      rw [hload] at hx
      cases hx
    | row row =>
      have hrel : ∀ row' : Row, row'.lane = row.lane →
        x ∈ releases (release p.1.ord (some row') p.1.src) →
          g.cells.get (.head x.1 x.2) = some (.head p.1.id.1 p.1.id.2) ∧
            releases (release p.1.ord (some row') p.1.src) = [x] := by
        intro row' hsame hx
        rw [release_eq] at hx ⊢
        by_cases hheads : p.1.heads = true
        · rw [if_pos hheads] at hx ⊢
          unfold Lanes.releaseOp at hx ⊢
          cases hlane : row.lane with
          | none => simp [hsame, hlane, releases] at hx
          | some y =>
            obtain rfl : x = (p.1.ord, y.1) := by simpa [hsame, hlane, releases] using hx
            exact ⟨(h.pick_head (hok.present p hp) hload hlane hheads).2,
              by simp [hsame, hlane, releases]⟩
        · rw [if_neg hheads] at hx
          cases hx
      simp only [hload] at hx ⊢
      cases howner : p.2 with
      | some =>
        simp only [howner, deadOps, releases_append, releases_ofOps, nil_append] at hx ⊢
        exact hrel _ rfl hx
      | none =>
        simp only [howner, orphanOps, releases_append, releases_ofOps, nil_append] at hx ⊢
        exact hrel _ rfl hx
  rw [releases_flatMap]
  refine nodup_flatMap_of_inj hok.nodup.of_map (fun p hp => ?_) fun p hp p' hp' x hx hx' => ?_
  · cases hx : releases (ops s.store t error p) with
    | nil => exact nodup_nil
    | cons x =>
      rw [← hx, (hone p x (by simp [hx]) hp).2]
      exact nodup_singleton _
  · have hhead := (hone p x hx hp).1
    rw [(hone p' x hx' hp').1] at hhead
    obtain ⟨h1, h2⟩ := Slot.head.inj (Option.some.inj hhead)
    exact inj_on_of_nodup_map hok.nodup hp hp' (Prod.ext h1.symm h2.symm)

/-- A move of the batch is that of a row, or one of the hand-over of the lane it heads. -/
theorem Inv.mem_picks (hm : m ∈ track T (ps.flatMap (Pick.moves s.store t error durable))) :
    ∃ p ∈ ps, (m ∈ Pick.own s.store t error p ∧ T p.1.id.1 = true) ∨
      ∃ l, m ∈ handMoves p.1.ord l t (some p.1.id) (nextHead s.store p.1.ord l durable) ∧
        T p.1.id.1 = true ∧ g.cells.get (.head p.1.ord l) = some (.head p.1.id.1 p.1.id.2) ∧
        (∀ m' ∈ handMoves p.1.ord l t (some p.1.id) (nextHead s.store p.1.ord l durable),
          m' ∈ track T (ps.flatMap (Pick.moves s.store t error durable))) ∧
        .row p.1.id.1 p.1.id.2 ∈ (track T (ps.flatMap (Pick.moves s.store t error durable))).map
        Move.cell := by
  obtain ⟨hm, hT⟩ := mem_track.1 hm
  obtain ⟨p, hp, hm⟩ := mem_flatMap.1 hm
  refine ⟨p, hp, ?_⟩
  rcases mem_append.1 hm with hm | hm
  · rw [(mem_own hm).1] at hT
    exact .inl ⟨hm, hT⟩
  rcases p.1.lanes_cases s.store t durable with hnil | ⟨row, l, key, hload, hlane, hheads, hhand⟩
  · rw [hnil] at hm
    cases hm
  rw [hhand] at hm
  obtain ⟨hTp, hhead⟩ := h.pick_head (hok.present p hp) hload hlane hheads
  refine .inr ⟨l, hm, hTp, hhead, fun m' hm' => ?_, ?_⟩
  · exact mem_track.2 ⟨mem_flatMap.2 ⟨p, hp, mem_append_right _ (hhand ▸ hm')⟩,
      hand_tracked h.models h.good h.plain hm'⟩
  obtain ⟨m', hm'⟩ : ∃ m', m' ∈ own s.store t error p := own_ne_nil hload
  have hcell := (mem_own hm').1
  rw [← hcell]
  refine mem_map_of_mem (mem_track.2 ⟨mem_flatMap.2 ⟨p, hp, mem_append_left _ hm'⟩, ?_⟩)
  rw [hcell]
  exact hTp

theorem Inv.ready_deadLetter :
    Ready T s.nextSeq s.kept g.cells
    (buildOps s.store t durable (ps.flatMap (Pick.ops s.store t error)))
      (track T (ps.flatMap (Pick.moves s.store t error durable))) := by
  refine h.ready (does_deadLetter (h.picks_releases hok) (h.picks_nodup hok)) (fun m hm => ?_)
    (fun m hm => (mem_track.1 hm).2) (fun m hm => ?_) (fun m hm => ?_) (fun m hm => ?_) ?_
  · obtain ⟨p, hp, ⟨hown, hT⟩ | ⟨l, hhand, -, hhead, -, -⟩⟩ := h.mem_picks hok hm
    · obtain ⟨hcell, hsrc, -⟩ := mem_own hown
      obtain ⟨v, hv⟩ := h.read_pick (hok.present p hp) hT
      rw [hcell, hsrc, hv]
      rfl
    · refine hand_fits h.models h.good h.plain ?_ m hhand
      rw [hhead]
      rfl
  · obtain ⟨p, hp, ⟨hown, -⟩ | ⟨l, hhand, -⟩⟩ := h.mem_picks hok hm
    · obtain ⟨hcell, hsrc, -⟩ := mem_own hown
      unfold Old
      rw [hcell, hsrc]
      exact ⟨fun hnone => (nomatch hnone),
        fun o t src id he => p.1.not_dead o t src id (Obs.row.inj he)⟩
    · exact hand_old h.models h.good h.plain _ hhand
  · obtain ⟨p, hp, hcase⟩ := h.mem_picks hok hm
    -- a row that is due or a member is not in flight
    have hplace : ∀ o n, p.1.place ≠ .inflight o n := by
      intro o n
      cases p.1 <;> simp [place]
    rcases hcase with ⟨hown, hT⟩ | ⟨l, hhand, hT, hhead, -, -⟩
    · rw [(mem_own hown).1]
      obtain ⟨v, hv⟩ := h.read_pick (hok.present p hp) hT
      exact h.relied.left.not_row s.held_kept hT (congrArg obs hv) hplace
    refine h.hand_apart (h.head_apart fun q i n hget _ hobs => ?_) hhand
    rw [hhead] at hget
    obtain ⟨rfl, rfl⟩ := Slot.head.inj (Option.some.inj hget)
    obtain ⟨v, hv⟩ := h.read_pick (hok.present p hp) hT
    rw [hv] at hobs
    exact hplace _ _ (Obs.row.inj hobs)
  · obtain ⟨p, hp, ⟨hown, -⟩ | ⟨l, hhand, -, -, hall, hrow⟩⟩ := h.mem_picks hok hm
    · exact .lays (mem_own hown).2.2
    · exact hand_sound h.models h.good h.plain hall
        (fun r hr => .inl (Option.some.inj hr ▸ hrow)) hhand
  · unfold buildOps
    rw [expand_eq_flatMap _ _ _ _ _ (h.picks_releases hok) fun _ _ => not_mem_nil, flatMap_assoc]
    exact plainOp_coalesce (forall_mem_flatMap.2 fun p _ => h.plainOp_pick)

end Picks

/-! ## Purges -/

/-- A row purged from its place. -/
def purgeMove (x : (Nat × Nat) × Place) : Move Cell Slot Obs :=
  rowMove x.1.1 x.1.2 (some x.2) none none

theorem mem_headMoves {ord : Nat}
    (h : m ∈ headMoves st ord r) : ∃ row l key, st.get (.delivery r.1 r.2) = some (.row row) ∧
      row.lane = some (l, key) ∧ m = headMove ord l (some r) none ∧ headMoves st ord r = [m] := by
  unfold headMoves at h ⊢
  split at h
  next row hrow =>
    split at h
    next l key hlane =>
      obtain rfl := mem_singleton.1 h
      exact ⟨row, l, key, hrow, hlane, rfl, rfl⟩
    · cases h
  · cases h

/-- The rows of a purge, and the lane heads among them that go along. -/
structure PurgeOk (T : Nat → Bool) (s : State) (g : Ghost) (ord : Nat) (heads : List (Nat × Nat))
    (rows : List ((Nat × Nat) × Place)) : Prop where
  nodup : (rows.map Prod.fst).Nodup
  heads_nodup : heads.Nodup
  read : ∀ x ∈ rows, T x.1.1 = true → ∃ v, g.cells.get (.row x.1.1 x.1.2) = some (.row v x.2)
  alive : ∀ x ∈ rows, ∀ o t src id, x.2 ≠ .dead o t src id
  heads : ∀ r ∈ heads, ∃ x ∈ rows, x.1 = r ∧ x.2.live = true ∧ x.2.ord = ord
  apart : ∀ x ∈ rows, T x.1.1 = true → ∀ c ∈ s.kept, Cell.row x.1.1 x.1.2 ≠ c.1

section Purge

variable {ord : Nat} {heads : List (Nat × Nat)} {rows : List ((Nat × Nat) × Place)} (h : Inv T s g)
  (hok : PurgeOk T s g ord heads rows)

include h hok

theorem Inv.purge_head (hr : r ∈ heads)
    (hrow : s.store.get (.delivery r.1 r.2) = some (.row row)) (hlane : row.lane = some (l, key)) :
    T r.1 = true ∧ g.cells.get (.head ord l) = some (.head r.1 r.2) ∧ ∃ x ∈ rows, x.1 = r := by
  have hT : T r.1 = true := h.plain.rows _ _ row hrow (by simp [hlane])
  obtain ⟨x, hx, rfl, hlive, rfl⟩ := hok.heads r hr
  obtain ⟨v, hv⟩ := hok.read x hx hT
  have hbody := body_of_cell h.models h.good hT hv
  rw [hrow] at hbody
  cases hbody
  exact ⟨hT, h.good.headed _ _ row x.2 l key hv hlive hlane, x, hx, rfl⟩

theorem Inv.purge_nodup :
    ((track T (heads.flatMap (headMoves s.store ord) ++ rows.map purgeMove)).map
    Move.cell).Nodup := by
  rw [track_append]
  refine nodup_append_cells (nodup_track ?_) (nodup_rows hok.nodup fun x => rfl) fun m hm m' hm' =>
    ?_
  · refine nodup_flatMap_cells hok.heads_nodup (fun r _ => ?_) fun r hr r' hr' m hm m' hm' hcell =>
      ?_
    · cases hms : headMoves s.store ord r with
      | nil => exact nodup_nil
      | cons m =>
        have hmem : m ∈ headMoves s.store ord r := by simp [hms]
        obtain ⟨row, l, key, -, -, -, hone⟩ := mem_headMoves hmem
        rw [← hms, hone]
        exact nodup_singleton _
    · obtain ⟨row, l, key, hrow, hlane, rfl, -⟩ := mem_headMoves hm
      obtain ⟨row', l', key', hrow', hlane', rfl, -⟩ := mem_headMoves hm'
      obtain ⟨-, rfl⟩ := Cell.head.inj hcell
      have hhead := (h.purge_head hok hr hrow hlane).2.1
      rw [(h.purge_head hok hr' hrow' hlane').2.1] at hhead
      obtain ⟨h1, h2⟩ := Slot.head.inj (Option.some.inj hhead)
      exact Prod.ext h1.symm h2.symm
  · obtain ⟨r, -, hm⟩ := mem_flatMap.1 (mem_track.1 hm).1
    obtain ⟨row, l, key, -, -, rfl, -⟩ := mem_headMoves hm
    obtain ⟨x, -, rfl⟩ := mem_map.1 (mem_track.1 hm').1
    exact fun hcell => nomatch hcell

theorem Inv.ready_purge {ms : Moves}
    (hms : ms = heads.flatMap (headMoves s.store ord) ++ rows.map purgeMove)
    (hdoes : ((track T ms).map Move.cell).Nodup → (tracked T).Does ops (track T ms))
    (hplain : ∀ op ∈ ops, PlainOp T op) : Ready T s.nextSeq s.kept g.cells ops (track T ms) := by
  subst hms
  have hcases : ∀ m ∈ track T (heads.flatMap (headMoves s.store ord) ++ rows.map purgeMove),
      (∃ x ∈ rows, m = purgeMove x ∧ T x.1.1 = true) ∨ ∃ r l, m = headMove ord l (some r) none ∧
        T r.1 = true ∧ g.cells.get (.head ord l) = some (.head r.1 r.2) ∧ ∃ x ∈ rows, x.1 = r := by
    intro m hm
    obtain ⟨hm, hT⟩ := mem_track.1 hm
    rcases mem_append.1 hm with hm | hm
    · obtain ⟨r, hr, hm⟩ := mem_flatMap.1 hm
      obtain ⟨row, l, key, hrow, hlane, rfl, -⟩ := mem_headMoves hm
      exact .inr ⟨r, l, rfl, h.purge_head hok hr hrow hlane⟩
    · obtain ⟨x, hx, rfl⟩ := mem_map.1 hm
      exact .inl ⟨x, hx, rfl, hT⟩
  refine h.ready (hdoes (h.purge_nodup hok)) (fun m hm => ?_) (fun m hm => (mem_track.1 hm).2)
    (fun m hm => ?_) (fun m hm => ?_) (fun m hm => ?_) hplain
  · rcases hcases m hm with ⟨x, hx, rfl, hT⟩ | ⟨r, l, rfl, -, hhead, -⟩
    · obtain ⟨v, hv⟩ := hok.read x hx hT
      show obs (g.cells.get (.row x.1.1 x.1.2)) = _
      rw [hv]
      rfl
    · show obs (g.cells.get (.head ord l)) = _
      rw [hhead]
      rfl
  · rcases hcases m hm with ⟨x, hx, rfl, -⟩ | ⟨r, l, rfl, -⟩
    · exact ⟨fun hnone => (nomatch hnone),
        fun o t src id he => hok.alive x hx o t src id (Obs.row.inj he)⟩
    · trivial
  · rcases hcases m hm with ⟨x, hx, rfl, hT⟩ | ⟨r, l, rfl, hT, hhead, x, hx, rfl⟩
    · exact hok.apart x hx hT
    · intro c hc hcell
      obtain ⟨q, i, n, hget, -, hrow, -⟩ := h.relied.left.head_inflight s.held_kept hc hcell.symm
      rw [hhead] at hget
      obtain ⟨rfl, rfl⟩ := Slot.head.inj (Option.some.inj hget)
      exact hok.apart x hx hT _ hrow rfl
  · rcases hcases m hm with ⟨x, hx, rfl, -⟩ | ⟨r, l, rfl, hT, -, x, hx, rfl⟩
    · exact .lays (.gone ..)
    · refine .leave ord l x.1.1 x.1.2 none (.inl ?_)
      refine mem_map_of_mem (a := purgeMove x) (mem_track.2 ⟨?_, hT⟩)
      exact mem_append_right _ (mem_map_of_mem hx)

omit h hok

theorem plainOp_heads {pairs : List (Nat × Nat)} : ∀ op ∈ headOps st ord pairs, PlainOp T op := by
  refine forall_mem_flatMap.2 fun r _ => ?_
  split
  · split
    · exact forall_mem_cons.2 ⟨trivial, plainOp_counters⟩
    · exact forall_mem_nil _
  · exact forall_mem_nil _

theorem plainOp_purgeRow {k : Key} {q i : Nat} {ds : List Counters.Delta} :
    ∀ op ∈ purgeRow k q i ds, PlainOp T op :=
  forall_mem_append.2 ⟨by simp [PlainOp], plainOp_counters⟩

end Purge

/-- A due row and its place. -/
def dueRow (d : Due) : (Nat × Nat) × Place := ((d.seq, d.sink), .due d.ord d.time d.size d.kind)

/-- A row in flight and its place. -/
def claimedRow (ord : Nat) (c : Claimed) : (Nat × Nat) × Place :=
  ((c.seq, c.sink), .inflight ord c.size)

/-- A lane member and its place. -/
def memberRow (ord : Nat) (m : Member) : (Nat × Nat) × Place :=
  ((m.seq, m.sink), .member ord m.lane m.size)

theorem Inv.ready_purgeDue (h : Inv T s g) {ord : Nat} {rows : List Due}
    (hdues : duesOk s.store rows = true) (hord : ∀ d ∈ rows, d.ord = ord) :
    Ready T s.nextSeq s.kept g.cells (purgeDue s.store ord rows)
      (track T (purgeDueMoves s.store ord rows)) := by
  obtain ⟨hnodup, hdue⟩ := duesOk_spec hdues
  have hread : ∀ d ∈ rows, T d.seq = true →
      ∃ v, g.cells.get (.row d.seq d.sink) = some (.row v (.due d.ord d.time d.size d.kind)) :=
    fun d hd hT => read_due h.models h.good hT (hdue d hd)
  have hok : PurgeOk T s g ord (dueHeads rows) (rows.map dueRow) := {
    nodup := by
      rw [map_map]
      exact hnodup
    heads_nodup := hnodup.sublist (filter_sublist.map _)
    read := forall_mem_map.2 hread
    alive := forall_mem_map.2 fun d _ => by simp [dueRow]
    heads := fun r hr => by
      obtain ⟨d, hd, rfl⟩ := mem_map.1 hr
      have hd := (mem_filter.1 hd).1
      exact ⟨dueRow d, mem_map_of_mem hd, rfl, rfl, hord d hd⟩
    apart := forall_mem_map.2 fun d hd hT => by
      obtain ⟨v, hv⟩ := hread d hd hT
      exact h.relied.left.not_row s.held_kept hT (congrArg obs hv) (by simp) }
  exact h.ready_purge hok (by rw [map_map]; rfl) does_purgeDues
    (plainOp_coalesce
      (forall_mem_append.2 ⟨plainOp_heads, forall_mem_flatMap.2 fun _ _ => plainOp_purgeRow⟩))

theorem Inv.ready_purgeInflight (h : Inv T s g) {ord : Nat} {rows : List Claimed}
    (hnodup : (rows.map fun c => (c.seq, c.sink)).Nodup)
    (hget : ∀ c ∈ rows, s.store.get (.inflight ord c.seq c.sink) = some (.size c.size))
    (hkept : ∀ q i n, (.row q i, .row (.inflight ord n)) ∉ s.kept) :
    Ready T s.nextSeq s.kept g.cells (purgeInflight s.store ord rows)
      (track T (purgeInflightMoves s.store ord rows)) := by
  have hread : ∀ c ∈ rows, T c.seq = true →
      ∃ v, g.cells.get (.row c.seq c.sink) = some (.row v (.inflight ord c.size)) :=
    fun c hc hT => read_inflight h.models h.good hT (hget c hc)
  have hok : PurgeOk T s g ord (claimedPairs rows) (rows.map (claimedRow ord)) := {
    nodup := by
      rw [map_map]
      exact hnodup
    heads_nodup := hnodup
    read := forall_mem_map.2 hread
    alive := forall_mem_map.2 fun c _ => by simp [claimedRow]
    heads := fun r hr => by
      obtain ⟨c, hc, rfl⟩ := mem_map.1 hr
      exact ⟨claimedRow ord c, mem_map_of_mem hc, rfl, rfl, rfl⟩
    apart := forall_mem_map.2 fun c hc hT x hx hcell => by
      -- a row of this tenant in flight is in nobody's memory
      obtain ⟨v, hv⟩ := hread c hc hT
      have hobs := h.relied.left.holds x hx (hcell ▸ hT)
      rw [← hcell] at hobs
      have hobs : obs (g.cells.get (.row c.seq c.sink)) = x.2 := hobs
      rw [hv] at hobs
      refine hkept c.seq c.sink c.size ?_
      have hpair : x = (.row c.seq c.sink, .row (.inflight ord c.size)) :=
        Prod.ext hcell.symm hobs.symm
      exact hpair ▸ hx }
  exact h.ready_purge hok (by rw [map_map]; rfl) does_purgeInflights
    (plainOp_coalesce
      (forall_mem_append.2 ⟨plainOp_heads, forall_mem_flatMap.2 fun _ _ => plainOp_purgeRow⟩))

theorem Inv.ready_purgeMembers (h : Inv T s g) {ord : Nat} {rows : List Member}
    (hnodup : (rows.map fun m => (m.seq, m.sink)).Nodup)
    (hget : ∀ m ∈ rows, s.store.get (.laneMember ord m.lane m.seq m.sink) = some (.size m.size)) :
    Ready T s.nextSeq s.kept g.cells (purgeMembers ord rows)
      (track T (rows.map (memberPurge ord))) := by
  have hread : ∀ m ∈ rows, T m.seq = true →
      ∃ v, g.cells.get (.row m.seq m.sink) = some (.row v (.member ord m.lane m.size)) :=
    fun m hm hT => read_member h.models h.good hT (hget m hm)
  have hok : PurgeOk T s g ord [] (rows.map (memberRow ord)) := {
    nodup := by
      rw [map_map]
      exact hnodup
    heads_nodup := nodup_nil
    read := forall_mem_map.2 hread
    alive := forall_mem_map.2 fun m _ => by simp [memberRow]
    heads := forall_mem_nil _
    apart := forall_mem_map.2 fun m hm hT => by
      obtain ⟨v, hv⟩ := hread m hm hT
      exact h.relied.left.not_row s.held_kept hT (congrArg obs hv) (by simp) }
  exact h.ready_purge hok (by rw [map_map]; rfl) does_purgeMembers
    (plainOp_coalesce (forall_mem_flatMap.2 fun _ _ => plainOp_purgeRow))

end Ankusa.Delivery
