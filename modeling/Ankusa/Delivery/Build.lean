import Ankusa.Delivery.Invariant

set_option autoImplicit false

/-! # The batches the Pipeline builds

Every batch that the Pipeline builds from a store that keeps the invariant is ready to be written
(`Ready`): it makes moves of different cells, which are as the batch expects them, and it leaves the
index good. -/

namespace Ankusa.Delivery

open Deliveries KV List Lanes

/-! ## Moves that leave the index good -/

/-- A move as one of a batch `ms` that is built over the cells `A`. -/
inductive Sound (A : Map Cell Slot) (ms : Moves) : Move Cell Slot Obs → Prop
  | lays {m : Move Cell Slot Obs} (h : Lays m) : Sound A ms m
  /-- A live row stays live, where no head moves. -/
  | carry (q i : Nat) (p p' : Place) (hlive : p.live = true) (hord : p'.ord = p.ord)
      (hfits : ∀ row, A.get (.row q i) = some (.row (.row row) p) → p'.fits row)
      (hheads : ∀ o l, .head o l ∉ ms.map Move.cell) :
      Sound A ms (rowMove q i (some p) none (some p'))
  /-- A row is written again, and stays the head of its lane. -/
  | stay (q i : Nat) (src : Option Place) (row : Row) (p : Place) (hfits : p.fits row)
      (hlane : ∀ l key, row.lane = some (l, key) →
        headMove p.ord l (some (q, i)) (some (q, i)) ∈ ms) :
      Sound A ms (rowMove q i src (some (.row row)) (some p))
  | promote (o : Nat) (l : Lane) (q i n : Nat) (t : Ms) (src : Option (Nat × Nat))
      (hmem : headMove o l src (some (q, i)) ∈ ms) :
      Sound A ms (rowMove q i (some (.member o l n)) none (some (.due o t n .laneFirst)))
  | keep (o : Nat) (l : Lane) (r : Nat × Nat) : Sound A ms (headMove o l (some r) (some r))
  | start (o : Nat) (l : Lane) (dst : Option (Nat × Nat)) : Sound A ms (headMove o l none dst)
  /-- A head is taken from a row that leaves, or that is no live row of the lane. -/
  | leave (o : Nat) (l : Lane) (q i : Nat) (dst : Option (Nat × Nat))
      (h : .row q i ∈ ms.map Move.cell ∨ ∀ row p key, A.get (.row q i) = some (.row (.row row) p) →
        p.live = true → row.lane ≠ some (l, key)) : Sound A ms (headMove o l (some (q, i)) dst)

theorem Lays.shaped {m : Move Cell Slot Obs} (h : Lays m) : Shaped m := by
  cases h with
  | gone | put => exact .row ..

section Sound

variable {A : Map Cell Slot} {ms : Moves} {m : Move Cell Slot Obs}

theorem Sound.shaped (h : Sound A ms m) : Shaped m := by
  cases h with
  | lays h => exact h.shaped
  | carry | stay | promote => exact .row ..
  | keep | start | leave => exact .head ..

theorem Sound.slot (h : Sound A ms m) (hg : Good A)
    (hsrc : obs (A.get m.cell) = m.src) {e : Slot} (he : m.upd (A.get m.cell) = some e) :
    e.ok m.cell := by
  cases h with
  | lays h =>
    cases h with
    | gone => cases he
    | put q i src row p hfits =>
      cases he
      exact hfits
  | carry q i p p' hlive hord hfits =>
    obtain ⟨v, hv⟩ := obs_eq_row.1 hsrc
    rw [hv] at he
    obtain rfl : Slot.row v p' = e := Option.some.inj he
    cases v with
    | row row => exact hfits row hv
    | _ => trivial
  | stay q i src row p hfits =>
    cases he
    exact hfits
  | promote o l q i n t =>
    obtain ⟨v, hv⟩ := obs_eq_row.1 hsrc
    rw [hv] at he
    obtain rfl : Slot.row v (.due o t n .laneFirst) = e := Option.some.inj he
    cases v with
    | row row =>
      have hmember : Place.fits row (.member o l n) := hg.slots _ _ hv
      exact ⟨hmember.1, fun _ => rfl⟩
    | _ => trivial
  | keep =>
    cases he
    trivial
  | start | leave =>
    obtain ⟨r, -, rfl⟩ := Option.map_eq_some_iff.1 he
    trivial

/-- A live row of a lane that a sound move leaves is the lane's head afterwards. -/
theorem Sound.headed (h : Sound A ms m) (hg : Good A)
    (hnodup : (ms.map Move.cell).Nodup) (hsrc : obs (A.get m.cell) = m.src) {q i : Nat} {row : Row}
    {p : Place} {l : Lane} {key : String} (hcell : m.cell = .row q i)
    (he : m.upd (A.get m.cell) = some (.row (.row row) p)) (hlive : p.live = true)
    (hlane : row.lane = some (l, key)) : (A.moves ms).get (.head p.ord l) = some (.head q i) := by
  cases h with
  | lays h =>
    cases h with
    | gone => cases he
    | put q' i' src row' p' hfits hnone =>
      obtain ⟨hr, rfl⟩ : Val.row row' = .row row ∧ p' = p := by simpa using Option.some.inj he
      obtain rfl : row' = row := by simpa using hr
      rw [hnone hlive] at hlane
      cases hlane
  | carry q' i' p₀ p' hlive₀ hord hfits hheads =>
    obtain ⟨rfl, rfl⟩ := Cell.row.inj hcell
    obtain ⟨v, hv⟩ := obs_eq_row.1 hsrc
    rw [hv] at he
    obtain ⟨rfl, rfl⟩ : v = .row row ∧ p' = p := by simpa [rowMove, bodyOf] using he
    rw [Map.get_unmoved (hheads _ _), hord]
    exact hg.headed _ _ row p₀ l key hv hlive₀ hlane
  | stay q' i' src row' p' hfits hstay =>
    obtain ⟨rfl, rfl⟩ := Cell.row.inj hcell
    obtain ⟨hr, rfl⟩ : Val.row row' = .row row ∧ p' = p := by simpa using Option.some.inj he
    obtain rfl : row' = row := by simpa using hr
    exact Map.get_moves_of_mem hnodup (hstay l key hlane)
  | promote o l' q' i' n t src hmem =>
    obtain ⟨rfl, rfl⟩ := Cell.row.inj hcell
    obtain ⟨v, hv⟩ := obs_eq_row.1 hsrc
    rw [hv] at he
    obtain ⟨rfl, rfl⟩ : v = .row row ∧ Place.due o t n .laneFirst = p := by
      simpa [rowMove, bodyOf] using he
    have hmember : Place.fits row (.member o l' n) := hg.slots _ _ hv
    have hl : l = l' := by
      have := hmember.2
      rw [hlane] at this
      exact Option.some.inj this
    subst hl
    exact Map.get_moves_of_mem hnodup hmem
  | keep | start | leave => cases hcell

theorem Good.sound (h : Good A) (hnodup : (ms.map Move.cell).Nodup) (hfits : index.Fits A ms)
    (hsound : ∀ m ∈ ms, Sound A ms m) : Good (A.moves ms) := by
  refine h.moves hnodup (fun m hm e he => (hsound m hm).slot h (hfits m hm) he)
    (fun m hm q i row p l key hcell he hlive hlane =>
      (hsound m hm).headed h hnodup (hfits m hm) hcell he hlive hlane)
    fun m hm o l q i hcell hhead => ?_
  have hsrc : obs (A.get m.cell) = m.src := hfits m hm
  rw [hcell, hhead] at hsrc
  cases hsound m hm with
  | lays h =>
    cases h with
    | gone | put => cases hcell
  | carry | stay | promote => cases hcell
  | keep o' l' r =>
    obtain ⟨rfl, rfl⟩ : q = r.1 ∧ i = r.2 := by simpa [obs, headMove] using hsrc
    exact .inl rfl
  | start => cases hsrc
  | leave o' l' q' i' dst hleave =>
    obtain ⟨rfl, rfl⟩ : q = q' ∧ i = i' := by simpa [obs, headMove] using hsrc
    obtain ⟨-, rfl⟩ := Cell.head.inj hcell
    exact .inr hleave

end Sound

/-! ## Lanes -/

/-- The lane a cell belongs to: its head, or a member. -/
def laneCell (A : Map Cell Slot) : Cell → Option (Nat × Lane)
  | .head o l => some (o, l)
  | .row q i =>
    match A.get (.row q i) with
    | some (.row _ (.member o l _)) => some (o, l)
    | _ => none

theorem laneCell_row {A : Map Cell Slot} {q i : Nat} {v : Val} {p : Place}
    (h : A.get (.row q i) = some (.row v p)) (hp : ∀ o l n, p ≠ .member o l n) :
    laneCell A (.row q i) = none := by
  simp only [laneCell, h]
  cases p with
  | member o l n => exact absurd rfl (hp o l n)
  | due | inflight | dead => rfl

section Hand

variable {T : Nat → Bool} {s : Store} {A : Map Cell Slot} (hm : (tracked T).Models s A)
  (hg : Good A)
  (hp : Plain T s) {o : Nat} {l : Lane} {t : Ms} {durable : Nat} {src : Option (Nat × Nat)}

theorem nextHead_first {m : Nat × Nat × Nat} (h : nextHead s o l durable = some m) :
    firstMember s o l = some m := (Option.filter_eq_some_iff.1 h).1

include hm hg hp in
theorem read_nextHead {q i n : Nat} (h : nextHead s o l durable = some (q, i, n)) :
    T q = true ∧ ∃ v, A.get (.row q i) = some (.row v (.member o l n)) := by
  have hget := mem_members (firstMember_mem (nextHead_first h))
  have hT : T q = true := hp.members o l q i (by rw [hget]; simp)
  exact ⟨hT, read_member hm hg hT hget⟩

variable {m : Move Cell Slot Obs}

include hm hg hp in
/-- A lane passed on: its head moves, and with it a member that is promoted. -/
theorem mem_hand (h : m ∈ handMoves o l t src (nextHead s o l durable)) :
    (∃ dst, m = headMove o l src dst) ∨ ∃ q i n v,
      m = rowMove q i (some (.member o l n)) none (some (.due o t n .laneFirst)) ∧ T q = true ∧
      A.get (.row q i) = some (.row v (.member o l n)) ∧
      headMove o l src (some (q, i)) ∈ handMoves o l t src (nextHead s o l durable) := by
  cases hnext : nextHead s o l durable with
  | none =>
    rw [hnext] at h
    exact .inl ⟨none, mem_singleton.1 h⟩
  | some next =>
    obtain ⟨q, i, n⟩ := next
    rw [hnext] at h
    simp only [handMoves, promoteMoves, mem_cons, not_mem_nil, or_false] at h ⊢
    obtain ⟨hT, v, hv⟩ := read_nextHead hm hg hp hnext
    rcases h with rfl | rfl
    · exact .inr ⟨q, i, n, v, rfl, hT, hv, .inr rfl⟩
    · exact .inl ⟨some (q, i), rfl⟩

theorem hand_nodup (next : Option (Nat × Nat × Nat)) :
    ((handMoves o l t src next).map Move.cell).Nodup := by
  rcases next with _ | ⟨q, i, n⟩
  · exact nodup_singleton _
  · simp [handMoves, promoteMoves]

include hm hg hp

section

variable (h : m ∈ handMoves o l t src (nextHead s o l durable))
include h

theorem hand_laneCell : laneCell A m.cell = some (o, l) := by
  rcases mem_hand hm hg hp h with ⟨dst, rfl⟩ | ⟨q, i, n, v, rfl, -, hv, -⟩
  · rfl
  · rw [rowMove_cell, laneCell, hv]

theorem hand_tracked : tracks T m.cell = true := by
  rcases mem_hand hm hg hp h with ⟨dst, rfl⟩ | ⟨q, i, n, v, rfl, hT, -, -⟩
  · rfl
  · exact hT

end

theorem track_hand : track T (handMoves o l t src (nextHead s o l durable)) =
    handMoves o l t src (nextHead s o l durable) :=
  filter_eq_self.2 fun _ h => hand_tracked hm hg hp h

theorem hand_fits (hsrc : obs (A.get (.head o l)) = src.elim .none fun r => .head r.1 r.2) :
    index.Fits A (handMoves o l t src (nextHead s o l durable)) := by
  intro m h
  rcases mem_hand hm hg hp h with ⟨dst, rfl⟩ | ⟨q, i, n, v, rfl, -, hv, -⟩
  · exact hsrc
  · show obs (A.get (.row q i)) = _
    rw [hv]
    rfl

theorem hand_old (next : Nat) (h : m ∈ handMoves o l t src (nextHead s o l durable)) :
    Old next m := by
  rcases mem_hand hm hg hp h with ⟨dst, rfl⟩ | ⟨q, i, n, v, rfl, -, -, -⟩
  · trivial
  · exact ⟨fun hnone => (nomatch hnone), fun _ _ _ _ he => (nomatch he)⟩

/-- A lane may be passed on by a row that leaves, by one that is not its live head, or by none. -/
theorem hand_sound {ms : Moves} (hsub : ∀ m ∈ handMoves o l t src (nextHead s o l durable), m ∈ ms)
    (hsrc : ∀ r, src = some r → .row r.1 r.2 ∈ ms.map Move.cell ∨
      ∀ row p key, A.get (.row r.1 r.2) = some (.row (.row row) p) → p.live = true →
        row.lane ≠ some (l, key)) (h : m ∈ handMoves o l t src (nextHead s o l durable)) :
          Sound A ms m := by
  rcases mem_hand hm hg hp h with ⟨dst, rfl⟩ | ⟨q, i, n, v, rfl, -, -, hhead⟩
  · cases src with
    | none => exact .start o l dst
    | some r => exact .leave o l r.1 r.2 dst (hsrc r rfl)
  · exact .promote o l q i n t src (hsub _ hhead)

end Hand

/-! ## What is relied on -/

section Relied

variable {T : Nat → Bool} {A : Map Cell Slot} {hs : List (Cell × Obs)} (hrelied : Relied T A hs)
  (hheld : Held hs)

include hrelied hheld

theorem Relied.not_row {q i : Nat} {p : Place} (hT : T q = true)
    (hobs : obs (A.get (.row q i)) = .row p) (hp : ∀ o n, p ≠ .inflight o n) :
    ∀ c ∈ hs, Cell.row q i ≠ c.1 := by
  intro c hc hcell
  have hholds := hrelied.holds c hc (hcell ▸ hT)
  rw [← hcell, hobs] at hholds
  rcases hheld c hc with ⟨q', i', o, n, rfl⟩ | ⟨o, l, q', i', n, rfl, -⟩ |
    ⟨q', i', i'', o, n, rfl, -⟩
  · exact hp o n (Obs.row.inj hholds)
  · cases hholds
  · cases hholds

/-- A head that is relied on names a row of its tenant in flight. -/
theorem Relied.head_inflight {o : Nat} {l : Lane} {c : Cell × Obs} (hc : c ∈ hs)
    (hcell : c.1 = .head o l) : ∃ q i n, A.get (.head o l) = some (.head q i) ∧ T q = true ∧
      (.row q i, .row (.inflight o n)) ∈ hs ∧ obs (A.get (.row q i)) = .row (.inflight o n) := by
  rcases hheld c hc with ⟨q, i, o', n, rfl⟩ | ⟨o', l', q, i, n, rfl, hrow⟩ |
    ⟨q, i, i', o', n, rfl, -⟩
  · cases hcell
  · obtain ⟨rfl, rfl⟩ := Cell.head.inj hcell
    have hT := hrelied.lanes _ _ q i hc
    exact ⟨q, i, n, obs_eq_head.1 (hrelied.holds _ hc rfl), hT, hrow, hrelied.holds _ hrow hT⟩
  · cases hcell

end Relied

theorem State.held_kept (s : State) : Held s.kept :=
  Held.append (.flatMap fun j _ => j.held) (.flatMap fun r _ => r.held)

/-! ## Different cells -/

variable {c : Cell × Obs} {α : Type} {xs : List α}

theorem nodup_flatMap_of_inj {β : Type} {f : α → List β} (hxs : xs.Nodup)
    (hone : ∀ x ∈ xs, (f x).Nodup) (hinj : ∀ x ∈ xs, ∀ y ∈ xs, ∀ b ∈ f x, b ∈ f y → x = y) :
    (xs.flatMap f).Nodup := by
  rw [nodup_flatMap]
  exact ⟨hone, hxs.pairwise_of_forall_ne fun x hx y hy hne b hb hb' =>
    hne (hinj x hx y hy b hb hb')⟩

theorem nodup_flatMap_cells {f : α → Moves} (hxs : xs.Nodup)
    (hone : ∀ x ∈ xs, ((f x).map Move.cell).Nodup)
    (hinj : ∀ x ∈ xs, ∀ y ∈ xs, ∀ m ∈ f x, ∀ m' ∈ f y, m.cell = m'.cell → x = y) :
    ((xs.flatMap f).map Move.cell).Nodup := by
  rw [map_flatMap]
  refine nodup_flatMap_of_inj hxs hone fun x hx y hy c hc hc' => ?_
  obtain ⟨m, hm, rfl⟩ := mem_map.1 hc
  obtain ⟨m', hm', hcell⟩ := mem_map.1 hc'
  exact hinj x hx y hy m hm m' hm' hcell.symm

theorem nodup_track {T : Nat → Bool} {ms : Moves} (h : (ms.map Move.cell).Nodup) :
    ((track T ms).map Move.cell).Nodup := h.sublist (filter_sublist.map _)

theorem nodup_append_cells {ms ms' : Moves} (h : (ms.map Move.cell).Nodup)
    (h' : (ms'.map Move.cell).Nodup) (hdis : ∀ m ∈ ms, ∀ m' ∈ ms', m.cell ≠ m'.cell) :
    ((ms ++ ms').map Move.cell).Nodup := by
  rw [map_append]
  refine nodup_append.2 ⟨h, h', fun a ha b hb => ?_⟩
  obtain ⟨m, hm, rfl⟩ := mem_map.1 ha
  obtain ⟨m', hm', rfl⟩ := mem_map.1 hb
  exact hdis m hm m' hm'

/-! ## Claims -/

section Build

variable {T : Nat → Bool} {s : State} {g : Ghost}

theorem nodup_rows {id : α → Nat × Nat} {move : α → Move Cell Slot Obs}
    (hid : (xs.map id).Nodup) (hcell : ∀ x, (move x).cell = .row (id x).1 (id x).2) :
    ((track T (xs.map move)).map Move.cell).Nodup := by
  rw [map_cell_track, map_map]
  have hcells : xs.map (Move.cell ∘ move) = (xs.map id).map fun r => Cell.row r.1 r.2 := by
    rw [map_map]
    exact map_congr_left fun x _ => hcell x
  rw [hcells]
  exact (hid.map fun a b hab => Prod.ext (Cell.row.inj hab).1 (Cell.row.inj hab).2).filter _

/-- A batch that moves nothing but rows, each to a live place of the same tenant. -/
theorem Inv.ready_carry (h : Inv T s g) {ops : List Op} {ms : Moves}
    (hdoes : (tracked T).Does ops (track T ms)) (hplain : ∀ op ∈ ops, PlainOp T op)
    (hrow : ∀ m ∈ ms, ∃ q i p p' v, m = rowMove q i (some p) none (some p') ∧ p.live = true ∧
      p'.ord = p.ord ∧ (T q = true → g.cells.get (.row q i) = some (.row v p)) ∧
      ∀ row, v = .row row → p'.fits row) (hapart : ∀ m ∈ track T ms, ∀ c ∈ s.kept, m.cell ≠ c.1) :
    Ready T s.nextSeq s.kept g.cells ops (track T ms) := by
  have hfits : index.Fits g.cells (track T ms) := by
    intro m hm
    obtain ⟨hm, hT⟩ := mem_track.1 hm
    obtain ⟨q, i, p, p', v, rfl, -, -, hget, -⟩ := hrow m hm
    show obs (g.cells.get (.row q i)) = _
    rw [hget hT]
    rfl
  have hsound : ∀ m ∈ track T ms, Sound g.cells (track T ms) m := by
    intro m hm
    obtain ⟨hm, hT⟩ := mem_track.1 hm
    obtain ⟨q, i, p, p', v, rfl, hlive, hord, hget, hkeep⟩ := hrow m hm
    refine .carry q i p p' hlive hord (fun row hcell => ?_) fun o l hmem => ?_
    · rw [hget hT] at hcell
      exact hkeep row (Slot.row.inj (Option.some.inj hcell)).1
    · obtain ⟨m', hm', hcell⟩ := mem_map.1 hmem
      obtain ⟨q', i', p₁, p₂, v', rfl, -⟩ := hrow m' (mem_track.1 hm').1
      cases hcell
  exact {
    does := hdoes
    fits := hfits
    old := fun m hm => by
      obtain ⟨q, i, p, p', v, rfl, hlive, -⟩ := hrow m (mem_track.1 hm).1
      refine ⟨fun hnone => (nomatch hnone), fun o t src id he => ?_⟩
      obtain rfl : p = .dead o t src id := Obs.row.inj he
      cases hlive
    shaped := fun m hm => (hsound m hm).shaped
    tracked := fun m hm => (mem_track.1 hm).2
    apart := hapart
    good := h.good.sound hdoes.nodup hfits hsound
    plain := hplain }

theorem plainOp_claim (dues : List Due) : ∀ op ∈ claim dues, PlainOp T op := by
  refine plainOp_coalesce (forall_mem_flatMap.2 fun d _ =>
    forall_mem_append.2 ⟨?_, plainOp_counters⟩)
  simp [PlainOp]

variable {st : Store} {dues : List Due} {l : Lane}

theorem duesOk_spec (h : duesOk st dues = true) : (dues.map fun d => (d.seq, d.sink)).Nodup ∧
      ∀ d ∈ dues, st.get (.due d.ord d.time d.seq d.sink) = some (.due d.size d.kind) := by
  simpa [duesOk] using h

theorem Inv.ready_claim (h : Inv T s g) (hok : duesOk s.store dues = true) :
    Ready T s.nextSeq s.kept g.cells (claim dues) (track T (dues.map claimMove)) := by
  obtain ⟨hnodup, hdue⟩ := duesOk_spec hok
  refine h.ready_carry (does_claims (nodup_rows hnodup fun d => rfl)) (plainOp_claim dues)
    (fun m hm => ?_) fun m hm => ?_
  · obtain ⟨d, hd, rfl⟩ := mem_map.1 hm
    by_cases hT : T d.seq = true
    · obtain ⟨v, hv⟩ := read_due h.models h.good hT (hdue d hd)
      refine ⟨_, _, _, _, v, rfl, rfl, rfl, fun _ => hv, fun row hrow => ?_⟩
      subst hrow
      have hfits : Place.fits row (.due d.ord d.time d.size d.kind) := h.good.slots _ _ hv
      exact hfits.1
    · exact ⟨_, _, _, _, .empty, rfl, rfl, rfl, fun hT' => absurd hT' hT,
        fun row hrow => by cases hrow⟩
  · obtain ⟨hm, hT⟩ := mem_track.1 hm
    obtain ⟨d, hd, rfl⟩ := mem_map.1 hm
    obtain ⟨v, hv⟩ := read_due h.models h.good hT (hdue d hd)
    exact h.relied.left.not_row s.held_kept hT (congrArg obs hv) (by simp)

theorem plainOp_recover (st : Store) (now : Ms) : ∀ op ∈ recoverInflight st now, PlainOp T op := by
  refine plainOp_coalesce (forall_mem_flatMap.2 fun e _ => ?_)
  split
  · exact forall_mem_cons.2 ⟨trivial,
      forall_mem_append.2 ⟨by simp [dueOps, PlainOp], plainOp_counters⟩⟩
  · exact forall_mem_nil _

variable {m : Move Cell Slot Obs}

theorem mem_recoverMoves {now : Ms} {e : Sigma fun _ : Key => Val}
    (h : m ∈ backMoves st now e) : ∃ o q i n, e = ⟨.inflight o q i, .size n⟩ ∧
      m = rowMove q i (some (.inflight o n)) none (some (.due o now n (recoverKind st q i))) := by
  obtain ⟨k, v⟩ := e
  cases k with
  | inflight o q i =>
    cases v with
    | size n => exact ⟨o, q, i, n, rfl, mem_singleton.1 h⟩
    | _ => cases h
  | _ => cases h

theorem Inv.ready_recover (h : Inv T s g) (now : Ms) (hempty : s.kept = []) :
    Ready T s.nextSeq s.kept g.cells (recoverInflight s.store now)
      (track T (recoverMoves s.store now)) := by
  have hread : ∀ e ∈ s.store.entries, ∀ o q i n, e = ⟨.inflight o q i, .size n⟩ → T q = true →
      ∃ v, g.cells.get (.row q i) = some (.row v (.inflight o n)) := by
    rintro e he o q i n rfl hT
    exact read_inflight h.models h.good hT (Map.get_of_mem_entries he)
  have hnodup : ((track T (recoverMoves s.store now)).map Move.cell).Nodup := by
    unfold recoverMoves
    rw [track_flatMap]
    refine nodup_flatMap_cells (s.store.nodupKeys.nodup) (fun e _ => ?_)
      fun e he e' he' m hm m' hm' hcell => ?_
    · obtain ⟨k, v⟩ := e
      cases k with
      | inflight =>
        cases v with
        | size => exact nodup_track (nodup_singleton _)
        | _ => exact nodup_nil
      | _ => exact nodup_nil
    · obtain ⟨hm, hT⟩ := mem_track.1 hm
      obtain ⟨hm', hT'⟩ := mem_track.1 hm'
      obtain ⟨o, q, i, n, rfl, rfl⟩ := mem_recoverMoves hm
      obtain ⟨o', q', i', n', rfl, rfl⟩ := mem_recoverMoves hm'
      obtain ⟨rfl, rfl⟩ := Cell.row.inj hcell
      obtain ⟨v, hv⟩ := hread _ he _ _ _ _ rfl hT
      obtain ⟨v', hv'⟩ := hread _ he' _ _ _ _ rfl hT'
      rw [hv] at hv'
      obtain ⟨-, rfl, rfl⟩ : v = v' ∧ o = o' ∧ n = n' := by simpa using hv'
      rfl
  refine h.ready_carry (does_recoverInflight hnodup) (plainOp_recover _ _) (fun m hm => ?_) ?_
  · obtain ⟨e, he, hm⟩ := mem_flatMap.1 hm
    obtain ⟨o, q, i, n, rfl, rfl⟩ := mem_recoverMoves hm
    by_cases hT : T q = true
    · obtain ⟨v, hv⟩ := hread _ he _ _ _ _ rfl hT
      refine ⟨_, _, _, _, v, rfl, rfl, rfl, fun _ => hv, fun row hrow => ?_⟩
      subst hrow
      have hfits : Place.fits row (.inflight o n) := h.good.slots _ _ hv
      refine ⟨hfits, fun hlane => ?_⟩
      have hbody := body_of_cell h.models h.good hT hv
      simp [recoverKind, hbody, hlane, headKind]
    · exact ⟨_, _, _, _, .empty, rfl, rfl, rfl, fun hT' => absurd hT' hT,
        fun row hrow => by cases hrow⟩
  · rw [hempty]
    exact fun _ _ c hc => absurd hc not_mem_nil

/-! ## Outcomes -/

/-- The row the result is of. -/
def Result.id : Result → Nat × Nat
  | .delivered j | .retry j _ _ | .dead j _ _ _ _ => (j.seq, j.sink)
  | .orphan _ seq sink _ _ | .expand _ seq sink _ _ _ _ _ => (seq, sink)

/-- The size the row was claimed with. -/
def Result.size : Result → Nat
  | .delivered j | .retry j _ _ | .dead j _ _ _ _ => j.size
  | .orphan _ _ _ size _ | .expand _ _ _ size _ _ _ _ => size

/-- The row an outcome knows. -/
def Result.row : Result → Option Row
  | .delivered j | .retry j _ _ | .dead j _ _ _ _ => some j.row
  | .orphan _ _ _ _ row => row
  | .expand _ _ _ _ _ _ _ _ => none

theorem Result.claimed_mem (r : Result) :
    (.row r.id.1 r.id.2, .row (.inflight r.ord r.size)) ∈ r.relies := by
  cases r <;> exact mem_cons_self

variable {r : Result}

theorem Result.head_mem {key : String}
    (h : r.row.bind Row.lane = some (l, key)) :
    (.head r.ord l, .head r.id.1 r.id.2) ∈ r.relies := by
  have hlane : (Cell.head r.ord l, Obs.head r.id.1 r.id.2) ∈ laneRelies r.ord r.row r.id := by
    simp [laneRelies, h]
  cases r with
  | delivered | retry | dead j time error class? owner | orphan => exact mem_cons_of_mem _ hlane
  | expand => cases h

theorem Result.own_sublist (r : Result) :
    (r.own.map fun m => (m.cell, m.src)).Sublist r.relies := by
  cases r with
  | delivered | retry | dead j time error class? owner | orphan => exact (nil_sublist _).cons_cons _
  | expand =>
    refine List.Sublist.cons_cons _ ?_
    rw [freshMoves, map_map]
    exact .refl _

theorem Result.own_relies (h : m ∈ r.own) : (m.cell, m.src) ∈ r.relies :=
  r.own_sublist.subset (mem_map_of_mem h)

theorem Result.own_row (h : m ∈ r.own) : ∃ q i, m.cell = .row q i := by
  cases r with
  | expand =>
    rcases mem_cons.1 h with rfl | h
    · exact ⟨_, _, rfl⟩
    · obtain ⟨p, -, rfl⟩ := mem_map.1 h
      exact ⟨_, _, rfl⟩
  | _ =>
    obtain rfl := mem_singleton.1 h
    exact ⟨_, _, rfl⟩

theorem Result.lanes_cases (st : Store) (t : Ms) (durable : Nat) (r : Result) :
    r.lanes st t durable = [] ∨ ∃ l key, r.row.bind Row.lane = some (l, key) ∧
      (r.lanes st t durable = handMoves r.ord l t (some r.id) (nextHead st r.ord l durable) ∨
        r.lanes st t durable = [headMove r.ord l (some r.id) (some r.id)]) := by
  have hpass : ∀ o row id, passOn st o row id t durable = [] ∨ ∃ l key,
    row.bind Row.lane = some (l, key) ∧
        passOn st o row id t durable = handMoves o l t (some id) (nextHead st o l durable) := by
    intro o row id
    unfold passOn
    split
    · next l key hlane => exact .inr ⟨l, key, hlane, rfl⟩
    · exact .inl rfl
  cases r with
  | retry j =>
    show stayOn j.ord j.row (j.seq, j.sink) = [] ∨ _
    unfold stayOn
    cases hlane : j.row.lane with
    | none => exact .inl rfl
    | some x => exact .inr ⟨x.1, x.2, hlane, .inr (by simp [Result.lanes, stayOn, hlane]; rfl)⟩
  | expand => exact .inl rfl
  | delivered j | dead j time error class? owner =>
    rcases hpass j.ord (some j.row) (j.seq, j.sink) with h | ⟨l, key, hlane, h⟩
    · exact .inl h
    · exact .inr ⟨l, key, hlane, .inl h⟩
  | orphan ord seq sink size row =>
    rcases hpass ord row (seq, sink) with h | ⟨l, key, hlane, h⟩
    · exact .inl h
    · exact .inr ⟨l, key, hlane, .inl h⟩

/-- A member an outcome promotes. -/
def Result.Promotes (A : Map Cell Slot) (t : Ms) (ms : Moves) (r : Result)
    (m : Move Cell Slot Obs) : Prop :=
  ∃ l q i n v, m = rowMove q i (some (.member r.ord l n)) none (some (.due r.ord t n .laneFirst)) ∧
    A.get (.row q i) = some (.row v (.member r.ord l n)) ∧
    headMove r.ord l (some r.id) (some (q, i)) ∈ ms ∧
    (.head r.ord l, .head r.id.1 r.id.2) ∈ r.relies

/-- An outcome moves what it relies on, and the member it promotes. -/
theorem Inv.mem_moves (h : Inv T s g) {t : Ms} {durable : Nat}
    (hm : m ∈ r.moves s.store t durable) :
    (m.cell, m.src) ∈ r.relies ∨ r.Promotes g.cells t (r.moves s.store t durable) m := by
  rcases mem_append.1 hm with hm | hm
  · exact .inl (Result.own_relies hm)
  rcases r.lanes_cases s.store t durable with hnil | ⟨l, key, hlane, hhand | hstay⟩
  · rw [hnil] at hm
    cases hm
  · rw [hhand] at hm
    rcases mem_hand h.models h.good h.plain hm with ⟨dst, rfl⟩ | ⟨q, i, n, v, rfl, -, hv, hhead⟩
    · exact .inl (Result.head_mem hlane)
    · refine .inr ⟨l, q, i, n, v, rfl, hv, ?_, Result.head_mem hlane⟩
      exact mem_append_right _ (hhand ▸ hhead)
  · rw [hstay] at hm
    obtain rfl := mem_singleton.1 hm
    exact .inl (Result.head_mem hlane)

theorem Inv.tracked_lanes (h : Inv T s g) (r : Result) (t : Ms) (durable : Nat) :
    track T (r.lanes s.store t durable) = r.lanes s.store t durable := by
  rcases r.lanes_cases s.store t durable with hnil | ⟨l, key, hlane, hhand | hstay⟩
  · rw [hnil]
    rfl
  · rw [hhand]
    exact track_hand h.models h.good h.plain
  · rw [hstay]
    rfl

variable {o : Nat}

theorem plainOp_due {t : Ms} {q i n : Nat} {kind : Kind} :
    ∀ op ∈ dueOps o t q i n kind, PlainOp T op := by
  simp [dueOps, PlainOp]

theorem plainOp_promote {t : Ms} {q i n : Nat} {replace : Bool} :
    ∀ op ∈ promoteOps o l q i n t replace, PlainOp T op := by
  refine forall_mem_append.2 ⟨forall_mem_append.2 ⟨?_, plainOp_due⟩, plainOp_counters⟩
  simp [PlainOp]

theorem plainOp_release {t : Ms} {durable : Nat} :
    ∀ op ∈ releaseOps st o l t durable, PlainOp T op := by
  have hvacate : ∀ op ∈ vacateOps o l, PlainOp T op := forall_mem_cons.2 ⟨trivial, plainOp_counters⟩
  refine release_rule (P :=
    fun ops _ => ∀ op ∈ ops, PlainOp T op) (fun _ _ _ _ => plainOp_promote) hvacate
    (forall_mem_append.2 ⟨hvacate, ?_⟩)
  simp [PlainOp]

theorem plainOp_releaseOp {row : Option Row} {t : Ms} {durable : Nat} :
    ∀ op ∈ (releaseOp o row).flatMap (expandOne st t durable), PlainOp T op := by
  unfold releaseOp
  rcases row.bind Row.lane with _ | ⟨l, key⟩
  · exact forall_mem_nil _
  · rw [flatMap_singleton]
    exact plainOp_release

theorem Result.plainOp (r : Result)
    (hT : ∀ l key, r.row.bind Row.lane = some (l, key) → T r.id.1 = true)
    (st : Store) (t : Ms) (durable : Nat) :
    ∀ op ∈ r.ops.flatMap (expandOne st t durable), PlainOp T op := by
  cases r with
  | delivered =>
    unfold Result.ops deliveredOps
    rw [flatMap_append, flatMap_ofOps]
    refine forall_mem_append.2 ⟨forall_mem_append.2 ⟨?_, plainOp_counters⟩, plainOp_releaseOp⟩
    simp [PlainOp]
  | retry =>
    unfold Result.ops retryOps
    rw [flatMap_ofOps]
    refine forall_mem_append.2 ⟨forall_mem_append.2 ⟨forall_mem_cons.2 ⟨fun hlane => ?_, ?_⟩,
      plainOp_due⟩, plainOp_counters⟩
    · obtain ⟨x, hx⟩ := Option.ne_none_iff_exists'.1 hlane
      exact hT x.1 x.2 hx
    · simp [PlainOp]
  | dead j time error class? owner =>
    unfold Result.ops deadOps
    rw [flatMap_append, flatMap_ofOps]
    refine forall_mem_append.2 ⟨forall_mem_append.2 ⟨forall_mem_append.2
      ⟨forall_mem_append.2 ⟨?_, ?_⟩, ?_⟩, plainOp_counters⟩, plainOp_releaseOp⟩
    · refine forall_mem_singleton.2 fun hlane => ?_
      obtain ⟨x, hx⟩ := Option.ne_none_iff_exists'.1 hlane
      exact hT x.1 x.2 hx
    · simp [leave, PlainOp]
    · simp [PlainOp]
  | orphan =>
    unfold Result.ops orphanOps
    rw [flatMap_append, flatMap_ofOps]
    refine forall_mem_append.2 ⟨forall_mem_append.2 ⟨?_, plainOp_counters⟩, plainOp_releaseOp⟩
    simp [leave, PlainOp]
  | expand ord =>
    unfold Result.ops expandOps orphanOps
    simp only [flatMap_append, flatMap_ofOps]
    refine forall_mem_append.2 ⟨forall_mem_append.2 ⟨?_, forall_mem_append.2
      ⟨forall_mem_append.2 ⟨?_, plainOp_counters⟩, @plainOp_releaseOp T st ord none t durable⟩⟩, ?_⟩
    · refine forall_mem_flatMap.2 fun p _ => ?_
      refine forall_mem_append.2 ⟨forall_mem_append.2 ⟨?_, plainOp_due⟩, plainOp_counters⟩
      simp [PlainOp, newRow]
    · simp [leave, PlainOp]
    · split <;> simp [PlainOp]

section Flush

variable {rs : List Result} {t : Ms} {durable : Nat} {kept : List (Cell × Obs)}
  (h : Inv T s g) (hrelied : Relied T g.cells (kept ++ rs.flatMap Result.relies)) {r : Result}

include hrelied in
theorem Relied.flushed (hr : r ∈ rs) (hc : c ∈ r.relies)
    (hT : tracks T c.1 = true) : obs (g.cells.get c.1) = c.2 :=
  hrelied.holds c (mem_append_right _ (mem_flatMap.2 ⟨r, hr, hc⟩)) hT

include hrelied in
theorem Relied.flushed_nodup : (∀ r ∈ rs, ((r.relies.map Prod.fst).filter (tracks T)).Nodup) ∧
      rs.Pairwise fun r r' => ∀ c ∈ r.relies, ∀ c' ∈ r'.relies, tracks T c.1 = true →
      c.1 ≠ c'.1 := by
  have hall := hrelied.right.nodup
  rw [map_flatMap, filter_flatMap, nodup_flatMap] at hall
  refine ⟨hall.1, hall.2.imp fun hdis c hc c' hc' hT hsame => ?_⟩
  refine hdis (mem_filter.2 ⟨mem_map_of_mem hc, hT⟩) (mem_filter.2 ⟨?_, hT⟩)
  rw [hsame]
  exact mem_map_of_mem hc'

theorem Result.relies_not_member (hc : c ∈ r.relies) (o : Nat) (l : Lane)
    (n : Nat) : c.2 ≠ .row (.member o l n) := by
  rcases r.held c hc with ⟨a, b, o', k, rfl⟩ | ⟨o', l', a, b, k, rfl, -⟩ |
    ⟨a, b, b', o', k, rfl, -⟩ <;> simp

include h hrelied

theorem Inv.flush_nodup_one (hr : r ∈ rs) :
    ((track T (r.moves s.store t durable)).map Move.cell).Nodup := by
  unfold Result.moves
  rw [track_append, h.tracked_lanes]
  refine nodup_append_cells ?_ ?_ fun m hm m' hm' => ?_
  · rw [map_cell_track]
    have hsub : (r.own.map Move.cell).Sublist (r.relies.map Prod.fst) := by
      have := r.own_sublist.map Prod.fst
      rwa [map_map] at this
    exact (hrelied.flushed_nodup.1 r hr).sublist (hsub.filter _)
  · rcases r.lanes_cases s.store t durable with hnil | ⟨l, key, -, hhand | hstay⟩
    · rw [hnil]
      exact nodup_nil
    · rw [hhand]
      exact hand_nodup _
    · rw [hstay]
      exact nodup_singleton _
  · obtain ⟨hm, hT⟩ := mem_track.1 hm
    obtain ⟨q, i, hcell⟩ := Result.own_row hm
    have hobs := hrelied.flushed hr (Result.own_relies hm) hT
    intro hsame
    rcases r.lanes_cases s.store t durable with hnil | ⟨l, key, -, hhand | hstay⟩
    · rw [hnil] at hm'
      cases hm'
    · rw [hhand] at hm'
      rcases mem_hand h.models h.good h.plain hm' with ⟨dst, rfl⟩ | ⟨q', i', n, v, rfl, -, hv, -⟩
      · rw [hsame] at hcell
        cases hcell
      · have hmember := hobs
        rw [show (m.cell, m.src).1 = Cell.row q' i' from hsame, hv] at hmember
        exact Result.relies_not_member (Result.own_relies hm) _ _ _ hmember.symm
    · rw [hstay] at hm'
      obtain rfl := mem_singleton.1 hm'
      rw [hsame] at hcell
      cases hcell

theorem Inv.flush_nodup :
    ((track T (rs.flatMap (Result.moves s.store t durable))).map Move.cell).Nodup := by
  rw [track_flatMap, map_flatMap, nodup_flatMap]
  refine ⟨fun r hr => h.flush_nodup_one hrelied hr, ?_⟩
  refine hrelied.flushed_nodup.2.imp_of_mem fun {r r'} hr hr' hapart c hc hc' => ?_
  obtain ⟨m, hm, rfl⟩ := mem_map.1 hc
  obtain ⟨m', hm', hsame⟩ := mem_map.1 hc'
  obtain ⟨hm, hT⟩ := mem_track.1 hm
  obtain ⟨hm', hT'⟩ := mem_track.1 hm'
  rcases h.mem_moves hm with hrel | ⟨l, q, i, n, v, rfl, hv, -, hhead⟩
  · have hobs := hrelied.flushed hr hrel hT
    rcases h.mem_moves hm' with hrel' | ⟨l', q', i', n', v', rfl, hv', -, -⟩
    · exact hapart _ hrel _ hrel' hT hsame.symm
    · rw [show (m.cell, m.src).1 = Cell.row q' i' from hsame.symm, hv'] at hobs
      exact Result.relies_not_member hrel _ _ _ hobs.symm
  · rcases h.mem_moves hm' with hrel' | ⟨l', q', i', n', v', rfl, hv', -, hhead'⟩
    · have hobs := hrelied.flushed hr' hrel' hT'
      rw [show (m'.cell, m'.src).1 = Cell.row q i from hsame, hv] at hobs
      exact Result.relies_not_member hrel' _ _ _ hobs.symm
    · obtain ⟨rfl, rfl⟩ := Cell.row.inj hsame
      rw [hv] at hv'
      obtain ⟨-, ho, rfl, -⟩ : v = v' ∧ r.ord = r'.ord ∧ l = l' ∧ n = n' := by simpa using hv'
      refine hapart _ hhead _ hhead' rfl ?_
      rw [ho]

theorem Inv.flush_fits :
    index.Fits g.cells (track T (rs.flatMap (Result.moves s.store t durable))) := by
  intro m hm
  obtain ⟨hm, hT⟩ := mem_track.1 hm
  obtain ⟨r, hr, hm⟩ := mem_flatMap.1 hm
  rcases h.mem_moves hm with hrel | ⟨l, q, i, n, v, rfl, hv, -, -⟩
  · exact hrelied.flushed hr hrel hT
  · show obs (g.cells.get (.row q i)) = _
    rw [hv]
    rfl

theorem Inv.flush_apart (hheld : Held kept) :
    ∀ m ∈ track T (rs.flatMap (Result.moves s.store t durable)), ∀ c ∈ kept, m.cell ≠ c.1 := by
  intro m hm c hc
  obtain ⟨hm, hT⟩ := mem_track.1 hm
  obtain ⟨r, hr, hm⟩ := mem_flatMap.1 hm
  rcases h.mem_moves hm with hrel | ⟨l, q, i, n, v, rfl, hv, -, -⟩
  · intro hsame
    refine hrelied.apart hc (mem_flatMap.2 ⟨r, hr, hrel⟩) (hsame ▸ hT) hsame.symm
  · exact hrelied.left.not_row hheld hT (congrArg obs hv) (by simp) c hc

theorem Inv.flush_old (hok : ∀ r ∈ rs, r.Ok T) :
    ∀ m ∈ track T (rs.flatMap (Result.moves s.store t durable)), Old s.nextSeq m := by
  intro m hm
  obtain ⟨hm, hT⟩ := mem_track.1 hm
  obtain ⟨r, hr, hm⟩ := mem_flatMap.1 hm
  rcases mem_append.1 hm with hm | hm
  · -- a new row of an expansion belongs to the hook of the claimed one
    cases r with
    | expand ord seq sink size sourceId sinks =>
      rcases mem_cons.1 hm with rfl | hm
      · exact ⟨fun hnone => (nomatch hnone), fun _ _ _ _ he => (nomatch he)⟩
      obtain ⟨p, hp, rfl⟩ := mem_map.1 hm
      refine ⟨fun _ => ⟨not_le.1 fun hle => ?_, ?_⟩, fun _ _ _ _ he => (nomatch he)⟩
      · have hclaimed : obs (g.cells.get (.row seq sink)) = .row (.inflight ord size) :=
          hrelied.flushed hr (Result.claimed_mem _) hT
        rw [h.fresh _ _ hle] at hclaimed
        cases hclaimed
      · have hlen : sinks.length ≤ unresolvedDead := hok _ hr
        have hlt := (mem_zipIdx (mem_filter.1 hp).1).2.1
        exact decide_eq_false (by omega)
    | _ =>
      obtain rfl := mem_singleton.1 hm
      exact ⟨fun hnone => (nomatch hnone), fun _ _ _ _ he => (nomatch he)⟩
  · rcases r.lanes_cases s.store t durable with hnil | ⟨l, key, -, hhand | hstay⟩
    · rw [hnil] at hm
      cases hm
    · rw [hhand] at hm
      exact hand_old h.models h.good h.plain _ hm
    · rw [hstay] at hm
      obtain rfl := mem_singleton.1 hm
      trivial

theorem Inv.flush_sound (hok : ∀ r ∈ rs, r.Ok T) :
    ∀ m ∈ track T (rs.flatMap (Result.moves s.store t durable)),
      Sound g.cells (track T (rs.flatMap (Result.moves s.store t durable))) m := by
  intro m hm
  obtain ⟨hm, hT⟩ := mem_track.1 hm
  obtain ⟨r, hr, hm⟩ := mem_flatMap.1 hm
  have hin : ∀ m' ∈ r.moves s.store t durable, tracks T m'.cell = true →
      m' ∈ track T (rs.flatMap (Result.moves s.store t durable)) :=
    fun m' hm' hT' => mem_track.2 ⟨mem_flatMap.2 ⟨r, hr, hm'⟩, hT'⟩
  have hlanes : ∀ m' ∈ r.lanes s.store t durable,
      m' ∈ track T (rs.flatMap (Result.moves s.store t durable)) := by
    intro m' hm'
    refine hin m' (mem_append_right _ hm') ?_
    rw [← h.tracked_lanes] at hm'
    exact (mem_track.1 hm').2
  rcases mem_append.1 hm with hm | hm
  · cases r with
    | delivered | orphan =>
      obtain rfl := mem_singleton.1 hm
      exact .lays (.gone ..)
    | retry j time error =>
      obtain rfl := mem_singleton.1 hm
      have halive : j.row.state ≠ .dead := hok _ hr hT
      refine .stay _ _ _ (retried j.row time error) _ ⟨halive, fun hlane => ?_⟩ fun l key hlane =>
        ?_
      · have hlane : j.row.lane.isSome = true := hlane
        simp [retryKind, hlane, headKind]
      · refine hlanes _ ?_
        have hlane : j.row.lane = some (l, key) := hlane
        simp [Result.lanes, stayOn, hlane, Place.ord]
    | dead j time error class? owner =>
      obtain rfl := mem_singleton.1 hm
      exact .lays (.put _ _ _ (buried j.row time error class?) _ rfl fun hlive => nomatch hlive)
    | expand =>
      rcases mem_cons.1 hm with rfl | hm
      · exact .lays (.gone ..)
      · obtain ⟨p, -, rfl⟩ := mem_map.1 hm
        exact .lays (.put _ _ _ _ _ ⟨by simp [newRow], fun hlane => by simp [newRow] at hlane⟩
          fun _ => rfl)
  · rcases r.lanes_cases s.store t durable with hnil | ⟨l, key, hlane, hhand | hstay⟩
    · rw [hnil] at hm
      cases hm
    · rw [hhand] at hm hlanes
      refine hand_sound h.models h.good h.plain hlanes (fun id hid => .inl ?_) hm
      -- the row that passes the lane on leaves in the same batch
      cases hid
      have hseq : T r.id.1 = true := hrelied.lanes r.ord l _ _
        (mem_append_right _ (mem_flatMap.2 ⟨r, hr, Result.head_mem hlane⟩))
      have hrow : ∃ m' ∈ r.own, m'.cell = .row r.id.1 r.id.2 := by
        cases r <;> exact ⟨_, mem_cons_self, rfl⟩
      obtain ⟨m', hm', hcell⟩ := hrow
      rw [← hcell]
      refine mem_map_of_mem (hin m' (mem_append_left _ hm') ?_)
      rw [hcell]
      exact hseq
    · rw [hstay] at hm
      obtain rfl := mem_singleton.1 hm
      exact .keep ..

omit h in
theorem Relied.releases_nodup : (releases (rs.flatMap Result.ops)).Nodup := by
  have hsub : ∀ r : Result, ((releases r.ops).map fun x => Cell.head x.1 x.2).Sublist
      ((r.relies.map Prod.fst).filter (tracks T)) := by
    have hlane : ∀ o row id n, ((releases (releaseOp o row)).map fun x => Cell.head x.1 x.2).Sublist
        ((((Cell.row id.1 id.2, Obs.row (.inflight o n)) :: laneRelies o row id).map
            Prod.fst).filter (tracks T)) := by
      intro o row id n
      rw [map_cons, filter_cons]
      have htail : ((releases (releaseOp o row)).map fun x => Cell.head x.1 x.2).Sublist
          (((laneRelies o row id).map Prod.fst).filter (tracks T)) := by
        unfold releaseOp laneRelies
        rcases row.bind Row.lane with _ | ⟨l, key⟩
        all_goals exact .refl _
      split
      · exact htail.cons _
      · exact htail
    intro r
    cases r with
    | delivered j =>
      have hops : releases (Result.delivered j).ops = releases (releaseOp j.ord (some j.row)) := by
        simp [Result.ops, deliveredOps]
      rw [hops]
      exact hlane j.ord (some j.row) (j.seq, j.sink) j.size
    | retry => simp [Result.ops, retryOps]
    | dead j time error class? owner =>
      have hops : releases (Result.dead j time error class? owner).ops =
          releases (releaseOp j.ord (some j.row)) := by
        simp [Result.ops, deadOps, release, releaseOp]
      rw [hops]
      exact hlane j.ord (some j.row) (j.seq, j.sink) j.size
    | orphan ord seq sink size row =>
      have hops : releases (Result.orphan ord seq sink size row).ops =
          releases (releaseOp ord row) := by
        simp [Result.ops, orphanOps, release]
      rw [hops]
      exact hlane ord row (seq, sink) size
    | expand =>
      simp [Result.ops, expandOps, orphanOps, release, releaseOp]
  refine List.Nodup.of_map (fun x => Cell.head x.1 x.2) (hrelied.right.nodup.sublist ?_)
  rw [releases_flatMap, map_flatMap, map_flatMap, filter_flatMap]
  exact List.Sublist.flatMap_right _ fun r _ => hsub r

/-- The outcomes of a flush, written in one batch. -/
theorem Inv.ready_flush (hheld : Held kept) (hok : ∀ r ∈ rs, r.Ok T) :
    Ready T s.nextSeq kept g.cells (buildOps s.store t durable (rs.flatMap Result.ops))
      (track T (rs.flatMap (Result.moves s.store t durable))) where
  does := does_flush hrelied.releases_nodup (h.flush_nodup hrelied)
  fits := h.flush_fits hrelied
  old := h.flush_old hrelied hok
  shaped m hm := (h.flush_sound hrelied hok m hm).shaped
  tracked m hm := (mem_track.1 hm).2
  apart := h.flush_apart hrelied hheld
  good := h.good.sound (h.flush_nodup hrelied) (h.flush_fits hrelied) (h.flush_sound hrelied hok)
  plain := by
    unfold buildOps
    rw [expand_eq_flatMap _ _ _ _ _ hrelied.releases_nodup fun _ _ => not_mem_nil]
    refine plainOp_coalesce fun op hop => ?_
    obtain ⟨b, hb, hop⟩ := mem_flatMap.1 hop
    obtain ⟨r, hr, hb⟩ := mem_flatMap.1 hb
    refine r.plainOp (fun l key hlane => ?_) s.store t durable op (mem_flatMap.2 ⟨b, hb, hop⟩)
    exact hrelied.lanes r.ord l _ _
      (mem_append_right _ (mem_flatMap.2 ⟨r, hr, Result.head_mem hlane⟩))

end Flush

end Build

end Ankusa.Delivery
